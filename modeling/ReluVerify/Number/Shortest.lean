import ReluVerify.Number.Rounding

namespace ReluVerify

structure Decimal where
  digits : Nat
  exponent : Int
  deriving DecidableEq, Repr

namespace Decimal

def trim : (fuel : Nat) → Decimal → Decimal
  | 0, d => d
  | fuel + 1, d =>
      if d.digits ≠ 0 && d.digits % 10 == 0 then trim fuel ⟨d.digits / 10, d.exponent + 1⟩ else d

-- The decimals that round to a value lie from low to high, in units of 2 ^ unit, the ends included
-- or not; the value itself is mid.
structure Interval where
  low : Nat
  mid : Nat
  high : Nat
  closed : Bool
  unit : Int
  deriving DecidableEq, Repr

-- Just above a power of two the neighbour below is nearer.
def Interval.around (mantissa : Nat) (exponent : Int) : Interval :=
  let narrow := mantissa == Nat.pow 2 Binary64.fractionBits && Binary64.minExponent < exponent
  ⟨4 * mantissa - (if narrow then 1 else 2), 4 * mantissa, 4 * mantissa + 2,
    mantissa % 2 == 0, exponent - 2⟩

def Interval.inSteps (i : Interval) (n : Nat) (e : Int) : Nat × Nat :=
  let (a, b) := scaleBinary n 1 (-i.unit)
  scaleDecimal a b e

def Interval.holds (i : Interval) (e : Int) (d : Nat) : Bool :=
  let (l, b) := i.inSteps i.low e
  let (h, _) := i.inSteps i.high e
  if i.closed then l ≤ d * b && d * b ≤ h else l < d * b && d * b < h

def Interval.onGrid? (i : Interval) (tie : Tie) (e : Int) : Option Decimal :=
  let (n, b) := i.inSteps i.mid e
  let d := n / b
  match i.holds e d, i.holds e (d + 1) with
  | true, true => some ⟨roundDiv tie n b, e⟩
  | true, false => some ⟨d, e⟩
  | false, true => some ⟨d + 1, e⟩
  | false, false => none

def leadingExponent (mantissa : Nat) (exponent : Int) : Int :=
  let guess : Int := ((mantissa.log2 : Int) + exponent) * 30103 / 100000 - 1
  let (a, b) := scaleBinary mantissa 1 (-exponent)
  let reaches (e : Int) : Bool := let (n, d) := scaleDecimal a b e; decide (d ≤ n)
  if reaches (guess + 2) then guess + 2 else if reaches (guess + 1) then guess + 1 else guess

-- Seventeen digits always suffice.
def shortest (tie : Tie) (mantissa : Nat) (exponent : Int) : Decimal :=
  let i := Interval.around mantissa exponent
  let lead := leadingExponent mantissa exponent
  let grids := (List.range 17).map (fun k : Nat => lead - (k : Int))
  trim 17 ((grids.findSome? (i.onGrid? tie)).getD ⟨mantissa, exponent⟩)

end Decimal

end ReluVerify
