import ReluVerify.Number.Binary64

namespace ReluVerify

inductive Tie where
  | toEven
  | up
  deriving DecidableEq, Repr

def roundDiv (tie : Tie) (n d : Nat) : Nat :=
  let q := n / d
  let r := n % d
  if 2 * r < d then q
  else if d < 2 * r then q + 1
  else match tie with
    | .up => q + 1
    | .toEven => q + q % 2

def scaleBinary (n d : Nat) (e : Int) : Nat × Nat :=
  if 0 ≤ e then (n, d <<< e.toNat) else (n <<< (-e).toNat, d)

def scaleDecimal (n d : Nat) (e : Int) : Nat × Nat :=
  if 0 ≤ e then (n, d * Nat.pow 10 e.toNat) else (n * Nat.pow 10 (-e).toNat, d)

namespace Binary64

def minExponent : Int := -1074

def fractionBits : Nat := 52

def infinityBits : Nat := 0x7ff <<< fractionBits

def unitExponent (n d : Nat) : Int :=
  let e : Int := n.log2 - d.log2 - 53
  let (a, b) := scaleBinary n d e
  max (if a < b <<< 53 then e else e + 1) minExponent

def nearestBits (n d : Nat) : Nat :=
  if n = 0 then 0
  else
    let e := unitExponent n d
    let (a, b) := scaleBinary n d e
    min (((e - minExponent).toNat <<< fractionBits) + roundDiv .toEven a b) infinityBits

def nearest (n d : Nat) : Float := Float.ofBits (nearestBits n d).toUInt64

-- The two shortcuts keep the exact quotient small: 8 ≤ 10 ≤ 16 bounds the power of ten by powers of
-- two.
def ofDecimal (digits : Nat) (exponent : Int) : Float :=
  let size : Int := digits.log2
  if digits = 0 then 0
  else if 1100 < size + (if 0 ≤ exponent then 3 else 4) * exponent then infinity
  else if size + (if 0 ≤ exponent then 4 else 3) * exponent < -1100 then 0
  else if 0 ≤ exponent then nearest (digits * Nat.pow 10 exponent.toNat) 1
  else nearest digits (Nat.pow 10 (-exponent).toNat)

inductive Magnitude where
  | nan
  | infinite
  | finite (mantissa : Nat) (exponent : Int)
  deriving DecidableEq, Repr

def isNegative (x : Float) : Bool := x.toBits >>> 63 == 1

def magnitude (x : Float) : Magnitude :=
  let bits := x.toBits.toNat % Nat.pow 2 63
  let field := bits >>> fractionBits
  let fraction := bits % Nat.pow 2 fractionBits
  if field = 0x7ff then if fraction = 0 then .infinite else .nan
  else if field = 0 then .finite fraction minExponent
  else .finite (fraction + Nat.pow 2 fractionBits) (field - 1 + minExponent)

end Binary64

end ReluVerify
