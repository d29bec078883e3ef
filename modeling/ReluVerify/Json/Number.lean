import ReluVerify.Json.Basic
import ReluVerify.Number.Rounding

namespace ReluVerify.JsonNumber

def maxSignificand : Nat := Nat.pow 2 64 - 1

-- The leading digits of a number as one 64-bit significand; once a digit does not fit, no further
-- ones are taken.
structure Significand where
  value : Nat
  exponent : Int
  full : Bool
  deriving DecidableEq, Repr

def Significand.push (taken dropped : Int) (s : Significand) (c : Char) : Significand :=
  let next := s.value * 10 + (c.toNat - '0'.toNat)
  if s.full || maxSignificand < next then { s with exponent := s.exponent + dropped, full := true }
  else { s with value := next, exponent := s.exponent + taken }

def significand (n : JsonNumber) : Significand :=
  let whole := n.whole.foldl (Significand.push 0 1) ⟨0, 0, false⟩
  (n.fraction.getD []).foldl (Significand.push (-1) 0) { whole with full := false }

def maxPower : Nat := 308

def powerOfTen (e : Nat) : Float := Binary64.ofDecimal 1 e

def scaleDown : (fuel : Nat) → Float → Nat → Float
  | 0, x, _ => x
  | fuel + 1, x, e =>
      if e ≤ maxPower then x / powerOfTen e
      else if x == 0 then x
      else scaleDown fuel (x / powerOfTen maxPower) (e - maxPower)

-- A value is zero after three steps down.
def scale? (x : Float) (e : Int) : Option Float :=
  if e < 0 then some (scaleDown 8 x (-e).toNat)
  else if maxPower < e.toNat then if x == 0 then some x else none
  else
    let y := x * powerOfTen e.toNat
    if y.isInf then none else some y

def maxExponent : Nat := Nat.pow 2 31 - 1

def digitsValue (ds : List Char) : Nat := ds.foldl (fun n c => 10 * n + (c.toNat - '0'.toNat)) 0

def magnitude? (n : JsonNumber) : Option Float :=
  let s := n.significand
  let x := Binary64.nearest s.value 1
  match n.exponent with
  | none =>
      if n.fraction.isNone && s.exponent == 0 then some x else scale? x s.exponent
  | some (negative, ds) =>
      let e := digitsValue ds
      if maxExponent < e then if negative || s.value = 0 then some 0 else none
      else scale? x (s.exponent + (if negative then -(e : Int) else e))

def toFloat? (n : JsonNumber) : Option Float :=
  n.magnitude?.map (fun x => if n.negative then -x else x)

end ReluVerify.JsonNumber
