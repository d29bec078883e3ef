namespace ReluVerify

class Scalar (α : Type) extends Zero α, One α, Neg α, Add α, Sub α, Mul α, Div α, LT α, LE α,
    OfScientific α where
  ltDec : DecidableLT α
  leDec : DecidableLE α
  ofInt : Int → α
  abs : α → α
  isZero : α → Bool
  isFinite : α → Bool
  -- A total preorder, also on values that are not numbers.
  magnitudeLe : α → α → Bool
  -- A missing bound is infinite, and infinity less an infinite slack is not a number.
  belowNoBound : (value slack : α) → Bool
  aboveNoBound : (value slack : α) → Bool

attribute [reducible, instance] Scalar.ltDec Scalar.leDec

attribute [instance (100)] Scalar.toZero Scalar.toOne Scalar.toNeg Scalar.toAdd
  Scalar.toSub Scalar.toMul Scalar.toDiv Scalar.toLT Scalar.toLE Scalar.toOfScientific

namespace Scalar

variable {α : Type} [Scalar α]

-- A value that is not a number gives way to the other one.
def larger (a b : α) : α := if a < b then b else if a ≤ a then a else b

def smaller (a b : α) : α := if b < a then b else if a ≤ a then a else b

-- Negative zero is the neutral element of addition also for signed zeros.
def total (xs : List α) : α := xs.foldl (· + ·) (-0)

def dot (xs ys : List α) : α := total (List.zipWith (· * ·) xs ys)

end Scalar

end ReluVerify
