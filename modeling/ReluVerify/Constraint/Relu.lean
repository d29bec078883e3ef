import ReluVerify.Number.Scalar

namespace ReluVerify

structure ReluPair where
  input : Nat
  output : Nat
  deriving DecidableEq, Repr

def ReluPair.holds {α : Type} [Scalar α] (input output tolerance : α) : Bool :=
  decide (Scalar.abs (output - Scalar.larger input 0) ≤ tolerance)

abbrev ReluList := List ReluPair

def ReluList.mentions (pairs : ReluList) (v : Nat) : Bool :=
  pairs.any (fun p => p.input == v || p.output == v)

end ReluVerify
