import ReluVerify.Number.Scalar

namespace ReluVerify

structure Constants (α : Type) where
  rangeH : α
  rangeV : α
  rangeTau : α
  meanTau : α
  hp : α
  deriving DecidableEq, Repr

structure Encounter (α : Type) where
  h : α
  own : α
  intruder : α
  tau : α
  deriving DecidableEq, Repr

namespace Encounter

variable {α : Type}

def toList (e : Encounter α) : List α := [e.h, e.own, e.intruder, e.tau]

def ofList (default : α) (xs : List α) : Encounter α :=
  ⟨xs.getD 0 default, xs.getD 1 default, xs.getD 2 default, xs.getD 3 default⟩

end Encounter

namespace Constants

variable {α : Type} [Scalar α]

def standard : Constants α := ⟨16000.0, 200.0, 34.0, 23.84210526, 100.0⟩

def physical (c : Constants α) (e : Encounter α) : Encounter α :=
  ⟨e.h * c.rangeH, e.own * c.rangeV, e.intruder * c.rangeV, e.tau * c.rangeTau + c.meanTau⟩

end Constants

end ReluVerify
