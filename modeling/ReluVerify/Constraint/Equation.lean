import ReluVerify.Number.Scalar

namespace ReluVerify

def label (v : Nat) : String := s!"x{v}"

structure Equation (α : Type) where
  aux : Nat
  terms : List (α × Nat)
  scalar : α
  deriving DecidableEq, Repr

namespace Equation

variable {α : Type}

def vars (e : Equation α) : List Nat := e.aux :: e.terms.map (·.2)

variable [Scalar α]

def ofTerms (aux : Nat) (terms : List (α × Nat)) : Equation α := ⟨aux, terms, 0⟩

def residual (e : Equation α) (value : Nat → α) : α :=
  Scalar.total (e.terms.map (fun t => t.1 * value t.2)) - e.scalar

end Equation

end ReluVerify
