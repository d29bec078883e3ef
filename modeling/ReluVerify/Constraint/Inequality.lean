import ReluVerify.Constraint.Network

namespace ReluVerify

inductive InequalityError (α : Type) where
  | arity (vars coefficients : Nat)
  | coefficient (value : α)
  | rightSide (value : α)

def InequalityError.message {α : Type} (text : α → String) : InequalityError α → String
  | .arity v c => s!"arity mismatch: {v} variables but {c} coefficients"
  | .coefficient x => s!"non-finite value {text x} for inequality coefficient"
  | .rightSide x => s!"non-finite value {text x} for inequality right-hand side"

namespace Network

variable {α : Type} [Scalar α]

def inequality (slack : Nat) (vars : List Nat) (coefficients : List α) (rhs : α) : Equation α :=
  ⟨slack, coefficients.zip vars ++ [(1, slack)], rhs⟩

-- a step on the network that answers the slack
def addInequality (vars : List Nat) (coefficients : List α) (rhs : α) :
    ExceptT (InequalityError α) (StateM (Network α)) Nat := do
  if vars.length ≠ coefficients.length then throw (.arity vars.length coefficients.length)
  match coefficients.find? (fun c => !Scalar.isFinite c) with
  | some c => throw (.coefficient c)
  | none =>
      if !Scalar.isFinite rhs then throw (.rightSide rhs)
      let slack ← modifyGet newVariable
      modify (·.addEquation (inequality slack vars coefficients rhs))
      modify (·.setLower slack 0)
      return slack

end Network

end ReluVerify
