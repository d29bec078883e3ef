import ReluVerify.Constraint.Bounds
import ReluVerify.Constraint.Equation
import ReluVerify.Constraint.Relu
import ReluVerify.Query.Tableau

namespace ReluVerify

structure Query (α : Type) where
  constant : Nat
  tableau : Tableau α
  relus : ReluList
  bounds : List (Bounds α)

namespace Query

variable {α : Type}

def numVariables (q : Query α) : Nat := q.bounds.length

def boundsOf (q : Query α) (v : Nat) : Bounds α := q.bounds[v]?.getD Bounds.free

structure OutsideError where
  var : Nat
  count : Nat
  deriving DecidableEq, Repr

def OutsideError.message (e : OutsideError) : String :=
  s!"bound on {label e.var} outside query of {e.count} variables"

def modifyBounds (q : Query α) (v : Nat) (f : Bounds α → Bounds α) :
    Except OutsideError (Query α) :=
  if v < q.numVariables then .ok { q with bounds := q.bounds.modify v f }
  else .error ⟨v, q.numVariables⟩

def setLower (q : Query α) (v : Nat) (x : α) : Except OutsideError (Query α) :=
  q.modifyBounds v (·.withLower x)

def setUpper (q : Query α) (v : Nat) (x : α) : Except OutsideError (Query α) :=
  q.modifyBounds v (·.withUpper x)

def fixAll (q : Query α) : List (Nat × α) → Except OutsideError (Query α)
  | [] => .ok q
  | (v, x) :: rest => do
      let q ← q.setLower v x
      let q ← q.setUpper v x
      q.fixAll rest

end Query

end ReluVerify
