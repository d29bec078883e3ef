import ReluVerify.Constraint.Bounds
import ReluVerify.Constraint.Equation
import ReluVerify.Constraint.Relu

namespace ReluVerify

structure Network (α : Type) where
  numVars : Nat
  equations : List (Equation α)
  relus : ReluList
  bounds : BoundStore α
  inputs : List Nat
  outputs : List Nat

namespace Network

variable {α : Type}

def empty : Network α := ⟨0, [], [], VarMap.empty, [], []⟩

instance : Inhabited (Network α) := ⟨empty⟩

def newVariable (n : Network α) : Nat × Network α :=
  (n.numVars, { n with numVars := n.numVars + 1 })

def newVariables (n : Network α) (count : Nat) : List Nat × Network α :=
  ((List.range count).map (n.numVars + ·), { n with numVars := n.numVars + count })

def addEquation (n : Network α) (e : Equation α) : Network α :=
  { n with equations := n.equations ++ [e] }

def addRelu (n : Network α) (input output : Nat) : Network α :=
  { n with relus := n.relus ++ [⟨input, output⟩] }

def setLower (n : Network α) (v : Nat) (x : α) : Network α :=
  { n with bounds := BoundStore.setLower n.bounds v x }

def setUpper (n : Network α) (v : Nat) (x : α) : Network α :=
  { n with bounds := BoundStore.setUpper n.bounds v x }

def fix (n : Network α) (v : Nat) (x : α) : Network α := (n.setLower v x).setUpper v x

def withInputs (n : Network α) (vars : List Nat) : Network α := { n with inputs := vars }

def withOutputs (n : Network α) (vars : List Nat) : Network α := { n with outputs := vars }

def boundsOf (n : Network α) (v : Nat) : Bounds α := BoundStore.bounds n.bounds v

end Network

end ReluVerify
