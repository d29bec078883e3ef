import ReluVerify.Constraint.Network
import ReluVerify.Query.Basic

namespace ReluVerify

inductive Role where
  | auxiliary
  | term
  | reluInput
  | reluOutput
  | bound
  deriving DecidableEq, Repr

def Role.text : Role → String
  | .auxiliary => "equation auxiliary"
  | .term => "equation term"
  | .reluInput => "ReLU input"
  | .reluOutput => "ReLU output"
  | .bound => "bound"

inductive MalformedNetwork where
  | unallocated (role : Role) (var count : Nat)
  | sharedAuxiliary (var : Nat)
  deriving DecidableEq, Repr

def MalformedNetwork.message : MalformedNetwork → String
  | .unallocated role v count =>
      s!"{role.text} references unallocated variable {label v} (network has {count} variables)"
  | .sharedAuxiliary v => s!"auxiliary variable {label v} owns more than one equation"

namespace Query

variable {α : Type} [Scalar α]

def checkAllocated (role : Role) (count v : Nat) : Except MalformedNetwork Unit :=
  if v < count then .ok () else .error (.unallocated role v count)

def writeRow (constant : Nat) (t : Tableau α) (e : Equation α) : Tableau α :=
  let t := e.terms.foldl (fun t p => t.addCell e.aux p.2 p.1) t
  (t.markBasic e.aux).addCell e.aux constant e.scalar

def addRow (constant : Nat) (t : Tableau α) (e : Equation α) :
    Except MalformedNetwork (Tableau α) := do
  checkAllocated .auxiliary constant e.aux
  if t.hasRow e.aux then .error (.sharedAuxiliary e.aux)
  e.terms.forM (fun p => checkAllocated .term constant p.2)
  return writeRow constant t e

def networkBounds (n : Network α) : List (Bounds α) :=
  (List.range n.numVars).map n.boundsOf ++ [Bounds.point 1]

def compile (n : Network α) : Except MalformedNetwork (Query α) := do
  let tableau ← n.equations.foldlM (addRow n.numVars) Tableau.empty
  n.relus.forM (fun p => do
    checkAllocated .reluInput n.numVars p.input
    checkAllocated .reluOutput n.numVars p.output)
  n.bounds.keys.forM (checkAllocated .bound n.numVars)
  return ⟨n.numVars, tableau, n.relus, networkBounds n⟩

end Query

end ReluVerify
