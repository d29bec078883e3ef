import ReluVerify.Layered.Basic
import ReluVerify.Solve

namespace ReluVerify.LayeredNetwork

variable {α : Type} [Scalar α]

def neuronEquation (previous : List Nat) (neuron : Nat) (row : List α) (bias : α) : Equation α :=
  let terms := ((row.zip previous).filter (fun p => !Scalar.isZero p.1)).map
    (fun p => (-p.1, p.2))
  ⟨neuron, (1, neuron) :: terms, bias⟩

def addNeurons (previous : List Nat) (l : Layer α) (n : Network α) : List Nat × Network α :=
  let (neurons, n) := n.newVariables l.width
  let equations := ((neurons.zip l.weights).zip l.biases).map
    (fun p => neuronEquation previous p.1.1 p.1.2 p.2)
  (neurons, { n with equations := n.equations ++ equations })

def addActivations (neurons : List Nat) (n : Network α) : List Nat × Network α :=
  let (activated, n) := n.newVariables neurons.length
  (activated, { n with relus := n.relus ++ List.zipWith ReluPair.mk neurons activated })

def encodeLayers : List (Layer α) → (previous : List Nat) → Network α → List Nat × Network α
  | [], previous, n => (previous, n)
  | [l], previous, n => addNeurons previous l n
  | l :: rest, previous, n =>
      let (neurons, n) := addNeurons previous l n
      let (activated, n) := addActivations neurons n
      encodeLayers rest activated n

def toNetwork (net : LayeredNetwork α) : Network α :=
  let (inputs, n) := Network.empty.newVariables net.inputSize
  let (outputs, n) := encodeLayers net.layers inputs n
  (n.withInputs inputs).withOutputs outputs

inductive ComparisonError where
  | arity (cause : InputArityError)
  | evaluation (cause : EvaluationError)
  deriving DecidableEq, Repr

def ComparisonError.message : ComparisonError → String
  | .arity cause => cause.message
  | .evaluation cause => cause.message

def findError (net : LayeredNetwork α) (engine : Engine α) (cancelled : Bool) (xs : List α) :
    Except ComparisonError (List α) := do
  let direct ← (net.forward xs).mapError .arity
  let solved ← (engine.evaluate cancelled net.toNetwork xs).mapError .evaluation
  return List.zipWith (fun a b => Scalar.abs (a - b)) direct solved

end ReluVerify.LayeredNetwork
