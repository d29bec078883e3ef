import ReluVerify.Number.Scalar

namespace ReluVerify

structure Normalization (α : Type) where
  mins : List α
  maxes : List α
  means : List α
  ranges : List α
  deriving DecidableEq, Repr

structure Layer (α : Type) where
  weights : List (List α)
  biases : List α
  deriving DecidableEq, Repr

structure LayeredNetwork (α : Type) where
  inputSize : Nat
  layers : List (Layer α)
  normalization : Option (Normalization α) := none
  deriving DecidableEq, Repr

inductive ShapeCause where
  | noLayers
  | layerCounts (weights biases : Nat)
  | rowCount (rows biases : Nat)
  | rowLength (length expected : Nat)
  deriving DecidableEq, Repr

structure ShapeError where
  layer : Nat
  cause : ShapeCause
  deriving DecidableEq, Repr

def ShapeCause.text : ShapeCause → String
  | .noLayers => "network needs at least one layer"
  | .layerCounts w b => s!"{w} weight matrices but {b} bias vectors"
  | .rowCount w b => s!"{w} weight rows but {b} biases"
  | .rowLength got expected => s!"weight row of length {got} where {expected} expected"

def ShapeError.message (e : ShapeError) : String := s!"layer {e.layer}: {e.cause.text}"

structure InputArityError where
  expected : Nat
  got : Nat
  deriving DecidableEq, Repr

def InputArityError.message (e : InputArityError) : String :=
  s!"expected {e.expected} inputs, got {e.got}"

namespace Layer

variable {α : Type}

def width (l : Layer α) : Nat := l.weights.length

def fault? (fanIn : Nat) (l : Layer α) : Option ShapeCause :=
  if l.weights.length ≠ l.biases.length then some (.rowCount l.weights.length l.biases.length)
  else
    (l.weights.find? (fun row => row.length != fanIn)).map
      (fun row => .rowLength row.length fanIn)

end Layer

namespace LayeredNetwork

variable {α : Type}

def checkLayers : (index fanIn : Nat) → List (Layer α) → Except ShapeError Unit
  | _, _, [] => .ok ()
  | index, fanIn, l :: rest =>
      match l.fault? fanIn with
      | some cause => .error ⟨index, cause⟩
      | none => checkLayers (index + 1) l.width rest

def fanIn (weights : List (List (List α))) : Nat :=
  ((weights.head?.bind (·.head?)).map (·.length)).getD 0

def build (weights : List (List (List α))) (biases : List (List α)) :
    Except ShapeError (LayeredNetwork α) :=
  if weights.isEmpty then .error ⟨0, .noLayers⟩
  else if weights.length ≠ biases.length then
    .error ⟨min weights.length biases.length, .layerCounts weights.length biases.length⟩
  else
    let layers := List.zipWith Layer.mk weights biases
    (checkLayers 0 (fanIn weights) layers).map (fun _ => ⟨fanIn weights, layers, none⟩)

def withNormalization (n : LayeredNetwork α) (norm : Normalization α) : LayeredNetwork α :=
  { n with normalization := some norm }

def sizes (n : LayeredNetwork α) : List Nat := n.inputSize :: n.layers.map Layer.width

def outputSize (n : LayeredNetwork α) : Nat := n.sizes.getLastD 0

def numLayers (n : LayeredNetwork α) : Nat := n.layers.length

variable [Scalar α]

def preActivations (l : Layer α) (xs : List α) : List α :=
  List.zipWith (fun row bias => Scalar.dot row xs + bias) l.weights l.biases

def forwardWith (activate : α → α) : List (Layer α) → List α → List α
  | [], xs => xs
  | [l], xs => preActivations l xs
  | l :: rest, xs => forwardWith activate rest ((preActivations l xs).map activate)

def forward (n : LayeredNetwork α) (xs : List α) : Except InputArityError (List α) :=
  if xs.length ≠ n.inputSize then .error ⟨n.inputSize, xs.length⟩
  else .ok (forwardWith (Scalar.larger · 0) n.layers xs)

end LayeredNetwork

end ReluVerify
