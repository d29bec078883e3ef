import ReluVerify.Layered.Basic
import ReluVerify.Number.Layout
import ReluVerify.Number.Reader
import ReluVerify.Text.Blank
import ReluVerify.Text.Quoted

namespace ReluVerify

structure NumberFormat (α : Type) where
  read? : String → Option α
  size? : α → Option Nat
  text : α → String

-- Larger sizes count as this one.
def maxSize : Nat := Nat.pow 2 64 - 1

namespace Binary64

def size? (x : Float) : Option Nat :=
  match magnitude x with
  | .finite m e =>
      let (n, d) := scaleBinary m 1 (-e)
      if n % d = 0 && (!isNegative x || m = 0) then some (min (n / d) maxSize) else none
  | _ => none

def format : NumberFormat Float := ⟨Numeral.read?, size?, NumberText.plain⟩

end Binary64

namespace LayeredText

inductive Part where
  | header
  | layerSizes
  | flag
  | minimums
  | maximums
  | means
  | ranges
  | weights
  | bias
  deriving DecidableEq, Repr

def Part.text : Part → String
  | .header => "header"
  | .layerSizes => "layer sizes"
  | .flag => "symmetric flag"
  | .minimums => "input minimums"
  | .maximums => "input maximums"
  | .means => "means"
  | .ranges => "ranges"
  | .weights => "weights"
  | .bias => "bias"

inductive Cause where
  | endOfText (part : Part)
  | badNumber (token : List Char) (part : Part)
  | tooFew (part : Part) (expected found : Nat)
  | notASize (part : Part) (number : String)
  | noLayers
  | sizesDisagree (sizes : List Nat) (inputs outputs : Nat)
  deriving DecidableEq, Repr

def Cause.text : Cause → String
  | .endOfText part => s!"unexpected end of file reading {part.text}"
  | .badNumber token part => s!"invalid number {Text.quoted token} in {part.text}"
  | .tooFew part expected found => s!"{part.text}: expected {expected} values, found {found}"
  | .notASize part number => s!"{part.text}: {number} is not a size"
  | .noLayers => "network has no layers"
  | .sizesDisagree sizes inputs outputs =>
      s!"layer sizes {Text.bracketed sizes} disagree with {inputs} inputs and {outputs} outputs"

inductive Failure where
  | malformed (line : Nat) (cause : Cause)
  | shape (cause : ShapeError)
  | sizeCount
  deriving DecidableEq, Repr

def Failure.message : Failure → String
  | .malformed line cause => s!"line {line}: {cause.text}"
  | .shape cause => cause.message
  | .sizeCount => "attempt to add with overflow"

abbrev Line := Nat × List Char

def isComment (l : Line) : Bool := ['/', '/'].isPrefixOf l.2

-- The lines that are neither in the leading run of comments nor blank after it, with their numbers.
def keptLines (text : List Char) : List Line :=
  let lines := ((text.splitOn '\n').zipIdx 1).map (fun p => (p.2, Text.trim p.1))
  (lines.dropWhile isComment).filter (fun l => !l.2.isEmpty)

def tokens (line : List Char) : List (List Char) :=
  ((line.splitOn ',').map Text.trim).filter (fun t => !t.isEmpty)

structure Cursor where
  rest : List Line
  line : Nat

abbrev Reading := StateT Cursor (Except Failure)

variable {α : Type}

def fail {β : Type} (cause : Cause) : Reading β := fun c => .error (.malformed c.line cause)

def nextLine (part : Part) : Reading (List Char) := fun c =>
  match c.rest with
  | [] => .error (.malformed c.line (.endOfText part))
  | (number, text) :: rest => .ok (text, ⟨rest, number⟩)

def readToken (format : NumberFormat α) (part : Part) (token : List Char) : Reading α :=
  match format.read? (String.ofList token) with
  | some x => pure x
  | none => fail (.badNumber token part)

def values (format : NumberFormat α) (part : Part) (least : Nat) : Reading (List α) := do
  let line ← nextLine part
  let xs ← (tokens line).mapM (readToken format part)
  if xs.length < least then fail (.tooFew part least xs.length) else pure xs

def toSize (format : NumberFormat α) (part : Part) (x : α) : Reading Nat :=
  match format.size? x with
  | some n => pure n
  | none => fail (.notASize part (format.text x))

def sizes (format : NumberFormat α) (part : Part) (least : Nat) : Reading (List Nat) := do
  let xs ← values format part least
  xs.mapM (toSize format part)

def firstValues (format : NumberFormat α) (part : Part) (count : Nat) : Reading (List α) := do
  return (← values format part count).take count

def bias (format : NumberFormat α) : Reading α := do
  match ← values format .bias 1 with
  | x :: _ => pure x
  | [] => fail (.tooFew .bias 1 0)

def times {β : Type} (read : Reading β) : Nat → Reading (List β)
  | 0 => pure []
  | n + 1 => do
      let x ← read
      let xs ← times read n
      return x :: xs

def layer (format : NumberFormat α) (fanIn fanOut : Nat) : Reading (Layer α) := do
  let weights ← times (firstValues format .weights fanIn) fanOut
  let biases ← times (bias format) fanOut
  return ⟨weights, biases⟩

def layers (format : NumberFormat α) : List Nat → Reading (List (Layer α))
  | fanIn :: fanOut :: rest => do
      let l ← layer format fanIn fanOut
      let ls ← layers format (fanOut :: rest)
      return l :: ls
  | _ => pure []

def normalization (format : NumberFormat α) (inputs : Nat) : Reading (Normalization α) := do
  let mins ← firstValues format .minimums inputs
  let maxes ← firstValues format .maximums inputs
  let means ← firstValues format .means (inputs + 1)
  let ranges ← firstValues format .ranges (inputs + 1)
  return ⟨mins, maxes, means, ranges⟩

def header (format : NumberFormat α) : Reading (Nat × Nat × Nat) := do
  match ← sizes format .header 4 with
  | numLayers :: inputs :: outputs :: _ =>
      if numLayers = 0 then fail .noLayers else pure (numLayers, inputs, outputs)
  | xs => fail (.tooFew .header 4 xs.length)

-- One is added to the number of layers with overflow checked, as in a debug build: at the largest
-- number nothing is read.
def layerSizes (format : NumberFormat α) (numLayers inputs outputs : Nat) :
    Reading (List Nat) := do
  if maxSize ≤ numLayers then throw .sizeCount
  let sizes := (← sizes format .layerSizes (numLayers + 1)).take (numLayers + 1)
  if sizes.head? ≠ some inputs || sizes[numLayers]? ≠ some outputs then
    fail (.sizesDisagree sizes inputs outputs)
  else pure sizes

def network (format : NumberFormat α) : Reading (LayeredNetwork α) := do
  let (numLayers, inputs, outputs) ← header format
  let sizes ← layerSizes format numLayers inputs outputs
  let _ ← values format .flag 0
  let norm ← normalization format inputs
  let ls ← layers format sizes
  match LayeredNetwork.build (ls.map Layer.weights) (ls.map Layer.biases) with
  | .ok n => return n.withNormalization norm
  | .error e => throw (.shape e)

def parse (format : NumberFormat α) (text : String) : Except Failure (LayeredNetwork α) :=
  (network format).run' ⟨keptLines text.toList, 0⟩

end LayeredText

end ReluVerify
