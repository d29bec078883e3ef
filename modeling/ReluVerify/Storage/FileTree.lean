import ReluVerify.Storage.Files
import ReluVerify.Storage.Path

namespace ReluVerify

-- The names that lead down from the root.
structure Place where
  names : List String := []
  deriving DecidableEq, Repr, Inhabited

namespace Place

def parent (p : Place) : Place := ⟨p.names.dropLast⟩

def child (p : Place) (name : String) : Place := ⟨p.names ++ [name]⟩

def isAbove (p q : Place) : Bool := p.names.isPrefixOf q.names

def start (cwd : Place) (path : String) : Place := if Path.isAbsolute path then {} else cwd

end Place

-- The working directory and those above it are there, with nothing in them but what is put there.
structure FileTree where
  cwd : Place
  dirs : List Place
  files : List (Place × String)
  deriving DecidableEq, Repr, Inhabited

namespace FileTree

def empty (cwd : Place) : FileTree := ⟨cwd, [], []⟩

def isDir (t : FileTree) (p : Place) : Bool := p.isAbove t.cwd || t.dirs.contains p

def text? (t : FileTree) (p : Place) : Option String := t.files.lookup p

def go? (t : FileTree) (p : Place) (step : String) : Option Place :=
  if !t.isDir p then none
  else if step.isEmpty || step == "." then some p
  else if step == ".." then some p.parent
  else if Path.longestStep < step.utf8ByteSize then none
  else some (p.child step)

-- Only the last step of a path may be missing.
def find? (t : FileTree) (path : String) : Option Place :=
  if Path.isAdmissible path then (Path.steps path).foldlM t.go? (t.cwd.start path) else none

def setText (t : FileTree) (p : Place) (text : String) : FileTree :=
  if (t.text? p).isSome then
    { t with files := t.files.map (fun f => if f.1 = p then (p, text) else f) }
  else { t with files := t.files ++ [(p, text)] }

def read? (t : FileTree) (path : String) : Option String := (t.find? path).bind t.text?

def write? (t : FileTree) (path text : String) : Option FileTree :=
  match t.find? path with
  | none => none
  | some p => if t.isDir p then none else some (t.setText p text)

def append? (t : FileTree) (path text : String) : Option FileTree :=
  match t.find? path with
  | none => none
  | some p => (t.text? p).map (fun old => t.setText p (old ++ text))

def addDir (t : FileTree) (p : Place) : FileTree := { t with dirs := t.dirs ++ [p] }

-- A path that ends in d/. names what d names, but is not a name under which d can be made.
def endsInPlace (steps : List String) : Bool := !steps.isEmpty && steps.all (· == ".")

def makeDirsAt (t : FileTree) (p : Place) : List String → Option FileTree
  | [] => some t
  | step :: rest =>
      match t.go? p step with
      | none => none
      | some q =>
          if t.isDir q then t.makeDirsAt q rest
          else if (t.text? q).isSome || endsInPlace rest then none
          else (t.addDir q).makeDirsAt q rest

def makeDirs? (t : FileTree) (path : String) : Option FileTree :=
  if Path.isAdmissible path then
    t.makeDirsAt (t.cwd.start path) ((Path.steps path).filter (!·.isEmpty))
  else none

def attempt {σ : Type} (get : σ → FileTree) (set : FileTree → σ → σ)
    (change : FileTree → Option FileTree) : StateM σ Bool := fun s =>
  match change (get s) with
  | some t => (true, set t s)
  | none => (false, s)

def filesIn {σ : Type} (get : σ → FileTree) (set : FileTree → σ → σ) : Files (StateM σ) where
  read? path := fun s => ((get s).read? path, s)
  write path text := attempt get set (·.write? path text)
  append path text := attempt get set (·.append? path text)
  makeDirs path := attempt get set (·.makeDirs? path)

end FileTree

end ReluVerify
