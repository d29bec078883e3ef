import ReluVerify.Number.Reader

namespace ReluVerify

structure SolverOptions where
  boundTolerance : Option Float := none
  reluTolerance : Option Float := none

structure VerifyOptions where
  pra : Option Nat := none
  config : Option String := none
  networks : Option String := none
  results : Option String := none
  logs : Option String := none
  noLogs : Bool := false
  json : Bool := false
  solver : SolverOptions := {}

inductive Command where
  | verify (options : VerifyOptions)
  | evaluate (network : String) (inputs : List Float) (direct : Bool) (solver : SolverOptions)
  | error (network : String) (inputs : List Float) (solver : SolverOptions)
  | help
  | version

namespace CommandLine

inductive Argument where
  | nothing
  | path
  | number
  deriving DecidableEq, Repr

structure OptionSpec where
  name : String
  letter : Option Char
  argument : Argument
  deriving DecidableEq, Repr

inductive Positional where
  | nothing
  | advisory
  | networkAndNumbers
  deriving DecidableEq, Repr

structure CommandSpec where
  options : List OptionSpec
  positional : Positional
  deriving DecidableEq, Repr

def verbose : OptionSpec := ⟨"verbose", some 'v', .nothing⟩

def help : OptionSpec := ⟨"help", some 'h', .nothing⟩

def version : OptionSpec := ⟨"version", some 'V', .nothing⟩

def flag (name : String) : OptionSpec := ⟨name, none, .nothing⟩

def pathOption (name : String) : OptionSpec := ⟨name, none, .path⟩

def everywhere : List OptionSpec := [verbose, help]

def tolerances : List OptionSpec :=
  [⟨"bound-tolerance", none, .number⟩, ⟨"relu-tolerance", none, .number⟩]

def verifySpec : CommandSpec where
  options := everywhere ++ tolerances ++
    [flag "all", ⟨"config", some 'c', .path⟩, pathOption "networks", pathOption "results",
      pathOption "logs", flag "no-logs", flag "json"]
  positional := .advisory

def evaluateSpec : CommandSpec := ⟨everywhere ++ tolerances ++ [flag "direct"], .networkAndNumbers⟩

def errorSpec : CommandSpec := ⟨everywhere ++ tolerances, .networkAndNumbers⟩

structure Given where
  options : List (String × String)
  values : List String

namespace Given

def option? (g : Given) (name : String) : Option String := g.options.lookup name

def isGiven (g : Given) (name : String) : Bool := (g.option? name).isSome

end Given

-- Digits, with a point among them that is not the first, and an e or E among them that is neither
-- first nor last nor before the point.
def isNumber (cs : List Char) : Bool :=
  let (before, rest) := cs.span (fun c => c != 'e' && c != 'E')
  let exponentOk := match rest with
    | [] => true
    | _ :: ds => !before.isEmpty && !ds.isEmpty && ds.all Char.isDigit
  let (whole, rest) := before.span (· != '.')
  let fractionOk := match rest with
    | [] => true
    | _ :: ds => !whole.isEmpty && ds.all Char.isDigit
  whole.all Char.isDigit && fractionOk && exponentOk

def takesNumbers (spec : CommandSpec) (g : Given) : Bool :=
  spec.positional == .networkAndNumbers && !g.values.isEmpty

def praRange (s : String) : Option Nat :=
  let digits := match s.toList with
    | '+' :: rest => rest
    | cs => cs
  if digits.isEmpty || !digits.all Char.isDigit then none
  else
    let n := Numeral.digitsValue digits
    if 1 ≤ n && n ≤ 11 then some n else none

def isPath (s : String) : Bool := !s.isEmpty

def isFloat (s : String) : Bool := (Numeral.read? s).isSome

inductive Stop where
  | refused
  | help
  | version
  deriving DecidableEq, Repr

def addOption (g : Given) (o : OptionSpec) (value : String) : Except Stop Given :=
  if o = help then .error .help
  else if o = version then .error .version
  else
    let valueOk := match o.argument with
      | .nothing => true
      | .path => isPath value
      | .number => isFloat value
    if g.isGiven o.name || !valueOk then .error .refused
    else .ok { g with options := g.options ++ [(o.name, value)] }

def addValue (spec : CommandSpec) (g : Given) (value : String) : Except Stop Given :=
  let valueOk := match spec.positional with
    | .nothing => false
    | .advisory => g.values.isEmpty && (praRange value).isSome
    | .networkAndNumbers => if g.values.isEmpty then isPath value else isFloat value
  if valueOk then .ok { g with values := g.values ++ [value] } else .error .refused

abbrev Pending := Option OptionSpec

def byName? (spec : CommandSpec) (name : String) : Option OptionSpec :=
  spec.options.find? (·.name == name)

def byLetter? (spec : CommandSpec) (c : Char) : Option OptionSpec :=
  spec.options.find? (·.letter == some c)

def readLong (spec : CommandSpec) (g : Given) (text : List Char) : Except Stop (Given × Pending) :=
  let (name, rest) := text.span (· != '=')
  match byName? spec (String.ofList name) with
  | none => .error .refused
  | some o =>
      match o.argument == .nothing, rest with
      | true, [] => (addOption g o "").map (·, none)
      | true, _ => .error .refused
      | false, [] => .ok (g, some o)
      | false, _ :: value => (addOption g o (String.ofList value)).map (·, none)

def readShort (spec : CommandSpec) (g : Given) : List Char → Except Stop (Given × Pending)
  | [] => .ok (g, none)
  | c :: rest =>
      match byLetter? spec c with
      | none => .error .refused
      | some o =>
          if o.argument == .nothing then
            match addOption g o "" with
            | .ok g => readShort spec g rest
            | .error e => .error e
          else
            match rest with
            | [] => .ok (g, some o)
            | '=' :: value => (addOption g o (String.ofList value)).map (·, none)
            | value => (addOption g o (String.ofList value)).map (·, none)

inductive Shape where
  | separator
  | long (text : List Char)
  | short (text : List Char)
  | value
  deriving DecidableEq, Repr

def shape (spec : CommandSpec) (g : Given) (arg : String) : Shape :=
  match arg.toList with
  | ['-', '-'] => .separator
  | '-' :: '-' :: text => .long text
  | ['-'] => .value
  | '-' :: text => if takesNumbers spec g && isNumber text then .value else .short text
  | _ => .value

def readArguments (spec : CommandSpec) :
    (pending : Pending) → Given → List String → Except Stop Given
  | none, g, [] => .ok g
  | some _, _, [] => .error .refused
  | pending, g, arg :: rest =>
      match shape spec g arg, pending with
      | .value, some o => do
          let g ← addOption g o arg
          readArguments spec none g rest
      | _, some _ => .error .refused
      | .value, none => do
          let g ← addValue spec g arg
          readArguments spec none g rest
      | .separator, none => rest.foldlM (addValue spec) g
      | .long text, none => do
          let (g, pending) ← readLong spec g text
          readArguments spec pending g rest
      | .short text, none => do
          let (g, pending) ← readShort spec g text
          readArguments spec pending g rest

def solverOptions (g : Given) : SolverOptions where
  boundTolerance := (g.option? "bound-tolerance").bind Numeral.read?
  reluTolerance := (g.option? "relu-tolerance").bind Numeral.read?

def verify (g : Given) : Except Stop Command :=
  let pra := g.values.head?.bind praRange
  if pra.isSome == g.isGiven "all" then .error .refused
  else if g.isGiven "logs" && g.isGiven "no-logs" then .error .refused
  else .ok (.verify {
    pra
    config := g.option? "config"
    networks := g.option? "networks"
    results := g.option? "results"
    logs := g.option? "logs"
    noLogs := g.isGiven "no-logs"
    json := g.isGiven "json"
    solver := solverOptions g })

def networkAndInputs (g : Given) : Except Stop (String × List Float) :=
  match g.values with
  | network :: x :: xs => .ok (network, (x :: xs).filterMap Numeral.read?)
  | _ => .error .refused

def evaluate (g : Given) : Except Stop Command :=
  (networkAndInputs g).map (fun p => .evaluate p.1 p.2 (g.isGiven "direct") (solverOptions g))

def error (g : Given) : Except Stop Command :=
  (networkAndInputs g).map (fun p => .error p.1 p.2 (solverOptions g))

def globalSpec : CommandSpec := ⟨everywhere ++ [version], .nothing⟩

def empty : Given := ⟨[], []⟩

def topics : List String := ["verify", "evaluate", "error", "help"]

def command (name : String) (rest : List String) : Except Stop Command :=
  match name with
  | "verify" => readArguments verifySpec none empty rest >>= verify
  | "evaluate" => readArguments evaluateSpec none empty rest >>= evaluate
  | "error" => readArguments errorSpec none empty rest >>= error
  | "help" =>
      if rest.length ≤ 1 && rest.all topics.contains then .error .help else .error .refused
  | _ => .error .refused

def readFrom : Given → List String → Except Stop Command
  | _, [] => .error .refused
  | g, arg :: rest =>
      match shape globalSpec g arg with
      | .value => command arg rest
      | .separator => .error .refused
      | .long text =>
          match readLong globalSpec g text with
          | .ok (g, _) => readFrom g rest
          | .error e => .error e
      | .short text =>
          match readShort globalSpec g text with
          | .ok (g, _) => readFrom g rest
          | .error e => .error e

def read? (args : List String) : Option Command :=
  match readFrom empty args with
  | .ok c => some c
  | .error .help => some .help
  | .error .version => some .version
  | .error .refused => none

end CommandLine

end ReluVerify
