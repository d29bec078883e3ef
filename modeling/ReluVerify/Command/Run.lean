import ReluVerify.Campaign.ConfigText
import ReluVerify.Campaign.ReportText
import ReluVerify.Campaign.Store
import ReluVerify.Command.Arguments

namespace ReluVerify

structure Ending where
  code : Nat
  output : String := ""
  trouble : String := ""
  deriving DecidableEq, Repr

structure Trouble where
  code : Nat
  message : String
  deriving DecidableEq, Repr

namespace Trouble

def failed : Nat := 1

def aborted : Nat := 101

def ofFailure (f : Failure Float) : Trouble :=
  let message := f.message NumberText.plain
  match f with
  | .malformed _ => ⟨aborted, message⟩
  | .networkText .sizeCount => ⟨aborted, message⟩
  | _ => ⟨failed, message⟩

def ofEvaluation (e : EvaluationError) : Trouble :=
  match e with
  | .malformed _ => ⟨aborted, e.message⟩
  | .outside _ => ⟨aborted, e.message⟩
  | _ => ⟨failed, e.message⟩

def ofComparison : LayeredNetwork.ComparisonError → Trouble
  | .arity e => ⟨failed, e.message⟩
  | .evaluation e => ofEvaluation e

end Trouble

namespace RecordFormat

def decimal : RecordFormat Float := ⟨NumberText.plain, NumberText.twoPlaces⟩

end RecordFormat

namespace Command

def lines (ls : List String) : String := String.join (ls.map (· ++ "\n"))

def tolerancesOf (o : SolverOptions) : Tolerances Float where
  bound := o.boundTolerance.getD Tolerances.standard.bound
  relu := o.reluTolerance.getD Tolerances.standard.relu

def engineOf (o : SolverOptions) : Engine Float := Reference.engine (tolerancesOf o)

def overridden (o : VerifyOptions) (c : CampaignConfig Float) : CampaignConfig Float :=
  { c with
    networksDir := o.networks.getD c.networksDir
    resultsDir := o.results.getD c.resultsDir
    logsDir := if o.noLogs then none else o.logs.or c.logsDir }

def everyPra : List Nat := (List.range 11).map (· + 1)

def summary (resultsDir : String) (reports : List (Report Float)) : String :=
  lines (reports.flatMap Report.summary ++ ["Results written to " ++ resultsDir])

variable {m : Type → Type} [Monad m]

def configOf (files : Files m) (o : VerifyOptions) :
    ExceptT (Failure Float) m (CampaignConfig Float) := do
  match o.config with
  | none => return overridden o CampaignConfig.standard
  | some path =>
      return overridden o
        (← CampaignConfig.load JsonNumber.toFloat? CampaignConfig.standard files path)

def verdicts (files : Files m) (o : VerifyOptions) : ExceptT (Failure Float) m String := do
  let config ← configOf files o
  Campaign.makeDirs files config.resultsDir
  let engine := engineOf o.solver
  let host := Campaign.fileHost files Binary64.format RecordFormat.decimal config engine
  let reports ← match o.pra with
    | some pra => do
        let report ← Campaign.run host config pra
        pure [report]
    | none => Campaign.runAll host config everyPra
  if o.json then return lines [Report.jsonText NumberText.json reports]
  else return summary config.resultsDir reports

def readNetwork (files : Files m) (path : String) : ExceptT Trouble m (LayeredNetwork Float) :=
  ExceptT.adapt Trouble.ofFailure (Layered.read files Binary64.format path)

def numberedLines (between : String) (text : Float → String) (xs : List Float) : List String :=
  xs.zipIdx.map (fun p => s!"y{p.2}" ++ between ++ text p.1)

def outputs (net : LayeredNetwork Float) (inputs : List Float) (direct : Bool)
    (engine : Engine Float) : Except Trouble (List Float) :=
  if direct then (net.forward inputs).mapError (fun e => ⟨Trouble.failed, e.message⟩)
  else (engine.evaluate false net.toNetwork inputs).mapError Trouble.ofEvaluation

def valuesAt (files : Files m) (path : String) (inputs : List Float) (direct : Bool)
    (solver : SolverOptions) : ExceptT Trouble m String := do
  let net ← readNetwork files path
  let ys ← outputs net inputs direct (engineOf solver)
  return lines (numberedLines " = " NumberText.plain ys)

def errorsAt (files : Files m) (path : String) (inputs : List Float) (solver : SolverOptions) :
    ExceptT Trouble m String := do
  let net ← readNetwork files path
  let errors ← (net.findError (engineOf solver) false inputs).mapError Trouble.ofComparison
  let largest := errors.foldl Scalar.larger 0
  return lines (numberedLines ": " NumberText.scientific errors ++
    ["max error: " ++ NumberText.scientific largest])

def usage : String := lines [
  "Usage: COMMAND [OPTION]...",
  "  verify [PRA] | --all     check every advisory that can follow an advisory",
  "  evaluate NETWORK INPUTS  evaluate a network at a point",
  "  error NETWORK INPUTS     compare the two ways to evaluate a network"]

def release : String := "reluq 0.1.0"

def perform (files : Files m) : Command → ExceptT Trouble m String
  | .verify o => ExceptT.adapt Trouble.ofFailure (verdicts files o)
  | .evaluate network inputs direct solver => valuesAt files network inputs direct solver
  | .error network inputs solver => errorsAt files network inputs solver
  | .help => return usage
  | .version => return lines [release]

def run (files : Files m) (args : List String) : m Ending :=
  match CommandLine.read? args with
  | none => pure { code := 2, trouble := usage }
  | some c => do
      match ← (perform files c).run with
      | .ok text => return { code := 0, output := text }
      | .error e => return { code := e.code, trouble := e.message ++ "\n" }

end Command

end ReluVerify
