import ReluVerify.Query.Compile
import ReluVerify.Engine.Reference

namespace ReluVerify

inductive Verdict (α : Type) where
  | unsat
  | sat (assignment : VarMap α)
  | earlyTermination

namespace Verdict

variable {α : Type}

def token : Verdict α → String
  | .unsat => "UNSAT"
  | .sat _ => "SAT"
  | .earlyTermination => "EARLY TERMINATION"

def assignment? : Verdict α → Option (VarMap α)
  | .sat a => some a
  | _ => none

-- An empty assignment says that there is no solution.
def ofOutput (out : EngineOutput α) : Verdict α :=
  if out.interrupted then .earlyTermination
  else if out.assignment.isEmpty then .unsat
  else .sat out.assignment

end Verdict

structure Solved (α : Type) where
  query : Query α
  output : EngineOutput α

namespace Solved

variable {α : Type}

def verdict (s : Solved α) : Verdict α := Verdict.ofOutput s.output

def log (engine : String) (s : Solved α) : String :=
  let stats := s.output.stats
  s!"engine: {engine}\n" ++
  s!"query: {s.query.numVariables} variables, {s.query.tableau.numRows} rows, " ++
  s!"{s.query.relus.length} relu pairs\n" ++
  s!"result: {s.verdict.token}\n" ++
  s!"pivots: {stats.pivots}, case splits: {stats.caseSplits}, lp solves: {stats.lpSolves}\n"

end Solved

inductive EvaluationError where
  | arity (expected got : Nat)
  | infeasible
  | interrupted
  | missingValue (var : Nat)
  | malformed (cause : MalformedNetwork)
  | outside (cause : Query.OutsideError)
  deriving DecidableEq, Repr

def EvaluationError.message : EvaluationError → String
  | .arity expected got => s!"expected {expected} input values, got {got}"
  | .infeasible => "network has no consistent assignment at the given input"
  | .interrupted => "solve interrupted"
  | .missingValue v => s!"assignment has no value for {label v}"
  | .malformed cause => cause.message
  | .outside cause => cause.message

namespace Engine

variable {α : Type} [Scalar α]

def ask (engine : Engine α) (cancelled : Bool) (q : Query α) : Solved α :=
  ⟨q, engine.run q cancelled⟩

def solve (engine : Engine α) (cancelled : Bool) (n : Network α) :
    Except MalformedNetwork (Solved α) :=
  (Query.compile n).map (engine.ask cancelled)

def evaluate (engine : Engine α) (cancelled : Bool) (n : Network α) (values : List α) :
    Except EvaluationError (List α) := do
  if n.inputs.length ≠ values.length then
    .error (.arity n.inputs.length values.length)
  let q ← (Query.compile n).mapError .malformed
  let q ← (q.fixAll (n.inputs.zip values)).mapError .outside
  match (engine.ask cancelled q).verdict with
  | .sat a => n.outputs.mapM (a.getOrFail .missingValue)
  | .unsat => .error .infeasible
  | .earlyTermination => .error .interrupted

end Engine

end ReluVerify
