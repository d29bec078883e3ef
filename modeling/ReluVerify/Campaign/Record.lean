import ReluVerify.Advisory.Basic
import ReluVerify.Advisory.Encounter
import ReluVerify.Solve

namespace ReluVerify

structure Counterexample (α : Type) where
  encounter : Encounter α
  scores : List (String × α)
  deriving DecidableEq, Repr

inductive Outcome (α : Type) where
  | skipped
  | unsat
  | sat (counterexample : Counterexample α)
  | earlyTermination
  deriving DecidableEq, Repr

structure RecordFormat (α : Type) where
  value : α → String
  rate : α → String

namespace Outcome

variable {α : Type}

def token : Outcome α → String
  | .skipped => "SKIPPED"
  | .unsat => "UNSAT"
  | .sat _ => "SAT"
  | .earlyTermination => "EARLY TERMINATION"

def isEarlyTermination : Outcome α → Bool
  | .earlyTermination => true
  | _ => false

def counterexample? : Outcome α → Option (Counterexample α)
  | .sat c => some c
  | _ => none

def lines (ls : List String) : String := String.join (ls.map (· ++ "\n"))

def render (format : RecordFormat α) : Outcome α → String
  | .skipped => lines ["Skipping advisory because w and vlo not defined"]
  | .unsat => lines ["UNSAT"]
  | .earlyTermination => lines ["EARLY TERMINATION"]
  | .sat c =>
      lines (["SAT", "", "Inputs:",
        "h   = " ++ format.value c.encounter.h,
        "dh0 = " ++ format.value c.encounter.own,
        "dh1 = " ++ format.value c.encounter.intruder,
        "tau = " ++ format.value c.encounter.tau,
        "", "Outputs:"] ++
        c.scores.map (fun s => s.1 ++ " = " ++ format.value s.2))

end Outcome

structure VerdictRecord (α : Type) where
  pra : Advisory α
  advisory : Advisory α
  outcome : Outcome α
  deriving DecidableEq, Repr

namespace VerdictRecord

variable {α : Type}

def header (format : RecordFormat α) (pra advisory : Advisory α) : String :=
  s!"Pra: {pra.name}, Advisory: {advisory.name} (w: {advisory.turnRate}, " ++
  s!"vlo: {format.rate advisory.vlo} ft/s)\n"

def render (format : RecordFormat α) (v : VerdictRecord α) : String :=
  header format v.pra v.advisory ++ v.outcome.render format

end VerdictRecord

end ReluVerify
