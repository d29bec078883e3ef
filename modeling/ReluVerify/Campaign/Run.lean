import ReluVerify.Campaign.Config
import ReluVerify.Campaign.Failure
import ReluVerify.Campaign.Record

namespace ReluVerify

structure Host (m : Type → Type) (α : Type) where
  prepareLogs : (dir : String) → ExceptT (Failure α) m Unit
  load : (pra : Nat) → ExceptT (Failure α) m (Network α)
  solve : Query α → m (EngineOutput α)
  writeLog : (path : String) → Solved α → ExceptT (Failure α) m Unit
  begin : (pra advisory : Advisory α) → ExceptT (Failure α) m Unit
  record : VerdictRecord α → ExceptT (Failure α) m Unit

structure Report (α : Type) where
  pra : Advisory α
  verdicts : List (VerdictRecord α)
  aborted : Bool
  deriving DecidableEq, Repr

namespace Report

variable {α : Type}

def count (r : Report α) (token : String) : Nat :=
  r.verdicts.countP (fun v => v.outcome.token == token)

def counterexamples (r : Report α) : List (Advisory α × Counterexample α) :=
  r.verdicts.filterMap (fun v => v.outcome.counterexample?.map (fun c => (v.advisory, c)))

end Report

structure Candidate (α : Type) where
  position : Nat
  advisory : Advisory α

namespace Campaign

variable {m : Type → Type} [Monad m] {α : Type} [Scalar α]

def counterexample (c : Constants α) (candidates : List (Advisory α)) (n : Network α)
    (a : VarMap α) : Except (Failure α) (Counterexample α) := do
  let inputs ← n.inputs.mapM (a.getOrFail .missingValue)
  let scores ← (n.outputs.zip candidates).mapM (fun p => do
    return (p.2.name, ← a.getOrFail .missingValue p.1))
  return ⟨c.physical (Encounter.ofList 0 inputs), scores⟩

def outcome (c : Constants α) (candidates : List (Advisory α)) (n : Network α) :
    Verdict α → Except (Failure α) (Outcome α)
  | .unsat => .ok .unsat
  | .earlyTermination => .ok .earlyTermination
  | .sat a => (counterexample c candidates n a).map .sat

def question (c : Constants α) (k : Candidate α) (n : Network α) :
    Except (Failure α) (Option (Network α)) :=
  match (Property.encode k.advisory k.position c).run n with
  | (.ok (some _), n) => .ok (some n)
  | (.ok none, _) => .ok none
  | (.error e, _) => .error (.property e)

def solve (host : Host m α) (log : Option String) (n : Network α) :
    ExceptT (Failure α) m (Verdict α) := do
  let q ← ((Query.compile n).mapError Failure.malformed : Except (Failure α) (Query α))
  let solved : Solved α := ⟨q, ← host.solve q⟩
  match log with
  | some path => host.writeLog path solved
  | none => pure ()
  return solved.verdict

def check (host : Host m α) (config : CampaignConfig α) (pra : Advisory α)
    (candidates : List (Advisory α)) (k : Candidate α) : ExceptT (Failure α) m (Outcome α) := do
  if !k.advisory.boundsRate then return .skipped
  let n ← host.load pra.index
  if n.outputs.length ≠ candidates.length then
    throw (.outputCount pra.name candidates.length n.outputs.length)
  match ← question config.constants k n with
  | none => return .skipped
  | some n =>
      let verdict ← solve host (config.logPath pra k.advisory) n
      outcome config.constants candidates n verdict

def visit (host : Host m α) (config : CampaignConfig α) (pra : Advisory α)
    (candidates : List (Advisory α)) :
    List (Candidate α) → ExceptT (Failure α) m (List (VerdictRecord α) × Bool)
  | [] => return ([], false)
  | k :: rest => do
      host.begin pra k.advisory
      let outcome ← check host config pra candidates k
      let verdict : VerdictRecord α := ⟨pra, k.advisory, outcome⟩
      host.record verdict
      if outcome.isEarlyTermination then return ([verdict], true)
      let (verdicts, aborted) ← visit host config pra candidates rest
      return (verdict :: verdicts, aborted)

def advisoryOf (pra : Nat) : Except (Failure α) (Advisory α) :=
  (Advisory.ofIndex? pra).mapError .unknownAdvisory

def candidatesOf (pra : Nat) : Except (Failure α) (List (Advisory α)) :=
  (Advisory.candidates pra).mapError .unknownAdvisory

def numbered (candidates : List (Advisory α)) : List (Candidate α) :=
  candidates.zipIdx.map (fun p => ⟨p.2, p.1⟩)

omit [Scalar α] in
theorem map_advisory_numbered (candidates : List (Advisory α)) :
    (numbered candidates).map Candidate.advisory = candidates := by
  rw [numbered, List.map_map]
  exact List.zipIdx_map_fst 0 candidates

def run (host : Host m α) (config : CampaignConfig α) (pra : Nat) :
    ExceptT (Failure α) m (Report α) := do
  let praAdvisory ← (advisoryOf pra : Except (Failure α) (Advisory α))
  let candidates ← (candidatesOf pra : Except (Failure α) (List (Advisory α)))
  match config.logsDir with
  | some dir => host.prepareLogs dir
  | none => pure ()
  let (verdicts, aborted) ← visit host config praAdvisory candidates (numbered candidates)
  return ⟨praAdvisory, verdicts, aborted⟩

def runAll (host : Host m α) (config : CampaignConfig α) :
    List Nat → ExceptT (Failure α) m (List (Report α))
  | [] => return []
  | pra :: rest => do
      let report ← run host config pra
      if report.aborted then return [report]
      return report :: (← runAll host config rest)

end Campaign

end ReluVerify
