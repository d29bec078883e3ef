import ReluVerify.Solve
import ReluVerify.Proofs.Search
import ReluVerify.Proofs.Simplex.Polling

namespace ReluVerify

section

variable {α : Type}

namespace SearchResult

theorem interrupted_output {result : SearchResult α} {stats : Stats} :
    (result.output stats).interrupted = false ↔ result ≠ .interrupted := by
  cases result <;> simp [output, EngineOutput.stopped]

theorem stats_output (result : SearchResult α) (stats : Stats) :
    (result.output stats).stats = stats := by
  cases result <;> rfl

end SearchResult

namespace Verdict

theorem ofOutput_eq_unsat {out : EngineOutput α} :
    ofOutput out = .unsat ↔ out.interrupted = false ∧ out.assignment.isEmpty = true := by
  unfold ofOutput
  cases out.interrupted <;> cases out.assignment.isEmpty <;> simp

end Verdict

variable [Scalar α]

namespace Reference

open Search (Tree Grows)

def allUndecided (relus : ReluList) : List Phase := relus.map fun _ => .undecided

-- the run of the engine over any linear check
def runWith (tripped : List Phase → Bool) (linear : List Phase → Option (Decision α))
    (tolerance : α) (q : Query α) : Option (EngineOutput α) :=
  (Search.search tripped linear q.relus tolerance ⟨allUndecided q.relus, {}⟩).map
    fun r => r.1.output r.2.stats

theorem run?_eq_runWith (budget : ℕ) (tolerances : Tolerances α) (q : Query α) (token : Token) :
    run? budget tolerances q token = runWith token.atNode
      (linear budget tolerances token (Problem.ofQuery q)) tolerances.relu q := rfl

theorem runWith_of_grows {tripped : List Phase → Bool} {answer : List Phase → Answer α}
    {pivots : List Phase → ℕ} {tolerance : α} {q : Query α} {result : SearchResult α} {tree : Tree}
    (h : Grows tripped answer q.relus tolerance (allUndecided q.relus) result tree)
    {linear : List Phase → Option (Decision α)}
    (hlinear : ∀ phases ∈ tree.checks, linear phases = some ⟨answer phases, pivots phases⟩) :
    runWith tripped linear tolerance q = some (result.output (tree.tally pivots)) := by
  have hsearch : Search.search tripped linear q.relus tolerance ⟨allUndecided q.relus, {}⟩ = _ :=
    h.descend hlinear le_rfl {}
  rw [runWith, hsearch, Stats.zero_add]
  rfl

theorem exists_tree_of_runWith {tripped : List Phase → Bool}
    {linear : List Phase → Option (Decision α)} {tolerance : α} {q : Query α}
    {out : EngineOutput α} (h : runWith tripped linear tolerance q = some out) :
    ∃ answer pivots result tree,
      (∀ phases ∈ tree.checks, linear phases = some ⟨answer phases, pivots phases⟩) ∧
        Grows tripped answer q.relus tolerance (allUndecided q.relus) result tree ∧
        out = result.output (tree.tally pivots) := by
  obtain ⟨⟨result, s⟩, hsearch, rfl⟩ := Option.map_eq_some_iff.mp h
  obtain ⟨tree, hgrows, hchecks, rfl⟩ := Search.exists_tree_of_search hsearch
  refine ⟨Search.answerOf linear, Search.pivotsOf linear, result, tree,
    fun phases hmem => Search.linear_eq (hchecks phases hmem), hgrows, ?_⟩
  exact congrArg result.output (Stats.zero_add _)

section

variable {budget : ℕ} {tolerances : Tolerances α} {q : Query α} {token : Token}
  {out : EngineOutput α}

theorem run?_mono (h : run? budget tolerances q token = some out) {budget' : ℕ}
    (hle : budget ≤ budget') : run? budget' tolerances q token = some out := by
  rw [run?_eq_runWith] at h ⊢
  obtain ⟨answer, pivots, result, tree, hlinear, hgrows, rfl⟩ := exists_tree_of_runWith h
  exact runWith_of_grows hgrows fun phases hmem => Simplex.check_mono (hlinear phases hmem) hle

theorem engine_run_of_run? {cancelled : Bool}
    (h : run? budget tolerances q (.steady cancelled) = some out) (hle : budget ≤ pivotBudget) :
    (engine tolerances).run q cancelled = out := by
  change (run? pivotBudget tolerances q (.steady cancelled)).getD (.stopped {}) = out
  rw [run?_mono h hle, Option.getD_some]

theorem run?_of_engine {cancelled : Bool}
    (h : ((engine tolerances).run q cancelled).interrupted = false) :
    run? pivotBudget tolerances q (.steady cancelled) =
      some ((engine tolerances).run q cancelled) := by
  cases hrun : run? pivotBudget tolerances q (.steady cancelled) with
  | some out => rw [engine_run_of_run? hrun le_rfl]
  | none =>
    change ((run? pivotBudget tolerances q (.steady cancelled)).getD _).interrupted = false at h
    rw [hrun] at h
    cases h

theorem run?_of_tripped (h : token.atNode (allUndecided q.relus) = true) (budget : ℕ) :
    run? budget tolerances q token = some (.stopped {}) := by
  have hgrows : Grows token.atNode (fun _ => .infeasible) q.relus tolerances.relu
      (allUndecided q.relus) .interrupted (.stopped (allUndecided q.relus)) := .stopped h
  have hlinear : ∀ phases ∈ (Tree.stopped (allUndecided q.relus)).checks,
      linear budget tolerances token (Problem.ofQuery q) phases =
        some ⟨.infeasible, phases.length⟩ := nofun
  exact runWith_of_grows hgrows hlinear

end

end Reference

end

variable {K : Type} [Field K] [LinearOrder K]

namespace Problem

variable {q : Query K} (hq : q.Shaped) {tolerance : K} (phases : List Phase)

theorem numVars_relaxation :
    ((ofQuery q).relaxation tolerance phases).numVars = q.numVariables := by
  rw [relaxation_eq, Simplex.numVars_assembled, length_phaseBounds, length_bounds_ofQuery]

theorem boundsOf_relaxation (v : ℕ) : ((ofQuery q).relaxation tolerance phases).boundsOf v =
    ((ofQuery q).phaseBounds phases)[v]?.getD Bounds.free := by
  rw [relaxation_eq, Simplex.boundsOf_assembled]

theorem crossed_relaxation
    (h : ((ofQuery q).relaxation tolerance phases).contradictory = false) :
    ∀ v < ((ofQuery q).relaxation tolerance phases).numVars,
      Simplex.crossed ((ofQuery q).relaxation tolerance phases).tolerance
        (((ofQuery q).relaxation tolerance phases).boundsOf v) = false := by
  rw [relaxation_eq] at h ⊢
  simpa using Simplex.crossed_assembled h

variable [IsStrictOrderedRing K]

theorem settled_relaxation_framed (hq : q.Framed) (htol : 0 ≤ tolerance) :
    ((ofQuery q).relaxation tolerance phases).start.Settled := by
  obtain ⟨c, hc⟩ := hq.pinned
  rw [relaxation_eq]
  exact Simplex.settled_assembled (length_of_mem_rows q) htol
    ⟨c, (boundsOf_phaseBounds_constant q hq phases).trans hc⟩

include hq

theorem settled_relaxation (htol : 0 ≤ tolerance) :
    ((ofQuery q).relaxation tolerance phases).start.Settled :=
  settled_relaxation_framed phases hq.framed htol

end Problem

namespace Reference

open Search (Tree Grows)

variable {budget : ℕ} {tolerances : Tolerances K} {token : Token} {q : Query K}

structure Node (tolerances : Tolerances K) (q : Query K) (phases : List Phase)
    (values : List K) : Prop where
  length : phases.length = q.relus.length
  consistent :
    ((Problem.ofQuery q).relaxation tolerances.bound phases).contradictory = false
  feasible : ((Problem.ofQuery q).relaxation tolerances.bound phases).Feasible values
  holds : ∀ pair, (pair, Phase.undecided) ∈ q.relus.zip phases →
    |values.getD pair.output 0 - max (values.getD pair.input 0) 0| ≤ tolerances.relu

theorem Node.length_values {phases : List Phase} {values : List K}
    (h : Node tolerances q phases values) : values.length = q.numVariables :=
  h.feasible.length.trans (Problem.numVars_relaxation phases)

variable [IsStrictOrderedRing K]

section

variable {answer : List Phase → Answer K} {pivots : List Phase → ℕ} {result : SearchResult K}
  {tree : Tree}
  (hgrows : Grows token.atNode answer q.relus tolerances.relu (allUndecided q.relus) result tree)
  (hlinear : ∀ phases ∈ tree.checks, linear budget tolerances token (Problem.ofQuery q) phases =
    some ⟨answer phases, pivots phases⟩)

include hgrows hlinear

theorem exists_node_of_grows (hq : q.Framed) (htol : 0 ≤ tolerances.bound) {values : List K}
    (hsat : result = .sat values) : ∃ phases, Node tolerances q phases values := by
  obtain ⟨phases, hmem, ha, hb⟩ := hgrows.exists_feasible hsat
  obtain ⟨hcon, hfeas⟩ := Simplex.check_feasible (Problem.settled_relaxation_framed phases hq htol)
    (Problem.crossed_relaxation phases) (hlinear phases hmem) ha
  exact ⟨phases, (hgrows.length_of_mem hmem).trans (List.length_map _), hcon, hfeas,
    Search.firstBroken?_eq_none hb⟩

end

section

variable {out : EngineOutput K} (h : run? budget tolerances q token = some out)

include h

theorem exists_node_framed_of_run? (hq : q.Framed) (htol : 0 ≤ tolerances.bound)
    (hne : out.assignment.isEmpty = false) : ∃ phases values, Node tolerances q phases values ∧
      out.assignment = VarMap.ofValues values := by
  obtain ⟨answer, pivots, result, tree, hlinear, hgrows, rfl⟩ := exists_tree_of_runWith h
  cases result with
  | unsat | interrupted => cases hne
  | sat values =>
    obtain ⟨phases, hnode⟩ := exists_node_of_grows hgrows hlinear hq htol rfl
    exact ⟨phases, values, hnode, rfl⟩

theorem exists_node_of_run? (hq : q.Shaped) (htol : 0 ≤ tolerances.bound)
    (hne : out.assignment.isEmpty = false) : ∃ phases values, Node tolerances q phases values ∧
      out.assignment = VarMap.ofValues values :=
  exists_node_framed_of_run? h hq.framed htol hne

theorem exists_tree_of_unsat (hq : q.Shaped) (htol : 0 ≤ tolerances.bound)
    (hunsat : Verdict.ofOutput out = .unsat) :
    ∃ (answer : List Phase → Answer K) (pivots : List Phase → ℕ) (tree : Tree),
      (∀ phases ∈ tree.checks, linear budget tolerances token (Problem.ofQuery q) phases =
        some ⟨answer phases, pivots phases⟩) ∧
      Grows token.atNode answer q.relus tolerances.relu (allUndecided q.relus) .unsat tree := by
  obtain ⟨hinterrupted, hempty⟩ := Verdict.ofOutput_eq_unsat.mp hunsat
  obtain ⟨answer, pivots, result, tree, hlinear, hgrows, rfl⟩ := exists_tree_of_runWith h
  cases result with
  | interrupted => cases hinterrupted
  | unsat => exact ⟨answer, pivots, tree, hlinear, hgrows⟩
  | sat values =>
    obtain ⟨phases, hnode⟩ := exists_node_of_grows hgrows hlinear hq.framed htol rfl
    rw [show (SearchResult.output _ (.sat values)).assignment = VarMap.ofValues values from rfl,
      VarMap.isEmpty_ofValues, List.isEmpty_iff] at hempty
    have hlen := hnode.length_values
    have hpos := hq.constant_lt
    rw [hempty, List.length_nil] at hlen
    omega

end

end Reference

end ReluVerify
