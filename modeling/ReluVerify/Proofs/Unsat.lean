import ReluVerify.Proofs.Reference
import ReluVerify.Proofs.Simplex.Infeasible

namespace ReluVerify

variable {K : Type} [Field K] [LinearOrder K]

namespace Bounds

theorem stop_raise [IsStrictOrderedRing K] {b : Bounds K} {y : K} (h : (b.raise 0).Stop y) :
    b.Stop y := by
  obtain ⟨hcase, hwithin⟩ := h
  refine ⟨?_, (within_raise.mp hwithin).1⟩
  rcases hcase with hlow | hupp | hzero
  · obtain ⟨lower, upper⟩ := b
    cases lower with
    | none => exact Or.inr (Or.inr (by simpa [raise, eq_comm] using hlow))
    | some l =>
      have hmax : max l 0 = y := by simpa [raise] using hlow
      rcases max_choice l 0 with hl | hl
      · exact Or.inl (by rw [← hmax, hl])
      · exact Or.inr (Or.inr (by rw [← hmax, hl]))
  · exact Or.inr (Or.inl hupp)
  · exact Or.inr (Or.inr hzero)

theorem stop_cap [IsStrictOrderedRing K] {b : Bounds K} {y : K} (h : (b.cap 0).Stop y) :
    b.Stop y := by
  obtain ⟨hcase, hwithin⟩ := h
  refine ⟨?_, (within_cap.mp hwithin).1⟩
  rcases hcase with hlow | hupp | hzero
  · exact Or.inl hlow
  · obtain ⟨lower, upper⟩ := b
    cases upper with
    | none => exact Or.inr (Or.inr (by simpa [cap, eq_comm] using hupp))
    | some u =>
      have hmin : min u 0 = y := by simpa [cap] using hupp
      rcases min_choice u 0 with hu | hu
      · exact Or.inr (Or.inl (by rw [← hmin, hu]))
      · exact Or.inr (Or.inr (by rw [← hmin, hu]))
  · exact Or.inr (Or.inr hzero)

def StopsOf (bs bs' : List (Bounds K)) : Prop :=
  ∀ (v : ℕ) (y : K), (bs'[v]?.getD free).Stop y → (bs[v]?.getD free).Stop y

theorem Roomy.of_stops {b b' : Bounds K} {tolerance : K} (h : b.Roomy tolerance)
    (hb : ∀ y, b'.Stop y → b.Stop y) : b'.Roomy tolerance :=
  fun y z hy hz hlt => h y z (hb y hy) (hb z hz) hlt

theorem StopsOf.trans {bs bs' bs'' : List (Bounds K)} (h : StopsOf bs bs')
    (h' : StopsOf bs' bs'') : StopsOf bs bs'' :=
  fun v y hy => h v y (h' v y hy)

theorem stopsOf_modify {f : Bounds K → Bounds K} (hf : ∀ b y, (f b).Stop y → b.Stop y)
    (bs : List (Bounds K)) (i : ℕ) : StopsOf bs (bs.modify i f) := by
  intro v y hy
  rw [List.getElem?_modify] at hy
  split at hy
  · cases hb : bs[v]? with
    | none => simpa [hb] using hy
    | some b =>
      rw [hb] at hy
      exact hf b y hy
  · simpa using hy

theorem stopsOf_foldl {α : Type} {f : List (Bounds K) → α → List (Bounds K)}
    (hf : ∀ bs a, StopsOf bs (f bs a)) (as : List α) (bs : List (Bounds K)) :
    StopsOf bs (as.foldl f bs) := by
  induction as generalizing bs with
  | nil => exact fun _ _ hy => hy
  | cons a as ih => exact (hf bs a).trans (ih (f bs a))

end Bounds

variable [IsStrictOrderedRing K]

namespace Problem

theorem stopsOf_tighten (bs : List (Bounds K)) (pair : ReluPair) (phase : Phase) :
    Bounds.StopsOf bs (tighten bs pair phase) := by
  cases phase with
  | undecided => exact fun _ _ hy => hy
  | active => exact Bounds.stopsOf_modify (fun _ _ => Bounds.stop_raise) _ _
  | inactive =>
    exact (Bounds.stopsOf_modify (fun _ _ => Bounds.stop_cap) _ _).trans
      (Bounds.stopsOf_modify (fun _ _ => Bounds.stop_cap) _ _)

theorem stopsOf_phaseBounds (q : Query K) (phases : List Phase) :
    Bounds.StopsOf q.bounds ((ofQuery q).phaseBounds phases) := by
  have hraised : Bounds.StopsOf q.bounds (ofQuery q).bounds :=
    Bounds.stopsOf_foldl (fun bs p => Bounds.stopsOf_modify (fun _ _ => Bounds.stop_raise) bs _) _ _
  exact hraised.trans
    (Bounds.stopsOf_foldl (fun bs (d : ReluPair × Phase) => stopsOf_tighten bs d.1 d.2) _ _)

end Problem

theorem roomy_point (tolerance : K) : (Bounds.point (1 : K)).Roomy tolerance := by
  have hone : ∀ y, (Bounds.point (1 : K)).Stop y → y = 1 :=
    fun y hy => Bounds.within_point.mp hy.2
  intro y z hy hz hlt
  rw [hone y hy, hone z hz] at hlt
  exact absurd hlt (lt_irrefl 1)

namespace Reference

theorem roomy_compiled {n : Network K} {tolerance : K}
    (h : ∀ v < n.numVars, (n.boundsOf v).Roomy tolerance) :
    ∀ v < n.numVars + 1, ((Query.compiled n).boundsOf v).Roomy tolerance := by
  intro v hv
  rcases Nat.lt_succ_iff_lt_or_eq.mp hv with hv | rfl
  · rw [Query.boundsOf_compiled hv]
    exact h v hv
  · rw [Query.boundsOf_compiled_constant]
    exact roomy_point _

-- Where the bounds leave room for the tolerance, only a neglected coefficient can lose a solution,
-- in one of the linear checks behind the verdict.
theorem exists_neglected_of_unsat {n : Network K} {q : Query K} (hq : Query.compile n = .ok q)
    {tolerances : Tolerances K} (htol : 0 ≤ tolerances.bound) {budget : ℕ} {token : Token}
    {out : EngineOutput K} (h : run? budget tolerances q token = some out)
    (hunsat : Verdict.ofOutput out = .unsat)
    (hroomy : ∀ v < n.numVars, (n.boundsOf v).Roomy tolerances.bound) {x : ℕ → K}
    (hx : n.Solves x) : ∃ (answer : List Phase → Answer K) (pivots : List Phase → ℕ)
      (tree : Search.Tree),
      (∀ phases ∈ tree.checks, linear budget tolerances token (Problem.ofQuery q) phases =
        some ⟨answer phases, pivots phases⟩) ∧
      Search.Grows token.atNode answer n.relus tolerances.relu (allUndecided n.relus) .unsat tree ∧
      ∃ phases ∈ tree.checks, answer phases = .infeasible ∧ Follows 0 x n.relus phases ∧
        Simplex.Neglects q.constant ((Problem.ofQuery q).phaseBounds phases) tolerances.bound
          ((Problem.ofQuery q).rows phases) ∧
        tolerances.bound <
          Simplex.pivotFloor * ∑ v ∈ Finset.range n.numVars, (|x v| + (n.boundsOf v).reach) := by
  obtain ⟨hn, rfl⟩ := Query.compile_eq_ok.mp hq
  have hshaped := Query.shaped_compiled hn
  obtain ⟨y, hyx, hy⟩ := Network.exists_solves_compiled hn hx
  obtain ⟨answer, pivots, tree, hlinear, hgrows⟩ := exists_tree_of_unsat h hshaped htol hunsat
  obtain ⟨phases, hmem, ha, hfollows⟩ :=
    hgrows.exists_infeasible rfl hy.relus (follows_undecided 0 y n.relus)
  have hd := hlinear phases hmem
  have hnum : ((Problem.ofQuery (Query.compiled n)).phaseBounds phases).length = n.numVars + 1 := by
    rw [Problem.length_phaseBounds, Problem.length_bounds_ofQuery, Query.numVariables_compiled]
  have hin : Bounds.Inside ((Problem.ofQuery (Query.compiled n)).phaseBounds phases) 0 y := by
    refine (Problem.inside_phaseBounds _ hshaped phases).mpr ⟨⟨hy.bounds, fun p hp => ?_⟩, hfollows⟩
    rw [neg_zero, hy.relus p hp]
    exact le_max_right _ _
  have hstops := Problem.stopsOf_phaseBounds (Query.compiled n) phases
  have hwide := roomy_compiled hroomy
  rw [linear, Problem.relaxation_eq] at hd
  obtain ⟨hneglects, hbound⟩ := Simplex.neglects_of_infeasible
    (Problem.length_of_mem_rows _) htol (by rw [hnum]; exact Nat.lt_succ_self _)
    (Problem.pinned_phaseBounds _ hshaped phases)
    (Problem.combination_of_solves _ hshaped hy hfollows) hin
    (fun v hv => (hwide v (hnum ▸ hv)).of_stops (hstops v))
    (fun v _ z hz => (hstops v z hz).abs_le_reach)
    (fun v => ((Query.compiled n).boundsOf v).reach_nonneg) hd ha
  refine ⟨answer, pivots, tree, hlinear, hgrows, phases, hmem, ha, fun d hd => ?_, hneglects, ?_⟩
  · obtain ⟨hinput, houtput⟩ := hn.relus _ (List.of_mem_zip hd).1
    exact (hfollows d hd).congr (hyx _ hinput) (hyx _ houtput)
  · have hrange : (Finset.range (n.numVars + 1)).erase n.numVars = Finset.range n.numVars := by
      rw [Finset.range_add_one, Finset.erase_insert Finset.notMem_range_self]
    rw [hnum] at hbound
    refine hbound.trans_eq (congrArg _ ((Finset.sum_congr hrange fun v hv => ?_)))
    have hlt := Finset.mem_range.mp hv
    change |y v| + ((Query.compiled n).boundsOf v).reach = _
    rw [hyx v hlt, Query.boundsOf_compiled hlt]

def FalselyUnsat (n : Network ℚ) (x : ℕ → ℚ) : Prop :=
  n.Solves x ∧ ∃ q budget out, Query.compile n = .ok q ∧
    run? budget Tolerances.standard q (.steady false) = some out ∧ Verdict.ofOutput out = .unsat

def scaledNetwork (scale : ℚ) (inputs : Bounds ℚ) (least : ℚ) : Network ℚ where
  numVars := 2
  equations := [⟨1, [(1, 1), (-scale, 0)], 0⟩]
  relus := []
  bounds := VarMap.ofList [(0, inputs), (1, ⟨some least, none⟩)]
  inputs := [0]
  outputs := [1]

theorem allocated_scaledNetwork (scale : ℚ) (inputs : Bounds ℚ) (least : ℚ) :
    (scaledNetwork scale inputs least).Allocated where
  auxiliary := by simp [scaledNetwork]
  terms := by
    simp only [scaledNetwork, List.forall_mem_singleton, List.forall_mem_cons]
    decide
  distinct := by simp [scaledNetwork]
  relus := by simp [scaledNetwork]
  bounds := by
    change ∀ v ∈ [0, 1], v < 2
    decide

theorem falselyUnsat_of_run? {n : Network ℚ} (hn : n.Allocated) {x : ℕ → ℚ} (hx : n.Solves x)
    (h : (run? 9 Tolerances.standard (Query.compiled n) (.steady false)).any
      (fun out => !out.interrupted && out.assignment.isEmpty) = true) : FalselyUnsat n x := by
  obtain ⟨out, hout, hempty⟩ := (Option.any_eq_true _ _).mp h
  refine ⟨hx, Query.compiled n, 9, out, Query.compile_eq_ok.mpr ⟨hn, rfl⟩, hout, ?_⟩
  rw [Verdict.ofOutput_eq_unsat]
  simpa using hempty

def narrowNetwork : Network ℚ := scaledNetwork 1e9 ⟨some 0, some 1e-8⟩ 5

def slightNetwork : Network ℚ := scaledNetwork 1e-13 Bounds.free 1

theorem falselyUnsat_narrow : FalselyUnsat narrowNetwork (fun v => if v = 0 then 5e-9 else 5) := by
  refine falselyUnsat_of_run? (allocated_scaledNetwork ..) ?_ (by decide +kernel)
  rw [Network.solves_iff_checks (allocated_scaledNetwork ..)]
  decide +kernel

theorem falselyUnsat_slight : FalselyUnsat slightNetwork (fun v => if v = 0 then 1e13 else 1) := by
  refine falselyUnsat_of_run? (allocated_scaledNetwork ..) ?_ (by decide +kernel)
  rw [Network.solves_iff_checks (allocated_scaledNetwork ..)]
  decide +kernel

theorem roomy_slightNetwork : ∀ v < slightNetwork.numVars,
    (slightNetwork.boundsOf v).Roomy Tolerances.standard.bound := by
  intro v hv y z hy hz hlt
  have hfree : ∀ y, (slightNetwork.boundsOf 0).Stop y → y = 0 := by
    rintro y ⟨hy | hy | hy, _⟩
    · cases hy
    · cases hy
    · exact hy
  have hone : ∀ y, (slightNetwork.boundsOf 1).Stop y → y = 1 := by
    rintro y ⟨hy | hy | hy, hwithin⟩
    · exact (Option.some.inj hy).symm
    · cases hy
    · have hle := hwithin.1 1 rfl
      norm_num [hy] at hle
  obtain rfl | rfl : v = 0 ∨ v = 1 := by
    change v < 2 at hv
    omega
  · rw [hfree y hy, hfree z hz] at hlt
    exact absurd hlt (lt_irrefl 0)
  · rw [hone y hy, hone z hz] at hlt
    exact absurd hlt (lt_irrefl 1)

theorem exists_neglected_of_unsat_slight : ∃ q budget phases, Query.compile slightNetwork = .ok q ∧
    (∃ d, linear budget Tolerances.standard (.steady false) (Problem.ofQuery q) phases = some d ∧
      d.answer = .infeasible) ∧
    Simplex.Neglects q.constant ((Problem.ofQuery q).phaseBounds phases)
      Tolerances.standard.bound ((Problem.ofQuery q).rows phases) := by
  obtain ⟨hx, q, budget, out, hq, hout, hunsat⟩ := falselyUnsat_slight
  obtain ⟨answer, pivots, tree, hlinear, _, phases, hmem, ha, _, hneglects, _⟩ :=
    exists_neglected_of_unsat hq (by decide +kernel) hout hunsat roomy_slightNetwork hx
  exact ⟨q, budget, phases, hq, ⟨_, hlinear phases hmem, ha⟩, hneglects⟩

theorem falselyUnsat_narrow_and_slight :
    FalselyUnsat narrowNetwork (fun v => if v = 0 then 5e-9 else 5) ∧
      FalselyUnsat slightNetwork (fun v => if v = 0 then 1e13 else 1) :=
  ⟨falselyUnsat_narrow, falselyUnsat_slight⟩

end Reference

end ReluVerify
