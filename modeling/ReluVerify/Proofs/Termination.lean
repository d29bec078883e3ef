import ReluVerify.Proofs.Assignment
import ReluVerify.Proofs.Simplex.SmallestIndex

namespace ReluVerify

variable {K : Type} [Field K] [LinearOrder K] [IsStrictOrderedRing K]

open Relation

instance : Finite Phase :=
  Finite.of_surjective (fun i : Fin 3 => match i with
    | 0 => Phase.undecided
    | 1 => .active
    | 2 => .inactive) fun p => by
      cases p with
      | undecided => exact ⟨0, rfl⟩
      | active => exact ⟨1, rfl⟩
      | inactive => exact ⟨2, rfl⟩

namespace Simplex

variable {constant : ℕ} {bounds : List (Bounds K)} {tolerance : K}
  {equalities : List (Equality K)}

section

variable {quiet : ℕ → Bool} (hquiet : ∀ k, quiet k = false)

include hquiet

omit [IsStrictOrderedRing K] in
theorem answer_ne_interrupted {s : Simplex K} {budget : ℕ} {d : Decision K}
    (h : s.check quiet budget = some d) : d.answer ≠ .interrupted := by
  intro hd
  obtain ⟨k, hk⟩ := exists_tripped_of_check h hd
  rw [hquiet] at hk
  cases hk

theorem exists_check_iff (hlen : ∀ e ∈ equalities, e.1.length = bounds.length)
    (htol : 0 ≤ tolerance) (hpin : ∃ c, bounds[constant]?.getD Bounds.free = Bounds.point c) :
    (∃ budget d, (assembled constant bounds tolerance equalities).check quiet budget = some d) ↔
      (assembled constant bounds tolerance equalities).contradictory = true ∨
        ¬ (assembled constant bounds tolerance equalities).start.Recurs := by
  cases hc : (assembled constant bounds tolerance equalities).contradictory with
  | true => exact ⟨fun _ => Or.inl rfl, fun _ => ⟨0, _, check_of_contradictory hc⟩⟩
  | false =>
    rw [or_iff_right Bool.false_ne_true,
      ← exists_run_iff hquiet (settled_assembled hlen htol hpin) 0]
    simp only [check_of_not_contradictory hc]

end

theorem not_recurs_of_sharp (hlen : ∀ e ∈ equalities, e.1.length = bounds.length)
    (htol : 0 ≤ tolerance) (hpin : ∃ c, bounds[constant]?.getD Bounds.free = Bounds.point c)
    (h : ∀ t, ReflTransGen Turn (assembled constant bounds tolerance equalities).start t →
      t.Sharp) : ¬ (assembled constant bounds tolerance equalities).start.Recurs := by
  have hs := settled_assembled hlen htol hpin
  have hquiet : ∀ k : ℕ, (fun _ => false) k = false := fun _ => rfl
  rw [← exists_run_iff hquiet hs 0]
  exact run_decides_of_sharp hs h hquiet 0

end Simplex

namespace Reference

omit [IsStrictOrderedRing K] in
theorem exists_budget {tolerances : Tolerances K} {p : Problem K} {count : ℕ}
    (h : ∀ phases : List Phase, phases.length = count →
      ∃ budget d, linear budget tolerances (.steady false) p phases = some d) :
    ∃ budget, ∀ (token : Token) (phases : List Phase), phases.length = count →
      ∃ d, linear budget tolerances token p phases = some d := by
  choose! budgetOf hbudget using h
  obtain ⟨budget, hle⟩ := ((List.finite_length_eq Phase count).image budgetOf).bddAbove
  refine ⟨budget, fun token phases hlen => ?_⟩
  obtain ⟨d, hd⟩ := hbudget phases hlen
  exact Simplex.exists_check_of_quiet (fun _ => rfl)
    (Simplex.check_mono hd (hle (Set.mem_image_of_mem budgetOf hlen)))

omit [IsStrictOrderedRing K] in
theorem exists_run? {tolerances : Tolerances K} {q : Query K}
    (h : ∀ phases : List Phase, phases.length = q.relus.length →
      ∃ budget d, linear budget tolerances (.steady false) (Problem.ofQuery q) phases = some d) :
    ∃ budget, ∀ token, ∃ out, run? budget tolerances q token = some out := by
  obtain ⟨budget, htotal⟩ := exists_budget h
  refine ⟨budget, fun token => ?_⟩
  obtain ⟨result, s, hdescend⟩ := Search.exists_search token.atNode q.relus tolerances.relu
    (s := start (Problem.ofQuery q)) fun phases hlen =>
      htotal token phases (hlen.trans (List.length_map _))
  have hsearch : search? budget tolerances token q = some (result, s) := hdescend _ le_rfl
  exact ⟨_, by rw [run?, hsearch, Option.map_some]⟩

theorem returns_iff_not_recurs {tolerances : Tolerances K} (htol : 0 ≤ tolerances.bound) :
    (∀ (constant : ℕ) (bounds : List (Bounds K)) (equalities : List (Simplex.Equality K)),
      (∀ e ∈ equalities, e.1.length = bounds.length) →
      (∃ c, bounds[constant]?.getD Bounds.free = Bounds.point c) →
      let s := Simplex.assembled constant bounds tolerances.bound equalities
      (∀ quiet : ℕ → Bool, (∀ k, quiet k = false) →
        (∀ budget d, s.check quiet budget = some d → d.answer ≠ .interrupted) ∧
          ((∃ budget d, s.check quiet budget = some d) ↔
            s.contradictory = true ∨ ¬ s.start.Recurs)) ∧
        ((∀ t, ReflTransGen Simplex.Turn s.start t → t.Sharp) → ¬ s.start.Recurs)) ∧
    ∀ (n : Network K) (q : Query K), Query.compile n = .ok q →
      (∀ phases : List Phase, phases.length = n.relus.length →
        let s := (Problem.ofQuery q).relaxation tolerances.bound phases
        s.contradictory = true ∨ ¬ s.start.Recurs) →
      ∃ budget, ∀ token, ∃ out, run? budget tolerances q token = some out := by
  constructor
  · intro constant bounds equalities hlen hpin
    refine ⟨fun quiet hquiet => ⟨fun _ _ => Simplex.answer_ne_interrupted hquiet, ?_⟩,
      Simplex.not_recurs_of_sharp hlen htol hpin⟩
    exact Simplex.exists_check_iff hquiet hlen htol hpin
  · intro n q hq h
    obtain ⟨hn, rfl⟩ := Query.compile_eq_ok.mp hq
    have hshaped := Query.shaped_compiled hn
    refine exists_run? fun phases hlen => ?_
    have hphases := h phases hlen
    dsimp only at hphases
    rw [Problem.relaxation_eq] at hphases
    simp only [linear, Problem.relaxation_eq]
    exact (Simplex.exists_check_iff (fun _ => rfl) (Problem.length_of_mem_rows _) htol
      ⟨1, Problem.pinned_phaseBounds _ hshaped phases⟩).mpr hphases

theorem exists_linear_ramp (phases : List Phase) (hlen : phases.length = 1) : ∃ d,
    linear 1 Tolerances.standard (.steady false)
      (Problem.ofQuery (Query.compiled rampNetwork)) phases = some d := by
  obtain ⟨phase, rfl⟩ := List.length_eq_one_iff.mp hlen
  rw [← Option.isSome_iff_exists]
  cases phase <;> decide +kernel

-- the linear check that has the pair active makes a pivot
theorem returns_iff_not_recurs_ramp :
    (linear 1 Tolerances.standard (.steady false) (Problem.ofQuery (Query.compiled rampNetwork))
      [.active]).map Decision.pivots = some 1 ∧
    ∃ budget, ∀ token, ∃ out,
      run? budget Tolerances.standard (Query.compiled rampNetwork) token = some out := by
  have htol : 0 ≤ (Tolerances.standard : Tolerances ℚ).bound := by decide +kernel
  have hshaped := Query.shaped_compiled allocated_rampNetwork
  refine ⟨by decide +kernel, (returns_iff_not_recurs htol).2 rampNetwork _
    (Query.compile_eq_ok.mpr ⟨allocated_rampNetwork, rfl⟩) fun phases hlen => ?_⟩
  obtain ⟨d, hd⟩ := exists_linear_ramp phases hlen
  rw [linear, Problem.relaxation_eq] at hd
  rw [Problem.relaxation_eq]
  exact ((((returns_iff_not_recurs htol).1 _ _ _ (Problem.length_of_mem_rows _)
    ⟨1, Problem.pinned_phaseBounds _ hshaped phases⟩).1 _ fun _ => rfl).2).mp ⟨1, d, hd⟩

-- with a basic variable that misses its bound by less than the tolerance, seven bases follow on
-- one another and the second comes back
def cyclingNetwork : Network ℚ where
  numVars := 6
  equations := [⟨2, [(1, 2), (80, 0), (1, 1), (-4, 5)], -8⟩,
    ⟨3, [(1, 3), (12, 0), (92, 1), (-1, 5)], -10⟩, ⟨4, [(1, 4), (1, 0), (1, 1)], -1⟩]
  relus := []
  bounds := VarMap.ofList ((List.range 6).map (fun v => (v, ⟨some 0, none⟩)))
  inputs := []
  outputs := []

def cyclingTolerances : Tolerances ℚ := ⟨129 / 128, 1e-6⟩

def cyclingStart : Simplex ℚ :=
  ((Problem.ofQuery (Query.compiled cyclingNetwork)).relaxation cyclingTolerances.bound []).start

theorem recurs_cyclingStart : cyclingStart.Recurs :=
  Simplex.recurs_of_iterate_eq (i := 1) (k := 7) (by decide) (by decide +kernel)
    (by decide +kernel)

theorem run?_cyclingNetwork : ∃ q, Query.compile cyclingNetwork = .ok q ∧
    ∀ budget, run? budget cyclingTolerances q (.steady false) = none := by
  have hn : cyclingNetwork.Allocated :=
    ⟨by decide +kernel, by decide +kernel, by decide +kernel, by decide +kernel,
      by decide +kernel⟩
  refine ⟨_, Query.compile_eq_ok.mpr ⟨hn, rfl⟩, fun budget => ?_⟩
  have hcheck : linear budget cyclingTolerances (.steady false)
      (Problem.ofQuery (Query.compiled cyclingNetwork)) [] = none := by
    rw [linear, Simplex.check_of_not_contradictory (by decide +kernel)]
    exact Simplex.endless_of_recurs (fun _ => rfl) recurs_cyclingStart budget 0
  have hsearch : search? budget cyclingTolerances (.steady false)
      (Query.compiled cyclingNetwork) = none := Search.descend_of_none rfl hcheck _
  rw [run?, hsearch, Option.map_none]

end Reference

end ReluVerify
