import ReluVerify.Proofs.Reference

namespace ReluVerify

variable {K : Type} [Field K] [LinearOrder K]

def Phase.Holds (x : ℕ → K) (pair : ReluPair) : Phase → Prop
  | .undecided => True
  | .active => x pair.output = x pair.input ∧ 0 ≤ x pair.input
  | .inactive => x pair.output = 0 ∧ x pair.input ≤ 0

instance (x : ℕ → K) (pair : ReluPair) : (phase : Phase) → Decidable (phase.Holds x pair)
  | .undecided => inferInstanceAs (Decidable True)
  | .active => inferInstanceAs (Decidable (x pair.output = x pair.input ∧ 0 ≤ x pair.input))
  | .inactive => inferInstanceAs (Decidable (x pair.output = 0 ∧ x pair.input ≤ 0))

theorem Phase.Holds.eq_max {x : ℕ → K} {pair : ReluPair} {phase : Phase}
    (h : phase.Holds x pair) (hphase : phase ≠ .undecided) :
    x pair.output = max (x pair.input) 0 := by
  cases phase with
  | undecided => exact absurd rfl hphase
  | active => rw [max_eq_left h.2, h.1]
  | inactive => rw [max_eq_right h.2, h.1]

theorem Phase.Holds.allows {x : ℕ → K} {pair : ReluPair} {phase : Phase}
    (h : phase.Holds x pair) : phase.Allows 0 x pair := by
  cases phase with
  | undecided => trivial
  | active => simpa [Phase.Allows] using h.2
  | inactive => exact ⟨h.2, h.1.le⟩

theorem Phase.holds_of_allows {x : ℕ → K} {pair : ReluPair} {phase : Phase}
    (h : phase.Allows 0 x pair) (hpair : x pair.output = max (x pair.input) 0) :
    phase.Holds x pair := by
  cases phase with
  | undecided => trivial
  | active =>
    have hin : 0 ≤ x pair.input := by simpa [Phase.Allows] using h
    exact ⟨hpair.trans (max_eq_left hin), hin⟩
  | inactive => exact ⟨hpair.trans (max_eq_right h.1), h.1⟩

namespace Problem

structure Meets (p : Problem K) (phases : List Phase) (x : ℕ → K) : Prop where
  equalities : ∀ e ∈ p.equalities, combination e.1 x = 0
  bounds : Bounds.Inside p.bounds 0 x
  outputs : ∀ pair ∈ p.relus, 0 ≤ x pair.output
  decided : ∀ d ∈ p.relus.zip phases, d.2.Holds x d.1

variable [IsStrictOrderedRing K]

theorem meets_iff_checks {p : Problem K} {phases : List Phase} {x : ℕ → K} :
    p.Meets phases x ↔ (∀ e ∈ p.equalities, combination e.1 x = 0) ∧
      (∀ v < p.bounds.length, (p.bounds[v]?.getD Bounds.free).contains (x v) 0 = true) ∧
      (∀ pair ∈ p.relus, 0 ≤ x pair.output) ∧ ∀ d ∈ p.relus.zip phases, d.2.Holds x d.1 := by
  simp only [Bounds.contains_iff]
  exact ⟨fun h => ⟨h.equalities, h.bounds, h.outputs, h.decided⟩,
    fun h => ⟨h.1, h.2.1, h.2.2.1, h.2.2.2⟩⟩

structure Solution (p : Problem K) (phases : List Phase) (tolerance : K) (x : ℕ → K) : Prop where
  meets : p.Meets phases x
  relus : ∀ pair, (pair, Phase.undecided) ∈ p.relus.zip phases →
    |x pair.output - max (x pair.input) 0| ≤ tolerance

def Answers (p : Problem K) (phases : List Phase) : Answer K → Prop
  | .infeasible => ¬∃ x, p.Meets phases x
  | .feasible values => p.Meets phases (fun v => values.getD v 0)
  | .interrupted => False

def Decides (p : Problem K) (linear : List Phase → Option (Decision K)) : Prop :=
  ∀ phases : List Phase, phases.length = p.relus.length →
    ∃ d, linear phases = some d ∧ p.Answers phases d.answer

theorem Solution.relu_eq {p : Problem K} {phases : List Phase} {x : ℕ → K}
    (h : p.Solution phases 0 x) (hlen : phases.length = p.relus.length) :
    ∀ pair ∈ p.relus, x pair.output = max (x pair.input) 0 := by
  intro pair hpair
  obtain ⟨phase, hd⟩ := exists_phase hlen hpair
  by_cases hphase : phase = .undecided
  · subst hphase
    exact sub_eq_zero.mp (abs_nonpos_iff.mp (h.relus pair hd))
  · exact (h.meets.decided _ hd).eq_max hphase

omit [IsStrictOrderedRing K] in
theorem Solution.follows {p : Problem K} {phases : List Phase} {tolerance : K} {x : ℕ → K}
    (h : p.Solution phases tolerance x) : Follows 0 x p.relus phases :=
  fun d hd => (h.meets.decided d hd).allows

-- What a node deeper in the search has decided is met exactly there, so it need not be asked for
-- again where the search began.
theorem solution_of_deepens {p : Problem K} {phases deeper : List Phase} {tolerance : K}
    (htol : 0 ≤ tolerance) (hlen : phases.length = p.relus.length)
    (hdeep : Search.Deepens phases deeper) {values : List K}
    (hx : p.Meets deeper (fun v => values.getD v 0))
    (hb : Search.firstBroken? tolerance values p.relus deeper = none) :
    p.Solution phases tolerance (fun v => values.getD v 0) := by
  have hdeeper : ∀ {i : ℕ} {pair : ReluPair}, p.relus[i]? = some pair →
      ∃ phase, deeper[i]? = some phase ∧ (pair, phase) ∈ p.relus.zip deeper := by
    intro i pair hi
    have hlt : i < deeper.length :=
      hdeep.length.trans hlen ▸ (List.getElem?_eq_some_iff.mp hi).1
    have hget := List.getElem?_eq_getElem hlt
    exact ⟨_, hget, mem_zip_of_getElem? hi hget⟩
  refine ⟨⟨hx.equalities, hx.bounds, hx.outputs, fun d hd => ?_⟩, fun pair hd => ?_⟩
  · obtain ⟨i, hrelu, hphase⟩ := getElem?_of_mem_zip hd
    by_cases hund : d.2 = .undecided
    · rw [hund]
      trivial
    · have hkeeps := hdeep.keeps i fun h => hund (Option.some.inj (hphase.symm.trans h))
      obtain ⟨phase, hget, hmem⟩ := hdeeper hrelu
      obtain rfl := Option.some.inj (hget.symm.trans (hkeeps.trans hphase))
      exact hx.decided _ hmem
  · obtain ⟨i, hrelu, _⟩ := getElem?_of_mem_zip hd
    obtain ⟨phase, _, hmem⟩ := hdeeper hrelu
    by_cases hund : phase = .undecided
    · subst hund
      exact Search.firstBroken?_eq_none hb pair hmem
    · have hexact := (hx.decided _ hmem).eq_max hund
      dsimp only at hexact
      rw [hexact, sub_self, abs_zero]
      exact htol

end Problem

namespace Search

variable {p : Problem K} {linear : List Phase → Option (Decision K)} {tolerance : K}

theorem answers_of_decides (hlinear : p.Decides linear) {phases : List Phase}
    (hlen : phases.length = p.relus.length) : p.Answers phases (answerOf linear phases) := by
  obtain ⟨d, hd, hanswer⟩ := hlinear phases hlen
  rwa [answerOf_eq hd]

section

variable {tripped : List Phase → Bool} {answer : List Phase → Answer K} {phases : List Phase}
  {result : SearchResult K} {tree : Tree}
  (hanswer : ∀ phases ∈ tree.checks, p.Answers phases (answer phases))
  (hlen : phases.length = p.relus.length)
  (h : Grows tripped answer p.relus tolerance phases result tree)

include hanswer h

theorem Grows.result_ne_interrupted (hquiet : ∀ phases, tripped phases = false) :
    result ≠ .interrupted := by
  refine h.ne_interrupted (fun phases _ => hquiet phases) fun phases hmem ha => ?_
  have hfalse := hanswer phases hmem
  rw [ha] at hfalse
  exact hfalse

include hlen

variable [IsStrictOrderedRing K]

theorem Grows.not_solution (hunsat : result = .unsat) : ¬∃ x, p.Solution phases 0 x := by
  rintro ⟨x, hx⟩
  have hrelus := hx.relu_eq hlen
  obtain ⟨deeper, hmem, ha, hfollows⟩ := h.exists_infeasible hunsat hrelus hx.follows
  have hnone := hanswer deeper hmem
  rw [ha] at hnone
  refine hnone ⟨x, hx.meets.equalities, hx.meets.bounds, hx.meets.outputs, fun e he => ?_⟩
  exact Phase.holds_of_allows (hfollows e he) (hrelus _ (List.of_mem_zip he).1)

theorem Grows.solution (htol : 0 ≤ tolerance) {values : List K} (hsat : result = .sat values) :
    p.Solution phases tolerance (fun v => values.getD v 0) := by
  obtain ⟨deeper, hmem, ha, hb⟩ := h.exists_feasible hsat
  have hmeets := hanswer deeper hmem
  rw [ha] at hmeets
  have hdeep := h.deepens deeper (tree.checks_sublist_nodes.subset hmem)
  exact Problem.solution_of_deepens htol hlen hdeep hmeets hb

end

-- A token that trips at some of the nodes takes nothing from what is found.
theorem search_decides [IsStrictOrderedRing K] (hlinear : p.Decides linear) (htol : 0 ≤ tolerance)
    (tripped : List Phase → Bool) {s : SearchState} (hs : s.phases.length = p.relus.length) :
    ∃ result s', (∀ depth, s.undecided ≤ depth →
        descend tripped linear p.relus tolerance depth s = some (result, s')) ∧
      search tripped linear p.relus tolerance s = some (result, s') ∧
      s'.phases = s.phases ∧
      (result = .unsat → ¬∃ x, p.Solution s.phases 0 x) ∧
      (∀ values, result = .sat values →
        p.Solution s.phases tolerance (fun v => values.getD v 0)) ∧
      ((∀ phases, tripped phases = false) → result ≠ .interrupted ∧
        (tolerance = 0 → (result = .unsat ↔ ¬∃ x, p.Solution s.phases 0 x))) := by
  obtain ⟨result, s', hreturns⟩ := exists_search tripped p.relus tolerance (s := s)
    fun phases hlen => (hlinear phases (hlen.trans hs)).imp fun _ hd => hd.1
  have hsearch : search tripped linear p.relus tolerance s = some (result, s') :=
    hreturns _ le_rfl
  obtain ⟨tree, hgrows, -, rfl⟩ := exists_tree_of_search hsearch
  have hanswer : ∀ phases ∈ tree.checks, p.Answers phases (answerOf linear phases) :=
    fun phases hmem => answers_of_decides hlinear ((hgrows.length_of_mem hmem).trans hs)
  have hunsat := hgrows.not_solution hanswer hs
  have hsat : ∀ values, result = .sat values →
      p.Solution s.phases tolerance (fun v => values.getD v 0) :=
    fun _ => hgrows.solution hanswer hs htol
  refine ⟨result, _, hreturns, hsearch, rfl, hunsat, hsat, fun hquiet => ?_⟩
  have hne := hgrows.result_ne_interrupted hanswer hquiet
  refine ⟨hne, ?_⟩
  rintro rfl
  refine ⟨hunsat, fun hnone => ?_⟩
  cases result with
  | unsat => rfl
  | interrupted => exact absurd rfl hne
  | sat values => exact absurd ⟨_, hsat values rfl⟩ hnone

-- one pair, between twice the first variable and an output that is at least one half
def halfProblem : Problem ℚ where
  constant := 3
  equalities := [([2, -1, 0, 0], 1)]
  bounds := [⟨some (-1), some 1⟩, .free, ⟨some (1 / 2), none⟩, .point 1]
  relus := [⟨1, 2⟩]

def halfLinear : List Phase → Option (Decision ℚ) :=
  Reference.linear 1 ⟨0, 0⟩ (.steady false) halfProblem

theorem exists_halfLinear (phases : List Phase) (answer : Answer ℚ)
    (h : (halfLinear phases).map Decision.answer = some answer)
    (hanswer : halfProblem.Answers phases answer) :
    ∃ d, halfLinear phases = some d ∧ halfProblem.Answers phases d.answer := by
  obtain ⟨d, hd, rfl⟩ := Option.map_eq_some_iff.mp h
  exact ⟨d, hd, hanswer⟩

theorem decides_halfLinear : halfProblem.Decides halfLinear := by
  intro phases hlen
  obtain ⟨phase, rfl⟩ := List.length_eq_one_iff.mp hlen
  cases phase with
  | undecided =>
    exact exists_halfLinear [.undecided] (.feasible [0, 0, 1 / 2, 1]) (by decide +kernel)
      (Problem.meets_iff_checks.mpr (by decide +kernel))
  | active =>
    exact exists_halfLinear [.active] (.feasible [1 / 4, 1 / 2, 1 / 2, 1]) (by decide +kernel)
      (Problem.meets_iff_checks.mpr (by decide +kernel))
  | inactive =>
    refine exists_halfLinear [.inactive] .infeasible (by decide +kernel) ?_
    rintro ⟨x, hx⟩
    have hout : 1 / 2 - 0 ≤ x 2 := (hx.bounds 2 (by decide)).1 (1 / 2) rfl
    have hzero : x 2 = 0 := (hx.decided (⟨1, 2⟩, .inactive) (by decide)).1
    linarith

theorem search_decides_half : ∃ result s', halfProblem.Decides halfLinear ∧
    search (fun _ => false) halfLinear halfProblem.relus 0 ⟨[.undecided], {}⟩ =
      some (result, s') ∧
    s'.phases = [.undecided] ∧
      (result = .unsat ↔ ¬∃ x, halfProblem.Solution [.undecided] 0 x) := by
  obtain ⟨result, s', _, hsearch, hphases, _, _, hiff⟩ :=
    search_decides decides_halfLinear le_rfl (fun _ => false)
      (rfl : (⟨[.undecided], {}⟩ : SearchState).phases.length = _)
  exact ⟨result, s', decides_halfLinear, hsearch, hphases, (hiff fun _ => rfl).2 rfl⟩

end Search

end ReluVerify
