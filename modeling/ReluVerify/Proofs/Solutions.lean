import ReluVerify.Proofs.Relaxation

namespace ReluVerify

variable {K : Type} [Field K] [LinearOrder K] [IsStrictOrderedRing K]

namespace Query

def Balanced (q : Query K) (row : ℕ) (x : ℕ → K) : Prop :=
  ∑ j ∈ (Finset.range q.numVariables).erase q.constant, q.tableau.coeff row j * x j =
    q.tableau.coeff row q.constant * x q.constant

theorem eq_one_of_within {q : Query K} (hq : q.Shaped) {x : ℕ → K}
    (hx : (q.boundsOf q.constant).Within 0 (x q.constant)) : x q.constant = 1 := by
  rw [hq.pinned] at hx
  exact Bounds.within_point.mp hx

omit [LinearOrder K] [IsStrictOrderedRing K] in
theorem balanced_iff_excess {q : Query K} {row : ℕ} {x : ℕ → K} (hx : x q.constant = 1) :
    q.Balanced row x ↔ q.excess row x = 0 := by
  rw [Balanced, excess, hx, mul_one, sub_eq_zero]

theorem solves_iff_balanced {q : Query K} (hq : q.Shaped) {x : ℕ → K} :
    q.Solves x ↔ (∀ r, q.tableau.hasRow r = true → q.Balanced r x) ∧
      (∀ v < q.numVariables, (q.boundsOf v).Within 0 (x v)) ∧
      ∀ p ∈ q.relus, x p.output = max (x p.input) 0 := by
  constructor
  · intro hx
    have hone := eq_one_of_within hq (hx.bounds _ hq.constant_lt)
    exact ⟨fun r hr => (balanced_iff_excess hone).mpr (hx.rows r hr), hx.bounds, hx.relus⟩
  · rintro ⟨hrows, hbounds, hrelus⟩
    have hone := eq_one_of_within hq (hbounds _ hq.constant_lt)
    exact ⟨fun r hr => (balanced_iff_excess hone).mp (hrows r hr), hbounds, hrelus⟩

end Query

namespace Problem

structure Solves (p : Problem K) (x : ℕ → K) : Prop where
  equalities : ∀ e ∈ p.equalities, combination e.1 x = 0
  bounds : Bounds.Inside p.bounds 0 x
  relus : ∀ pair ∈ p.relus, x pair.output = max (x pair.input) 0

omit [IsStrictOrderedRing K] in
theorem equalities_iff_rows {q : Query K} (hq : q.Shaped) {x : ℕ → K} (hx : x q.constant = 1) :
    (∀ e ∈ (ofQuery q).equalities, combination e.1 x = 0) ↔
      ∀ r, q.tableau.hasRow r = true → q.excess r x = 0 := by
  constructor
  · intro h r hr
    obtain ⟨cells, hcells⟩ := Option.isSome_iff_exists.mp hr
    have hmem : (denseRow q.constant q.numVariables cells, r) ∈ (ofQuery q).equalities :=
      (mem_equalities q).mpr ⟨cells, hcells, rfl⟩
    rw [← combination_equality q hq hmem hx]
    exact h _ hmem
  · intro h e he
    obtain ⟨cells, hcells, _⟩ := (mem_equalities q).mp he
    rw [combination_equality q hq he hx]
    exact h e.2 (Option.isSome_iff_exists.mpr ⟨cells, hcells⟩)

-- The bound that the dense form adds to every output follows from the output's own pair.
theorem solves_ofQuery_iff {q : Query K} (hq : q.Shaped) {x : ℕ → K} :
    (ofQuery q).Solves x ↔ q.Solves x := by
  have hone : (∀ v < q.numVariables, (q.boundsOf v).Within 0 (x v)) → x q.constant = 1 :=
    fun hbounds => Query.eq_one_of_within hq (hbounds _ hq.constant_lt)
  constructor
  · intro hx
    have hbounds := ((inside_bounds_ofQuery q hq.output_lt).mp hx.bounds).1
    exact ⟨(equalities_iff_rows hq (hone hbounds)).mp hx.equalities, hbounds, hx.relus⟩
  · intro hx
    refine ⟨(equalities_iff_rows hq (hone hx.bounds)).mpr hx.rows,
      (inside_bounds_ofQuery q hq.output_lt).mpr ⟨hx.bounds, fun p hp => ?_⟩, hx.relus⟩
    rw [neg_zero, hx.relus p hp]
    exact le_max_right _ _

end Problem

namespace Network

def withConstant (n : Network K) (x : ℕ → K) : ℕ → K := Function.update x n.numVars 1

omit [LinearOrder K] [IsStrictOrderedRing K] in
theorem withConstant_of_lt (n : Network K) (x : ℕ → K) {v : ℕ} (hv : v < n.numVars) :
    n.withConstant x v = x v :=
  Function.update_of_ne hv.ne _ _

omit [LinearOrder K] [IsStrictOrderedRing K] in
theorem withConstant_constant (n : Network K) (x : ℕ → K) : n.withConstant x n.numVars = 1 :=
  Function.update_self ..

theorem solves_iff_withConstant {n : Network K} (hn : n.Allocated) {x : ℕ → K} :
    n.Solves x ↔ (Query.compiled n).Solves (n.withConstant x) := by
  rw [← solves_iff hn (n.withConstant_constant x)]
  constructor
  · exact fun hx => hx.congr hn fun v hv => (n.withConstant_of_lt x hv).symm
  · exact fun hx => hx.congr hn fun v hv => n.withConstant_of_lt x hv

theorem solves_tfae {n : Network K} {q : Query K} (h : Query.compile n = .ok q) :
    (∀ x : ℕ → K, [n.Solves x, q.Solves (n.withConstant x),
      (∀ r, q.tableau.hasRow r = true → q.Balanced r (n.withConstant x)) ∧
        (∀ v < q.numVariables, (q.boundsOf v).Within 0 (n.withConstant x v)) ∧
        ∀ p ∈ q.relus, n.withConstant x p.output = max (n.withConstant x p.input) 0,
      (Problem.ofQuery q).Solves (n.withConstant x)].TFAE) ∧
    ∀ y : ℕ → K, ((Problem.ofQuery q).Solves y ↔ q.Solves y) ∧
      (q.Solves y → n.Solves y ∧ ∀ v < q.numVariables, y v = n.withConstant y v) := by
  obtain ⟨hn, rfl⟩ := Query.compile_eq_ok.mp h
  have hq := Query.shaped_compiled hn
  refine ⟨fun x => ?_, fun y => ⟨Problem.solves_ofQuery_iff hq, fun hy => ?_⟩⟩
  · tfae_have 1 ↔ 2 := solves_iff_withConstant hn
    tfae_have 2 ↔ 3 := Query.solves_iff_balanced hq
    tfae_have 2 ↔ 4 := (Problem.solves_ofQuery_iff hq).symm
    tfae_finish
  · refine ⟨solves_of_compiled hn hy, fun v hv => ?_⟩
    rw [Query.numVariables_compiled] at hv
    rcases Nat.lt_succ_iff_lt_or_eq.mp hv with hv | rfl
    · rw [n.withConstant_of_lt y hv]
    · rw [n.withConstant_constant]
      exact Query.eq_one_of_within hq (hy.bounds _ hq.constant_lt)

-- a variable twice in one equation, an owner that its equation does not mention, a bound that is
-- overwritten and an output shared by two pairs
def sharedNetwork : Network ℚ :=
  let n := (Network.empty.newVariables 3).2
  let n := ((n.setLower 0 5).setLower 0 (-1)).setUpper 1 2
  ((n.addEquation ⟨1, [(1, 0), (1, 0)], 2⟩).addRelu 0 2).addRelu 1 2

theorem solves_tfae_shared : ∃ q, Query.compile sharedNetwork = .ok q ∧
    sharedNetwork.Solves (fun _ => 1) ∧
      (Problem.ofQuery q).Solves (sharedNetwork.withConstant fun _ => 1) := by
  have hn : sharedNetwork.Allocated :=
    ⟨by decide +kernel, by decide +kernel, by decide +kernel, by decide +kernel,
      by decide +kernel⟩
  have hq : Query.compile sharedNetwork = .ok (Query.compiled sharedNetwork) :=
    Query.compile_eq_ok.mpr ⟨hn, rfl⟩
  have hx : sharedNetwork.Solves (fun _ => 1) := by
    rw [solves_iff_checks hn]
    decide +kernel
  exact ⟨_, hq, hx, (((solves_tfae hq).1 fun _ => 1).out 0 3).mp hx⟩

end Network

end ReluVerify
