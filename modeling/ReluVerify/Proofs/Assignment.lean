import ReluVerify.Proofs.Reference

namespace ReluVerify

variable {K : Type} [Field K]

def EngineOutput.value (out : EngineOutput K) (v : ℕ) : K := (out.assignment.get? v).getD 0

theorem EngineOutput.value_of_assignment {out : EngineOutput K} {values : List K}
    (h : out.assignment = VarMap.ofValues values) : out.value = fun v => values.getD v 0 := by
  funext v
  rw [EngineOutput.value, h, VarMap.get?_ofValues, List.getD_eq_getElem?_getD]

omit [Field K] in
theorem VarMap.keys_ofValues (values : List K) :
    (VarMap.ofValues values).keys = List.range values.length := by
  refine List.Pairwise.eq_of_mem_iff (r := (· < ·)) ?_ List.pairwise_lt_range fun v => ?_
  · exact List.pairwise_map.mpr (VarMap.ofValues values).ascending
  · rw [VarMap.mem_keys_iff, VarMap.get?_ofValues, List.mem_range]
    simp

namespace Reference

variable [LinearOrder K] [IsStrictOrderedRing K]

section

variable {tolerances : Tolerances K} {q : Query K} {phases : List Phase} {values : List K}
  (hq : q.Shaped) (h : Node tolerances q phases values)

theorem abs_sub_max_le_of_active {x y t s : K} (hx : -t ≤ x) (hxy : |y - x| ≤ s) (ht : 0 ≤ t) :
    |y - max x 0| ≤ t + s := by
  obtain ⟨hlow, hupp⟩ := abs_le.mp hxy
  rcases le_total 0 x with hpos | hneg
  · rw [max_eq_left hpos, abs_le]
    constructor <;> linarith
  · rw [max_eq_right hneg, abs_le]
    constructor <;> linarith

theorem abs_sub_max_le_of_inactive {x y t s : K} (hx : x ≤ t) (hlow : -t ≤ y) (hupp : y ≤ t)
    (ht : 0 ≤ t) (hs : t ≤ s) : |y - max x 0| ≤ t + s := by
  have hmax : max x 0 ≤ t := max_le hx ht
  have hzero := le_max_right x 0
  rw [abs_le]
  constructor <;> linarith

def allowance (tolerance : K) (count : ℕ) (x : ℕ → K) : K :=
  tolerance + Simplex.pivotFloor * ∑ j ∈ Finset.range count, |x j|

theorem le_allowance (tolerance : K) (count : ℕ) (x : ℕ → K) :
    tolerance ≤ allowance tolerance count x :=
  le_add_of_nonneg_right
    (mul_nonneg pivotFloor_pos.le (Finset.sum_nonneg fun j _ => abs_nonneg (x j)))

omit [IsStrictOrderedRing K] in
theorem Node.value_constant_framed (hq : q.Framed) (h : Node tolerances q phases values) {c : K}
    (hc : q.boundsOf q.constant = Bounds.point c) : values.getD q.constant 0 = c := by
  have hpinned := h.feasible.pinned
  rw [Problem.numVars_relaxation, Problem.relaxation_eq] at hpinned
  simp only [Simplex.constant_assembled, Simplex.boundsOf_assembled] at hpinned
  exact hpinned hq.constant_lt c ((Problem.boundsOf_phaseBounds_constant q hq phases).trans hc)

theorem Node.inside_framed (hq : q.Framed) (h : Node tolerances q phases values) :
    ((∀ v < q.numVariables, (q.boundsOf v).Within tolerances.bound (values.getD v 0)) ∧
      ∀ p ∈ q.relus, -tolerances.bound ≤ values.getD p.output 0) ∧
      Follows tolerances.bound (fun v => values.getD v 0) q.relus phases := by
  refine (Problem.inside_phaseBounds_framed q hq phases).mp fun v hv => ?_
  have hwithin := h.feasible.within v (by
    rwa [Problem.relaxation_eq, Simplex.numVars_assembled])
  rwa [Problem.relaxation_eq, Simplex.tolerance_assembled, Simplex.boundsOf_assembled] at hwithin

include hq h

omit [IsStrictOrderedRing K] in
theorem Node.value_constant : values.getD q.constant 0 = 1 :=
  h.value_constant_framed hq.framed hq.pinned

theorem Node.inside : ((∀ v < q.numVariables,
      (q.boundsOf v).Within tolerances.bound (values.getD v 0)) ∧
    ∀ p ∈ q.relus, -tolerances.bound ≤ values.getD p.output 0) ∧
      Follows tolerances.bound (fun v => values.getD v 0) q.relus phases :=
  h.inside_framed hq.framed

theorem Node.abs_combination_le (htol : 0 ≤ tolerances.bound) :
    ∀ e ∈ (Problem.ofQuery q).rows phases, |combination e.1 (fun v => values.getD v 0)| ≤
      allowance tolerances.bound q.numVariables (fun v => values.getD v 0) := by
  intro e he
  have hlen : ∀ e ∈ (Problem.ofQuery q).rows phases,
      e.1.length = ((Problem.ofQuery q).phaseBounds phases).length := Problem.length_of_mem_rows q
  have hnum : ((Problem.ofQuery q).phaseBounds phases).length = q.numVariables :=
    (Problem.length_phaseBounds _ _).trans (Problem.length_bounds_ofQuery q)
  have hcon := h.consistent
  have hsat := h.feasible.satisfied
  rw [Problem.relaxation_eq] at hcon hsat
  have hlt : q.constant < ((Problem.ofQuery q).phaseBounds phases).length :=
    hnum.symm ▸ hq.constant_lt
  refine (Simplex.abs_combination_of_adding Simplex.tidy_ofBounds htol hlt hlen hcon hsat e
    he).trans ?_
  change tolerances.bound * |values.getD q.constant 0| + Simplex.pivotFloor *
    ∑ j ∈ (Finset.range ((Problem.ofQuery q).phaseBounds phases).length).erase q.constant,
      |values.getD j 0| ≤ _
  rw [h.value_constant hq, abs_one, mul_one, hnum]
  refine add_le_add le_rfl (mul_le_mul_of_nonneg_left ?_ pivotFloor_pos.le)
  exact Finset.sum_le_sum_of_subset_of_nonneg (Finset.erase_subset _ _)
    fun j _ _ => abs_nonneg (values.getD j 0)

theorem Node.abs_excess_le (htol : 0 ≤ tolerances.bound) {r : ℕ}
    (hr : q.tableau.hasRow r = true) : |q.excess r (fun v => values.getD v 0)| ≤
      allowance tolerances.bound q.numVariables (fun v => values.getD v 0) := by
  obtain ⟨cells, hcells⟩ := Option.isSome_iff_exists.mp hr
  have hmem : (Problem.denseRow q.constant q.numVariables cells, r) ∈
      (Problem.ofQuery q).equalities :=
    (Problem.mem_equalities q).mpr ⟨cells, hcells, rfl⟩
  rw [← Problem.combination_equality q hq hmem (h.value_constant hq)]
  exact h.abs_combination_le hq htol _
    (List.mem_map.mpr ⟨_, List.mem_append_left _ hmem, rfl⟩)

theorem Node.abs_active_le (htol : 0 ≤ tolerances.bound) {pair : ReluPair}
    (hpair : (pair, Phase.active) ∈ q.relus.zip phases) :
    |values.getD pair.output 0 - values.getD pair.input 0| ≤
      allowance tolerances.bound q.numVariables (fun v => values.getD v 0) := by
  rw [← Problem.combination_phaseRow q hq hpair (fun v => values.getD v 0)]
  exact h.abs_combination_le hq htol _ (List.mem_map.mpr
    ⟨_, List.mem_append_right _ (Problem.mem_phaseRows.mpr ⟨pair, hpair, rfl⟩), rfl⟩)

theorem Node.abs_relu_le_of_active {s : K} (htol : 0 ≤ tolerances.bound)
    (hs : tolerances.bound ≤ s) (hactive : ∀ pair, (pair, Phase.active) ∈ q.relus.zip phases →
      |values.getD pair.output 0 - values.getD pair.input 0| ≤ s) {pair : ReluPair}
    (hpair : pair ∈ q.relus) : |values.getD pair.output 0 - max (values.getD pair.input 0) 0| ≤
      max tolerances.relu (tolerances.bound + s) := by
  obtain ⟨⟨_, hout⟩, hfollows⟩ := h.inside hq
  obtain ⟨phase, hd⟩ := Problem.exists_phase h.length hpair
  have hallows := hfollows _ hd
  cases phase with
  | undecided => exact (h.holds pair hd).trans (le_max_left _ _)
  | active =>
    exact (abs_sub_max_le_of_active hallows (hactive pair hd) htol).trans (le_max_right _ _)
  | inactive =>
    exact (abs_sub_max_le_of_inactive hallows.1 (hout pair hpair) hallows.2 htol hs).trans
      (le_max_right _ _)

theorem Node.abs_relu_le (htol : 0 ≤ tolerances.bound) {pair : ReluPair}
    (hpair : pair ∈ q.relus) : |values.getD pair.output 0 - max (values.getD pair.input 0) 0| ≤
      max tolerances.relu (tolerances.bound +
        allowance tolerances.bound q.numVariables (fun v => values.getD v 0)) :=
  h.abs_relu_le_of_active hq htol (le_allowance ..) (fun _ hd => h.abs_active_le hq htol hd) hpair

end

-- Rows that elimination dropped and pairs that the search decided are not looked at again, so both
-- are met up to an allowance only.
theorem run_nearly_solves {n : Network K} {q : Query K} (hq : Query.Derived n q)
    {tolerances : Tolerances K} (hbound : 0 ≤ tolerances.bound) {budget : ℕ}
    {token : Token} {out : EngineOutput K}
    (h : run? budget tolerances q token = some out) (hne : out.assignment.isEmpty = false) :
    out.assignment.keys = List.range q.numVariables ∧ out.value q.constant = 1 ∧
      (∀ v < q.numVariables, (q.boundsOf v).Within tolerances.bound (out.value v)) ∧
      (∀ r, q.tableau.hasRow r = true → |q.excess r out.value| ≤ tolerances.bound +
        Simplex.pivotFloor * ∑ j ∈ Finset.range q.numVariables, |out.value j|) ∧
      ∀ p ∈ q.relus, |out.value p.output - max 0 (out.value p.input)| ≤
        max tolerances.relu (2 * tolerances.bound +
          Simplex.pivotFloor * ∑ j ∈ Finset.range q.numVariables, |out.value j|) := by
  have hshaped := hq.shaped.1
  obtain ⟨phases, values, hnode, hassign⟩ := exists_node_of_run? h hshaped hbound hne
  rw [EngineOutput.value_of_assignment hassign]
  refine ⟨?_, hnode.value_constant hshaped, (hnode.inside hshaped).1.1,
    fun r hr => hnode.abs_excess_le hshaped hbound hr, fun p hp => ?_⟩
  · rw [hassign, VarMap.keys_ofValues, hnode.length_values]
  · rw [max_comm 0, two_mul, add_assoc]
    exact hnode.abs_relu_le hshaped hbound hp

def rampNetwork : Network ℚ :=
  let n := (Network.empty.newVariables 3).2
  let n := ((n.setLower 0 (-1)).setUpper 0 1).setLower 2 (1 / 2)
  (n.addEquation ⟨1, [(1, 1), (-2, 0)], 0⟩).addRelu 1 2

theorem allocated_rampNetwork : rampNetwork.Allocated :=
  ⟨by decide +kernel, by decide +kernel, by decide +kernel, by decide +kernel, by decide +kernel⟩

theorem run_nearly_solves_ramp : ∃ out,
    run? 10 Tolerances.standard (Query.compiled rampNetwork) (.steady false) = some out ∧
      out.assignment.isEmpty = false ∧ out.assignment.keys = [0, 1, 2, 3] ∧ out.value 3 = 1 := by
  have hrun : (run? 10 Tolerances.standard (Query.compiled rampNetwork) (.steady false)).any
      (fun out => !out.assignment.isEmpty) = true := by decide +kernel
  obtain ⟨out, hout, hne⟩ := (Option.any_eq_true _ _).mp hrun
  have hne : out.assignment.isEmpty = false := by simpa using hne
  have hq : Query.Derived rampNetwork (Query.compiled rampNetwork) :=
    .compiled (Query.compile_eq_ok.mpr ⟨allocated_rampNetwork, rfl⟩)
  obtain ⟨hkeys, hone, _⟩ := run_nearly_solves hq (by decide +kernel) hout hne
  exact ⟨out, hout, hne, hkeys, hone⟩

end Reference

end ReluVerify
