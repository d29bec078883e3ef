import ReluVerify.Proofs.Refinement
import ReluVerify.Proofs.Reference
import ReluVerify.Proofs.Solutions
import ReluVerify.Proofs.Simplex.Triangular

namespace ReluVerify

variable {K : Type} [Field K] [LinearOrder K]

structure Query.Staged (q : Query K) : Prop where
  shaped : q.Shaped
  row_lt : ∀ r, q.tableau.hasRow r = true → r < q.numVariables
  row_ne : ∀ r, q.tableau.hasRow r = true → r ≠ q.constant
  leading : ∀ r, q.tableau.hasRow r = true → q.tableau.coeff r r = 1
  above : ∀ r, q.tableau.hasRow r = true → ∀ j, r < j → j ≠ q.constant → q.tableau.coeff r j = 0
  output : ∀ p ∈ q.relus, q.tableau.hasRow p.output = false
  ordered : ∀ p ∈ q.relus, p.input < p.output
  increasing : q.relus.Pairwise (fun p p' => p.output < p'.output)

namespace Problem

def solvedRows (p : Problem K) (phases : List Phase) : List (List K × ℕ) :=
  p.equalities ++ p.phaseRows phases

theorem hasRow_of_mem_equalities {q : Query K} {e : List K × ℕ}
    (he : e ∈ (ofQuery q).equalities) : q.tableau.hasRow e.2 = true := by
  obtain ⟨cells, hcells, _⟩ := (mem_equalities q).mp he
  exact Option.isSome_iff_exists.mpr ⟨cells, hcells⟩

theorem getD_activeRow (count : ℕ) (pair : ReluPair) (j : ℕ) :
    (activeRow count pair : List K).getD j 0 = if j < count then
      (if j = pair.output then 1 else 0) - (if j = pair.input then 1 else 0) else 0 := by
  rcases lt_or_ge j count with hj | hj
  · have hset : j < ((List.replicate count (0 : K)).modify pair.output (· + 1)).length := by
      simpa using hj
    rw [activeRow, Simplex.getD_modify hset, Simplex.getD_modify (by simpa using hj),
      List.getD_replicate _ hj, if_pos hj, zero_add]
    split <;> simp
  · rw [List.getD_eq_default _ _ (by rwa [length_activeRow]), if_neg (not_lt.mpr hj)]

variable {q : Query K} (hq : q.Staged) {phases : List Phase}

include hq

theorem leads_denseRow {r : ℕ} {cells : VarMap K} (hcells : q.tableau.row? r = some cells) :
    Simplex.Leads q.constant r (denseRow q.constant q.numVariables cells) := by
  have hr : q.tableau.hasRow r = true := Option.isSome_iff_exists.mpr ⟨cells, hcells⟩
  refine ⟨hq.row_ne r hr, ?_, fun j hj hjc => ?_⟩
  · rw [getD_denseRow (hq.row_lt r hr), if_neg (hq.row_ne r hr), ← Tableau.coeff_of_row? hcells,
      hq.leading r hr]
  · rcases lt_or_ge j q.numVariables with hlt | hge
    · rw [getD_denseRow hlt, if_neg hjc, ← Tableau.coeff_of_row? hcells, hq.above r hr j hj hjc]
    · exact List.getD_eq_default _ _ (by rwa [length_denseRow])

theorem leads_activeRow {pair : ReluPair} (hpair : pair ∈ q.relus) :
    Simplex.Leads q.constant pair.output (activeRow (ofQuery q).bounds.length pair : List K) := by
  have hin := hq.ordered pair hpair
  have hout := hq.shaped.output_lt pair hpair
  rw [length_bounds_ofQuery]
  refine ⟨hq.shaped.output_ne pair hpair, ?_, fun j hj _ => ?_⟩
  · rw [getD_activeRow, if_pos hout, if_pos rfl, if_neg hin.ne', sub_zero]
  · rw [getD_activeRow, if_neg hj.ne', if_neg (hin.trans hj).ne', sub_zero, ite_self]

theorem leads_solvedRows :
    ∀ e ∈ (ofQuery q).solvedRows phases, Simplex.Leads q.constant e.2 e.1 := by
  intro e he
  rcases List.mem_append.mp he with he | he
  · obtain ⟨cells, hcells, hrow⟩ := (mem_equalities q).mp he
    rw [hrow]
    exact leads_denseRow hq hcells
  · obtain ⟨pair, hpair, rfl⟩ := mem_phaseRows.mp he
    exact leads_activeRow hq (List.of_mem_zip hpair).1

omit [LinearOrder K] in
theorem pairwise_zip (hlen : phases.length = q.relus.length) :
    (q.relus.zip phases).Pairwise (fun d d' => d.1.output < d'.1.output) := by
  rw [← List.pairwise_map (f := Prod.fst) (R := fun p p' : ReluPair => p.output < p'.output),
    List.map_fst_zip hlen.ge]
  exact hq.increasing

omit [LinearOrder K] in
theorem eq_of_output (hlen : phases.length = q.relus.length) {d d' : ReluPair × Phase}
    (hd : d ∈ q.relus.zip phases) (hd' : d' ∈ q.relus.zip phases)
    (h : d.1.output = d'.1.output) : d = d' := by
  have hnodup : ((q.relus.zip phases).map (fun d => d.1.output)).Nodup :=
    List.pairwise_map.mpr ((pairwise_zip hq hlen).imp fun hlt => ne_of_lt hlt)
  exact List.inj_on_of_nodup_map hnodup hd hd' h

theorem nodup_phaseRows (hlen : phases.length = q.relus.length) :
    (((ofQuery q).phaseRows phases).map Prod.snd).Nodup := by
  refine List.Pairwise.imp (fun hlt => ne_of_lt hlt) (List.pairwise_map.mpr ?_)
  refine List.Pairwise.filterMap _ (fun d d' hlt b hb b' hb' => ?_) (pairwise_zip hq hlen)
  obtain ⟨pair, phase⟩ := d
  obtain ⟨pair', phase'⟩ := d'
  cases phase <;> cases hb
  cases phase' <;> cases hb'
  exact hlt

theorem nodup_solvedRows (hlen : phases.length = q.relus.length) :
    (((ofQuery q).solvedRows phases).map Prod.snd).Nodup := by
  rw [solvedRows, List.map_append, List.nodup_append]
  refine ⟨?_, nodup_phaseRows hq hlen, fun r hr r' hr' => ?_⟩
  · change ((q.tableau.rows.entries.map _).map Prod.snd).Nodup
    rw [List.map_map]
    exact (List.pairwise_map.mpr q.tableau.rows.ascending).imp fun hlt => ne_of_lt hlt
  · rintro rfl
    obtain ⟨e, he, rfl⟩ := List.mem_map.mp hr
    obtain ⟨f, hf, hfe⟩ := List.mem_map.mp hr'
    obtain ⟨pair, hpair, rfl⟩ := mem_phaseRows.mp hf
    have hnone := hq.output pair (List.of_mem_zip hpair).1
    rw [show pair.output = e.2 from hfe, hasRow_of_mem_equalities he] at hnone
    cases hnone

variable [IsStrictOrderedRing K]

theorem adopts_relaxation (hlen : phases.length = q.relus.length) (tolerance : K) :
    (Simplex.ofBounds q.constant ((ofQuery q).phaseBounds phases) tolerance).Adopts
      ((ofQuery q).solvedRows phases) ((ofQuery q).relaxation tolerance phases) := by
  rw [relaxation_eq]
  refine Simplex.adopts_assembled (fun e he => ?_) (leads_solvedRows hq) (nodup_solvedRows hq hlen)
  exact length_of_mem_rows q _ (List.mem_map_of_mem he)

theorem contradictory_relaxation (hlen : phases.length = q.relus.length) {tolerance : K} :
    ((ofQuery q).relaxation tolerance phases).contradictory = false ↔ ∀ v < q.numVariables,
      Simplex.crossed tolerance (((ofQuery q).phaseBounds phases)[v]?.getD Bounds.free) =
        false := by
  rw [(adopts_relaxation hq hlen tolerance).contradictory, Simplex.contradictory_ofBounds,
    length_phaseBounds, length_bounds_ofQuery]

-- No equality is lost on the way to the tableau, so what satisfies its rows solves the query's.
theorem satisfied_relaxation (hlen : phases.length = q.relus.length) {tolerance : K} {x : ℕ → K}
    (hx : x q.constant = 1) : ((ofQuery q).relaxation tolerance phases).Satisfied x ↔
      (∀ r, q.tableau.hasRow r = true → q.excess r x = 0) ∧
        ∀ pair, (pair, Phase.active) ∈ q.relus.zip phases → x pair.output = x pair.input := by
  rw [(adopts_relaxation hq hlen tolerance).satisfied,
    and_iff_right (Simplex.satisfied_ofBounds x), solvedRows, List.forall_mem_append]
  refine and_congr (equalities_iff_rows hq.shaped hx)
    ⟨fun h pair hpair => ?_, fun h e he => ?_⟩
  · have hrow := h _ (mem_phaseRows.mpr ⟨pair, hpair, rfl⟩)
    rwa [combination_phaseRow q hq.shaped hpair, sub_eq_zero] at hrow
  · obtain ⟨pair, hpair, rfl⟩ := mem_phaseRows.mp he
    rw [combination_phaseRow q hq.shaped hpair, sub_eq_zero]
    exact h pair hpair

theorem nonbasic_relaxation (hlen : phases.length = q.relus.length) (tolerance : K) {v : ℕ}
    (hrow : q.tableau.hasRow v = false)
    (hactive : ∀ pair, (pair, Phase.active) ∈ q.relus.zip phases → pair.output ≠ v) :
    ∀ r ∈ ((ofQuery q).relaxation tolerance phases).rows, r.basic ≠ v := by
  rintro r hr rfl
  have hmem := List.mem_map_of_mem (f := Row.basic) hr
  rw [(adopts_relaxation hq hlen tolerance).basics] at hmem
  obtain ⟨e, he, hev⟩ := List.mem_map.mp hmem
  rcases List.mem_append.mp he with he | he
  · rw [← hev, hasRow_of_mem_equalities he] at hrow
    cases hrow
  · obtain ⟨pair, hpair, rfl⟩ := mem_phaseRows.mp he
    exact hactive pair hpair hev

end Problem

structure Equation.Leads (e : Equation K) : Prop where
  terms_le : ∀ t ∈ e.terms, t.2 ≤ e.aux
  one : (e.terms.map (fun t => if t.2 = e.aux then t.1 else 0)).sum = 1

structure Network.Staged (n : Network K) : Prop where
  allocated : n.Allocated
  leads : ∀ e ∈ n.equations, e.Leads
  output : ∀ p ∈ n.relus, ∀ e ∈ n.equations, e.aux ≠ p.output
  ordered : ∀ p ∈ n.relus, p.input < p.output
  increasing : n.relus.Pairwise (fun p p' => p.output < p'.output)

namespace Query

theorem coeff_compiled {n : Network K} (h : n.Allocated) {e : Equation K} (he : e ∈ n.equations)
    {j : ℕ} (hj : j ≠ n.numVars) : (compiled n).tableau.coeff e.aux j =
      (e.terms.map (fun t => if t.2 = j then t.1 else 0)).sum := by
  refine (coeff_foldl_writeRow h.distinct he _ j).trans ?_
  rw [if_neg hj, add_zero]
  exact zero_add _

theorem staged_compiled {n : Network K} (hn : n.Staged) : (compiled n).Staged where
  shaped := shaped_compiled hn.allocated
  row_lt := fun r hr => by
    obtain ⟨e, he, rfl⟩ := hasRow_compiled.mp hr
    rw [numVariables_compiled]
    exact (hn.allocated.auxiliary e he).trans (Nat.lt_succ_self n.numVars)
  row_ne := fun r hr => by
    obtain ⟨e, he, rfl⟩ := hasRow_compiled.mp hr
    exact (hn.allocated.auxiliary e he).ne
  leading := fun r hr => by
    obtain ⟨e, he, rfl⟩ := hasRow_compiled.mp hr
    rw [coeff_compiled hn.allocated he (hn.allocated.auxiliary e he).ne, (hn.leads e he).one]
  above := fun r hr j hj hjc => by
    obtain ⟨e, he, rfl⟩ := hasRow_compiled.mp hr
    rw [coeff_compiled hn.allocated he hjc]
    refine List.sum_eq_zero fun y hy => ?_
    obtain ⟨t, ht, rfl⟩ := List.mem_map.mp hy
    rw [if_neg (((hn.leads e he).terms_le t ht).trans_lt hj).ne]
  output := fun p hp => by
    rw [Bool.eq_false_iff, Ne, hasRow_compiled]
    rintro ⟨e, he, hep⟩
    exact hn.output p hp e he hep
  ordered := hn.ordered
  increasing := hn.increasing

omit [LinearOrder K] in
theorem Staged.modify {q : Query K} (hq : q.Staged) {v : ℕ} (hv : v ≠ q.constant)
    (f : Bounds K → Bounds K) : ({ q with bounds := q.bounds.modify v f } : Query K).Staged where
  shaped := hq.shaped.modify hv f
  row_lt := fun r hr => by
    rw [numVariables, List.length_modify]
    exact hq.row_lt r hr
  row_ne := hq.row_ne
  leading := hq.leading
  above := hq.above
  output := hq.output
  ordered := hq.ordered
  increasing := hq.increasing

theorem Derived.staged {n : Network K} (hn : n.Staged) {q : Query K} (h : Derived n q) :
    q.Staged := by
  induction h with
  | compiled h =>
    obtain ⟨_, rfl⟩ := compile_eq_ok.mp h
    exact staged_compiled hn
  | lower h hv hset ih =>
    obtain ⟨_, rfl⟩ := modifyBounds_eq_ok.mp hset
    exact ih.modify (h.shaped.2 ▸ hv.ne) _
  | upper h hv hset ih =>
    obtain ⟨_, rfl⟩ := modifyBounds_eq_ok.mp hset
    exact ih.modify (h.shaped.2 ▸ hv.ne) _

end Query

omit [LinearOrder K] in
theorem Network.staged_grow {n : Network K} (hn : n.Staged) {count : ℕ} {es : List (Equation K)}
    {rs : ReluList} (hgrow : (n.grow count es rs).Allocated)
    (haux : ∀ e ∈ es, n.numVars ≤ e.aux) (hleads : ∀ e ∈ es, e.Leads)
    (houtput : ∀ p ∈ rs, n.numVars ≤ p.output ∧ ∀ e ∈ es, e.aux ≠ p.output)
    (hordered : ∀ p ∈ rs, p.input < p.output)
    (hincreasing : rs.Pairwise (fun p p' => p.output < p'.output)) :
    (n.grow count es rs).Staged where
  allocated := hgrow
  leads := List.forall_mem_append.mpr ⟨hn.leads, hleads⟩
  output := by
    have hold : ∀ p ∈ n.relus, p.output < n.numVars := fun p hp => (hn.allocated.relus p hp).2
    refine List.forall_mem_append.mpr ⟨fun p hp => ?_, fun p hp => ?_⟩
    · exact List.forall_mem_append.mpr ⟨hn.output p hp,
        fun e he => ((hold p hp).trans_le (haux e he)).ne'⟩
    · exact List.forall_mem_append.mpr
        ⟨fun e he => ((hn.allocated.auxiliary e he).trans_le (houtput p hp).1).ne,
          (houtput p hp).2⟩
  ordered := List.forall_mem_append.mpr ⟨hn.ordered, hordered⟩
  increasing := List.pairwise_append.mpr ⟨hn.increasing, hincreasing,
    fun p hp p' hp' => (hn.allocated.relus p hp).2.trans_le (houtput p' hp').1⟩

end ReluVerify
