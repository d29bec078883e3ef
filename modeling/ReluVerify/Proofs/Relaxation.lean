import ReluVerify.Proofs.Compile
import ReluVerify.Proofs.Simplex.Check

namespace ReluVerify

variable {K : Type} [Field K] [LinearOrder K]

namespace Bounds

variable [IsStrictOrderedRing K]

theorem within_raise {b : Bounds K} {c t x : K} :
    (b.raise c).Within t x ↔ b.Within t x ∧ c - t ≤ x := by
  obtain ⟨lower, upper⟩ := b
  cases lower with
  | none => simp [Within, raise, and_comm]
  | some l =>
    simp only [Within, raise, Option.elim_some, Scalar.larger_eq_max, Option.some.injEq,
      forall_eq', sub_le_iff_le_add, max_le_iff]
    exact and_right_comm

theorem within_cap {b : Bounds K} {c t x : K} :
    (b.cap c).Within t x ↔ b.Within t x ∧ x ≤ c + t := by
  obtain ⟨lower, upper⟩ := b
  cases upper with
  | none => simp [Within, cap]
  | some u =>
    simp only [Within, cap, Option.elim_some, Scalar.smaller_eq_min, Option.some.injEq,
      forall_eq', ← sub_le_iff_le_add, le_min_iff]
    exact and_assoc.symm

omit [Field K] [LinearOrder K] [IsStrictOrderedRing K] in
theorem getD_modify (bs : List (Bounds K)) (i v : ℕ) (f : Bounds K → Bounds K)
    (hi : i < bs.length) : (bs.modify i f)[v]?.getD free =
      if v = i then f (bs[v]?.getD free) else bs[v]?.getD free := by
  rw [List.getElem?_modify]
  by_cases hv : v = i
  · subst hv
    simp [hi]
  · simp [hv, Ne.symm hv]

omit [IsStrictOrderedRing K] in
theorem inside_modify {bs : List (Bounds K)} {i : ℕ} (hi : i < bs.length)
    {f : Bounds K → Bounds K} {t : K} {x : ℕ → K} {p : Prop}
    (hf : ∀ b : Bounds K, (f b).Within t (x i) ↔ b.Within t (x i) ∧ p) :
    Inside (bs.modify i f) t x ↔ Inside bs t x ∧ p := by
  unfold Inside
  simp only [List.length_modify, getD_modify _ _ _ _ hi]
  constructor
  · intro h
    have hp := h i hi
    rw [if_pos rfl, hf] at hp
    refine ⟨fun v hv => ?_, hp.2⟩
    by_cases hvi : v = i
    · rw [hvi]
      exact hp.1
    · simpa [hvi] using h v hv
  · rintro ⟨h, hp⟩ v hv
    split
    · rename_i hvi
      subst hvi
      exact (hf _).mpr ⟨h v hv, hp⟩
    · exact h v hv

theorem inside_raise {bs : List (Bounds K)} {i : ℕ} (hi : i < bs.length) {t : K} {x : ℕ → K} :
    Inside (bs.modify i (·.raise 0)) t x ↔ Inside bs t x ∧ -t ≤ x i :=
  inside_modify hi fun b => by rw [within_raise, zero_sub]

theorem inside_cap {bs : List (Bounds K)} {i : ℕ} (hi : i < bs.length) {t : K} {x : ℕ → K} :
    Inside (bs.modify i (·.cap 0)) t x ↔ Inside bs t x ∧ x i ≤ t :=
  inside_modify hi fun b => by rw [within_cap, zero_add]

end Bounds

def Phase.Allows (t : K) (x : ℕ → K) (pair : ReluPair) : Phase → Prop
  | .undecided => True
  | .active => -t ≤ x pair.input
  | .inactive => x pair.input ≤ t ∧ x pair.output ≤ t

theorem Phase.Allows.congr {t : K} {x y : ℕ → K} {pair : ReluPair} {phase : Phase}
    (h : phase.Allows t y pair) (hin : x pair.input = y pair.input)
    (hout : x pair.output = y pair.output) : phase.Allows t x pair := by
  cases phase with
  | undecided => trivial
  | active => exact (le_of_le_of_eq h hin.symm : -t ≤ x pair.input)
  | inactive => exact ⟨hin.trans_le h.1, hout.trans_le h.2⟩

def Follows (t : K) (x : ℕ → K) (relus : ReluList) (phases : List Phase) : Prop :=
  ∀ d ∈ relus.zip phases, d.2.Allows t x d.1

theorem mem_zip_of_getElem? {relus : ReluList} {phases : List Phase} {i : ℕ} {pair : ReluPair}
    {phase : Phase} (hrelu : relus[i]? = some pair) (hphase : phases[i]? = some phase) :
    (pair, phase) ∈ relus.zip phases :=
  List.mem_of_getElem? (List.getElem?_zip_eq_some.mpr ⟨hrelu, hphase⟩)

theorem getElem?_of_mem_zip {relus : ReluList} {phases : List Phase} {d : ReluPair × Phase}
    (hd : d ∈ relus.zip phases) :
    ∃ i : ℕ, relus[i]? = some d.1 ∧ phases[i]? = some d.2 := by
  obtain ⟨i, hi⟩ := List.mem_iff_getElem?.mp hd
  exact ⟨i, List.getElem?_zip_eq_some.mp hi⟩

namespace Problem

theorem exists_phase {relus : ReluList} {phases : List Phase}
    (hlen : phases.length = relus.length) {pair : ReluPair} (hpair : pair ∈ relus) :
    ∃ phase, (pair, phase) ∈ relus.zip phases := by
  obtain ⟨i, hi⟩ := List.mem_iff_getElem?.mp hpair
  have hlt : i < phases.length := hlen ▸ (List.getElem?_eq_some_iff.mp hi).1
  exact ⟨phases[i], mem_zip_of_getElem? hi (List.getElem?_eq_getElem hlt)⟩

@[simp] theorem length_tighten (bs : List (Bounds K)) (pair : ReluPair) (phase : Phase) :
    (tighten bs pair phase).length = bs.length := by
  cases phase <;> simp [tighten]

theorem inside_tighten [IsStrictOrderedRing K] {bs : List (Bounds K)} {pair : ReluPair}
    (hin : pair.input < bs.length) (hout : pair.output < bs.length) (phase : Phase) {t : K}
    {x : ℕ → K} :
    Bounds.Inside (tighten bs pair phase) t x ↔ Bounds.Inside bs t x ∧ phase.Allows t x pair := by
  cases phase with
  | undecided => simp [tighten, Phase.Allows]
  | active => exact Bounds.inside_raise hin
  | inactive =>
    have hout' : pair.output < (bs.modify pair.input (·.cap 0)).length := by simpa using hout
    rw [tighten, Bounds.inside_cap hout', Bounds.inside_cap hin, and_assoc]
    rfl

theorem length_foldl_tighten (decided : List (ReluPair × Phase)) (bs : List (Bounds K)) :
    (decided.foldl (fun bs d => tighten bs d.1 d.2) bs).length = bs.length := by
  induction decided generalizing bs with
  | nil => rfl
  | cons d decided ih => rw [List.foldl_cons, ih, length_tighten]

theorem inside_foldl_tighten [IsStrictOrderedRing K] {decided : List (ReluPair × Phase)}
    {bs : List (Bounds K)} (hin : ∀ d ∈ decided, d.1.input < bs.length)
    (hout : ∀ d ∈ decided, d.1.output < bs.length) {t : K} {x : ℕ → K} :
    Bounds.Inside (decided.foldl (fun bs d => tighten bs d.1 d.2) bs) t x ↔
      Bounds.Inside bs t x ∧ ∀ d ∈ decided, d.2.Allows t x d.1 := by
  induction decided generalizing bs with
  | nil => simp
  | cons d decided ih =>
    rw [List.forall_mem_cons] at hin hout
    rw [List.foldl_cons, ih (by simpa using hin.2) (by simpa using hout.2),
      inside_tighten hin.1 hout.1, List.forall_mem_cons, and_assoc]

omit [LinearOrder K] in
theorem combination_modify {a : List K} {i : ℕ} (hi : i < a.length) (c : K) (x : ℕ → K) :
    combination (a.modify i (· + c)) x = combination a x + c * x i := by
  have hsplit : ∀ j ∈ Finset.range a.length, (a.modify i (· + c)).getD j 0 * x j =
      a.getD j 0 * x j + if j = i then c * x i else 0 := by
    intro j hj
    rw [Simplex.getD_modify (Finset.mem_range.mp hj)]
    by_cases hji : j = i
    · rw [if_pos hji, if_pos hji, hji, add_mul]
    · rw [if_neg hji, if_neg hji, add_zero]
  rw [combination_eq_sum (List.length_modify ..), Finset.sum_congr rfl hsplit,
    Finset.sum_add_distrib, Finset.sum_ite_eq', if_pos (Finset.mem_range.mpr hi), combination]

omit [LinearOrder K] in
theorem combination_replicate (count : ℕ) (x : ℕ → K) :
    combination (List.replicate count 0) x = 0 := by
  refine Finset.sum_eq_zero fun j hj => ?_
  have hlt : j < count := by simpa using Finset.mem_range.mp hj
  rw [List.getD_replicate _ hlt, zero_mul]

theorem length_activeRow (count : ℕ) (pair : ReluPair) :
    (activeRow count pair : List K).length = count := by
  simp [activeRow]

theorem combination_activeRow {count : ℕ} {pair : ReluPair} (hin : pair.input < count)
    (hout : pair.output < count) (x : ℕ → K) :
    combination (activeRow count pair) x = x pair.output - x pair.input := by
  have hsub : (activeRow count pair : List K) =
      ((List.replicate count 0).modify pair.output (· + 1)).modify pair.input (· + (-1)) := by
    simp only [activeRow, sub_eq_add_neg]
  rw [hsub, combination_modify (by simpa using hin), combination_modify (by simpa using hout),
    combination_replicate]
  ring

theorem mem_phaseRows {p : Problem K} {phases : List Phase} {e : List K × ℕ} :
    e ∈ p.phaseRows phases ↔ ∃ pair, (pair, Phase.active) ∈ p.relus.zip phases ∧
      e = (activeRow p.bounds.length pair, pair.output) := by
  rw [phaseRows, List.mem_filterMap]
  constructor
  · rintro ⟨⟨pair, phase⟩, hd, he⟩
    cases phase with
    | active => exact ⟨pair, hd, (Option.some.inj he).symm⟩
    | undecided => cases he
    | inactive => cases he
  · rintro ⟨pair, hd, rfl⟩
    exact ⟨(pair, .active), hd, rfl⟩

def rows (p : Problem K) (phases : List Phase) : List (Simplex.Equality K) :=
  (p.equalities ++ p.phaseRows phases).map (fun e => (e.1, some e.2))

theorem relaxation_eq (p : Problem K) (tolerance : K) (phases : List Phase) :
    p.relaxation tolerance phases =
      Simplex.assembled p.constant (p.phaseBounds phases) tolerance (p.rows phases) := by
  rw [relaxation, Simplex.assembled, Simplex.adding, rows, List.foldl_map]

theorem length_phaseBounds (p : Problem K) (phases : List Phase) :
    (p.phaseBounds phases).length = p.bounds.length :=
  length_foldl_tighten _ _

section

variable (q : Query K)

theorem relus_ofQuery : (ofQuery q).relus = q.relus := rfl

theorem bounds_ofQuery : (ofQuery q).bounds =
    (q.relus.map (fun p => (p.output : ℕ))).foldl
      (fun bs v => bs.modify v (·.raise 0)) q.bounds := by
  rw [List.foldl_map]
  rfl

theorem length_foldl_raise (vs : List ℕ) (bs : List (Bounds K)) :
    (vs.foldl (fun bs v => bs.modify v (·.raise 0)) bs).length = bs.length := by
  induction vs generalizing bs with
  | nil => rfl
  | cons v vs ih => rw [List.foldl_cons, ih, List.length_modify]

theorem inside_foldl_raise [IsStrictOrderedRing K] {vs : List ℕ} {bs : List (Bounds K)}
    (h : ∀ v ∈ vs, v < bs.length) {t : K} {x : ℕ → K} :
    Bounds.Inside (vs.foldl (fun bs v => bs.modify v (·.raise 0)) bs) t x ↔
      Bounds.Inside bs t x ∧ ∀ v ∈ vs, -t ≤ x v := by
  induction vs generalizing bs with
  | nil => simp
  | cons v vs ih =>
    rw [List.forall_mem_cons] at h
    rw [List.foldl_cons, ih (by simpa using h.2), Bounds.inside_raise h.1, List.forall_mem_cons,
      and_assoc]

theorem length_bounds_ofQuery : (ofQuery q).bounds.length = q.numVariables := by
  rw [bounds_ofQuery, length_foldl_raise, Query.numVariables]

theorem inside_bounds_ofQuery [IsStrictOrderedRing K]
    (hout : ∀ p ∈ q.relus, p.output < q.numVariables) {t : K} {x : ℕ → K} :
    Bounds.Inside (ofQuery q).bounds t x ↔
      (∀ v < q.numVariables, (q.boundsOf v).Within t (x v)) ∧ ∀ p ∈ q.relus, -t ≤ x p.output := by
  rw [bounds_ofQuery, inside_foldl_raise (List.forall_mem_map.mpr hout)]
  simp only [List.forall_mem_map]
  rfl

theorem inside_phaseBounds_framed [IsStrictOrderedRing K] (hq : q.Framed) (phases : List Phase)
    {t : K} {x : ℕ → K} :
    Bounds.Inside ((ofQuery q).phaseBounds phases) t x ↔
      ((∀ v < q.numVariables, (q.boundsOf v).Within t (x v)) ∧ ∀ p ∈ q.relus, -t ≤ x p.output) ∧
        Follows t x q.relus phases := by
  have hlen := length_bounds_ofQuery q
  have hmem : ∀ d ∈ q.relus.zip phases, d.1 ∈ q.relus := fun d hd => (List.of_mem_zip hd).1
  rw [phaseBounds, inside_foldl_tighten (fun d hd => hlen.symm ▸ hq.input_lt _ (hmem d hd))
    (fun d hd => hlen.symm ▸ hq.output_lt _ (hmem d hd)),
    inside_bounds_ofQuery q hq.output_lt]
  rfl

theorem inside_phaseBounds [IsStrictOrderedRing K] (hq : q.Shaped) (phases : List Phase) {t : K}
    {x : ℕ → K} :
    Bounds.Inside ((ofQuery q).phaseBounds phases) t x ↔
      ((∀ v < q.numVariables, (q.boundsOf v).Within t (x v)) ∧ ∀ p ∈ q.relus, -t ≤ x p.output) ∧
        Follows t x q.relus phases :=
  inside_phaseBounds_framed q hq.framed phases

theorem getD_foldl_raise {vs : List ℕ} {c : ℕ} (h : ∀ v ∈ vs, v ≠ c) (bs : List (Bounds K)) :
    (vs.foldl (fun bs v => bs.modify v (·.raise 0)) bs)[c]? = bs[c]? := by
  induction vs generalizing bs with
  | nil => rfl
  | cons v vs ih =>
    rw [List.forall_mem_cons] at h
    rw [List.foldl_cons, ih h.2, List.getElem?_modify_ne _ _ h.1]

theorem getD_foldl_tighten {decided : List (ReluPair × Phase)} {c : ℕ}
    (hin : ∀ d ∈ decided, d.1.input ≠ c) (hout : ∀ d ∈ decided, d.1.output ≠ c)
    (bs : List (Bounds K)) :
    (decided.foldl (fun bs d => tighten bs d.1 d.2) bs)[c]? = bs[c]? := by
  induction decided generalizing bs with
  | nil => rfl
  | cons d decided ih =>
    rw [List.forall_mem_cons] at hin hout
    rw [List.foldl_cons, ih hin.2 hout.2]
    cases d.2 with
    | undecided => rfl
    | active => exact List.getElem?_modify_ne _ _ hin.1
    | inactive =>
      exact (List.getElem?_modify_ne _ _ hout.1).trans (List.getElem?_modify_ne _ _ hin.1)

theorem boundsOf_phaseBounds_constant (hq : q.Framed) (phases : List Phase) :
    ((ofQuery q).phaseBounds phases)[q.constant]?.getD Bounds.free = q.boundsOf q.constant := by
  have hmem : ∀ d ∈ q.relus.zip phases, d.1 ∈ q.relus := fun d hd => (List.of_mem_zip hd).1
  rw [phaseBounds, relus_ofQuery, getD_foldl_tighten (fun d hd => hq.input_ne _ (hmem d hd))
    (fun d hd => hq.output_ne _ (hmem d hd)), bounds_ofQuery,
    getD_foldl_raise (List.forall_mem_map.mpr hq.output_ne), Query.boundsOf]

theorem pinned_phaseBounds (hq : q.Shaped) (phases : List Phase) :
    ((ofQuery q).phaseBounds phases)[q.constant]?.getD Bounds.free = Bounds.point 1 :=
  (boundsOf_phaseBounds_constant q hq.framed phases).trans hq.pinned

theorem length_denseRow (constant count : ℕ) (cells : VarMap K) :
    (denseRow constant count cells).length = count := by
  simp [denseRow]

theorem getD_denseRow {constant count j : ℕ} (hj : j < count) (cells : VarMap K) :
    (denseRow constant count cells).getD j 0 =
      if j = constant then -(cells.get? j).getD 0 else (cells.get? j).getD 0 := by
  rw [List.getD_eq_getElem?_getD, denseRow, List.getElem?_map, List.getElem?_range hj]
  cases h : cells.get? j with
  | none => simp [h]
  | some x => simp [h]

theorem mem_equalities {e : List K × ℕ} : e ∈ (ofQuery q).equalities ↔
    ∃ cells, q.tableau.row? e.2 = some cells ∧
      e.1 = denseRow q.constant q.numVariables cells := by
  change e ∈ q.tableau.rows.entries.map
    (fun p => (denseRow q.constant q.numVariables p.2, p.1)) ↔ _
  rw [List.mem_map]
  constructor
  · rintro ⟨⟨r, cells⟩, hp, rfl⟩
    exact ⟨cells, VarMap.mem_entries_iff.mp hp, rfl⟩
  · rintro ⟨cells, hcells, he⟩
    exact ⟨(e.2, cells), VarMap.mem_entries_iff.mpr hcells, Prod.ext he.symm rfl⟩

theorem combination_equality (hq : q.Shaped) {e : List K × ℕ} (he : e ∈ (ofQuery q).equalities)
    {x : ℕ → K} (hx : x q.constant = 1) : combination e.1 x = q.excess e.2 x := by
  obtain ⟨cells, hcells, hrow⟩ := (mem_equalities q).mp he
  rw [hrow, combination_eq_sum (length_denseRow ..), Query.excess,
    ← Finset.sum_erase_add _ _ (Finset.mem_range.mpr hq.constant_lt),
    getD_denseRow hq.constant_lt, if_pos rfl, hx, mul_one, ← sub_eq_add_neg,
    Tableau.coeff_of_row? hcells]
  refine congrArg (· - _) (Finset.sum_congr rfl fun j hj => ?_)
  obtain ⟨hne, hlt⟩ := Finset.mem_erase.mp hj
  rw [getD_denseRow (Finset.mem_range.mp hlt), if_neg hne, Tableau.coeff_of_row? hcells]

theorem length_of_mem_rows {phases : List Phase} :
    ∀ e ∈ (ofQuery q).rows phases, e.1.length = ((ofQuery q).phaseBounds phases).length := by
  intro e he
  rw [length_phaseBounds, length_bounds_ofQuery]
  obtain ⟨f, hf, rfl⟩ := List.mem_map.mp he
  rcases List.mem_append.mp hf with hf | hf
  · obtain ⟨cells, _, hrow⟩ := (mem_equalities q).mp hf
    change f.1.length = _
    rw [hrow, length_denseRow]
  · obtain ⟨pair, _, rfl⟩ := mem_phaseRows.mp hf
    exact (length_activeRow _ pair).trans (length_bounds_ofQuery q)

theorem combination_phaseRow (hq : q.Shaped) {phases : List Phase} {pair : ReluPair}
    (hpair : (pair, Phase.active) ∈ q.relus.zip phases) (x : ℕ → K) :
    combination (activeRow (ofQuery q).bounds.length pair) x = x pair.output - x pair.input := by
  have hmem := (List.of_mem_zip hpair).1
  rw [length_bounds_ofQuery]
  exact combination_activeRow (hq.input_lt _ hmem) (hq.output_lt _ hmem) x

theorem combination_of_solves [IsStrictOrderedRing K] (hq : q.Shaped) {x : ℕ → K}
    (hx : q.Solves x) {phases : List Phase} (hf : Follows 0 x q.relus phases) :
    ∀ e ∈ (ofQuery q).rows phases, combination e.1 x = 0 := by
  have hone : x q.constant = 1 := by
    have hwithin := hx.bounds _ hq.constant_lt
    rw [hq.pinned] at hwithin
    have hlow := hwithin.1 1 rfl
    have hupp := hwithin.2 1 rfl
    linarith
  intro e he
  obtain ⟨f, hf', rfl⟩ := List.mem_map.mp he
  rcases List.mem_append.mp hf' with hrow | hrow
  · obtain ⟨cells, hcells, _⟩ := (mem_equalities q).mp hrow
    refine (combination_equality q hq hrow hone).trans (hx.rows f.2 ?_)
    exact Option.isSome_iff_exists.mpr ⟨cells, hcells⟩
  · obtain ⟨pair, hpair, rfl⟩ := mem_phaseRows.mp hrow
    have hin : 0 ≤ x pair.input := by simpa [Phase.Allows] using hf (pair, .active) hpair
    change combination (activeRow _ pair) x = 0
    rw [combination_phaseRow q hq hpair, hx.relus _ (List.of_mem_zip hpair).1, max_eq_left hin,
      sub_self]

end

end Problem

end ReluVerify
