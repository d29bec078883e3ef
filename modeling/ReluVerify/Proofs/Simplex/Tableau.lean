import ReluVerify.Proofs.Simplex.Elimination

namespace ReluVerify

variable {K : Type} [Field K] [LinearOrder K]

theorem Row.holds_substitute {r : Row K} {p : ℕ} {coeffs : List K} {x : ℕ → K}
    (h : coeffs.length = r.coeffs.length) (hp : p < r.coeffs.length)
    (hx : x p = combination coeffs x) :
    Row.Holds { r with coeffs := Simplex.substitute p coeffs r.coeffs } x ↔ r.Holds x := by
  simp only [Row.Holds, Simplex.combination_substitute h hp, hx, sub_self, mul_zero, add_zero]

namespace Simplex

abbrev Tidy (s : Simplex K) : Prop := TidyRows s.numVars s.constant s.rows

def Satisfied (s : Simplex K) (x : ℕ → K) : Prop := ∀ r ∈ s.rows, r.Holds x

def extendRows (rows : List (Row K)) (p : ℕ) (coeffs : List K) : List (Row K) :=
  rows.map (fun r => { r with coeffs := substitute p coeffs r.coeffs }) ++ [⟨p, coeffs⟩]

def exchangeRows (rows : List (Row K)) (leaving entering : ℕ) (coeffs : List K) : List (Row K) :=
  rows.map (fun q =>
    if q.basic = leaving then ⟨entering, coeffs⟩
    else { q with coeffs := substitute entering coeffs q.coeffs })

theorem map_basic_extendRows (rows : List (Row K)) (p : ℕ) (coeffs : List K) :
    (extendRows rows p coeffs).map Row.basic = rows.map Row.basic ++ [p] := by
  simp [extendRows, Function.comp_def]

theorem map_basic_exchangeRows (rows : List (Row K)) (leaving entering : ℕ) (coeffs : List K) :
    (exchangeRows rows leaving entering coeffs).map Row.basic =
      (rows.map Row.basic).map (fun b => if b = leaving then entering else b) := by
  simp only [exchangeRows, List.map_map]
  refine List.map_congr_left fun q _ => ?_
  by_cases hq : q.basic = leaving <;> simp [hq]

theorem tidy_of_substituted {n constant p : ℕ} {rows rows' : List (Row K)} {coeffs : List K}
    (h : TidyRows n constant rows) (hl : coeffs.length = n) (hp : p < n) (hc : p ≠ constant)
    (hnew : ∀ r ∈ rows, r.basic ≠ p) (hz : coeffs.getD p 0 = 0)
    (hmem : ∀ t ∈ rows', t = ⟨p, coeffs⟩ ∨ ∃ q ∈ rows, coeffs.getD q.basic 0 = 0 ∧
      t = { q with coeffs := substitute p coeffs q.coeffs })
    (hdistinct : (rows'.map Row.basic).Nodup) : TidyRows n constant rows' where
  length := by
    intro t ht
    rcases hmem t ht with rfl | ⟨q, hq, _, rfl⟩
    · exact hl
    · rw [length_substitute (hl.trans (h.length q hq).symm), h.length q hq]
  basic_lt := by
    intro t ht
    rcases hmem t ht with rfl | ⟨q, hq, _, rfl⟩
    · exact hp
    · exact h.basic_lt q hq
  basic_ne := by
    intro t ht
    rcases hmem t ht with rfl | ⟨q, hq, _, rfl⟩
    · exact hc
    · exact h.basic_ne q hq
  solved := by
    have hcol : ∀ u ∈ rows',
        coeffs.getD u.basic 0 = 0 ∧ (u.basic = p ∨ ∃ q ∈ rows, q.basic = u.basic) := by
      intro u hu
      rcases hmem u hu with rfl | ⟨q, hq, hzero, rfl⟩
      · exact ⟨hz, Or.inl rfl⟩
      · exact ⟨hzero, Or.inr ⟨q, hq, rfl⟩⟩
    intro t ht u hu
    obtain ⟨hzero, hcase⟩ := hcol u hu
    rcases hmem t ht with rfl | ⟨q, hq, _, rfl⟩
    · exact hzero
    · rw [getD_substitute (hl.trans (h.length q hq).symm), hzero, mul_zero, add_zero]
      rcases hcase with heq | ⟨u', hu', heq⟩
      · rw [if_pos heq]
      · rw [if_neg (heq ▸ hnew u' hu'), ← heq]
        exact h.solved q hq u' hu'
  distinct := hdistinct

theorem tidy_extendRows {n constant p : ℕ} {rows : List (Row K)} {coeffs : List K}
    (h : TidyRows n constant rows) (hl : coeffs.length = n) (hp : p < n) (hc : p ≠ constant)
    (hnew : ∀ r ∈ rows, r.basic ≠ p) (hz : coeffs.getD p 0 = 0)
    (hb : ∀ r ∈ rows, coeffs.getD r.basic 0 = 0) :
    TidyRows n constant (extendRows rows p coeffs) := by
  refine tidy_of_substituted h hl hp hc hnew hz (fun t ht => ?_) ?_
  · rcases List.mem_append.mp ht with ht | ht
    · obtain ⟨q, hq, rfl⟩ := List.mem_map.mp ht
      exact Or.inr ⟨q, hq, hb q hq, rfl⟩
    · exact Or.inl (List.mem_singleton.mp ht)
  · rw [map_basic_extendRows, List.nodup_append]
    refine ⟨h.distinct, List.nodup_singleton p, ?_⟩
    intro b hb' c hc' he
    obtain ⟨r, hr, rfl⟩ := List.mem_map.mp hb'
    exact hnew r hr (he.trans (List.mem_singleton.mp hc'))

theorem holds_extendRows {n p : ℕ} {rows : List (Row K)} {coeffs : List K} {x : ℕ → K}
    (h : ∀ r ∈ rows, r.coeffs.length = n) (hl : coeffs.length = n) (hp : p < n) :
    (∀ r ∈ extendRows rows p coeffs, r.Holds x) ↔
      (∀ r ∈ rows, r.Holds x) ∧ x p = combination coeffs x := by
  have hrow : x p = combination coeffs x → ∀ r ∈ rows,
      (Row.Holds { r with coeffs := substitute p coeffs r.coeffs } x ↔ r.Holds x) :=
    fun hx r hr => Row.holds_substitute (hl.trans (h r hr).symm) ((h r hr).symm ▸ hp) hx
  constructor
  · intro hall
    have hx : x p = combination coeffs x :=
      hall ⟨p, coeffs⟩ (List.mem_append_right _ (List.mem_singleton.mpr rfl))
    refine ⟨fun r hr => (hrow hx r hr).mp (hall _ ?_), hx⟩
    exact List.mem_append_left _ (List.mem_map.mpr ⟨r, hr, rfl⟩)
  · rintro ⟨hall, hx⟩ r hr
    rcases List.mem_append.mp hr with hr | hr
    · obtain ⟨q, hq, rfl⟩ := List.mem_map.mp hr
      exact (hrow hx q hq).mpr (hall q hq)
    · rw [List.mem_singleton.mp hr]
      exact hx

theorem mem_exchangeRows {n constant entering : ℕ} {rows : List (Row K)} {coeffs : List K}
    (h : TidyRows n constant rows) {r : Row K} (hr : r ∈ rows) {t : Row K} :
    t ∈ exchangeRows rows r.basic entering coeffs ↔
      t = ⟨entering, coeffs⟩ ∨ ∃ q ∈ rows, q ≠ r ∧
        t = { q with coeffs := substitute entering coeffs q.coeffs } := by
  constructor
  · intro ht
    obtain ⟨q, hq, rfl⟩ := List.mem_map.mp ht
    by_cases he : q.basic = r.basic
    · exact Or.inl (if_pos he)
    · exact Or.inr ⟨q, hq, fun hqr => he (hqr ▸ rfl), if_neg he⟩
  · rintro (rfl | ⟨q, hq, hne, rfl⟩)
    · exact List.mem_map.mpr ⟨r, hr, if_pos rfl⟩
    · exact List.mem_map.mpr ⟨q, hq, if_neg fun he => hne (h.eq_of_basic hq hr he)⟩

theorem nodup_exchangeRows {entering : ℕ} {rows : List (Row K)} (coeffs : List K)
    (h : (rows.map Row.basic).Nodup) (leaving : ℕ) (hnew : ∀ q ∈ rows, q.basic ≠ entering) :
    ((exchangeRows rows leaving entering coeffs).map Row.basic).Nodup := by
  rw [map_basic_exchangeRows]
  refine h.map_on ?_
  intro b hb c hc hbc
  obtain ⟨q, hq, rfl⟩ := List.mem_map.mp hb
  obtain ⟨q', hq', rfl⟩ := List.mem_map.mp hc
  by_cases h1 : q.basic = leaving <;> by_cases h2 : q'.basic = leaving
  · rw [h1, h2]
  · rw [if_pos h1, if_neg h2] at hbc
    exact absurd hbc.symm (hnew q' hq')
  · rw [if_neg h1, if_pos h2] at hbc
    exact absurd hbc (hnew q hq)
  · rwa [if_neg h1, if_neg h2] at hbc

theorem tidy_exchangeRows {n constant entering : ℕ} {rows : List (Row K)} {coeffs : List K}
    (h : TidyRows n constant rows) {r : Row K} (hr : r ∈ rows) (hl : coeffs.length = n)
    (he : entering < n) (hc : entering ≠ constant) (hnew : ∀ q ∈ rows, q.basic ≠ entering)
    (hz : coeffs.getD entering 0 = 0)
    (hb : ∀ q ∈ rows, q ≠ r → coeffs.getD q.basic 0 = 0) :
    TidyRows n constant (exchangeRows rows r.basic entering coeffs) := by
  refine tidy_of_substituted h hl he hc hnew hz (fun t ht => ?_)
    (nodup_exchangeRows coeffs h.distinct r.basic hnew)
  rcases (mem_exchangeRows h hr).mp ht with ht | ⟨q, hq, hne, ht⟩
  · exact Or.inl ht
  · exact Or.inr ⟨q, hq, hb q hq hne, ht⟩

theorem addEquality_of_some {s : Simplex K} {a : List K} {preferred : Option ℕ} {p : ℕ}
    (h : s.choose? (reduce s.rows a) preferred = some p) :
    s.addEquality a preferred =
      { s with rows := extendRows s.rows p (solveFor p (reduce s.rows a)) } := by
  simp only [addEquality, h, extendRows]

theorem addEquality_of_none {s : Simplex K} {a : List K} {preferred : Option ℕ}
    (h : s.choose? (reduce s.rows a) preferred = none) :
    s.addEquality a preferred =
      if s.tolerance < |(reduce s.rows a).getD s.constant 0|
      then { s with contradictory := true } else s := by
  simp only [addEquality, h, Scalar.exact_abs]

theorem addEquality_eq (s : Simplex K) (a : List K) (preferred : Option ℕ) :
    ∃ rows contradictory, s.addEquality a preferred =
      { s with rows := rows, contradictory := contradictory } := by
  cases h : s.choose? (reduce s.rows a) preferred with
  | some p => exact ⟨_, _, addEquality_of_some h⟩
  | none =>
    rw [addEquality_of_none h]
    split
    · exact ⟨_, _, rfl⟩
    · exact ⟨_, _, rfl⟩

@[simp] theorem bounds_addEquality (s : Simplex K) (a : List K) (preferred : Option ℕ) :
    (s.addEquality a preferred).bounds = s.bounds := by
  obtain ⟨_, _, h⟩ := s.addEquality_eq a preferred
  rw [h]

@[simp] theorem constant_addEquality (s : Simplex K) (a : List K) (preferred : Option ℕ) :
    (s.addEquality a preferred).constant = s.constant := by
  obtain ⟨_, _, h⟩ := s.addEquality_eq a preferred
  rw [h]

@[simp] theorem tolerance_addEquality (s : Simplex K) (a : List K) (preferred : Option ℕ) :
    (s.addEquality a preferred).tolerance = s.tolerance := by
  obtain ⟨_, _, h⟩ := s.addEquality_eq a preferred
  rw [h]

@[simp] theorem values_addEquality (s : Simplex K) (a : List K) (preferred : Option ℕ) :
    (s.addEquality a preferred).values = s.values := by
  obtain ⟨_, _, h⟩ := s.addEquality_eq a preferred
  rw [h]

theorem tidy_addEquality [IsStrictOrderedRing K] {s : Simplex K} (hs : s.Tidy) {a : List K}
    (ha : a.length = s.numVars) (preferred : Option ℕ) : (s.addEquality a preferred).Tidy := by
  cases h : s.choose? (reduce s.rows a) preferred with
  | none =>
    rw [addEquality_of_none h]
    split
    · exact hs
    · exact hs
  | some p =>
    obtain ⟨helig, hpivot⟩ := choose?_eq_some h
    obtain ⟨hconst, hnew⟩ := eligible_iff.mp helig
    have hlen : (reduce s.rows a).length = s.numVars := length_reduce hs.length ha
    have hp : p < (reduce s.rows a).length := lt_length_of_isPivot hpivot
    rw [addEquality_of_some h]
    refine tidy_extendRows hs ((length_solveFor _ _).trans hlen) (hlen ▸ hp) hconst hnew ?_ ?_
    · rw [getD_solveFor hp, if_pos rfl]
    · intro r hr
      rw [getD_solveFor hp, if_neg (hnew r hr), getD_reduce_basic hs ha hr, neg_zero, zero_div]

theorem satisfied_addEquality_of_some [IsStrictOrderedRing K] {s : Simplex K} (hs : s.Tidy)
    {a : List K} (ha : a.length = s.numVars) {preferred : Option ℕ} {p : ℕ}
    (h : s.choose? (reduce s.rows a) preferred = some p) {x : ℕ → K} :
    (s.addEquality a preferred).Satisfied x ↔ s.Satisfied x ∧ combination a x = 0 := by
  have hpivot := (choose?_eq_some h).2
  have hlen : (reduce s.rows a).length = s.numVars := length_reduce hs.length ha
  have hp : p < (reduce s.rows a).length := lt_length_of_isPivot hpivot
  have hne := getD_ne_zero_of_isPivot hpivot
  rw [addEquality_of_some h]
  refine (holds_extendRows hs.length ((length_solveFor _ _).trans hlen) (hlen ▸ hp)).trans
    (and_congr_right fun hx => ?_)
  rw [combination_solveFor hp hne, combination_reduce hs.length hs.basic_lt hx ha]
  constructor
  · intro h0
    have hdiv : combination a x / (reduce s.rows a).getD p 0 = 0 := by linarith
    exact (div_eq_zero_iff.mp hdiv).resolve_right hne
  · intro h0
    rw [h0, zero_div, sub_zero]

theorem satisfied_addEquality_of_none {s : Simplex K} {a : List K} {preferred : Option ℕ}
    (h : s.choose? (reduce s.rows a) preferred = none) {x : ℕ → K} :
    (s.addEquality a preferred).Satisfied x ↔ s.Satisfied x := by
  rw [addEquality_of_none h]
  split
  · exact Iff.rfl
  · exact Iff.rfl

def pivotCoeffs (r : Row K) (entering : ℕ) : List K :=
  (solveFor entering r.coeffs).set r.basic (1 / r.coeffs.getD entering 0)

theorem rows_pivot (s : Simplex K) (r : Row K) (entering : ℕ) (target : K) :
    (s.pivot r entering target).rows =
      exchangeRows s.rows r.basic entering (pivotCoeffs r entering) := rfl

theorem length_pivotCoeffs (r : Row K) (entering : ℕ) :
    (pivotCoeffs r entering).length = r.coeffs.length := by
  simp [pivotCoeffs, length_solveFor]

theorem getD_pivotCoeffs {r : Row K} {entering : ℕ} (he : entering < r.coeffs.length)
    (hb : r.basic < r.coeffs.length) (j : ℕ) :
    (pivotCoeffs r entering).getD j 0 =
      if j = r.basic then 1 / r.coeffs.getD entering 0
      else if j = entering then 0 else -r.coeffs.getD j 0 / r.coeffs.getD entering 0 := by
  rw [pivotCoeffs, getD_set, length_solveFor, getD_solveFor he]
  simp only [hb, and_true]

theorem combination_pivotCoeffs [IsStrictOrderedRing K] {r : Row K} {entering : ℕ}
    (he : entering < r.coeffs.length) (hb : r.basic < r.coeffs.length)
    (hz : r.coeffs.getD r.basic 0 = 0) (ht : r.coeffs.getD entering 0 ≠ 0) (x : ℕ → K) :
    combination (pivotCoeffs r entering) x =
      x entering + (x r.basic - combination r.coeffs x) / r.coeffs.getD entering 0 := by
  have hsplit : ∀ j ∈ Finset.range r.coeffs.length,
      (pivotCoeffs r entering).getD j 0 * x j =
        (solveFor entering r.coeffs).getD j 0 * x j +
          (if j = r.basic then x r.basic / r.coeffs.getD entering 0 else 0) := by
    intro j _
    rw [getD_pivotCoeffs he hb, getD_solveFor he]
    by_cases hj : j = r.basic
    · subst hj
      have hne : r.basic ≠ entering := fun heq => ht (heq ▸ hz)
      rw [if_pos rfl, if_pos rfl, if_neg hne, hz]
      ring
    · rw [if_neg hj, if_neg hj, add_zero]
  rw [combination_eq_sum (length_pivotCoeffs r entering), Finset.sum_congr rfl hsplit,
    Finset.sum_add_distrib, Finset.sum_ite_eq' _ _ (fun _ => x r.basic / _),
    if_pos (Finset.mem_range.mpr hb), ← combination_eq_sum (length_solveFor entering r.coeffs),
    combination_solveFor he ht]
  ring

theorem tidy_pivot {s : Simplex K} (hs : s.Tidy) {r : Row K} (hr : r ∈ s.rows) {v : ℕ}
    (hv : v < s.numVars) (hc : v ≠ s.constant) (hnew : ∀ q ∈ s.rows, q.basic ≠ v) (target : K) :
    (s.pivot r v target).Tidy := by
  have hlen := hs.length r hr
  have he : v < r.coeffs.length := hlen.symm ▸ hv
  have hb : r.basic < r.coeffs.length := hlen.symm ▸ hs.basic_lt r hr
  change TidyRows s.numVars s.constant (exchangeRows s.rows r.basic v (pivotCoeffs r v))
  refine tidy_exchangeRows hs hr ((length_pivotCoeffs r v).trans hlen) hv hc hnew ?_ ?_
  · rw [getD_pivotCoeffs he hb, if_neg (hnew r hr).symm, if_pos rfl]
  · intro q hq hne
    have hqr : q.basic ≠ r.basic := fun heq => hne (hs.eq_of_basic hq hr heq)
    rw [getD_pivotCoeffs he hb, if_neg hqr, if_neg (hnew q hq), hs.solved r hr q hq, neg_zero,
      zero_div]

theorem satisfied_pivot [IsStrictOrderedRing K] {s : Simplex K} (hs : s.Tidy) {r : Row K}
    (hr : r ∈ s.rows) {v : ℕ} (hv : v < s.numVars) (ht : r.coeffs.getD v 0 ≠ 0) {target : K}
    {x : ℕ → K} :
    (s.pivot r v target).Satisfied x ↔ s.Satisfied x := by
  have hlen := hs.length r hr
  have he : v < r.coeffs.length := hlen.symm ▸ hv
  have hb : r.basic < r.coeffs.length := hlen.symm ▸ hs.basic_lt r hr
  have hcomb := combination_pivotCoeffs he hb (hs.solved r hr r hr) ht x
  -- the new row and the old row of `r` say the same
  have hnewRow : x v = combination (pivotCoeffs r v) x ↔ r.Holds x := by
    rw [hcomb, Row.Holds, left_eq_add, div_eq_zero_iff, or_iff_left ht, sub_eq_zero]
  have hother : r.Holds x → ∀ q ∈ s.rows,
      (Row.Holds { q with coeffs := substitute v (pivotCoeffs r v) q.coeffs } x ↔ q.Holds x) :=
    fun hx q hq => Row.holds_substitute
      ((length_pivotCoeffs r v).trans (hlen.trans (hs.length q hq).symm))
      ((hs.length q hq).symm ▸ hv) (hnewRow.mpr hx)
  constructor
  · intro hall
    have hrx : r.Holds x := hnewRow.mp (hall ⟨v, pivotCoeffs r v⟩
      ((mem_exchangeRows hs hr).mpr (Or.inl rfl)))
    intro q hq
    by_cases hqr : q = r
    · rw [hqr]
      exact hrx
    · exact (hother hrx q hq).mp (hall _ ((mem_exchangeRows hs hr).mpr (Or.inr ⟨q, hq, hqr, rfl⟩)))
  · intro hall t ht'
    rcases (mem_exchangeRows hs hr).mp ht' with rfl | ⟨q, hq, _, rfl⟩
    · exact hnewRow.mpr (hall r hr)
    · exact (hother (hall r hr) q hq).mpr (hall q hq)

end Simplex

end ReluVerify
