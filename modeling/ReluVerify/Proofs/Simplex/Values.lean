import ReluVerify.Proofs.Simplex.Tableau

namespace ReluVerify

variable {K : Type} [Field K]

namespace Simplex

theorem getD_modify {values : List K} {u : ℕ} (hu : u < values.length) (p : ℕ) (f : K → K) :
    (values.modify p f).getD u 0 = if u = p then f (values.getD u 0) else values.getD u 0 := by
  simp only [List.getD_eq_getElem?_getD, List.getElem?_modify, List.getElem?_eq_getElem hu]
  by_cases h : p = u
  · simp [h]
  · simp [h, Ne.symm h]

def advance (entering : ℕ) (theta : K) (values : List K) (q : Row K) : List K :=
  values.modify q.basic (· + q.coeffs.getD entering 0 * theta)

theorem length_foldl_advance (entering : ℕ) (theta : K) (rows : List (Row K)) (values : List K) :
    (rows.foldl (advance entering theta) values).length = values.length := by
  induction rows generalizing values with
  | nil => rfl
  | cons q rows ih => rw [List.foldl_cons, ih, advance, List.length_modify]

theorem getD_foldl_advance_of_nonbasic {entering : ℕ} {theta : K} {rows : List (Row K)} {u : ℕ}
    (h : ∀ q ∈ rows, q.basic ≠ u) {values : List K} (hu : u < values.length) :
    (rows.foldl (advance entering theta) values).getD u 0 = values.getD u 0 := by
  induction rows generalizing values with
  | nil => rfl
  | cons q rows ih =>
    rw [List.foldl_cons, ih (fun p hp => h p (List.mem_cons_of_mem _ hp))
      (by rwa [advance, List.length_modify]), advance, getD_modify hu,
      if_neg (h q List.mem_cons_self).symm]

theorem getD_foldl_advance_of_mem {entering : ℕ} {theta : K} {rows : List (Row K)}
    (h : (rows.map Row.basic).Nodup) {q : Row K} (hq : q ∈ rows) {values : List K}
    (hu : q.basic < values.length) :
    (rows.foldl (advance entering theta) values).getD q.basic 0 =
      values.getD q.basic 0 + q.coeffs.getD entering 0 * theta := by
  induction rows generalizing values with
  | nil => simp at hq
  | cons p rows ih =>
    obtain ⟨hp, hrows⟩ := List.nodup_cons.mp h
    have hlen : q.basic < (advance entering theta values p).length := by
      rwa [advance, List.length_modify]
    rw [List.foldl_cons]
    rcases List.mem_cons.mp hq with rfl | hq
    · have hnot : ∀ t ∈ rows, t.basic ≠ q.basic :=
        fun t ht he => hp (List.mem_map.mpr ⟨t, ht, he⟩)
      rw [getD_foldl_advance_of_nonbasic hnot hlen, advance, getD_modify hu, if_pos rfl]
    · have hne : q.basic ≠ p.basic := fun he => hp (List.mem_map.mpr ⟨q, hq, he⟩)
      rw [ih hrows hq hlen, advance, getD_modify hu, if_neg hne]

variable [LinearOrder K]

def shift (s : Simplex K) (r : Row K) (entering : ℕ) (target : K) : K :=
  (target - s.value r.basic) / r.coeffs.getD entering 0

theorem values_pivot (s : Simplex K) (r : Row K) (entering : ℕ) (target : K) :
    (s.pivot r entering target).values =
      (s.rows.foldl (advance entering (s.shift r entering target))
        (s.values.modify entering (· + s.shift r entering target))).set r.basic target := rfl

theorem length_values_pivot (s : Simplex K) (r : Row K) (entering : ℕ) (target : K) :
    (s.pivot r entering target).values.length = s.values.length := by
  rw [values_pivot, List.length_set, length_foldl_advance, List.length_modify]

section

variable {s : Simplex K} (hs : s.Tidy) (hlen : s.values.length = s.numVars) {r : Row K}
  (hr : r ∈ s.rows) {entering : ℕ} (hnew : ∀ q ∈ s.rows, q.basic ≠ entering) (target : K)

include hs hlen hr

theorem value_pivot_leaving : (s.pivot r entering target).value r.basic = target := by
  rw [value, values_pivot, getD_set, length_foldl_advance, List.length_modify, hlen,
    if_pos ⟨rfl, hs.basic_lt r hr⟩]

include hnew

theorem value_pivot_basic (ht : r.coeffs.getD entering 0 ≠ 0) {q : Row K} (hq : q ∈ s.rows) :
    (s.pivot r entering target).value q.basic =
      s.value q.basic + q.coeffs.getD entering 0 * s.shift r entering target := by
  by_cases hqr : q = r
  · subst hqr
    rw [value_pivot_leaving hs hlen hr, shift, mul_div_cancel₀ _ ht]
    ring
  · have hb : q.basic ≠ r.basic := fun he => hqr (hs.eq_of_basic hq hr he)
    have hlt : q.basic < s.values.length := hlen.symm ▸ hs.basic_lt q hq
    rw [value, values_pivot, getD_set, if_neg fun h => hb h.1,
      getD_foldl_advance_of_mem hs.distinct hq (by rwa [List.length_modify]), getD_modify hlt,
      if_neg (hnew q hq)]
    rfl

omit hs hnew in
theorem value_pivot_nonbasic {u : ℕ} (hu : u < s.numVars) (hnb : ∀ q ∈ s.rows, q.basic ≠ u) :
    (s.pivot r entering target).value u =
      if u = entering then s.value u + s.shift r entering target else s.value u := by
  have hlt : u < s.values.length := hlen.symm ▸ hu
  rw [value, values_pivot, getD_set, if_neg fun h => hnb r hr h.1.symm,
    getD_foldl_advance_of_nonbasic hnb (by rwa [List.length_modify]), getD_modify hlt]
  rfl

variable [IsStrictOrderedRing K]

theorem satisfied_value_pivot (he : entering < s.numVars) (ht : r.coeffs.getD entering 0 ≠ 0)
    (hx : s.Satisfied s.value) :
    (s.pivot r entering target).Satisfied (s.pivot r entering target).value := by
  rw [satisfied_pivot hs hr he ht]
  intro q hq
  -- of the variables in the row of `q` only `entering` has moved
  have hmoved : ∀ j ∈ Finset.range q.coeffs.length,
      q.coeffs.getD j 0 * ((s.pivot r entering target).value j - s.value j) =
        if j = entering then q.coeffs.getD entering 0 * s.shift r entering target else 0 := by
    intro j hj
    by_cases hb : ∃ p ∈ s.rows, p.basic = j
    · obtain ⟨p, hp, rfl⟩ := hb
      rw [hs.solved q hq p hp, zero_mul, if_neg (hnew p hp)]
    · have hj' : j < s.numVars := hs.length q hq ▸ Finset.mem_range.mp hj
      rw [value_pivot_nonbasic hlen hr target hj' fun p hp hpj => hb ⟨p, hp, hpj⟩]
      by_cases hje : j = entering
      · rw [if_pos hje, if_pos hje, hje]
        ring
      · rw [if_neg hje, if_neg hje, sub_self, mul_zero]
  have hsum := combination_sub q.coeffs (s.pivot r entering target).value s.value
  rw [Finset.sum_congr rfl hmoved, Finset.sum_ite_eq' _ _ (fun _ => _),
    if_pos (Finset.mem_range.mpr ((hs.length q hq).symm ▸ he))] at hsum
  have hold : s.value q.basic = combination q.coeffs s.value := hx q hq
  rw [Row.Holds, value_pivot_basic hs hlen hr hnew target ht hq]
  linarith

end

def refresh (values : List K) (r : Row K) : List K :=
  values.set r.basic (Scalar.dot r.coeffs values)

theorem length_foldl_refresh (rows : List (Row K)) (values : List K) :
    (rows.foldl refresh values).length = values.length := by
  induction rows generalizing values with
  | nil => rfl
  | cons q rows ih => rw [List.foldl_cons, ih, refresh, List.length_set]

theorem getD_foldl_refresh_of_nonbasic {rows : List (Row K)} {u : ℕ}
    (h : ∀ q ∈ rows, q.basic ≠ u) (values : List K) :
    (rows.foldl refresh values).getD u 0 = values.getD u 0 := by
  induction rows generalizing values with
  | nil => rfl
  | cons q rows ih =>
    rw [List.foldl_cons, ih (fun p hp => h p (List.mem_cons_of_mem _ hp)), refresh, getD_set,
      if_neg fun he => h q List.mem_cons_self he.1.symm]

theorem getD_foldl_refresh_of_mem {rows : List (Row K)} (h : (rows.map Row.basic).Nodup)
    (hsolved : ∀ r ∈ rows, ∀ q ∈ rows, r.coeffs.getD q.basic 0 = 0) {q : Row K} (hq : q ∈ rows)
    {values : List K} (hu : q.basic < values.length) :
    (rows.foldl refresh values).getD q.basic 0 =
      combination q.coeffs (fun j => values.getD j 0) := by
  induction rows generalizing values with
  | nil => simp at hq
  | cons p rows ih =>
    obtain ⟨hp, hrows⟩ := List.nodup_cons.mp h
    rw [List.foldl_cons]
    rcases List.mem_cons.mp hq with rfl | hq
    · have hnot : ∀ t ∈ rows, t.basic ≠ q.basic :=
        fun t ht he => hp (List.mem_map.mpr ⟨t, ht, he⟩)
      rw [getD_foldl_refresh_of_nonbasic hnot, refresh, getD_set, if_pos ⟨rfl, hu⟩,
        dot_eq_combination]
    · rw [ih hrows (fun r hr t ht => hsolved r (List.mem_cons_of_mem _ hr) t
        (List.mem_cons_of_mem _ ht)) hq (by rwa [refresh, List.length_set])]
      refine combination_congr fun j _ hz => ?_
      have hne : j ≠ p.basic := by
        rintro rfl
        exact hz (hsolved q (List.mem_cons_of_mem _ hq) p List.mem_cons_self)
      rw [refresh, getD_set, if_neg fun he => hne he.1]

theorem values_refreshed (s : Simplex K) : s.refreshed.values = s.rows.foldl refresh s.values := rfl

theorem value_refreshed_nonbasic {s : Simplex K} {u : ℕ} (h : ∀ q ∈ s.rows, q.basic ≠ u) :
    s.refreshed.value u = s.value u :=
  getD_foldl_refresh_of_nonbasic h s.values

theorem satisfied_refreshed {s : Simplex K} (hs : s.Tidy) (hlen : s.values.length = s.numVars) :
    s.refreshed.Satisfied s.refreshed.value := by
  intro q hq
  have hget : s.refreshed.value q.basic = combination q.coeffs s.value :=
    getD_foldl_refresh_of_mem hs.distinct hs.solved hq (hlen.symm ▸ hs.basic_lt q hq)
  rw [Row.Holds, hget]
  refine combination_congr fun j _ hz => (value_refreshed_nonbasic fun p hp hpj => hz ?_).symm
  rw [← hpj]
  exact hs.solved q hq p hp

def placed (s : Simplex K) : Simplex K :=
  { s with values := (s.bounds.zip s.values).zipIdx.map (fun p =>
      if s.isBasic p.2 then p.1.2 else startValue p.1.1) }

theorem start_eq (s : Simplex K) : s.start = s.placed.refreshed := rfl

theorem length_values_placed {s : Simplex K} (hlen : s.values.length = s.numVars) :
    s.placed.values.length = s.placed.numVars := by
  change s.placed.values.length = s.numVars
  simp [placed, hlen, numVars]

theorem value_placed_nonbasic {s : Simplex K} (hlen : s.values.length = s.numVars) {u : ℕ}
    (hu : u < s.numVars) (h : ∀ q ∈ s.rows, q.basic ≠ u) :
    s.placed.value u = startValue (s.boundsOf u) := by
  have hb : s.isBasic u = false := by
    rw [Bool.eq_false_iff, Ne, isBasic_iff]
    rintro ⟨q, hq, he⟩
    exact h q hq he
  have hbounds : u < s.bounds.length := hu
  have hvalues : u < s.values.length := hlen.symm ▸ hu
  simp [value, placed, List.getD_eq_getElem?_getD, hbounds, hvalues, hb, boundsOf]

theorem value_start_nonbasic {s : Simplex K} (hlen : s.values.length = s.numVars) {u : ℕ}
    (hu : u < s.numVars) (h : ∀ q ∈ s.rows, q.basic ≠ u) :
    s.start.value u = startValue (s.boundsOf u) := by
  rw [start_eq, value_refreshed_nonbasic (s := s.placed) h, value_placed_nonbasic hlen hu h]

theorem length_values_start {s : Simplex K} (hlen : s.values.length = s.numVars) :
    s.start.values.length = s.numVars := by
  rw [start_eq, values_refreshed, length_foldl_refresh]
  exact length_values_placed hlen

theorem satisfied_start {s : Simplex K} (hs : s.Tidy) (hlen : s.values.length = s.numVars) :
    s.start.Satisfied s.start.value :=
  satisfied_refreshed (s := s.placed) hs (length_values_placed hlen)

end Simplex

end ReluVerify
