import ReluVerify.Proofs.Simplex.Run

namespace ReluVerify

variable {K : Type} [Field K] [LinearOrder K]

namespace Simplex

open Relation

abbrev Equality (K : Type) := List K × Option ℕ

def adding (s : Simplex K) (equalities : List (Equality K)) : Simplex K :=
  equalities.foldl (fun s e => s.addEquality e.1 e.2) s

def assembled (constant : ℕ) (bounds : List (Bounds K)) (tolerance : K)
    (equalities : List (Equality K)) : Simplex K :=
  (ofBounds constant bounds tolerance).adding equalities

theorem adding_cons (s : Simplex K) (e : Equality K) (equalities : List (Equality K)) :
    s.adding (e :: equalities) = (s.addEquality e.1 e.2).adding equalities := rfl

theorem sameFrame_adding (s : Simplex K) (equalities : List (Equality K)) :
    (s.adding equalities).bounds = s.bounds ∧ (s.adding equalities).constant = s.constant ∧
      (s.adding equalities).tolerance = s.tolerance ∧
      (s.adding equalities).values = s.values := by
  induction equalities generalizing s with
  | nil => exact ⟨rfl, rfl, rfl, rfl⟩
  | cons e equalities ih => simpa [adding_cons] using ih (s.addEquality e.1 e.2)

@[simp] theorem bounds_adding (s : Simplex K) (equalities : List (Equality K)) :
    (s.adding equalities).bounds = s.bounds := (sameFrame_adding s equalities).1

@[simp] theorem constant_adding (s : Simplex K) (equalities : List (Equality K)) :
    (s.adding equalities).constant = s.constant := (sameFrame_adding s equalities).2.1

@[simp] theorem tolerance_adding (s : Simplex K) (equalities : List (Equality K)) :
    (s.adding equalities).tolerance = s.tolerance := (sameFrame_adding s equalities).2.2.1

@[simp] theorem values_adding (s : Simplex K) (equalities : List (Equality K)) :
    (s.adding equalities).values = s.values := (sameFrame_adding s equalities).2.2.2

@[simp] theorem numVars_addEquality (s : Simplex K) (a : List K) (preferred : Option ℕ) :
    (s.addEquality a preferred).numVars = s.numVars := by
  rw [numVars, bounds_addEquality, numVars]

variable [IsStrictOrderedRing K]

theorem tidy_adding {s : Simplex K} (hs : s.Tidy) {equalities : List (Equality K)}
    (h : ∀ e ∈ equalities, e.1.length = s.numVars) : (s.adding equalities).Tidy := by
  induction equalities generalizing s with
  | nil => exact hs
  | cons e equalities ih =>
    rw [List.forall_mem_cons] at h
    exact ih (tidy_addEquality hs h.1 e.2) (by simpa using h.2)

theorem satisfied_adding {s : Simplex K} (hs : s.Tidy) {equalities : List (Equality K)}
    (h : ∀ e ∈ equalities, e.1.length = s.numVars) {x : ℕ → K} (hx : s.Satisfied x)
    (heq : ∀ e ∈ equalities, combination e.1 x = 0) : (s.adding equalities).Satisfied x := by
  induction equalities generalizing s with
  | nil => exact hx
  | cons e equalities ih =>
    rw [List.forall_mem_cons] at h heq
    refine ih (tidy_addEquality hs h.1 e.2) (by simpa using h.2) ?_ heq.2
    cases hp : s.choose? (reduce s.rows e.1) e.2 with
    | none => exact (satisfied_addEquality_of_none hp).mpr hx
    | some p => exact (satisfied_addEquality_of_some hs h.1 hp).mpr ⟨hx, heq.1⟩

omit [IsStrictOrderedRing K] in
theorem contradictory_of_addEquality {s : Simplex K} {a : List K} {preferred : Option ℕ}
    (h : (s.addEquality a preferred).contradictory = false) : s.contradictory = false := by
  unfold addEquality at h
  dsimp only at h
  split at h
  · split at h
    · cases h
    · exact h
  · exact h

omit [IsStrictOrderedRing K] in
theorem contradictory_of_adding {s : Simplex K} {equalities : List (Equality K)}
    (h : (s.adding equalities).contradictory = false) : s.contradictory = false := by
  induction equalities generalizing s with
  | nil => exact h
  | cons e equalities ih => exact contradictory_of_addEquality (ih h)

theorem satisfied_of_addEquality {s : Simplex K} (hs : s.Tidy) {a : List K}
    (ha : a.length = s.numVars) {preferred : Option ℕ} {x : ℕ → K}
    (h : (s.addEquality a preferred).Satisfied x) : s.Satisfied x := by
  cases hp : s.choose? (reduce s.rows a) preferred with
  | none => exact (satisfied_addEquality_of_none hp).mp h
  | some p => exact ((satisfied_addEquality_of_some hs ha hp).mp h).1

theorem satisfied_of_adding {s : Simplex K} (hs : s.Tidy) {equalities : List (Equality K)}
    (h : ∀ e ∈ equalities, e.1.length = s.numVars) {x : ℕ → K}
    (hx : (s.adding equalities).Satisfied x) : s.Satisfied x := by
  induction equalities generalizing s with
  | nil => exact hx
  | cons e equalities ih =>
    rw [List.forall_mem_cons] at h
    exact satisfied_of_addEquality hs h.1
      (ih (tidy_addEquality hs h.1 e.2) (by simpa using h.2) hx)

theorem abs_combination_le {a : List K} {n : ℕ} (ha : a.length = n) {c : ℕ → K}
    (h : ∀ j < n, |a.getD j 0| ≤ c j) (x : ℕ → K) :
    |combination a x| ≤ ∑ j ∈ Finset.range n, c j * |x j| := by
  rw [combination_eq_sum ha]
  refine (Finset.abs_sum_le_sum_abs _ _).trans (Finset.sum_le_sum fun j hj => ?_)
  rw [abs_mul]
  exact mul_le_mul_of_nonneg_right (h j (Finset.mem_range.mp hj)) (abs_nonneg (x j))

-- how far a solution of the rows may miss an equality that became none of them
def slackOf (s : Simplex K) (x : ℕ → K) : K :=
  s.tolerance * |x s.constant| +
    pivotFloor * ∑ j ∈ (Finset.range s.numVars).erase s.constant, |x j|

theorem slackOf_nonneg {s : Simplex K} (h : 0 ≤ s.tolerance) (x : ℕ → K) : 0 ≤ s.slackOf x :=
  add_nonneg (mul_nonneg h (abs_nonneg _))
    (mul_nonneg pivotFloor_pos.le (Finset.sum_nonneg fun j _ => abs_nonneg (x j)))

omit [IsStrictOrderedRing K] in
@[simp] theorem slackOf_addEquality (s : Simplex K) (a : List K) (preferred : Option ℕ) :
    (s.addEquality a preferred).slackOf = s.slackOf := by
  funext x
  simp [slackOf]

theorem abs_getD_reduce_le {s : Simplex K} (hs : s.Tidy) {a : List K} (ha : a.length = s.numVars)
    {preferred : Option ℕ} (hp : s.choose? (reduce s.rows a) preferred = none) {j : ℕ}
    (hj : j < s.numVars) (hne : j ≠ s.constant) :
    |(reduce s.rows a).getD j 0| ≤ pivotFloor := by
  by_cases hb : ∃ r ∈ s.rows, r.basic = j
  · obtain ⟨r, hr, rfl⟩ := hb
    rw [getD_reduce_basic hs ha hr, abs_zero]
    exact pivotFloor_pos.le
  · exact choose?_eq_none hp hj (eligible_iff.mpr ⟨hne, fun r hr he => hb ⟨r, hr, he⟩⟩)

theorem abs_combination_of_added {s : Simplex K} (hs : s.Tidy) (htol : 0 ≤ s.tolerance)
    (hc : s.constant < s.numVars) {a : List K} (ha : a.length = s.numVars)
    {preferred : Option ℕ} (hcon : (s.addEquality a preferred).contradictory = false) {x : ℕ → K}
    (hx : (s.addEquality a preferred).Satisfied x) : |combination a x| ≤ s.slackOf x := by
  have hsx := satisfied_of_addEquality hs ha hx
  cases hp : s.choose? (reduce s.rows a) preferred with
  | some p =>
    rw [((satisfied_addEquality_of_some hs ha hp).mp hx).2, abs_zero]
    exact slackOf_nonneg htol x
  | none =>
    have hconst : |(reduce s.rows a).getD s.constant 0| ≤ s.tolerance := by
      rw [addEquality_of_none hp] at hcon
      by_contra hlt
      rw [if_pos (not_le.mp hlt)] at hcon
      cases hcon
    rw [← combination_reduce hs.length hs.basic_lt hsx ha]
    refine (abs_combination_le (length_reduce hs.length ha)
      (c := fun j => if j = s.constant then s.tolerance else pivotFloor)
      (fun j hj => ?_) x).trans ?_
    · by_cases hj' : j = s.constant
      · rw [if_pos hj', hj']
        exact hconst
      · rw [if_neg hj']
        exact abs_getD_reduce_le hs ha hp hj hj'
    · rw [slackOf, Finset.mul_sum, ← Finset.add_sum_erase _ _ (Finset.mem_range.mpr hc),
        if_pos rfl]
      refine add_le_add le_rfl (Finset.sum_le_sum fun j hj => ?_)
      rw [if_neg (Finset.ne_of_mem_erase hj)]

theorem abs_combination_of_adding {s : Simplex K} (hs : s.Tidy) (htol : 0 ≤ s.tolerance)
    (hc : s.constant < s.numVars) {equalities : List (Equality K)}
    (h : ∀ e ∈ equalities, e.1.length = s.numVars)
    (hcon : (s.adding equalities).contradictory = false) {x : ℕ → K}
    (hx : (s.adding equalities).Satisfied x) :
    ∀ e ∈ equalities, |combination e.1 x| ≤ s.slackOf x := by
  induction equalities generalizing s with
  | nil => simp
  | cons e equalities ih =>
    rw [List.forall_mem_cons] at h ⊢
    have htidy := tidy_addEquality hs h.1 e.2
    have hlen : ∀ f ∈ equalities, f.1.length = (s.addEquality e.1 e.2).numVars := by
      simpa using h.2
    refine ⟨abs_combination_of_added hs htol hc h.1 (contradictory_of_adding hcon)
      (satisfied_of_adding htidy hlen hx), ?_⟩
    simpa using ih htidy (by simpa using htol) (by simpa using hc) hlen hcon hx

end Simplex

end ReluVerify
