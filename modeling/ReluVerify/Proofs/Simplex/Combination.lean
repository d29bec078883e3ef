import ReluVerify.Proofs.Exact

namespace ReluVerify

variable {K : Type} [Field K]

def combination (a : List K) (x : ℕ → K) : K :=
  ∑ j ∈ Finset.range a.length, a.getD j 0 * x j

theorem combination_eq_sum {a : List K} {n : ℕ} (h : a.length = n) (x : ℕ → K) :
    combination a x = ∑ j ∈ Finset.range n, a.getD j 0 * x j := by
  rw [combination, h]

theorem combination_cons (c : K) (a : List K) (x : ℕ → K) :
    combination (c :: a) x = c * x 0 + combination a (fun j => x (j + 1)) := by
  simp [combination, Finset.sum_range_succ', add_comm]

theorem combination_congr [LinearOrder K] {a : List K} {x y : ℕ → K}
    (h : ∀ j < a.length, a.getD j 0 ≠ 0 → x j = y j) : combination a x = combination a y := by
  refine Finset.sum_congr rfl fun j hj => ?_
  by_cases hz : a.getD j 0 = 0
  · rw [hz, zero_mul, zero_mul]
  · rw [h j (Finset.mem_range.mp hj) hz]

theorem combination_sub (a : List K) (x y : ℕ → K) :
    combination a x - combination a y = ∑ j ∈ Finset.range a.length, a.getD j 0 * (x j - y j) := by
  simp only [combination, ← Finset.sum_sub_distrib, mul_sub]

theorem dot_eq_combination [LinearOrder K] (a values : List K) :
    Scalar.dot a values = combination a (fun j => values.getD j 0) := by
  rw [Scalar.dot_eq_sum]
  induction a generalizing values with
  | nil => simp [combination]
  | cons c a ih =>
    rw [combination_cons]
    cases values with
    | nil => simp [combination]
    | cons v values =>
      rw [List.zipWith_cons_cons, List.sum_cons, ih values]
      rfl

namespace Simplex

theorem getD_set (a : List K) (p j : ℕ) (c : K) :
    (a.set p c).getD j 0 = if j = p ∧ p < a.length then c else a.getD j 0 := by
  simp only [List.getD_eq_getElem?_getD, List.getElem?_set]
  by_cases h : p = j
  · subst h
    by_cases hl : p < a.length <;> simp [hl]
  · simp [h, Ne.symm h]

variable [LinearOrder K]

theorem length_substitute {p : ℕ} {coeffs a : List K} (h : coeffs.length = a.length) :
    (substitute p coeffs a).length = a.length := by
  unfold substitute
  dsimp only
  split
  · rfl
  · simp [h]

theorem getD_substitute {p : ℕ} {coeffs a : List K} (h : coeffs.length = a.length) (j : ℕ) :
    (substitute p coeffs a).getD j 0 =
      (if j = p then 0 else a.getD j 0) + a.getD p 0 * coeffs.getD j 0 := by
  unfold substitute
  dsimp only
  split
  case isTrue hz =>
    have hk : a.getD p 0 = 0 := by simpa using hz
    by_cases hj : j = p
    · rw [if_pos hj, hj, hk, zero_mul, add_zero]
    · rw [if_neg hj, hk, zero_mul, add_zero]
  case isFalse =>
    have hset := getD_set a p j 0
    simp only [List.getD_eq_getElem?_getD, List.getElem?_zipWith] at hset ⊢
    rcases lt_or_ge j a.length with hl | hl
    · rw [List.getElem?_eq_getElem (by simpa using hl)] at hset ⊢
      rw [List.getElem?_eq_getElem (h ▸ hl)]
      simp only [Option.getD_some] at hset ⊢
      rw [hset]
      by_cases hj : j = p
      · subst hj; simp [hl]
      · simp [hj]
    · rw [List.getElem?_eq_none (by simpa using hl)] at hset ⊢
      rw [List.getElem?_eq_none (h ▸ hl)]
      simp [List.getElem?_eq_none hl]

theorem combination_substitute {p : ℕ} {coeffs a : List K} (h : coeffs.length = a.length)
    (hp : p < a.length) (x : ℕ → K) :
    combination (substitute p coeffs a) x =
      combination a x + a.getD p 0 * (combination coeffs x - x p) := by
  have hsplit : ∀ j ∈ Finset.range a.length,
      (substitute p coeffs a).getD j 0 * x j =
        a.getD j 0 * x j - (if j = p then a.getD p 0 * x p else 0) +
          a.getD p 0 * (coeffs.getD j 0 * x j) := by
    intro j _
    rw [getD_substitute h]
    by_cases hj : j = p
    · subst hj; simp; ring
    · simp only [hj, if_false]; ring
  rw [combination_eq_sum (length_substitute h), Finset.sum_congr rfl hsplit,
    Finset.sum_add_distrib, Finset.sum_sub_distrib, ← Finset.mul_sum,
    Finset.sum_ite_eq' _ _ (fun _ => a.getD p 0 * x p), if_pos (Finset.mem_range.mpr hp),
    combination_eq_sum h]
  unfold combination
  ring

theorem length_solveFor (p : ℕ) (a : List K) : (solveFor p a).length = a.length := by
  simp [solveFor]

theorem getD_solveFor {p : ℕ} {a : List K} (hp : p < a.length) (j : ℕ) :
    (solveFor p a).getD j 0 = if j = p then 0 else -a.getD j 0 / a.getD p 0 := by
  unfold solveFor
  dsimp only
  rw [getD_set, List.length_map]
  by_cases hj : j = p
  · simp [hj, hp]
  · simp only [hj, false_and, if_false, List.getD_eq_getElem?_getD, List.getElem?_map]
    rcases lt_or_ge j a.length with hl | hl
    · simp [hl]
    · simp [hl]

theorem combination_solveFor [IsStrictOrderedRing K] {p : ℕ} {a : List K} (hp : p < a.length)
    (h : a.getD p 0 ≠ 0) (x : ℕ → K) :
    combination (solveFor p a) x = x p - combination a x / a.getD p 0 := by
  have hsplit : ∀ j ∈ Finset.range a.length,
      (solveFor p a).getD j 0 * x j =
        (if j = p then x p else 0) - a.getD j 0 * x j / a.getD p 0 := by
    intro j _
    rw [getD_solveFor hp]
    by_cases hj : j = p
    · subst hj; rw [if_pos rfl, if_pos rfl, mul_div_cancel_left₀ _ h, zero_mul, sub_self]
    · simp only [hj, if_false]; ring
  rw [combination_eq_sum (length_solveFor p a), Finset.sum_congr rfl hsplit,
    Finset.sum_sub_distrib, Finset.sum_ite_eq' _ _ (fun _ => x p),
    if_pos (Finset.mem_range.mpr hp), ← Finset.sum_div]
  rfl

end Simplex

end ReluVerify
