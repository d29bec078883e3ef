import Mathlib
import ReluVerify.Constraint.Equation
import ReluVerify.Constraint.Relu
import ReluVerify.Engine.Simplex

namespace ReluVerify

variable {K : Type} [Field K] [LinearOrder K]

instance (priority := low) Scalar.exact : Scalar K where
  ltDec := inferInstance
  leDec := inferInstance
  ofInt z := (z : K)
  abs x := |x|
  isZero x := decide (x = 0)
  isFinite _ := true
  magnitudeLe x y := decide (|x| ≤ |y|)
  belowNoBound _ _ := true
  aboveNoBound _ _ := true

namespace Scalar

@[simp] theorem exact_abs (x : K) : Scalar.abs x = |x| := rfl

@[simp] theorem exact_ofInt (z : ℤ) : Scalar.ofInt z = (z : K) := rfl

@[simp] theorem exact_isZero (x : K) : Scalar.isZero x = decide (x = 0) := rfl

@[simp] theorem exact_isFinite (x : K) : Scalar.isFinite x = true := rfl

@[simp] theorem exact_magnitudeLe (x y : K) :
    Scalar.magnitudeLe x y = decide (|x| ≤ |y|) := rfl

@[simp] theorem exact_belowNoBound (x y : K) : Scalar.belowNoBound x y = true := rfl

@[simp] theorem exact_aboveNoBound (x y : K) : Scalar.aboveNoBound x y = true := rfl

@[simp] theorem larger_eq_max (x y : K) : Scalar.larger x y = max x y := by
  unfold Scalar.larger
  rcases lt_or_ge x y with h | h
  · rw [if_pos h, max_eq_right h.le]
  · rw [if_neg h.not_gt, if_pos le_rfl, max_eq_left h]

@[simp] theorem smaller_eq_min (x y : K) : Scalar.smaller x y = min x y := by
  unfold Scalar.smaller
  rcases lt_or_ge y x with h | h
  · rw [if_pos h, min_eq_right h.le]
  · rw [if_neg h.not_gt, if_pos le_rfl, min_eq_left h]

@[simp] theorem total_eq_sum (xs : List K) : Scalar.total xs = xs.sum := by
  unfold Scalar.total
  rw [neg_zero, List.sum_eq_foldl]

theorem dot_eq_sum (xs ys : List K) :
    Scalar.dot xs ys = (List.zipWith (· * ·) xs ys).sum := total_eq_sum _

end Scalar

theorem pivotFloor_pos [IsStrictOrderedRing K] : (0 : K) < Simplex.pivotFloor := by
  unfold Simplex.pivotFloor
  norm_num

theorem ReluPair.holds_iff (x y tolerance : K) :
    ReluPair.holds x y tolerance = true ↔ |y - max x 0| ≤ tolerance := by
  simp [ReluPair.holds]

end ReluVerify
