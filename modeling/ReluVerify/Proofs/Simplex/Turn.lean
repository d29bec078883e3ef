import ReluVerify.Proofs.Bounds
import ReluVerify.Proofs.Simplex.Values

namespace ReluVerify

variable {K : Type} [Field K] [LinearOrder K]

def Violation.sign (w : Violation K) : K := if w.increase then 1 else -1

namespace Simplex

structure Violates (s : Simplex K) (v : ℕ) (w : Violation K) : Prop where
  bound : if w.increase then (s.boundsOf v).lower = some w.target
    else (s.boundsOf v).upper = some w.target
  far : s.tolerance < w.sign * (w.target - s.value v)

theorem Violates.far_of_within [IsStrictOrderedRing K] {s : Simplex K} {v : ℕ} {w : Violation K}
    (h : s.Violates v w) {x : K} (hx : (s.boundsOf v).Within 0 x) :
    s.tolerance < w.sign * (x - s.value v) := by
  have hfar := h.far
  have hbound := h.bound
  unfold Violation.sign at hfar ⊢
  split at hbound
  · rename_i hinc
    have hxl := hx.1 _ hbound
    simp only [hinc, if_true] at hfar ⊢
    linarith
  · rename_i hinc
    have hxu := hx.2 _ hbound
    simp only [hinc] at hfar ⊢
    norm_num at hfar ⊢
    linarith

theorem violation?_eq_some [IsStrictOrderedRing K] {s : Simplex K} {v : ℕ} {w : Violation K}
    (h : s.violation? v = some w) : s.Violates v w := by
  unfold violation? at h
  dsimp only at h
  split at h
  case h_1 l hl =>
    obtain ⟨hlow, hlt⟩ := Option.filter_eq_some_iff.mp hl
    have hlt := of_decide_eq_true hlt
    cases h
    refine ⟨by simpa using hlow, ?_⟩
    simp only [Violation.sign, if_true]
    linarith
  case h_2 =>
    obtain ⟨u, hu, rfl⟩ := Option.map_eq_some_iff.mp h
    obtain ⟨hupp, hlt⟩ := Option.filter_eq_some_iff.mp hu
    have hlt := of_decide_eq_true hlt
    refine ⟨by simpa using hupp, ?_⟩
    simp only [Violation.sign]
    norm_num
    linarith

theorem violation?_eq_none [IsStrictOrderedRing K] {s : Simplex K} {v : ℕ} :
    s.violation? v = none ↔ (s.boundsOf v).Within s.tolerance (s.value v) := by
  unfold violation? Bounds.Within
  dsimp only
  constructor
  · intro h
    split at h
    case h_1 => cases h
    case h_2 hl =>
      rw [Option.map_eq_none_iff] at h
      refine ⟨fun l hlow => ?_, fun u hupp => ?_⟩
      · simpa using Option.filter_eq_none_iff.mp hl l hlow
      · simpa using Option.filter_eq_none_iff.mp h u hupp
  · rintro ⟨hlow, hupp⟩
    have hl : (s.boundsOf v).lower.filter (fun l => decide (s.value v < l - s.tolerance)) = none :=
      Option.filter_eq_none_iff.mpr fun l hl => by simpa using hlow l hl
    have hu : (s.boundsOf v).upper.filter (fun u => decide (u + s.tolerance < s.value v)) = none :=
      Option.filter_eq_none_iff.mpr fun u hu => by simpa using hupp u hu
    rw [hl, hu]
    rfl

def better (s : Simplex K) (best : Option (Row K × Violation K)) (r : Row K) :
    Option (Row K × Violation K) :=
  match s.violation? r.basic with
  | none => best
  | some w =>
      match best with
      | some (q, u) => if r.basic < q.basic then some (r, w) else some (q, u)
      | none => some (r, w)

theorem better_eq_some {s : Simplex K} {best : Option (Row K × Violation K)} {q r : Row K}
    {w : Violation K} (h : s.better best q = some (r, w)) :
    best = some (r, w) ∨ r = q ∧ s.violation? q.basic = some w := by
  unfold better at h
  split at h
  · exact Or.inl h
  · rename_i u hu
    split at h
    · split at h
      · cases h
        exact Or.inr ⟨rfl, hu⟩
      · exact Or.inl h
    · cases h
      exact Or.inr ⟨rfl, hu⟩

theorem better_of_some (s : Simplex K) (p : Row K × Violation K) (q : Row K) :
    ∃ p', s.better (some p) q = some p' ∧ p'.1.basic ≤ p.1.basic := by
  unfold better
  split
  · exact ⟨p, rfl, le_rfl⟩
  · by_cases hlt : q.basic < p.1.basic
    · exact ⟨_, if_pos hlt, hlt.le⟩
    · exact ⟨p, if_neg hlt, le_rfl⟩

theorem better_of_violated {s : Simplex K} {q : Row K} (h : s.violation? q.basic ≠ none)
    (best : Option (Row K × Violation K)) :
    ∃ p, s.better best q = some p ∧ p.1.basic ≤ q.basic := by
  obtain ⟨u, hu⟩ := Option.ne_none_iff_exists'.mp h
  unfold better
  simp only [hu]
  cases best with
  | none => exact ⟨_, rfl, le_rfl⟩
  | some p =>
    by_cases hlt : q.basic < p.1.basic
    · exact ⟨_, if_pos hlt, le_rfl⟩
    · exact ⟨p, if_neg hlt, not_lt.mp hlt⟩

theorem foldl_better_eq_none {s : Simplex K} {rows : List (Row K)}
    {best : Option (Row K × Violation K)} (h : rows.foldl s.better best = none) :
    best = none ∧ ∀ r ∈ rows, s.violation? r.basic = none := by
  induction rows generalizing best with
  | nil => exact ⟨h, by simp⟩
  | cons r rows ih =>
    obtain ⟨hbest, hrows⟩ := ih h
    unfold better at hbest
    split at hbest
    case h_1 hr =>
      refine ⟨hbest, fun q hq => ?_⟩
      rcases List.mem_cons.mp hq with rfl | hq
      · exact hr
      · exact hrows q hq
    case h_2 =>
      split at hbest
      · split at hbest <;> cases hbest
      · cases hbest

theorem foldl_better_eq_some {s : Simplex K} {rows : List (Row K)}
    {best : Option (Row K × Violation K)} {r : Row K} {w : Violation K}
    (h : rows.foldl s.better best = some (r, w)) :
    (best = some (r, w) ∨ r ∈ rows ∧ s.violation? r.basic = some w) ∧
      (∀ p, best = some p → r.basic ≤ p.1.basic) ∧
      ∀ q ∈ rows, s.violation? q.basic ≠ none → r.basic ≤ q.basic := by
  induction rows generalizing best with
  | nil =>
    subst h
    exact ⟨Or.inl rfl, by rintro p hp; cases hp; exact le_rfl, by simp⟩
  | cons q rows ih =>
    obtain ⟨hsome, hbest, hrows⟩ := ih h
    refine ⟨?_, ?_, fun t ht hviolated => ?_⟩
    · rcases hsome with hr | ⟨hr, hw⟩
      · refine (better_eq_some hr).imp_right ?_
        rintro ⟨rfl, hw⟩
        exact ⟨List.mem_cons_self, hw⟩
      · exact Or.inr ⟨List.mem_cons_of_mem _ hr, hw⟩
    · rintro p rfl
      obtain ⟨p', hp', hle⟩ := s.better_of_some p q
      exact (hbest p' hp').trans hle
    · rcases List.mem_cons.mp ht with rfl | ht
      · obtain ⟨p, hp, hle⟩ := better_of_violated hviolated best
        exact (hbest p hp).trans hle
      · exact hrows t ht hviolated

theorem violatedRow?_eq_none [IsStrictOrderedRing K] {s : Simplex K} (h : s.violatedRow? = none) :
    ∀ r ∈ s.rows, (s.boundsOf r.basic).Within s.tolerance (s.value r.basic) :=
  fun r hr => violation?_eq_none.mp ((foldl_better_eq_none h).2 r hr)

theorem violatedRow?_of_within [IsStrictOrderedRing K] {s : Simplex K}
    (h : ∀ r ∈ s.rows, (s.boundsOf r.basic).Within s.tolerance (s.value r.basic)) :
    s.violatedRow? = none := by
  cases hv : s.violatedRow? with
  | none => rfl
  | some found =>
    obtain ⟨r, w⟩ := found
    rcases (foldl_better_eq_some hv).1 with hnone | ⟨hr, hw⟩
    · cases hnone
    · rw [violation?_eq_none.mpr (h r hr)] at hw
      cases hw

theorem violatedRow?_eq_some [IsStrictOrderedRing K] {s : Simplex K} {r : Row K} {w : Violation K}
    (h : s.violatedRow? = some (r, w)) :
    r ∈ s.rows ∧ s.Violates r.basic w ∧
      ∀ q ∈ s.rows, q.basic < r.basic →
        (s.boundsOf q.basic).Within s.tolerance (s.value q.basic) := by
  obtain ⟨hsome, _, hrows⟩ := foldl_better_eq_some h
  rcases hsome with hr | hr
  · cases hr
  · refine ⟨hr.1, violation?_eq_some hr.2, fun q hq hlt => ?_⟩
    by_contra hn
    rw [← violation?_eq_none] at hn
    exact absurd (hrows q hq hn) (not_le.mpr hlt)

theorem canIncrease_iff {s : Simplex K} {v : ℕ} :
    s.canIncrease v = true ↔
      ∀ u, (s.boundsOf v).upper = some u → s.value v < u - s.tolerance := by
  unfold canIncrease
  cases h : (s.boundsOf v).upper <;> simp

theorem canDecrease_iff {s : Simplex K} {v : ℕ} :
    s.canDecrease v = true ↔
      ∀ l, (s.boundsOf v).lower = some l → l + s.tolerance < s.value v := by
  unfold canDecrease
  cases h : (s.boundsOf v).lower <;> simp

def pull (r : Row K) (w : Violation K) (v : ℕ) : K := w.sign * r.coeffs.getD v 0

theorem abs_pull (r : Row K) (w : Violation K) (v : ℕ) :
    |pull r w v| = |r.coeffs.getD v 0| := by
  unfold pull Violation.sign
  split <;> simp

theorem pull_ne_zero [IsStrictOrderedRing K] {r : Row K} {w : Violation K} {v : ℕ} :
    pull r w v ≠ 0 ↔ r.coeffs.getD v 0 ≠ 0 := by
  rw [← abs_pos, abs_pull, abs_pos]

theorem canMove_iff [IsStrictOrderedRing K] {s : Simplex K} {r : Row K} {w : Violation K} {v : ℕ} :
    s.canMove r w.increase v = true ↔ pivotFloor < |pull r w v| ∧
      (0 < pull r w v ∧ s.canIncrease v = true ∨ pull r w v < 0 ∧ s.canDecrease v = true) := by
  rw [abs_pull]
  unfold canMove pull Violation.sign
  generalize r.coeffs.getD v 0 = t
  simp only [Scalar.exact_abs, Bool.and_eq_true, Bool.not_eq_true', decide_eq_false_iff_not, not_le]
  refine and_congr_right fun hfloor => ?_
  rcases lt_or_gt_of_ne (abs_pos.mp (pivotFloor_pos.trans hfloor)) with hneg | hpos
  · cases w.increase <;> simp [hneg, hneg.not_gt]
  · cases w.increase <;> simp [hpos, hpos.not_gt]

theorem pull_le_of_stuck [IsStrictOrderedRing K] {s : Simplex K} {r : Row K} {w : Violation K}
    {v : ℕ} {x : K} (hclear : (s.boundsOf v).Clear s.tolerance (s.value v))
    (hbig : pull r w v ≠ 0 → pivotFloor < |pull r w v|)
    (hstuck : s.canMove r w.increase v = false) (hx : (s.boundsOf v).Within 0 x) :
    pull r w v * (x - s.value v) ≤ 0 := by
  by_cases hzero : pull r w v = 0
  · rw [hzero, zero_mul]
  have hno := Bool.eq_false_iff.mp hstuck
  rw [Ne, canMove_iff, not_and_or, not_or, not_and_or, not_and_or] at hno
  obtain ⟨hup, hdown⟩ := hno.resolve_left (not_not_intro (hbig hzero))
  rcases lt_or_gt_of_ne hzero with hneg | hpos
  · -- it cannot fall, so it is on its lower bound
    have hdec := hdown.resolve_left (not_not_intro hneg)
    rw [canDecrease_iff] at hdec
    push Not at hdec
    obtain ⟨l, hl, hle⟩ := hdec
    have hxl := hx.1 l hl
    rw [hclear.2 l hl hle]
    exact mul_nonpos_of_nonpos_of_nonneg hneg.le (by linarith)
  · have hinc := hup.resolve_left (not_not_intro hpos)
    rw [canIncrease_iff] at hinc
    push Not at hinc
    obtain ⟨u, hu, hle⟩ := hinc
    have hxu := hx.2 u hu
    rw [hclear.1 u hu (by linarith)]
    exact mul_nonpos_of_nonneg_of_nonpos hpos.le (by linarith)

theorem find?_range_eq_some {n v : ℕ} {p : ℕ → Bool} (h : (List.range n).find? p = some v) :
    v < n ∧ p v = true ∧ ∀ u < v, p u = false := by
  have hmem := List.mem_range.mp (List.mem_of_find?_eq_some h)
  refine ⟨hmem, List.find?_some h, fun u hu => ?_⟩
  obtain ⟨_, as, bs, hsplit, hall⟩ := List.find?_eq_some_iff_append.mp h
  have hu' : u ∈ as := by
    have hlen : as.length = v := by
      have hget : (as ++ v :: bs)[as.length]? = some v := by simp
      rw [← hsplit] at hget
      obtain ⟨hlt, heq⟩ := List.getElem?_eq_some_iff.mp hget
      simpa using heq
    have hget : (as ++ v :: bs)[u]? = some u := by
      rw [← hsplit]
      simp [hu.trans hmem]
    rw [List.getElem?_append_left (hlen.symm ▸ hu)] at hget
    exact List.mem_of_getElem? hget
  simpa using hall u hu'

theorem entering?_eq_some {s : Simplex K} {r : Row K} {w : Violation K} {v : ℕ}
    (h : s.entering? r w.increase = some v) :
    v < s.numVars ∧ (∀ q ∈ s.rows, q.basic ≠ v) ∧ s.canMove r w.increase v = true ∧
      ∀ u < v, (∀ q ∈ s.rows, q.basic ≠ u) → s.canMove r w.increase u = false := by
  obtain ⟨hlt, hv, hmin⟩ := find?_range_eq_some h
  simp only [Bool.and_eq_true, Bool.not_eq_true', Bool.eq_false_iff, Ne, isBasic_iff] at hv
  refine ⟨hlt, fun q hq he => hv.1 ⟨q, hq, he⟩, hv.2, fun u hu hnb => ?_⟩
  have hnot : s.isBasic u = false := by
    rw [Bool.eq_false_iff, Ne, isBasic_iff]
    rintro ⟨q, hq, he⟩
    exact hnb q hq he
  simpa [hnot] using hmin u hu

theorem entering?_eq_none {s : Simplex K} {r : Row K} {w : Violation K}
    (h : s.entering? r w.increase = none) {v : ℕ} (hv : v < s.numVars)
    (hnb : ∀ q ∈ s.rows, q.basic ≠ v) : s.canMove r w.increase v = false := by
  have hnot : s.isBasic v = false := by
    rw [Bool.eq_false_iff, Ne, isBasic_iff]
    rintro ⟨q, hq, he⟩
    exact hnb q hq he
  have hall := List.find?_eq_none.mp h v (List.mem_range.mpr hv)
  simpa [hnot] using hall

theorem step_eq_feasible {s : Simplex K} {values : List K}
    (h : s.step = .inl (.feasible values)) :
    s.violatedRow? = none ∧ values = s.refreshed.values := by
  unfold step at h
  split at h
  case h_1 hr =>
    cases h
    exact ⟨hr, rfl⟩
  case h_2 => split at h <;> cases h

theorem step_eq_infeasible {s : Simplex K} (h : s.step = .inl .infeasible) :
    ∃ r w, s.violatedRow? = some (r, w) ∧ s.entering? r w.increase = none := by
  unfold step at h
  split at h
  case h_1 => cases h
  case h_2 r w hr =>
    split at h
    case h_1 hv => exact ⟨r, w, hr, hv⟩
    case h_2 => cases h

theorem step_eq_inr {s t : Simplex K} (h : s.step = .inr t) :
    ∃ r w v, s.violatedRow? = some (r, w) ∧ s.entering? r w.increase = some v ∧
      t = s.pivot r v w.target := by
  unfold step at h
  split at h
  case h_1 => cases h
  case h_2 r w hr =>
    split at h
    case h_1 => cases h
    case h_2 v hv =>
      cases h
      exact ⟨r, w, v, hr, hv, rfl⟩

end Simplex

end ReluVerify
