import ReluVerify.Proofs.Simplex.Check

namespace ReluVerify

variable {K : Type} [Field K] [LinearOrder K] [IsStrictOrderedRing K]

namespace Simplex

open Relation

def Slight (a : List K) (v : ℕ) : Prop := a.getD v 0 ≠ 0 ∧ |a.getD v 0| ≤ pivotFloor

structure Stuck (s : Simplex K) (r : Row K) (w : Violation K) : Prop where
  chosen : s.violatedRow? = some (r, w)
  none : s.entering? r w.increase = none

omit [IsStrictOrderedRing K] in
theorem exists_stuck {s : Simplex K} (h : s.step = .inl .infeasible) : ∃ r w, s.Stuck r w := by
  obtain ⟨r, w, hr, hv⟩ := step_eq_infeasible h
  exact ⟨r, w, hr, hv⟩

section

variable {s : Simplex K} (hs : s.Settled) {r : Row K} {w : Violation K} (h : s.Stuck r w)
  {x : ℕ → K} (hin : ∀ v < s.numVars, (s.boundsOf v).Within 0 (x v))
  (hclear : ∀ v < s.numVars, (∀ q ∈ s.rows, q.basic ≠ v) →
    (s.boundsOf v).Clear s.tolerance (s.value v))

include hs h hin hclear

theorem pull_le_of_not_slight {v : ℕ} (hv : v < s.numVars)
    (hslight : v ≠ s.constant → ¬ Slight r.coeffs v) : pull r w v * (x v - s.value v) ≤ 0 := by
  obtain ⟨hr, _, _⟩ := violatedRow?_eq_some h.chosen
  by_cases hb : ∃ q ∈ s.rows, q.basic = v
  · obtain ⟨q, hq, rfl⟩ := hb
    rw [pull, hs.tidy.solved r hr q hq, mul_zero, zero_mul]
  have hnb : ∀ q ∈ s.rows, q.basic ≠ v := fun q hq he => hb ⟨q, hq, he⟩
  by_cases hconst : v = s.constant
  · obtain ⟨c, hc⟩ := hs.pinned
    have hwithin := hin v hv
    rw [hconst, hc] at hwithin
    have hlow := hwithin.1 c rfl
    have hupp := hwithin.2 c rfl
    have hxc : x s.constant = c := by linarith
    rw [hconst, hxc, hs.value_constant hc (hconst ▸ hv), sub_self, mul_zero]
  · refine pull_le_of_stuck (hclear v hv hnb) (fun hpull => ?_) (entering?_eq_none h.none hv hnb)
      (hin v hv)
    rw [abs_pull]
    by_contra hle
    exact hslight hconst ⟨pull_ne_zero.mp hpull, not_lt.mp hle⟩

variable (hx : s.Satisfied x)

include hx

omit hclear in
theorem lt_sum_pull : s.tolerance <
    ∑ v ∈ Finset.range s.numVars, pull r w v * (x v - s.value v) := by
  obtain ⟨hr, hviolates, _⟩ := violatedRow?_eq_some h.chosen
  rw [hs.sum_pull hr w hx]
  exact hviolates.far_of_within (hin _ (hs.tidy.basic_lt r hr))

theorem exists_slight_of_stuck : ∃ v, v ≠ s.constant ∧ Slight r.coeffs v := by
  by_contra hnone
  push Not at hnone
  have hlt := lt_sum_pull hs h hin hx
  refine absurd (hs.tolerance_nonneg.trans_lt hlt) (not_lt.mpr (Finset.sum_nonpos fun v hv => ?_))
  exact pull_le_of_not_slight hs h hin hclear (Finset.mem_range.mp hv) (hnone v)

theorem tolerance_lt_of_stuck {c : ℕ → K} (hc : ∀ v, 0 ≤ c v)
    (hdist : ∀ v < s.numVars, (∀ q ∈ s.rows, q.basic ≠ v) → |x v - s.value v| ≤ c v) :
    s.tolerance < pivotFloor * ∑ v ∈ (Finset.range s.numVars).erase s.constant, c v := by
  have hterm : ∀ v ∈ Finset.range s.numVars, pull r w v * (x v - s.value v) ≤
      if v ≠ s.constant then pivotFloor * c v else 0 := by
    intro v hv
    have hlt := Finset.mem_range.mp hv
    by_cases hconst : v = s.constant
    · rw [if_neg (not_not_intro hconst)]
      exact pull_le_of_not_slight hs h hin hclear hlt fun hne => absurd hconst hne
    rw [if_pos hconst]
    have hnonneg := mul_nonneg (pivotFloor_pos (K := K)).le (hc v)
    by_cases hslight : Slight r.coeffs v
    · obtain ⟨hr, _, _⟩ := violatedRow?_eq_some h.chosen
      have hnb : ∀ q ∈ s.rows, q.basic ≠ v := by
        rintro q hq rfl
        exact hslight.1 (hs.tidy.solved r hr q hq)
      refine (le_abs_self _).trans ?_
      rw [abs_mul, abs_pull]
      exact mul_le_mul hslight.2 (hdist v hlt hnb) (abs_nonneg _) pivotFloor_pos.le
    · exact (pull_le_of_not_slight hs h hin hclear hlt fun _ => hslight).trans hnonneg
  refine (lt_sum_pull hs h hin hx).trans_le ((Finset.sum_le_sum hterm).trans_eq ?_)
  rw [← Finset.sum_filter, Finset.filter_ne', Finset.mul_sum]

end

section

variable {s : Simplex K} (hs : s.Tidy) {e : Equality K} (he : e.1.length = s.numVars)
  (h : s.Discards e) (htol : 0 ≤ s.tolerance) (hc : s.constant < s.numVars) {x : ℕ → K}
  (hx : s.Satisfied x) (heq : combination e.1 x = 0) (hone : x s.constant = 1)

include hs he h hc hx heq hone

omit [IsStrictOrderedRing K] h in
theorem getD_constant_of_discards : (reduce s.rows e.1).getD s.constant 0 =
    -∑ v ∈ (Finset.range s.numVars).erase s.constant, (reduce s.rows e.1).getD v 0 * x v := by
  have hzero := combination_reduce hs.length hs.basic_lt hx he
  rw [heq, combination_eq_sum (length_reduce hs.length he),
    ← Finset.add_sum_erase _ _ (Finset.mem_range.mpr hc), hone, mul_one] at hzero
  exact eq_neg_of_add_eq_zero_left hzero

theorem tolerance_lt_of_discards : s.tolerance <
    pivotFloor * ∑ v ∈ (Finset.range s.numVars).erase s.constant, |x v| := by
  refine h.2.trans_le ?_
  rw [getD_constant_of_discards hs he hc hx heq hone, abs_neg, Finset.mul_sum]
  refine (Finset.abs_sum_le_sum_abs _ _).trans (Finset.sum_le_sum fun v hv => ?_)
  obtain ⟨hne, hlt⟩ := Finset.mem_erase.mp hv
  rw [abs_mul]
  exact mul_le_mul_of_nonneg_right
    (abs_getD_reduce_le hs he h.1 (Finset.mem_range.mp hlt) hne) (abs_nonneg (x v))

include htol

theorem exists_slight_of_discards :
    ∃ v, v ≠ s.constant ∧ Slight (reduce s.rows e.1) v := by
  by_contra hnone
  push Not at hnone
  have hvanish : ∀ v ∈ (Finset.range s.numVars).erase s.constant,
      (reduce s.rows e.1).getD v 0 * x v = 0 := by
    intro v hv
    obtain ⟨hne, hlt⟩ := Finset.mem_erase.mp hv
    have hle := abs_getD_reduce_le hs he h.1 (Finset.mem_range.mp hlt) hne
    have hzero : (reduce s.rows e.1).getD v 0 = 0 := by
      by_contra hv0
      exact hnone v hne ⟨hv0, hle⟩
    rw [hzero, zero_mul]
  have hlt := h.2
  rw [getD_constant_of_discards hs he hc hx heq hone, Finset.sum_eq_zero hvanish, neg_zero,
    abs_zero] at hlt
  exact absurd hlt (not_lt.mpr htol)

end

theorem eq_one_of_inside {constant : ℕ} {bounds : List (Bounds K)} (hlt : constant < bounds.length)
    (hpin : bounds[constant]?.getD Bounds.free = Bounds.point 1) {x : ℕ → K}
    (hin : Bounds.Inside bounds 0 x) : x constant = 1 := by
  have hwithin := hin constant hlt
  rw [hpin] at hwithin
  exact Bounds.within_point.mp hwithin

theorem contradictory_ofBounds_of_inside {constant : ℕ} {bounds : List (Bounds K)} {tolerance : K}
    (htol : 0 ≤ tolerance) {x : ℕ → K} (hin : Bounds.Inside bounds 0 x) :
    (ofBounds constant bounds tolerance).contradictory = false :=
  contradictory_ofBounds.mpr fun v hv => Bounds.crossed_eq_false_of_within htol (hin v hv)

-- an answer that rests on a coefficient which is not zero, yet too small to be a pivot
inductive Neglects (constant : ℕ) (bounds : List (Bounds K)) (tolerance : K)
    (equalities : List (Equality K)) : Prop
  | equality {before after : List (Equality K)} {e : Equality K} {v : ℕ}
      (hsplit : equalities = before ++ e :: after)
      (hdiscards : (assembled constant bounds tolerance before).Discards e) (hv : v ≠ constant)
      (hslight : Slight (reduce (assembled constant bounds tolerance before).rows e.1) v) :
      Neglects constant bounds tolerance equalities
  | row {t : Simplex K} {r : Row K} {w : Violation K} {v : ℕ}
      (hreach : ReflTransGen Turn (assembled constant bounds tolerance equalities).start t)
      (hstuck : t.Stuck r w) (hv : v ≠ constant) (hslight : Slight r.coeffs v) :
      Neglects constant bounds tolerance equalities

section

variable {constant : ℕ} {bounds : List (Bounds K)} {tolerance : K}
  {equalities : List (Equality K)} (hlen : ∀ e ∈ equalities, e.1.length = bounds.length)
  (htol : 0 ≤ tolerance) (hlt : constant < bounds.length)
  (hpin : bounds[constant]?.getD Bounds.free = Bounds.point 1) {x : ℕ → K}
  (hx : ∀ e ∈ equalities, combination e.1 x = 0) (hin : Bounds.Inside bounds 0 x) {c : ℕ → K}

include hlen htol hlt hx

theorem exists_slight_of_split (hone : x constant = 1) {before after : List (Equality K)}
    {e : Equality K} (hsplit : equalities = before ++ e :: after)
    (h : (assembled constant bounds tolerance before).Discards e) :
    (∃ v, v ≠ constant ∧ Slight (reduce (assembled constant bounds tolerance before).rows e.1) v) ∧
      tolerance < pivotFloor * ∑ v ∈ (Finset.range bounds.length).erase constant, |x v| := by
  have he : e ∈ equalities := hsplit ▸ List.mem_append_right _ List.mem_cons_self
  have hbefore : ∀ f ∈ before, f ∈ equalities := fun f hf => hsplit ▸ List.mem_append_left _ hf
  have htidy : (assembled constant bounds tolerance before).Tidy := tidy_prefix hlen hsplit
  have hsat : (assembled constant bounds tolerance before).Satisfied x :=
    satisfied_assembled (fun f hf => hlen f (hbefore f hf)) fun f hf => hx f (hbefore f hf)
  have hel : e.1.length = (assembled constant bounds tolerance before).numVars :=
    length_of_split hlen hsplit
  have hc : (assembled constant bounds tolerance before).constant <
      (assembled constant bounds tolerance before).numVars := by
    rwa [constant_assembled, numVars_assembled]
  have hslight := exists_slight_of_discards htidy hel h (by simpa using htol) hc hsat
    (hx e he) (by simpa using hone)
  have hbound := tolerance_lt_of_discards htidy hel h hc hsat (hx e he) (by simpa using hone)
  exact ⟨by simpa using hslight, by simpa using hbound⟩

theorem neglects_of_discards (hone : x constant = 1) {before after : List (Equality K)}
    {e : Equality K} (hsplit : equalities = before ++ e :: after)
    (h : (assembled constant bounds tolerance before).Discards e) :
    Neglects constant bounds tolerance equalities ∧
      tolerance < pivotFloor * ∑ v ∈ (Finset.range bounds.length).erase constant, |x v| := by
  obtain ⟨⟨v, hv, hslight⟩, hbound⟩ := exists_slight_of_split hlen htol hlt hx hone hsplit h
  exact ⟨.equality hsplit h hv hslight, hbound⟩

include hpin hin

omit hlt in
theorem neglects_of_stuck
    (hroomy : ∀ v < bounds.length, (bounds[v]?.getD Bounds.free).Roomy tolerance)
    (hstop : ∀ v < bounds.length, ∀ y, (bounds[v]?.getD Bounds.free).Stop y → |y| ≤ c v)
    (hc : ∀ v, 0 ≤ c v) {t : Simplex K}
    (hreach : ReflTransGen Turn (assembled constant bounds tolerance equalities).start t)
    (hstep : t.step = .inl .infeasible) : Neglects constant bounds tolerance equalities ∧
      tolerance <
        pivotFloor * ∑ v ∈ (Finset.range bounds.length).erase constant, (|x v| + c v) := by
  obtain ⟨hs, hreached⟩ := (settled_assembled hlen htol ⟨1, hpin⟩).reaches hreach
  have hsame := (sameSystem_start _).trans hreached
  have hnum : t.numVars = bounds.length := by rw [hsame.numVars, numVars_assembled]
  have hbounds : ∀ v, t.boundsOf v = bounds[v]?.getD Bounds.free := fun v => by
    rw [hsame.boundsOf, boundsOf_assembled]
  have htolerance : t.tolerance = tolerance := by rw [hsame.tolerance, tolerance_assembled]
  have hconstant : t.constant = constant := by rw [hsame.constant, constant_assembled]
  have hsat : t.Satisfied x := (hsame.satisfied x).mpr (satisfied_assembled hlen hx)
  have hwithin : ∀ v < t.numVars, (t.boundsOf v).Within 0 (x v) := fun v hv => by
    rw [hbounds]
    exact hin v (hnum ▸ hv)
  have hstops : ∀ v < t.numVars, (∀ q ∈ t.rows, q.basic ≠ v) →
      (t.boundsOf v).Clear t.tolerance (t.value v) ∧ |t.value v| ≤ c v := by
    intro v hv hnb
    have hrest := (hs.resting v hv hnb).stop (hwithin v hv)
    rw [htolerance]
    rw [hbounds] at hrest ⊢
    exact ⟨hrest.clear (hroomy v (hnum ▸ hv)), hstop v (hnum ▸ hv) _ hrest⟩
  have hclear := fun v hv hnb => (hstops v hv hnb).1
  obtain ⟨r, w, hstuck⟩ := exists_stuck hstep
  obtain ⟨v, hv, hslight⟩ := exists_slight_of_stuck hs hstuck hwithin hclear hsat
  have hbound := tolerance_lt_of_stuck hs hstuck hwithin hclear hsat
    (c := fun v => |x v| + c v) (fun v => add_nonneg (abs_nonneg _) (hc v)) fun v hv hnb =>
      (abs_sub _ _).trans (add_le_add le_rfl (hstops v hv hnb).2)
  rw [htolerance, hnum, hconstant] at hbound
  exact ⟨.row hreach hstuck (hconstant ▸ hv) hslight, hbound⟩

theorem neglects_of_infeasible
    (hroomy : ∀ v < bounds.length, (bounds[v]?.getD Bounds.free).Roomy tolerance)
    (hstop : ∀ v < bounds.length, ∀ y, (bounds[v]?.getD Bounds.free).Stop y → |y| ≤ c v)
    (hc : ∀ v, 0 ≤ c v) {tripped : ℕ → Bool} {budget : ℕ} {d : Decision K}
    (h : (assembled constant bounds tolerance equalities).check tripped budget = some d)
    (hd : d.answer = .infeasible) : Neglects constant bounds tolerance equalities ∧
      tolerance <
        pivotFloor * ∑ v ∈ (Finset.range bounds.length).erase constant, (|x v| + c v) := by
  have hone := eq_one_of_inside hlt hpin hin
  rcases check_infeasible h hd with hcon | ⟨t, hreach, hstep⟩
  · rcases exists_discards hcon with hcross | ⟨before, e, after, hsplit, hdiscards⟩
    · rw [contradictory_ofBounds_of_inside htol hin] at hcross
      cases hcross
    · obtain ⟨hneglects, hbound⟩ := neglects_of_discards hlen htol hlt hx hone hsplit hdiscards
      refine ⟨hneglects, hbound.trans_le (mul_le_mul_of_nonneg_left ?_ pivotFloor_pos.le)⟩
      exact Finset.sum_le_sum fun v _ => le_add_of_nonneg_right (hc v)
  · exact neglects_of_stuck hlen htol hpin hx hin hroomy hstop hc hreach hstep

end

end Simplex

end ReluVerify
