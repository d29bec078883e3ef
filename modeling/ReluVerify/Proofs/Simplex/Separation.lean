import ReluVerify.Proofs.Simplex.Infeasible
import ReluVerify.Proofs.Simplex.Recurrence

namespace ReluVerify

variable {K : Type} [Field K] [LinearOrder K] [IsStrictOrderedRing K]

namespace Bounds

-- a missing bound is infinitely far away
structure Separated (tolerance : K) (b : Bounds K) : Prop where
  apart : ∀ l u, b.lower = some l → b.upper = some u → l = u ∨ u < l ∨ l + tolerance < u
  astride : (∀ l, b.lower = some l → l < 0) → (∀ u, b.upper = some u → 0 < u) →
    (∀ l, b.lower = some l → tolerance < |l|) ∧ ∀ u, b.upper = some u → tolerance < |u|

variable {b : Bounds K} {tolerance : K}

theorem Separated.lt_of_lower (h : b.Separated tolerance) (hzero : b.Within 0 0) {l : K}
    (hl : b.lower = some l) (hneg : l < 0) : l + tolerance < 0 := by
  by_cases hupper : b.upper = some 0
  · rcases h.apart l 0 hl hupper with rfl | hlt | hlt
    · exact absurd hneg (lt_irrefl 0)
    · exact absurd hneg hlt.not_gt
    · exact hlt
  · have hpos : ∀ u, b.upper = some u → 0 < u := fun u hu => by
      have hle := hzero.2 u hu
      rw [add_zero] at hle
      exact lt_of_le_of_ne hle fun heq => hupper (heq ▸ hu)
    have hfar := (h.astride (fun l' hl' => by cases hl.symm.trans hl'; exact hneg) hpos).1 l hl
    rw [abs_of_neg hneg] at hfar
    linarith

theorem Separated.lt_of_upper (h : b.Separated tolerance) (hzero : b.Within 0 0) {u : K}
    (hu : b.upper = some u) (hpos : 0 < u) : tolerance < u := by
  by_cases hlower : b.lower = some 0
  · rcases h.apart 0 u hlower hu with rfl | hlt | hlt
    · exact absurd hpos (lt_irrefl 0)
    · exact absurd hpos hlt.not_gt
    · rwa [zero_add] at hlt
  · have hneg : ∀ l, b.lower = some l → l < 0 := fun l hl => by
      have hle := hzero.1 l hl
      rw [sub_zero] at hle
      exact lt_of_le_of_ne hle fun heq => hlower (heq ▸ hl)
    have hfar := (h.astride hneg fun u' hu' => by cases hu.symm.trans hu'; exact hpos).2 u hu
    rwa [abs_of_pos hpos] at hfar

omit [IsStrictOrderedRing K] in
theorem Stop.lower_or_zero {y z : K} (hy : b.Stop y) (hz : b.Within 0 z) (hlt : y < z) :
    b.lower = some y ∨ y = 0 := by
  rcases hy.1 with hl | hu | hzero
  · exact Or.inl hl
  · have hle := hz.2 y hu
    rw [add_zero] at hle
    exact absurd hlt hle.not_gt
  · exact Or.inr hzero

omit [IsStrictOrderedRing K] in
theorem Stop.upper_or_zero {y z : K} (hz : b.Stop z) (hy : b.Within 0 y) (hlt : y < z) :
    b.upper = some z ∨ z = 0 := by
  rcases hz.1 with hl | hu | hzero
  · have hle := hy.1 z hl
    rw [sub_zero] at hle
    exact absurd hlt hle.not_gt
  · exact Or.inl hu
  · exact Or.inr hzero

theorem Separated.roomy (h : b.Separated tolerance) : b.Roomy tolerance := by
  intro y z hy hz hlt
  rcases hy.lower_or_zero hz.2 hlt with hl | rfl <;> rcases hz.upper_or_zero hy.2 hlt with hu | rfl
  · rcases h.apart y z hl hu with rfl | hcross | hfar
    · exact absurd hlt (lt_irrefl y)
    · exact absurd hlt hcross.not_gt
    · exact hfar
  · exact h.lt_of_lower hz.2 hl hlt
  · rw [zero_add]
    exact h.lt_of_upper hy.2 hu hlt
  · exact absurd hlt (lt_irrefl 0)

end Bounds

namespace Simplex

open Relation

def Coarse (a : List K) : Prop := ∀ x ∈ a, x = 0 ∨ pivotFloor < |x|

instance (a : List K) : Decidable (Coarse a) :=
  inferInstanceAs (Decidable (∀ x ∈ a, x = 0 ∨ pivotFloor < |x|))

omit [IsStrictOrderedRing K] in
theorem Coarse.not_slight {a : List K} (h : Coarse a) (v : ℕ) : ¬ Slight a v := by
  rintro ⟨hne, hle⟩
  rcases lt_or_ge v a.length with hv | hv
  · rw [List.getD_eq_getElem _ _ hv] at hne hle
    rcases h _ (List.getElem_mem hv) with hzero | hlt
    · exact hne hzero
    · exact absurd hlt hle.not_gt
  · exact hne (List.getD_eq_default _ _ hv)

-- the coefficients that arise while the equalities are added, and in the run after them
structure CoarseRun (constant : ℕ) (bounds : List (Bounds K)) (tolerance : K)
    (equalities : List (Equality K)) : Prop where
  equality : ∀ before e after, equalities = before ++ e :: after →
    Coarse (reduce (assembled constant bounds tolerance before).rows e.1)
  row : (assembled constant bounds tolerance equalities).contradictory = false →
    ∀ t, ReflTransGen Turn (assembled constant bounds tolerance equalities).start t →
      ∀ r ∈ t.rows, Coarse r.coeffs

theorem not_satisfiable_of_infeasible {constant : ℕ} {bounds : List (Bounds K)} {tolerance : K}
    {equalities : List (Equality K)} (hlen : ∀ e ∈ equalities, e.1.length = bounds.length)
    (htol : 0 ≤ tolerance) (hlt : constant < bounds.length)
    (hpin : bounds[constant]?.getD Bounds.free = Bounds.point 1)
    (hseparated : ∀ b ∈ bounds, b.Separated tolerance)
    (hcoarse : CoarseRun constant bounds tolerance equalities) {tripped : ℕ → Bool} {budget : ℕ}
    {d : Decision K}
    (h : (assembled constant bounds tolerance equalities).check tripped budget = some d)
    (hd : d.answer = .infeasible) :
    ¬ ∃ x : ℕ → K, (∀ e ∈ equalities, combination e.1 x = 0) ∧ Bounds.Inside bounds 0 x := by
  rintro ⟨x, hx, hin⟩
  have hroomy : ∀ v < bounds.length, (bounds[v]?.getD Bounds.free).Roomy tolerance := by
    intro v hv
    rw [List.getElem?_eq_getElem hv]
    exact (hseparated _ (List.getElem_mem hv)).roomy
  cases hcon : (assembled constant bounds tolerance equalities).contradictory with
  | true =>
    rcases exists_discards hcon with hcross | ⟨before, e, after, hsplit, hdiscards⟩
    · rw [contradictory_ofBounds_of_inside htol hin] at hcross
      cases hcross
    · obtain ⟨⟨v, _, hslight⟩, _⟩ := exists_slight_of_split hlen htol hlt hx
        (eq_one_of_inside hlt hpin hin) hsplit hdiscards
      exact (hcoarse.equality before e after hsplit).not_slight v hslight
  | false =>
    obtain ⟨hneglects, _⟩ := neglects_of_infeasible hlen htol hlt hpin hx hin hroomy
      (fun v _ y hy => hy.abs_le_reach) (fun v => Bounds.reach_nonneg _) h hd
    cases hneglects with
    | equality hsplit _ _ hslight => exact (hcoarse.equality _ _ _ hsplit).not_slight _ hslight
    | row hreach hstuck _ hslight =>
      obtain ⟨hr, _, _⟩ := violatedRow?_eq_some hstuck.chosen
      exact (hcoarse.row hcon _ hreach _ hr).not_slight _ hslight

-- a sum of two variables that may not be larger than their bounds allow
def cappedBounds : List (Bounds ℚ) :=
  [⟨some 0, some 1⟩, ⟨some (-1), some 2⟩, ⟨some 5, none⟩, Bounds.point 1]

def cappedSum : List (Equality ℚ) := [([-1, -1, 1, 0], some 2)]

theorem separated_cappedBounds : ∀ b ∈ cappedBounds, b.Separated 1e-9 := by
  simp only [cappedBounds, List.forall_mem_cons, List.not_mem_nil, false_imp_iff, implies_true,
    and_true]
  refine ⟨⟨?_, ?_⟩, ⟨?_, ?_⟩, ⟨(fun _ _ _ hu => nomatch hu), ?_⟩, ?_, ?_⟩ <;>
    norm_num [Bounds.point]

theorem coarseRun_cappedSum : CoarseRun 3 cappedBounds 1e-9 cappedSum where
  equality := by
    rintro before e after hsplit
    obtain ⟨rfl, rfl, rfl⟩ : before = [] ∧ e = ([-1, -1, 1, 0], some 2) ∧ after = [] := by
      cases before with
      | nil => simpa [cappedSum, eq_comm] using hsplit
      | cons f before => simp [cappedSum] at hsplit
    decide +kernel
  row := by
    rintro - t ht r hr
    obtain ⟨k, hk, rfl⟩ := exists_le_iterate_of_reaches ht (n := 2) (by decide +kernel)
    have hall : ∀ k ≤ 2, ∀ r ∈ (next^[k] (assembled 3 cappedBounds 1e-9 cappedSum).start).rows,
        Coarse r.coeffs := by decide +kernel
    exact hall k hk r hr

theorem not_satisfiable_of_infeasible_capped : ∃ d,
    (assembled 3 cappedBounds 1e-9 cappedSum).check (fun _ => false) 2 = some d ∧ d.pivots = 2 ∧
      ¬ ∃ x : ℕ → ℚ, (∀ e ∈ cappedSum, combination e.1 x = 0) ∧
        Bounds.Inside cappedBounds 0 x := by
  have hrun : (assembled 3 cappedBounds 1e-9 cappedSum).check (fun _ => false) 2 =
      some ⟨.infeasible, 2⟩ := by decide +kernel
  exact ⟨_, hrun, rfl, not_satisfiable_of_infeasible (by decide) (by norm_num) (by decide) rfl
    separated_cappedBounds coarseRun_cappedSum hrun rfl⟩

end Simplex

end ReluVerify
