import ReluVerify.Proofs.Simplex.Polling
import ReluVerify.Proofs.Simplex.Turn

namespace ReluVerify

variable {K : Type} [Field K] [LinearOrder K]

namespace Simplex

open Relation

def Turn (s t : Simplex K) : Prop := s.step = .inr t

structure Settled (s : Simplex K) : Prop where
  tidy : s.Tidy
  values_length : s.values.length = s.numVars
  tolerance_nonneg : 0 ≤ s.tolerance
  pinned : ∃ c, s.boundsOf s.constant = Bounds.point c
  consistent : s.Satisfied s.value
  resting : ∀ v < s.numVars, (∀ q ∈ s.rows, q.basic ≠ v) → (s.boundsOf v).Rest (s.value v)

structure SameSystem (s t : Simplex K) : Prop where
  bounds : t.bounds = s.bounds
  constant : t.constant = s.constant
  tolerance : t.tolerance = s.tolerance
  contradictory : t.contradictory = s.contradictory
  size : t.rows.length = s.rows.length
  satisfied : ∀ x, t.Satisfied x ↔ s.Satisfied x

omit [LinearOrder K] in
theorem SameSystem.refl (s : Simplex K) : SameSystem s s :=
  ⟨rfl, rfl, rfl, rfl, rfl, fun _ => Iff.rfl⟩

omit [LinearOrder K] in
theorem SameSystem.trans {s t u : Simplex K} (h : SameSystem s t) (h' : SameSystem t u) :
    SameSystem s u :=
  ⟨h'.bounds.trans h.bounds, h'.constant.trans h.constant, h'.tolerance.trans h.tolerance,
    h'.contradictory.trans h.contradictory, h'.size.trans h.size,
    fun x => (h'.satisfied x).trans (h.satisfied x)⟩

omit [LinearOrder K] in
theorem SameSystem.boundsOf {s t : Simplex K} (h : SameSystem s t) (v : ℕ) :
    t.boundsOf v = s.boundsOf v := by
  rw [Simplex.boundsOf, h.bounds, Simplex.boundsOf]

omit [LinearOrder K] in
theorem SameSystem.numVars {s t : Simplex K} (h : SameSystem s t) : t.numVars = s.numVars := by
  rw [Simplex.numVars, h.bounds, Simplex.numVars]

theorem Settled.value_constant {s : Simplex K} (hs : s.Settled) {c : K}
    (hc : s.boundsOf s.constant = Bounds.point c) (hlt : s.constant < s.numVars) :
    s.value s.constant = c := by
  have hrest := hs.resting s.constant hlt hs.tidy.basic_ne
  rw [hc] at hrest
  exact Bounds.rest_point hrest

theorem Settled.sum_pull {s : Simplex K} (hs : s.Settled) {r : Row K} (hr : r ∈ s.rows)
    (w : Violation K) {x : ℕ → K} (hx : s.Satisfied x) :
    ∑ j ∈ Finset.range s.numVars, pull r w j * (x j - s.value j) =
      w.sign * (x r.basic - s.value r.basic) := by
  have hnew : x r.basic = combination r.coeffs x := hx r hr
  have hold : s.value r.basic = combination r.coeffs s.value := hs.consistent r hr
  rw [hnew, hold, combination_sub, hs.tidy.length r hr, Finset.mul_sum]
  exact Finset.sum_congr rfl fun j _ => by rw [pull, mul_assoc]

theorem Settled.ne_constant_of_canMove [IsStrictOrderedRing K] {s : Simplex K} (hs : s.Settled)
    {v : ℕ} (hv : v < s.numVars) {r : Row K} {w : Violation K}
    (h : s.canMove r w.increase v = true) :
    v ≠ s.constant := by
  rintro rfl
  obtain ⟨c, hc⟩ := hs.pinned
  have hval := hs.value_constant hc hv
  have htol := hs.tolerance_nonneg
  rcases (canMove_iff.mp h).2 with ⟨_, hinc⟩ | ⟨_, hdec⟩
  · have hlt := canIncrease_iff.mp hinc c (by rw [hc]; rfl)
    linarith
  · have hlt := canDecrease_iff.mp hdec c (by rw [hc]; rfl)
    linarith

structure Exchange (s t : Simplex K) (r : Row K) (w : Violation K) (v : ℕ) : Prop where
  chosen : s.violatedRow? = some (r, w)
  mem : r ∈ s.rows
  violates : s.Violates r.basic w
  least : ∀ q ∈ s.rows, q.basic < r.basic →
    (s.boundsOf q.basic).Within s.tolerance (s.value q.basic)
  entering_lt : v < s.numVars
  entering_nonbasic : ∀ q ∈ s.rows, q.basic ≠ v
  canMove : s.canMove r w.increase v = true
  first : ∀ u < v, (∀ q ∈ s.rows, q.basic ≠ u) → s.canMove r w.increase u = false
  eq_pivot : t = s.pivot r v w.target

theorem Turn.exchange [IsStrictOrderedRing K] {s t : Simplex K} (h : Turn s t) :
    ∃ r w v, Exchange s t r w v := by
  obtain ⟨r, w, v, hr, hv, ht⟩ := step_eq_inr h
  obtain ⟨hmem, hviol, hleast⟩ := violatedRow?_eq_some hr
  obtain ⟨hlt, hnb, hmove, hfirst⟩ := entering?_eq_some hv
  exact ⟨r, w, v, hr, hmem, hviol, hleast, hlt, hnb, hmove, hfirst, ht⟩

theorem Exchange.coeff_ne_zero [IsStrictOrderedRing K] {s t : Simplex K} {r : Row K}
    {w : Violation K} {v : ℕ} (h : Exchange s t r w v) : r.coeffs.getD v 0 ≠ 0 := by
  have hfloor := (canMove_iff.mp h.canMove).1
  exact pull_ne_zero.mp (abs_pos.mp (pivotFloor_pos.trans hfloor))

theorem Exchange.mem_basic_iff {s t : Simplex K} {r : Row K} {w : Violation K} {v : ℕ}
    (hs : s.Settled) (h : Exchange s t r w v) {u : ℕ} :
    (∃ q ∈ t.rows, q.basic = u) ↔ u = v ∨ u ≠ r.basic ∧ ∃ q ∈ s.rows, q.basic = u := by
  rw [h.eq_pivot, rows_pivot]
  constructor
  · rintro ⟨q, hq, rfl⟩
    rcases (mem_exchangeRows hs.tidy h.mem).mp hq with rfl | ⟨p, hp, hne, rfl⟩
    · exact Or.inl rfl
    · exact Or.inr ⟨fun he => hne (hs.tidy.eq_of_basic hp h.mem he), p, hp, rfl⟩
  · rintro (rfl | ⟨hne, p, hp, rfl⟩)
    · exact ⟨_, (mem_exchangeRows hs.tidy h.mem).mpr (Or.inl rfl), rfl⟩
    · exact ⟨_, (mem_exchangeRows hs.tidy h.mem).mpr
        (Or.inr ⟨p, hp, fun he => hne (he ▸ rfl), rfl⟩), rfl⟩

theorem Exchange.value_leaving {s t : Simplex K} {r : Row K} {w : Violation K} {v : ℕ}
    (hs : s.Settled) (h : Exchange s t r w v) : t.value r.basic = w.target := by
  rw [h.eq_pivot]
  exact value_pivot_leaving hs.tidy hs.values_length h.mem w.target

theorem Exchange.value_nonbasic [IsStrictOrderedRing K] {s t : Simplex K} {r : Row K}
    {w : Violation K} {v : ℕ} (hs : s.Settled) (h : Exchange s t r w v) {u : ℕ}
    (hu : u < s.numVars) (hne : u ≠ v) (hnb : ∀ q ∈ s.rows, q.basic ≠ u) :
    t.value u = s.value u := by
  rw [h.eq_pivot, value_pivot_nonbasic hs.values_length h.mem w.target hu hnb, if_neg hne]

theorem Exchange.sameSystem [IsStrictOrderedRing K] {s t : Simplex K} {r : Row K}
    {w : Violation K} {v : ℕ} (hs : s.Settled) (h : Exchange s t r w v) : SameSystem s t := by
  rw [h.eq_pivot]
  exact ⟨rfl, rfl, rfl, rfl, List.length_map _,
    fun x => satisfied_pivot hs.tidy h.mem h.entering_lt h.coeff_ne_zero⟩

theorem Exchange.settled [IsStrictOrderedRing K] {s t : Simplex K} {r : Row K} {w : Violation K}
    {v : ℕ} (hs : s.Settled) (h : Exchange s t r w v) : t.Settled := by
  have hsame := h.sameSystem hs
  have hconst := hs.ne_constant_of_canMove h.entering_lt h.canMove
  refine ⟨?_, ?_, ?_, ?_, ?_, ?_⟩
  · rw [h.eq_pivot]
    exact tidy_pivot hs.tidy h.mem h.entering_lt hconst h.entering_nonbasic w.target
  · rw [hsame.numVars, h.eq_pivot, length_values_pivot, hs.values_length]
  · rw [hsame.tolerance]
    exact hs.tolerance_nonneg
  · rw [hsame.constant, hsame.boundsOf]
    exact hs.pinned
  · rw [h.eq_pivot]
    exact satisfied_value_pivot hs.tidy hs.values_length h.mem h.entering_nonbasic w.target
      h.entering_lt h.coeff_ne_zero hs.consistent
  · intro u hu hnb
    rw [hsame.numVars] at hu
    rw [hsame.boundsOf]
    have huv : u ≠ v := by
      rintro rfl
      obtain ⟨q, hq, he⟩ := (h.mem_basic_iff hs).mpr (Or.inl rfl)
      exact hnb q hq he
    by_cases hur : u = r.basic
    · subst hur
      rw [h.value_leaving hs]
      have hbound := h.violates.bound
      split at hbound
      · exact Or.inl hbound
      · exact Or.inr (Or.inl hbound)
    · have hnb' : ∀ q ∈ s.rows, q.basic ≠ u := by
        intro q hq he
        obtain ⟨p, hp, hpu⟩ := (h.mem_basic_iff hs).mpr (Or.inr ⟨hur, q, hq, he⟩)
        exact hnb p hp hpu
      rw [h.value_nonbasic hs hu huv hnb']
      exact hs.resting u hu hnb'

theorem Settled.reaches [IsStrictOrderedRing K] {s t : Simplex K} (hs : s.Settled)
    (h : ReflTransGen Turn s t) :
    t.Settled ∧ SameSystem s t := by
  induction h with
  | refl => exact ⟨hs, SameSystem.refl s⟩
  | tail _ hturn ih =>
    obtain ⟨r, w, v, hex⟩ := Turn.exchange hturn
    exact ⟨hex.settled ih.1, ih.2.trans (hex.sameSystem ih.1)⟩

theorem settled_start {s : Simplex K} (hs : s.Tidy) (hlen : s.values.length = s.numVars)
    (htol : 0 ≤ s.tolerance) (hpin : ∃ c, s.boundsOf s.constant = Bounds.point c) :
    s.start.Settled where
  tidy := hs
  values_length := length_values_start hlen
  tolerance_nonneg := htol
  pinned := hpin
  consistent := satisfied_start hs hlen
  resting := fun _ hv hnb => Or.inr (Or.inr (value_start_nonbasic hlen hv hnb))

theorem sameSystem_start (s : Simplex K) : SameSystem s s.start :=
  ⟨rfl, rfl, rfl, rfl, rfl, fun _ => Iff.rfl⟩

theorem Settled.value_refreshed {s : Simplex K} (hs : s.Settled) {v : ℕ} (hv : v < s.numVars) :
    s.refreshed.value v = s.value v := by
  have hnb : ∀ u, (∀ q ∈ s.rows, q.basic ≠ u) → s.refreshed.value u = s.value u :=
    fun u hu => value_refreshed_nonbasic hu
  by_cases hb : ∃ q ∈ s.rows, q.basic = v
  · obtain ⟨q, hq, rfl⟩ := hb
    have hnew : s.refreshed.value q.basic = combination q.coeffs s.refreshed.value :=
      satisfied_refreshed hs.tidy hs.values_length q hq
    have hold : s.value q.basic = combination q.coeffs s.value := hs.consistent q hq
    rw [hnew, hold]
    refine combination_congr fun j _ hz => hnb j fun p hp hpj => hz ?_
    rw [← hpj]
    exact hs.tidy.solved q hq p hp
  · exact hnb v fun q hq he => hb ⟨q, hq, he⟩

structure Feasible (s : Simplex K) (values : List K) : Prop where
  length : values.length = s.numVars
  satisfied : s.Satisfied (fun v => values.getD v 0)
  within : ∀ v < s.numVars, (s.boundsOf v).Within s.tolerance (values.getD v 0)
  pinned : s.constant < s.numVars → ∀ c, s.boundsOf s.constant = Bounds.point c →
    values.getD s.constant 0 = c

theorem Settled.feasible [IsStrictOrderedRing K] {s : Simplex K} (hs : s.Settled)
    (hcross : ∀ v < s.numVars, crossed s.tolerance (s.boundsOf v) = false) {values : List K}
    (h : s.step = .inl (.feasible values)) : s.Feasible values := by
  obtain ⟨hnone, rfl⟩ := step_eq_feasible h
  refine ⟨?_, satisfied_refreshed hs.tidy hs.values_length, fun v hv => ?_, fun hlt c hc => ?_⟩
  · rw [values_refreshed, length_foldl_refresh, hs.values_length]
  · change (s.boundsOf v).Within s.tolerance (s.refreshed.value v)
    rw [hs.value_refreshed hv]
    by_cases hb : ∃ q ∈ s.rows, q.basic = v
    · obtain ⟨q, hq, rfl⟩ := hb
      exact violatedRow?_eq_none hnone q hq
    · exact (hs.resting v hv fun q hq he => hb ⟨q, hq, he⟩).within hs.tolerance_nonneg
        (hcross v hv)
  · exact (hs.value_refreshed hlt).trans (hs.value_constant hc hlt)

variable {tripped : ℕ → Bool} {budget pivots : ℕ}

theorem run_reaches {s : Simplex K} {d : Decision K} (h : run tripped budget pivots s = some d)
    (hd : d.answer ≠ .interrupted) : ∃ t, ReflTransGen Turn s t ∧ t.step = .inl d.answer := by
  fun_induction run tripped budget pivots s
  case case1 =>
    cases h
    exact absurd rfl hd
  case case2 hstep =>
    cases h
    exact ⟨_, .refl, hstep⟩
  case case3 => cases h
  case case4 hstep _ ih =>
    obtain ⟨t, hreach, ht⟩ := ih h
    exact ⟨t, .head hstep hreach, ht⟩

theorem exists_run_of_reaches {s t : Simplex K} (h : ReflTransGen Turn s t) {answer : Answer K}
    (ht : t.step = .inl answer) (hquiet : ∀ k, tripped k = false) (pivots : ℕ) :
    ∃ budget d, run tripped budget pivots s = some d := by
  induction h using ReflTransGen.head_induction_on generalizing pivots with
  | refl => exact ⟨0, _, run_of_answer (hquiet _) ht⟩
  | head hturn _ ih =>
    obtain ⟨budget, d, hd⟩ := ih (pivots + 1)
    exact ⟨budget + 1, d, (run_of_turn (hquiet _) hturn).trans hd⟩

end Simplex

end ReluVerify
