import ReluVerify.Proofs.Simplex.Recurrence

namespace ReluVerify

variable {K : Type} [Field K] [LinearOrder K] [IsStrictOrderedRing K]

theorem exists_last {p : ℕ → Prop} {a i : ℕ} (hai : a < i) (ha : p a) (hi : ¬ p i) :
    ∃ k < i, p k ∧ ∀ m, k < m → m ≤ i → ¬ p m := by
  induction i, hai using Nat.le_induction with
  | base => exact ⟨a, Nat.lt_succ_self a, ha, fun m hm hm' => by
      have : m = a + 1 := by omega
      exact this ▸ hi⟩
  | succ i hle ih =>
    by_cases hp : p i
    · refine ⟨i, Nat.lt_succ_self i, hp, fun m hm hm' => ?_⟩
      have : m = i + 1 := by omega
      exact this ▸ hi
    · obtain ⟨k, hki, hk, hall⟩ := ih hp
      refine ⟨k, hki.trans (Nat.lt_succ_self i), hk, fun m hm hm' => ?_⟩
      rcases Nat.lt_or_ge i m with h | h
      · have : m = i + 1 := by omega
        exact this ▸ hi
      · exact hall m hm h

namespace Simplex

open Relation

def OnBound (b : Bounds K) (x : K) : Prop := b.lower = some x ∨ b.upper = some x

def Wide (tolerance : K) (b : Bounds K) : Prop :=
  ∀ l u, b.lower = some l → b.upper = some u → l + tolerance < u

theorem OnBound.within {b : Bounds K} {tolerance x : K} (h : OnBound b x) (hb : Wide tolerance b)
    (htol : 0 ≤ tolerance) : b.Within 0 x := by
  rcases h with h | h
  · refine ⟨fun l hl => ?_, fun u hu => ?_⟩
    · rw [h] at hl
      cases hl
      linarith
    · have := hb x u h hu
      linarith
  · refine ⟨fun l hl => ?_, fun u hu => ?_⟩
    · have := hb l x hl h
      linarith
    · rw [h] at hu
      cases hu
      linarith

theorem OnBound.clear {b : Bounds K} {tolerance x : K} (h : OnBound b x) (hb : Wide tolerance b) :
    b.Clear tolerance x := by
  refine ⟨fun u hu hle => ?_, fun l hl hle => ?_⟩
  · rcases h with h | h
    · have := hb x u h hu
      linarith
    · rw [h] at hu
      exact Option.some.inj hu
  · rcases h with h | h
    · rw [h] at hl
      exact Option.some.inj hl
    · have := hb l x hl h
      linarith

section

variable {f : ℕ → Simplex K} {period : ℕ} {rowAt : ℕ → Row K} {violationAt : ℕ → Violation K}
  {enteringAt : ℕ → ℕ} (hc : Cycle f period)
  (hex : ∀ i, Exchange (f i) (f (i + 1)) (rowAt i) (violationAt i) (enteringAt i))

omit [IsStrictOrderedRing K] in
theorem Cycle.periodic_mul {f : ℕ → Simplex K} {period : ℕ} (hc : Cycle f period) (i m : ℕ) :
    f (i + m * period) = f i := by
  induction m with
  | zero => rw [Nat.zero_mul, Nat.add_zero]
  | succ m ih => rw [Nat.succ_mul, ← Nat.add_assoc, hc.periodic, ih]

theorem Cycle.sameSystem {f : ℕ → Simplex K} {period : ℕ} (hc : Cycle f period) (i k : ℕ) :
    SameSystem (f i) (f k) := by
  have hle : i ≤ k + i * period := by
    have := Nat.le_mul_of_pos_right i hc.pos
    omega
  obtain ⟨m, hm⟩ := Nat.exists_eq_add_of_le hle
  have hreach := hc.reaches i m
  rw [← hm, hc.periodic_mul] at hreach
  exact ((hc.settled i).reaches hreach).2

def BasicAt (f : ℕ → Simplex K) (v i : ℕ) : Prop := ∃ q ∈ (f i).rows, q.basic = v

def Fickle (f : ℕ → Simplex K) (v : ℕ) : Prop := (∃ i, BasicAt f v i) ∧ ∃ i, ¬ BasicAt f v i

include hc hex

omit [IsStrictOrderedRing K] in
theorem basicAt_succ {v i : ℕ} :
    BasicAt f v (i + 1) ↔ v = enteringAt i ∨ v ≠ (rowAt i).basic ∧ BasicAt f v i :=
  (hex i).mem_basic_iff (hc.settled i)

omit [IsStrictOrderedRing K] hc in
theorem not_basicAt_entering (i : ℕ) : ¬ BasicAt f (enteringAt i) i := by
  rintro ⟨q, hq, he⟩
  exact (hex i).entering_nonbasic q hq he

omit [IsStrictOrderedRing K] in
theorem fickle_entering (i : ℕ) : Fickle f (enteringAt i) :=
  ⟨⟨i + 1, (basicAt_succ hc hex).mpr (Or.inl rfl)⟩, i, not_basicAt_entering hex i⟩

omit [IsStrictOrderedRing K] in
theorem fickle_leaving (i : ℕ) : Fickle f (rowAt i).basic := by
  refine ⟨⟨i, rowAt i, (hex i).mem, rfl⟩, i + 1, fun hb => ?_⟩
  rcases (basicAt_succ hc hex).mp hb with he | ⟨hne, _⟩
  · exact (hex i).entering_nonbasic _ (hex i).mem he
  · exact hne rfl

omit hex in
theorem fickle_lt {v : ℕ} (hv : Fickle f v) (i : ℕ) : v < (f i).numVars := by
  obtain ⟨⟨k, q, hq, rfl⟩, _⟩ := hv
  rw [(hc.sameSystem k i).numVars]
  exact (hc.settled k).tidy.basic_lt q hq

theorem value_succ_of_nonbasic {v i : ℕ} (hv : v < (f i).numVars) (hi : ¬ BasicAt f v i)
    (hi' : ¬ BasicAt f v (i + 1)) : (f (i + 1)).value v = (f i).value v := by
  have hne : v ≠ enteringAt i := fun he => hi' ((basicAt_succ hc hex).mpr (Or.inl he))
  exact (hex i).value_nonbasic (hc.settled i) hv hne fun q hq he => hi ⟨q, hq, he⟩

-- a variable outside the basis still has the value with which it last left
theorem exists_leaving {v i : ℕ} (hv : Fickle f v) (hi : ¬ BasicAt f v i) :
    ∃ k, (rowAt k).basic = v ∧ (f i).value v = (violationAt k).target := by
  obtain ⟨a, ha⟩ := hv.1
  have hlate : a < i + (a + 1) * period := by
    have := Nat.le_mul_of_pos_right (a + 1) hc.pos
    omega
  have hi' : ¬ BasicAt f v (i + (a + 1) * period) := by
    rwa [BasicAt, hc.periodic_mul]
  obtain ⟨k, hki, hk, hafter⟩ := exists_last hlate ha hi'
  have hleave : (rowAt k).basic = v := by
    by_contra hne
    exact hafter (k + 1) (Nat.lt_succ_self k) hki
      ((basicAt_succ hc hex).mpr (Or.inr ⟨Ne.symm hne, hk⟩))
  refine ⟨k, hleave, ?_⟩
  have hkept : ∀ m, k + 1 ≤ m → m ≤ i + (a + 1) * period →
      (f m).value v = (violationAt k).target := by
    intro m hm
    induction m, hm using Nat.le_induction with
    | base =>
      intro _
      rw [← hleave]
      exact (hex k).value_leaving (hc.settled k)
    | succ m hm ih =>
      intro hle
      rw [value_succ_of_nonbasic hc hex (fickle_lt hc hv m)
        (hafter m hm (by omega)) (hafter (m + 1) (by omega) hle), ih (by omega)]
  have hval := hkept _ hki le_rfl
  rwa [hc.periodic_mul] at hval

theorem onBound_of_nonbasic {v i : ℕ} (hv : Fickle f v) (hi : ¬ BasicAt f v i) :
    OnBound ((f i).boundsOf v) ((f i).value v) := by
  obtain ⟨k, hk, hval⟩ := exists_leaving hc hex hv hi
  have hbound := (hex k).violates.bound
  rw [hk, (hc.sameSystem i k).boundsOf, ← hval] at hbound
  split at hbound
  · exact Or.inl hbound
  · exact Or.inr hbound

omit [IsStrictOrderedRing K] in
theorem exists_entering {v : ℕ} (hv : Fickle f v) : ∃ k, enteringAt k = v := by
  obtain ⟨⟨b, hb⟩, a, ha⟩ := hv
  have hlate : a < b + (a + 1) * period := by
    have := Nat.le_mul_of_pos_right (a + 1) hc.pos
    omega
  have hb' : ¬ ¬ BasicAt f v (b + (a + 1) * period) := by
    rw [BasicAt, hc.periodic_mul]
    exact not_not_intro hb
  obtain ⟨k, hki, hk, hafter⟩ := exists_last (p := fun m => ¬ BasicAt f v m) hlate ha hb'
  have hnext := not_not.mp (hafter (k + 1) (Nat.lt_succ_self k) hki)
  rcases (basicAt_succ hc hex).mp hnext with he | ⟨_, hbk⟩
  · exact ⟨k, he.symm⟩
  · exact absurd hbk hk

theorem wide_of_fickle {v : ℕ} (hv : Fickle f v) (i : ℕ) :
    Wide (f i).tolerance ((f i).boundsOf v) := by
  obtain ⟨k, rfl⟩ := exists_entering hc hex hv
  have hsame := hc.sameSystem i k
  have htol := (hc.settled k).tolerance_nonneg
  rw [← hsame.tolerance, ← hsame.boundsOf]
  intro l u hl hu
  have hon := onBound_of_nonbasic hc hex hv (not_basicAt_entering hex k)
  rcases (canMove_iff.mp (hex k).canMove).2 with ⟨_, hinc⟩ | ⟨_, hdec⟩
  · have hlt := canIncrease_iff.mp hinc u hu
    rcases hon with h | h
    · rw [h] at hl
      cases hl
      linarith
    · rw [h] at hu
      cases hu
      linarith
  · have hlt := canDecrease_iff.mp hdec l hl
    rcases hon with h | h
    · rw [h] at hl
      cases hl
      linarith
    · rw [h] at hu
      cases hu
      linarith

theorem value_of_not_fickle {v i : ℕ} (hlt : v < (f i).numVars) (hv : ¬ Fickle f v)
    (hi : ¬ BasicAt f v i) (k : ℕ) : (f k).value v = (f i).value v := by
  have hnever : ∀ m, ¬ BasicAt f v m := fun m hm => hv ⟨⟨m, hm⟩, i, hi⟩
  have hkept : ∀ m, (f (i + m)).value v = (f i).value v := by
    intro m
    induction m with
    | zero => rfl
    | succ m ih =>
      rw [← Nat.add_assoc, value_succ_of_nonbasic hc hex
        (by rwa [(hc.sameSystem i (i + m)).numVars]) (hnever _) (hnever _), ih]
  have hle : i ≤ k + i * period := by
    have := Nat.le_mul_of_pos_right i hc.pos
    omega
  obtain ⟨m, hm⟩ := Nat.exists_eq_add_of_le hle
  have hval := hkept m
  rwa [← hm, hc.periodic_mul] at hval

theorem exists_largest_fickle : ∃ i, ∀ v, Fickle f v → v ≤ enteringAt i := by
  classical
  let fickle := (Finset.range (f 0).numVars).filter (Fickle f)
  have hmem : ∀ {v}, Fickle f v → v ∈ fickle := fun hv =>
    Finset.mem_filter.mpr ⟨Finset.mem_range.mpr (fickle_lt hc hv 0), hv⟩
  have hne : fickle.Nonempty := ⟨enteringAt 0, hmem (fickle_entering hc hex 0)⟩
  obtain ⟨i, hi⟩ := exists_entering hc hex (Finset.mem_filter.mp (fickle.max'_mem hne)).2
  exact ⟨i, fun v hv => hi ▸ fickle.le_max' v (hmem hv)⟩

end

structure Sharp (s : Simplex K) : Prop where
  bounds : ∀ q ∈ s.rows, (s.boundsOf q.basic).Within s.tolerance (s.value q.basic) →
    (s.boundsOf q.basic).Within 0 (s.value q.basic)
  coeffs : ∀ r w, s.violatedRow? = some (r, w) → ∀ v, r.coeffs.getD v 0 ≠ 0 →
    pivotFloor < |r.coeffs.getD v 0|

theorem pull_nonpos_of_reentry {s t : Simplex K} {r : Row K} {w u : Violation K} {v : ℕ}
    (hsame : SameSystem s t) (htol : 0 ≤ s.tolerance) (hmove : s.canMove r w.increase v = true)
    (hleft : t.Violates v u) (hvalue : s.value v = u.target) :
    pull r w v * (t.value v - s.value v) ≤ 0 := by
  have hbound := hleft.bound
  have hfar := hleft.far
  rw [hsame.boundsOf, ← hvalue] at hbound
  rw [hsame.tolerance, ← hvalue] at hfar
  unfold Violation.sign at hfar
  rcases (canMove_iff.mp hmove).2 with ⟨hpos, hinc⟩ | ⟨hneg, hdec⟩
  · split at hbound
    · rename_i hu
      simp only [hu, if_true] at hfar
      exact mul_nonpos_of_nonneg_of_nonpos hpos.le (by linarith)
    · have := canIncrease_iff.mp hinc _ hbound
      linarith
  · split at hbound
    · have := canDecrease_iff.mp hdec _ hbound
      linarith
    · rename_i hu
      simp only [hu] at hfar
      norm_num at hfar
      exact mul_nonpos_of_nonpos_of_nonneg hneg.le (by linarith)

-- Two states of the cycle are compared: where the largest fickle variable enters, and where it had
-- left before. Between them no variable of the row that is repaired has moved the right way.
theorem Cycle.not_sharp {f : ℕ → Simplex K} {period : ℕ} (hc : Cycle f period) :
    ∃ i, ¬ (f i).Sharp := by
  by_contra hsharp
  push Not at hsharp
  choose rowAt violationAt enteringAt hex using fun i => (hc.turn i).exchange
  obtain ⟨i, hlargest⟩ := exists_largest_fickle hc hex
  obtain ⟨k, hleave, hvalue⟩ :=
    exists_leaving hc hex (fickle_entering hc hex i) (not_basicAt_entering hex i)
  have hsame := hc.sameSystem i k
  have htol := (hc.settled i).tolerance_nonneg
  have hbelow : ∀ v, Fickle f v → v ≠ enteringAt i →
      ((f i).boundsOf v).Within 0 ((f k).value v) := by
    intro v hv hne
    by_cases hb : BasicAt f v k
    · obtain ⟨q, hq, rfl⟩ := hb
      have hlt : q.basic < (rowAt k).basic := by
        rw [hleave]
        exact lt_of_le_of_ne (hlargest _ hv) hne
      have hin := (hsharp k).bounds q hq ((hex k).least q hq hlt)
      rwa [hsame.boundsOf] at hin
    · have hon := onBound_of_nonbasic hc hex hv hb
      rw [hsame.boundsOf] at hon
      exact hon.within (wide_of_fickle hc hex hv i) htol
  have hsum := (hc.settled i).sum_pull (hex i).mem (violationAt i)
    ((hsame.satisfied _).mp (hc.settled k).consistent)
  have hrepaired : 0 < (violationAt i).sign *
      ((f k).value (rowAt i).basic - (f i).value (rowAt i).basic) := by
    refine htol.trans_lt ((hex i).violates.far_of_within (hbelow _ (fickle_leaving hc hex i) ?_))
    exact (hex i).entering_nonbasic _ (hex i).mem
  refine absurd hsum (ne_of_lt (lt_of_le_of_lt (Finset.sum_nonpos fun v hv => ?_) hrepaired))
  have hlt := Finset.mem_range.mp hv
  by_cases hb : BasicAt f v i
  · obtain ⟨q, hq, rfl⟩ := hb
    rw [pull, (hc.settled i).tidy.solved _ (hex i).mem q hq, mul_zero, zero_mul]
  by_cases hfickle : Fickle f v
  · by_cases hne : v = enteringAt i
    · subst hne
      refine pull_nonpos_of_reentry hsame htol (hex i).canMove ?_ hvalue
      rw [← hleave]
      exact (hex k).violates
    · have hclear := (onBound_of_nonbasic hc hex hfickle hb).clear
        (wide_of_fickle hc hex hfickle i)
      refine pull_le_of_stuck hclear (fun hpull => ?_) ?_ (hbelow v hfickle hne)
      · rw [abs_pull]
        exact (hsharp i).coeffs _ _ (hex i).chosen v (pull_ne_zero.mp hpull)
      refine (hex i).first v (lt_of_le_of_ne (hlargest v hfickle) hne) fun q hq he => ?_
      exact hb ⟨q, hq, he⟩
  · rw [value_of_not_fickle hc hex hlt hfickle hb k, sub_self, mul_zero]

theorem run_decides_of_sharp {s : Simplex K} (hs : s.Settled)
    (h : ∀ t, ReflTransGen Turn s t → t.Sharp) {quiet : ℕ → Bool} (hquiet : ∀ k, quiet k = false)
    (pivots : ℕ) : ∃ budget d, run quiet budget pivots s = some d := by
  by_contra hnone
  push Not at hnone
  obtain ⟨f, period, hc, hreach⟩ := exists_cycle hs hquiet fun budget =>
    Option.eq_none_iff_forall_ne_some.mpr (hnone budget)
  obtain ⟨i, hi⟩ := hc.not_sharp
  refine hi (h _ (hreach.trans ?_))
  simpa using hc.reaches 0 i

end Simplex

end ReluVerify
