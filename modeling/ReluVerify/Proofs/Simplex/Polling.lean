import Mathlib.Data.Nat.Notation
import ReluVerify.Engine.Simplex

namespace ReluVerify

namespace Simplex

variable {α : Type} [Scalar α] {tripped : ℕ → Bool} {budget pivots : ℕ} {s : Simplex α}

theorem step_ne_interrupted (s : Simplex α) : s.step ≠ .inl .interrupted := by
  unfold step
  split
  · exact nofun
  · split <;> exact nofun

theorem run_of_answer {answer : Answer α} (hquiet : tripped pivots = false)
    (h : s.step = .inl answer) : run tripped budget pivots s = some ⟨answer, pivots⟩ := by
  cases budget <;> simp [run, hquiet, h]

theorem run_of_turn {t : Simplex α} (hquiet : tripped pivots = false) (h : s.step = .inr t) :
    run tripped (budget + 1) pivots s = run tripped budget (pivots + 1) t := by
  rw [run, h, hquiet]
  rfl

theorem exists_tripped_of_run {d : Decision α}
    (h : run tripped budget pivots s = some d) (hd : d.answer = .interrupted) :
    ∃ k, tripped k = true := by
  fun_induction run tripped budget pivots s
  case case1 ht => exact ⟨_, ht⟩
  case case2 hstep =>
    cases h
    cases hd
    exact absurd hstep (step_ne_interrupted _)
  case case3 => cases h
  case case4 _ ih => exact ih h

theorem run_mono {budget' : ℕ} {d : Decision α}
    (h : run tripped budget pivots s = some d) (hle : budget ≤ budget') :
    run tripped budget' pivots s = some d := by
  fun_induction run tripped budget pivots s generalizing budget'
  case case1 ht => cases budget' <;> simpa [run, ht] using h
  case case2 ht answer hstep => cases budget' <;> simpa [run, ht, hstep] using h
  case case3 => cases h
  case case4 ht next hstep budget ih =>
    obtain ⟨k, rfl⟩ := Nat.exists_eq_add_of_le' (Nat.one_le_of_lt hle)
    rw [run_of_turn (by simpa using ht) hstep]
    exact ih h (Nat.le_of_succ_le_succ hle)

-- A token that trips can only bring the end nearer.
theorem exists_run_of_quiet {quiet : ℕ → Bool} (hquiet : ∀ k, quiet k = false)
    {d : Decision α} (h : run quiet budget pivots s = some d) :
    ∃ d', run tripped budget pivots s = some d' := by
  fun_induction run quiet budget pivots s
  case case1 ht =>
    rw [hquiet] at ht
    cases ht
  case case2 pivots s _ answer hstep =>
    cases ht : tripped pivots with
    | true => exact ⟨⟨.interrupted, pivots⟩, by rw [run, ht, if_pos rfl]⟩
    | false => exact ⟨_, run_of_answer ht hstep⟩
  case case3 => cases h
  case case4 pivots s _ next hstep budget ih =>
    cases ht : tripped pivots with
    | true => exact ⟨⟨.interrupted, pivots⟩, by rw [run, ht, if_pos rfl]⟩
    | false =>
      rw [run_of_turn ht hstep]
      exact ih h

theorem check_of_contradictory (h : s.contradictory = true) :
    s.check tripped budget = some ⟨.infeasible, 0⟩ := by
  rw [check, if_pos h]

theorem check_of_not_contradictory (h : s.contradictory = false) :
    s.check tripped budget = run tripped budget 0 s.start := by
  rw [check, h]
  rfl

theorem exists_tripped_of_check {d : Decision α} (h : s.check tripped budget = some d)
    (hd : d.answer = .interrupted) : ∃ k, tripped k = true := by
  cases hc : s.contradictory with
  | true =>
    rw [check_of_contradictory hc] at h
    cases h
    cases hd
  | false =>
    rw [check_of_not_contradictory hc] at h
    exact exists_tripped_of_run h hd

theorem check_mono {budget' : ℕ} {d : Decision α} (h : s.check tripped budget = some d)
    (hle : budget ≤ budget') : s.check tripped budget' = some d := by
  cases hc : s.contradictory with
  | true =>
    rw [check_of_contradictory hc] at h ⊢
    exact h
  | false =>
    rw [check_of_not_contradictory hc] at h ⊢
    exact run_mono h hle

theorem exists_check_of_quiet {quiet : ℕ → Bool} (hquiet : ∀ k, quiet k = false)
    {d : Decision α} (h : s.check quiet budget = some d) :
    ∃ d', s.check tripped budget = some d' := by
  cases hc : s.contradictory with
  | true => exact ⟨_, check_of_contradictory hc⟩
  | false =>
    rw [check_of_not_contradictory hc] at h ⊢
    exact exists_run_of_quiet hquiet h

end Simplex

end ReluVerify
