import ReluVerify.Engine.Problem
import ReluVerify.Proofs.Exact

namespace ReluVerify.Bounds

variable {K : Type} [Field K] [LinearOrder K] [IsStrictOrderedRing K]

def Within (b : Bounds K) (tolerance x : K) : Prop :=
  (∀ l, b.lower = some l → l - tolerance ≤ x) ∧ ∀ u, b.upper = some u → x ≤ u + tolerance

theorem contains_iff {b : Bounds K} {tolerance x : K} :
    b.contains x tolerance = true ↔ b.Within tolerance x := by
  cases hl : b.lower <;> cases hu : b.upper <;> simp [contains, Within, hl, hu]

theorem within_free (tolerance x : K) : (free : Bounds K).Within tolerance x := by
  simp [Within, free]

theorem within_point {c x : K} : (point c).Within 0 x ↔ x = c := by
  constructor
  · intro h
    have hlow := h.1 c rfl
    have hupp := h.2 c rfl
    linarith
  · rintro rfl
    simp [Within, point]

theorem within_withLower {b : Bounds K} (hb : b.lower = none) {l t x : K} :
    (b.withLower l).Within t x ↔ b.Within t x ∧ l - t ≤ x := by
  simp [Within, withLower, hb, and_comm]

theorem within_withUpper {b : Bounds K} (hb : b.upper = none) {u t x : K} :
    (b.withUpper u).Within t x ↔ b.Within t x ∧ x ≤ u + t := by
  simp [Within, withUpper, hb]

theorem Within.mono {b : Bounds K} {s t x : K} (h : b.Within s x) (hst : s ≤ t) :
    b.Within t x := by
  refine ⟨fun l hl => ?_, fun u hu => ?_⟩
  · have := h.1 l hl
    linarith
  · have := h.2 u hu
    linarith

def Inside (bs : List (Bounds K)) (t : K) (x : ℕ → K) : Prop :=
  ∀ v < bs.length, (bs[v]?.getD free).Within t (x v)

def Rest (b : Bounds K) (x : K) : Prop :=
  b.lower = some x ∨ b.upper = some x ∨ x = Simplex.startValue b

omit [IsStrictOrderedRing K] in
theorem startValue_cases (b : Bounds K) :
    Simplex.startValue b = 0 ∨ b.lower = some (Simplex.startValue b) ∨
      b.upper = some (Simplex.startValue b) := by
  obtain ⟨lower, upper⟩ := b
  have hraised : (lower.elim 0 (Scalar.larger 0) : K) = 0 ∨
      lower = some (lower.elim 0 (Scalar.larger 0)) := by
    cases lower with
    | none => exact Or.inl rfl
    | some l => rcases max_choice 0 l with h | h <;> simp [h]
  cases upper with
  | none =>
    rcases hraised with h | h
    · exact Or.inl h
    · exact Or.inr (Or.inl h)
  | some u =>
    simp only [Simplex.startValue, Option.elim_some, Scalar.smaller_eq_min]
    rcases min_choice (lower.elim 0 (Scalar.larger 0)) u with hmin | hmin
    · rw [hmin]
      rcases hraised with h | h
      · exact Or.inl h
      · exact Or.inr (Or.inl h)
    · exact Or.inr (Or.inr (by rw [hmin]))

theorem within_startValue {b : Bounds K} {tolerance : K} (h : 0 ≤ tolerance)
    (hb : Simplex.crossed tolerance b = false) : b.Within tolerance (Simplex.startValue b) := by
  cases hl : b.lower with
  | none =>
    cases hu : b.upper with
    | none => simp [Within, hl, hu]
    | some u => simp [Within, Simplex.startValue, hl, hu, h]
  | some l =>
    cases hu : b.upper with
    | none => simp [Within, Simplex.startValue, hl, hu, h]
    | some u =>
      have hlu : l ≤ u + tolerance := by simpa [Simplex.crossed, hl, hu] using hb
      simp [Within, Simplex.startValue, hl, hu, h, hlu]

theorem crossed_eq_false_of_within {b : Bounds K} {tolerance x : K} (h : 0 ≤ tolerance)
    (hx : b.Within 0 x) : Simplex.crossed tolerance b = false := by
  cases hl : b.lower with
  | none => simp [Simplex.crossed, hl]
  | some l =>
    cases hu : b.upper with
    | none => simp [Simplex.crossed, hl, hu]
    | some u =>
      have h1 := hx.1 l hl
      have h2 := hx.2 u hu
      have hlu : l ≤ u + tolerance := by linarith
      simpa [Simplex.crossed, hl, hu] using hlu

theorem Rest.within {b : Bounds K} {tolerance x : K} (h : 0 ≤ tolerance)
    (hb : Simplex.crossed tolerance b = false) (hx : b.Rest x) : b.Within tolerance x := by
  rcases hx with hx | hx | rfl
  · refine ⟨fun l hl => ?_, fun u hu => ?_⟩
    · rw [hx] at hl
      cases hl
      linarith
    · simpa [Simplex.crossed, hx, hu] using hb
  · refine ⟨fun l hl => ?_, fun u hu => ?_⟩
    · have hlu : l ≤ x + tolerance := by simpa [Simplex.crossed, hl, hx] using hb
      linarith
    · rw [hx] at hu
      cases hu
      linarith
  · exact within_startValue h hb

omit [IsStrictOrderedRing K] in
theorem rest_point {x y : K} (h : (point x).Rest y) : y = x := by
  rcases h with h | h | h
  · simpa [point, eq_comm] using h
  · simpa [point, eq_comm] using h
  · simpa [point, Simplex.startValue] using h

def Clear (b : Bounds K) (tolerance y : K) : Prop :=
  (∀ u, b.upper = some u → u ≤ y + tolerance → y = u) ∧
    ∀ l, b.lower = some l → y ≤ l + tolerance → y = l

def Stop (b : Bounds K) (y : K) : Prop :=
  (b.lower = some y ∨ b.upper = some y ∨ y = 0) ∧ b.Within 0 y

def Roomy (tolerance : K) (b : Bounds K) : Prop :=
  ∀ y z, b.Stop y → b.Stop z → y < z → y + tolerance < z

def reach (b : Bounds K) : K := max (b.lower.elim 0 (|·|)) (b.upper.elim 0 (|·|))

theorem reach_nonneg (b : Bounds K) : 0 ≤ b.reach := by
  refine le_max_of_le_left ?_
  cases b.lower with
  | none => exact le_rfl
  | some l => exact abs_nonneg l

theorem Stop.abs_le_reach {b : Bounds K} {y : K} (h : b.Stop y) : |y| ≤ b.reach := by
  rcases h.1 with h | h | rfl
  · exact le_max_of_le_left (by rw [h, Option.elim_some])
  · exact le_max_of_le_right (by rw [h, Option.elim_some])
  · rw [abs_zero]
    exact b.reach_nonneg

theorem stop_lower {b : Bounds K} {l x : K} (hl : b.lower = some l) (hx : b.Within 0 x) :
    b.Stop l := by
  refine ⟨Or.inl hl, fun l' hl' => ?_, fun u hu => ?_⟩
  · rw [hl] at hl'
    cases hl'
    rw [sub_zero]
  · have h1 := hx.1 l hl
    have h2 := hx.2 u hu
    linarith

theorem stop_upper {b : Bounds K} {u x : K} (hu : b.upper = some u) (hx : b.Within 0 x) :
    b.Stop u := by
  refine ⟨Or.inr (Or.inl hu), fun l hl => ?_, fun u' hu' => ?_⟩
  · have h1 := hx.1 l hl
    have h2 := hx.2 u hu
    linarith
  · rw [hu] at hu'
    cases hu'
    rw [add_zero]

theorem Rest.stop {b : Bounds K} {x y : K} (hx : b.Within 0 x) (h : b.Rest y) : b.Stop y := by
  have hwithin : b.Within 0 y := h.within le_rfl (crossed_eq_false_of_within le_rfl hx)
  refine ⟨?_, hwithin⟩
  rcases h with h | h | rfl
  · exact Or.inl h
  · exact Or.inr (Or.inl h)
  · rcases startValue_cases b with h | h | h
    · exact Or.inr (Or.inr h)
    · exact Or.inl h
    · exact Or.inr (Or.inl h)

theorem Stop.clear {b : Bounds K} {tolerance y : K} (hb : b.Roomy tolerance) (h : b.Stop y) :
    b.Clear tolerance y := by
  refine ⟨fun u hu hle => ?_, fun l hl hle => ?_⟩
  · by_contra hne
    have hyu := h.2.2 u hu
    have hlt := hb y u h (stop_upper hu h.2) (lt_of_le_of_ne (by linarith) hne)
    linarith
  · by_contra hne
    have hly := h.2.1 l hl
    have hlt := hb l y (stop_lower hl h.2) h (lt_of_le_of_ne (by linarith) (Ne.symm hne))
    linarith

end ReluVerify.Bounds
