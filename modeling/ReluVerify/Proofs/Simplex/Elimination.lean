import ReluVerify.Proofs.Simplex.Combination

namespace ReluVerify

variable {K : Type} [Field K]

def Row.Holds (r : Row K) (x : ℕ → K) : Prop := x r.basic = combination r.coeffs x

structure TidyRows (n constant : ℕ) (rows : List (Row K)) : Prop where
  length : ∀ r ∈ rows, r.coeffs.length = n
  basic_lt : ∀ r ∈ rows, r.basic < n
  basic_ne : ∀ r ∈ rows, r.basic ≠ constant
  solved : ∀ r ∈ rows, ∀ q ∈ rows, r.coeffs.getD q.basic 0 = 0
  distinct : (rows.map Row.basic).Nodup

theorem TidyRows.nil (n constant : ℕ) : TidyRows n constant ([] : List (Row K)) where
  length := by simp
  basic_lt := by simp
  basic_ne := by simp
  solved := by simp
  distinct := by simp

theorem TidyRows.eq_of_basic {n constant : ℕ} {rows : List (Row K)}
    (h : TidyRows n constant rows) {r q : Row K} (hr : r ∈ rows) (hq : q ∈ rows)
    (he : r.basic = q.basic) : r = q :=
  List.inj_on_of_nodup_map h.distinct hr hq he

namespace Simplex

variable [LinearOrder K]

theorem reduce_cons (r : Row K) (rows : List (Row K)) (a : List K) :
    reduce (r :: rows) a = reduce rows (substitute r.basic r.coeffs a) := rfl

theorem length_reduce {n : ℕ} {rows : List (Row K)} (h : ∀ r ∈ rows, r.coeffs.length = n)
    {a : List K} (ha : a.length = n) : (reduce rows a).length = n := by
  induction rows generalizing a with
  | nil => exact ha
  | cons r rows ih =>
    rw [reduce_cons]
    refine ih (fun q hq => h q (List.mem_cons_of_mem _ hq)) ?_
    rw [length_substitute ((h r List.mem_cons_self).trans ha.symm), ha]

theorem combination_reduce {n : ℕ} {rows : List (Row K)} {x : ℕ → K}
    (h : ∀ r ∈ rows, r.coeffs.length = n) (hlt : ∀ r ∈ rows, r.basic < n)
    (hx : ∀ r ∈ rows, r.Holds x) {a : List K} (ha : a.length = n) :
    combination (reduce rows a) x = combination a x := by
  induction rows generalizing a with
  | nil => rfl
  | cons r rows ih =>
    have hr := (h r List.mem_cons_self).trans ha.symm
    rw [reduce_cons, ih (fun q hq => h q (List.mem_cons_of_mem _ hq))
      (fun q hq => hlt q (List.mem_cons_of_mem _ hq))
      (fun q hq => hx q (List.mem_cons_of_mem _ hq)) (by rw [length_substitute hr, ha]),
      combination_substitute hr (by rw [ha]; exact hlt r List.mem_cons_self)]
    have hhold : x r.basic = combination r.coeffs x := hx r List.mem_cons_self
    rw [hhold, sub_self, mul_zero, add_zero]

theorem getD_reduce_of_forall {n : ℕ} {rows : List (Row K)} {b : ℕ}
    (h : ∀ r ∈ rows, r.coeffs.length = n) (hb : ∀ r ∈ rows, r.coeffs.getD b 0 = 0)
    {a : List K} (ha : a.length = n) (hz : a.getD b 0 = 0 ∨ ∃ r ∈ rows, r.basic = b) :
    (reduce rows a).getD b 0 = 0 := by
  induction rows generalizing a with
  | nil =>
    rcases hz with hz | ⟨r, hr, _⟩
    · exact hz
    · simp at hr
  | cons r rows ih =>
    have hr := (h r List.mem_cons_self).trans ha.symm
    have hget := getD_substitute (p := r.basic) hr b
    rw [hb r List.mem_cons_self, mul_zero, add_zero] at hget
    rw [reduce_cons]
    refine ih (fun q hq => h q (List.mem_cons_of_mem _ hq))
      (fun q hq => hb q (List.mem_cons_of_mem _ hq)) (by rw [length_substitute hr, ha]) ?_
    by_cases he : b = r.basic
    · exact Or.inl (by rw [hget, if_pos he])
    · rw [hget, if_neg he]
      rcases hz with hz | ⟨q, hq, hqb⟩
      · exact Or.inl hz
      · rcases List.mem_cons.mp hq with rfl | hq
        · exact absurd hqb.symm he
        · exact Or.inr ⟨q, hq, hqb⟩

theorem getD_reduce_basic {n constant : ℕ} {rows : List (Row K)}
    (h : TidyRows n constant rows) {a : List K} (ha : a.length = n) {q : Row K}
    (hq : q ∈ rows) : (reduce rows a).getD q.basic 0 = 0 :=
  getD_reduce_of_forall h.length (fun r hr => h.solved r hr q hq) ha (Or.inr ⟨q, hq, rfl⟩)

omit [Field K] [LinearOrder K] in
theorem isBasic_iff {s : Simplex K} {v : ℕ} :
    s.isBasic v = true ↔ ∃ r ∈ s.rows, r.basic = v := by
  simp [isBasic]

omit [Field K] [LinearOrder K] in
theorem eligible_iff {s : Simplex K} {v : ℕ} :
    s.eligible v = true ↔ v ≠ s.constant ∧ ∀ r ∈ s.rows, r.basic ≠ v := by
  simp [eligible, isBasic]

theorem isPivot_iff {a : List K} {v : ℕ} : isPivot a v = true ↔ pivotFloor < |a.getD v 0| := by
  simp [isPivot]

theorem getD_ne_zero_of_isPivot [IsStrictOrderedRing K] {a : List K} {v : ℕ}
    (h : isPivot a v = true) :
    a.getD v 0 ≠ 0 := by
  have hlt := isPivot_iff.mp h
  exact abs_pos.mp (pivotFloor_pos.trans hlt)

theorem lt_length_of_isPivot [IsStrictOrderedRing K] {a : List K} {v : ℕ} (h : isPivot a v = true) :
    v < a.length := by
  by_contra hn
  exact getD_ne_zero_of_isPivot h (List.getD_eq_default _ _ (not_lt.mp hn))

theorem largest?_foldl (a : List K) (candidates : List ℕ) (i : ℕ) :
    ∃ k, candidates.foldl (fun best j =>
        match best with
        | none => some j
        | some i => if Scalar.magnitudeLe (a.getD i 0) (a.getD j 0) then some j else some i)
        (some i) = some k ∧
      (k = i ∨ k ∈ candidates) ∧ |a.getD i 0| ≤ |a.getD k 0| ∧
      ∀ j ∈ candidates, |a.getD j 0| ≤ |a.getD k 0| := by
  induction candidates generalizing i with
  | nil => exact ⟨i, rfl, Or.inl rfl, le_rfl, by simp⟩
  | cons c cs ih =>
    simp only [List.foldl_cons]
    by_cases h : |a.getD i 0| ≤ |a.getD c 0|
    · obtain ⟨k, hk, hmem, hle, hall⟩ := ih c
      refine ⟨k, by rw [if_pos (by simpa using h)]; exact hk, Or.inr ?_, h.trans hle, ?_⟩
      · rcases hmem with rfl | hmem
        · exact List.mem_cons_self
        · exact List.mem_cons_of_mem _ hmem
      · intro j hj
        rcases List.mem_cons.mp hj with rfl | hj
        · exact hle
        · exact hall j hj
    · obtain ⟨k, hk, hmem, hle, hall⟩ := ih i
      refine ⟨k, by rw [if_neg (by simpa using h)]; exact hk, ?_, hle, ?_⟩
      · rcases hmem with rfl | hmem
        · exact Or.inl rfl
        · exact Or.inr (List.mem_cons_of_mem _ hmem)
      · intro j hj
        rcases List.mem_cons.mp hj with rfl | hj
        · exact (not_le.mp h).le.trans hle
        · exact hall j hj

theorem largest?_spec {a : List K} {candidates : List ℕ} {j : ℕ} (hj : j ∈ candidates) :
    ∃ k ∈ candidates, largest? a candidates = some k ∧ |a.getD j 0| ≤ |a.getD k 0| := by
  cases candidates with
  | nil => simp at hj
  | cons c cs =>
    obtain ⟨k, hk, hmem, hle, hall⟩ := largest?_foldl a cs c
    refine ⟨k, ?_, hk, ?_⟩
    · rcases hmem with rfl | hmem
      · exact List.mem_cons_self
      · exact List.mem_cons_of_mem _ hmem
    · rcases List.mem_cons.mp hj with rfl | hj
      · exact hle
      · exact hall j hj

theorem largest?_mem {a : List K} {candidates : List ℕ} {k : ℕ}
    (h : largest? a candidates = some k) : k ∈ candidates := by
  cases candidates with
  | nil => simp [largest?] at h
  | cons c cs =>
    obtain ⟨i, hi, hmem, _⟩ := largest?_spec (a := a) (List.mem_cons_self (a := c) (l := cs))
    rw [hmem] at h
    exact Option.some.inj h ▸ hi

theorem choose?_eq_some {s : Simplex K} {a : List K} {preferred : Option ℕ} {p : ℕ}
    (h : s.choose? a preferred = some p) : s.eligible p = true ∧ isPivot a p = true := by
  unfold choose? at h
  split at h
  case h_1 q hq =>
    cases h
    obtain ⟨_, hp⟩ := Option.filter_eq_some_iff.mp hq
    simpa using hp
  case h_2 =>
    obtain ⟨hl, hp⟩ := Option.filter_eq_some_iff.mp h
    exact ⟨(List.mem_filter.mp (largest?_mem hl)).2, hp⟩

theorem choose?_eq_none {s : Simplex K} {a : List K} {preferred : Option ℕ}
    (h : s.choose? a preferred = none) {v : ℕ} (hv : v < s.numVars)
    (he : s.eligible v = true) : |a.getD v 0| ≤ pivotFloor := by
  unfold choose? at h
  split at h
  case h_1 => cases h
  case h_2 =>
    obtain ⟨k, _, hk, hle⟩ := largest?_spec (a := a)
      (List.mem_filter.mpr ⟨List.mem_range.mpr hv, he⟩)
    rw [hk, Option.filter_eq_none_iff] at h
    have hn := h k rfl
    rw [isPivot_iff, not_lt] at hn
    exact hle.trans hn

end Simplex

end ReluVerify
