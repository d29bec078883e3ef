import ReluVerify.Proofs.Simplex.Run

namespace ReluVerify

variable {K : Type} [Field K]

theorem finite_lists {α : Type} {S : Set α} (hS : S.Finite) (m : ℕ) :
    {l : List α | l.length = m ∧ ∀ x ∈ l, x ∈ S}.Finite := by
  have : Finite S := hS
  refine ((List.finite_length_eq S m).image (List.map Subtype.val)).subset ?_
  rintro l ⟨hlen, hmem⟩
  refine ⟨l.attach.map (fun x => ⟨x.1, hmem x.1 x.2⟩), ?_, ?_⟩
  · simpa using hlen
  · simp [List.map_map, Function.comp_def]

theorem eq_of_map_eq {α β : Type} {f : α → β} {l l' : List α} (h : l.map f = l'.map f)
    (hinj : ∀ a ∈ l, ∀ b ∈ l', f a = f b → a = b) : l = l' := by
  induction l generalizing l' with
  | nil => exact (List.map_eq_nil_iff.mp h.symm).symm
  | cons a l ih =>
    cases l' with
    | nil => simp at h
    | cons b l' =>
      simp only [List.map_cons, List.cons.injEq] at h
      rw [hinj a List.mem_cons_self b List.mem_cons_self h.1,
        ih h.2 fun a ha b hb => hinj a (List.mem_cons_of_mem _ ha) b (List.mem_cons_of_mem _ hb)]

theorem eq_of_getD {a b : List K} {n : ℕ} (ha : a.length = n) (hb : b.length = n)
    (h : ∀ j < n, a.getD j 0 = b.getD j 0) : a = b := by
  refine List.ext_getElem (ha.trans hb.symm) fun j hj hj' => ?_
  have hget := h j (ha ▸ hj)
  rwa [List.getD_eq_getElem _ _ hj, List.getD_eq_getElem _ _ hj'] at hget

namespace Simplex

open Relation

def column (s : Simplex K) (j i : ℕ) : K :=
  if i = j then 1
  else ((s.rows.find? (fun r => r.basic == i)).map (fun r => r.coeffs.getD j 0)).getD 0

theorem column_basic {s : Simplex K} (hs : s.Tidy) {j : ℕ} (hj : ∀ q ∈ s.rows, q.basic ≠ j)
    {r : Row K} (hr : r ∈ s.rows) : s.column j r.basic = r.coeffs.getD j 0 := by
  rw [column, if_neg (hj r hr)]
  cases h : s.rows.find? (fun q => q.basic == r.basic) with
  | none => simpa using List.find?_eq_none.mp h r hr
  | some q =>
    have hq := List.mem_of_find?_eq_some h
    have hb : q.basic = r.basic := by simpa using List.find?_some h
    rw [hs.eq_of_basic hq hr hb]
    rfl

theorem column_nonbasic {s : Simplex K} {i j : ℕ} (hij : i ≠ j)
    (hi : ∀ q ∈ s.rows, q.basic ≠ i) : s.column j i = 0 := by
  have hnone : s.rows.find? (fun q => q.basic == i) = none :=
    List.find?_eq_none.mpr fun q hq => by simpa using hi q hq
  rw [column, if_neg hij, hnone]
  rfl

theorem combination_column {s : Simplex K} {j : ℕ} (hj : j < s.numVars) {a : List K}
    (ha : a.length = s.numVars) (hz : ∀ q ∈ s.rows, a.getD q.basic 0 = 0) :
    combination a (s.column j) = a.getD j 0 := by
  rw [combination_eq_sum ha, Finset.sum_eq_single j]
  · rw [column, if_pos rfl, mul_one]
  · intro i _ hij
    by_cases hb : ∃ q ∈ s.rows, q.basic = i
    · obtain ⟨q, hq, rfl⟩ := hb
      rw [hz q hq, zero_mul]
    · rw [column_nonbasic hij fun q hq he => hb ⟨q, hq, he⟩, mul_zero]
  · intro hn
    exact absurd (Finset.mem_range.mpr hj) hn

theorem satisfied_column {s : Simplex K} (hs : s.Tidy) {j : ℕ} (hj : j < s.numVars)
    (hnb : ∀ q ∈ s.rows, q.basic ≠ j) : s.Satisfied (s.column j) := by
  intro r hr
  rw [Row.Holds, column_basic hs hnb hr, combination_column hj (hs.length r hr) (hs.solved r hr)]

theorem rows_eq_of_basics_eq {s t : Simplex K} (hs : s.Tidy) (ht : t.Tidy) (h : SameSystem s t)
    (hb : t.rows.map Row.basic = s.rows.map Row.basic) : t.rows = s.rows := by
  have hbasic : ∀ {v : ℕ}, (∃ q ∈ s.rows, q.basic = v) ↔ ∃ q ∈ t.rows, q.basic = v := by
    intro v
    rw [← List.mem_map, ← List.mem_map, hb]
  refine eq_of_map_eq hb fun r hr q hq he => ?_
  have hlen : r.coeffs.length = s.numVars := (ht.length r hr).trans h.numVars
  have hcoeffs : r.coeffs = q.coeffs := by
    refine eq_of_getD hlen (hs.length q hq) fun j hj => ?_
    by_cases hjb : ∃ p ∈ s.rows, p.basic = j
    · obtain ⟨p', hp', hpj'⟩ := hbasic.mp hjb
      obtain ⟨p, hp, hpj⟩ := hjb
      have hrz := ht.solved r hr p' hp'
      have hqz := hs.solved q hq p hp
      rw [hpj'] at hrz
      rw [hpj] at hqz
      rw [hrz, hqz]
    · have hnb : ∀ p ∈ s.rows, p.basic ≠ j := fun p hp hpj => hjb ⟨p, hp, hpj⟩
      have hrow := (h.satisfied _).mpr (satisfied_column hs hj hnb) r hr
      have hz : ∀ p ∈ s.rows, r.coeffs.getD p.basic 0 = 0 := by
        intro p hp
        obtain ⟨p', hp', hpp⟩ := hbasic.mp ⟨p, hp, rfl⟩
        rw [← hpp]
        exact ht.solved r hr p' hp'
      rw [Row.Holds, he, column_basic hs hnb hq, combination_column hj hlen hz] at hrow
      exact hrow.symm
  cases r
  cases q
  simp only at he hcoeffs
  rw [he, hcoeffs]

variable [LinearOrder K]

def restingValues (s : Simplex K) : List K :=
  (List.range s.numVars).map (fun v => if s.isBasic v then 0 else s.value v)

theorem eq_of_key_eq {s t : Simplex K} (hs : s.Settled) (ht : t.Settled) (h : SameSystem s t)
    (hb : t.rows.map Row.basic = s.rows.map Row.basic)
    (hv : t.restingValues = s.restingValues) : t = s := by
  have hrows := rows_eq_of_basics_eq hs.tidy ht.tidy h hb
  have hresting : ∀ v < s.numVars, (∀ q ∈ s.rows, q.basic ≠ v) → t.value v = s.value v := by
    intro v hlt hnb
    have hget : t.restingValues[v]? = s.restingValues[v]? := by rw [hv]
    have hns : s.isBasic v = false := by
      rw [Bool.eq_false_iff, Ne, isBasic_iff]
      rintro ⟨q, hq, he⟩
      exact hnb q hq he
    have hnt : t.isBasic v = false := by
      unfold isBasic at hns ⊢
      rwa [hrows]
    simpa [restingValues, h.numVars, hlt, hns, hnt] using hget
  have hvalue : ∀ v < s.numVars, t.value v = s.value v := by
    intro v hlt
    by_cases hb : ∃ q ∈ s.rows, q.basic = v
    · obtain ⟨q, hq, rfl⟩ := hb
      have hnew : t.value q.basic = combination q.coeffs t.value := ht.consistent q (hrows ▸ hq)
      have hold : s.value q.basic = combination q.coeffs s.value := hs.consistent q hq
      rw [hnew, hold]
      refine combination_congr fun j hj hz => ?_
      refine hresting j (hs.tidy.length q hq ▸ hj) fun p hp hpj => hz ?_
      rw [← hpj]
      exact hs.tidy.solved q hq p hp
    · exact hresting v hlt fun q hq he => hb ⟨q, hq, he⟩
  have hvalues : t.values = s.values :=
    eq_of_getD (ht.values_length.trans h.numVars) hs.values_length hvalue
  obtain ⟨hbounds, hconstant, htolerance, hcontra, _, _⟩ := h
  cases s
  cases t
  simp only at hbounds hconstant htolerance hcontra hrows hvalues
  rw [hbounds, hconstant, htolerance, hcontra, hrows, hvalues]

theorem finite_rests (b : Bounds K) : {x | b.Rest x}.Finite := by
  refine ((Set.toFinite {startValue b}).union
    (b.lower.toFinset.finite_toSet.union b.upper.toFinset.finite_toSet)).subset ?_
  rintro x (hx | hx | hx)
  · exact Or.inr (Or.inl (by simp [hx]))
  · exact Or.inr (Or.inr (by simp [hx]))
  · exact Or.inl hx

theorem finite_reaches [IsStrictOrderedRing K] {s : Simplex K} (hs : s.Settled) :
    {t | ReflTransGen Turn s t}.Finite := by
  let values : Set K := {0} ∪ ⋃ v ∈ Finset.range s.numVars, {x | (s.boundsOf v).Rest x}
  have hvalues : values.Finite :=
    (Set.finite_singleton 0).union
      ((Finset.range s.numVars).finite_toSet.biUnion fun v _ => finite_rests _)
  have hkeys := (finite_lists (Finset.range s.numVars).finite_toSet s.rows.length).prod
    (finite_lists hvalues s.numVars)
  refine Set.Finite.of_finite_image
    (f := fun t : Simplex K => (t.rows.map Row.basic, t.restingValues)) (hkeys.subset ?_) ?_
  · rintro _ ⟨t, hreach, rfl⟩
    obtain ⟨ht, hsame⟩ := hs.reaches hreach
    refine ⟨⟨?_, ?_⟩, ?_, ?_⟩
    · rw [List.length_map, hsame.size]
    · intro v hv
      obtain ⟨r, hr, rfl⟩ := List.mem_map.mp hv
      have hlt := ht.tidy.basic_lt r hr
      rw [hsame.numVars] at hlt
      simpa using hlt
    · simp [restingValues, hsame.numVars]
    · intro x hx
      obtain ⟨v, hv, rfl⟩ := List.mem_map.mp hx
      have hlt := List.mem_range.mp hv
      split
      · exact Or.inl rfl
      · rename_i hnb
        have hrest := ht.resting v hlt fun q hq he => hnb (isBasic_iff.mpr ⟨q, hq, he⟩)
        rw [hsame.boundsOf] at hrest
        rw [hsame.numVars] at hlt
        exact Or.inr (Set.mem_biUnion (Finset.mem_range.mpr hlt) hrest)
  · intro t ht u hu hkey
    obtain ⟨hts, hst⟩ := hs.reaches ht
    obtain ⟨hus, hsu⟩ := hs.reaches hu
    have htu : SameSystem u t :=
      ⟨hst.bounds.trans hsu.bounds.symm, hst.constant.trans hsu.constant.symm,
        hst.tolerance.trans hsu.tolerance.symm, hst.contradictory.trans hsu.contradictory.symm,
        hst.size.trans hsu.size.symm, fun x => (hst.satisfied x).trans (hsu.satisfied x).symm⟩
    simp only [Prod.mk.injEq] at hkey
    exact eq_of_key_eq hus hts htu hkey.1 hkey.2

structure Cycle (f : ℕ → Simplex K) (period : ℕ) : Prop where
  pos : 0 < period
  settled : ∀ i, (f i).Settled
  turn : ∀ i, Turn (f i) (f (i + 1))
  periodic : ∀ i, f (i + period) = f i

def next (s : Simplex K) : Simplex K :=
  match s.step with
  | .inl _ => s
  | .inr t => t

theorem turn_next {s : Simplex K} (h : s.step.isRight = true) : Turn s s.next := by
  obtain ⟨t, ht⟩ := Sum.isRight_iff.mp h
  rw [Turn, next, ht]

theorem turn_iterate {s : Simplex K} {i : ℕ} (h : (next^[i] s).step.isRight = true) :
    Turn (next^[i] s) (next^[i + 1] s) := by
  rw [Function.iterate_succ_apply']
  exact turn_next h

theorem reaches_iterate {s : Simplex K} {k : ℕ}
    (h : ∀ i < k, (next^[i] s).step.isRight = true) : ReflTransGen Turn s (next^[k] s) := by
  induction k with
  | zero => exact .refl
  | succ k ih =>
    exact (ih fun i hi => h i (Nat.lt_succ_of_lt hi)).tail (turn_iterate (h k (Nat.lt_succ_self k)))

theorem turn_unique : Relator.RightUnique (Turn : Simplex K → Simplex K → Prop) := by
  intro s t u ht hu
  rw [Turn, ht] at hu
  exact Sum.inr.inj hu

theorem exists_iterate_of_reaches {s t : Simplex K} (h : ReflTransGen Turn s t) :
    ∃ k, t = next^[k] s ∧ ∀ i < k, (next^[i] s).step.isRight = true := by
  induction h with
  | refl => exact ⟨0, rfl, by simp⟩
  | tail _ hturn ih =>
    obtain ⟨k, rfl, hk⟩ := ih
    have hright : (next^[k] s).step.isRight = true := by rw [hturn]; rfl
    refine ⟨k + 1, turn_unique hturn (turn_iterate hright), fun i hi => ?_⟩
    rcases Nat.lt_succ_iff_lt_or_eq.mp hi with hi | rfl
    · exact hk i hi
    · exact hright

theorem exists_le_iterate_of_reaches {s t : Simplex K} (h : ReflTransGen Turn s t) {n : ℕ}
    (hn : (next^[n] s).step.isRight = false) : ∃ k ≤ n, t = next^[k] s := by
  obtain ⟨k, ht, hk⟩ := exists_iterate_of_reaches h
  refine ⟨k, not_lt.mp fun hlt => ?_, ht⟩
  rw [hk n hlt] at hn
  cases hn

theorem exists_cycle [IsStrictOrderedRing K] {s : Simplex K} (hs : s.Settled) {quiet : ℕ → Bool}
    (hquiet : ∀ k, quiet k = false) {pivots : ℕ} (h : ∀ budget, run quiet budget pivots s = none) :
    ∃ f period, Cycle f period ∧ ReflTransGen Turn s (f 0) := by
  have hgo : ∀ t, ReflTransGen Turn s t → t.step.isRight = true := by
    intro t ht
    rw [← Sum.not_isLeft]
    intro hleft
    obtain ⟨answer, hanswer⟩ := Sum.isLeft_iff.mp hleft
    obtain ⟨budget, d, hd⟩ := exists_run_of_reaches ht hanswer hquiet pivots
    rw [h budget] at hd
    cases hd
  have hreach : ∀ i, ReflTransGen Turn s (next^[i] s) := by
    intro i
    induction i with
    | zero => exact .refl
    | succ i ih => exact ih.tail (turn_iterate (hgo _ ih))
  obtain ⟨i, j, hij, heq⟩ :=
    (finite_reaches hs).exists_lt_map_eq_of_forall_mem (f := fun i => next^[i] s) hreach
  refine ⟨fun k => next^[k + i] s, j - i,
    ⟨by omega, fun k => (hs.reaches (hreach _)).1, ?_, ?_⟩, ?_⟩
  · intro k
    have hstep := turn_iterate (hgo _ (hreach (k + i)))
    have hsum : k + 1 + i = (k + i) + 1 := by omega
    rwa [hsum]
  · intro k
    have hsum : k + (j - i) + i = k + j := by omega
    rw [hsum, Function.iterate_add_apply, ← heq, ← Function.iterate_add_apply]
  · exact hreach _

theorem Cycle.reaches {f : ℕ → Simplex K} {period : ℕ} (h : Cycle f period) (i k : ℕ) :
    ReflTransGen Turn (f i) (f (i + k)) := by
  induction k with
  | zero => exact .refl
  | succ k ih => exact ih.tail (h.turn (i + k))

theorem Cycle.recurs {f : ℕ → Simplex K} {period : ℕ} (h : Cycle f period) :
    TransGen Turn (f 0) (f 0) := by
  have hback := h.reaches 1 (period - 1)
  have hsum : 1 + (period - 1) = 0 + period := by
    have := h.pos
    omega
  rw [hsum, h.periodic] at hback
  exact .head' (h.turn 0) hback

theorem recurs_of_reaches {s t : Simplex K} (hs : TransGen Turn s s) (h : ReflTransGen Turn s t) :
    TransGen Turn t s := by
  induction h with
  | refl => exact hs
  | tail _ hturn ih =>
    obtain ⟨u, hu, hback⟩ := TransGen.head'_iff.mp ih
    rw [turn_unique hturn hu]
    rcases reflTransGen_iff_eq_or_transGen.mp hback with rfl | htrans
    · exact hs
    · exact htrans

def Recurs (s : Simplex K) : Prop := ∃ t, ReflTransGen Turn s t ∧ TransGen Turn t t

theorem recurs_of_iterate_eq {s : Simplex K} {i k : ℕ} (hik : i < k)
    (h : ∀ j < k, (next^[j] s).step.isRight = true) (heq : next^[k] s = next^[i] s) :
    s.Recurs := by
  refine ⟨next^[i] s, reaches_iterate fun j hj => h j (hj.trans hik), ?_⟩
  obtain ⟨m, rfl⟩ := Nat.exists_eq_add_of_lt hik
  have hloop : ReflTransGen Turn (next^[i + 1] s) (next^[m] (next^[i + 1] s)) := by
    refine reaches_iterate fun j hj => ?_
    rw [← Function.iterate_add_apply]
    exact h _ (by omega)
  rw [← Function.iterate_add_apply, ← add_assoc, add_comm m i, heq] at hloop
  exact .head' (turn_iterate (h i hik)) hloop

section

variable {quiet : ℕ → Bool} (hquiet : ∀ k, quiet k = false)

include hquiet

theorem endless_of_recurs {s : Simplex K} (h : s.Recurs) (budget pivots : ℕ) :
    run quiet budget pivots s = none := by
  obtain ⟨t, hst, ht⟩ := h
  cases hrun : run quiet budget pivots s with
  | none => rfl
  | some d =>
    have hd : d.answer ≠ .interrupted := fun hd => by
      obtain ⟨k, hk⟩ := exists_tripped_of_run hrun hd
      rw [hquiet] at hk
      cases hk
    obtain ⟨u, hsu, hu⟩ := run_reaches hrun hd
    have hstuck : ∀ v, ¬ Turn u v := by
      intro v hv
      rw [Turn, hu] at hv
      cases hv
    have htu : ReflTransGen Turn t u := by
      rcases ReflTransGen.total_of_right_unique turn_unique hst hsu with h | h
      · exact h
      · rcases ReflTransGen.cases_head h with rfl | ⟨v, hv, _⟩
        · exact .refl
        · exact absurd hv (hstuck v)
    obtain ⟨v, hv, _⟩ := TransGen.head'_iff.mp (recurs_of_reaches ht htu)
    exact absurd hv (hstuck v)

theorem exists_run_iff [IsStrictOrderedRing K] {s : Simplex K} (hs : s.Settled) (pivots : ℕ) :
    (∃ budget d, run quiet budget pivots s = some d) ↔ ¬ s.Recurs := by
  constructor
  · rintro ⟨budget, d, hd⟩ hrecurs
    rw [endless_of_recurs hquiet hrecurs] at hd
    cases hd
  · intro hrecurs
    by_contra hnone
    push Not at hnone
    obtain ⟨f, period, hcycle, hreach⟩ := exists_cycle hs hquiet fun budget =>
      Option.eq_none_iff_forall_ne_some.mpr (hnone budget)
    exact hrecurs ⟨f 0, hreach, hcycle.recurs⟩

end

end Simplex

end ReluVerify
