import ReluVerify.Proofs.Simplex.Assembly

namespace ReluVerify

variable {K : Type} [Field K] [LinearOrder K]

namespace Simplex

open Relation

def Discards (s : Simplex K) (e : Equality K) : Prop :=
  s.choose? (reduce s.rows e.1) e.2 = none ∧
    s.tolerance < |(reduce s.rows e.1).getD s.constant 0|

theorem discards_of_contradictory {s : Simplex K} {e : Equality K}
    (h : (s.addEquality e.1 e.2).contradictory = true) :
    s.contradictory = true ∨ s.Discards e := by
  cases hp : s.choose? (reduce s.rows e.1) e.2 with
  | some p =>
    rw [addEquality_of_some hp] at h
    exact Or.inl h
  | none =>
    rw [addEquality_of_none hp] at h
    split at h
    · rename_i hlt
      exact Or.inr ⟨hp, hlt⟩
    · exact Or.inl h

theorem exists_discards {s : Simplex K} {equalities : List (Equality K)}
    (h : (s.adding equalities).contradictory = true) : s.contradictory = true ∨
      ∃ before e after, equalities = before ++ e :: after ∧ (s.adding before).Discards e := by
  induction equalities generalizing s with
  | nil => exact Or.inl h
  | cons e equalities ih =>
    rcases ih h with hcon | ⟨before, f, after, rfl, hf⟩
    · rcases discards_of_contradictory hcon with hcon | he
      · exact Or.inl hcon
      · exact Or.inr ⟨[], e, equalities, rfl, he⟩
    · exact Or.inr ⟨e :: before, f, after, rfl, hf⟩

section

variable {constant : ℕ} {bounds : List (Bounds K)} {tolerance : K}

theorem tidy_ofBounds : (ofBounds constant bounds tolerance).Tidy := TidyRows.nil _ _

theorem satisfied_ofBounds (x : ℕ → K) : (ofBounds constant bounds tolerance).Satisfied x := by
  intro r hr
  cases hr

theorem contradictory_ofBounds :
    (ofBounds constant bounds tolerance).contradictory = false ↔
      ∀ v < bounds.length, crossed tolerance (bounds[v]?.getD Bounds.free) = false := by
  simp only [ofBounds, List.any_eq_false, Bool.not_eq_true]
  constructor
  · intro h v hv
    rw [List.getElem?_eq_getElem hv]
    exact h _ (List.getElem_mem hv)
  · intro h b hb
    obtain ⟨v, hv, rfl⟩ := List.getElem_of_mem hb
    have hcross := h v hv
    rwa [List.getElem?_eq_getElem hv] at hcross

variable {equalities : List (Equality K)}

@[simp] theorem bounds_assembled :
    (assembled constant bounds tolerance equalities).bounds = bounds := by
  rw [assembled, bounds_adding]
  rfl

@[simp] theorem constant_assembled :
    (assembled constant bounds tolerance equalities).constant = constant := by
  rw [assembled, constant_adding]
  rfl

@[simp] theorem tolerance_assembled :
    (assembled constant bounds tolerance equalities).tolerance = tolerance := by
  rw [assembled, tolerance_adding]
  rfl

@[simp] theorem numVars_assembled :
    (assembled constant bounds tolerance equalities).numVars = bounds.length := by
  rw [numVars, bounds_assembled]

@[simp] theorem boundsOf_assembled (v : ℕ) :
    (assembled constant bounds tolerance equalities).boundsOf v =
      bounds[v]?.getD Bounds.free := by
  rw [boundsOf, bounds_assembled]

theorem length_values_assembled :
    (assembled constant bounds tolerance equalities).values.length = bounds.length := by
  rw [assembled, values_adding]
  exact List.length_map _

variable [IsStrictOrderedRing K]

theorem tidy_assembled (h : ∀ e ∈ equalities, e.1.length = bounds.length) :
    (assembled constant bounds tolerance equalities).Tidy :=
  tidy_adding tidy_ofBounds h

theorem tidy_prefix (h : ∀ e ∈ equalities, e.1.length = bounds.length)
    {before rest : List (Equality K)} (hsplit : equalities = before ++ rest) :
    (assembled constant bounds tolerance before).Tidy :=
  tidy_assembled fun f hf => h f (hsplit ▸ List.mem_append_left _ hf)

omit [IsStrictOrderedRing K] in
theorem length_of_split (h : ∀ e ∈ equalities, e.1.length = bounds.length)
    {before after : List (Equality K)} {e : Equality K}
    (hsplit : equalities = before ++ e :: after) :
    e.1.length = (assembled constant bounds tolerance before).numVars := by
  rw [numVars_assembled]
  exact h e (hsplit ▸ List.mem_append_right _ List.mem_cons_self)

theorem satisfied_assembled (h : ∀ e ∈ equalities, e.1.length = bounds.length) {x : ℕ → K}
    (hx : ∀ e ∈ equalities, combination e.1 x = 0) :
    (assembled constant bounds tolerance equalities).Satisfied x :=
  satisfied_adding tidy_ofBounds h (satisfied_ofBounds x) hx

omit [IsStrictOrderedRing K] in
theorem crossed_assembled
    (h : (assembled constant bounds tolerance equalities).contradictory = false) :
    ∀ v < bounds.length, crossed tolerance (bounds[v]?.getD Bounds.free) = false :=
  contradictory_ofBounds.mp (contradictory_of_adding h)

theorem settled_assembled (h : ∀ e ∈ equalities, e.1.length = bounds.length)
    (htol : 0 ≤ tolerance) (hpin : ∃ c, bounds[constant]?.getD Bounds.free = Bounds.point c) :
    (assembled constant bounds tolerance equalities).start.Settled := by
  refine settled_start (tidy_assembled h) ?_ (by simpa using htol) (by simpa using hpin)
  rw [length_values_assembled, numVars_assembled]

end

section

variable {tripped : ℕ → Bool} {budget : ℕ} {s : Simplex K}

theorem check_of_within [IsStrictOrderedRing K] (h : s.contradictory = false)
    (hquiet : tripped 0 = false)
    (hwithin : ∀ r ∈ s.rows, (s.boundsOf r.basic).Within s.tolerance (s.start.value r.basic)) :
    s.check tripped budget = some ⟨.feasible s.start.refreshed.values, 0⟩ := by
  have hnone : s.start.violatedRow? = none := violatedRow?_of_within hwithin
  rw [check_of_not_contradictory h]
  refine run_of_answer hquiet ?_
  rw [step, hnone]

theorem check_infeasible {d : Decision K} (h : s.check tripped budget = some d)
    (hd : d.answer = .infeasible) : s.contradictory = true ∨
      ∃ t, ReflTransGen Turn s.start t ∧ t.step = .inl .infeasible := by
  cases hc : s.contradictory with
  | true => exact Or.inl rfl
  | false =>
    rw [check_of_not_contradictory hc] at h
    obtain ⟨t, hreach, ht⟩ := run_reaches h (by simp [hd])
    rw [hd] at ht
    exact Or.inr ⟨t, hreach, ht⟩

theorem check_feasible [IsStrictOrderedRing K] (hs : s.start.Settled)
    (hcross : s.contradictory = false → ∀ v < s.numVars, crossed s.tolerance (s.boundsOf v) = false)
    {d : Decision K} (h : s.check tripped budget = some d) {values : List K}
    (hd : d.answer = .feasible values) : s.contradictory = false ∧ s.Feasible values := by
  cases hc : s.contradictory with
  | true =>
    rw [check_of_contradictory hc] at h
    cases h
    cases hd
  | false =>
    rw [check_of_not_contradictory hc] at h
    obtain ⟨t, hreach, ht⟩ := run_reaches h (by simp [hd])
    rw [hd] at ht
    obtain ⟨hsettled, hreached⟩ := hs.reaches hreach
    have hsame := (sameSystem_start s).trans hreached
    have hfeas := hsettled.feasible (fun v hv => by
      rw [hsame.numVars] at hv
      rw [hsame.tolerance, hsame.boundsOf]
      exact hcross hc v hv) ht
    refine ⟨rfl, hsame.numVars ▸ hfeas.length, (hsame.satisfied _).mp hfeas.satisfied,
      fun v hv => ?_, ?_⟩
    · have hwithin := hfeas.within v (hsame.numVars.symm ▸ hv)
      rwa [hsame.tolerance, hsame.boundsOf] at hwithin
    · have hpinned := hfeas.pinned
      rwa [hsame.constant, hsame.boundsOf, hsame.numVars] at hpinned

end

end Simplex

end ReluVerify
