import ReluVerify.Number.Binary64
import ReluVerify.Proofs.Faults
import ReluVerify.Proofs.HalfSpaces
import ReluVerify.Proofs.Places

namespace ReluVerify.Network

variable {α : Type}

def Mentions (n : Network α) (v : ℕ) : Prop :=
  (∃ e ∈ n.equations, v ∈ e.vars) ∨ n.relus.mentions v = true ∨
    (n.boundsOf v).isUnbounded = false

theorem not_mentions_empty (v : ℕ) : ¬ (empty : Network α).Mentions v := by
  rintro (⟨e, he, -⟩ | h | h)
  · cases he
  · cases h
  · cases h

theorem mentions_addEquation {n : Network α} {e : Equation α} {v : ℕ} :
    (n.addEquation e).Mentions v ↔ v ∈ e.vars ∨ n.Mentions v := by
  have hequations : (∃ f ∈ (n.addEquation e).equations, v ∈ f.vars) ↔
      (∃ f ∈ n.equations, v ∈ f.vars) ∨ v ∈ e.vars := by
    simp [addEquation, or_and_right, exists_or]
  rw [Mentions, hequations, or_comm (a := ∃ f ∈ n.equations, _), or_assoc]
  rfl

theorem mentions_addRelu {n : Network α} {input output v : ℕ} :
    (n.addRelu input output).Mentions v ↔ (input = v ∨ output = v) ∨ n.Mentions v := by
  have hrelus : (n.addRelu input output).relus.mentions v = true ↔
      (input = v ∨ output = v) ∨ n.relus.mentions v = true := by
    simp [addRelu, ReluList.mentions, or_comm]
  rw [Mentions, hrelus, or_assoc, or_left_comm]
  rfl

theorem mentions_bound {n : Network α} {d : Direction} {u v : ℕ} {x : α} :
    (Edit.apply n (.bound d u x)).Mentions v ↔ u = v ∨ n.Mentions v := by
  have hbound : ((Edit.apply n (.bound d u x)).boundsOf v).isUnbounded = false ↔
      u = v ∨ (n.boundsOf v).isUnbounded = false := by
    rw [boundsOf, bounds_apply_bound, BoundStore.bounds_set]
    by_cases hv : v = u
    · rw [if_pos hv]
      refine iff_of_true (Bounds.isUnbounded_eq_false_iff.mpr ⟨d, x, ?_⟩) (Or.inl hv.symm)
      cases d <;> rfl
    · rw [if_neg hv, or_iff_right (Ne.symm hv)]
      rfl
  have hframe : (Edit.apply n (.bound d u x)).equations = n.equations ∧
      (Edit.apply n (.bound d u x)).relus = n.relus := by cases d <;> exact ⟨rfl, rfl⟩
  rw [Mentions, hbound, hframe.1, hframe.2, or_left_comm (b := u = v), or_left_comm (b := u = v)]
  rfl

variable [Scalar α]

theorem vars_equation {h : HalfSpace α} (hf : h.Fits) (slack v : ℕ) :
    v ∈ (h.equation slack).vars ↔ v ∈ h.vars ∨ v = slack := by
  have hzip : (h.coefficients.zip h.vars).map Prod.snd = h.vars :=
    List.map_snd_zip hf.1.le
  simp only [HalfSpace.equation, inequality, Equation.vars, List.map_append, List.mem_cons,
    List.mem_append, hzip, List.map_cons, List.map_nil, List.not_mem_nil, or_false]
  tauto

theorem cut_eq (n : Network α) (h : HalfSpace α) :
    n.cut h = Edit.apply ((n.newVariable.2).addEquation (h.equation n.numVars))
      (.bound .lower n.numVars 0) := by
  simp [cut, grow, newVariable, addEquation, Edit.apply]

theorem mentions_cut {n : Network α} {h : HalfSpace α} (hf : h.Fits) {v : ℕ} :
    (n.cut h).Mentions v ↔ v = n.numVars ∨ v ∈ h.vars ∨ n.Mentions v := by
  have hnew : n.newVariable.2.Mentions v ↔ n.Mentions v := Iff.rfl
  rw [cut_eq, mentions_bound, mentions_addEquation, vars_equation hf, hnew, eq_comm]
  tauto

theorem occupied_cut {n : Network α} (hn : n.bounds.Occupied) (h : HalfSpace α) :
    (n.cut h).bounds.Occupied := hn.set .lower n.numVars 0

theorem side_boundsOf_cut (n : Network α) (h : HalfSpace α) (d : Direction) (v : ℕ) :
    ((n.cut h).boundsOf v).side d =
      if .lower = d ∧ n.numVars = v then some 0 else (n.boundsOf v).side d := by
  rw [cut_eq, side_boundsOf_apply]
  rfl

omit [Scalar α] in
theorem allocated_iff {n : Network α} (hn : n.bounds.Occupied) : n.Allocated ↔
    (∀ v, n.Mentions v → v < n.numVars) ∧ (n.equations.map Equation.aux).Nodup := by
  constructor
  · refine fun ha => ⟨?_, ha.distinct⟩
    rintro v (⟨e, he, hv⟩ | hv | hv)
    · rcases List.mem_cons.mp hv with rfl | hv
      · exact ha.auxiliary e he
      · obtain ⟨p, hp, rfl⟩ := List.mem_map.mp hv
        exact ha.terms e he p hp
    · obtain ⟨p, hp, hpv⟩ := List.any_eq_true.mp hv
      rcases Bool.or_eq_true_iff.mp hpv with hpv | hpv
      · exact beq_iff_eq.mp hpv ▸ (ha.relus p hp).1
      · exact beq_iff_eq.mp hpv ▸ (ha.relus p hp).2
    · exact ha.bounds v (hn.mem_keys_iff.mpr hv)
  · rintro ⟨hlt, hdistinct⟩
    refine ⟨fun e he => ?_, fun e he p hp => ?_, hdistinct, fun p hp => ⟨?_, ?_⟩, fun v hv => ?_⟩
    · exact hlt _ (Or.inl ⟨e, he, List.mem_cons_self⟩)
    · exact hlt _ (Or.inl ⟨e, he, List.mem_cons_of_mem _ (List.mem_map_of_mem hp)⟩)
    · exact hlt _ (Or.inr (Or.inl (List.any_eq_true.mpr ⟨p, hp, by simp⟩)))
    · exact hlt _ (Or.inr (Or.inl (List.any_eq_true.mpr ⟨p, hp, by simp⟩)))
    · exact hlt _ (Or.inr (Or.inr (hn.mem_keys_iff.mp hv)))

theorem compiles_iff {n : Network α} (hn : n.bounds.Occupied) :
    (∃ q, Query.compile n = .ok q) ↔
      (∀ v, n.Mentions v → v < n.numVars) ∧ (n.equations.map Equation.aux).Nodup := by
  rw [← allocated_iff hn]
  constructor
  · rintro ⟨q, hq⟩
    exact (Query.compile_eq_ok_iff.mp hq).1
  · exact fun ha => ⟨_, Query.compile_eq_ok_iff.mpr ⟨ha, rfl⟩⟩

theorem compiles_cut_iff {n : Network α} (hn : n.bounds.Occupied) {h : HalfSpace α}
    (hf : h.Fits) : (∃ q, Query.compile (n.cut h) = .ok q) ↔
      (∀ v, n.Mentions v → v ≤ n.numVars) ∧ (∀ v ∈ h.vars, v ≤ n.numVars) ∧
        (n.equations.map Equation.aux).Nodup ∧ n.numVars ∉ n.equations.map Equation.aux := by
  have haux : (n.cut h).equations.map Equation.aux =
      n.equations.map Equation.aux ++ [n.numVars] := by
    simp [cut_eq, Edit.apply, setLower, addEquation, newVariable, HalfSpace.equation, inequality]
  rw [compiles_iff (occupied_cut hn h), haux, ← List.concat_eq_append, List.nodup_concat,
    numVars_cut]
  simp only [mentions_cut hf, Nat.lt_succ_iff, or_imp, forall_and, forall_eq, le_refl, true_and]
  tauto

inductive Call (α : Type) where
  | edit (e : Edit α)
  | demand (h : HalfSpace α)

namespace Call

def apply (n : Network α) : Call α → Network α
  | edit e => e.apply n
  | demand h => n.demand h

def Names (v : ℕ) : Call α → Prop
  | edit (.equation e) => v ∈ e.vars
  | edit (.relu input output) => input = v ∨ output = v
  | edit (.bound _ u _) => u = v
  | edit _ => False
  | demand h => h.Fits ∧ v ∈ h.vars

def ReplacesUpper (v : ℕ) : Call α → Prop
  | edit (.bound .upper u _) => u = v
  | edit .clear => True
  | _ => False

end Call

def ofCalls (calls : List (Call α)) : Network α := calls.foldl Call.apply empty

theorem ofCalls_snoc (calls : List (Call α)) (c : Call α) :
    ofCalls (calls ++ [c]) = c.apply (ofCalls calls) := by
  rw [ofCalls, List.foldl_append]
  rfl

variable {n : Network α} {c : Call α} {v : ℕ}

theorem numVars_le_apply (hc : c ≠ .edit .clear) : n.numVars ≤ (c.apply n).numVars := by
  cases c with
  | edit e =>
    cases e with
    | allocate => exact Nat.le_succ _
    | bound d u x => cases d <;> exact le_rfl
    | clear => exact absurd rfl hc
    | equation e => exact le_rfl
    | relu input output => exact le_rfl
    | inputs vars => exact le_rfl
    | outputs vars => exact le_rfl
  | demand h =>
    rw [Call.apply]
    by_cases hf : h.Fits
    · rw [demand_of_fits n hf]
      exact Nat.le_succ _
    · rw [demand_of_not_fits n hf]

theorem occupied_call (hn : n.bounds.Occupied) (c : Call α) : (c.apply n).bounds.Occupied := by
  cases c with
  | edit e => exact occupied_apply hn e
  | demand h =>
    rw [Call.apply]
    by_cases hf : h.Fits
    · rw [demand_of_fits n hf]
      exact occupied_cut hn h
    · rwa [demand_of_not_fits n hf]

theorem mentions_apply (hc : c ≠ .edit .clear) (hv : (c.apply n).numVars ≤ v) :
    (c.apply n).Mentions v ↔ c.Names v ∨ n.Mentions v := by
  cases c with
  | edit e =>
    cases e with
    | equation e => exact mentions_addEquation
    | relu input output => exact mentions_addRelu
    | bound d u x => exact mentions_bound
    | clear => exact absurd rfl hc
    | allocate => exact (iff_of_eq (false_or _)).symm
    | inputs vars => exact (iff_of_eq (false_or _)).symm
    | outputs vars => exact (iff_of_eq (false_or _)).symm
  | demand h =>
    rw [Call.apply] at hv ⊢
    by_cases hf : h.Fits
    · rw [demand_of_fits n hf] at hv ⊢
      -- the slack is allocated by the demand, so it is not `v`
      have hne : v ≠ n.numVars := (Nat.lt_of_succ_le hv).ne'
      rw [mentions_cut hf, or_iff_right hne, Call.Names, and_iff_right hf]
    · rw [demand_of_not_fits n hf, Call.Names]
      simp [hf]

theorem upper_apply {x : α} : ((c.apply n).boundsOf v).upper = some x ↔
    c = .edit (.bound .upper v x) ∨ ((n.boundsOf v).upper = some x ∧ ¬ c.ReplacesUpper v) := by
  cases c with
  | edit e =>
    change ((e.apply n).boundsOf v).side .upper = some x ↔ _
    rw [side_boundsOf_apply]
    cases e with
    | bound d u y =>
      cases d <;> by_cases hu : u = v <;>
        simp [Edit.written, Call.ReplacesUpper, Bounds.side, hu]
    | _ => simp [Edit.written, Call.ReplacesUpper, Bounds.side]
  | demand h =>
    rw [Call.apply]
    by_cases hf : h.Fits
    · have hside := side_boundsOf_cut n h .upper v
      simp only [Bounds.side] at hside
      simp [demand_of_fits n hf, hside, Call.ReplacesUpper]
    · simp [demand_of_not_fits n hf, Call.ReplacesUpper]

theorem occupied_ofCalls (calls : List (Call α)) : (ofCalls calls).bounds.Occupied := by
  induction calls using List.reverseRecOn with
  | nil => exact BoundStore.occupied_empty
  | append_singleton calls c ih =>
    rw [ofCalls_snoc]
    exact occupied_call ih c

theorem numVars_mono {before after : List (Call α)} (h : .edit .clear ∉ after) :
    (ofCalls before).numVars ≤ (ofCalls (before ++ after)).numVars := by
  induction after using List.reverseRecOn with
  | nil => rw [List.append_nil]
  | append_singleton after c ih =>
    rw [List.mem_append, List.mem_singleton, not_or] at h
    rw [← List.append_assoc, ofCalls_snoc]
    exact (ih h.1).trans (numVars_le_apply (Ne.symm h.2))

theorem mentions_ofCalls {calls : List (Call α)} (hv : (ofCalls calls).numVars ≤ v) :
    (ofCalls calls).Mentions v ↔ Since (Call.Names v) (· = .edit .clear) calls := by
  induction calls using List.reverseRecOn with
  | nil => exact iff_of_false (not_mentions_empty v) not_since_nil
  | append_singleton calls c ih =>
    rw [ofCalls_snoc] at hv ⊢
    rw [since_snoc]
    by_cases hc : c = .edit .clear
    · subst hc
      exact iff_of_false (not_mentions_empty v) (by simp [Call.Names])
    · rw [mentions_apply hc hv, ih ((numVars_le_apply hc).trans hv), and_iff_left hc]

theorem upper_ofCalls {calls : List (Call α)} {x : α} :
    ((ofCalls calls).boundsOf v).upper = some x ↔
      Since (· = .edit (.bound .upper v x)) (Call.ReplacesUpper v) calls := by
  induction calls using List.reverseRecOn with
  | nil => exact iff_of_false (fun h => nomatch h) not_since_nil
  | append_singleton calls c ih => rw [ofCalls_snoc, since_snoc, upper_apply, ih]

structure Fresh (n : Network α) (slack : ℕ) (n' : Network α) : Prop where
  unmentioned : ¬ n.Mentions slack
  bounds : n'.boundsOf slack = ⟨some 0, none⟩
  refused : ∀ v, n.Mentions v → n.numVars ≤ v → ∃ e, Query.compile n' = .error e

theorem fits_of_addInequality {h : HalfSpace α} {slack : ℕ} {n' : Network α}
    (hn' : (addInequality h.vars h.coefficients h.rhs).run n = (.ok slack, n')) :
    h.Fits ∧ slack = n.numVars ∧ n' = n.cut h := by
  by_cases hf : h.Fits
  · rw [addInequality_of_fits n hf] at hn'
    cases hn'
    exact ⟨hf, rfl, rfl⟩
  · obtain ⟨e, he⟩ := n.exists_error_of_not_fits hf
    rw [he] at hn'
    cases hn'

theorem boundsOf_cut_slack (n : Network α) (h : HalfSpace α) :
    (n.cut h).boundsOf n.numVars = ⟨some 0, (n.boundsOf n.numVars).upper⟩ := by
  refine Bounds.ext_side fun d => ?_
  rw [side_boundsOf_cut]
  cases d <;> simp [Bounds.side]

theorem fresh_cut_iff (hn : n.bounds.Occupied) {h : HalfSpace α} (hf : h.Fits) :
    n.Fresh n.numVars (n.cut h) ↔ ¬ n.Mentions n.numVars := by
  refine ⟨Fresh.unmentioned, fun hnot => ⟨hnot, ?_, fun v hv hle => ?_⟩⟩
  · have hfree : (n.boundsOf n.numVars).upper = none := by
      by_contra hupper
      obtain ⟨x, hx⟩ := Option.ne_none_iff_exists'.mp hupper
      exact hnot (Or.inr (Or.inr (Bounds.isUnbounded_eq_false_iff.mpr ⟨.upper, x, hx⟩)))
    rw [boundsOf_cut_slack, hfree]
  · have hlt : n.numVars < v := lt_of_le_of_ne hle (by rintro rfl; exact hnot hv)
    have hrefused : ¬ ∃ q, Query.compile (n.cut h) = .ok q := fun hok =>
      absurd (((compiles_cut_iff hn hf).mp hok).1 v hv) (not_le.mpr hlt)
    cases hq : Query.compile (n.cut h) with
    | ok q => exact absurd ⟨q, hq⟩ hrefused
    | error e => exact ⟨e, rfl⟩

theorem fresh_iff_unnamed {calls : List (Call α)} {vars : List ℕ} {coefficients : List α} {rhs : α}
    {slack : ℕ} {n' : Network α}
    (h : (addInequality vars coefficients rhs).run (ofCalls calls) = (.ok slack, n')) :
    ((ofCalls calls).Fresh slack n' ↔ ¬ Since (Call.Names slack) (· = .edit .clear) calls) ∧
      (∀ before after, calls = before ++ after → .edit .clear ∉ after →
        (ofCalls before).numVars ≤ slack) ∧
      n'.numVars = slack + 1 ∧ (n'.boundsOf slack).lower = some 0 ∧
      (∀ x, (n'.boundsOf slack).upper = some x ↔
        Since (· = .edit (.bound .upper slack x)) (Call.ReplacesUpper slack) calls) ∧
      ((∃ q, Query.compile n' = .ok q) ↔
        (∀ v, (ofCalls calls).Mentions v → v ≤ slack) ∧ (∀ v ∈ vars, v ≤ slack) ∧
          ((ofCalls calls).equations.map Equation.aux).Nodup ∧
            slack ∉ (ofCalls calls).equations.map Equation.aux) := by
  have hn := occupied_ofCalls calls
  obtain ⟨hf, rfl, rfl⟩ := fits_of_addInequality (h := ⟨vars, coefficients, rhs⟩) h
  refine ⟨?_, ?_, rfl, ?_, fun x => ?_, compiles_cut_iff hn hf⟩
  · rw [fresh_cut_iff hn hf, mentions_ofCalls le_rfl]
  · rintro before after rfl hafter
    exact numVars_mono hafter
  · rw [boundsOf_cut_slack]
  · rw [boundsOf_cut_slack, ← upper_ofCalls]

def straying : List (Call Float) :=
  [.edit .allocate, .edit (.bound .upper 4 2), .demand ⟨[0], [1], 5⟩,
    .edit (.equation ⟨0, [(1, 0), (1, 1)], 0⟩)]

theorem fresh_iff_unnamed_straying : ∃ n' : Network Float,
    (addInequality [0, 1] [1, -1] 3).run (ofCalls straying) = (.ok 2, n') ∧
      (ofCalls straying).Fresh 2 n' ∧ ∃ e, Query.compile n' = .error e := by
  have hok := addInequality_of_fits (ofCalls straying) (h := ⟨[0, 1], [1, -1], 3⟩)
    (by decide +kernel)
  have hslack : (ofCalls straying).numVars = 2 := by decide +kernel
  rw [hslack] at hok
  have hunnamed : ¬ Since (Call.Names 2) (· = .edit .clear) straying := by
    rintro ⟨before, c, after, hsplit, hc, -⟩
    have hmem : c ∈ straying := by simp [hsplit]
    simp only [straying, List.mem_cons, List.not_mem_nil, or_false] at hmem
    rcases hmem with rfl | rfl | rfl | rfl <;> simp [Call.Names, Equation.vars] at hc
  obtain ⟨hfresh, -⟩ := fresh_iff_unnamed hok
  have hstray : (ofCalls straying).Mentions 4 := Or.inr (Or.inr (by decide +kernel))
  exact ⟨_, hok, hfresh.mpr hunnamed, (hfresh.mpr hunnamed).refused 4 hstray (by omega)⟩

-- The inequality is void, but its slack takes over a bound that was set for no variable.
theorem exists_captured_slack : ∃ n' : Network Float,
    (addInequality [] [] 5).run (ofCalls [.edit (.bound .upper 0 (-1))]) = (.ok 0, n') ∧
      ¬ (ofCalls [.edit (.bound .upper 0 (-1))]).Fresh 0 n' ∧
      n'.boundsOf 0 = ⟨some 0, some (-1)⟩ ∧ ∃ q, Query.compile n' = .ok q := by
  have hbounded : (ofCalls [.edit (.bound .upper 0 (-1 : Float))]).Mentions 0 :=
    Or.inr (Or.inr rfl)
  exact ⟨_, addInequality_of_fits _ (h := ⟨[], [], 5⟩) (by decide +kernel),
    fun h => h.unmentioned hbounded, rfl, _, rfl⟩

end ReluVerify.Network
