import ReluVerify.Proofs.Simplex.Check

namespace ReluVerify

variable {K : Type} [Field K] [LinearOrder K] [IsStrictOrderedRing K]

theorem pivotFloor_lt_one : (Simplex.pivotFloor : K) < 1 := by
  unfold Simplex.pivotFloor
  norm_num

namespace Simplex

structure Leads (constant p : ℕ) (a : List K) : Prop where
  ne_constant : p ≠ constant
  one : a.getD p 0 = 1
  above : ∀ j, p < j → j ≠ constant → a.getD j 0 = 0

def Triangular (constant : ℕ) (rows : List (Row K)) : Prop :=
  ∀ r ∈ rows, ∀ j, r.basic ≤ j → j ≠ constant → r.coeffs.getD j 0 = 0

theorem isPivot_of_leads {constant p : ℕ} {a : List K} (h : Leads constant p a) :
    isPivot a p = true := by
  rw [isPivot_iff, h.one, abs_one]
  exact pivotFloor_lt_one

omit [IsStrictOrderedRing K] in
theorem leads_substitute {constant p : ℕ} {a : List K} (h : Leads constant p a) {r : Row K}
    (hlen : r.coeffs.length = a.length) (hr : ∀ j, r.basic ≤ j → j ≠ constant →
      r.coeffs.getD j 0 = 0) (hne : r.basic ≠ p) (hc : r.basic ≠ constant) :
    Leads constant p (substitute r.basic r.coeffs a) := by
  -- Either the row is below the leading variable, or the equality does not have its variable.
  have hadded : ∀ j, p ≤ j → j ≠ constant → a.getD r.basic 0 * r.coeffs.getD j 0 = 0 := by
    intro j hpj hj
    rcases lt_or_gt_of_ne hne with hlt | hgt
    · rw [hr j (hlt.le.trans hpj) hj, mul_zero]
    · rw [h.above _ hgt hc, zero_mul]
  refine ⟨h.ne_constant, ?_, fun j hj hjc => ?_⟩
  · rw [getD_substitute hlen, if_neg hne.symm, hadded p le_rfl h.ne_constant, add_zero, h.one]
  · rw [getD_substitute hlen, hadded j hj.le hjc, h.above j hj hjc, ite_self, add_zero]

omit [IsStrictOrderedRing K] in
theorem leads_reduce {n constant p : ℕ} {rows : List (Row K)} (hrows : TidyRows n constant rows)
    (htri : Triangular constant rows) (hp : ∀ r ∈ rows, r.basic ≠ p) {a : List K}
    (ha : a.length = n) (h : Leads constant p a) : Leads constant p (reduce rows a) := by
  have hlen := hrows.length
  have hne := hrows.basic_ne
  clear hrows
  induction rows generalizing a with
  | nil => exact h
  | cons r rows ih =>
    rw [List.forall_mem_cons] at hlen hne hp
    have hr := hlen.1.trans ha.symm
    rw [reduce_cons]
    exact ih (fun q hq => htri q (List.mem_cons_of_mem _ hq)) hp.2
      (by rw [length_substitute hr, ha])
      (leads_substitute h hr (htri r List.mem_cons_self) hp.1 hne.1) hlen.2 hne.2

theorem choose?_of_leads {s : Simplex K} {a : List K} {p : ℕ} (h : Leads s.constant p a)
    (hp : ∀ r ∈ s.rows, r.basic ≠ p) : s.choose? a (some p) = some p := by
  have hfilter : (some p).filter (fun p => s.eligible p && isPivot a p) = some p := by
    rw [Option.filter_some, eligible_iff.mpr ⟨h.ne_constant, hp⟩, (isPivot_of_leads h)]
    rfl
  rw [choose?, hfilter]

theorem triangular_extendRows {n constant p : ℕ} {rows : List (Row K)} {a : List K}
    (htri : Triangular constant rows) (hlen : ∀ r ∈ rows, r.coeffs.length = n)
    (ha : a.length = n) (h : Leads constant p a) :
    Triangular constant (extendRows rows p (solveFor p a)) := by
  have hp : p < a.length := lt_length_of_isPivot (isPivot_of_leads h)
  have hnew : ∀ j, p ≤ j → j ≠ constant → (solveFor p a).getD j 0 = 0 := by
    intro j hj hjc
    rw [getD_solveFor hp]
    rcases hj.eq_or_lt with rfl | hlt
    · rw [if_pos rfl]
    · rw [if_neg hlt.ne', h.above j hlt hjc, neg_zero, zero_div]
  intro r hr j hj hjc
  rcases List.mem_append.mp hr with hr | hr
  · obtain ⟨q, hq, rfl⟩ := List.mem_map.mp hr
    have hqlen : (solveFor p a).length = q.coeffs.length := by
      rw [length_solveFor, ha, hlen q hq]
    rw [getD_substitute hqlen, htri q hq j hj hjc, ite_self, zero_add]
    rcases le_or_gt q.basic p with hle | hgt
    · rw [htri q hq p hle h.ne_constant, zero_mul]
    · rw [hnew j (hgt.le.trans hj) hjc, mul_zero]
  · rw [List.mem_singleton.mp hr] at hj ⊢
    exact hnew j hj hjc

structure Staircase (s : Simplex K) (es : List (List K × ℕ)) : Prop where
  length : ∀ e ∈ es, e.1.length = s.numVars
  leads : ∀ e ∈ es, Leads s.constant e.2 e.1
  fresh : ∀ e ∈ es, ∀ r ∈ s.rows, r.basic ≠ e.2
  nodup : (es.map Prod.snd).Nodup

structure Adopts (s : Simplex K) (es : List (List K × ℕ)) (t : Simplex K) : Prop where
  contradictory : t.contradictory = s.contradictory
  satisfied : ∀ x, t.Satisfied x ↔ s.Satisfied x ∧ ∀ e ∈ es, combination e.1 x = 0
  basics : t.rows.map Row.basic = s.rows.map Row.basic ++ es.map Prod.snd

omit [IsStrictOrderedRing K] in
theorem basic_extendRows (rows : List (Row K)) (p : ℕ) (coeffs : List K) :
    (extendRows rows p coeffs).map Row.basic = rows.map Row.basic ++ [p] := by
  simp [extendRows, Function.comp_def]

theorem adopts_addEquality {s : Simplex K} (hs : s.Tidy) (htri : Triangular s.constant s.rows)
    {a : List K} {p : ℕ} (ha : a.length = s.numVars) (h : Leads s.constant p a)
    (hp : ∀ r ∈ s.rows, r.basic ≠ p) : s.Adopts [(a, p)] (s.addEquality a (some p)) ∧
      Triangular s.constant (s.addEquality a (some p)).rows := by
  have hreduced := leads_reduce hs htri hp ha h
  have hchoose := choose?_of_leads hreduced hp
  have heq := addEquality_of_some hchoose
  refine ⟨⟨?_, fun x => ?_, ?_⟩, ?_⟩
  · rw [heq]
  · rw [satisfied_addEquality_of_some hs ha hchoose, List.forall_mem_singleton]
  · rw [heq]
    exact basic_extendRows _ _ _
  · rw [heq]
    exact triangular_extendRows htri hs.length (length_reduce hs.length ha) hreduced

theorem adopts_adding {s : Simplex K} (hs : s.Tidy) (htri : Triangular s.constant s.rows)
    {es : List (List K × ℕ)} (h : s.Staircase es) :
    s.Adopts es (s.adding (es.map (fun e => (e.1, some e.2)))) := by
  induction es generalizing s with
  | nil => exact ⟨rfl, fun x => by simp [adding], by simp [adding]⟩
  | cons e es ih =>
    obtain ⟨hlen, hleads, hfresh, hnodup⟩ := h
    rw [List.forall_mem_cons] at hlen hleads hfresh
    obtain ⟨hnot, hnodup⟩ := List.nodup_cons.mp hnodup
    obtain ⟨hstep, htri'⟩ := adopts_addEquality hs htri hlen.1 hleads.1 hfresh.1
    have hbasic : ∀ f ∈ es, ∀ r ∈ (s.addEquality e.1 (some e.2)).rows, r.basic ≠ f.2 := by
      intro f hf r hr hrf
      have hmem : f.2 ∈ s.rows.map Row.basic ++ [e.2] := by
        rw [← hrf, ← List.map_singleton (f := Prod.snd) (a := (e.1, e.2)), ← hstep.basics]
        exact List.mem_map_of_mem hr
      rcases List.mem_append.mp hmem with hold | hnew
      · obtain ⟨q, hq, hqf⟩ := List.mem_map.mp hold
        exact hfresh.2 f hf q hq hqf
      · exact hnot (List.mem_map.mpr ⟨f, hf, List.mem_singleton.mp hnew⟩)
    have hrest : (s.addEquality e.1 (some e.2)).Staircase es :=
      ⟨by simpa using hlen.2, by simpa using hleads.2, hbasic, hnodup⟩
    have hdone := ih (tidy_addEquality hs hlen.1 _) (by simpa using htri') hrest
    rw [List.map_cons, adding_cons]
    refine ⟨hdone.contradictory.trans hstep.contradictory, fun x => ?_, ?_⟩
    · rw [hdone.satisfied, hstep.satisfied, List.forall_mem_singleton, List.forall_mem_cons,
        and_assoc]
    · rw [hdone.basics, hstep.basics, List.map_singleton, List.map_cons, List.append_assoc,
        List.singleton_append]

theorem adopts_assembled {constant : ℕ} {bounds : List (Bounds K)} {tolerance : K}
    {es : List (List K × ℕ)} (hlen : ∀ e ∈ es, e.1.length = bounds.length)
    (hleads : ∀ e ∈ es, Leads constant e.2 e.1) (hnodup : (es.map Prod.snd).Nodup) :
    (ofBounds constant bounds tolerance).Adopts es
      (assembled constant bounds tolerance (es.map (fun e => (e.1, some e.2)))) :=
  adopts_adding tidy_ofBounds (fun _ hr => by cases hr)
    ⟨hlen, hleads, fun _ _ _ hr => (by cases hr), hnodup⟩

end Simplex

end ReluVerify
