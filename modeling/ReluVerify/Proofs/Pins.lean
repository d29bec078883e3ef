import ReluVerify.Proofs.Assignment

namespace ReluVerify

namespace VarMap

variable {β : Type}

theorem ofList_concat (l : List (ℕ × β)) (p : ℕ × β) :
    ofList (l ++ [p]) = (ofList l).insert p.1 p.2 := by
  rw [ofList, List.foldl_concat]
  rfl

theorem mem_of_get?_ofList {l : List (ℕ × β)} {v : ℕ} {x : β}
    (h : (ofList l).get? v = some x) : (v, x) ∈ l := by
  induction l using List.reverseRecOn with
  | nil => cases h
  | append_singleton l p ih =>
    rw [ofList_concat, get?_insert] at h
    by_cases hv : v = p.1
    · rw [if_pos hv, Option.some.injEq] at h
      exact List.mem_append_right l (by simp [hv, ← h])
    · rw [if_neg hv] at h
      exact List.mem_append_left _ (ih h)

theorem isSome_get?_ofList {l : List (ℕ × β)} {v : ℕ} :
    ((ofList l).get? v).isSome = true ↔ v ∈ l.map Prod.fst := by
  induction l using List.reverseRecOn with
  | nil => simp [ofList]
  | append_singleton l p ih =>
    rw [ofList_concat, get?_insert]
    by_cases hv : v = p.1
    · simp [hv]
    · simp [hv, ih]

theorem get?_ofList_of_nodup {l : List (ℕ × β)} (h : (l.map Prod.fst).Nodup) {p : ℕ × β}
    (hp : p ∈ l) : (ofList l).get? p.1 = some p.2 := by
  obtain ⟨x, hx⟩ := Option.isSome_iff_exists.mp
    (isSome_get?_ofList.mpr (List.mem_map.mpr ⟨p, hp, rfl⟩))
  have hsame : (p.1, x) = p := List.inj_on_of_nodup_map h (mem_of_get?_ofList hx) hp rfl
  rw [hx, ← hsame]

theorem mapM_getOrFail_eq_ok {ε : Type} {missing : ℕ → ε} {m : VarMap β} {vars : List ℕ}
    {xs : List β} : vars.mapM (m.getOrFail missing) = .ok xs ↔ m.valuesOf? vars = some xs := by
  unfold valuesOf?
  induction vars generalizing xs with
  | nil =>
    rw [List.mapM_nil, List.mapM_nil, pure_eq_ok]
    simp [eq_comm]
  | cons v vars ih =>
    rw [List.mapM_cons, List.mapM_cons, bind_eq_ok, Option.bind_eq_bind, Option.bind_eq_some_iff]
    refine exists_congr fun x => and_congr ?_ ?_
    · cases h : m.get? v <;> simp [getOrFail, h]
    · rw [bind_eq_ok, Option.bind_eq_bind, Option.bind_eq_some_iff]
      refine exists_congr fun xs' => and_congr ih ?_
      rw [pure_eq_ok]
      simp [eq_comm]

theorem isSome_get?_of_valuesOf? {m : VarMap β} {vars : List ℕ} {xs : List β}
    (h : m.valuesOf? vars = some xs) : ∀ v ∈ vars, (m.get? v).isSome = true := by
  unfold valuesOf? at h
  induction vars generalizing xs with
  | nil => simp
  | cons v vars ih =>
    rw [List.mapM_cons] at h
    obtain ⟨x, hx, h⟩ := Option.bind_eq_some_iff.mp h
    obtain ⟨xs', hxs', _⟩ := Option.bind_eq_some_iff.mp h
    exact List.forall_mem_cons.mpr ⟨by simp [hx], ih hxs'⟩

end VarMap

namespace Query

variable {α : Type}

def pin (q : Query α) (p : ℕ × α) : Query α :=
  { q with bounds := q.bounds.modify p.1 fun _ => Bounds.point p.2 }

theorem numVariables_pin (q : Query α) (p : ℕ × α) : (q.pin p).numVariables = q.numVariables :=
  List.length_modify ..

theorem boundsOf_pin {q : Query α} {p : ℕ × α} (h : p.1 < q.numVariables) (v : ℕ) :
    (q.pin p).boundsOf v = if v = p.1 then Bounds.point p.2 else q.boundsOf v := by
  have hlt : p.1 < q.bounds.length := h
  rw [boundsOf, pin, List.getElem?_modify, boundsOf]
  by_cases hv : v = p.1
  · subst hv
    simp [hlt]
  · simp [hv, Ne.symm hv]

theorem exists_setLower {q : Query α} {p : ℕ × α} (h : p.1 < q.numVariables) :
    ∃ q₁, q.setLower p.1 p.2 = .ok q₁ ∧ q₁.setUpper p.1 p.2 = .ok (q.pin p) := by
  have hpin : (q.bounds.modify p.1 (·.withLower p.2)).modify p.1 (·.withUpper p.2) =
      q.bounds.modify p.1 fun _ => Bounds.point p.2 := List.modify_modify_eq ..
  refine ⟨{ q with bounds := q.bounds.modify p.1 (·.withLower p.2) }, if_pos h, ?_⟩
  rw [pin, ← hpin]
  exact if_pos (h.trans_eq (List.length_modify ..).symm)

theorem fixAll_cons (q : Query α) (p : ℕ × α) (pairs : List (ℕ × α)) :
    q.fixAll (p :: pairs) = if p.1 < q.numVariables then (q.pin p).fixAll pairs
      else .error ⟨p.1, q.numVariables⟩ := by
  by_cases h : p.1 < q.numVariables
  · obtain ⟨q₁, hlower, hupper⟩ := exists_setLower h
    rw [if_pos h, fixAll, hlower]
    change (q₁.setUpper p.1 p.2 >>= fun q => q.fixAll pairs) = _
    rw [hupper]
    rfl
  · have hlower : q.setLower p.1 p.2 = .error ⟨p.1, q.numVariables⟩ := if_neg h
    rw [if_neg h, fixAll, hlower]
    rfl

theorem fixAll_eq_ok_iff {pairs : List (ℕ × α)} {q q' : Query α} : q.fixAll pairs = .ok q' ↔
    (∀ p ∈ pairs, p.1 < q.numVariables) ∧ q' = pairs.foldl pin q := by
  induction pairs generalizing q with
  | nil => simp [fixAll, eq_comm]
  | cons p pairs ih =>
    rw [fixAll_cons, List.forall_mem_cons, List.foldl_cons]
    by_cases h : p.1 < q.numVariables
    · rw [if_pos h, ih, numVariables_pin, and_iff_right h]
    · simp [h]

structure Pins (q : Query α) (pairs : List (ℕ × α)) (q' : Query α) : Prop where
  constant : q'.constant = q.constant
  tableau : q'.tableau = q.tableau
  relus : q'.relus = q.relus
  numVariables : q'.numVariables = q.numVariables
  inside : ∀ p ∈ pairs, p.1 < q.numVariables
  boundsOf : ∀ v, q'.boundsOf v =
    ((VarMap.ofList pairs).get? v).elim (q.boundsOf v) Bounds.point

theorem pins_foldl_pin {q : Query α} {pairs : List (ℕ × α)}
    (h : ∀ p ∈ pairs, p.1 < q.numVariables) : q.Pins pairs (pairs.foldl pin q) := by
  induction pairs using List.reverseRecOn with
  | nil => exact ⟨rfl, rfl, rfl, rfl, h, fun _ => rfl⟩
  | append_singleton pairs p ih =>
    obtain ⟨hpairs, hp⟩ := List.forall_mem_append.mp h
    obtain ⟨hconstant, htableau, hrelus, hcount, _, hbounds⟩ := ih hpairs
    have hlt : p.1 < (pairs.foldl pin q).numVariables := hcount ▸ hp p (List.mem_singleton_self p)
    rw [List.foldl_concat]
    refine ⟨hconstant, htableau, hrelus, (numVariables_pin ..).trans hcount, h, fun v => ?_⟩
    rw [boundsOf_pin hlt, hbounds, VarMap.ofList_concat, VarMap.get?_insert]
    by_cases hv : v = p.1 <;> simp [hv]

theorem pins_of_fixAll {q q' : Query α} {pairs : List (ℕ × α)} (h : q.fixAll pairs = .ok q') :
    q.Pins pairs q' := by
  obtain ⟨hlt, rfl⟩ := fixAll_eq_ok_iff.mp h
  exact pins_foldl_pin hlt

theorem Pins.of_nodup {q q' : Query α} {pairs : List (ℕ × α)} (h : q.Pins pairs q')
    (hnodup : (pairs.map Prod.fst).Nodup) {p : ℕ × α} (hp : p ∈ pairs) :
    q'.boundsOf p.1 = Bounds.point p.2 := by
  rw [h.boundsOf, VarMap.get?_ofList_of_nodup hnodup hp]
  rfl

theorem Pins.of_notMem {q q' : Query α} {pairs : List (ℕ × α)} (h : q.Pins pairs q') {v : ℕ}
    (hv : v ∉ pairs.map Prod.fst) : q'.boundsOf v = q.boundsOf v := by
  rw [← VarMap.isSome_get?_ofList, Bool.not_eq_true, Option.isSome_eq_false_iff,
    Option.isNone_iff_eq_none] at hv
  rw [h.boundsOf, hv]
  rfl

end Query

theorem Engine.evaluate_eq_ok_iff {α : Type} [Scalar α] {engine : Engine α} {cancelled : Bool}
    {n : Network α} {values ys : List α} : engine.evaluate cancelled n values = .ok ys ↔
      n.inputs.length = values.length ∧ ∃ q q' a, Query.compile n = .ok q ∧
        q.fixAll (n.inputs.zip values) = .ok q' ∧ (engine.ask cancelled q').verdict = .sat a ∧
          a.valuesOf? n.outputs = some ys := by
  unfold evaluate
  by_cases hlen : n.inputs.length = values.length
  · rw [and_iff_right hlen]
    cases Query.compile n with
    | error e => simp [hlen, bind, Except.bind, Except.mapError]
    | ok q =>
      cases hq' : q.fixAll (n.inputs.zip values) with
      | error e => simp [hlen, hq', bind, Except.bind, Except.mapError]
      | ok q' =>
        cases h : (engine.ask cancelled q').verdict <;>
          simp [hlen, hq', h, bind, Except.bind, Except.mapError, VarMap.mapM_getOrFail_eq_ok]
  · simp [hlen, bind, Except.bind]

theorem Verdict.ofOutput_eq_sat {α : Type} {out : EngineOutput α} {a : VarMap α} :
    ofOutput out = .sat a ↔
      out.interrupted = false ∧ out.assignment.isEmpty = false ∧ out.assignment = a := by
  unfold ofOutput
  cases out.interrupted <;> cases out.assignment.isEmpty <;> simp

variable {K : Type} [Field K] [LinearOrder K] [IsStrictOrderedRing K]

theorem Bounds.within_point_iff_abs {c t x : K} : (point c).Within t x ↔ |x - c| ≤ t := by
  simp only [Within, point, Option.some.injEq, forall_eq', abs_sub_le_iff]
  constructor
  · rintro ⟨hlow, hupp⟩
    constructor <;> linarith
  · rintro ⟨hupp, hlow⟩
    constructor <;> linarith

omit [LinearOrder K] [IsStrictOrderedRing K] in
theorem Query.Pins.framed {q q' : Query K} {pairs : List (ℕ × K)} (h : q.Pins pairs q')
    (hq : q.Shaped) : q'.Framed where
  constant_lt := by
    rw [h.constant, h.numVariables]
    exact hq.constant_lt
  pinned := by
    rw [h.constant, h.boundsOf, hq.pinned]
    cases (VarMap.ofList pairs).get? q.constant with
    | none => exact ⟨1, rfl⟩
    | some c => exact ⟨c, rfl⟩
  input_lt := h.numVariables ▸ h.relus ▸ hq.input_lt
  output_lt := h.numVariables ▸ h.relus ▸ hq.output_lt
  input_ne := h.constant ▸ h.relus ▸ hq.input_ne
  output_ne := h.constant ▸ h.relus ▸ hq.output_ne

namespace Reference

variable {tolerances : Tolerances K} {q : Query K} {a : VarMap K}

theorem exists_node_of_verdict (hq : q.Framed) (htol : 0 ≤ tolerances.bound) {cancelled : Bool}
    (h : ((engine tolerances).ask cancelled q).verdict = .sat a) :
    ∃ phases values, Node tolerances q phases values ∧ a = VarMap.ofValues values := by
  obtain ⟨hfinished, hne, rfl⟩ := Verdict.ofOutput_eq_sat.mp h
  exact exists_node_framed_of_run? (run?_of_engine hfinished) hq htol hne

structure PinnedAt (tolerance : K) (n : Network K) (values : List K) (q : Query K)
    (a : VarMap K) : Prop where
  length : n.inputs.length = values.length
  pins : ∃ q₀, Query.compile n = .ok q₀ ∧ q₀.Pins (n.inputs.zip values) q
  near : ∀ v x, (VarMap.ofList (n.inputs.zip values)).get? v = some x →
    ∃ y, a.get? v = some y ∧ |y - x| ≤ tolerance
  constant : a.get? n.numVars =
    some (((VarMap.ofList (n.inputs.zip values)).get? n.numVars).getD 1)
  allocated : ∀ v, (a.get? v).isSome = true ↔ v ≤ n.numVars

theorem pinnedAt_of_verdict (htol : 0 ≤ tolerances.bound) {n : Network K} {values : List K}
    (hlen : n.inputs.length = values.length) {q₀ : Query K} (hq₀ : Query.compile n = .ok q₀)
    (hq : q₀.fixAll (n.inputs.zip values) = .ok q) {cancelled : Bool}
    (ha : ((engine tolerances).ask cancelled q).verdict = .sat a) :
    PinnedAt tolerances.bound n values q a := by
  have hpins := Query.pins_of_fixAll hq
  obtain ⟨hn, rfl⟩ := Query.compile_eq_ok.mp hq₀
  have hframed := hpins.framed (Query.shaped_compiled hn)
  obtain ⟨phases, found, hnode, rfl⟩ := exists_node_of_verdict hframed htol ha
  have hcount : found.length = n.numVars + 1 := by
    rw [hnode.length_values, hpins.numVariables, Query.numVariables_compiled]
  have hget : ∀ v ≤ n.numVars, (VarMap.ofValues found).get? v = some (found.getD v 0) := by
    intro v hv
    have hlt : v < found.length := by omega
    simp [VarMap.get?_ofValues, hlt]
  have hconstant : q.constant = n.numVars := hpins.constant
  refine ⟨hlen, ⟨_, hq₀, hpins⟩, fun v x hx => ?_, ?_, fun v => ?_⟩
  · have hlt := hpins.inside _ (VarMap.mem_of_get?_ofList hx)
    rw [Query.numVariables_compiled] at hlt
    have hwithin := (hnode.inside_framed hframed).1.1 v (by
      rwa [hpins.numVariables, Query.numVariables_compiled])
    rw [hpins.boundsOf, hx] at hwithin
    exact ⟨_, hget v (Nat.le_of_lt_succ hlt), Bounds.within_point_iff_abs.mp hwithin⟩
  · rw [hget _ le_rfl]
    have hbounds := hpins.boundsOf n.numVars
    rw [Query.boundsOf_compiled_constant] at hbounds
    rw [← hconstant] at hbounds ⊢
    cases hx : (VarMap.ofList (n.inputs.zip values)).get? q.constant with
    | none =>
      rw [hx] at hbounds
      rw [hnode.value_constant_framed hframed hbounds]
      rfl
    | some c =>
      rw [hx] at hbounds
      rw [hnode.value_constant_framed hframed hbounds]
      rfl
  · rw [VarMap.get?_ofValues, Option.isSome_iff_ne_none, ne_eq, List.getElem?_eq_none_iff]
    omega

theorem evaluate_pins (htol : 0 ≤ tolerances.bound) {n : Network K} {values ys : List K}
    {cancelled : Bool} (h : (engine tolerances).evaluate cancelled n values = .ok ys) :
    ∃ q a, PinnedAt tolerances.bound n values q a ∧
      ((engine tolerances).ask cancelled q).verdict = .sat a ∧
      a.valuesOf? n.outputs = some ys ∧ (∀ v ∈ n.inputs ++ n.outputs, v ≤ n.numVars) ∧
      (n.inputs.Nodup → n.numVars ∉ n.inputs ++ n.outputs →
        (∀ v ∈ n.inputs ++ n.outputs, v < n.numVars) ∧
          q.boundsOf n.numVars = Bounds.point 1 ∧
          ∀ p ∈ n.inputs.zip values, ∃ y, a.get? p.1 = some y ∧ |y - p.2| ≤ tolerances.bound) := by
  obtain ⟨hlen, q₀, q, a, hq₀, hq, ha, hys⟩ := Engine.evaluate_eq_ok_iff.mp h
  have hpinned := pinnedAt_of_verdict htol hlen hq₀ hq ha
  have hfst : (n.inputs.zip values).map Prod.fst = n.inputs :=
    List.map_fst_zip (le_of_eq hlen)
  have hdeclared : ∀ v ∈ n.inputs ++ n.outputs, v ≤ n.numVars := by
    refine List.forall_mem_append.mpr ⟨fun v hv => ?_, fun v hv => ?_⟩
    · obtain ⟨x, hx⟩ := Option.isSome_iff_exists.mp
        (VarMap.isSome_get?_ofList.mpr (hfst.symm ▸ hv))
      obtain ⟨y, hy, _⟩ := hpinned.near v x hx
      exact (hpinned.allocated v).mp (by simp [hy])
    · exact (hpinned.allocated v).mp (VarMap.isSome_get?_of_valuesOf? hys v hv)
  refine ⟨q, a, hpinned, ha, hys, hdeclared, fun hnodup hnot => ⟨fun v hv => ?_, ?_, fun p hp => ?_⟩⟩
  · exact lt_of_le_of_ne (hdeclared v hv) fun he => hnot (he ▸ hv)
  · obtain ⟨hn, rfl⟩ := Query.compile_eq_ok.mp hq₀
    rw [(Query.pins_of_fixAll hq).of_notMem, Query.boundsOf_compiled_constant]
    exact fun hmem => hnot (List.mem_append_left _ (hfst ▸ hmem))
  · exact hpinned.near _ _ (VarMap.get?_ofList_of_nodup (hfst.symm ▸ hnodup) hp)

def affineNetwork (inputs outputs : List ℕ) : Network ℚ :=
  ⟨2, [⟨1, [(1, 1), (-2, 0)], 3⟩], [], VarMap.empty, inputs, outputs⟩

theorem evaluate_pins_affine :
    (engine Tolerances.standard).evaluate false (affineNetwork [0] [1]) [5] = .ok [13] ∧
      ∃ q a, PinnedAt (1e-7) (affineNetwork [0] [1]) [5] q a ∧
        a.valuesOf? [1] = some [13] ∧ q.boundsOf 2 = Bounds.point 1 := by
  have htol : 0 ≤ (Tolerances.standard : Tolerances ℚ).bound := by decide +kernel
  have h : (engine Tolerances.standard).evaluate false (affineNetwork [0] [1]) [5] = .ok [13] := by
    decide +kernel
  obtain ⟨q, a, hpinned, _, hys, _, hsound⟩ := evaluate_pins htol h
  exact ⟨h, q, a, hpinned, hys, (hsound (by decide) (by decide)).2.1⟩

theorem evaluate_affine_constant :
    (engine Tolerances.standard).evaluate false (affineNetwork [2] [1]) [10] = .ok [30] ∧
      (∃ q q', Query.compile (affineNetwork [2] [1]) = .ok q ∧
        q.fixAll ((affineNetwork [2] [1]).inputs.zip [10]) = .ok q' ∧
        q'.boundsOf 2 = Bounds.point 10) ∧
      ¬ ∀ v ∈ (affineNetwork [2] [1]).inputs, v < (affineNetwork [2] [1]).numVars :=
  ⟨by decide +kernel, ⟨_, _, rfl, rfl, rfl⟩, by decide⟩

end Reference

end ReluVerify
