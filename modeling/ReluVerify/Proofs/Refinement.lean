import ReluVerify.Constraint.Inequality
import ReluVerify.Proofs.Compile

namespace ReluVerify

variable {K : Type} [Field K] [LinearOrder K]

namespace Network

structure Refines (n n' : Network K) (P : (ℕ → K) → Prop) : Prop where
  numVars_le : n.numVars ≤ n'.numVars
  allocated : n'.Allocated
  inputs : n'.inputs = n.inputs
  outputs : n'.outputs = n.outputs
  sound : ∀ x, n'.Solves x → n.Solves x ∧ P x
  complete : ∀ x, n.Solves x → P x → ∃ y, (∀ v < n.numVars, y v = x v) ∧ n'.Solves y

theorem Refines.trans {n n' n'' : Network K} {P Q : (ℕ → K) → Prop} (h : Refines n n' P)
    (h' : Refines n' n'' Q)
    (hQ : ∀ x y : ℕ → K, (∀ v < n.numVars, y v = x v) → Q x → Q y) :
    Refines n n'' (fun x => P x ∧ Q x) where
  numVars_le := h.numVars_le.trans h'.numVars_le
  allocated := h'.allocated
  inputs := h'.inputs.trans h.inputs
  outputs := h'.outputs.trans h.outputs
  sound := fun x hx => by
    obtain ⟨hx', hq⟩ := h'.sound x hx
    obtain ⟨hx'', hp⟩ := h.sound x hx'
    exact ⟨hx'', hp, hq⟩
  complete := fun x hx hpq => by
    obtain ⟨y, hyx, hy⟩ := h.complete x hx hpq.1
    obtain ⟨z, hzy, hz⟩ := h'.complete y hy (hQ x y hyx hpq.2)
    exact ⟨z, fun v hv => (hzy v (hv.trans_le h.numVars_le)).trans (hyx v hv), hz⟩

theorem Refines.congr {n n' : Network K} {P Q : (ℕ → K) → Prop} (h : Refines n n' P)
    (hPQ : ∀ x, P x ↔ Q x) : Refines n n' Q where
  numVars_le := h.numVars_le
  allocated := h.allocated
  inputs := h.inputs
  outputs := h.outputs
  sound := fun x hx => (h.sound x hx).imp_right (hPQ x).mp
  complete := fun x hx hq => h.complete x hx ((hPQ x).mpr hq)

theorem refines_of_iff {n n' : Network K} {P : (ℕ → K) → Prop} (hn : n'.Allocated)
    (hnum : n'.numVars = n.numVars) (hin : n'.inputs = n.inputs) (hout : n'.outputs = n.outputs)
    (h : ∀ x, n'.Solves x ↔ n.Solves x ∧ P x) : Refines n n' P where
  numVars_le := hnum.ge
  allocated := hn
  inputs := hin
  outputs := hout
  sound := fun x => (h x).mp
  complete := fun x hx hp => ⟨x, fun _ _ => rfl, (h x).mpr ⟨hx, hp⟩⟩

def grow (n : Network K) (count : ℕ) (es : List (Equation K)) (rs : ReluList) : Network K :=
  { n with
    numVars := n.numVars + count
    equations := n.equations ++ es
    relus := n.relus ++ rs }

theorem solves_grow {n : Network K} {count : ℕ} {es : List (Equation K)} {rs : ReluList}
    {x : ℕ → K} : (n.grow count es rs).Solves x ↔ n.Solves x ∧
      (∀ e ∈ es, e.residual x = 0) ∧ ∀ p ∈ rs, x p.output = max (x p.input) 0 := by
  constructor
  · rintro ⟨hequations, hbounds, hrelus⟩
    obtain ⟨hold, hnew⟩ := List.forall_mem_append.mp hequations
    obtain ⟨hold', hnew'⟩ := List.forall_mem_append.mp hrelus
    exact ⟨⟨hold, hbounds, hold'⟩, hnew, hnew'⟩
  · rintro ⟨hx, hes, hrs⟩
    exact ⟨List.forall_mem_append.mpr ⟨hx.equations, hes⟩, hx.bounds,
      List.forall_mem_append.mpr ⟨hx.relus, hrs⟩⟩

omit [Field K] [LinearOrder K] in
theorem allocated_grow {n : Network K} (hn : n.Allocated) {count : ℕ} {es : List (Equation K)}
    {rs : ReluList} (haux : ∀ e ∈ es, n.numVars ≤ e.aux ∧ e.aux < n.numVars + count)
    (hdistinct : (es.map Equation.aux).Nodup)
    (hterms : ∀ e ∈ es, ∀ p ∈ e.terms, p.2 < n.numVars + count)
    (hrelus : ∀ p ∈ rs, p.input < n.numVars + count ∧ p.output < n.numVars + count) :
    (n.grow count es rs).Allocated where
  auxiliary := List.forall_mem_append.mpr
    ⟨fun e he => Nat.lt_add_right count (hn.auxiliary e he), fun e he => (haux e he).2⟩
  terms := List.forall_mem_append.mpr
    ⟨fun e he p hp => Nat.lt_add_right count (hn.terms e he p hp), hterms⟩
  distinct := by
    change ((n.equations ++ es).map Equation.aux).Nodup
    rw [List.map_append, List.nodup_append]
    refine ⟨hn.distinct, hdistinct, fun a ha b hb hab => ?_⟩
    obtain ⟨e, he, rfl⟩ := List.mem_map.mp ha
    obtain ⟨f, hf, rfl⟩ := List.mem_map.mp hb
    have hlt := hn.auxiliary e he
    have hge := (haux f hf).1
    omega
  relus := List.forall_mem_append.mpr
    ⟨fun p hp => ⟨Nat.lt_add_right count (hn.relus p hp).1,
      Nat.lt_add_right count (hn.relus p hp).2⟩, hrelus⟩
  bounds := fun v hv => Nat.lt_add_right count (hn.bounds v hv)

omit [LinearOrder K] in
theorem exists_fresh (x : ℕ → K) (start : ℕ) (values : List K) :
    ∃ y : ℕ → K, (∀ v < start, y v = x v) ∧
      ((List.range values.length).map (start + ·)).map y = values := by
  refine ⟨fun v => if v < start then x v else values.getD (v - start) 0,
    fun v hv => if_pos hv, ?_⟩
  refine List.ext_getElem (by simp) fun i hi hi' => ?_
  simp [List.getElem?_eq_getElem hi']

omit [Field K] [LinearOrder K] in
theorem map_eq_of_lt {vars : List ℕ} {count : ℕ} (h : ∀ v ∈ vars, v < count) {x y : ℕ → K}
    (hxy : ∀ v < count, y v = x v) : vars.map y = vars.map x :=
  List.map_congr_left fun v hv => hxy v (h v hv)

theorem boundsOf_setLower {α : Type} (n : Network α) (v u : ℕ) (b : α) :
    (n.setLower v b).boundsOf u = if u = v then (n.boundsOf v).withLower b else n.boundsOf u :=
  BoundStore.bounds_setLower _ _ _ _

theorem boundsOf_setUpper {α : Type} (n : Network α) (v u : ℕ) (b : α) :
    (n.setUpper v b).boundsOf u = if u = v then (n.boundsOf v).withUpper b else n.boundsOf u :=
  BoundStore.bounds_setUpper _ _ _ _

theorem mem_keys_update {β : Type} {m : VarMap β} {v u : ℕ} {f : Option β → β} :
    u ∈ (m.update v f).keys ↔ u = v ∨ u ∈ m.keys := by
  rw [VarMap.mem_keys_iff, VarMap.mem_keys_iff, VarMap.get?_update]
  by_cases h : u = v <;> simp [h]

omit [Field K] [LinearOrder K] in
theorem Allocated.setLower {n : Network K} (hn : n.Allocated) {v : ℕ} (hv : v < n.numVars)
    (b : K) : (n.setLower v b).Allocated where
  auxiliary := hn.auxiliary
  terms := hn.terms
  distinct := hn.distinct
  relus := hn.relus
  bounds := fun u hu => by
    rcases mem_keys_update.mp hu with rfl | hu
    · exact hv
    · exact hn.bounds u hu

omit [Field K] [LinearOrder K] in
theorem Allocated.setUpper {n : Network K} (hn : n.Allocated) {v : ℕ} (hv : v < n.numVars)
    (b : K) : (n.setUpper v b).Allocated where
  auxiliary := hn.auxiliary
  terms := hn.terms
  distinct := hn.distinct
  relus := hn.relus
  bounds := fun u hu => by
    rcases mem_keys_update.mp hu with rfl | hu
    · exact hv
    · exact hn.bounds u hu

variable [IsStrictOrderedRing K]

theorem within_setLower {n : Network K} {v : ℕ} (hv : (n.boundsOf v).lower = none) {b t : K}
    {x : ℕ → K} : (∀ u, ((n.setLower v b).boundsOf u).Within t (x u)) ↔
      (∀ u, (n.boundsOf u).Within t (x u)) ∧ b - t ≤ x v := by
  have hwithin : ∀ u, ((n.setLower v b).boundsOf u).Within t (x u) ↔
      (n.boundsOf u).Within t (x u) ∧ (u = v → b - t ≤ x v) := by
    intro u
    rw [boundsOf_setLower]
    by_cases hu : u = v
    · subst hu
      simp [Bounds.within_withLower hv]
    · simp [hu]
  simp only [hwithin, forall_and, forall_eq]

theorem within_setUpper {n : Network K} {v : ℕ} (hv : (n.boundsOf v).upper = none) {b t : K}
    {x : ℕ → K} : (∀ u, ((n.setUpper v b).boundsOf u).Within t (x u)) ↔
      (∀ u, (n.boundsOf u).Within t (x u)) ∧ x v ≤ b + t := by
  have hwithin : ∀ u, ((n.setUpper v b).boundsOf u).Within t (x u) ↔
      (n.boundsOf u).Within t (x u) ∧ (u = v → x v ≤ b + t) := by
    intro u
    rw [boundsOf_setUpper]
    by_cases hu : u = v
    · subst hu
      simp [Bounds.within_withUpper hv]
    · simp [hu]
  simp only [hwithin, forall_and, forall_eq]

theorem solves_setLower {n : Network K} {v : ℕ} (hv : (n.boundsOf v).lower = none) {b : K}
    {x : ℕ → K} : (n.setLower v b).Solves x ↔ n.Solves x ∧ b ≤ x v := by
  constructor
  · rintro ⟨hequations, hbounds, hrelus⟩
    obtain ⟨hbounds, hle⟩ := (within_setLower hv).mp hbounds
    exact ⟨⟨hequations, hbounds, hrelus⟩, sub_zero b ▸ hle⟩
  · rintro ⟨hx, hle⟩
    exact ⟨hx.equations, (within_setLower hv).mpr ⟨hx.bounds, (sub_zero b).symm ▸ hle⟩, hx.relus⟩

theorem solves_setUpper {n : Network K} {v : ℕ} (hv : (n.boundsOf v).upper = none) {b : K}
    {x : ℕ → K} : (n.setUpper v b).Solves x ↔ n.Solves x ∧ x v ≤ b := by
  constructor
  · rintro ⟨hequations, hbounds, hrelus⟩
    obtain ⟨hbounds, hle⟩ := (within_setUpper hv).mp hbounds
    exact ⟨⟨hequations, hbounds, hrelus⟩, add_zero b ▸ hle⟩
  · rintro ⟨hx, hle⟩
    exact ⟨hx.equations, (within_setUpper hv).mpr ⟨hx.bounds, (add_zero b).symm ▸ hle⟩, hx.relus⟩

theorem refines_setLower {n : Network K} (hn : n.Allocated) {v : ℕ} (hv : v < n.numVars)
    (hfree : (n.boundsOf v).lower = none) (b : K) :
    Refines n (n.setLower v b) (fun x => b ≤ x v) :=
  refines_of_iff (hn.setLower hv b) rfl rfl rfl fun _ => solves_setLower hfree

theorem refines_setUpper {n : Network K} (hn : n.Allocated) {v : ℕ} (hv : v < n.numVars)
    (hfree : (n.boundsOf v).upper = none) (b : K) :
    Refines n (n.setUpper v b) (fun x => x v ≤ b) :=
  refines_of_iff (hn.setUpper hv b) rfl rfl rfl fun _ => solves_setUpper hfree

def leftSide (vars : List ℕ) (coefficients : List K) (x : ℕ → K) : K :=
  ((coefficients.zip vars).map (fun p => p.1 * x p.2)).sum

omit [LinearOrder K] [IsStrictOrderedRing K] in
theorem leftSide_congr {vars : List ℕ} {count : ℕ} (h : ∀ v ∈ vars, v < count) {x y : ℕ → K}
    (hxy : ∀ v < count, y v = x v) (coefficients : List K) :
    leftSide vars coefficients y = leftSide vars coefficients x := by
  unfold leftSide
  refine congrArg List.sum (List.map_congr_left fun p hp => ?_)
  rw [hxy _ (h _ (List.of_mem_zip hp).2)]

omit [IsStrictOrderedRing K] in
theorem residual_inequality (slack : ℕ) (vars : List ℕ) (coefficients : List K) (rhs : K)
    (x : ℕ → K) : (inequality slack vars coefficients rhs).residual x =
      leftSide vars coefficients x + x slack - rhs := by
  simp [inequality, Equation.residual, leftSide]

omit [IsStrictOrderedRing K] in
theorem allocated_inequality {n : Network K} (hn : n.Allocated) {vars : List ℕ}
    (hvars : ∀ v ∈ vars, v < n.numVars) (coefficients : List K) (rhs : K) :
    (n.grow 1 [inequality n.numVars vars coefficients rhs] []).Allocated := by
  refine allocated_grow hn ?_ (by simp) ?_ (by simp)
  · simp [inequality]
  · rw [List.forall_mem_singleton]
    refine List.forall_mem_append.mpr ⟨fun p hp => ?_, by simp⟩
    exact Nat.lt_add_right 1 (hvars _ (List.of_mem_zip hp).2)

end Network

end ReluVerify
