import ReluVerify.Proofs.Simplex.Check
import ReluVerify.Proofs.Simplex.Recurrence

namespace ReluVerify

variable {K : Type} [Field K] [LinearOrder K]

namespace Simplex

open Relation

def Inverse (rowOf : List (Option ℕ)) (basics : List ℕ) : Prop :=
  ∀ p i : ℕ, rowOf[p]? = some (some i) ↔ basics[i]? = some p

theorem Inverse.push {rowOf : List (Option ℕ)} {basics : List ℕ} (h : Inverse rowOf basics)
    {p : ℕ} (hp : p < rowOf.length) (hnew : p ∉ basics) :
    Inverse (rowOf.set p (some basics.length)) (basics ++ [p]) := by
  intro q i
  rw [List.getElem?_set, List.getElem?_append]
  have hold := h q i
  grind

theorem Inverse.exchange {rowOf : List (Option ℕ)} {basics : List ℕ} (h : Inverse rowOf basics)
    (hnodup : basics.Nodup) {i leaving entering : ℕ} (hi : basics[i]? = some leaving)
    (he : entering < rowOf.length) (hnew : entering ∉ basics) :
    Inverse ((rowOf.set entering (some i)).set leaving none) (basics.set i entering) := by
  have hlt : i < basics.length := (List.getElem?_eq_some_iff.mp hi).1
  have hne : entering ≠ leaving := fun heq => hnew (heq ▸ List.mem_of_getElem? hi)
  have hunique : ∀ k : ℕ, basics[k]? = some leaving → k = i := fun k hk =>
    ((List.getElem?_inj hlt hnodup).mp (hi.trans hk.symm)).symm
  intro p k
  rw [List.getElem?_set, List.getElem?_set, List.getElem?_set, List.length_set]
  have hold := h p k
  grind

theorem map_replace_eq_set {basics : List ℕ} (hnodup : basics.Nodup) {i leaving : ℕ}
    (hi : basics[i]? = some leaving) (entering : ℕ) :
    basics.map (fun b => if b = leaving then entering else b) = basics.set i entering := by
  have hlt : i < basics.length := (List.getElem?_eq_some_iff.mp hi).1
  refine List.ext_getElem? fun k => ?_
  rw [List.getElem?_map, List.getElem?_set]
  by_cases hk : i = k
  · subst hk
    rw [hi, if_pos rfl, if_pos hlt, Option.map_some, if_pos rfl]
  · rw [if_neg hk]
    cases hget : basics[k]? with
    | none => rfl
    | some b =>
      have hb : b ≠ leaving := by
        rintro rfl
        exact hk ((List.getElem?_inj hlt hnodup).mp (hi.trans hget.symm))
      simp [hb]

-- the rows together with the table from variables to the rows they are basic in
structure Indexed (K : Type) where
  simplex : Simplex K
  rowOf : List (Option ℕ)

namespace Indexed

def ofBounds (constant : ℕ) (bounds : List (Bounds K)) (tolerance : K) : Indexed K :=
  ⟨Simplex.ofBounds constant bounds tolerance, bounds.map fun _ => none⟩

def addEquality (c : Indexed K) (e : Equality K) : Indexed K where
  simplex := c.simplex.addEquality e.1 e.2
  rowOf := match c.simplex.choose? (reduce c.simplex.rows e.1) e.2 with
    | some p => c.rowOf.set p (some c.simplex.rows.length)
    | none => c.rowOf

def adding (c : Indexed K) (equalities : List (Equality K)) : Indexed K :=
  equalities.foldl addEquality c

def assembled (constant : ℕ) (bounds : List (Bounds K)) (tolerance : K)
    (equalities : List (Equality K)) : Indexed K :=
  (ofBounds constant bounds tolerance).adding equalities

def start (c : Indexed K) : Indexed K := ⟨c.simplex.start, c.rowOf⟩

-- the entering variable takes over the row, and the leaving one has none
def pivot (c : Indexed K) (i : ℕ) (r : Row K) (entering : ℕ) (target : K) : Indexed K :=
  ⟨c.simplex.pivot r entering target, (c.rowOf.set entering (some i)).set r.basic none⟩

inductive Turn (c : Indexed K) : Indexed K → Prop
  | pivot {i : ℕ} {r : Row K} {w : Violation K} {v : ℕ} (hi : c.simplex.rows[i]? = some r)
      (hr : c.simplex.violatedRow? = some (r, w))
      (hv : c.simplex.entering? r w.increase = some v) : Turn c (c.pivot i r v w.target)

theorem simplex_adding (c : Indexed K) (equalities : List (Equality K)) :
    (c.adding equalities).simplex = c.simplex.adding equalities := by
  induction equalities generalizing c with
  | nil => rfl
  | cons e equalities ih => exact ih (c.addEquality e)

theorem simplex_assembled (constant : ℕ) (bounds : List (Bounds K)) (tolerance : K)
    (equalities : List (Equality K)) : (assembled constant bounds tolerance equalities).simplex =
      Simplex.assembled constant bounds tolerance equalities :=
  simplex_adding _ equalities

theorem Turn.turn {c d : Indexed K} (h : c.Turn d) : Simplex.Turn c.simplex d.simplex := by
  cases h with
  | pivot hi hr hv =>
    rw [Simplex.Turn, step, hr]
    dsimp only
    rw [hv]
    rfl

variable [IsStrictOrderedRing K]

theorem exists_turn {c : Indexed K} {t : Simplex K} (h : Simplex.Turn c.simplex t) :
    ∃ d, c.Turn d ∧ d.simplex = t := by
  obtain ⟨r, w, v, hr, hv, rfl⟩ := step_eq_inr h
  obtain ⟨i, hi⟩ := List.mem_iff_getElem?.mp (violatedRow?_eq_some hr).1
  exact ⟨_, .pivot hi hr hv, rfl⟩

omit [IsStrictOrderedRing K] in
theorem reaches_simplex {c d : Indexed K} (h : ReflTransGen Turn c d) :
    ReflTransGen Simplex.Turn c.simplex d.simplex :=
  h.lift simplex fun _ _ => Turn.turn

theorem exists_reaches {c : Indexed K} {t : Simplex K}
    (h : ReflTransGen Simplex.Turn c.simplex t) : ∃ d, ReflTransGen Turn c d ∧ d.simplex = t := by
  induction h with
  | refl => exact ⟨c, .refl, rfl⟩
  | tail _ hturn ih =>
    obtain ⟨d, hd, rfl⟩ := ih
    obtain ⟨d', hd', rfl⟩ := exists_turn hturn
    exact ⟨d', hd.tail hd', rfl⟩

structure Listed (c : Indexed K) : Prop where
  length : c.rowOf.length = c.simplex.numVars
  inverse : Inverse c.rowOf (c.simplex.rows.map Row.basic)

omit [IsStrictOrderedRing K] in
theorem listed_ofBounds (constant : ℕ) (bounds : List (Bounds K)) (tolerance : K) :
    (ofBounds constant bounds tolerance).Listed where
  length := List.length_map _
  inverse := fun p i => by
    simp only [ofBounds, Simplex.ofBounds, List.getElem?_map]
    cases bounds[p]? <;> simp

theorem Listed.addEquality {c : Indexed K} (h : c.Listed) (hs : c.simplex.Tidy) {e : Equality K}
    (he : e.1.length = c.simplex.numVars) : (c.addEquality e).Listed := by
  cases hp : c.simplex.choose? (reduce c.simplex.rows e.1) e.2 with
  | none =>
    have hrows : (c.simplex.addEquality e.1 e.2).rows = c.simplex.rows := by
      rw [addEquality_of_none hp]
      split <;> rfl
    simp only [Indexed.addEquality, hp]
    exact ⟨h.length.trans (numVars_addEquality ..).symm, hrows ▸ h.inverse⟩
  | some p =>
    obtain ⟨helig, hpivot⟩ := choose?_eq_some hp
    have hlt : p < c.rowOf.length := by
      rw [h.length, ← length_reduce hs.length he]
      exact lt_length_of_isPivot hpivot
    have hnew : p ∉ c.simplex.rows.map Row.basic := fun hmem => by
      obtain ⟨r, hr, hrp⟩ := List.mem_map.mp hmem
      exact (eligible_iff.mp helig).2 r hr hrp
    have hpush := h.inverse.push hlt hnew
    rw [List.length_map] at hpush
    simp only [Indexed.addEquality, hp]
    refine ⟨?_, ?_⟩
    · rw [List.length_set, h.length, numVars_addEquality]
    · rwa [addEquality_of_some hp, map_basic_extendRows]

theorem Listed.adding {c : Indexed K} (h : c.Listed) (hs : c.simplex.Tidy)
    {equalities : List (Equality K)} (he : ∀ e ∈ equalities, e.1.length = c.simplex.numVars) :
    (c.adding equalities).Listed := by
  induction equalities generalizing c with
  | nil => exact h
  | cons e equalities ih =>
    rw [List.forall_mem_cons] at he
    refine ih (h.addEquality hs he.1) (tidy_addEquality hs he.1 e.2) fun f hf => ?_
    exact (he.2 f hf).trans (numVars_addEquality ..).symm

omit [IsStrictOrderedRing K] in
theorem Listed.turn {c d : Indexed K} (h : c.Listed) (hs : c.simplex.Tidy) (hd : c.Turn d) :
    d.Listed := by
  cases hd with
  | @pivot i r w v hi hr hv =>
    obtain ⟨hlt, hnb, _, _⟩ := entering?_eq_some hv
    have hnew : v ∉ c.simplex.rows.map Row.basic := fun hmem => by
      obtain ⟨q, hq, hqv⟩ := List.mem_map.mp hmem
      exact hnb q hq hqv
    have hi' : (c.simplex.rows.map Row.basic)[i]? = some r.basic := by
      rw [List.getElem?_map, hi]
      rfl
    have hexchange := h.inverse.exchange hs.distinct hi' (h.length.symm ▸ hlt) hnew
    refine ⟨?_, ?_⟩
    · change ((c.rowOf.set v (some i)).set r.basic none).length = c.simplex.numVars
      rw [List.length_set, List.length_set, h.length]
    · change Inverse _ ((c.simplex.pivot r v w.target).rows.map Row.basic)
      rwa [rows_pivot, map_basic_exchangeRows, map_replace_eq_set hs.distinct hi']

theorem listed_of_reaches {c d : Indexed K} (h : c.Listed) (hs : c.simplex.Settled)
    (hd : ReflTransGen Turn c d) : d.Listed := by
  induction hd with
  | refl => exact h
  | tail hreach hturn ih =>
    exact ih.turn (hs.reaches (reaches_simplex hreach)).1.tidy hturn

end Indexed

def Drops (s : Simplex K) (e : Equality K) : Prop :=
  s.choose? (reduce s.rows e.1) e.2 = none

variable [IsStrictOrderedRing K]

theorem satisfied_adding_iff {s : Simplex K} (hs : s.Tidy) {equalities : List (Equality K)}
    (h : ∀ e ∈ equalities, e.1.length = s.numVars) {x : ℕ → K} :
    (s.adding equalities).Satisfied x ↔ s.Satisfied x ∧ ∀ before e after,
      equalities = before ++ e :: after → ¬ (s.adding before).Drops e →
        combination e.1 x = 0 := by
  induction equalities generalizing s with
  | nil =>
    refine ⟨fun hx => ⟨hx, fun before e after hsplit => ?_⟩, And.left⟩
    simp at hsplit
  | cons f equalities ih =>
    rw [List.forall_mem_cons] at h
    have hfirst : (s.addEquality f.1 f.2).Satisfied x ↔
        s.Satisfied x ∧ (¬ s.Drops f → combination f.1 x = 0) := by
      cases hp : s.choose? (reduce s.rows f.1) f.2 with
      | none => simp [satisfied_addEquality_of_none hp, Drops, hp]
      | some p => simp [satisfied_addEquality_of_some hs h.1 hp, Drops, hp]
    rw [adding_cons, ih (tidy_addEquality hs h.1 f.2) (by simpa using h.2), hfirst, and_assoc]
    refine and_congr_right fun _ => ⟨?_, fun hall => ⟨?_, ?_⟩⟩
    · rintro ⟨hf, hall⟩ before e after hsplit hkept
      cases before with
      | nil =>
        obtain ⟨rfl, rfl⟩ := List.cons_eq_cons.mp hsplit
        exact hf hkept
      | cons g before =>
        obtain ⟨rfl, htail⟩ := List.cons_eq_cons.mp hsplit
        exact hall before e after htail hkept
    · exact hall [] f equalities rfl
    · exact fun before e after hsplit => hall (f :: before) e after (congrArg _ hsplit)

omit [IsStrictOrderedRing K] in
theorem Settled.refreshed_eq {s : Simplex K} (hs : s.Settled) : s.refreshed = s := by
  have hvalues : s.refreshed.values = s.values := by
    refine List.ext_getElem ?_ fun v hv hv' => ?_
    · rw [values_refreshed, length_foldl_refresh]
    · have hvalue := hs.value_refreshed (hs.values_length ▸ hv')
      rwa [value, value, List.getD_eq_getElem _ _ hv, List.getD_eq_getElem _ _ hv'] at hvalue
  exact congrArg (fun values => { s with values := values }) hvalues

section

variable (constant : ℕ) (bounds : List (Bounds K)) (tolerance : K)
  (equalities : List (Equality K))

-- an equality that becomes no row says, up to the rows there are, next to nothing
structure Vanishes (before : List (Equality K)) (e : Equality K) (a : List K) : Prop where
  length : a.length = bounds.length
  equivalent : ∀ x, (assembled constant bounds tolerance before).Satisfied x →
    combination e.1 x = combination a x
  basic : ∀ v, (assembled constant bounds tolerance before).isBasic v = true → a.getD v 0 = 0
  nonbasic : ∀ v < bounds.length, v ≠ constant →
    (assembled constant bounds tolerance before).isBasic v = false → |a.getD v 0| ≤ pivotFloor

structure Represents (c : Indexed K) : Prop where
  inverse : ∀ p i : ℕ, c.rowOf[p]? = some (some i) ↔
    ∃ r, c.simplex.rows[i]? = some r ∧ r.basic = p
  isBasic : ∀ p, c.simplex.isBasic p = true ↔ ∃ i, c.rowOf[p]? = some (some i)
  ne_constant : ∀ r ∈ c.simplex.rows, r.basic ≠ constant
  columns : ∀ r ∈ c.simplex.rows, ∀ q ∈ c.simplex.rows, r.coeffs.getD q.basic 0 = 0
  kept : ∀ x, c.simplex.Satisfied x ↔ ∀ before e after, equalities = before ++ e :: after →
    ¬ (assembled constant bounds tolerance before).Drops e → combination e.1 x = 0
  dropped : ∀ before e after, equalities = before ++ e :: after →
    (assembled constant bounds tolerance before).Drops e →
      (∀ x, c.simplex.Satisfied x → (assembled constant bounds tolerance before).Satisfied x) ∧
        ∃ a, Vanishes constant bounds tolerance before e a

structure Balanced (c : Indexed K) : Prop where
  basic : ∀ r ∈ c.simplex.rows, c.simplex.value r.basic = Scalar.dot r.coeffs c.simplex.values
  refreshed : c.simplex.refreshed = c.simplex
  nonbasic : ∀ v < bounds.length, c.simplex.isBasic v = false →
    (bounds[v]?.getD Bounds.free).Within tolerance (c.simplex.value v)

end

theorem balanced_of_settled {bounds : List (Bounds K)} {tolerance : K} (htol : 0 ≤ tolerance)
    {c : Indexed K} (hs : c.simplex.Settled)
    (hbounds : ∀ v, c.simplex.boundsOf v = bounds[v]?.getD Bounds.free)
    (hnum : c.simplex.numVars = bounds.length)
    (hcross : ∀ v < bounds.length, crossed tolerance (bounds[v]?.getD Bounds.free) = false) :
    Balanced bounds tolerance c where
  basic := fun r hr => (hs.consistent r hr).trans (dot_eq_combination _ _).symm
  refreshed := hs.refreshed_eq
  nonbasic := fun v hv hb => by
    have hrest := hs.resting v (hnum ▸ hv) fun q hq he => by
      rw [isBasic_iff.mpr ⟨q, hq, he⟩] at hb
      cases hb
    rw [hbounds] at hrest
    exact hrest.within htol (hcross v hv)

section

variable {constant : ℕ} {bounds : List (Bounds K)} {tolerance : K}
  {equalities : List (Equality K)} (hlen : ∀ e ∈ equalities, e.1.length = bounds.length)

include hlen

theorem exists_vanishes {before after : List (Equality K)} {e : Equality K}
    (hsplit : equalities = before ++ e :: after)
    (h : (assembled constant bounds tolerance before).Drops e) :
    ∃ a, Vanishes constant bounds tolerance before e a := by
  have htidy : (assembled constant bounds tolerance before).Tidy := tidy_prefix hlen hsplit
  have he : e.1.length = (assembled constant bounds tolerance before).numVars :=
    length_of_split hlen hsplit
  refine ⟨reduce (assembled constant bounds tolerance before).rows e.1, ?_, fun x hx => ?_,
    fun v hv => ?_, fun v hv hne _ => ?_⟩
  · rw [length_reduce htidy.length he, numVars_assembled]
  · exact (combination_reduce htidy.length htidy.basic_lt hx he).symm
  · obtain ⟨r, hr, rfl⟩ := isBasic_iff.mp hv
    exact getD_reduce_basic htidy he hr
  · exact abs_getD_reduce_le htidy he h (by rwa [numVars_assembled]) (by rwa [constant_assembled])

theorem satisfied_prefix {before rest : List (Equality K)} (hsplit : equalities = before ++ rest)
    {x : ℕ → K} (hx : (assembled constant bounds tolerance equalities).Satisfied x) :
    (assembled constant bounds tolerance before).Satisfied x := by
  have htidy : (assembled constant bounds tolerance before).Tidy := tidy_prefix hlen hsplit
  subst hsplit
  have hadding : assembled constant bounds tolerance (before ++ rest) =
      (assembled constant bounds tolerance before).adding rest := List.foldl_append
  rw [hadding] at hx
  refine satisfied_of_adding htidy (fun f hf => ?_) hx
  rw [numVars_assembled]
  exact hlen f (List.mem_append_right _ hf)

theorem represents_of_listed {c : Indexed K} (h : c.Listed) (hs : c.simplex.Tidy)
    (hconstant : c.simplex.constant = constant)
    (hsame : ∀ x, c.simplex.Satisfied x ↔
      (assembled constant bounds tolerance equalities).Satisfied x) :
    Represents constant bounds tolerance equalities c := by
  have hinverse : ∀ p i : ℕ, c.rowOf[p]? = some (some i) ↔
      ∃ r, c.simplex.rows[i]? = some r ∧ r.basic = p := fun p i => by
    rw [h.inverse p i, List.getElem?_map, Option.map_eq_some_iff]
  refine ⟨hinverse, fun p => ?_, fun r hr => hconstant ▸ hs.basic_ne r hr, hs.solved,
    fun x => ?_, fun before e after hsplit hdrops => ⟨fun x hx => ?_, ?_⟩⟩
  · simp only [isBasic_iff, hinverse, List.mem_iff_getElem?]
    tauto
  · rw [hsame, assembled, satisfied_adding_iff tidy_ofBounds hlen,
      and_iff_right (satisfied_ofBounds x)]
    rfl
  · exact satisfied_prefix hlen hsplit ((hsame x).mp hx)
  · exact exists_vanishes hlen hsplit hdrops

theorem represents_of_reaches (htol : 0 ≤ tolerance)
    (hpin : ∃ k, bounds[constant]?.getD Bounds.free = Bounds.point k) :
    Represents constant bounds tolerance equalities
      (Indexed.assembled constant bounds tolerance equalities) ∧
    (∀ c, ReflTransGen Indexed.Turn
        (Indexed.assembled constant bounds tolerance equalities).start c →
      Represents constant bounds tolerance equalities c ∧
        (c.simplex.contradictory = false → Balanced bounds tolerance c)) ∧
    (Indexed.assembled constant bounds tolerance equalities).simplex =
      assembled constant bounds tolerance equalities ∧
    ∀ t, ReflTransGen Turn (assembled constant bounds tolerance equalities).start t →
      ∃ c, ReflTransGen Indexed.Turn
        (Indexed.assembled constant bounds tolerance equalities).start c ∧ c.simplex = t := by
  have hsimplex := Indexed.simplex_assembled constant bounds tolerance equalities
  have htidy : (assembled constant bounds tolerance equalities).Tidy := tidy_assembled hlen
  have hlisted : (Indexed.assembled constant bounds tolerance equalities).Listed :=
    (Indexed.listed_ofBounds constant bounds tolerance).adding tidy_ofBounds hlen
  have hsettled := settled_assembled hlen htol hpin
  have hstart : (Indexed.assembled constant bounds tolerance equalities).start.simplex =
      (assembled constant bounds tolerance equalities).start := congrArg start hsimplex
  refine ⟨represents_of_listed hlen hlisted (hsimplex ▸ htidy) ?_ fun x => by rw [hsimplex],
    fun c hc => ?_, hsimplex, fun t ht => Indexed.exists_reaches (hstart ▸ ht)⟩
  · rw [hsimplex, constant_assembled]
  · have hreach := Indexed.reaches_simplex hc
    rw [hstart] at hreach
    obtain ⟨hs, hreached⟩ := hsettled.reaches hreach
    have hsame := (sameSystem_start _).trans hreached
    have hlists : c.Listed := by
      refine Indexed.listed_of_reaches ?_ (hstart ▸ hsettled) hc
      exact ⟨hlisted.length, hlisted.inverse⟩
    refine ⟨represents_of_listed hlen hlists hs.tidy ?_ hsame.satisfied, fun hcon => ?_⟩
    · rw [hsame.constant, constant_assembled]
    · have hcross := crossed_assembled (hsame.contradictory.symm.trans hcon)
      refine balanced_of_settled htol hs (fun v => ?_) ?_ hcross
      · rw [hsame.boundsOf, boundsOf_assembled]
      · rw [hsame.numVars, numVars_assembled]

end

-- one equality becomes a row, the other one is a multiple of it
def doubledBounds : List (Bounds ℚ) :=
  [⟨some 0, some 1⟩, ⟨some (-1), some 2⟩, ⟨some 2, none⟩, Bounds.point 1]

def doubledSum : List (Equality ℚ) := [([-1, -1, 1, 0], some 2), ([-2, -2, 2, 0], none)]

theorem represents_of_reaches_doubled :
    ∃ c, ReflTransGen Indexed.Turn (Indexed.assembled 3 doubledBounds 1e-9 doubledSum).start c ∧
      c.rowOf[1]? = some (some 0) ∧ Represents 3 doubledBounds 1e-9 doubledSum c ∧
        Balanced doubledBounds 1e-9 c ∧
        ∃ a, Vanishes 3 doubledBounds 1e-9 [([-1, -1, 1, 0], some 2)] ([-2, -2, 2, 0], none) a := by
  have hlen : ∀ e ∈ doubledSum, e.1.length = doubledBounds.length := by decide
  have htol : (0 : ℚ) ≤ 1e-9 := by norm_num
  have hpin : ∃ k, doubledBounds[3]?.getD Bounds.free = Bounds.point k := ⟨1, rfl⟩
  obtain ⟨_, hrun, _, hall⟩ := represents_of_reaches hlen htol hpin
  have hsteps : ∀ i < 2,
      (next^[i] (assembled 3 doubledBounds 1e-9 doubledSum).start).step.isRight = true := by
    decide +kernel
  obtain ⟨c, hc, hsimplex⟩ := hall _ (reaches_iterate hsteps)
  obtain ⟨hrep, hbalanced⟩ := hrun c hc
  have hcon : c.simplex.contradictory = false := by
    rw [hsimplex]
    decide +kernel
  have hrow : (c.simplex.rows.map Row.basic)[0]? = some 1 := by
    rw [hsimplex]
    decide +kernel
  have hdrops : (assembled 3 doubledBounds 1e-9 [([-1, -1, 1, 0], some 2)]).Drops
      ([-2, -2, 2, 0], none) := by
    unfold Drops
    decide +kernel
  refine ⟨c, hc, (hrep.inverse 1 0).mpr ?_, hrep, hbalanced hcon,
    (hrep.dropped [_] _ [] rfl hdrops).2⟩
  rwa [List.getElem?_map, Option.map_eq_some_iff] at hrow

end Simplex

end ReluVerify
