import ReluVerify.Proofs.Advisories
import ReluVerify.Proofs.HalfSpaces

namespace ReluVerify

variable {K : Type} [Field K] [LinearOrder K]

namespace Network

theorem refines_fix [IsStrictOrderedRing K] {n : Network K} (hn : n.Allocated) {v : ℕ}
    (hv : v < n.numVars) (hfree : n.boundsOf v = Bounds.free) (b : K) :
    Refines n (n.fix v b) (fun x => x v = b) := by
  have hlower := refines_setLower hn hv (congrArg Bounds.lower hfree) b
  have hupper : ((n.setLower v b).boundsOf v).upper = none := by
    rw [boundsOf_setLower, if_pos rfl, hfree]
    rfl
  refine (hlower.trans (refines_setUpper hlower.allocated hv hupper b) fun x y hxy h => ?_).congr
    fun x => ?_
  · exact (hxy v hv).trans_le h
  · rw [and_comm, le_antisymm_iff]

@[simp] theorem numVars_fix {α : Type} (n : Network α) (v : ℕ) (b : α) :
    (n.fix v b).numVars = n.numVars := rfl

theorem boundsOf_fix_of_ne {α : Type} {n : Network α} {v u : ℕ} (hu : u ≠ v) (b : α) :
    (n.fix v b).boundsOf u = n.boundsOf u := by
  unfold fix
  rw [boundsOf_setUpper, if_neg hu, boundsOf_setLower, if_neg hu]

def limited (n : Network K) (v : ℕ) : Limit K → Network K
  | .atLeast b => n.setLower v b
  | .atMost b => n.setUpper v b

theorem boundsOf_limited_of_ne {α : Type} {n : Network α} {v u : ℕ} (hu : u ≠ v)
    (l : Limit α) : (n.limited v l).boundsOf u = n.boundsOf u := by
  cases l with
  | atLeast b => exact (boundsOf_setLower n v u b).trans (if_neg hu)
  | atMost b => exact (boundsOf_setUpper n v u b).trans (if_neg hu)

@[simp] theorem numVars_limited {α : Type} (n : Network α) (v : ℕ) (l : Limit α) :
    (n.limited v l).numVars = n.numVars := by
  cases l <;> rfl

end Network

def Limit.Holds (l : Limit K) (y : K) : Prop :=
  match l with
  | .atLeast b => b ≤ y
  | .atMost b => y ≤ b

namespace Network

variable [IsStrictOrderedRing K]

theorem refines_limited {n : Network K} (hn : n.Allocated) {v : ℕ} (hv : v < n.numVars)
    (hfree : n.boundsOf v = Bounds.free) (l : Limit K) :
    Refines n (n.limited v l) (fun x => l.Holds (x v)) := by
  cases l with
  | atLeast b => exact refines_setLower hn hv (congrArg Bounds.lower hfree) b
  | atMost b => exact refines_setUpper hn hv (congrArg Bounds.upper hfree) b

theorem refines_limited_fix {n : Network K} (hn : n.Allocated) {v u : ℕ} (hv : v < n.numVars)
    (hu : u < n.numVars) (huv : u ≠ v) (hvfree : n.boundsOf v = Bounds.free)
    (hufree : n.boundsOf u = Bounds.free) (l : Limit K) (b : K) :
    Refines n ((n.limited v l).fix u b) (fun x => l.Holds (x v) ∧ x u = b) := by
  have hlimited := refines_limited hn hv hvfree l
  have hfix := refines_fix hlimited.allocated (hu.trans_le hlimited.numVars_le)
    ((boundsOf_limited_of_ne huv l).trans hufree) b
  exact hlimited.trans hfix fun x y hxy hx => (hxy u hu).trans hx

end Network

namespace Network

theorem Refines.solves_iff [IsStrictOrderedRing K] {n n' : Network K} {P : (ℕ → K) → Prop}
    (h : Refines n n' P) (hnum : n'.numVars = n.numVars) {x : ℕ → K} :
    n'.Solves x ↔ n.Solves x ∧ P x := by
  refine ⟨h.sound x, fun hx => ?_⟩
  obtain ⟨y, hyx, hy⟩ := h.complete x hx.1 hx.2
  exact hy.congr h.allocated fun v hv => hyx v (hnum ▸ hv)

theorem refines_of_extendsTo {n n' : Network K} {P : (ℕ → K) → Prop} (hn : n'.Allocated)
    (hnum : n.numVars ≤ n'.numVars) (hin : n'.inputs = n.inputs) (hout : n'.outputs = n.outputs)
    (h : ∀ x, n.ExtendsTo n' x ↔ n.Solves x ∧ P x) : Refines n n' P where
  numVars_le := hnum
  allocated := hn
  inputs := hin
  outputs := hout
  sound := fun x hx => (h x).mp ⟨x, fun _ _ => rfl, hx⟩
  complete := fun x hx hp => (h x).mpr ⟨hx, hp⟩

end Network

namespace Advisory

-- rates close to zero count as level flight at the altitude boundary, not at the rate limit
def steadyRate (a : Advisory K) : K := if Property.isLevel a.vlo then 0 else a.vlo

structure Region (a : Advisory K) (c : Constants K) (e : Encounter K) : Prop where
  rate : 0 ≤ (a.turnRate : K) * (e.own * c.rangeV - a.vlo)
  intruder : e.intruder = 0
  altitude : -c.hp ≤ (a.turnRate : K) *
    (e.h * c.rangeH - a.steadyRate * (e.tau * c.rangeTau + c.meanTau))

theorem Directed.steadyRate_eq {a : Advisory K} (ha : a.Directed) : a.steadyRate = a.vlo := by
  unfold steadyRate
  split
  · exact (ha.level ‹_›).symm
  · rfl

theorem Directed.region_iff [IsStrictOrderedRing K] {a : Advisory K} (ha : a.Directed)
    {c : Constants K} (hv : 0 < c.rangeV) (e : Encounter K) :
    a.Region c e ↔ a.Concerns c (c.physical e) := by
  unfold Concerns Constants.physical
  rw [mul_eq_zero, or_iff_left hv.ne']
  constructor
  · rintro ⟨hrate, hintruder, haltitude⟩
    exact ⟨hintruder, hrate, ha.steadyRate_eq ▸ haltitude⟩
  · rintro ⟨hintruder, hrate, haltitude⟩
    exact ⟨hrate, hintruder, ha.steadyRate_eq.symm ▸ haltitude⟩

end Advisory

namespace Property

open Network HalfSpace

variable {n : Network K} {a : Advisory K} {c : Constants K}

def altitudeSpace (a : Advisory K) (c : Constants K) (h tau : ℕ) : HalfSpace K :=
  ⟨[h, tau], [altitudeCoefficient a c, timeCoefficient a c], boundary a c⟩

def prefers (target other : ℕ) : HalfSpace K := ⟨[target, other], [-1, 1], 0⟩

section

variable (hw : a.turnRate = 1 ∨ a.turnRate = -1)

include hw

variable [IsStrictOrderedRing K]

theorem holds_rateLimit (hv : 0 < c.rangeV) (y : K) :
    (rateLimit a c).Holds y ↔ 0 ≤ (a.turnRate : K) * (y * c.rangeV - a.vlo) := by
  unfold rateLimit
  rcases hw with h | h
  · simp [h, Limit.Holds, div_le_iff₀ hv]
  · simp [h, Limit.Holds, le_div_iff₀ hv]

theorem holds_levelLimit (hh : 0 < c.rangeH) (y : K) :
    (levelLimit a c).Holds y ↔ -c.hp ≤ (a.turnRate : K) * (y * c.rangeH) := by
  unfold levelLimit
  rcases hw with h | h
  · simp [h, Limit.Holds, ← neg_div, div_le_iff₀ hh]
  · simp [h, Limit.Holds, le_div_iff₀ hh]

end

theorem gap_altitudeSpace (h tau : ℕ) (x : ℕ → K) : (altitudeSpace a c h tau).gap x =
    c.hp + (a.turnRate : K) *
      (x h * c.rangeH - a.vlo * (x tau * c.rangeTau + c.meanTau)) := by
  simp [gap, leftSide, altitudeSpace, altitudeCoefficient, timeCoefficient, boundary]
  ring

omit [LinearOrder K] in
theorem gap_prefers (target other : ℕ) (x : ℕ → K) :
    (prefers target other).gap x = x target - x other := by
  simp [gap, leftSide, prefers]
  ring

theorem contains_prefers [IsStrictOrderedRing K] {target other : ℕ} {x : ℕ → K} :
    (prefers target other).Contains x ↔ x other ≤ x target := by
  rw [contains_iff, gap_prefers, sub_nonneg]

def marked (a : Advisory K) (c : Constants K) (h own intruder : ℕ) (n : Network K) : Network K :=
  let fixed := (n.limited own (rateLimit a c)).fix intruder 0
  if isLevel a.vlo then fixed.limited h (levelLimit a c) else fixed

def spaces (a : Advisory K) (c : Constants K) (h tau target : ℕ) (others : List ℕ) :
    List (HalfSpace K) :=
  (if isLevel a.vlo then [] else [altitudeSpace a c h tau]) ++ others.map (prefers target)

def encoding (a : Advisory K) (c : Constants K) (start count : ℕ) : PropertyEncoding K :=
  if isLevel a.vlo then
    ⟨rateLimit a c, .single (levelLimit a c), List.range' start count⟩
  else
    ⟨rateLimit a c, .hyperplane (altitudeCoefficient a c) (timeCoefficient a c) (boundary a c)
      start, List.range' (start + 1) count⟩

section

variable {α : Type} {n : Network α}

theorem run_limit (v : ℕ) (l : Limit α) : (limit v l).run n = (.ok (), n.limited v l) := by
  cases l <;> rfl

theorem run_get : (get : Encoding α (Network α)).run n = (.ok n, n) := rfl

theorem run_fix (v : ℕ) (b : α) :
    (modify (·.fix v b) : Encoding α PUnit).run n = (.ok (), n.fix v b) := rfl

theorem run_altitude_level [Scalar α] {a : Advisory α} (hlevel : isLevel a.vlo = true)
    (c : Constants α) (h tau : ℕ) (n : Network α) : (altitude a c h tau).run n =
      (.ok (.single (levelLimit a c)), n.limited h (levelLimit a c)) := by
  unfold altitude
  rw [if_pos hlevel]
  exact run_bind_of_ok (run_limit h _)

theorem run_mapM_require [Scalar α] {β : Type} {space : β → HalfSpace α} {l : List β}
    (h : ∀ b ∈ l, (space b).Fits) (n : Network α) :
    (l.mapM fun b => require (space b).vars (space b).coefficients (space b).rhs).run n =
      (.ok (List.range' n.numVars l.length), n.cuts (l.map space)) := by
  induction l generalizing n with
  | nil => rfl
  | cons b l ih =>
    obtain ⟨hb, hl⟩ := List.forall_mem_cons.mp h
    rw [List.mapM_cons, run_bind_of_ok (run_require_of_fits n hb), run_bind_of_ok (ih hl _)]
    rfl

end

theorem run_dominance (target : ℕ) (others : List ℕ) (n : Network K) :
    (dominance target others).run n =
      (.ok (List.range' n.numVars others.length), n.cuts (others.map (prefers target))) := by
  have hfits : ∀ other ∈ others, (prefers target other : HalfSpace K).Fits :=
    fun _ _ => fits_iff.mpr rfl
  exact run_mapM_require hfits n

theorem run_altitude_steep (hlevel : isLevel a.vlo = false) (h tau : ℕ) (n : Network K) :
    (altitude a c h tau).run n =
      (.ok (.hyperplane (altitudeCoefficient a c) (timeCoefficient a c) (boundary a c) n.numVars),
        n.cut (altitudeSpace a c h tau)) := by
  have hfits : (altitudeSpace a c h tau).Fits := fits_iff.mpr rfl
  unfold altitude
  rw [if_neg (by simp [hlevel])]
  exact run_bind_of_ok (run_require_of_fits n hfits)

theorem run_encode (ha : a.boundsRate = true) {h own intruder tau position target : ℕ}
    (hinputs : n.inputs = [h, own, intruder, tau]) (htarget : n.outputs[position]? = some target) :
    (encode a position c).run n =
      (.ok (some (encoding a c n.numVars (n.outputs.eraseIdx position).length)),
        (marked a c h own intruder n).cuts
          (spaces a c h tau target (n.outputs.eraseIdx position))) := by
  unfold encode
  rw [ha]
  refine (run_bind_of_ok run_get).trans ?_
  simp only [hinputs, htarget]
  rw [run_bind_of_ok (run_limit own (rateLimit a c)), run_bind_of_ok (run_fix intruder 0)]
  cases hlevel : isLevel a.vlo with
  | true =>
    rw [run_bind_of_ok (run_altitude_level hlevel c h tau _), run_bind_of_ok (run_dominance ..)]
    simp [encoding, marked, spaces, hlevel]
    rfl
  | false =>
    rw [run_bind_of_ok (run_altitude_steep hlevel h tau _), run_bind_of_ok (run_dominance ..)]
    simp [encoding, marked, spaces, hlevel]
    rfl

end Property

namespace Network

structure Ready (n : Network K) (h own intruder tau : ℕ) : Prop where
  inputs : n.inputs = [h, own, intruder, tau]
  distinct : n.inputs.Nodup
  input_lt : ∀ v ∈ n.inputs, v < n.numVars
  free : ∀ v ∈ n.inputs, n.boundsOf v = Bounds.free
  output_lt : ∀ v ∈ n.outputs, v < n.numVars

variable {n : Network K} {h own intruder tau : ℕ}

omit [Field K] [LinearOrder K] in
theorem Ready.lt (hr : n.Ready h own intruder tau) :
    h < n.numVars ∧ own < n.numVars ∧ intruder < n.numVars ∧ tau < n.numVars := by
  simpa [hr.inputs] using hr.input_lt

omit [Field K] [LinearOrder K] in
theorem Ready.ne (hr : n.Ready h own intruder tau) :
    h ≠ own ∧ h ≠ intruder ∧ own ≠ intruder := by
  have hdistinct := hr.distinct
  simp only [hr.inputs, List.nodup_cons, List.mem_cons, not_or] at hdistinct
  exact ⟨hdistinct.1.1, hdistinct.1.2.1, hdistinct.2.1.1⟩

omit [Field K] [LinearOrder K] in
theorem Ready.boundsOf (hr : n.Ready h own intruder tau) :
    n.boundsOf h = Bounds.free ∧ n.boundsOf own = Bounds.free ∧
      n.boundsOf intruder = Bounds.free := by
  have hfree := hr.free
  simp only [hr.inputs, List.forall_mem_cons] at hfree
  exact ⟨hfree.1, hfree.2.1, hfree.2.2.1⟩

end Network

namespace Property

open Network HalfSpace

variable {n : Network K} {a : Advisory K} {c : Constants K} {h own intruder tau : ℕ}

def point (h own intruder tau : ℕ) (x : ℕ → K) : Encounter K :=
  ⟨x h, x own, x intruder, x tau⟩

@[simp] theorem numVars_marked : (marked a c h own intruder n).numVars = n.numVars := by
  unfold marked
  split <;> simp

variable [IsStrictOrderedRing K]

theorem refines_marked (hn : n.Allocated) (hr : n.Ready h own intruder tau) :
    n.Refines (marked a c h own intruder n) (fun x =>
      ((rateLimit a c).Holds (x own) ∧ x intruder = 0) ∧
        (isLevel a.vlo = true → (levelLimit a c).Holds (x h))) := by
  obtain ⟨hhlt, hownlt, hintlt, _⟩ := hr.lt
  obtain ⟨hhown, hhint, hownint⟩ := hr.ne
  obtain ⟨hhfree, hownfree, hintfree⟩ := hr.boundsOf
  have hfixed := refines_limited_fix hn hownlt hintlt hownint.symm hownfree hintfree
    (rateLimit a c) 0
  unfold marked
  cases hlevel : isLevel a.vlo with
  | true =>
    -- the altitude limit writes the bounds of `h`, which the two limits before it leave free
    have hfree : ((n.limited own (rateLimit a c)).fix intruder 0).boundsOf h = Bounds.free :=
      (boundsOf_fix_of_ne hhint 0).trans ((boundsOf_limited_of_ne hhown _).trans hhfree)
    refine (hfixed.trans (refines_limited hfixed.allocated (hhlt.trans_le hfixed.numVars_le) hfree
      (levelLimit a c)) fun x y hxy hx => ?_).congr fun x => by simp
    rwa [hxy h hhlt]
  | false => exact hfixed.congr fun x => by simp

omit [IsStrictOrderedRing K] in
theorem lt_of_mem_spaces {count target : ℕ} {others : List ℕ} (hh : h < count) (htau : tau < count)
    (htarget : target < count) (hothers : ∀ v ∈ others, v < count) :
    ∀ s ∈ spaces a c h tau target others, ∀ v ∈ s.vars, v < count := by
  intro s hs
  rcases List.mem_append.mp hs with hs | hs
  · split at hs
    · cases hs
    · obtain rfl := List.mem_singleton.mp hs
      simp [altitudeSpace, hh, htau]
  · obtain ⟨other, hother, rfl⟩ := List.mem_map.mp hs
    simp [prefers, htarget, hothers other hother]

theorem contains_spaces {target : ℕ} {others : List ℕ} {x : ℕ → K} :
    (∀ s ∈ spaces a c h tau target others, s.Contains x) ↔
      (isLevel a.vlo = false → (altitudeSpace a c h tau).Contains x) ∧
        ∀ v ∈ others, x v ≤ x target := by
  unfold spaces
  rw [List.forall_mem_append, List.forall_mem_map]
  cases isLevel a.vlo <;> simp [contains_prefers]

theorem region_iff (hw : a.turnRate = 1 ∨ a.turnRate = -1) (hh : 0 < c.rangeH)
    (hv : 0 < c.rangeV) {x : ℕ → K} : a.Region c (point h own intruder tau x) ↔
      (((rateLimit a c).Holds (x own) ∧ x intruder = 0) ∧
        (isLevel a.vlo = true → (levelLimit a c).Holds (x h))) ∧
        (isLevel a.vlo = false → (altitudeSpace a c h tau).Contains x) := by
  have haltitude : -c.hp ≤ (a.turnRate : K) *
      (x h * c.rangeH - a.steadyRate * (x tau * c.rangeTau + c.meanTau)) ↔
        (isLevel a.vlo = true → (levelLimit a c).Holds (x h)) ∧
          (isLevel a.vlo = false → (altitudeSpace a c h tau).Contains x) := by
    unfold Advisory.steadyRate
    cases isLevel a.vlo with
    | true => simp [holds_levelLimit hw hh]
    | false => simp [contains_iff, gap_altitudeSpace, neg_le_iff_add_nonneg']
  rw [holds_rateLimit hw hv, and_assoc (b := _ → _), ← haltitude]
  constructor
  · rintro ⟨hrate, hintruder, hle⟩
    exact ⟨⟨hrate, hintruder⟩, hle⟩
  · rintro ⟨⟨hrate, hintruder⟩, hle⟩
    exact ⟨hrate, hintruder, hle⟩

section

variable (hn : n.Allocated) (hr : n.Ready h own intruder tau) {target : ℕ} {others : List ℕ}
  (htarget : target < n.numVars) (hothers : ∀ v ∈ others, v < n.numVars)

include hn hr htarget hothers

theorem cutBy_spaces : (marked a c h own intruder n).CutBy
    ((marked a c h own intruder n).cuts (spaces a c h tau target others))
    (spaces a c h tau target others) := by
  obtain ⟨hhlt, _, _, htault⟩ := hr.lt
  refine cutBy_cuts (refines_marked hn hr).allocated (ordered_of_forall_lt ?_)
  rw [numVars_marked]
  exact lt_of_mem_spaces hhlt htault htarget hothers

theorem extendsTo_spaces (hw : a.turnRate = 1 ∨ a.turnRate = -1) (hh : 0 < c.rangeH)
    (hv : 0 < c.rangeV) {x : ℕ → K} :
    n.ExtendsTo ((marked a c h own intruder n).cuts (spaces a c h tau target others)) x ↔
      n.Solves x ∧ a.Region c (point h own intruder tau x) ∧ ∀ v ∈ others, x v ≤ x target := by
  obtain ⟨hhlt, _, _, htault⟩ := hr.lt
  have hmarked := refines_marked (a := a) (c := c) hn hr
  have hvars : ∀ s ∈ spaces a c h tau target others, ∀ v ∈ s.vars,
      v < (marked a c h own intruder n).numVars := by
    rw [numVars_marked]
    exact lt_of_mem_spaces hhlt htault htarget hothers
  have hcuts := extendsTo_cuts (x := x) hmarked.allocated hvars
  rw [ExtendsTo, numVars_marked] at hcuts
  rw [ExtendsTo, hcuts, hmarked.solves_iff numVars_marked, contains_spaces, region_iff hw hh hv]
  tauto

end

theorem forall_mem_eraseIdx {l : List ℕ} {i v : ℕ} (h : l[i]? = some v) {p : ℕ → Prop}
    (hp : p v) : (∀ u ∈ l.eraseIdx i, p u) ↔ ∀ u ∈ l, p u := by
  refine ⟨fun herase u hu => ?_, fun hl u hu => hl u (List.mem_of_mem_eraseIdx hu)⟩
  obtain ⟨j, hj⟩ := List.mem_iff_getElem?.mp hu
  by_cases hij : j = i
  · rw [hij, h] at hj
    rwa [← Option.some.inj hj]
  · exact herase u (List.mem_eraseIdx_iff_getElem?.mpr ⟨j, hij, hj⟩)

theorem exists_encode (hn : n.Allocated) (hr : n.Ready h own intruder tau) (ha : a.Directed)
    (hh : 0 < c.rangeH) (hv : 0 < c.rangeV) {position target : ℕ}
    (htarget : n.outputs[position]? = some target) :
    ∃ enc n', (encode a position c).run n = (.ok (some enc), n') ∧ n.Refines n' (fun x =>
      a.Concerns c (c.physical (point h own intruder tau x)) ∧
        ∀ v ∈ n.outputs, x v ≤ x target) := by
  have htargetlt := hr.output_lt target (List.mem_of_getElem? htarget)
  have hothers : ∀ v ∈ n.outputs.eraseIdx position, v < n.numVars := fun v hv =>
    hr.output_lt v (List.mem_of_mem_eraseIdx hv)
  have hmarked := refines_marked (a := a) (c := c) hn hr
  have hcut := cutBy_spaces (a := a) (c := c) hn hr htargetlt hothers
  obtain ⟨q, hq⟩ := hcut.compiles
  refine ⟨_, _, run_encode ha.boundsRate hr.inputs htarget, refines_of_extendsTo
    (Query.compile_eq_ok.mp hq).1 ?_ (hcut.inputs.trans hmarked.inputs)
    (hcut.outputs.trans hmarked.outputs) fun x => ?_⟩
  · rw [hcut.numVars, numVars_marked]
    exact Nat.le_add_right _ _
  · rw [extendsTo_spaces hn hr htargetlt hothers ha.sense hh hv, ha.region_iff hv,
      forall_mem_eraseIdx (p := fun v => x v ≤ x target) htarget le_rfl]

end Property

end ReluVerify
