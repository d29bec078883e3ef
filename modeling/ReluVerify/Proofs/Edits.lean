import ReluVerify.Constraint.Network
import ReluVerify.Proofs.Tableau

namespace ReluVerify

variable {α : Type}

inductive Direction where
  | lower
  | upper
  deriving DecidableEq

namespace Bounds

def side (b : Bounds α) : Direction → Option α
  | .lower => b.lower
  | .upper => b.upper

theorem ext_side {b c : Bounds α} (h : ∀ d, b.side d = c.side d) : b = c := by
  obtain ⟨lower, upper⟩ := b
  have hlower : lower = c.lower := h .lower
  have hupper : upper = c.upper := h .upper
  rw [hlower, hupper]

theorem isUnbounded_iff {b : Bounds α} : b.isUnbounded = true ↔ ∀ d, b.side d = none := by
  rw [isUnbounded, Bool.and_eq_true, Option.isNone_iff_eq_none, Option.isNone_iff_eq_none]
  constructor
  · rintro ⟨hlower, hupper⟩ (_ | _)
    · exact hlower
    · exact hupper
  · exact fun h => ⟨h .lower, h .upper⟩

end Bounds

namespace BoundStore

def set (s : BoundStore α) : Direction → ℕ → α → BoundStore α
  | .lower => setLower s
  | .upper => setUpper s

theorem side_bounds_set (s : BoundStore α) (d d' : Direction) (v u : ℕ) (x : α) :
    (bounds (set s d v x) u).side d' =
      if d = d' ∧ v = u then some x else (bounds s u).side d' := by
  by_cases hv : v = u
  · subst hv
    cases d <;> cases d' <;> simp [set, bounds_setLower, bounds_setUpper, Bounds.side,
      Bounds.withLower, Bounds.withUpper]
  · have hne : ¬(d = d' ∧ v = u) := fun h => hv h.2
    rw [if_neg hne]
    cases d <;> simp [set, bounds_setLower, bounds_setUpper, Ne.symm hv]

theorem mem_keys_set {s : BoundStore α} {d : Direction} {v u : ℕ} {x : α} :
    u ∈ (set s d v x).keys ↔ v = u ∨ u ∈ s.keys := by
  rw [VarMap.mem_keys_iff, VarMap.mem_keys_iff]
  by_cases hv : u = v
  · cases d <;> simp [set, setLower, setUpper, hv]
  · cases d <;> simp [set, setLower, setUpper, hv, Ne.symm hv]

theorem get?_eq_none_of_notMem {s : BoundStore α} {v : ℕ} (h : v ∉ s.keys) : s.get? v = none := by
  rwa [VarMap.mem_keys_iff, Option.isSome_iff_ne_none, not_not] at h

theorem get?_of_mem_keys {s : BoundStore α} {v : ℕ} (h : v ∈ s.keys) :
    s.get? v = some (bounds s v) := by
  obtain ⟨b, hb⟩ := Option.isSome_iff_exists.mp (VarMap.mem_keys_iff.mp h)
  rw [bounds, hb, Option.getD_some]

theorem isUnbounded_of_notMem {s : BoundStore α} {v : ℕ} (h : v ∉ s.keys) :
    (bounds s v).isUnbounded = true := by
  rw [bounds, get?_eq_none_of_notMem h]
  rfl

def Occupied (s : BoundStore α) : Prop := ∀ v ∈ s.keys, (bounds s v).isUnbounded = false

theorem occupied_empty : Occupied (VarMap.empty : BoundStore α) := by
  intro v hv
  cases hv

theorem Occupied.set {s : BoundStore α} (h : s.Occupied) (d : Direction) (v : ℕ) (x : α) :
    (set s d v x).Occupied := by
  intro u hu
  rw [← Bool.not_eq_true, Bounds.isUnbounded_iff]
  intro hnone
  rcases mem_keys_set.mp hu with rfl | hu
  · have hside := hnone d
    rw [side_bounds_set, if_pos ⟨rfl, rfl⟩] at hside
    cases hside
  · refine Bool.eq_false_iff.mp (h u hu) (Bounds.isUnbounded_iff.mpr fun d' => ?_)
    have hside := hnone d'
    rw [side_bounds_set] at hside
    split at hside
    · cases hside
    · exact hside

theorem Occupied.mem_keys_iff {s : BoundStore α} (h : s.Occupied) {v : ℕ} :
    v ∈ s.keys ↔ (bounds s v).isUnbounded = false := by
  refine ⟨h v, fun hv => ?_⟩
  by_contra hnot
  rw [isUnbounded_of_notMem hnot] at hv
  cases hv

theorem Occupied.eq {s t : BoundStore α} (hs : s.Occupied) (ht : t.Occupied)
    (h : ∀ v, bounds s v = bounds t v) : s = t := by
  refine VarMap.ext_get? fun v => ?_
  have hiff : v ∈ s.keys ↔ v ∈ t.keys := by rw [hs.mem_keys_iff, ht.mem_keys_iff, h]
  by_cases hv : v ∈ s.keys
  · rw [get?_of_mem_keys hv, get?_of_mem_keys (hiff.mp hv), h]
  · rw [get?_eq_none_of_notMem hv, get?_eq_none_of_notMem (mt hiff.mpr hv)]

end BoundStore

namespace Network

inductive Edit (α : Type) where
  | allocate
  | equation (e : Equation α)
  | relu (input output : ℕ)
  | bound (d : Direction) (v : ℕ) (x : α)
  | inputs (vars : List ℕ)
  | outputs (vars : List ℕ)
  | clear

namespace Edit

def apply (n : Network α) : Edit α → Network α
  | allocate => n.newVariable.2
  | equation e => n.addEquation e
  | relu input output => n.addRelu input output
  | bound .lower v x => n.setLower v x
  | bound .upper v x => n.setUpper v x
  | inputs vars => n.withInputs vars
  | outputs vars => n.withOutputs vars
  | clear => empty

def written (d : Direction) (v : ℕ) (before : Option α) : Edit α → Option α
  | bound d' v' x => if d' = d ∧ v' = v then some x else before
  | clear => none
  | _ => before

end Edit

def ofEdits (edits : List (Edit α)) : Network α := edits.foldl Edit.apply empty

def lastWritten (d : Direction) (v : ℕ) (edits : List (Edit α)) : Option α :=
  edits.foldl (Edit.written d v) none

theorem bounds_apply_bound (n : Network α) (d : Direction) (v : ℕ) (x : α) :
    (Edit.apply n (.bound d v x)).bounds = BoundStore.set n.bounds d v x := by
  cases d <;> rfl

theorem side_boundsOf_apply (n : Network α) (e : Edit α) (d : Direction) (v : ℕ) :
    ((e.apply n).boundsOf v).side d = e.written d v ((n.boundsOf v).side d) := by
  cases e with
  | bound d' v' x =>
    rw [boundsOf, bounds_apply_bound]
    exact BoundStore.side_bounds_set n.bounds d' d v' v x
  | clear => cases d <;> rfl
  | allocate => rfl
  | equation e => rfl
  | relu input output => rfl
  | inputs vars => rfl
  | outputs vars => rfl

theorem occupied_apply {n : Network α} (h : n.bounds.Occupied) (e : Edit α) :
    (e.apply n).bounds.Occupied := by
  cases e with
  | bound d v x =>
    rw [bounds_apply_bound]
    exact h.set d v x
  | clear => exact BoundStore.occupied_empty
  | allocate => exact h
  | equation e => exact h
  | relu input output => exact h
  | inputs vars => exact h
  | outputs vars => exact h

theorem side_boundsOf_foldl (edits : List (Edit α)) (n : Network α) (d : Direction) (v : ℕ) :
    ((edits.foldl Edit.apply n).boundsOf v).side d =
      edits.foldl (Edit.written d v) ((n.boundsOf v).side d) := by
  induction edits generalizing n with
  | nil => rfl
  | cons e edits ih => rw [List.foldl_cons, ih, side_boundsOf_apply, List.foldl_cons]

theorem side_boundsOf_ofEdits (edits : List (Edit α)) (d : Direction) (v : ℕ) :
    ((ofEdits edits).boundsOf v).side d = lastWritten d v edits := by
  rw [ofEdits, side_boundsOf_foldl, lastWritten]
  cases d <;> rfl

theorem occupied_foldl {n : Network α} (h : n.bounds.Occupied) (edits : List (Edit α)) :
    (edits.foldl Edit.apply n).bounds.Occupied := by
  induction edits generalizing n with
  | nil => exact h
  | cons e edits ih => exact ih (occupied_apply h e)

theorem occupied_ofEdits (edits : List (Edit α)) : (ofEdits edits).bounds.Occupied :=
  occupied_foldl BoundStore.occupied_empty edits

theorem bounds_ofEdits_eq {edits edits' : List (Edit α)}
    (h : ∀ d v, lastWritten d v edits = lastWritten d v edits') :
    (ofEdits edits).bounds = (ofEdits edits').bounds := by
  refine (occupied_ofEdits edits).eq (occupied_ofEdits edits') fun v => Bounds.ext_side fun d => ?_
  have hedits := side_boundsOf_ofEdits edits d v
  have hedits' := side_boundsOf_ofEdits edits' d v
  rw [boundsOf] at hedits hedits'
  rw [hedits, hedits', h]

end Network

end ReluVerify
