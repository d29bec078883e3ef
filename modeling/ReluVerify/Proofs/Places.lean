import ReluVerify.Proofs.Edits

namespace ReluVerify

section

variable {β : Type} {P Q : β → Prop}

def Since (P Q : β → Prop) (l : List β) : Prop :=
  ∃ before b after, l = before ++ b :: after ∧ P b ∧ ∀ c ∈ after, ¬ Q c

@[simp] theorem not_since_nil : ¬ Since P Q [] := by
  rintro ⟨before, b, after, h, -⟩
  simp at h

theorem since_snoc {l : List β} {b : β} : Since P Q (l ++ [b]) ↔ P b ∨ (Since P Q l ∧ ¬ Q b) := by
  constructor
  · rintro ⟨before, a, after, h, ha, hafter⟩
    rcases List.eq_nil_or_concat after with rfl | ⟨after, c, rfl⟩
    · obtain ⟨-, hlast⟩ := List.append_inj' h rfl
      cases hlast
      exact Or.inl ha
    · rw [List.concat_eq_append] at h hafter
      rw [← List.cons_append, ← List.append_assoc] at h
      obtain ⟨rfl, hlast⟩ := List.append_inj' h rfl
      cases hlast
      obtain ⟨hinit, hb⟩ := List.forall_mem_append.mp hafter
      exact Or.inr ⟨⟨before, a, after, rfl, ha, hinit⟩, hb b List.mem_cons_self⟩
  · rintro (hb | ⟨⟨before, a, after, rfl, ha, hafter⟩, hb⟩)
    · exact ⟨l, b, [], rfl, hb, by simp⟩
    · refine ⟨before, a, after ++ [b], by simp, ha, List.forall_mem_append.mpr ⟨hafter, ?_⟩⟩
      simpa using hb

end

variable {α : Type}

namespace Bounds

def withSide (b : Bounds α) : Direction → α → Bounds α
  | .lower => b.withLower
  | .upper => b.withUpper

theorem withSide_comm {d d' : Direction} (h : d ≠ d') (b : Bounds α) (x x' : α) :
    (b.withSide d x).withSide d' x' = (b.withSide d' x').withSide d x := by
  cases d with
  | lower =>
    cases d' with
    | lower => exact absurd rfl h
    | upper => rfl
  | upper =>
    cases d' with
    | lower => rfl
    | upper => exact absurd rfl h

theorem isUnbounded_eq_false_iff {b : Bounds α} :
    b.isUnbounded = false ↔ ∃ d x, b.side d = some x := by
  rw [← Bool.not_eq_true, isUnbounded_iff, not_forall]
  exact exists_congr fun _ => Option.ne_none_iff_exists'

end Bounds

namespace BoundStore

theorem get?_set (s : BoundStore α) (d : Direction) (v u : ℕ) (x : α) :
    (set s d v x).get? u = if u = v then some ((bounds s v).withSide d x) else s.get? u := by
  cases d <;> exact VarMap.get?_update ..

theorem bounds_set (s : BoundStore α) (d : Direction) (v u : ℕ) (x : α) :
    bounds (set s d v x) u = if u = v then (bounds s v).withSide d x else bounds s u := by
  rw [bounds, get?_set]
  split <;> rfl

theorem set_comm (s : BoundStore α) {d d' : Direction} {v v' : ℕ} (x x' : α)
    (h : ¬(d = d' ∧ v = v')) : set (set s d v x) d' v' x' = set (set s d' v' x') d v x := by
  refine VarMap.ext_get? fun u => ?_
  simp only [get?_set, bounds_set]
  by_cases hv : v = v'
  · have hd : d ≠ d' := fun hd => h ⟨hd, hv⟩
    simp only [hv, if_true, Bounds.withSide_comm hd]
    split <;> rfl
  · rw [if_neg hv, if_neg (Ne.symm hv)]
    split
    · rw [if_neg (by rintro rfl; exact hv (by assumption))]
    · rfl

inductive Write (α : Type) where
  | bound (d : Direction) (v : ℕ) (x : α)
  | clear

namespace Write

def apply (s : BoundStore α) : Write α → BoundStore α
  | bound d v x => set s d v x
  | clear => VarMap.empty

def Replaces (d : Direction) (v : ℕ) : Write α → Prop
  | bound d' v' _ => d' = d ∧ v' = v
  | clear => True

end Write

def ofWrites (ws : List (Write α)) : BoundStore α := ws.foldl Write.apply VarMap.empty

theorem ofWrites_snoc (ws : List (Write α)) (w : Write α) :
    ofWrites (ws ++ [w]) = w.apply (ofWrites ws) := by
  rw [ofWrites, List.foldl_append]
  rfl

def Latest (d : Direction) (v : ℕ) (x : α) (ws : List (Write α)) : Prop :=
  Since (· = .bound d v x) (Write.Replaces d v) ws

theorem latest_snoc_bound {d d' : Direction} {v v' : ℕ} {x x' : α} {ws : List (Write α)} :
    Latest d v x (ws ++ [.bound d' v' x']) ↔
      if d' = d ∧ v' = v then x' = x else Latest d v x ws := by
  rw [Latest, since_snoc, Write.Replaces, Write.bound.injEq, ← and_assoc]
  split <;> simp_all [Latest]

theorem not_latest_snoc_clear {d : Direction} {v : ℕ} {x : α} {ws : List (Write α)} :
    ¬ Latest d v x (ws ++ [.clear]) := by
  simp [Latest, since_snoc, Write.Replaces]

theorem side_bounds_ofWrites {d : Direction} {v : ℕ} {x : α} {ws : List (Write α)} :
    (bounds (ofWrites ws) v).side d = some x ↔ Latest d v x ws := by
  induction ws using List.reverseRecOn with
  | nil => cases d <;> simp [ofWrites, bounds_empty, Bounds.free, Bounds.side, Latest]
  | append_singleton ws w ih =>
    rw [ofWrites_snoc]
    cases w with
    | bound d' v' x' =>
      rw [Write.apply, side_bounds_set, latest_snoc_bound]
      split
      · exact Option.some_inj
      · exact ih
    | clear =>
      refine iff_of_false ?_ not_latest_snoc_clear
      cases d <;> simp [Write.apply, bounds_empty, Bounds.free, Bounds.side]

theorem occupied_ofWrites (ws : List (Write α)) : (ofWrites ws).Occupied := by
  induction ws using List.reverseRecOn with
  | nil => exact occupied_empty
  | append_singleton ws w ih =>
    rw [ofWrites_snoc]
    cases w with
    | bound d v x => exact ih.set d v x
    | clear => exact occupied_empty

def Bounded (v : ℕ) (ws : List (Write α)) : Prop := ∃ d x, Latest d v x ws

theorem isUnbounded_ofWrites {v : ℕ} {ws : List (Write α)} :
    (bounds (ofWrites ws) v).isUnbounded = false ↔ Bounded v ws := by
  rw [Bounds.isUnbounded_eq_false_iff]
  exact exists_congr fun _ => exists_congr fun _ => side_bounds_ofWrites

structure View (α : Type) where
  bounds : ℕ → Bounds α
  listed : List (ℕ × Bounds α)
  size : ℕ
  isEmpty : Bool

def view (s : BoundStore α) : View α := ⟨s.bounds, s.entries, s.size, s.isEmpty⟩

theorem mem_entries_iff {s : BoundStore α} (hs : s.Occupied) {v : ℕ} {b : Bounds α} :
    (v, b) ∈ s.entries ↔ bounds s v = b ∧ b.isUnbounded = false := by
  rw [VarMap.mem_entries_iff]
  constructor
  · intro h
    have hb : bounds s v = b := by rw [bounds, h, Option.getD_some]
    refine ⟨hb, hb ▸ hs v ?_⟩
    rw [VarMap.mem_keys_iff, h, Option.isSome_some]
  · rintro ⟨rfl, hb⟩
    exact get?_of_mem_keys (hs.mem_keys_iff.mpr hb)

structure View.Reads (view : View α) (ws : List (Write α)) : Prop where
  side : ∀ d v x, (view.bounds v).side d = some x ↔ Latest d v x ws
  ascending : view.listed.Pairwise (fun p q => p.1 < q.1)
  listed : ∀ v b, (v, b) ∈ view.listed ↔ Bounded v ws ∧ b = view.bounds v
  size : ∃ vars : Finset ℕ, (∀ v, v ∈ vars ↔ Bounded v ws) ∧ view.size = vars.card
  isEmpty : view.isEmpty = true ↔ ∀ v, ¬ Bounded v ws

theorem reads_ofWrites (ws : List (Write α)) : (ofWrites ws).view.Reads ws where
  side := fun _ _ _ => side_bounds_ofWrites
  ascending := (ofWrites ws).ascending
  listed := fun v b => by
    refine (mem_entries_iff (occupied_ofWrites ws)).trans ?_
    rw [← isUnbounded_ofWrites]
    constructor
    · rintro ⟨rfl, hb⟩
      exact ⟨hb, rfl⟩
    · rintro ⟨hb, rfl⟩
      exact ⟨rfl, hb⟩
  size := by
    have hnodup : (ofWrites ws).keys.Nodup :=
      (List.pairwise_map.mpr (ofWrites ws).ascending).imp Nat.ne_of_lt
    refine ⟨(ofWrites ws).keys.toFinset, fun v => ?_, ?_⟩
    · rw [List.mem_toFinset, (occupied_ofWrites ws).mem_keys_iff, isUnbounded_ofWrites]
    · rw [List.toFinset_card_of_nodup hnodup, VarMap.keys, List.length_map]
      rfl
  isEmpty := by
    change (ofWrites ws).entries.isEmpty = true ↔ _
    simp only [List.isEmpty_iff, List.eq_nil_iff_forall_not_mem, Prod.forall,
      mem_entries_iff (occupied_ofWrites ws), ← isUnbounded_ofWrites]
    exact forall_congr' fun v => ⟨fun h hv => h _ ⟨rfl, hv⟩, fun h b hb => h (hb.1 ▸ hb.2)⟩

end BoundStore

abbrev Places (α : Type) := List (Bounds α)

namespace Places

open BoundStore

def bounds (p : Places α) (v : ℕ) : Bounds α := p[v]?.getD Bounds.free

def reaching (p : Places α) (v : ℕ) : Places α :=
  p ++ List.replicate (v + 1 - p.length) Bounds.free

def set (p : Places α) (d : Direction) (v : ℕ) (x : α) : Places α :=
  (p.reaching v).modify v (·.withSide d x)

def listed (p : Places α) : List (ℕ × Bounds α) :=
  (p.zipIdx.filter fun q => !q.1.isUnbounded).map Prod.swap

def view (p : Places α) : View α :=
  ⟨p.bounds, p.listed, p.listed.length, p.all Bounds.isUnbounded⟩

def write (p : Places α) : Write α → Places α
  | .bound d v x => p.set d v x
  | .clear => []

def ofWrites (ws : List (Write α)) : Places α := ws.foldl write []

theorem length_reaching (p : Places α) (v : ℕ) : v < (p.reaching v).length := by
  rw [reaching, List.length_append, List.length_replicate]
  omega

theorem bounds_reaching (p : Places α) (v u : ℕ) : (p.reaching v).bounds u = p.bounds u := by
  unfold bounds reaching
  rw [List.getElem?_append]
  split
  · rfl
  · rw [List.getElem?_replicate, List.getElem?_eq_none (by omega)]
    split <;> rfl

theorem bounds_set (p : Places α) (d : Direction) (v u : ℕ) (x : α) :
    (p.set d v x).bounds u = if u = v then (p.bounds v).withSide d x else p.bounds u := by
  have hv := List.getElem?_eq_getElem (p.length_reaching v)
  rw [bounds, set, List.getElem?_modify, ← bounds_reaching p v v, ← bounds_reaching p v u]
  by_cases hu : u = v
  · rw [if_pos hu, hu, bounds, hv]
    simp
  · simp [hu, Ne.symm hu, bounds]

theorem bounds_ofWrites (ws : List (Write α)) (v : ℕ) :
    (ofWrites ws).bounds v = BoundStore.bounds (BoundStore.ofWrites ws) v := by
  induction ws using List.reverseRecOn generalizing v with
  | nil => rfl
  | append_singleton ws w ih =>
    rw [BoundStore.ofWrites_snoc, ofWrites, List.foldl_append]
    cases w with
    | bound d u x =>
      refine (bounds_set (ofWrites ws) d u v x).trans ?_
      rw [ih, ih, Write.apply, BoundStore.bounds_set]
    | clear => rfl

theorem mem_listed_iff {p : Places α} {v : ℕ} {b : Bounds α} :
    (v, b) ∈ p.listed ↔ p.bounds v = b ∧ b.isUnbounded = false := by
  have hmem : (v, b) ∈ p.listed ↔ p[v]? = some b ∧ b.isUnbounded = false := by
    simp [listed, List.mem_zipIdx_iff_getElem?]
  rw [hmem, bounds]
  refine and_congr_left fun hb => ?_
  cases p[v]? with
  | none =>
    refine iff_of_false (by simp) ?_
    rintro rfl
    cases hb
  | some b' => simp

theorem ascending_listed (p : Places α) : p.listed.Pairwise (fun a b => a.1 < b.1) := by
  have hindices : (p.zipIdx.map Prod.snd).Pairwise (· < ·) := by
    rw [List.zipIdx_map_snd]
    exact List.pairwise_lt_range'
  exact List.pairwise_map.mpr ((List.pairwise_map.mp hindices).filter _)

theorem isEmpty_listed (p : Places α) : p.listed.isEmpty = p.all Bounds.isUnbounded := by
  have hplaces : p.all Bounds.isUnbounded = p.zipIdx.all fun q => q.1.isUnbounded := by
    conv_lhs => rw [← List.zipIdx_map_fst 0 p]
    exact List.all_map
  rw [hplaces, Bool.eq_iff_iff]
  simp [listed, List.filter_eq_nil_iff]

theorem listed_ofWrites (ws : List (Write α)) :
    (ofWrites ws).listed = (BoundStore.ofWrites ws).entries := by
  have hs := (BoundStore.ofWrites ws).ascending
  refine VarMap.lookup_ext (ascending_listed _) hs fun v => Option.ext fun b => ?_
  rw [VarMap.lookup_eq_some_iff (ascending_listed _), VarMap.lookup_eq_some_iff hs,
    mem_listed_iff, mem_entries_iff (occupied_ofWrites ws), bounds_ofWrites]

theorem view_ofWrites (ws : List (Write α)) :
    (ofWrites ws).view = (BoundStore.ofWrites ws).view := by
  rw [view, ← isEmpty_listed, listed_ofWrites, funext (bounds_ofWrites ws)]
  rfl

end Places

namespace BoundStore

theorem ofWrites_swap (before after : List (Write α)) {d d' : Direction} {v v' : ℕ} (x x' : α)
    (h : ¬(d = d' ∧ v = v')) :
    ofWrites (before ++ .bound d v x :: .bound d' v' x' :: after) =
      ofWrites (before ++ .bound d' v' x' :: .bound d v x :: after) := by
  simp only [ofWrites, List.foldl_append, List.foldl_cons, Write.apply, set_comm _ x x' h]

theorem reads_last_writes (ws : List (Write α)) :
    (ofWrites ws).view.Reads ws ∧ (Places.ofWrites ws).view = (ofWrites ws).view ∧
      ∀ before after d v x d' v' x', ws = before ++ .bound d v x :: .bound d' v' x' :: after →
        ¬(d = d' ∧ v = v') →
          (ofWrites (before ++ .bound d' v' x' :: .bound d v x :: after)).view =
            (ofWrites ws).view := by
  refine ⟨reads_ofWrites ws, Places.view_ofWrites ws, ?_⟩
  rintro before after d v x d' v' x' rfl h
  rw [ofWrites_swap before after x x' h]

end BoundStore

end ReluVerify
