namespace ReluVerify

structure VarMap (β : Type) where
  entries : List (Nat × β)
  ascending : entries.Pairwise (fun a b => a.1 < b.1)

namespace VarMap

variable {β : Type}

def updateList (v : Nat) (f : Option β → β) : List (Nat × β) → List (Nat × β)
  | [] => [(v, f none)]
  | (u, x) :: rest =>
      if v < u then (v, f none) :: (u, x) :: rest
      else if v = u then (v, f (some x)) :: rest
      else (u, x) :: updateList v f rest

theorem mem_updateList {v : Nat} {f : Option β → β} {l : List (Nat × β)} {p : Nat × β}
    (h : p ∈ updateList v f l) : p.1 = v ∨ p ∈ l := by
  induction l with
  | nil => exact Or.inl (by rw [List.mem_singleton.mp h])
  | cons q rest ih =>
      simp only [updateList] at h
      split at h
      · rcases List.mem_cons.mp h with h | h
        · exact Or.inl (by rw [h])
        · exact Or.inr h
      · split at h
        · rcases List.mem_cons.mp h with h | h
          · exact Or.inl (by rw [h])
          · exact Or.inr (List.mem_cons_of_mem _ h)
        · rcases List.mem_cons.mp h with h | h
          · exact Or.inr (by rw [h]; exact List.mem_cons_self ..)
          · rcases ih h with h | h
            · exact Or.inl h
            · exact Or.inr (List.mem_cons_of_mem _ h)

theorem ascending_updateList {v : Nat} {f : Option β → β} {l : List (Nat × β)}
    (h : l.Pairwise (fun a b => a.1 < b.1)) :
    (updateList v f l).Pairwise (fun a b => a.1 < b.1) := by
  induction l with
  | nil => simp [updateList]
  | cons q rest ih =>
      have hq := List.pairwise_cons.mp h
      simp only [updateList]
      split
      case isTrue hv =>
        refine List.pairwise_cons.mpr ⟨fun p hp => ?_, h⟩
        rcases List.mem_cons.mp hp with rfl | hp
        · exact hv
        · exact Nat.lt_trans hv (hq.1 p hp)
      case isFalse hv =>
        split
        case isTrue he =>
          exact List.pairwise_cons.mpr ⟨fun p hp => by simpa [he] using hq.1 p hp, hq.2⟩
        case isFalse he =>
          refine List.pairwise_cons.mpr ⟨fun p hp => ?_, ih hq.2⟩
          rcases mem_updateList hp with hp | hp
          · simp only [hp]; omega
          · exact hq.1 p hp

def empty : VarMap β := ⟨[], List.Pairwise.nil⟩

instance : Inhabited (VarMap β) := ⟨empty⟩

def update (m : VarMap β) (v : Nat) (f : Option β → β) : VarMap β :=
  ⟨updateList v f m.entries, ascending_updateList m.ascending⟩

def insert (m : VarMap β) (v : Nat) (x : β) : VarMap β := m.update v (fun _ => x)

def ofList (l : List (Nat × β)) : VarMap β := l.foldl (fun m p => m.insert p.1 p.2) empty

def ofValues (values : List β) : VarMap β := ofList ((List.range values.length).zip values)

def get? (m : VarMap β) (v : Nat) : Option β := m.entries.lookup v

def contains (m : VarMap β) (v : Nat) : Bool := (m.get? v).isSome

def valuesOf? (m : VarMap β) (vars : List Nat) : Option (List β) := vars.mapM m.get?

def getOrFail {ε : Type} (missing : Nat → ε) (m : VarMap β) (v : Nat) : Except ε β :=
  match m.get? v with
  | some x => .ok x
  | none => .error (missing v)

def size (m : VarMap β) : Nat := m.entries.length

def isEmpty (m : VarMap β) : Bool := m.entries.isEmpty

def keys (m : VarMap β) : List Nat := m.entries.map (·.1)

@[simp] theorem get?_empty (v : Nat) : (empty : VarMap β).get? v = none := rfl

theorem lookup_cons_pair (u w : Nat) (x : β) (l : List (Nat × β)) :
    List.lookup u ((w, x) :: l) = if u = w then some x else List.lookup u l := by
  rw [List.lookup_cons]
  by_cases h : u = w
  · simp [h]
  · simp [h, beq_eq_false_iff_ne.mpr h]

theorem lookup_eq_none_of_lt {l : List (Nat × β)} {v : Nat} (h : ∀ p ∈ l, v < p.1) :
    l.lookup v = none := by
  induction l with
  | nil => rfl
  | cons q rest ih =>
      have hq : v < q.1 := h q (List.mem_cons_self ..)
      rw [lookup_cons_pair, ih (fun p hp => h p (List.mem_cons_of_mem _ hp)), if_neg (by omega)]

theorem lookup_updateList {v u : Nat} {f : Option β → β} {l : List (Nat × β)}
    (h : l.Pairwise (fun a b => a.1 < b.1)) :
    (updateList v f l).lookup u = if u = v then some (f (l.lookup v)) else l.lookup u := by
  induction l with
  | nil => simp [updateList, lookup_cons_pair]
  | cons q rest ih =>
      obtain ⟨w, x⟩ := q
      have hq := List.pairwise_cons.mp h
      simp only [updateList]
      split
      case isTrue hv =>
        have hn : List.lookup v ((w, x) :: rest) = none := lookup_eq_none_of_lt (by
          intro p hp
          rcases List.mem_cons.mp hp with rfl | hp
          · exact hv
          · exact Nat.lt_trans hv (hq.1 p hp))
        rw [lookup_cons_pair, hn]
      case isFalse hv =>
        split
        case isTrue he =>
          subst he
          simp only [lookup_cons_pair]
          by_cases huv : u = v <;> simp [huv]
        case isFalse he =>
          simp only [lookup_cons_pair, ih hq.2, he, if_false]
          by_cases huw : u = w
          · have huv : ¬ u = v := fun hv => he (hv.symm.trans huw)
            rw [if_pos huw, if_neg huv, if_pos huw]
          · rw [if_neg huw, if_neg huw]

@[simp] theorem get?_update (m : VarMap β) (v u : Nat) (f : Option β → β) :
    (m.update v f).get? u = if u = v then some (f (m.get? v)) else m.get? u :=
  lookup_updateList m.ascending

theorem get?_insert (m : VarMap β) (v u : Nat) (x : β) :
    (m.insert v x).get? u = if u = v then some x else m.get? u := by
  simp [insert]

theorem lookup_ext {l : List (Nat × β)} :
    ∀ {r : List (Nat × β)}, l.Pairwise (fun a b => a.1 < b.1) →
      r.Pairwise (fun a b => a.1 < b.1) → (∀ v, l.lookup v = r.lookup v) → l = r := by
  induction l with
  | nil =>
      intro r _ _ h
      cases r with
      | nil => rfl
      | cons q r => have := h q.1; rw [lookup_cons_pair, if_pos rfl] at this; cases this
  | cons p l ih =>
      intro r hl hr h
      have hp := List.pairwise_cons.mp hl
      cases r with
      | nil => have := h p.1; rw [lookup_cons_pair, if_pos rfl] at this; cases this
      | cons q r =>
          have hq := List.pairwise_cons.mp hr
          obtain ⟨u, x⟩ := p
          obtain ⟨w, y⟩ := q
          have huw : u = w := by
            rcases Nat.lt_trichotomy u w with hlt | heq | hlt
            · have hu := h u
              rw [lookup_cons_pair, if_pos rfl, lookup_eq_none_of_lt (by
                intro p hp
                rcases List.mem_cons.mp hp with rfl | hp
                · exact hlt
                · exact Nat.lt_trans hlt (hq.1 p hp))] at hu
              cases hu
            · exact heq
            · have hw := h w
              rw [lookup_cons_pair w w, if_pos rfl, lookup_eq_none_of_lt (by
                intro q hq
                rcases List.mem_cons.mp hq with rfl | hq
                · exact hlt
                · exact Nat.lt_trans hlt (hp.1 q hq))] at hw
              cases hw
          subst huw
          have hxy := h u
          rw [lookup_cons_pair, lookup_cons_pair, if_pos rfl, if_pos rfl] at hxy
          cases hxy
          rw [ih hp.2 hq.2 (fun v => ?_)]
          by_cases hv : v = u
          · rw [hv, lookup_eq_none_of_lt hp.1, lookup_eq_none_of_lt hq.1]
          · have := h v
            rwa [lookup_cons_pair, lookup_cons_pair, if_neg hv, if_neg hv] at this

theorem ext_get? {m n : VarMap β} (h : ∀ v, m.get? v = n.get? v) : m = n := by
  cases m with
  | mk l hl =>
      cases n with
      | mk r hr => rw [VarMap.mk.injEq]; exact lookup_ext hl hr h

end VarMap

end ReluVerify
