import ReluVerify.Query.Tableau
import ReluVerify.Proofs.Exact

namespace ReluVerify

namespace VarMap

variable {β : Type}

theorem lookup_eq_some_iff {l : List (ℕ × β)} (h : l.Pairwise (fun a b => a.1 < b.1)) {v : ℕ}
    {x : β} : l.lookup v = some x ↔ (v, x) ∈ l := by
  induction l with
  | nil => simp
  | cons q l ih =>
    obtain ⟨hq, hl⟩ := List.pairwise_cons.mp h
    rw [lookup_cons_pair, List.mem_cons]
    by_cases hv : v = q.1
    · have hnot : (v, x) ∉ l := fun hx => absurd (hq _ hx) (by simp [hv])
      rw [if_pos hv, or_iff_left hnot, Option.some_inj, Prod.ext_iff]
      simp [hv, eq_comm]
    · rw [if_neg hv, ih hl, or_iff_right fun he => hv (congrArg Prod.fst he)]

theorem mem_entries_iff {m : VarMap β} {v : ℕ} {x : β} :
    (v, x) ∈ m.entries ↔ m.get? v = some x :=
  (lookup_eq_some_iff m.ascending).symm

theorem mem_keys_iff {m : VarMap β} {v : ℕ} : v ∈ m.keys ↔ (m.get? v).isSome = true := by
  rw [keys, List.mem_map, Option.isSome_iff_exists]
  constructor
  · rintro ⟨p, hp, rfl⟩
    exact ⟨p.2, mem_entries_iff.mp hp⟩
  · rintro ⟨x, hx⟩
    exact ⟨(v, x), mem_entries_iff.mpr hx, rfl⟩

theorem contains_update (m : VarMap β) (v u : ℕ) (f : Option β → β) :
    (m.update v f).contains u = (decide (u = v) || m.contains u) := by
  unfold contains
  rw [get?_update]
  by_cases h : u = v <;> simp [h]

theorem ofValues_append (values : List β) (x : β) :
    ofValues (values ++ [x]) = (ofValues values).insert values.length x := by
  simp [ofValues, ofList, List.range_succ, List.zip_append]

theorem get?_ofValues (values : List β) (v : ℕ) : (ofValues values).get? v = values[v]? := by
  induction values using List.reverseRecOn with
  | nil => simp [ofValues, ofList]
  | append_singleton values x ih =>
    rw [ofValues_append, get?_insert, ih, List.getElem?_append, List.getElem?_singleton]
    by_cases hv : v = values.length
    · simp [hv]
    · by_cases hlt : v < values.length
      · rw [if_neg hv, if_pos hlt]
      · rw [if_neg hv, if_neg hlt, if_neg (by omega), List.getElem?_eq_none (by omega)]

theorem isEmpty_of_get? {m : VarMap β} {v : ℕ} {x : β}
    (h : m.get? v = some x) : m.isEmpty = false := by
  by_contra hempty
  rw [Bool.not_eq_false, isEmpty, List.isEmpty_iff] at hempty
  simp [get?, hempty] at h

theorem isEmpty_ofValues (values : List β) : (ofValues values).isEmpty = values.isEmpty := by
  cases values with
  | nil => rfl
  | cons x values =>
    have hmem := mem_entries_iff.mpr (get?_ofValues (x :: values) 0)
    simpa [isEmpty] using List.ne_nil_of_mem hmem

end VarMap

namespace Tableau

section

variable {α : Type}

@[simp] theorem row?_empty (row : ℕ) : (empty : Tableau α).row? row = none := rfl

@[simp] theorem hasRow_empty (row : ℕ) : (empty : Tableau α).hasRow row = false := rfl

@[simp] theorem isBasic_empty (v : ℕ) : (empty : Tableau α).isBasic v = false := rfl

theorem hasRow_eq_isSome (t : Tableau α) (row : ℕ) : t.hasRow row = (t.row? row).isSome := rfl

@[simp] theorem row?_markBasic (t : Tableau α) (v r : ℕ) :
    (t.markBasic v).row? r = t.row? r := rfl

@[simp] theorem hasRow_markBasic (t : Tableau α) (v r : ℕ) :
    (t.markBasic v).hasRow r = t.hasRow r := rfl

theorem isBasic_markBasic (t : Tableau α) (u v : ℕ) :
    (t.markBasic u).isBasic v = (decide (v = u) || t.isBasic v) :=
  VarMap.contains_update _ _ _ _

variable [Scalar α]

theorem row?_addCell (t : Tableau α) (row col : ℕ) (a : α) (r : ℕ) :
    (t.addCell row col a).row? r = if r = row then
      some (((t.row? row).getD VarMap.empty).update col (fun b => b.getD 0 + a)) else t.row? r :=
  VarMap.get?_update _ _ _ _

theorem hasRow_addCell (t : Tableau α) (row col : ℕ) (a : α) (r : ℕ) :
    (t.addCell row col a).hasRow r = (decide (r = row) || t.hasRow r) :=
  VarMap.contains_update _ _ _ _

@[simp] theorem isBasic_addCell (t : Tableau α) (row col : ℕ) (a : α) (v : ℕ) :
    (t.addCell row col a).isBasic v = t.isBasic v := rfl

end

variable {K : Type} [Field K]

def coeff (t : Tableau K) (row col : ℕ) : K := (t.cell? row col).getD 0

@[simp] theorem coeff_empty (row col : ℕ) : (empty : Tableau K).coeff row col = 0 := rfl

theorem coeff_of_row? {t : Tableau K} {row : ℕ} {cells : VarMap K} (h : t.row? row = some cells)
    (col : ℕ) : t.coeff row col = (cells.get? col).getD 0 := by
  rw [coeff, cell?, h]
  rfl

theorem coeff_addCell [LinearOrder K] (t : Tableau K) (row col : ℕ) (a : K) (r j : ℕ) :
    (t.addCell row col a).coeff r j = t.coeff r j + if r = row ∧ j = col then a else 0 := by
  unfold coeff cell? row? addCell
  rw [VarMap.get?_update]
  by_cases hr : r = row
  · subst hr
    rw [if_pos rfl, Option.bind_some, VarMap.get?_update]
    by_cases hj : j = col
    · subst hj
      cases t.rows.get? r <;> simp
    · cases t.rows.get? r <;> simp [hj]
  · simp [hr]

@[simp] theorem coeff_markBasic (t : Tableau K) (v r j : ℕ) :
    (t.markBasic v).coeff r j = t.coeff r j := rfl

end Tableau

end ReluVerify
