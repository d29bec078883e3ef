import ReluVerify.Proofs.Compile
import ReluVerify.Proofs.Edits

namespace ReluVerify

variable {α : Type}

def coefficientsOf (v : ℕ) (terms : List (α × ℕ)) : List α :=
  (terms.filter (·.2 = v)).map Prod.fst

theorem coefficientsOf_append (v : ℕ) (terms terms' : List (α × ℕ)) :
    coefficientsOf v (terms ++ terms') = coefficientsOf v terms ++ coefficientsOf v terms' := by
  rw [coefficientsOf, List.filter_append, List.map_append]
  rfl

theorem coefficientsOf_eq_nil {v : ℕ} {terms : List (α × ℕ)} (h : v ∉ terms.map Prod.snd) :
    coefficientsOf v terms = [] := by
  rw [coefficientsOf, List.map_eq_nil_iff, List.filter_eq_nil_iff]
  intro p hp hv
  exact h (List.mem_map.mpr ⟨p, hp, by simpa using hv⟩)

variable [Scalar α]

namespace Query

def fillCells (terms : List (α × ℕ)) (cells : VarMap α) : VarMap α :=
  terms.foldl (fun cells p => cells.update p.2 (fun a => a.getD 0 + p.1)) cells

theorem get?_fillCells (terms : List (α × ℕ)) (cells : VarMap α) (v : ℕ) :
    (fillCells terms cells).get? v = if v ∈ terms.map Prod.snd then
      some ((coefficientsOf v terms).foldl (· + ·) ((cells.get? v).getD 0)) else cells.get? v := by
  induction terms generalizing cells with
  | nil => rfl
  | cons p terms ih =>
    have hnext : fillCells (p :: terms) cells =
        fillCells terms (cells.update p.2 (fun a => a.getD 0 + p.1)) := rfl
    rw [hnext, ih, VarMap.get?_update]
    by_cases hv : v = p.2
    · subst hv
      by_cases hmem : p.2 ∈ terms.map Prod.snd
      · simp [hmem, coefficientsOf]
      · have hfirst : coefficientsOf p.2 (p :: terms) = p.1 :: coefficientsOf p.2 terms := by
          simp [coefficientsOf]
        simp [hmem, hfirst, coefficientsOf_eq_nil hmem]
    · have hskip : coefficientsOf v (p :: terms) = coefficientsOf v terms := by
        simp [coefficientsOf, Ne.symm hv]
      simp only [hskip, List.map_cons, List.mem_cons, hv, false_or, if_false]

theorem row?_foldl_addCell (terms : List (α × ℕ)) (t : Tableau α) (row r : ℕ) :
    (terms.foldl (fun t p => t.addCell row p.2 p.1) t).row? r =
      if r = row ∧ terms ≠ [] then some (fillCells terms ((t.row? row).getD VarMap.empty))
      else t.row? r := by
  induction terms generalizing t with
  | nil => simp
  | cons p terms ih =>
    rw [List.foldl_cons, ih, Tableau.row?_addCell, Tableau.row?_addCell]
    by_cases hr : r = row
    · cases terms with
      | nil => simp [hr, fillCells]
      | cons q terms => simp [hr, fillCells]
    · simp [hr]

def rowCells (constant : ℕ) (e : Equation α) : VarMap α :=
  fillCells (e.terms ++ [(e.scalar, constant)]) VarMap.empty

theorem row?_writeRow {constant : ℕ} {t : Tableau α} {e : Equation α}
    (h : t.hasRow e.aux = false) (r : ℕ) : (writeRow constant t e).row? r =
      if r = e.aux then some (rowCells constant e) else t.row? r := by
  have hnone : t.row? e.aux = none := by
    rwa [Tableau.hasRow_eq_isSome, Option.isSome_eq_false_iff, Option.isNone_iff_eq_none] at h
  have hcells : rowCells constant e = (fillCells e.terms VarMap.empty).update constant
      (fun a => a.getD 0 + e.scalar) := by
    rw [rowCells, fillCells, List.foldl_append]
    rfl
  unfold writeRow
  rw [Tableau.row?_addCell, Tableau.row?_markBasic, Tableau.row?_markBasic, row?_foldl_addCell,
    row?_foldl_addCell, hnone, hcells]
  by_cases hr : r = e.aux
  · by_cases hterms : e.terms = []
    · simp [hr, hterms, fillCells]
    · simp [hr, hterms]
  · simp [hr]

theorem row?_foldl_writeRow {constant : ℕ} {es : List (Equation α)}
    (h : (es.map Equation.aux).Nodup) {r : ℕ} {cells : VarMap α} :
    (es.foldl (writeRow constant) Tableau.empty).row? r = some cells ↔
      ∃ e ∈ es, e.aux = r ∧ cells = rowCells constant e := by
  induction es using List.reverseRecOn with
  | nil => simp
  | append_singleton es e ih =>
    rw [List.map_append, List.nodup_append] at h
    obtain ⟨hes, _, hdisjoint⟩ := h
    have hne : ∀ f ∈ es, f.aux ≠ e.aux := fun f hf =>
      hdisjoint f.aux (List.mem_map.mpr ⟨f, hf, rfl⟩) e.aux (by simp)
    have hnot : (es.foldl (writeRow constant) Tableau.empty).hasRow e.aux = false := by
      rw [← Bool.not_eq_true, hasRow_foldl_writeRow]
      rintro (⟨f, hf, hfe⟩ | hrow)
      · exact hne f hf hfe
      · cases hrow
    rw [List.foldl_concat, row?_writeRow hnot]
    by_cases hr : r = e.aux
    · rw [if_pos hr, Option.some.injEq]
      constructor
      · rintro rfl
        exact ⟨e, by simp, hr.symm, rfl⟩
      · rintro ⟨f, hf, hfr, rfl⟩
        rcases List.mem_append.mp hf with hf | hf
        · exact absurd (hfr.trans hr) (hne f hf)
        · rw [List.mem_singleton.mp hf]
    · rw [if_neg hr, ih hes]
      simp [or_and_right, exists_or, Ne.symm hr]

theorem isBasic_foldl_addCell (terms : List (α × ℕ)) (t : Tableau α) (row v : ℕ) :
    (terms.foldl (fun t p => t.addCell row p.2 p.1) t).isBasic v = t.isBasic v := by
  induction terms generalizing t with
  | nil => rfl
  | cons p terms ih => rw [List.foldl_cons, ih, Tableau.isBasic_addCell]

theorem isBasic_foldl_writeRow {constant : ℕ} {es : List (Equation α)} {t : Tableau α}
    (h : ∀ v, t.isBasic v = t.hasRow v) (v : ℕ) :
    (es.foldl (writeRow constant) t).isBasic v = (es.foldl (writeRow constant) t).hasRow v := by
  induction es generalizing t with
  | nil => exact h v
  | cons e es ih =>
    refine ih fun u => ?_
    rw [hasRow_writeRow, ← h]
    unfold writeRow
    rw [Tableau.isBasic_addCell, Tableau.isBasic_markBasic, isBasic_foldl_addCell]

end Query

end ReluVerify
