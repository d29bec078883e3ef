import ReluVerify.Proofs.Rows

namespace ReluVerify

variable {α : Type} [Scalar α]

namespace Network

inductive Fault (n : Network α) : MalformedNetwork → Prop
  | auxiliary {e : Equation α} (he : e ∈ n.equations) (hlt : n.numVars ≤ e.aux) :
      Fault n (.unallocated .auxiliary e.aux n.numVars)
  | term {e : Equation α} {p : α × ℕ} (he : e ∈ n.equations) (hp : p ∈ e.terms)
      (hlt : n.numVars ≤ p.2) : Fault n (.unallocated .term p.2 n.numVars)
  | reluInput {p : ReluPair} (hp : p ∈ n.relus) (hlt : n.numVars ≤ p.input) :
      Fault n (.unallocated .reluInput p.input n.numVars)
  | reluOutput {p : ReluPair} (hp : p ∈ n.relus) (hlt : n.numVars ≤ p.output) :
      Fault n (.unallocated .reluOutput p.output n.numVars)
  | bound {v : ℕ} (hv : (n.boundsOf v).isUnbounded = false) (hlt : n.numVars ≤ v) :
      Fault n (.unallocated .bound v n.numVars)
  | shared {before after : List (Equation α)} {e f : Equation α}
      (hsplit : n.equations = before ++ f :: after) (he : e ∈ before) (haux : e.aux = f.aux) :
      Fault n (.sharedAuxiliary f.aux)

omit [Scalar α] in
theorem Fault.not_allocated {n : Network α} (hn : n.bounds.Occupied) {e : MalformedNetwork}
    (h : n.Fault e) : ¬ n.Allocated := by
  intro ha
  cases h with
  | auxiliary he hlt => exact absurd (ha.auxiliary _ he) (not_lt.mpr hlt)
  | term he hp hlt => exact absurd (ha.terms _ he _ hp) (not_lt.mpr hlt)
  | reluInput hp hlt => exact absurd (ha.relus _ hp).1 (not_lt.mpr hlt)
  | reluOutput hp hlt => exact absurd (ha.relus _ hp).2 (not_lt.mpr hlt)
  | bound hv hlt => exact absurd (ha.bounds _ (hn.mem_keys_iff.mpr hv)) (not_lt.mpr hlt)
  | shared hsplit he haux =>
    have hdistinct := ha.distinct
    rw [hsplit, List.map_append, List.nodup_append] at hdistinct
    exact hdistinct.2.2 _ (List.mem_map.mpr ⟨_, he, rfl⟩) _ (by simp) haux

structure Reproduces (n : Network α) (q : Query α) : Prop where
  constant : q.constant = n.numVars
  numVariables : q.numVariables = n.numVars + 1
  hasRow_iff : ∀ r, q.tableau.hasRow r = true ↔ ∃ e ∈ n.equations, e.aux = r
  isBasic_iff : ∀ r, q.tableau.isBasic r = true ↔ ∃ e ∈ n.equations, e.aux = r
  cell : ∀ e ∈ n.equations, ∀ v, q.tableau.cell? e.aux v =
    if v = n.numVars then some (0 + e.scalar)
    else if v ∈ e.terms.map Prod.snd then some ((coefficientsOf v e.terms).foldl (· + ·) 0)
    else none
  relus : q.relus = n.relus
  bounds : ∀ v < n.numVars, q.boundsOf v = n.boundsOf v
  pinned : q.boundsOf n.numVars = Bounds.point 1

end Network

namespace Query

theorem checkAllocated_eq_error {role : Role} {count v : ℕ} {e : MalformedNetwork} :
    checkAllocated role count v = .error e ↔ count ≤ v ∧ e = .unallocated role v count := by
  unfold checkAllocated
  split <;> simp_all [eq_comm]

theorem addRow_eq_error {constant : ℕ} {t : Tableau α} {f : Equation α} {e : MalformedNetwork}
    (h : addRow constant t f = .error e) :
    (constant ≤ f.aux ∧ e = .unallocated .auxiliary f.aux constant) ∨
      (t.hasRow f.aux = true ∧ e = .sharedAuxiliary f.aux) ∨
      ∃ p ∈ f.terms, constant ≤ p.2 ∧ e = .unallocated .term p.2 constant := by
  unfold addRow at h
  rcases bind_eq_error.mp h with h | ⟨_, _, h⟩
  · exact Or.inl (checkAllocated_eq_error.mp h)
  cases hrow : t.hasRow f.aux with
  | true =>
    rw [hrow] at h
    cases h
    exact Or.inr (Or.inl ⟨rfl, rfl⟩)
  | false =>
    rw [hrow] at h
    rcases bind_eq_error.mp h with h | ⟨_, _, h⟩
    · obtain ⟨p, hp, h⟩ := exists_of_forM_eq_error h
      exact Or.inr (Or.inr ⟨p, hp, checkAllocated_eq_error.mp h⟩)
    · cases h

theorem fault_of_rows {n : Network α} {e : MalformedNetwork}
    (h : n.equations.foldlM (addRow n.numVars) Tableau.empty = .error e) : n.Fault e := by
  obtain ⟨before, f, after, t, hsplit, hbefore, hf⟩ := exists_of_foldlM_eq_error h
  have hmem : f ∈ n.equations := by simp [hsplit]
  rcases addRow_eq_error hf with ⟨hlt, rfl⟩ | ⟨hrow, rfl⟩ | ⟨p, hp, hlt, rfl⟩
  · exact .auxiliary hmem hlt
  · -- the rows so far are those of the equations before `f`
    obtain ⟨_, _, _, _, rfl⟩ := foldlM_addRow_eq_ok.mp hbefore
    rcases hasRow_foldl_writeRow.mp hrow with ⟨g, hg, hgf⟩ | hrow
    · exact .shared hsplit hg hgf
    · cases hrow
  · exact .term hmem hp hlt

theorem fault_of_compile {n : Network α} (hn : n.bounds.Occupied) {e : MalformedNetwork}
    (h : compile n = .error e) : n.Fault e := by
  unfold compile at h
  rcases bind_eq_error.mp h with h | ⟨_, _, h⟩
  · exact fault_of_rows h
  rcases bind_eq_error.mp h with h | ⟨_, _, h⟩
  · obtain ⟨p, hp, h⟩ := exists_of_forM_eq_error h
    rcases bind_eq_error.mp h with h | ⟨_, _, h⟩
    · obtain ⟨hlt, rfl⟩ := checkAllocated_eq_error.mp h
      exact .reluInput hp hlt
    · obtain ⟨hlt, rfl⟩ := checkAllocated_eq_error.mp h
      exact .reluOutput hp hlt
  rcases bind_eq_error.mp h with h | ⟨_, _, h⟩
  · obtain ⟨v, hv, h⟩ := exists_of_forM_eq_error h
    obtain ⟨hlt, rfl⟩ := checkAllocated_eq_error.mp h
    exact .bound (hn.mem_keys_iff.mp hv) hlt
  · cases h

theorem cell?_of_nodup {constant : ℕ} {es : List (Equation α)} (h : (es.map Equation.aux).Nodup)
    {e : Equation α} (he : e ∈ es) (hterms : ∀ p ∈ e.terms, p.2 < constant) (v : ℕ) :
    (es.foldl (writeRow constant) Tableau.empty).cell? e.aux v =
      if v = constant then some (0 + e.scalar)
      else if v ∈ e.terms.map Prod.snd then some ((coefficientsOf v e.terms).foldl (· + ·) 0)
      else none := by
  rw [Tableau.cell?, (row?_foldl_writeRow h).mpr ⟨e, he, rfl, rfl⟩, Option.bind_some, rowCells,
    get?_fillCells]
  by_cases hv : v = constant
  · have hnot : v ∉ e.terms.map Prod.snd := by
      intro hmem
      obtain ⟨p, hp, rfl⟩ := List.mem_map.mp hmem
      exact absurd hv (hterms p hp).ne
    have hlast : coefficientsOf v [(e.scalar, constant)] = [e.scalar] := by
      simp [coefficientsOf, hv]
    rw [if_pos hv, coefficientsOf_append, coefficientsOf_eq_nil hnot, hlast, if_pos (by simp [hv])]
    rfl
  · have hlast : coefficientsOf v [(e.scalar, constant)] = [] :=
      coefficientsOf_eq_nil (by simpa using hv)
    rw [if_neg hv, coefficientsOf_append, hlast, List.append_nil]
    simp only [List.map_append, List.mem_append, List.map_cons, List.map_nil, List.mem_singleton,
      hv, or_false]
    rfl

theorem reproduces_of_compile {n : Network α} {q : Query α} (h : compile n = .ok q) :
    n.Reproduces q := by
  obtain ⟨hn, rfl⟩ := compile_eq_ok_iff.mp h
  have hrow : ∀ r, (n.equations.foldl (writeRow n.numVars) Tableau.empty).hasRow r = true ↔
      ∃ e ∈ n.equations, e.aux = r := fun r => by
    rw [hasRow_foldl_writeRow]
    simp
  refine ⟨rfl, by simp [numVariables, networkBounds], hrow, fun r => ?_, fun e he v => ?_, rfl,
    fun v hv => ?_, ?_⟩
  · rw [isBasic_foldl_writeRow fun _ => rfl]
    exact hrow r
  · exact cell?_of_nodup hn.distinct he (hn.terms e he) v
  · simp [boundsOf, networkBounds, List.getElem?_append, hv]
  · simp [boundsOf, networkBounds]

end Query

namespace Network

open Query

theorem reproduces_or_fault (edits : List (Edit α)) :
    ((∃ e, compile (ofEdits edits) = .error e) ↔ ∃ e, (ofEdits edits).Fault e) ∧
      ((∃ e, compile (ofEdits edits) = .error e ∧ (ofEdits edits).Fault e) ∨
        ∃ q, compile (ofEdits edits) = .ok q ∧ (ofEdits edits).Reproduces q ∧
          ∀ v < (ofEdits edits).numVars, ∀ d, (q.boundsOf v).side d = lastWritten d v edits) := by
  have hoccupied := occupied_ofEdits edits
  cases h : compile (ofEdits edits) with
  | error e =>
    have hfault := fault_of_compile hoccupied h
    exact ⟨⟨fun _ => ⟨e, hfault⟩, fun _ => ⟨e, rfl⟩⟩, Or.inl ⟨e, rfl, hfault⟩⟩
  | ok q =>
    have hq := reproduces_of_compile h
    refine ⟨⟨?_, ?_⟩, Or.inr ⟨q, rfl, hq, fun v hv d => ?_⟩⟩
    · rintro ⟨_, he⟩
      cases he
    · rintro ⟨_, he⟩
      exact absurd (compile_eq_ok_iff.mp h).1 (he.not_allocated hoccupied)
    · rw [hq.bounds v hv, side_boundsOf_ofEdits]

end Network

end ReluVerify
