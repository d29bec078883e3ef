import ReluVerify.Number.Binary64
import ReluVerify.Solve
import ReluVerify.Proofs.Rows

namespace ReluVerify

namespace Tableau

theorem ext_row? {α : Type} {t t' : Tableau α} (hrow : ∀ r, t.row? r = t'.row? r)
    (hbasic : ∀ v, t.isBasic v = t'.isBasic v) : t = t' := by
  obtain ⟨rows, basic⟩ := t
  obtain ⟨rows', basic'⟩ := t'
  have hrows : rows = rows' := VarMap.ext_get? hrow
  have hbasics : basic = basic' := VarMap.ext_get? fun v => by
    have hv : (basic.get? v).isSome = (basic'.get? v).isSome := hbasic v
    cases h : basic.get? v <;> cases h' : basic'.get? v <;> simp_all
  rw [hrows, hbasics]

end Tableau

variable {α : Type}

structure Network.Rearranges (n n' : Network α) : Prop where
  numVars : n.numVars = n'.numVars
  relus : n.relus = n'.relus
  equations : n.equations.Perm n'.equations
  bounds : n.bounds = n'.bounds

namespace Network.Rearranges

variable {n n' : Network α}

theorem symm (h : n.Rearranges n') : n'.Rearranges n :=
  ⟨h.numVars.symm, h.relus.symm, h.equations.symm, h.bounds.symm⟩

theorem allocated (h : n.Rearranges n') (hn : n.Allocated) : n'.Allocated where
  auxiliary e he := h.numVars ▸ hn.auxiliary e (h.equations.mem_iff.mpr he)
  terms e he := h.numVars ▸ hn.terms e (h.equations.mem_iff.mpr he)
  distinct := (h.equations.map Equation.aux).nodup_iff.mp hn.distinct
  relus := h.numVars ▸ h.relus ▸ hn.relus
  bounds := h.numVars ▸ h.bounds ▸ hn.bounds

theorem networkBounds [Scalar α] (h : n.Rearranges n') :
    Query.networkBounds n = Query.networkBounds n' := by
  rw [Query.networkBounds, Query.networkBounds, h.numVars]
  unfold boundsOf
  rw [h.bounds]

end Network.Rearranges

variable [Scalar α]

namespace Query

theorem foldl_writeRow_of_perm {constant : ℕ} {es es' : List (Equation α)} (hperm : es.Perm es')
    (h : (es.map Equation.aux).Nodup) :
    es.foldl (writeRow constant) Tableau.empty = es'.foldl (writeRow constant) Tableau.empty := by
  have h' : (es'.map Equation.aux).Nodup := (hperm.map Equation.aux).nodup_iff.mp h
  have hrow : ∀ r, (es.foldl (writeRow constant) Tableau.empty).row? r =
      (es'.foldl (writeRow constant) Tableau.empty).row? r := by
    intro r
    refine Option.ext fun cells => ?_
    rw [row?_foldl_writeRow h, row?_foldl_writeRow h']
    simp only [hperm.mem_iff]
  refine Tableau.ext_row? hrow fun v => ?_
  rw [isBasic_foldl_writeRow fun _ => rfl, isBasic_foldl_writeRow fun _ => rfl,
    Tableau.hasRow_eq_isSome, Tableau.hasRow_eq_isSome, hrow]

theorem compile_of_rearranges {n n' : Network α} (h : n.Rearranges n') {q : Query α}
    (hq : compile n = .ok q) : compile n' = .ok q := by
  obtain ⟨hn, rfl⟩ := compile_eq_ok_iff.mp hq
  refine compile_eq_ok_iff.mpr ⟨h.allocated hn, ?_⟩
  rw [← h.numVars, ← h.relus, ← h.networkBounds, foldl_writeRow_of_perm h.equations hn.distinct]

end Query

theorem Engine.solve_eq_ok_iff {engine : Engine α} {cancelled : Bool} {n : Network α}
    {s : Solved α} : engine.solve cancelled n = .ok s ↔
      ∃ q, Query.compile n = .ok q ∧ s = engine.ask cancelled q := by
  rw [solve]
  cases Query.compile n <;> simp [Except.map, eq_comm]

namespace Network

theorem compile_order_free {edits edits' : List (Edit α)}
    (hvars : (ofEdits edits).numVars = (ofEdits edits').numVars)
    (hrelus : (ofEdits edits).relus = (ofEdits edits').relus)
    (hequations : (ofEdits edits).equations.Perm (ofEdits edits').equations)
    (hwritten : ∀ d v, lastWritten d v edits = lastWritten d v edits') :
    (∀ q, Query.compile (ofEdits edits) = .ok q ↔ Query.compile (ofEdits edits') = .ok q) ∧
      ∀ (engine : Engine α) (cancelled : Bool) (s : Solved α),
        engine.solve cancelled (ofEdits edits) = .ok s ↔
          engine.solve cancelled (ofEdits edits') = .ok s := by
  have h : (ofEdits edits).Rearranges (ofEdits edits') :=
    ⟨hvars, hrelus, hequations, bounds_ofEdits_eq hwritten⟩
  have hcompile : ∀ q, Query.compile (ofEdits edits) = .ok q ↔
      Query.compile (ofEdits edits') = .ok q := fun q =>
    ⟨Query.compile_of_rearranges h, Query.compile_of_rearranges h.symm⟩
  refine ⟨hcompile, fun engine cancelled s => ?_⟩
  simp only [Engine.solve_eq_ok_iff, hcompile]

def doubling : List (Edit Float) :=
  [.allocate, .allocate, .allocate, .bound .lower 0 5, .equation ⟨1, [(1, 1), (-1, 0), (-1, 0)], 0⟩,
    .equation ⟨2, [(1, 2), (-1, 1)], 3⟩, .relu 1 2, .bound .upper 2 7, .bound .lower 0 2]

def doublingLate : List (Edit Float) :=
  [.bound .upper 2 7, .allocate, .equation ⟨2, [(1, 2), (-1, 1)], 3⟩, .bound .lower 0 2, .allocate,
    .relu 1 2, .equation ⟨1, [(1, 1), (-1, 0), (-1, 0)], 0⟩, .outputs [2], .allocate]

theorem compile_order_free_doubling :
    ((∃ q, Query.compile (ofEdits doubling) = .ok q) ∧
      (ofEdits doubling).numVars = (ofEdits doublingLate).numVars ∧
      (ofEdits doubling).relus = (ofEdits doublingLate).relus ∧
      (ofEdits doubling).equations.Perm (ofEdits doublingLate).equations ∧
      ∀ d v, lastWritten d v doubling = lastWritten d v doublingLate) ∧
    (∀ q, Query.compile (ofEdits doubling) = .ok q ↔
      Query.compile (ofEdits doublingLate) = .ok q) ∧
    ∀ (engine : Engine Float) (cancelled : Bool) (s : Solved Float),
      engine.solve cancelled (ofEdits doubling) = .ok s ↔
        engine.solve cancelled (ofEdits doublingLate) = .ok s := by
  have hvars : (ofEdits doubling).numVars = (ofEdits doublingLate).numVars := rfl
  have hrelus : (ofEdits doubling).relus = (ofEdits doublingLate).relus := rfl
  have hequations : (ofEdits doubling).equations.Perm (ofEdits doublingLate).equations :=
    List.Perm.swap _ _ _
  have hwritten : ∀ d v, lastWritten d v doubling = lastWritten d v doublingLate := by
    intro d v
    cases d <;> by_cases h0 : 0 = v <;> by_cases h2 : 2 = v <;>
      simp [lastWritten, Edit.written, doubling, doublingLate, h0, h2]
  exact ⟨⟨⟨_, rfl⟩, hvars, hrelus, hequations, hwritten⟩,
    compile_order_free hvars hrelus hequations hwritten⟩

end Network

end ReluVerify
