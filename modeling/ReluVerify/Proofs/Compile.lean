import ReluVerify.Query.Compile
import ReluVerify.Proofs.Bounds
import ReluVerify.Proofs.Step
import ReluVerify.Proofs.Tableau

namespace ReluVerify

variable {K : Type} [Field K] [LinearOrder K]

namespace Network

structure Solves (n : Network K) (x : ℕ → K) : Prop where
  equations : ∀ e ∈ n.equations, e.residual x = 0
  bounds : ∀ v, (n.boundsOf v).Within 0 (x v)
  relus : ∀ p ∈ n.relus, x p.output = max (x p.input) 0

structure Allocated (n : Network K) : Prop where
  auxiliary : ∀ e ∈ n.equations, e.aux < n.numVars
  terms : ∀ e ∈ n.equations, ∀ p ∈ e.terms, p.2 < n.numVars
  distinct : (n.equations.map Equation.aux).Nodup
  relus : ∀ p ∈ n.relus, p.input < n.numVars ∧ p.output < n.numVars
  bounds : ∀ v ∈ n.bounds.keys, v < n.numVars

end Network

namespace Query

def excess (q : Query K) (row : ℕ) (x : ℕ → K) : K :=
  ∑ j ∈ (Finset.range q.numVariables).erase q.constant, q.tableau.coeff row j * x j -
    q.tableau.coeff row q.constant

structure Solves (q : Query K) (x : ℕ → K) : Prop where
  rows : ∀ r, q.tableau.hasRow r = true → q.excess r x = 0
  bounds : ∀ v < q.numVariables, (q.boundsOf v).Within 0 (x v)
  relus : ∀ p ∈ q.relus, x p.output = max (x p.input) 0

structure Shaped (q : Query K) : Prop where
  constant_lt : q.constant < q.numVariables
  pinned : q.boundsOf q.constant = Bounds.point 1
  input_lt : ∀ p ∈ q.relus, p.input < q.numVariables
  output_lt : ∀ p ∈ q.relus, p.output < q.numVariables
  input_ne : ∀ p ∈ q.relus, p.input ≠ q.constant
  output_ne : ∀ p ∈ q.relus, p.output ≠ q.constant

structure Framed (q : Query K) : Prop where
  constant_lt : q.constant < q.numVariables
  pinned : ∃ c, q.boundsOf q.constant = Bounds.point c
  input_lt : ∀ p ∈ q.relus, p.input < q.numVariables
  output_lt : ∀ p ∈ q.relus, p.output < q.numVariables
  input_ne : ∀ p ∈ q.relus, p.input ≠ q.constant
  output_ne : ∀ p ∈ q.relus, p.output ≠ q.constant

omit [LinearOrder K] in
theorem Shaped.framed {q : Query K} (hq : q.Shaped) : q.Framed :=
  ⟨hq.constant_lt, ⟨1, hq.pinned⟩, hq.input_lt, hq.output_lt, hq.input_ne, hq.output_ne⟩

section

variable {α : Type} [Scalar α]

theorem checkAllocated_eq_ok {role : Role} {count v : ℕ} :
    checkAllocated role count v = .ok () ↔ v < count := by
  unfold checkAllocated
  split <;> simp_all

theorem addRow_eq_ok {constant : ℕ} {t t' : Tableau α} {e : Equation α} :
    addRow constant t e = .ok t' ↔ e.aux < constant ∧ t.hasRow e.aux = false ∧
      (∀ p ∈ e.terms, p.2 < constant) ∧ t' = writeRow constant t e := by
  unfold addRow
  rw [bind_unit_eq_ok, checkAllocated_eq_ok]
  refine and_congr_right fun _ => ?_
  cases h : t.hasRow e.aux with
  | true => simp [bind, Except.bind]
  | false =>
    simp only [Bool.false_eq_true, if_false, bind_unit_eq_ok, forM_eq_ok, checkAllocated_eq_ok,
      true_and, pure_eq_ok]

theorem hasRow_foldl_addCell (terms : List (α × ℕ)) (t : Tableau α) (row r : ℕ) :
    (terms.foldl (fun t p => t.addCell row p.2 p.1) t).hasRow r =
      (decide (terms ≠ []) && decide (r = row) || t.hasRow r) := by
  induction terms generalizing t with
  | nil => simp
  | cons p terms ih =>
    rw [List.foldl_cons, ih, Tableau.hasRow_addCell]
    by_cases hr : r = row <;> simp [hr]

theorem hasRow_writeRow (constant : ℕ) (t : Tableau α) (e : Equation α) (r : ℕ) :
    (writeRow constant t e).hasRow r = (decide (r = e.aux) || t.hasRow r) := by
  unfold writeRow
  rw [Tableau.hasRow_addCell, Tableau.hasRow_markBasic, hasRow_foldl_addCell]
  by_cases hr : r = e.aux <;> simp [hr]

theorem foldlM_addRow_eq_ok {constant : ℕ} {es : List (Equation α)} {t t' : Tableau α} :
    es.foldlM (addRow constant) t = .ok t' ↔ (∀ e ∈ es, e.aux < constant) ∧
      (∀ e ∈ es, ∀ p ∈ e.terms, p.2 < constant) ∧ (es.map Equation.aux).Nodup ∧
      (∀ e ∈ es, t.hasRow e.aux = false) ∧ t' = es.foldl (writeRow constant) t := by
  induction es generalizing t with
  | nil => simp [pure_eq_ok]
  | cons e es ih =>
    rw [List.foldlM_cons, bind_eq_ok]
    simp only [addRow_eq_ok, ih, List.forall_mem_cons, List.map_cons, List.nodup_cons,
      List.foldl_cons]
    constructor
    · rintro ⟨_, ⟨haux, hrow, hterms, rfl⟩, hauxs, htermss, hnodup, hrows, rfl⟩
      simp only [Bool.or_eq_false_iff, decide_eq_false_iff_not, hasRow_writeRow] at hrows
      refine ⟨⟨haux, hauxs⟩, ⟨hterms, htermss⟩, ⟨fun hmem => ?_, hnodup⟩,
        ⟨hrow, fun f hf => (hrows f hf).2⟩, rfl⟩
      obtain ⟨f, hf, he⟩ := List.mem_map.mp hmem
      exact (hrows f hf).1 he
    · rintro ⟨⟨haux, hauxs⟩, ⟨hterms, htermss⟩, ⟨hnot, hnodup⟩, ⟨hrow, hrows⟩, rfl⟩
      refine ⟨_, ⟨haux, hrow, hterms, rfl⟩, hauxs, htermss, hnodup, fun f hf => ?_, rfl⟩
      have hne : f.aux ≠ e.aux := fun he => hnot (List.mem_map.mpr ⟨f, hf, he⟩)
      rw [hasRow_writeRow, hrows f hf]
      simp [hne]

theorem hasRow_foldl_writeRow {constant : ℕ} {es : List (Equation α)} {t : Tableau α} {r : ℕ} :
    (es.foldl (writeRow constant) t).hasRow r = true ↔
      (∃ e ∈ es, e.aux = r) ∨ t.hasRow r = true := by
  induction es generalizing t with
  | nil => simp
  | cons e es ih =>
    rw [List.foldl_cons, ih, hasRow_writeRow]
    simp only [Bool.or_eq_true, decide_eq_true_eq, List.exists_mem_cons_iff, eq_comm (a := r)]
    rw [or_left_comm, or_assoc]

omit [Scalar α] in
theorem modifyBounds_eq_ok {q q' : Query α} {v : ℕ} {f : Bounds α → Bounds α} :
    q.modifyBounds v f = .ok q' ↔
      v < q.numVariables ∧ q' = { q with bounds := q.bounds.modify v f } := by
  unfold modifyBounds
  split <;> simp_all [eq_comm]

theorem compile_eq_ok_iff {n : Network α} {q : Query α} : compile n = .ok q ↔ n.Allocated ∧
    q = ⟨n.numVars, n.equations.foldl (writeRow n.numVars) Tableau.empty, n.relus,
      networkBounds n⟩ := by
  unfold compile
  rw [bind_eq_ok]
  simp only [bind_unit_eq_ok, foldlM_addRow_eq_ok, forM_eq_ok, checkAllocated_eq_ok, pure_eq_ok]
  constructor
  · rintro ⟨_, ⟨haux, hterms, hnodup, _, rfl⟩, hrelus, hbounds, rfl⟩
    exact ⟨⟨haux, hterms, hnodup, hrelus, hbounds⟩, rfl⟩
  · rintro ⟨h, rfl⟩
    exact ⟨_, ⟨h.auxiliary, h.terms, h.distinct, fun _ _ => rfl, rfl⟩, h.relus, h.bounds, rfl⟩

end

theorem coeff_foldl_addCell (terms : List (K × ℕ)) (t : Tableau K) (row r j : ℕ) :
    (terms.foldl (fun t p => t.addCell row p.2 p.1) t).coeff r j =
      t.coeff r j +
        if r = row then (terms.map (fun p => if p.2 = j then p.1 else 0)).sum else 0 := by
  induction terms generalizing t with
  | nil => simp
  | cons p terms ih =>
    rw [List.foldl_cons, ih, Tableau.coeff_addCell, List.map_cons, List.sum_cons]
    by_cases hr : r = row
    · by_cases hj : p.2 = j
      · simp [hr, hj, add_assoc]
      · simp [hr, hj, Ne.symm hj]
    · simp [hr]

theorem coeff_writeRow (constant : ℕ) (t : Tableau K) (e : Equation K) (r j : ℕ) :
    (writeRow constant t e).coeff r j = t.coeff r j + if r = e.aux then
      (e.terms.map (fun p => if p.2 = j then p.1 else 0)).sum + if j = constant then e.scalar else 0
      else 0 := by
  unfold writeRow
  rw [Tableau.coeff_addCell, Tableau.coeff_markBasic, coeff_foldl_addCell]
  by_cases hr : r = e.aux
  · simp [hr, add_assoc]
  · simp [hr]

def compiled (n : Network K) : Query K :=
  ⟨n.numVars, n.equations.foldl (writeRow n.numVars) Tableau.empty, n.relus, networkBounds n⟩

theorem compile_eq_ok {n : Network K} {q : Query K} :
    compile n = .ok q ↔ n.Allocated ∧ q = compiled n :=
  compile_eq_ok_iff

theorem coeff_foldl_writeRow_of_ne {constant : ℕ} {es : List (Equation K)} {r : ℕ}
    (h : ∀ e ∈ es, e.aux ≠ r) (t : Tableau K) (j : ℕ) :
    (es.foldl (writeRow constant) t).coeff r j = t.coeff r j := by
  induction es generalizing t with
  | nil => rfl
  | cons e es ih =>
    rw [List.foldl_cons, ih (fun f hf => h f (List.mem_cons_of_mem _ hf)), coeff_writeRow,
      if_neg (h e List.mem_cons_self).symm, add_zero]

theorem coeff_foldl_writeRow {constant : ℕ} {es : List (Equation K)}
    (h : (es.map Equation.aux).Nodup) {e : Equation K} (he : e ∈ es) (t : Tableau K) (j : ℕ) :
    (es.foldl (writeRow constant) t).coeff e.aux j = t.coeff e.aux j +
      ((e.terms.map (fun p => if p.2 = j then p.1 else 0)).sum +
        if j = constant then e.scalar else 0) := by
  induction es generalizing t with
  | nil => simp at he
  | cons f es ih =>
    obtain ⟨hf, hes⟩ := List.nodup_cons.mp h
    rw [List.foldl_cons]
    rcases List.mem_cons.mp he with rfl | he
    · rw [coeff_foldl_writeRow_of_ne (fun g hg hga => hf (List.mem_map.mpr ⟨g, hg, hga⟩)),
        coeff_writeRow, if_pos rfl]
    · have hne : e.aux ≠ f.aux := fun hef => hf (List.mem_map.mpr ⟨e, he, hef⟩)
      rw [ih hes he, coeff_writeRow, if_neg hne, add_zero]

omit [LinearOrder K] in
theorem sum_terms {count : ℕ} {terms : List (K × ℕ)} (h : ∀ p ∈ terms, p.2 < count) (x : ℕ → K) :
    ∑ j ∈ Finset.range count, (terms.map (fun p => if p.2 = j then p.1 else 0)).sum * x j =
      (terms.map (fun p => p.1 * x p.2)).sum := by
  induction terms with
  | nil => simp
  | cons p terms ih =>
    have hp : p.2 ∈ Finset.range count := Finset.mem_range.mpr (h p List.mem_cons_self)
    simp only [List.map_cons, List.sum_cons, add_mul, Finset.sum_add_distrib, ite_mul, zero_mul]
    rw [ih fun q hq => h q (List.mem_cons_of_mem _ hq), Finset.sum_ite_eq, if_pos hp]

omit [LinearOrder K] in
theorem sum_terms_of_ne {count : ℕ} {terms : List (K × ℕ)} (h : ∀ p ∈ terms, p.2 < count) :
    (terms.map (fun p => if p.2 = count then p.1 else 0)).sum = 0 := by
  refine List.sum_eq_zero fun y hy => ?_
  obtain ⟨p, hp, rfl⟩ := List.mem_map.mp hy
  rw [if_neg (h p hp).ne]

@[simp] theorem numVariables_compiled (n : Network K) :
    (compiled n).numVariables = n.numVars + 1 := by
  simp [compiled, numVariables, networkBounds]

theorem hasRow_compiled {n : Network K} {r : ℕ} :
    (compiled n).tableau.hasRow r = true ↔ ∃ e ∈ n.equations, e.aux = r := by
  simp [compiled, hasRow_foldl_writeRow]

theorem excess_compiled {n : Network K} (h : n.Allocated) {e : Equation K} (he : e ∈ n.equations)
    (x : ℕ → K) : (compiled n).excess e.aux x = e.residual x := by
  have hcoeff : ∀ j, (compiled n).tableau.coeff e.aux j =
      (e.terms.map (fun p => if p.2 = j then p.1 else 0)).sum +
        if j = n.numVars then e.scalar else 0 := fun j =>
    (coeff_foldl_writeRow h.distinct he _ j).trans (zero_add _)
  have hrange : (Finset.range (compiled n).numVariables).erase (compiled n).constant =
      Finset.range n.numVars := by
    rw [numVariables_compiled, Finset.range_add_one]
    exact Finset.erase_insert Finset.notMem_range_self
  have hsum : ∀ j ∈ Finset.range n.numVars, (compiled n).tableau.coeff e.aux j * x j =
      (e.terms.map (fun p => if p.2 = j then p.1 else 0)).sum * x j := by
    intro j hj
    rw [hcoeff, if_neg (Finset.mem_range.mp hj).ne, add_zero]
  unfold excess
  rw [hrange, Finset.sum_congr rfl hsum, sum_terms (h.terms e he), hcoeff]
  change _ - ((e.terms.map (fun p => if p.2 = n.numVars then p.1 else 0)).sum +
    if n.numVars = n.numVars then e.scalar else 0) = _
  rw [sum_terms_of_ne (h.terms e he), if_pos rfl, zero_add, Equation.residual,
    Scalar.total_eq_sum]

theorem boundsOf_compiled {n : Network K} {v : ℕ} (hv : v < n.numVars) :
    (compiled n).boundsOf v = n.boundsOf v := by
  simp [boundsOf, compiled, networkBounds, List.getElem?_append, hv]

theorem boundsOf_compiled_constant (n : Network K) :
    (compiled n).boundsOf n.numVars = Bounds.point 1 := by
  simp [boundsOf, compiled, networkBounds]

theorem shaped_compiled {n : Network K} (h : n.Allocated) : (compiled n).Shaped where
  constant_lt := by
    rw [numVariables_compiled]
    exact Nat.lt_succ_self n.numVars
  pinned := boundsOf_compiled_constant n
  input_lt := fun p hp => by
    rw [numVariables_compiled]
    exact (h.relus p hp).1.trans (Nat.lt_succ_self n.numVars)
  output_lt := fun p hp => by
    rw [numVariables_compiled]
    exact (h.relus p hp).2.trans (Nat.lt_succ_self n.numVars)
  input_ne := fun p hp => (h.relus p hp).1.ne
  output_ne := fun p hp => (h.relus p hp).2.ne

omit [LinearOrder K] in
theorem Shaped.modify {q : Query K} (hq : q.Shaped) {v : ℕ} (hv : v ≠ q.constant)
    (f : Bounds K → Bounds K) : ({ q with bounds := q.bounds.modify v f } : Query K).Shaped := by
  have hlen : ({ q with bounds := q.bounds.modify v f } : Query K).numVariables =
      q.numVariables := by
    rw [numVariables, List.length_modify, numVariables]
  refine ⟨hlen ▸ hq.constant_lt, ?_, hlen ▸ hq.input_lt, hlen ▸ hq.output_lt, hq.input_ne,
    hq.output_ne⟩
  rw [← hq.pinned, boundsOf, List.getElem?_modify_ne _ _ hv, boundsOf]

inductive Derived (n : Network K) : Query K → Prop
  | compiled {q : Query K} (h : compile n = .ok q) : Derived n q
  | lower {q q' : Query K} {v : ℕ} {x : K} (h : Derived n q) (hv : v < n.numVars)
      (hset : q.setLower v x = .ok q') : Derived n q'
  | upper {q q' : Query K} {v : ℕ} {x : K} (h : Derived n q) (hv : v < n.numVars)
      (hset : q.setUpper v x = .ok q') : Derived n q'

theorem Derived.shaped {n : Network K} {q : Query K} (h : Derived n q) :
    q.Shaped ∧ q.constant = n.numVars := by
  induction h with
  | compiled h =>
    obtain ⟨hn, rfl⟩ := compile_eq_ok.mp h
    exact ⟨shaped_compiled hn, rfl⟩
  | lower _ hv hset ih =>
    obtain ⟨_, rfl⟩ := modifyBounds_eq_ok.mp hset
    exact ⟨ih.1.modify (ih.2 ▸ hv.ne) _, ih.2⟩
  | upper _ hv hset ih =>
    obtain ⟨_, rfl⟩ := modifyBounds_eq_ok.mp hset
    exact ⟨ih.1.modify (ih.2 ▸ hv.ne) _, ih.2⟩

end Query

namespace Network

omit [Field K] [LinearOrder K] in
theorem Allocated.boundsOf_eq_free {n : Network K} (h : n.Allocated) {v : ℕ}
    (hv : n.numVars ≤ v) : n.boundsOf v = Bounds.free := by
  have hnone : n.bounds.get? v = none := by
    by_contra hne
    have hmem := VarMap.mem_keys_iff.mpr (Option.isSome_iff_ne_none.mpr hne)
    exact absurd (h.bounds v hmem) (not_lt.mpr hv)
  rw [boundsOf, BoundStore.bounds, hnone]
  rfl

variable [IsStrictOrderedRing K]

theorem solves_iff_checks {n : Network K} (h : n.Allocated) {x : ℕ → K} :
    n.Solves x ↔ (∀ e ∈ n.equations, e.residual x = 0) ∧
      (∀ v < n.numVars, (n.boundsOf v).contains (x v) 0 = true) ∧
      ∀ p ∈ n.relus, x p.output = max (x p.input) 0 := by
  constructor
  · intro hx
    exact ⟨hx.equations, fun v _ => Bounds.contains_iff.mpr (hx.bounds v), hx.relus⟩
  · rintro ⟨hequations, hbounds, hrelus⟩
    refine ⟨hequations, fun v => ?_, hrelus⟩
    rcases Nat.lt_or_ge v n.numVars with hv | hv
    · exact Bounds.contains_iff.mp (hbounds v hv)
    · rw [h.boundsOf_eq_free hv]
      exact Bounds.within_free 0 _

theorem Solves.congr {n : Network K} (h : n.Allocated) {x y : ℕ → K} (hx : n.Solves x)
    (hxy : ∀ v < n.numVars, x v = y v) : n.Solves y := by
  refine ⟨fun e he => ?_, fun v => ?_, fun p hp => ?_⟩
  · have hterms : e.terms.map (fun t => t.1 * y t.2) = e.terms.map (fun t => t.1 * x t.2) :=
      List.map_congr_left fun t ht => by rw [hxy _ (h.terms e he t ht)]
    rw [Equation.residual, hterms]
    exact hx.equations e he
  · rcases Nat.lt_or_ge v n.numVars with hv | hv
    · rw [← hxy v hv]
      exact hx.bounds v
    · rw [h.boundsOf_eq_free hv]
      exact Bounds.within_free 0 _
  · obtain ⟨hin, hout⟩ := h.relus p hp
    rw [← hxy _ hin, ← hxy _ hout]
    exact hx.relus p hp

theorem solves_iff {n : Network K} (h : n.Allocated) {x : ℕ → K} (hx : x n.numVars = 1) :
    n.Solves x ↔ (Query.compiled n).Solves x := by
  constructor
  · intro hn
    refine ⟨fun r hr => ?_, fun v hv => ?_, hn.relus⟩
    · obtain ⟨e, he, rfl⟩ := Query.hasRow_compiled.mp hr
      rw [Query.excess_compiled h he, hn.equations e he]
    · rw [Query.numVariables_compiled] at hv
      rcases Nat.lt_succ_iff_lt_or_eq.mp hv with hv | rfl
      · rw [Query.boundsOf_compiled hv]
        exact hn.bounds v
      · rw [Query.boundsOf_compiled_constant]
        exact Bounds.within_point.mpr hx
  · intro hq
    refine ⟨fun e he => ?_, fun v => ?_, hq.relus⟩
    · rw [← Query.excess_compiled h he]
      exact hq.rows _ (Query.hasRow_compiled.mpr ⟨e, he, rfl⟩)
    · rcases Nat.lt_or_ge v n.numVars with hv | hv
      · rw [← Query.boundsOf_compiled hv]
        exact hq.bounds v (by rw [Query.numVariables_compiled]; omega)
      · rw [h.boundsOf_eq_free hv]
        exact Bounds.within_free 0 _

theorem exists_solves_compiled {n : Network K} (hn : n.Allocated) {x : ℕ → K}
    (hx : n.Solves x) : ∃ y, (∀ v < n.numVars, x v = y v) ∧ (Query.compiled n).Solves y := by
  -- the constant is one more variable, and has the value one
  let y : ℕ → K := Function.update x n.numVars 1
  have hxy : ∀ v < n.numVars, x v = y v := fun v hv => (Function.update_of_ne hv.ne _ _).symm
  exact ⟨y, hxy, (solves_iff hn (Function.update_self ..)).mp (hx.congr hn hxy)⟩

theorem solves_of_compiled {n : Network K} (hn : n.Allocated) {x : ℕ → K}
    (hx : (Query.compiled n).Solves x) : n.Solves x := by
  have hconstant := hx.bounds n.numVars (by simp)
  rw [Query.boundsOf_compiled_constant] at hconstant
  exact (solves_iff hn (Bounds.within_point.mp hconstant)).mpr hx

end Network

end ReluVerify
