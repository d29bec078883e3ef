import ReluVerify.Advisory.Property
import ReluVerify.Proofs.Refinement

namespace ReluVerify

structure HalfSpace (α : Type) where
  vars : List ℕ
  coefficients : List α
  rhs : α

section

variable {α : Type} [Scalar α]

namespace HalfSpace

def Fits (h : HalfSpace α) : Prop :=
  h.vars.length = h.coefficients.length ∧
    (∀ c ∈ h.coefficients, Scalar.isFinite c = true) ∧ Scalar.isFinite h.rhs = true

instance (h : HalfSpace α) : Decidable h.Fits :=
  inferInstanceAs (Decidable (_ ∧ _ ∧ _))

def equation (h : HalfSpace α) (slack : ℕ) : Equation α :=
  Network.inequality slack h.vars h.coefficients h.rhs

end HalfSpace

namespace Network

def cut (n : Network α) (h : HalfSpace α) : Network α :=
  (n.grow 1 [h.equation n.numVars] []).setLower n.numVars 0

def cuts (n : Network α) (hs : List (HalfSpace α)) : Network α := hs.foldl cut n

@[simp] theorem numVars_cut (n : Network α) (h : HalfSpace α) :
    (n.cut h).numVars = n.numVars + 1 := rfl

theorem cuts_cons (n : Network α) (h : HalfSpace α) (hs : List (HalfSpace α)) :
    n.cuts (h :: hs) = (n.cut h).cuts hs := rfl

theorem addInequality_of_fits (n : Network α) {h : HalfSpace α} (hf : h.Fits) :
    (addInequality h.vars h.coefficients h.rhs).run n = (.ok n.numVars, n.cut h) := by
  obtain ⟨hlen, hcoefficients, hrhs⟩ := hf
  have hfind : h.coefficients.find? (fun c => !Scalar.isFinite c) = none :=
    List.find?_eq_none.mpr fun c hc => by simp [hcoefficients c hc]
  have hcut : n.cut h = (n.newVariable.2.addEquation (h.equation n.numVars)).setLower n.numVars 0 := by
    simp [cut, grow, newVariable, addEquation]
  unfold addInequality
  rw [if_neg (not_not_intro hlen), hfind, hrhs, hcut]
  rfl

theorem exists_error_of_not_fits (n : Network α) {h : HalfSpace α} (hf : ¬ h.Fits) :
    ∃ e, (addInequality h.vars h.coefficients h.rhs).run n = (.error e, n) := by
  unfold addInequality
  by_cases hlen : h.vars.length = h.coefficients.length
  · rw [if_neg (not_not_intro hlen)]
    cases hfind : h.coefficients.find? (fun c => !Scalar.isFinite c) with
    | some c => exact ⟨.coefficient c, rfl⟩
    | none =>
      have hcoefficients : ∀ c ∈ h.coefficients, Scalar.isFinite c = true := fun c hc => by
        simpa using List.find?_eq_none.mp hfind c hc
      have hrhs : Scalar.isFinite h.rhs = false :=
        Bool.eq_false_iff.mpr fun hrhs => hf ⟨hlen, hcoefficients, hrhs⟩
      rw [hrhs]
      exact ⟨.rightSide h.rhs, rfl⟩
  · rw [if_pos hlen]
    exact ⟨.arity h.vars.length h.coefficients.length, rfl⟩

def demand (n : Network α) (h : HalfSpace α) : Network α :=
  ((addInequality h.vars h.coefficients h.rhs).run n).2

def demands (n : Network α) (hs : List (HalfSpace α)) : Network α := hs.foldl demand n

theorem demand_of_fits (n : Network α) {h : HalfSpace α} (hf : h.Fits) : n.demand h = n.cut h :=
  congrArg Prod.snd (n.addInequality_of_fits hf)

theorem demand_of_not_fits (n : Network α) {h : HalfSpace α} (hf : ¬ h.Fits) : n.demand h = n := by
  obtain ⟨e, he⟩ := n.exists_error_of_not_fits hf
  exact congrArg Prod.snd he

end Network

theorem Property.run_require {n : Network α} {h : HalfSpace α}
    {r : Except (InequalityError α) ℕ × Network α}
    (hr : (Network.addInequality h.vars h.coefficients h.rhs).run n = r) :
    (require h.vars h.coefficients h.rhs).run n = (r.1.mapError .inequality, r.2) := by
  subst hr
  rfl

theorem Property.run_require_of_fits (n : Network α) {h : HalfSpace α} (hf : h.Fits) :
    (require h.vars h.coefficients h.rhs).run n = (.ok n.numVars, n.cut h) :=
  run_require (n.addInequality_of_fits hf)

namespace Network

theorem demands_eq_cuts (n : Network α) (hs : List (HalfSpace α)) :
    n.demands hs = n.cuts (hs.filter fun h => h.Fits) := by
  induction hs generalizing n with
  | nil => rfl
  | cons h hs ih =>
    have hfirst : n.demands (h :: hs) = (n.demand h).demands hs := rfl
    by_cases hf : h.Fits
    · rw [hfirst, demand_of_fits n hf, ih, List.filter_cons_of_pos (by simpa using hf)]
      rfl
    · rw [hfirst, demand_of_not_fits n hf, ih, List.filter_cons_of_neg (by simpa using hf)]

@[simp] theorem numVars_cuts (n : Network α) (hs : List (HalfSpace α)) :
    (n.cuts hs).numVars = n.numVars + hs.length := by
  induction hs generalizing n with
  | nil => rfl
  | cons h hs ih =>
    rw [cuts_cons, ih, numVars_cut, List.length_cons]
    omega

theorem equations_cuts (n : Network α) (hs : List (HalfSpace α)) : (n.cuts hs).equations =
    n.equations ++ (hs.zipIdx n.numVars).map fun p => p.1.equation p.2 := by
  induction hs generalizing n with
  | nil => simp [cuts]
  | cons h hs ih =>
    have hequations : (n.cut h).equations = n.equations ++ [h.equation n.numVars] := rfl
    rw [cuts_cons, ih, hequations, List.zipIdx_cons,
      List.map_cons, List.append_assoc]
    rfl

theorem sameFrame_cuts (n : Network α) (hs : List (HalfSpace α)) :
    (n.cuts hs).relus = n.relus ∧ (n.cuts hs).inputs = n.inputs ∧
      (n.cuts hs).outputs = n.outputs := by
  induction hs generalizing n with
  | nil => exact ⟨rfl, rfl, rfl⟩
  | cons h hs ih =>
    have hrelus : (n.cut h).relus = n.relus := List.append_nil _
    have hfirst := ih (n.cut h)
    rw [hrelus] at hfirst
    exact hfirst

end Network

end

variable {K : Type} [Field K] [LinearOrder K]

namespace HalfSpace

@[simp] theorem fits_iff {h : HalfSpace K} :
    h.Fits ↔ h.vars.length = h.coefficients.length := by
  simp [Fits]

def gap (h : HalfSpace K) (x : ℕ → K) : K :=
  h.rhs - Network.leftSide h.vars h.coefficients x

def Contains (h : HalfSpace K) (x : ℕ → K) : Prop :=
  Network.leftSide h.vars h.coefficients x ≤ h.rhs

theorem contains_iff [IsStrictOrderedRing K] {h : HalfSpace K} {x : ℕ → K} :
    h.Contains x ↔ 0 ≤ h.gap x :=
  sub_nonneg.symm

omit [LinearOrder K] in
theorem gap_congr {h : HalfSpace K} {count : ℕ} (hvars : ∀ v ∈ h.vars, v < count) {x y : ℕ → K}
    (hxy : ∀ v < count, y v = x v) : h.gap y = h.gap x := by
  rw [gap, gap, Network.leftSide_congr hvars hxy]

theorem contains_congr [IsStrictOrderedRing K] {h : HalfSpace K} {count : ℕ}
    (hvars : ∀ v ∈ h.vars, v < count) {x y : ℕ → K} (hxy : ∀ v < count, y v = x v) :
    h.Contains y ↔ h.Contains x := by
  rw [contains_iff, contains_iff, gap_congr hvars hxy]

-- the variables of every half-space are older than its slack
def Ordered (start : ℕ) (hs : List (HalfSpace K)) : Prop :=
  ∀ p ∈ hs.zipIdx start, ∀ v ∈ p.1.vars, v < p.2

def Filled (start : ℕ) (hs : List (HalfSpace K)) (x : ℕ → K) : Prop :=
  ∀ p ∈ hs.zipIdx start, x p.2 = p.1.gap x

omit [Field K] [LinearOrder K] in
theorem ordered_cons {start : ℕ} {h : HalfSpace K} {hs : List (HalfSpace K)} :
    Ordered start (h :: hs) ↔ (∀ v ∈ h.vars, v < start) ∧ Ordered (start + 1) hs := by
  simp only [Ordered, List.zipIdx_cons, List.forall_mem_cons]

omit [LinearOrder K] in
theorem filled_cons {start : ℕ} {h : HalfSpace K} {hs : List (HalfSpace K)} {x : ℕ → K} :
    Filled start (h :: hs) x ↔ x start = h.gap x ∧ Filled (start + 1) hs x := by
  simp only [Filled, List.zipIdx_cons, List.forall_mem_cons]

omit [Field K] [LinearOrder K] in
theorem ordered_of_forall_lt {start : ℕ} {hs : List (HalfSpace K)}
    (h : ∀ s ∈ hs, ∀ v ∈ s.vars, v < start) : Ordered start hs := fun p hp v hv =>
  (h p.1 (List.fst_mem_of_mem_zipIdx hp) v hv).trans_le (List.le_snd_of_mem_zipIdx hp)

omit [LinearOrder K] in
theorem exists_filled {start : ℕ} {hs : List (HalfSpace K)} (h : Ordered start hs) (x : ℕ → K) :
    ∃ y, (∀ v < start, y v = x v) ∧ Filled start hs y := by
  induction hs generalizing start x with
  | nil => exact ⟨x, fun _ _ => rfl, by simp [Filled]⟩
  | cons s hs ih =>
    obtain ⟨hvars, htail⟩ := ordered_cons.mp h
    -- the oldest slack first: what it depends on does not change any more
    obtain ⟨y, hyx, hy⟩ := ih htail (Function.update x start (s.gap x))
    have hold : ∀ v < start, y v = x v := fun v hv => by
      rw [hyx v (hv.trans (Nat.lt_succ_self start)), Function.update_of_ne hv.ne]
    refine ⟨y, hold, filled_cons.mpr ⟨?_, hy⟩⟩
    rw [hyx start (Nat.lt_succ_self start), Function.update_self, gap_congr hvars hold]

omit [LinearOrder K] in
theorem eq_of_filled {start : ℕ} {hs : List (HalfSpace K)} (h : Ordered start hs) {x y : ℕ → K}
    (hx : Filled start hs x) (hy : Filled start hs y) (hxy : ∀ v < start, x v = y v) :
    ∀ v < start + hs.length, x v = y v := by
  induction hs generalizing start with
  | nil => exact hxy
  | cons s hs ih =>
    obtain ⟨hvars, htail⟩ := ordered_cons.mp h
    obtain ⟨hx', hx⟩ := filled_cons.mp hx
    obtain ⟨hy', hy⟩ := filled_cons.mp hy
    have hnext : ∀ v < start + 1, x v = y v := fun v hv => by
      rcases Nat.lt_succ_iff_lt_or_eq.mp hv with hv | rfl
      · exact hxy v hv
      · rw [hx', hy', gap_congr hvars hxy]
    intro v hv
    exact ih htail hx hy hnext v (by rw [List.length_cons] at hv; omega)

end HalfSpace

namespace Network

open HalfSpace

theorem boundsOf_cut {n : Network K} {v : ℕ} (h : HalfSpace K) (hv : v < n.numVars) :
    (n.cut h).boundsOf v = n.boundsOf v :=
  (boundsOf_setLower _ _ _ _).trans (if_neg hv.ne)

theorem boundsOf_cuts {n : Network K} {v : ℕ} (hs : List (HalfSpace K)) (hv : v < n.numVars) :
    (n.cuts hs).boundsOf v = n.boundsOf v := by
  induction hs generalizing n with
  | nil => rfl
  | cons h hs ih => exact (ih (hv.trans (Nat.lt_succ_self _))).trans (boundsOf_cut h hv)

theorem allocated_cut {n : Network K} (hn : n.Allocated) {h : HalfSpace K}
    (hvars : ∀ v ∈ h.vars, v < n.numVars) : (n.cut h).Allocated :=
  (allocated_inequality hn hvars h.coefficients h.rhs).setLower (Nat.lt_succ_self _) 0

variable [IsStrictOrderedRing K]

theorem solves_cut {n : Network K} (hn : n.Allocated) {h : HalfSpace K} {x : ℕ → K} :
    (n.cut h).Solves x ↔ n.Solves x ∧ h.Contains x ∧ x n.numVars = h.gap x := by
  have hfree : ((n.grow 1 [h.equation n.numVars] []).boundsOf n.numVars).lower = none :=
    congrArg Bounds.lower (hn.boundsOf_eq_free le_rfl)
  have hslack : (h.equation n.numVars).residual x = 0 ↔ x n.numVars = h.gap x := by
    rw [HalfSpace.equation, residual_inequality, sub_eq_zero, gap, eq_sub_iff_add_eq, add_comm]
  rw [cut, solves_setLower hfree, solves_grow, List.forall_mem_singleton, hslack, contains_iff]
  constructor
  · rintro ⟨⟨hx, hgap, _⟩, hle⟩
    exact ⟨hx, hgap ▸ hle, hgap⟩
  · rintro ⟨hx, hle, hgap⟩
    exact ⟨⟨hx, hgap, by simp⟩, hgap ▸ hle⟩

omit [IsStrictOrderedRing K] in
theorem allocated_cuts {n : Network K} (hn : n.Allocated) {hs : List (HalfSpace K)}
    (h : Ordered n.numVars hs) : (n.cuts hs).Allocated := by
  induction hs generalizing n with
  | nil => exact hn
  | cons s hs ih =>
    obtain ⟨hvars, htail⟩ := ordered_cons.mp h
    exact ih (allocated_cut hn hvars) htail

theorem solves_cuts {n : Network K} (hn : n.Allocated) {hs : List (HalfSpace K)}
    (h : Ordered n.numVars hs) {x : ℕ → K} : (n.cuts hs).Solves x ↔
      n.Solves x ∧ (∀ s ∈ hs, s.Contains x) ∧ Filled n.numVars hs x := by
  induction hs generalizing n with
  | nil => simp [cuts, Filled]
  | cons s hs ih =>
    obtain ⟨hvars, htail⟩ := ordered_cons.mp h
    have hrest := ih (allocated_cut hn hvars) htail
    rw [List.forall_mem_cons, filled_cons]
    refine hrest.trans ?_
    rw [solves_cut hn]
    constructor
    · rintro ⟨⟨hx, hs, hgap⟩, hcontains, hfilled⟩
      exact ⟨hx, ⟨hs, hcontains⟩, hgap, hfilled⟩
    · rintro ⟨hx, ⟨hs, hcontains⟩, hgap, hfilled⟩
      exact ⟨⟨hx, hs, hgap⟩, hcontains, hfilled⟩

def ExtendsTo (n n' : Network K) (x : ℕ → K) : Prop :=
  ∃ y, (∀ v < n.numVars, y v = x v) ∧ n'.Solves y

theorem extendsTo_cuts {n : Network K} (hn : n.Allocated) {hs : List (HalfSpace K)}
    (h : ∀ s ∈ hs, ∀ v ∈ s.vars, v < n.numVars) {x : ℕ → K} :
    n.ExtendsTo (n.cuts hs) x ↔ n.Solves x ∧ ∀ s ∈ hs, s.Contains x := by
  have hordered := ordered_of_forall_lt h
  constructor
  · rintro ⟨y, hyx, hy⟩
    obtain ⟨hy, hcontains, _⟩ := (solves_cuts hn hordered).mp hy
    exact ⟨hy.congr hn hyx, fun s hs => (contains_congr (h s hs) hyx).mp (hcontains s hs)⟩
  · rintro ⟨hx, hcontains⟩
    obtain ⟨y, hyx, hy⟩ := exists_filled hordered x
    refine ⟨y, hyx, (solves_cuts hn hordered).mpr ⟨hx.congr hn fun v hv => (hyx v hv).symm, ?_, hy⟩⟩
    exact fun s hs => (contains_congr (h s hs) hyx).mpr (hcontains s hs)

structure CutBy (n n' : Network K) (hs : List (HalfSpace K)) : Prop where
  compiles : ∃ q, Query.compile n' = .ok q
  numVars : n'.numVars = n.numVars + hs.length
  equations : n'.equations = n.equations ++ (hs.zipIdx n.numVars).map fun p => p.1.equation p.2
  relus : n'.relus = n.relus
  inputs : n'.inputs = n.inputs
  outputs : n'.outputs = n.outputs
  bounds : ∀ v < n.numVars, n'.boundsOf v = n.boundsOf v
  solves_iff : ∀ x, n'.Solves x ↔
    n.Solves x ∧ (∀ s ∈ hs, s.Contains x) ∧ Filled n.numVars hs x
  unique : ∀ x y, n'.Solves x → n'.Solves y → (∀ v < n.numVars, x v = y v) →
    ∀ v < n'.numVars, x v = y v

theorem cutBy_cuts {n : Network K} (hn : n.Allocated) {hs : List (HalfSpace K)}
    (h : Ordered n.numVars hs) : n.CutBy (n.cuts hs) hs where
  compiles := ⟨_, Query.compile_eq_ok.mpr ⟨allocated_cuts hn h, rfl⟩⟩
  numVars := numVars_cuts n hs
  equations := equations_cuts n hs
  relus := (sameFrame_cuts n hs).1
  inputs := (sameFrame_cuts n hs).2.1
  outputs := (sameFrame_cuts n hs).2.2
  bounds := fun _ => boundsOf_cuts hs
  solves_iff := fun _ => solves_cuts hn h
  unique := fun x y hx hy hxy => by
    rw [numVars_cuts]
    exact eq_of_filled h ((solves_cuts hn h).mp hx).2.2 ((solves_cuts hn h).mp hy).2.2 hxy

theorem demands_intersect {n : Network K} {q : Query K} (hq : Query.compile n = .ok q) :
    (∀ (α : Type) [Scalar α] (m : Network α) (h : HalfSpace α), ¬ h.Fits → ∃ e,
      (addInequality h.vars h.coefficients h.rhs).run m = (.error e, m) ∧
      (Property.require h.vars h.coefficients h.rhs).run m = (.error (.inequality e), m)) ∧
    (∀ h : HalfSpace K, h.Fits → (∀ v ∈ h.vars, v < n.numVars) → ∃ n',
      (addInequality h.vars h.coefficients h.rhs).run n = (.ok n.numVars, n') ∧
      (Property.require h.vars h.coefficients h.rhs).run n = (.ok n.numVars, n') ∧
      n.CutBy n' [h] ∧ ∀ x, n.ExtendsTo n' x ↔ n.Solves x ∧ h.Contains x) ∧
    (∀ hs : List (HalfSpace K), Ordered n.numVars (hs.filter fun h => h.Fits) →
      n.CutBy (n.demands hs) (hs.filter fun h => h.Fits)) ∧
    ∀ hs : List (HalfSpace K), (∀ h ∈ hs, h.Fits → ∀ v ∈ h.vars, v < n.numVars) →
      ∀ hs', hs.Perm hs' → ∀ x,
        n.ExtendsTo (n.demands hs') x ↔ n.Solves x ∧ ∀ h ∈ hs, h.Fits → h.Contains x := by
  obtain ⟨hn, rfl⟩ := Query.compile_eq_ok.mp hq
  refine ⟨fun α _ m h hf => ?_, fun h hf hvars => ?_, fun hs hordered => ?_,
    fun hs hvars hs' hperm x => ?_⟩
  · obtain ⟨e, he⟩ := m.exists_error_of_not_fits hf
    exact ⟨e, he, Property.run_require he⟩
  · have hall : ∀ s ∈ [h], ∀ v ∈ s.vars, v < n.numVars := List.forall_mem_singleton.mpr hvars
    refine ⟨n.cut h, n.addInequality_of_fits hf, Property.run_require_of_fits n hf,
      cutBy_cuts hn (ordered_of_forall_lt hall), fun x => ?_⟩
    refine (extendsTo_cuts hn hall).trans ?_
    rw [List.forall_mem_singleton]
  · rw [demands_eq_cuts]
    exact cutBy_cuts hn hordered
  · have hmem : ∀ s, s ∈ hs'.filter (fun h => h.Fits) ↔ s ∈ hs ∧ s.Fits := fun s => by
      rw [List.mem_filter, hperm.mem_iff, decide_eq_true_iff]
    have hfits : ∀ s ∈ hs'.filter (fun h => h.Fits), ∀ v ∈ s.vars, v < n.numVars := fun s hs =>
      hvars s ((hmem s).mp hs).1 ((hmem s).mp hs).2
    rw [demands_eq_cuts, extendsTo_cuts hn hfits]
    simp only [hmem, and_imp]

def hingeNetwork : Network ℚ :=
  let n := (Network.empty.newVariables 2).2
  (n.setUpper 0 4).addRelu 0 1

-- a variable twice in one half-space, and a half-space that is refused
def hingeSpaces : List (HalfSpace ℚ) := [⟨[0, 0], [1, 1], 3⟩, ⟨[1], [], 0⟩, ⟨[1], [-1], -1⟩]

theorem demands_intersect_hinge : ∃ q, Query.compile hingeNetwork = .ok q ∧
    hingeNetwork.ExtendsTo (hingeNetwork.demands hingeSpaces.reverse) (fun _ => 3 / 2) ∧
      ¬ hingeNetwork.ExtendsTo (hingeNetwork.demands hingeSpaces.reverse) (fun _ => 2) := by
  have hn : hingeNetwork.Allocated :=
    ⟨by decide +kernel, by decide +kernel, by decide +kernel, by decide +kernel,
      by decide +kernel⟩
  have hq : Query.compile hingeNetwork = .ok (Query.compiled hingeNetwork) :=
    Query.compile_eq_ok.mpr ⟨hn, rfl⟩
  have hx : hingeNetwork.Solves (fun _ => 3 / 2) := by
    rw [solves_iff_checks hn]
    decide +kernel
  have hvars : ∀ h ∈ hingeSpaces, h.Fits → ∀ v ∈ h.vars, v < hingeNetwork.numVars := by
    decide +kernel
  have hextends := (demands_intersect hq).2.2.2 hingeSpaces hvars _
    hingeSpaces.reverse_perm.symm
  refine ⟨_, hq, (hextends _).mpr ⟨hx, ?_⟩, fun h => ?_⟩
  · simp [hingeSpaces, Contains, leftSide]
    norm_num
  · have hfirst := ((hextends _).mp h).2 _ List.mem_cons_self (by simp)
    norm_num [Contains, leftSide] at hfirst

end Network

end ReluVerify
