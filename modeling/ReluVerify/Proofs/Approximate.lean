import ReluVerify.Proofs.Assignment
import ReluVerify.Proofs.Question
import ReluVerify.Proofs.Staged

namespace ReluVerify

variable {K : Type} [Field K] [LinearOrder K]

namespace Network

structure SolvesLinear (n : Network K) (t : K) (x : ℕ → K) : Prop where
  equations : ∀ e ∈ n.equations, e.residual x = 0
  bounds : ∀ v, (n.boundsOf v).Within t (x v)

structure Tightens (t : K) (n n' : Network K) (P : (ℕ → K) → Prop) : Prop where
  staged : n'.Staged
  numVars_le : n.numVars ≤ n'.numVars
  relus : n'.relus = n.relus
  outputs : n'.outputs = n.outputs
  sound : ∀ x, n'.SolvesLinear t x → n.SolvesLinear t x ∧ P x

variable {t : K} {n n' n'' : Network K} {P Q : (ℕ → K) → Prop}

theorem Tightens.trans (h : Tightens t n n' P) (h' : Tightens t n' n'' Q) :
    Tightens t n n'' (fun x => P x ∧ Q x) where
  staged := h'.staged
  numVars_le := h.numVars_le.trans h'.numVars_le
  relus := h'.relus.trans h.relus
  outputs := h'.outputs.trans h.outputs
  sound := fun x hx => by
    obtain ⟨hx', hq⟩ := h'.sound x hx
    obtain ⟨hx'', hp⟩ := h.sound x hx'
    exact ⟨hx'', hp, hq⟩

theorem Tightens.imp (h : Tightens t n n' P) (hPQ : ∀ x, P x → Q x) : Tightens t n n' Q where
  staged := h.staged
  numVars_le := h.numVars_le
  relus := h.relus
  outputs := h.outputs
  sound := fun x hx => (h.sound x hx).imp_right (hPQ x)

omit [LinearOrder K] in
theorem Staged.of_allocated (hn : n.Staged) (hn' : n'.Allocated)
    (hequations : n'.equations = n.equations) (hrelus : n'.relus = n.relus) : n'.Staged where
  allocated := hn'
  leads := hequations ▸ hn.leads
  output := hequations ▸ hrelus ▸ hn.output
  ordered := hrelus ▸ hn.ordered
  increasing := hrelus ▸ hn.increasing

variable [IsStrictOrderedRing K]

theorem tightens_setLower (hn : n.Staged) {v : ℕ} (hv : v < n.numVars)
    (hfree : (n.boundsOf v).lower = none) (b : K) :
    Tightens t n (n.setLower v b) (fun x => b - t ≤ x v) where
  staged := hn.of_allocated (hn.allocated.setLower hv b) rfl rfl
  numVars_le := le_rfl
  relus := rfl
  outputs := rfl
  sound := fun x hx => by
    obtain ⟨hbounds, hle⟩ := (within_setLower hfree).mp hx.bounds
    exact ⟨⟨hx.equations, hbounds⟩, hle⟩

theorem tightens_setUpper (hn : n.Staged) {v : ℕ} (hv : v < n.numVars)
    (hfree : (n.boundsOf v).upper = none) (b : K) :
    Tightens t n (n.setUpper v b) (fun x => x v ≤ b + t) where
  staged := hn.of_allocated (hn.allocated.setUpper hv b) rfl rfl
  numVars_le := le_rfl
  relus := rfl
  outputs := rfl
  sound := fun x hx => by
    obtain ⟨hbounds, hle⟩ := (within_setUpper hfree).mp hx.bounds
    exact ⟨⟨hx.equations, hbounds⟩, hle⟩

omit [IsStrictOrderedRing K] in
theorem leads_inequality {slack : ℕ} {vars : List ℕ} (h : ∀ v ∈ vars, v < slack)
    (coefficients : List K) (rhs : K) : (inequality slack vars coefficients rhs).Leads := by
  have hvars : ∀ p ∈ coefficients.zip vars, p.2 < slack := fun p hp => h _ (List.of_mem_zip hp).2
  refine ⟨List.forall_mem_append.mpr ⟨fun p hp => (hvars p hp).le, by simp [inequality]⟩, ?_⟩
  have hzero : ((coefficients.zip vars).map
      (fun p => if p.2 = slack then p.1 else 0)).sum = 0 := by
    refine List.sum_eq_zero fun y hy => ?_
    obtain ⟨p, hp, rfl⟩ := List.mem_map.mp hy
    exact if_neg (hvars p hp).ne
  change ((coefficients.zip vars ++ [(1, slack)]).map
    (fun p : K × ℕ => if p.2 = slack then p.1 else 0)).sum = 1
  rw [List.map_append, List.sum_append, hzero]
  simp

theorem tightens_cut (hn : n.Staged) {s : HalfSpace K} (hvars : ∀ v ∈ s.vars, v < n.numVars) :
    Tightens t n (n.cut s) (fun x => -t ≤ s.gap x) := by
  have hgrow := staged_grow hn (allocated_inequality hn.allocated hvars s.coefficients s.rhs)
    (by simp [inequality]) (by simpa using leads_inequality hvars s.coefficients s.rhs) (by simp)
    (by simp) List.Pairwise.nil
  have hfree : ((n.grow 1 [s.equation n.numVars] []).boundsOf n.numVars).lower = none :=
    congrArg Bounds.lower (hn.allocated.boundsOf_eq_free le_rfl)
  have hslack := tightens_setLower (t := t) hgrow (Nat.lt_succ_self n.numVars) hfree 0
  refine ⟨hslack.staged, Nat.le_succ _, List.append_nil _, rfl, fun x hx => ?_⟩
  obtain ⟨⟨hequations, hbounds⟩, hle⟩ := hslack.sound x hx
  obtain ⟨hold, hnew⟩ := List.forall_mem_append.mp hequations
  rw [List.forall_mem_singleton, residual_inequality] at hnew
  refine ⟨⟨hold, hbounds⟩, ?_⟩
  unfold HalfSpace.gap
  linarith

theorem tightens_cuts (hn : n.Staged) {hs : List (HalfSpace K)}
    (h : HalfSpace.Ordered n.numVars hs) :
    Tightens t n (n.cuts hs) (fun x => ∀ s ∈ hs, -t ≤ s.gap x) := by
  induction hs generalizing n with
  | nil => exact ⟨hn, le_rfl, rfl, rfl, fun x hx => ⟨hx, by simp⟩⟩
  | cons s hs ih =>
    obtain ⟨hvars, htail⟩ := HalfSpace.ordered_cons.mp h
    have hfirst := tightens_cut (t := t) hn hvars
    exact (hfirst.trans (ih hfirst.staged htail)).imp fun x hx => List.forall_mem_cons.mpr hx

theorem tightens_limited (hn : n.Staged) {v : ℕ} (hv : v < n.numVars)
    (hfree : n.boundsOf v = Bounds.free) (l : Limit K) :
    Tightens t n (n.limited v l) (fun _ => True) := by
  cases l with
  | atLeast b =>
    exact (tightens_setLower hn hv (congrArg Bounds.lower hfree) b).imp fun _ _ => trivial
  | atMost b =>
    exact (tightens_setUpper hn hv (congrArg Bounds.upper hfree) b).imp fun _ _ => trivial

theorem tightens_fix (hn : n.Staged) {v : ℕ} (hv : v < n.numVars)
    (hfree : n.boundsOf v = Bounds.free) (b : K) : Tightens t n (n.fix v b) (fun _ => True) := by
  have hlower := tightens_setLower (t := t) hn hv (congrArg Bounds.lower hfree) b
  have hupper : ((n.setLower v b).boundsOf v).upper = none := by
    rw [boundsOf_setLower, if_pos rfl, hfree]
    rfl
  exact (hlower.trans (tightens_setUpper hlower.staged hv hupper b)).imp fun _ _ => trivial

end Network

variable [IsStrictOrderedRing K]

namespace Property

open Network

variable {t : K} {n : Network K} {a : Advisory K} {c : Constants K} {h own intruder tau : ℕ}

theorem tightens_marked (hn : n.Staged) (hr : n.Ready h own intruder tau) :
    Tightens t n (marked a c h own intruder n) (fun _ => True) := by
  obtain ⟨hhlt, hownlt, hintlt, _⟩ := hr.lt
  obtain ⟨hhown, hhint, hownint⟩ := hr.ne
  obtain ⟨hhfree, hownfree, hintfree⟩ := hr.boundsOf
  have hlimited := tightens_limited (t := t) hn hownlt hownfree (rateLimit a c)
  have hfixed := hlimited.trans (tightens_fix hlimited.staged (hintlt.trans_le hlimited.numVars_le)
    ((boundsOf_limited_of_ne hownint.symm _).trans hintfree) 0)
  unfold marked
  cases isLevel a.vlo with
  | true =>
    exact (hfixed.trans (tightens_limited hfixed.staged (hhlt.trans_le hfixed.numVars_le)
      ((boundsOf_fix_of_ne hhint 0).trans ((boundsOf_limited_of_ne hhown _).trans hhfree)) _)).imp
        fun _ _ => trivial
  | false => exact hfixed.imp fun _ _ => trivial

theorem exists_encode_tightens (hn : n.Staged) (hr : n.Ready h own intruder tau)
    (ha : a.boundsRate = true) {position target : ℕ}
    (htarget : n.outputs[position]? = some target) :
    ∃ enc n', (encode a position c).run n = (.ok (some enc), n') ∧
      n.Tightens t n' (fun x => ∀ v ∈ n.outputs.eraseIdx position, x v ≤ x target + t) := by
  obtain ⟨hhlt, _, _, htault⟩ := hr.lt
  have hmarked := tightens_marked (t := t) (a := a) (c := c) hn hr
  have hvars := lt_of_mem_spaces (a := a) (c := c) hhlt htault
    (hr.output_lt target (List.mem_of_getElem? htarget)) fun v hv =>
      hr.output_lt v (List.mem_of_mem_eraseIdx (i := position) hv)
  have hcuts := tightens_cuts (t := t) hmarked.staged (HalfSpace.ordered_of_forall_lt
    fun s hs v hv => (hvars s hs v hv).trans_le hmarked.numVars_le)
  refine ⟨_, _, run_encode ha hr.inputs htarget, (hmarked.trans hcuts).imp fun x hx v hv => ?_⟩
  have hgap := hx.2 _ (List.mem_append_right _ (List.mem_map_of_mem hv))
  rw [gap_prefers] at hgap
  linarith

end Property

def Tolerances.slack (tolerances : Tolerances K) : K :=
  max tolerances.relu (2 * tolerances.bound)

theorem Tolerances.slack_standard : (standard : Tolerances K).slack = 1e-6 := by
  unfold slack standard
  rw [max_eq_left]
  norm_num

namespace Reference

variable {tolerances : Tolerances K} {q : Query K} {phases : List Phase} {values : List K}

theorem Node.satisfied (hq : q.Staged) (h : Node tolerances q phases values) :
    (∀ r, q.tableau.hasRow r = true → q.excess r (fun v => values.getD v 0) = 0) ∧
      ∀ pair, (pair, Phase.active) ∈ q.relus.zip phases →
        values.getD pair.output 0 = values.getD pair.input 0 :=
  (Problem.satisfied_relaxation hq h.length (h.value_constant hq.shaped)).mp h.feasible.satisfied

theorem Node.abs_relu_le_slack (hq : q.Staged) (h : Node tolerances q phases values)
    (htol : 0 ≤ tolerances.bound) {pair : ReluPair} (hpair : pair ∈ q.relus) :
    |values.getD pair.output 0 - max (values.getD pair.input 0) 0| ≤ tolerances.slack := by
  have hrelu := h.abs_relu_le_of_active hq.shaped htol le_rfl (fun pair hd => by
    rw [(h.satisfied hq).2 pair hd, sub_self, abs_zero]
    exact htol) hpair
  rwa [← two_mul] at hrelu

theorem Node.solvesLinear {n : Network K} (hn : n.Staged)
    (h : Node tolerances (Query.compiled n) phases values) :
    n.SolvesLinear tolerances.bound (fun v => values.getD v 0) where
  equations := fun e he => by
    rw [← Query.excess_compiled hn.allocated he]
    exact (h.satisfied (Query.staged_compiled hn)).1 _ (Query.hasRow_compiled.mpr ⟨e, he, rfl⟩)
  bounds := fun v => by
    rcases lt_or_ge v n.numVars with hv | hv
    · rw [← Query.boundsOf_compiled hv]
      refine (h.inside (Query.shaped_compiled hn.allocated)).1.1 v ?_
      rw [Query.numVariables_compiled]
      exact Nat.lt_succ_of_lt hv
    · rw [hn.allocated.boundsOf_eq_free hv]
      exact Bounds.within_free _ _

end Reference

end ReluVerify
