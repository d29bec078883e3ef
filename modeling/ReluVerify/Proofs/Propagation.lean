import ReluVerify.Proofs.Staged
import ReluVerify.Proofs.Unsat

namespace ReluVerify

variable {K : Type} [Field K] [LinearOrder K]

namespace Query

def determined (q : Query K) (v : ℕ) : Bool :=
  q.tableau.hasRow v || q.relus.any (fun p => p.output == v)

omit [Field K] [LinearOrder K] in
theorem determined_iff {q : Query K} {v : ℕ} : q.determined v = true ↔
    q.tableau.hasRow v = true ∨ ∃ p ∈ q.relus, p.output = v := by
  simp [determined]

structure Driven (q : Query K) (given : ℕ → K) : Prop where
  staged : q.Staged
  input : ∀ p ∈ q.relus, q.tableau.hasRow p.input = true
  free : ∀ v, q.determined v = true → q.boundsOf v = Bounds.free
  fixed : ∀ v < q.numVariables, v ≠ q.constant → q.determined v = false →
    q.boundsOf v = Bounds.point (given v)

structure Runs (q : Query K) (given : ℕ → K) (phases : List Phase) (x : ℕ → K) : Prop where
  rows : ∀ r, q.tableau.hasRow r = true → q.excess r x = 0
  constant : x q.constant = 1
  fixed : ∀ v < q.numVariables, v ≠ q.constant → q.determined v = false → x v = given v
  active : ∀ pair, (pair, Phase.active) ∈ q.relus.zip phases → x pair.output = x pair.input
  undecided : ∀ pair, (pair, Phase.undecided) ∈ q.relus.zip phases → x pair.output = 0

omit [LinearOrder K] in
theorem excess_sub_excess {q : Query K} (hq : q.Staged) {r : ℕ} (hr : q.tableau.hasRow r = true)
    {x y : ℕ → K} (hxy : ∀ j < r, j < q.numVariables → x j = y j) :
    q.excess r x - q.excess r y = x r - y r := by
  have hterm : ∀ j ∈ (Finset.range q.numVariables).erase q.constant,
      q.tableau.coeff r j * x j - q.tableau.coeff r j * y j =
        if j = r then x r - y r else 0 := by
    intro j hj
    obtain ⟨hjc, hlt⟩ := Finset.mem_erase.mp hj
    rcases lt_trichotomy j r with hjr | rfl | hjr
    · rw [hxy j hjr (Finset.mem_range.mp hlt), sub_self, if_neg hjr.ne]
    · rw [hq.leading j hr, one_mul, one_mul, if_pos rfl]
    · rw [hq.above r hr j hjr hjc, zero_mul, zero_mul, sub_self, if_neg hjr.ne']
  rw [excess, excess, sub_sub_sub_cancel_right, ← Finset.sum_sub_distrib,
    Finset.sum_congr rfl hterm, Finset.sum_ite_eq', if_pos]
  exact Finset.mem_erase.mpr ⟨hq.row_ne r hr, Finset.mem_range.mpr (hq.row_lt r hr)⟩

def propagated (q : Query K) (tolerance : K) (phases : List Phase) : ℕ → K :=
  ((Problem.ofQuery q).relaxation tolerance phases).start.value

-- A run is settled variable by variable, so phases further on do not matter to what comes before.
omit [LinearOrder K] in
theorem Runs.eq_of_lt {q : Query K} (hq : q.Staged) {given : ℕ → K} {phases phases' : List Phase}
    {x y : ℕ → K} (hx : q.Runs given phases x) (hy : q.Runs given phases' y)
    (hlen : phases.length = q.relus.length) (hinactive : Phase.inactive ∉ phases) {w : ℕ}
    (hsame : ∀ (i : ℕ) (pair : ReluPair), q.relus[i]? = some pair → pair.output < w →
      phases[i]? = phases'[i]?)
    {v : ℕ} (hvw : v < w) (hv : v < q.numVariables) : x v = y v := by
  induction v using Nat.strong_induction_on with
  | _ v ih =>
    by_cases hc : v = q.constant
    · rw [hc, hx.constant, hy.constant]
    by_cases hdet : q.determined v = true
    · rcases determined_iff.mp hdet with hr | ⟨pair, hpair, rfl⟩
      · have hsub := excess_sub_excess hq hr fun j hj hjq => ih j hj (hj.trans hvw) hjq
        rw [hx.rows v hr, hy.rows v hr, sub_self] at hsub
        exact (sub_eq_zero.mp hsub.symm)
      · obtain ⟨i, hi⟩ := List.mem_iff_getElem?.mp hpair
        have hlt : i < phases.length := hlen.symm ▸ (List.getElem?_eq_some_iff.mp hi).1
        have hget := List.getElem?_eq_getElem hlt
        have hmem : ∀ ps : List Phase, ps[i]? = some phases[i] →
            (pair, phases[i]) ∈ q.relus.zip ps := fun _ hps => mem_zip_of_getElem? hi hps
        have hmemx := hmem phases hget
        have hmemy := hmem phases' ((hsame i pair hi hvw).symm.trans hget)
        have hin := hq.ordered pair hpair
        cases hphase : phases[i] with
        | undecided =>
          rw [hphase] at hmemx hmemy
          rw [hx.undecided pair hmemx, hy.undecided pair hmemy]
        | active =>
          rw [hphase] at hmemx hmemy
          rw [hx.active pair hmemx, hy.active pair hmemy]
          exact ih _ hin (hin.trans hvw) (hq.shaped.input_lt pair hpair)
        | inactive => exact absurd (hphase ▸ List.getElem_mem hlt) hinactive
    · rw [hx.fixed v hv hc (Bool.eq_false_iff.mpr hdet),
        hy.fixed v hv hc (Bool.eq_false_iff.mpr hdet)]

theorem inside_of_driven [IsStrictOrderedRing K] {q : Query K} {given : ℕ → K}
    (hq : q.Driven given) {x : ℕ → K} (hconstant : x q.constant = 1)
    (hfixed : ∀ v < q.numVariables, v ≠ q.constant → q.determined v = false → x v = given v) :
    ∀ v < q.numVariables, (q.boundsOf v).Within 0 (x v) := by
  intro v hv
  by_cases hc : v = q.constant
  · rw [hc, hq.staged.shaped.pinned, hconstant]
    exact Bounds.within_point.mpr rfl
  by_cases hdet : q.determined v = true
  · rw [hq.free v hdet]
    exact Bounds.within_free 0 _
  · have hdet := Bool.eq_false_iff.mpr hdet
    rw [hq.fixed v hv hc hdet, hfixed v hv hc hdet]
    exact Bounds.within_point.mpr rfl

end Query

namespace Problem

open Query

variable {q : Query K} {given : ℕ → K} (hq : q.Driven given) {phases : List Phase}

include hq

variable [IsStrictOrderedRing K]

theorem exists_inside (hinactive : Phase.inactive ∉ phases) :
    ∃ z, Bounds.Inside ((ofQuery q).phaseBounds phases) 0 z := by
  let z : ℕ → K := fun v => if v = q.constant then 1 else if q.determined v then 0 else given v
  have hz : ∀ v, v ≠ q.constant → q.determined v = true → z v = 0 := fun v hc hdet => by
    simp only [z, if_neg hc, if_pos hdet]
  refine ⟨z, (inside_phaseBounds q hq.staged.shaped phases).mpr
    ⟨⟨inside_of_driven hq (if_pos rfl) fun v _ hc hdet => ?_, fun p hp => ?_⟩, fun d hd => ?_⟩⟩
  · simp [z, hc, hdet]
  · rw [hz _ (hq.staged.shaped.output_ne p hp) (determined_iff.mpr (Or.inr ⟨p, hp, rfl⟩)), neg_zero]
  · obtain ⟨pair, phase⟩ := d
    obtain ⟨hpair, hphase⟩ := List.of_mem_zip hd
    cases phase with
    | undecided => trivial
    | active =>
      change -0 ≤ z pair.input
      rw [hz _ (hq.staged.shaped.input_ne pair hpair)
        (determined_iff.mpr (Or.inl (hq.input pair hpair))), neg_zero]
    | inactive => exact absurd hphase hinactive

variable {tolerance : K} (htol : 0 ≤ tolerance) (hlen : phases.length = q.relus.length)
  (hinactive : Phase.inactive ∉ phases)

include htol hlen hinactive

theorem contradictory_of_driven :
    ((ofQuery q).relaxation tolerance phases).contradictory = false := by
  obtain ⟨z, hz⟩ := exists_inside hq hinactive
  refine (contradictory_relaxation hq.staged hlen).mpr fun v hv => ?_
  rw [← length_bounds_ofQuery q, ← length_phaseBounds _ phases] at hv
  exact Bounds.crossed_eq_false_of_within htol (hz v hv)

-- Off the rows every variable rests on a stop of the query's own bounds.
omit hlen in
theorem stop_start {v : ℕ} (hv : v < q.numVariables)
    (hnonbasic : ∀ r ∈ ((ofQuery q).relaxation tolerance phases).rows, r.basic ≠ v) :
    (q.boundsOf v).Stop (q.propagated tolerance phases v) := by
  obtain ⟨z, hz⟩ := exists_inside hq hinactive
  have hsettled := settled_relaxation hq.staged.shaped phases htol
  have hlt : v < ((ofQuery q).relaxation tolerance phases).numVars := by
    rwa [numVars_relaxation]
  have hrest := hsettled.resting v hlt hnonbasic
  change (((ofQuery q).relaxation tolerance phases).boundsOf v).Rest _ at hrest
  rw [boundsOf_relaxation] at hrest
  refine stopsOf_phaseBounds q phases v _ (hrest.stop (hz v ?_))
  rwa [length_phaseBounds, length_bounds_ofQuery]

theorem runs_propagated : q.Runs given phases (q.propagated tolerance phases) := by
  have hsettled := settled_relaxation hq.staged.shaped phases htol
  have hnone : ∀ v, q.tableau.hasRow v = false → (∀ pair,
      (pair, Phase.active) ∈ q.relus.zip phases → pair.output ≠ v) → v < q.numVariables →
      (q.boundsOf v).Stop (q.propagated tolerance phases v) :=
    fun v hrow hactive hv => stop_start hq htol hinactive hv
      (nonbasic_relaxation hq.staged hlen tolerance hrow hactive)
  have hconstant : q.propagated tolerance phases q.constant = 1 := by
    have hstop := hnone q.constant
      (Bool.eq_false_iff.mpr fun hrow => hq.staged.row_ne _ hrow rfl)
      (fun pair hpair => hq.staged.shaped.output_ne pair (List.of_mem_zip hpair).1)
      hq.staged.shaped.constant_lt
    rw [hq.staged.shaped.pinned] at hstop
    exact Bounds.within_point.mp hstop.2
  obtain ⟨hrows, hactive⟩ :=
    (satisfied_relaxation hq.staged hlen hconstant).mp hsettled.consistent
  refine ⟨hrows, hconstant, fun v hv hc hdet => ?_, hactive, fun pair hpair => ?_⟩
  · have hnot : q.determined v ≠ true := Bool.eq_false_iff.mp hdet
    rw [Ne, determined_iff, not_or, Bool.not_eq_true] at hnot
    have hstop := hnone v hnot.1
      (fun pair hpair he => hnot.2 ⟨pair, (List.of_mem_zip hpair).1, he⟩) hv
    rw [hq.fixed v hv hc hdet] at hstop
    exact Bounds.within_point.mp hstop.2
  · have hmem := (List.of_mem_zip hpair).1
    have hstop := hnone pair.output (hq.staged.output pair hmem) (fun pair' hpair' he => by
      cases eq_of_output hq.staged hlen hpair' hpair he) (hq.staged.shaped.output_lt pair hmem)
    rw [hq.free _ (determined_iff.mpr (Or.inr ⟨pair, hmem, rfl⟩))] at hstop
    rcases hstop.1 with hlow | hupp | hzero
    · cases hlow
    · cases hupp
    · exact hzero

theorem linear_of_nonneg {tr : K} (hpos : ∀ pair, (pair, Phase.active) ∈ q.relus.zip phases →
      0 ≤ q.propagated tolerance phases pair.input) (budget : ℕ) :
    Reference.linear budget ⟨tolerance, tr⟩ (.steady false) (ofQuery q) phases = some
      ⟨.feasible ((ofQuery q).relaxation tolerance phases).start.refreshed.values, 0⟩ := by
  have hruns := runs_propagated hq htol hlen hinactive
  have hsettled := settled_relaxation hq.staged.shaped phases htol
  have hinside : Bounds.Inside ((ofQuery q).phaseBounds phases) 0
      (q.propagated tolerance phases) := by
    refine (inside_phaseBounds q hq.staged.shaped phases).mpr
      ⟨⟨inside_of_driven hq hruns.constant hruns.fixed, fun p hp => ?_⟩, fun d hd => ?_⟩
    · obtain ⟨phase, hphase⟩ := exists_phase hlen hp
      rw [neg_zero]
      cases phase with
      | undecided => exact (hruns.undecided p hphase).ge
      | active =>
        rw [hruns.active p hphase]
        exact hpos p hphase
      | inactive => exact absurd (List.of_mem_zip hphase).2 hinactive
    · obtain ⟨pair, phase⟩ := d
      cases phase with
      | undecided => trivial
      | active => exact (neg_zero (G := K)).le.trans (hpos pair hd)
      | inactive => exact absurd (List.of_mem_zip hd).2 hinactive
  refine Simplex.check_of_within (contradictory_of_driven hq htol hlen hinactive) rfl
    fun r hr => ?_
  have hlt : r.basic < ((ofQuery q).relaxation tolerance phases).numVars :=
    hsettled.tidy.basic_lt r hr
  rw [relaxation_eq, Simplex.numVars_assembled] at hlt
  have hwithin := (hinside r.basic hlt).mono htol
  rwa [boundsOf_relaxation, relaxation_eq, Simplex.tolerance_assembled, ← relaxation_eq]

end Problem

namespace Query

def above (threshold a : K) : K := if threshold < a then a else 0

theorem abs_zero_sub_max_le [IsStrictOrderedRing K] {a tr : K} (htr : 0 ≤ tr) :
    |0 - max a 0| ≤ tr ↔ a ≤ tr := by
  rw [zero_sub, abs_neg, abs_of_nonneg (le_max_right a 0), max_le_iff, and_iff_left htr]

theorem count_active_set {phases : List Phase} {m : ℕ}
    (hm : phases[m]? = some .undecided) :
    (phases.set m .active).count .active = phases.count .active + 1 := by
  obtain ⟨hlt, hget⟩ := List.getElem?_eq_some_iff.mp hm
  rw [List.count_set hlt, hget]
  simp

def phaseAt (tr : K) (x : ℕ → K) (pair : ReluPair) : Phase :=
  if tr < x pair.input then .active else .undecided

structure Frontier (q : Query K) (tolerance tr : K) (phases : List Phase) (k : ℕ) : Prop where
  length : phases.length = q.relus.length
  behind : ∀ i < k, ∀ pair, q.relus[i]? = some pair →
    phases[i]? = some (phaseAt tr (q.propagated tolerance phases) pair)
  ahead : ∀ i, k ≤ i → i < q.relus.length → phases[i]? = some .undecided

section

variable {q : Query K} {given : ℕ → K} {tolerance tr : K} {phases : List Phase} {k : ℕ}

theorem Frontier.phase_eq (h : q.Frontier tolerance tr phases k) {pair : ReluPair} {phase : Phase}
    (hd : (pair, phase) ∈ q.relus.zip phases) :
    phase = phaseAt tr (q.propagated tolerance phases) pair ∨ phase = .undecided := by
  obtain ⟨i, hrelu, hphase⟩ := getElem?_of_mem_zip hd
  rcases lt_or_ge i k with hik | hik
  · exact Or.inl (Option.some.inj (hphase.symm.trans (h.behind i hik pair hrelu)))
  · have hlt := (List.getElem?_eq_some_iff.mp hrelu).1
    exact Or.inr (Option.some.inj (hphase.symm.trans (h.ahead i hik hlt)))

theorem Frontier.not_inactive (h : q.Frontier tolerance tr phases k) :
    Phase.inactive ∉ phases := by
  intro hmem
  obtain ⟨i, hi⟩ := List.mem_iff_getElem?.mp hmem
  have hlt : i < q.relus.length := h.length ▸ (List.getElem?_eq_some_iff.mp hi).1
  rcases h.phase_eq (mem_zip_of_getElem? (List.getElem?_eq_getElem hlt) hi) with hphase | hphase
  · unfold phaseAt at hphase
    split at hphase <;> cases hphase
  · cases hphase

theorem Frontier.lt_of_active (h : q.Frontier tolerance tr phases k) {pair : ReluPair}
    (hd : (pair, Phase.active) ∈ q.relus.zip phases) :
    tr < q.propagated tolerance phases pair.input := by
  rcases h.phase_eq hd with hphase | hphase
  · by_contra hle
    rw [phaseAt, if_neg hle] at hphase
    cases hphase
  · cases hphase

theorem Frontier.set_active (h : q.Frontier tolerance tr phases k) (m : ℕ) :
    (phases.set m .active).length = q.relus.length ∧ Phase.inactive ∉ phases.set m .active :=
  ⟨(List.length_set ..).trans h.length, fun hmem =>
    (List.mem_or_eq_of_mem_set hmem).elim h.not_inactive (by simp)⟩

variable (hq : q.Driven given) (htol : 0 ≤ tolerance) (htr : 0 ≤ tr)

include hq htol

variable [IsStrictOrderedRing K]

theorem Frontier.runs (h : q.Frontier tolerance tr phases k) :
    q.Runs given phases (q.propagated tolerance phases) :=
  Problem.runs_propagated hq htol h.length h.not_inactive

-- Deciding a pair leaves all that comes before its output as it was.
theorem Frontier.propagated_set (h : q.Frontier tolerance tr phases k) {m : ℕ} {pair : ReluPair}
    (hpair : q.relus[m]? = some pair) {i : ℕ} (him : i ≤ m) {p : ReluPair}
    (hp : q.relus[i]? = some p) : q.propagated tolerance (phases.set m .active) p.input =
      q.propagated tolerance phases p.input := by
  have hmem := List.mem_of_getElem? hp
  have hout : p.output ≤ pair.output := by
    rcases him.eq_or_lt with rfl | him
    · rw [Option.some.inj (hp.symm.trans hpair)]
    · obtain ⟨hi, rfl⟩ := List.getElem?_eq_some_iff.mp hp
      obtain ⟨_, rfl⟩ := List.getElem?_eq_some_iff.mp hpair
      exact (List.pairwise_iff_getElem.mp hq.staged.increasing i m hi _ him).le
  obtain ⟨hlength, hinactive⟩ := h.set_active m
  have hruns := Problem.runs_propagated hq htol hlength hinactive
  refine ((h.runs hq htol).eq_of_lt hq.staged hruns h.length h.not_inactive
    (fun j p' hp' hlt' => ?_) ((hq.staged.ordered p hmem).trans_le hout)
    (hq.staged.shaped.input_lt p hmem)).symm
  refine (List.getElem?_set_ne ?_).symm
  rintro rfl
  rw [Option.some.inj (hp'.symm.trans hpair)] at hlt'
  exact lt_irrefl _ hlt'

include htr

theorem Frontier.exists_linear (h : q.Frontier tolerance tr phases k) (budget : ℕ) : ∃ values,
    Reference.linear budget ⟨tolerance, tr⟩ (.steady false) (Problem.ofQuery q) phases =
      some ⟨.feasible values, 0⟩ ∧ values.length = q.numVariables ∧
    ∀ v < q.numVariables, values.getD v 0 = q.propagated tolerance phases v := by
  have hsettled := Problem.settled_relaxation hq.staged.shaped phases htol
  refine ⟨_, Problem.linear_of_nonneg hq htol h.length h.not_inactive
    (fun pair hd => htr.trans (h.lt_of_active hd).le) budget, ?_, fun v hv => ?_⟩
  · rw [Simplex.values_refreshed, Simplex.length_foldl_refresh]
    exact hsettled.values_length.trans (Problem.numVars_relaxation phases)
  · exact hsettled.value_refreshed (v := v)
      (hv.trans_eq (Problem.numVars_relaxation phases).symm)

variable {values : List K}
  (hvalues : ∀ v < q.numVariables, values.getD v 0 = q.propagated tolerance phases v)

include hvalues

theorem Frontier.broken_iff (h : q.Frontier tolerance tr phases k) {pair : ReluPair}
    (hd : (pair, Phase.undecided) ∈ q.relus.zip phases) :
    |values.getD pair.output 0 - max (values.getD pair.input 0) 0| ≤ tr ↔
      q.propagated tolerance phases pair.input ≤ tr := by
  have hmem := (List.of_mem_zip hd).1
  rw [hvalues _ (hq.staged.shaped.output_lt pair hmem),
    hvalues _ (hq.staged.shaped.input_lt pair hmem), (h.runs hq htol).undecided pair hd,
    abs_zero_sub_max_le htr]

theorem Frontier.finish (h : q.Frontier tolerance tr phases k)
    (hb : Search.firstBroken? tr values q.relus phases = none) :
    q.Frontier tolerance tr phases q.relus.length := by
  refine ⟨h.length, fun i hi pair hpair => ?_, fun i hi hlt => absurd hlt (not_lt.mpr hi)⟩
  rcases lt_or_ge i k with hik | hik
  · exact h.behind i hik pair hpair
  · have hphase := h.ahead i hik hi
    have hd : (pair, Phase.undecided) ∈ q.relus.zip phases := mem_zip_of_getElem? hpair hphase
    have hle := (h.broken_iff hq htol htr hvalues hd).mp (Search.firstBroken?_eq_none hb pair hd)
    rw [phaseAt, if_neg (not_lt.mpr hle), hphase]

theorem Frontier.lt_of_broken (h : q.Frontier tolerance tr phases k) {m : ℕ} {pair : ReluPair}
    (hb : Search.firstBroken? tr values q.relus phases = some (m, pair)) :
    tr < q.propagated tolerance phases pair.input ∧ k ≤ m := by
  obtain ⟨hpair, hphase⟩ := Search.firstBroken?_eq_some hb
  have hlt : tr < q.propagated tolerance phases pair.input := by
    rw [← not_le, ← h.broken_iff hq htol htr hvalues (mem_zip_of_getElem? hpair hphase)]
    exact not_le.mpr (Search.firstBroken?_first hb).1
  refine ⟨hlt, not_lt.mp fun hmk => ?_⟩
  have hdecided := h.behind m hmk pair hpair
  rw [phaseAt, if_pos hlt, hphase] at hdecided
  cases hdecided

theorem Frontier.advance (h : q.Frontier tolerance tr phases k) {m : ℕ} {pair : ReluPair}
    (hb : Search.firstBroken? tr values q.relus phases = some (m, pair)) :
    Search.leaning values pair = (.active, .inactive) ∧ k ≤ m ∧ m < q.relus.length ∧
      q.Frontier tolerance tr (phases.set m .active) (m + 1) := by
  obtain ⟨hpair, hphase⟩ := Search.firstBroken?_eq_some hb
  obtain ⟨hlt, hkm⟩ := h.lt_of_broken hq htol htr hvalues hb
  have hm := (List.getElem?_eq_some_iff.mp hpair).1
  refine ⟨?_, hkm, hm, (h.set_active m).1, fun i hi p hp => ?_, fun i hi hlen => ?_⟩
  · rw [Search.leaning, if_pos]
    rw [hvalues _ (hq.staged.shaped.input_lt pair (List.mem_of_getElem? hpair))]
    exact htr.trans_lt hlt
  · rw [phaseAt, h.propagated_set hq htol hpair (Nat.le_of_lt_succ hi) hp]
    rcases (Nat.le_of_lt_succ hi).eq_or_lt with rfl | him
    · rw [Option.some.inj (hp.symm.trans hpair), if_pos hlt, List.getElem?_set_self]
      exact h.length ▸ hm
    · rw [List.getElem?_set_ne him.ne']
      rcases lt_or_ge i k with hik | hik
      · exact h.behind i hik p hp
      · have hund := h.ahead i hik (him.trans hm)
        have hle := (h.broken_iff hq htol htr hvalues (mem_zip_of_getElem? hp hund)).mp
          ((Search.firstBroken?_first hb).2 i him p hp hund)
        rw [if_neg (not_lt.mpr hle), hund]
  · rw [List.getElem?_set_ne (Nat.lt_of_succ_le hi).ne]
    exact h.ahead i (hkm.trans (Nat.le_of_succ_le hi)) hlen

omit hvalues

-- At every node as many pairs are active as have been split, and none of the splits is taken back.
theorem Frontier.grows (budget : ℕ) {linear : List Phase → Option (Decision K)}
    (hlinear : linear =
      Reference.linear budget ⟨tolerance, tr⟩ (.steady false) (Problem.ofQuery q))
    (h : q.Frontier tolerance tr phases k) :
    ∃ last values tree, q.Frontier tolerance tr last q.relus.length ∧
      values.length = q.numVariables ∧
      (∀ v < q.numVariables, values.getD v 0 = q.propagated tolerance last v) ∧
      Search.Grows (fun _ => false) (Search.answerOf linear) q.relus tr phases (.sat values) tree ∧
      (∀ phases ∈ tree.checks, linear phases = some ⟨Search.answerOf linear phases, 0⟩) ∧
      phases.count .active + tree.splits = last.count .active ∧
      tree.checks.length = tree.splits + 1 := by
  induction hleft : q.relus.length - k using Nat.strong_induction_on generalizing k phases with
  | _ left ih =>
    obtain ⟨values, hd, hlen, hvalues⟩ := h.exists_linear hq htol htr budget
    rw [← hlinear] at hd
    have hanswer : Search.answerOf linear phases = .feasible values := Search.answerOf_eq hd
    have hcheck := hanswer.symm ▸ hd
    cases hb : Search.firstBroken? tr values q.relus phases with
    | none =>
      exact ⟨phases, values, .leaf phases, h.finish hq htol htr hvalues hb, hlen, hvalues,
        .feasible rfl hanswer hb, List.forall_mem_singleton.mpr hcheck, rfl, rfl⟩
    | some broken =>
      obtain ⟨m, pair⟩ := broken
      obtain ⟨hleaning, hkm, hm, hnext⟩ := h.advance hq htol htr hvalues hb
      have hsplits : Search.SplitsOn (fun _ => false) (Search.answerOf linear) q.relus tr phases
          values m pair := ⟨rfl, hanswer, hb⟩
      have hcount := count_active_set hsplits.undecided
      obtain ⟨last, found, left, hfrontier, hlen', hvalues', hgrows, hchecks, hactive, hlength⟩ :=
        ih (q.relus.length - (m + 1)) (by omega) hnext rfl
      have hfirst : (Search.leaning values pair).1 = .active := congrArg Prod.fst hleaning
      refine ⟨last, found, .first phases m left, hfrontier, hlen', hvalues',
        .first hsplits (hfirst.symm ▸ hgrows) nofun, List.forall_mem_cons.mpr ⟨hcheck, hchecks⟩,
        ?_, congrArg (· + 1) hlength⟩
      change phases.count .active + (left.splits + 1) = _
      omega

end

structure Propagates (q : Query K) (given : ℕ → K) (tr : K) (x : ℕ → K) : Prop where
  rows : ∀ r, q.tableau.hasRow r = true → q.excess r x = 0
  constant : x q.constant = 1
  fixed : ∀ v < q.numVariables, v ≠ q.constant → q.determined v = false → x v = given v
  relus : ∀ p ∈ q.relus, x p.output = above tr (x p.input)

theorem Frontier.phases_eq {q : Query K} {tolerance tr : K} {phases : List Phase}
    (h : q.Frontier tolerance tr phases q.relus.length) :
    phases = q.relus.map (phaseAt tr (q.propagated tolerance phases)) := by
  refine List.ext_getElem? fun i => ?_
  rw [List.getElem?_map]
  cases hi : q.relus[i]? with
  | none =>
    rw [List.getElem?_eq_none_iff] at hi
    exact List.getElem?_eq_none (h.length.trans_le hi)
  | some pair => exact h.behind i (List.getElem?_eq_some_iff.mp hi).1 pair hi

theorem Frontier.count_active {q : Query K} {tolerance tr : K} {phases : List Phase}
    (h : q.Frontier tolerance tr phases q.relus.length) : phases.count .active =
      q.relus.countP (fun p => tr < q.propagated tolerance phases p.input) := by
  have hactive : ∀ pair, (phaseAt tr (q.propagated tolerance phases) pair == .active) =
      decide (tr < q.propagated tolerance phases pair.input) := by
    intro pair
    by_cases hlt : tr < q.propagated tolerance phases pair.input
    · rw [phaseAt, if_pos hlt, decide_eq_true hlt]
      rfl
    · rw [phaseAt, if_neg hlt, decide_eq_false hlt]
      rfl
  rw [List.count, congrArg (List.countP _) h.phases_eq, List.countP_map]
  exact congrArg (List.countP · q.relus) (funext hactive)

theorem Frontier.propagates [IsStrictOrderedRing K] {q : Query K} {given : ℕ → K}
    (hq : q.Driven given) {tolerance tr : K} (htol : 0 ≤ tolerance) {phases : List Phase}
    (h : q.Frontier tolerance tr phases q.relus.length) :
    q.Propagates given tr (q.propagated tolerance phases) := by
  have hruns := h.runs hq htol
  refine ⟨hruns.rows, hruns.constant, hruns.fixed, fun p hp => ?_⟩
  obtain ⟨i, hi⟩ := List.mem_iff_getElem?.mp hp
  have hphase := h.behind i (List.getElem?_eq_some_iff.mp hi).1 p hi
  have hd := mem_zip_of_getElem? hi hphase
  rw [phaseAt] at hd
  rw [above]
  split at hd
  · rw [if_pos ‹_›, hruns.active p hd]
  · rw [if_neg ‹_›, hruns.undecided p hd]

theorem frontier_start (q : Query K) (tolerance tr : K) :
    q.Frontier tolerance tr (Reference.allUndecided q.relus) 0 :=
  ⟨List.length_map _, fun _ hi => absurd hi (Nat.not_lt_zero _), fun i _ hi => by
    simp [Reference.allUndecided, hi]⟩

theorem run?_of_driven [IsStrictOrderedRing K] {q : Query K} {given : ℕ → K} (hq : q.Driven given)
    {tolerances : Tolerances K} (hbound : 0 ≤ tolerances.bound) (hrelu : 0 ≤ tolerances.relu)
    (budget : ℕ) : ∃ values x splits, q.Propagates given tolerances.relu x ∧
      values.length = q.numVariables ∧ (∀ v < q.numVariables, values.getD v 0 = x v) ∧
      splits = q.relus.countP (fun p => tolerances.relu < x p.input) ∧
      Reference.run? budget tolerances q (.steady false) =
        some ⟨VarMap.ofValues values, false, ⟨0, splits, splits + 1⟩⟩ := by
  obtain ⟨phases, values, tree, hfrontier, hlen, hvalues, hgrows, hchecks, hsplits, hlength⟩ :=
    (frontier_start q tolerances.bound tolerances.relu).grows hq hbound hrelu budget rfl
  have hnone : (Reference.allUndecided q.relus).count .active = 0 := by
    simp [Reference.allUndecided, List.count_replicate]
  rw [hnone, Nat.zero_add] at hsplits
  have hrun := Reference.runWith_of_grows hgrows hchecks
  have htally : tree.tally (fun _ => 0) = ⟨0, tree.splits, tree.splits + 1⟩ := by
    simp [Search.Tree.tally, hlength]
  rw [htally] at hrun
  exact ⟨values, _, tree.splits, hfrontier.propagates hq hbound, hlen, hvalues,
    hsplits.trans hfrontier.count_active, hrun⟩

end Query

end ReluVerify
