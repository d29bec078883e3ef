import ReluVerify.Proofs.Passes
import ReluVerify.Proofs.Pins
import ReluVerify.Proofs.Propagation

namespace ReluVerify

variable {K : Type} [Field K] [LinearOrder K]

namespace Query

structure Fixes (q : Query K) (pairs : List (ℕ × K)) (q' : Query K) : Prop where
  tableau : q'.tableau = q.tableau
  relus : q'.relus = q.relus
  constant : q'.constant = q.constant
  numVariables : q'.numVariables = q.numVariables
  others : ∀ v, v ∉ pairs.map Prod.fst → q'.boundsOf v = q.boundsOf v
  points : ∀ p ∈ pairs, q'.boundsOf p.1 = Bounds.point p.2

omit [LinearOrder K] in
theorem Fixes.excess {q q' : Query K} {pairs : List (ℕ × K)} (h : q.Fixes pairs q') (r : ℕ)
    (x : ℕ → K) : q'.excess r x = q.excess r x := by
  rw [Query.excess, Query.excess, h.tableau, h.numVariables, h.constant]

omit [Field K] [LinearOrder K] in
theorem Pins.fixes {q q' : Query K} {pairs : List (ℕ × K)} (h : q.Pins pairs q')
    (hnodup : (pairs.map Prod.fst).Nodup) : q.Fixes pairs q' :=
  ⟨h.tableau, h.relus, h.constant, h.numVariables, fun _ hv => h.of_notMem hv,
    fun _ hp => h.of_nodup hnodup hp⟩

theorem Derived.foldl_pin {n : Network K} {q : Query K} (hq : Derived n q)
    {pairs : List (ℕ × K)} (hlt : ∀ p ∈ pairs, p.1 < n.numVars) :
    Derived n (pairs.foldl pin q) := by
  induction pairs generalizing q with
  | nil => exact hq
  | cons p pairs ih =>
    obtain ⟨hp, hpairs⟩ := List.forall_mem_cons.mp hlt
    obtain ⟨_, hlower, hupper⟩ :=
      exists_setLower (p := p) ((hq.shaped.2 ▸ hp).trans hq.shaped.1.constant_lt)
    exact ih ((hq.lower hp hlower).upper hp hupper) hpairs

theorem exists_fixAll {n : Network K} {q : Query K} (hq : Derived n q) {pairs : List (ℕ × K)}
    (hlt : ∀ p ∈ pairs, p.1 < n.numVars) (hnodup : (pairs.map Prod.fst).Nodup) :
    ∃ q', q.fixAll pairs = .ok q' ∧ Derived n q' ∧ q.Fixes pairs q' := by
  have hinside : ∀ p ∈ pairs, p.1 < q.numVariables := fun p hp =>
    (hq.shaped.2 ▸ hlt p hp).trans hq.shaped.1.constant_lt
  exact ⟨_, fixAll_eq_ok_iff.mpr ⟨hinside, rfl⟩, hq.foldl_pin hlt,
    (pins_foldl_pin hinside).fixes hnodup⟩

end Query

theorem Engine.evaluate_eq_ok {engine : Engine K} {n : Network K} {values found : List K}
    (hlen : n.inputs.length = values.length) {q q' : Query K} (hq : Query.compile n = .ok q)
    (hq' : q.fixAll (n.inputs.zip values) = .ok q') {stats : Stats}
    (hrun : engine.run q' false = ⟨VarMap.ofValues found, false, stats⟩)
    (houtputs : ∀ v ∈ n.outputs, v < found.length) (hne : found ≠ []) :
    engine.evaluate false n values = .ok (n.outputs.map (fun v => found.getD v 0)) := by
  have hempty : (VarMap.ofValues found).isEmpty = false := by
    rw [VarMap.isEmpty_ofValues]
    simpa using hne
  have hverdict : (engine.ask false q').verdict = .sat (VarMap.ofValues found) := by
    rw [Solved.verdict, Engine.ask, hrun, Verdict.ofOutput, hempty]
    rfl
  have hfound : n.outputs.mapM ((VarMap.ofValues found).getOrFail EvaluationError.missingValue) =
      .ok (n.outputs.map (fun v => found.getD v 0)) := by
    refine mapM_eq_ok fun v hv => ?_
    have hlt := houtputs v hv
    simp [VarMap.getOrFail, VarMap.get?_ofValues, hlt]
  exact evaluate_eq_ok_iff.mpr
    ⟨hlen, q, q', _, hq, hq', hverdict, VarMap.mapM_getOrFail_eq_ok.mp hfound⟩

namespace LayeredNetwork

open Query

section

variable {net : LayeredNetwork K} (h : net.WellFormed) {xs : List K}
  (hlen : xs.length = net.inputSize) {q : Query K}
  (hfixes : (compiled net.toNetwork).Fixes (net.toNetwork.inputs.zip xs) q)

include hfixes

theorem hasRow_of_fixes {r : ℕ} :
    q.tableau.hasRow r = true ↔ ∃ e ∈ net.toNetwork.equations, e.aux = r := by
  rw [hfixes.tableau]
  exact hasRow_compiled

theorem determined_of_fixes {v : ℕ} : q.determined v = true ↔
    (∃ e ∈ net.toNetwork.equations, e.aux = v) ∨ ∃ p ∈ net.toNetwork.relus, p.output = v := by
  rw [determined_iff, hasRow_of_fixes hfixes, hfixes.relus]
  rfl

include h

variable [IsStrictOrderedRing K]

theorem determined_iff_of_fixes {v : ℕ} (hv : v < net.toNetwork.numVars) :
    q.determined v = true ↔ net.inputSize ≤ v := by
  have hdrives := drives_toNetwork h
  rw [determined_of_fixes hfixes]
  constructor
  · rintro (⟨e, he, rfl⟩ | ⟨p, hp, rfl⟩)
    · exact hdrives.aux_ge e he
    · exact hdrives.output_ge p hp
  · exact fun hle => hdrives.covered v hle hv

include hlen

theorem driven_of_fixes (hq : Derived net.toNetwork q) : q.Driven (fun v => xs.getD v 0) := by
  have hdrives := drives_toNetwork h
  have hencodes := encodes_toNetwork h
  have hinputs : (net.toNetwork.inputs.zip xs).map Prod.fst = List.range net.inputSize := by
    rw [hencodes.inputs, List.map_fst_zip (by simp [hlen])]
  refine ⟨hq.staged hdrives.staged, fun p hp => ?_, fun v hdet => ?_, fun v hv hc hdet => ?_⟩
  · rw [hfixes.relus] at hp
    exact (hasRow_of_fixes hfixes).mpr (hdrives.input p hp)
  · have hlt : v < net.toNetwork.numVars := by
      rcases (determined_of_fixes hfixes).mp hdet with ⟨e, he, rfl⟩ | ⟨p, hp, rfl⟩
      · exact hencodes.allocated.auxiliary e he
      · exact (hencodes.allocated.relus p hp).2
    have hle := (determined_iff_of_fixes h hfixes hlt).mp hdet
    rw [hfixes.others v (by simpa [hinputs] using hle), boundsOf_compiled hlt, hencodes.free]
  · rw [hfixes.numVariables, numVariables_compiled] at hv
    rw [hfixes.constant] at hc
    have hlt : v < net.toNetwork.numVars := lt_of_le_of_ne (Nat.le_of_lt_succ hv) hc
    have hsmall : v < net.inputSize := by
      rw [← not_le, ← determined_iff_of_fixes h hfixes hlt, hdet]
      exact Bool.false_ne_true
    refine hfixes.points (v, xs.getD v 0) (List.mem_iff_getElem?.mpr ⟨v, ?_⟩)
    have hvx : v < xs.length := hlen.symm ▸ hsmall
    rw [List.getElem?_zip_eq_some, hencodes.inputs, List.getElem?_range hsmall]
    exact ⟨rfl, by simp [hvx]⟩

theorem map_inputs_of_propagates {tr : K} {x : ℕ → K}
    (hx : q.Propagates (fun v => xs.getD v 0) tr x) : net.toNetwork.inputs.map x = xs := by
  have hencodes := encodes_toNetwork h
  refine List.ext_getElem (by rw [hencodes.inputs, List.length_map, List.length_range, hlen])
    fun i hi hi' => ?_
  have hsmall : i < net.inputSize := hlen ▸ hi'
  have hlt : i < net.toNetwork.numVars :=
    hencodes.input_lt i (by rw [hencodes.inputs]; exact List.mem_range.mpr hsmall)
  have hfixed := hx.fixed i (by rw [hfixes.numVariables, numVariables_compiled]; omega)
    (by rw [hfixes.constant]; exact hlt.ne)
    (Bool.eq_false_iff.mpr fun hdet =>
      absurd ((determined_iff_of_fixes h hfixes hlt).mp hdet) (not_le.mpr hsmall))
  simp only [hencodes.inputs, List.getElem_map, List.getElem_range, hfixed]
  simp [hi']

theorem passes_of_propagates {tr : K} {x : ℕ → K}
    (hx : q.Propagates (fun v => xs.getD v 0) tr x) :
    net.toNetwork.outputs.map x = forwardWith (above tr) net.layers xs ∧
      net.toNetwork.relus.map (fun p => x p.input) = hidden (above tr) net.layers xs := by
  have hencodes := encodes_toNetwork h
  have hequations : ∀ e ∈ net.toNetwork.equations, e.residual x = 0 := by
    intro e he
    rw [← excess_compiled hencodes.allocated he, ← hfixes.excess]
    exact hx.rows _ ((hasRow_of_fixes hfixes).mpr ⟨e, he, rfl⟩)
  have hrelus : ∀ p ∈ net.toNetwork.relus, x p.output = above tr (x p.input) := fun p hp =>
    hx.relus p (by rwa [hfixes.relus])
  obtain ⟨zs, hpasses, hzs⟩ := passes_toNetwork (fun a b => b = above tr a) h hequations hrelus
  rw [map_inputs_of_propagates h hlen hfixes hx] at hpasses
  obtain ⟨hys, hhidden⟩ := eq_forwardWith_of_passes hpasses
  exact ⟨hys, hzs.trans hhidden⟩

end

theorem above_zero : (above (0 : K)) = (Scalar.larger · 0) := by
  funext a
  rw [above, Scalar.larger_eq_max]
  split
  · rw [max_eq_left (le_of_lt ‹_›)]
  · rw [max_eq_right (not_lt.mp ‹_›)]

variable [IsStrictOrderedRing K]

theorem exists_query {net : LayeredNetwork K} (h : net.WellFormed) {xs : List K}
    (hlen : xs.length = net.inputSize) : ∃ q, (compiled net.toNetwork).fixAll
      (net.toNetwork.inputs.zip xs) = .ok q ∧ Derived net.toNetwork q ∧
      (compiled net.toNetwork).Fixes (net.toNetwork.inputs.zip xs) q := by
  have hencodes := encodes_toNetwork h
  refine exists_fixAll (.compiled (compile_eq_ok.mpr ⟨hencodes.allocated, rfl⟩))
    (fun p hp => hencodes.input_lt _ (List.of_mem_zip hp).1) ?_
  rw [List.map_fst_zip (by simp [hencodes.inputs, hlen]), hencodes.inputs]
  exact List.nodup_range

theorem exists_answer {net : LayeredNetwork K} (h : net.WellFormed) {xs : List K}
    (hlen : xs.length = net.inputSize) {q : Query K} (hq : Derived net.toNetwork q)
    (hfixes : (compiled net.toNetwork).Fixes (net.toNetwork.inputs.zip xs) q)
    {tolerances : Tolerances K} (hbound : 0 ≤ tolerances.bound) (hrelu : 0 ≤ tolerances.relu) :
    ∃ values splits, splits = (hidden (above tolerances.relu) net.layers xs).countP
        (tolerances.relu < ·) ∧
      values.length = net.toNetwork.numVars + 1 ∧
      net.toNetwork.outputs.map (fun v => values.getD v 0) =
        forwardWith (above tolerances.relu) net.layers xs ∧
      (Reference.engine tolerances).run q false =
        ⟨VarMap.ofValues values, false, ⟨0, splits, splits + 1⟩⟩ := by
  obtain ⟨values, x, splits, hx, hlength, hvalues, hsplits, hrun⟩ :=
    run?_of_driven (driven_of_fixes h hlen hfixes hq) hbound hrelu Reference.pivotBudget
  obtain ⟨houtputs, hhidden⟩ := passes_of_propagates h hlen hfixes hx
  have hnum : q.numVariables = net.toNetwork.numVars + 1 :=
    hfixes.numVariables.trans (numVariables_compiled _)
  refine ⟨values, splits, ?_, hlength.trans hnum, ?_, ?_⟩
  · rw [hsplits, hfixes.relus, ← hhidden, List.countP_map]
    rfl
  · rw [← houtputs]
    refine List.map_congr_left fun v hv => hvalues v ?_
    rw [hnum]
    exact Nat.lt_succ_of_lt ((encodes_toNetwork h).output_lt v hv)
  · exact Reference.engine_run_of_run? hrun le_rfl

theorem evaluate_toNetwork {net : LayeredNetwork K} {weights : List (List (List K))}
    {biases : List (List K)} (hnet : build weights biases = .ok { net with normalization := none })
    {xs : List K} (hlen : xs.length = net.inputSize) {tolerances : Tolerances K}
    (hbound : 0 ≤ tolerances.bound) (hrelu : 0 ≤ tolerances.relu) :
    (Reference.engine tolerances).evaluate false net.toNetwork xs =
        .ok (forwardWith (above tolerances.relu) net.layers xs) ∧
      (∃ q q' splits, compile net.toNetwork = .ok q ∧
        q.fixAll (net.toNetwork.inputs.zip xs) = .ok q' ∧
        splits = (hidden (above tolerances.relu) net.layers xs).countP (tolerances.relu < ·) ∧
        ((Reference.engine tolerances).ask false q').output.stats = ⟨0, splits, splits + 1⟩) ∧
      (tolerances.relu = 0 → ∃ ys, net.forward xs = .ok ys ∧
        (Reference.engine tolerances).evaluate false net.toNetwork xs = .ok ys ∧
        net.findError (Reference.engine tolerances) false xs =
          .ok (List.replicate net.outputSize 0)) := by
  have h : net.WellFormed := ⟨(wellFormed_of_build hnet).nonempty, (wellFormed_of_build hnet).fits⟩
  have hencodes := encodes_toNetwork h
  obtain ⟨q, hfix, hderived, hfixes⟩ := exists_query h hlen
  obtain ⟨values, splits, hsplits, hlength, houtputs, hrun⟩ :=
    exists_answer h hlen hderived hfixes hbound hrelu
  have hcompile : compile net.toNetwork = .ok (compiled net.toNetwork) :=
    compile_eq_ok.mpr ⟨hencodes.allocated, rfl⟩
  have hevaluate : (Reference.engine tolerances).evaluate false net.toNetwork xs =
      .ok (forwardWith (above tolerances.relu) net.layers xs) := by
    rw [← houtputs]
    refine Engine.evaluate_eq_ok (by simp [hencodes.inputs, hlen]) hcompile hfix hrun
      (fun v hv => ?_) fun hnil => ?_
    · rw [hlength]
      exact Nat.lt_succ_of_lt (hencodes.output_lt v hv)
    · rw [hnil] at hlength
      cases hlength
  refine ⟨hevaluate, ⟨_, q, splits, hcompile, hfix, hsplits, ?_⟩, fun hzero => ?_⟩
  · rw [Engine.ask, hrun]
  · have hforward : net.forward xs =
        .ok (forwardWith (above tolerances.relu) net.layers xs) := by
      rw [forward, if_neg (not_not_intro hlen), hzero, above_zero]
    have hsize : (forwardWith (above tolerances.relu) net.layers xs).length = net.outputSize := by
      rw [← houtputs, List.length_map, hencodes.length_outputs]
    refine ⟨_, hforward, hevaluate, ?_⟩
    rw [findError, hevaluate, hforward]
    change Except.ok (List.zipWith (fun a b => |a - b|) _ _) = _
    rw [← hsize, List.zipWith_self]
    simp only [sub_self, abs_zero]
    exact congrArg Except.ok (List.map_const' ..)

-- at the input one the second hidden neuron is positive and yet not above one half
def clippingNetwork : LayeredNetwork ℚ :=
  ⟨1, [⟨[[1], [-1]], [0, 5 / 4]⟩, ⟨[[1, 1]], [0]⟩], none⟩

theorem evaluate_toNetwork_clipping :
    clippingNetwork.forward [1] = .ok [5 / 4] ∧
      (Reference.engine ⟨0, 1 / 2⟩).evaluate false clippingNetwork.toNetwork [1] = .ok [1] ∧
      ∃ q q', compile clippingNetwork.toNetwork = .ok q ∧
        q.fixAll (clippingNetwork.toNetwork.inputs.zip [1]) = .ok q' ∧
        ((Reference.engine ⟨0, 1 / 2⟩).ask false q').output.stats = ⟨0, 1, 2⟩ := by
  have hnet : build [[[1], [-1]], [[1, 1]]] [[0, 5 / 4], [0]] =
      .ok { clippingNetwork with normalization := none } := by decide +kernel
  have hrelu : (0 : ℚ) ≤ 1 / 2 := by norm_num
  obtain ⟨hevaluate, ⟨q, q', splits, hq, hq', hsplits, hstats⟩, _⟩ :=
    evaluate_toNetwork hnet (rfl : [(1 : ℚ)].length = 1) (le_refl (⟨0, 1 / 2⟩ : Tolerances ℚ).bound)
      hrelu
  have hone : forwardWith (above (1 / 2)) clippingNetwork.layers [1] = [1] := by decide +kernel
  have hsplit :
      (hidden (above (1 / 2)) clippingNetwork.layers [1]).countP ((1 / 2 : ℚ) < ·) = 1 := by
    decide +kernel
  refine ⟨by decide +kernel, hevaluate.trans (congrArg Except.ok hone), q, q', hq, hq', ?_⟩
  rw [hstats, hsplits.trans hsplit]

end LayeredNetwork

end ReluVerify
