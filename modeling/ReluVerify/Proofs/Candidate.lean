import ReluVerify.Campaign.Run
import ReluVerify.Proofs.Layered
import ReluVerify.Proofs.Question

namespace ReluVerify

variable {K : Type} [Field K] [LinearOrder K]

namespace Constants

structure Positive (c : Constants K) : Prop where
  h : 0 < c.rangeH
  v : 0 < c.rangeV
  tau : 0 < c.rangeTau

def normalized (c : Constants K) (e : Encounter K) : Encounter K :=
  ⟨e.h / c.rangeH, e.own / c.rangeV, e.intruder / c.rangeV, (e.tau - c.meanTau) / c.rangeTau⟩

theorem physical_normalized {c : Constants K} (hc : c.Positive) (e : Encounter K) :
    c.physical (c.normalized e) = e := by
  simp [physical, normalized, hc.h.ne', hc.v.ne', hc.tau.ne']

theorem normalized_physical {c : Constants K} (hc : c.Positive) (e : Encounter K) :
    c.normalized (c.physical e) = e := by
  simp [physical, normalized, hc.h.ne', hc.v.ne', hc.tau.ne']

end Constants

def Candidate.Preferred (k : Candidate K) (c : Constants K) (net : LayeredNetwork K)
    (e : Encounter K) : Prop :=
  k.advisory.Concerns c e ∧ net.Favours (c.normalized e).toList k.position

structure Outcome.Settles (o : Outcome K) (c : Constants K) (net : LayeredNetwork K)
    (candidates : List (Advisory K)) (k : Candidate K) : Prop where
  decided : o = .unsat ∨ ∃ cex, o = .sat cex
  unsat_iff : o = .unsat ↔ ¬∃ e, k.Preferred c net e
  sat : ∀ cex, o = .sat cex → k.Preferred c net cex.encounter ∧
    ∃ scores, net.forward (c.normalized cex.encounter).toList = .ok scores ∧
      scores.length = candidates.length ∧ cex.scores = (candidates.map (·.name)).zip scores

structure Query.Answered (q : Query K) (out : EngineOutput K) : Prop where
  finished : out.interrupted = false
  empty : (¬∃ x, q.Solves x) → out.assignment.isEmpty = true
  solution : (∃ x, q.Solves x) →
    ∃ x, q.Solves x ∧ ∀ v < q.numVariables, out.assignment.get? v = some (x v)

noncomputable def Query.exactOutput (q : Query K) : EngineOutput K :=
  open Classical in
  if h : ∃ x, q.Solves x then
    ⟨VarMap.ofValues ((List.range q.numVariables).map h.choose), false, {}⟩
  else ⟨VarMap.empty, false, {}⟩

theorem Query.answered_exactOutput (q : Query K) : q.Answered q.exactOutput := by
  unfold Query.exactOutput
  split
  case isTrue h =>
    refine ⟨rfl, fun hnone => absurd h hnone, fun _ => ⟨h.choose, h.choose_spec, fun v hv => ?_⟩⟩
    rw [VarMap.get?_ofValues, List.getElem?_map, List.getElem?_range hv]
    rfl
  case isFalse h => exact ⟨rfl, fun _ => rfl, fun hsome => absurd hsome h⟩

namespace Campaign

def seen (x : ℕ → K) : Encounter K := ⟨x 0, x 1, x 2, x 3⟩

structure Poses (c : Constants K) (net : LayeredNetwork K) (k : Candidate K) (n : Network K) :
    Prop where
  allocated : n.Allocated
  inputs : n.inputs = [0, 1, 2, 3]
  input_lt : ∀ v ∈ n.inputs, v < n.numVars
  output_lt : ∀ v ∈ n.outputs, v < n.numVars
  length_outputs : n.outputs.length = net.outputSize
  forward : ∀ x, n.Solves x → net.forward (seen x).toList = .ok (n.outputs.map x)
  sound : ∀ x, n.Solves x → k.Preferred c net (c.physical (seen x))
  complete : ∀ e, k.Preferred c net e → ∃ x, n.Solves x

theorem exists_seen {net : LayeredNetwork K} {n : Network K} (h : net.Encodes n)
    (hinputs : n.inputs = [0, 1, 2, 3]) (e : Encounter K) : ∃ x, n.Solves x ∧ seen x = e := by
  have hlength : e.toList.length = net.inputSize := by
    rw [← List.length_range (n := net.inputSize), ← h.inputs, hinputs]
    rfl
  obtain ⟨x, hx, hxs⟩ := h.exists_solution e.toList hlength
  rw [hinputs] at hxs
  simp only [Encounter.toList, List.map_cons, List.cons.injEq] at hxs
  refine ⟨x, hx, ?_⟩
  rw [seen, hxs.1, hxs.2.1, hxs.2.2.1, hxs.2.2.2.1]

theorem exists_question [IsStrictOrderedRing K] {c : Constants K} (hc : c.Positive)
    {net : LayeredNetwork K} (hnet : net.WellFormed) (hinputs : net.inputSize = 4)
    {k : Candidate K} (hk : k.advisory.Directed) (hposition : k.position < net.outputSize) :
    ∃ n, question c k net.toNetwork = .ok (some n) ∧ Poses c net k n := by
  have hencodes := LayeredNetwork.encodes_toNetwork hnet
  have hin : net.toNetwork.inputs = [0, 1, 2, 3] := by
    rw [hencodes.inputs, hinputs]
    rfl
  have hseen : ∀ x : ℕ → K, net.toNetwork.inputs.map x = (seen x).toList := fun x => by
    rw [hin]
    rfl
  rw [← hencodes.length_outputs] at hposition
  have htarget := List.getElem?_eq_getElem hposition
  have hnodup : net.toNetwork.inputs.Nodup := by simp [hin]
  obtain ⟨enc, n, hrun, hn⟩ := Property.exists_encode hencodes.allocated
    ⟨hin, hnodup, hencodes.input_lt, fun v _ => hencodes.free v, hencodes.output_lt⟩ hk hc.h hc.v
    htarget
  refine ⟨n, ?_, hn.allocated, hn.inputs.trans hin, ?_, ?_, ?_, fun x hx => ?_, fun x hx => ?_,
    fun e he => ?_⟩
  · simp only [question, hrun]
  · exact fun v hv => (hencodes.input_lt v (hn.inputs ▸ hv)).trans_le hn.numVars_le
  · exact fun v hv => (hencodes.output_lt v (hn.outputs ▸ hv)).trans_le hn.numVars_le
  · rw [hn.outputs, hencodes.length_outputs]
  · rw [hn.outputs, ← hseen]
    exact hencodes.forward (hn.sound x hx).1
  · obtain ⟨hx, hconcerns, hmax⟩ := hn.sound x hx
    refine ⟨hconcerns, ?_⟩
    rw [Constants.normalized_physical hc, ← hseen]
    exact (hencodes.favours_iff hx htarget).mpr hmax
  · obtain ⟨hconcerns, hfavours⟩ := he
    obtain ⟨x, hx, hxe⟩ := exists_seen hencodes hin (c.normalized e)
    rw [← hxe, ← hseen, hencodes.favours_iff hx htarget] at hfavours
    rw [← Constants.physical_normalized hc e, ← hxe] at hconcerns
    obtain ⟨y, _, hy⟩ := hn.complete x hx ⟨hconcerns, hfavours⟩
    exact ⟨y, hy⟩

omit [Field K] [LinearOrder K] in
theorem map_zip_names (outputs : List ℕ) (candidates : List (Advisory K)) (x : ℕ → K) :
    (outputs.zip candidates).map (fun p => (p.2.name, x p.1)) =
      (candidates.map (·.name)).zip (outputs.map x) := by
  rw [← List.zip_swap, List.map_map, List.zip_map]
  rfl

theorem counterexample_eq_ok {c : Constants K} {candidates : List (Advisory K)} {n : Network K}
    {a : VarMap K} {x : ℕ → K} (hinputs : n.inputs = [0, 1, 2, 3])
    (hin : ∀ v ∈ n.inputs, a.get? v = some (x v))
    (hout : ∀ v ∈ n.outputs, a.get? v = some (x v)) :
    counterexample c candidates n a =
      .ok ⟨c.physical (seen x), (candidates.map (·.name)).zip (n.outputs.map x)⟩ := by
  have hread : ∀ {v}, a.get? v = some (x v) →
      a.getOrFail (Failure.missingValue (α := K)) v = .ok (x v) := fun h => by
    rw [VarMap.getOrFail, h]
  have hscores : ∀ p ∈ n.outputs.zip candidates,
      (do return (p.2.name, ← a.getOrFail .missingValue p.1) : Except (Failure K) (String × K)) =
        .ok (p.2.name, x p.1) := fun p hp => by
    rw [hread (hout _ (List.of_mem_zip hp).1)]
    rfl
  unfold counterexample
  rw [mapM_eq_ok fun v hv => hread (hin v hv), mapM_eq_ok hscores, map_zip_names, hinputs]
  rfl

theorem exists_outcome [IsStrictOrderedRing K] {c : Constants K} (hc : c.Positive)
    {net : LayeredNetwork K} {k : Candidate K} {n : Network K} (h : Poses c net k n)
    {candidates : List (Advisory K)} (hlen : net.outputSize = candidates.length)
    {out : EngineOutput K} (hout : (Query.compiled n).Answered out) :
    ∃ o, outcome c candidates n (Verdict.ofOutput out) = .ok o ∧
      o.Settles c net candidates k := by
  by_cases hsolvable : ∃ x, (Query.compiled n).Solves x
  · obtain ⟨x, hx, hvalues⟩ := hout.solution hsolvable
    have hn : n.Solves x := Network.solves_of_compiled h.allocated hx
    have hread : ∀ v < n.numVars, out.assignment.get? v = some (x v) := fun v hv =>
      hvalues v (by rw [Query.numVariables_compiled]; omega)
    have hempty : out.assignment.isEmpty = false :=
      VarMap.isEmpty_of_get? (hvalues n.numVars (by simp))
    have hverdict : Verdict.ofOutput out = .sat out.assignment := by
      rw [Verdict.ofOutput, hout.finished, hempty]
      rfl
    refine ⟨.sat ⟨c.physical (seen x), (candidates.map (·.name)).zip (n.outputs.map x)⟩, ?_,
      ⟨Or.inr ⟨_, rfl⟩, ?_, ?_⟩⟩
    · rw [hverdict, outcome, counterexample_eq_ok h.inputs (fun v hv => hread v (h.input_lt v hv))
        fun v hv => hread v (h.output_lt v hv)]
      rfl
    · exact iff_of_false (by simp) (not_not_intro ⟨_, h.sound x hn⟩)
    · rintro _ ⟨rfl⟩
      refine ⟨h.sound x hn, n.outputs.map x, ?_, ?_, rfl⟩
      · rw [Constants.normalized_physical hc]
        exact h.forward x hn
      · rw [List.length_map, h.length_outputs, hlen]
  · refine ⟨.unsat, ?_, ⟨Or.inl rfl, iff_of_true rfl ?_, fun _ hsat => by cases hsat⟩⟩
    · rw [Verdict.ofOutput, hout.finished, hout.empty hsolvable]
      rfl
    · rintro ⟨e, he⟩
      obtain ⟨x, hx⟩ := h.complete e he
      obtain ⟨y, _, hy⟩ := Network.exists_solves_compiled h.allocated hx
      exact hsolvable ⟨y, hy⟩

end Campaign

end ReluVerify
