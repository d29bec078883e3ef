import ReluVerify.Proofs.Approximate
import ReluVerify.Proofs.Campaign
import ReluVerify.Proofs.Drift

namespace ReluVerify

variable {K : Type} [Field K] [LinearOrder K] [IsStrictOrderedRing K] {σ : Type}

theorem Near.getD_le {es xs ys : List K} (h : Near es xs ys) {i j : ℕ} {t : K}
    (hle : xs.getD i 0 ≤ xs.getD j 0 + t) :
    ys.getD i 0 ≤ ys.getD j 0 + (t + (es.getD i 0 + es.getD j 0)) := by
  have hi := (abs_le.mp (h.abs_getD_sub_le i)).1
  have hj := (abs_le.mp (h.abs_getD_sub_le j)).2
  linarith

structure Counterexample.Replays (cex : Counterexample K) (c : Constants K)
    (net : LayeredNetwork K) (candidates : List (Advisory K)) (tolerances : Tolerances K)
    (k : Candidate K) (scores direct : List K) : Prop where
  names : cex.scores = (candidates.map (·.name)).zip scores
  length : scores.length = candidates.length
  forward : net.forward (c.normalized cex.encounter).toList = .ok direct
  near : Near (net.drift tolerances.slack) scores direct
  recorded : ∀ i < scores.length, scores.getD i 0 ≤ scores.getD k.position 0 + tolerances.bound
  replayed : ∀ i < scores.length, direct.getD i 0 ≤ direct.getD k.position 0 + (tolerances.bound +
    ((net.drift tolerances.slack).getD i 0 + (net.drift tolerances.slack).getD k.position 0))

def Outcome.Genuine (o : Outcome K) (c : Constants K) (net : LayeredNetwork K)
    (candidates : List (Advisory K)) (tolerances : Tolerances K) (k : Candidate K) : Prop :=
  ∀ cex, o = .sat cex → ∃ scores direct, cex.Replays c net candidates tolerances k scores direct

structure Host.Consults (host : Host (StateM σ) K) (tolerances : Tolerances K)
    (net : LayeredNetwork K) : Prop where
  load : ∀ pra, host.load pra = pure net.toNetwork
  solve : ∀ q s, ((host.solve q).run s).1.interrupted = true ∨
    ((host.solve q).run s).1 = (Reference.engine tolerances).run q false

namespace Campaign

variable {c : Constants K} {net : LayeredNetwork K} {candidates : List (Advisory K)}
  {tolerances : Tolerances K} {k : Candidate K} {n : Network K}

omit [IsStrictOrderedRing K] in
theorem getD_map_le {outputs : List ℕ} {position target : ℕ}
    (htarget : outputs[position]? = some target) {x : ℕ → K} {t : K}
    (h : ∀ v ∈ outputs, x v ≤ x target + t) {i : ℕ} (hi : i < outputs.length) :
    (outputs.map x).getD i 0 ≤ (outputs.map x).getD position 0 + t := by
  simpa [List.getD_eq_getElem?_getD, htarget, hi] using h _ (List.getElem_mem hi)

section

variable (hfits : Fits net c candidates) (hk : k ∈ numbered candidates)

include hfits hk

theorem exists_target : ∃ target, net.toNetwork.outputs[k.position]? = some target := by
  have hposition := (List.getElem?_eq_some_iff.mp (mem_numbered hk)).1
  rw [← hfits.outputs, ← (LayeredNetwork.encodes_toNetwork hfits.wellFormed).length_outputs]
    at hposition
  exact ⟨_, List.getElem?_eq_getElem hposition⟩

omit hk in
theorem tightens_question (hrate : k.advisory.boundsRate = true) {t : K} (ht : 0 ≤ t)
    {target : ℕ} (htarget : net.toNetwork.outputs[k.position]? = some target)
    (hn : question c k net.toNetwork = .ok (some n)) :
    net.toNetwork.Tightens t n (fun x => ∀ v ∈ net.toNetwork.outputs, x v ≤ x target + t) := by
  have hencodes := LayeredNetwork.encodes_toNetwork hfits.wellFormed
  have hin : net.toNetwork.inputs = [0, 1, 2, 3] := by
    rw [hencodes.inputs, hfits.inputs]
    rfl
  obtain ⟨enc, n', hrun, htight⟩ := Property.exists_encode_tightens (t := t) (c := c)
    (LayeredNetwork.drives_toNetwork hfits.wellFormed).staged
    ⟨hin, by simp [hin], hencodes.input_lt, fun v _ => hencodes.free v, hencodes.output_lt⟩ hrate
    htarget
  simp only [question, hrun, Except.ok.injEq, Option.some.injEq] at hn
  subst hn
  refine htight.imp fun x hx => ?_
  exact (Property.forall_mem_eraseIdx (p := fun v => x v ≤ x target + t) htarget
    (le_add_of_nonneg_right ht)).mp hx

theorem exists_direct (hrate : k.advisory.boundsRate = true) (ht : 0 ≤ tolerances.bound)
    (hn : question c k net.toNetwork = .ok (some n)) {phases : List Phase} {values : List K}
    (hnode : Reference.Node tolerances (Query.compiled n) phases values) :
    ∃ direct, net.forward (seen (fun v => values.getD v 0)).toList = .ok direct ∧
      Near (net.drift tolerances.slack) (n.outputs.map (fun v => values.getD v 0)) direct ∧
      ∀ i < n.outputs.length, (n.outputs.map (fun v => values.getD v 0)).getD i 0 ≤
        (n.outputs.map (fun v => values.getD v 0)).getD k.position 0 + tolerances.bound := by
  obtain ⟨target, htarget⟩ := exists_target hfits hk
  have htight := tightens_question hfits hrate ht htarget hn
  obtain ⟨hlinear, hmax⟩ := htight.sound _ (hnode.solvesLinear htight.staged)
  have hrelus : ∀ p ∈ net.toNetwork.relus, |values.getD p.output 0 -
      max (values.getD p.input 0) 0| ≤ tolerances.slack := by
    rw [← htight.relus]
    exact fun p hp => hnode.abs_relu_le_slack (Query.staged_compiled htight.staged) ht hp
  obtain ⟨direct, hforward, hnear⟩ :=
    LayeredNetwork.exists_near_forward hfits.wellFormed hlinear.equations hrelus
  rw [(LayeredNetwork.encodes_toNetwork hfits.wellFormed).inputs, hfits.inputs] at hforward
  rw [htight.outputs]
  exact ⟨direct, hforward, hnear, fun i hi => getD_map_le htarget hmax hi⟩

theorem exists_replays (hrate : k.advisory.boundsRate = true) (ht : 0 ≤ tolerances.bound)
    (hn : question c k net.toNetwork = .ok (some n)) (hposes : Poses c net k n)
    {phases : List Phase} {values : List K}
    (hnode : Reference.Node tolerances (Query.compiled n) phases values) :
    ∃ cex scores direct, counterexample c candidates n (VarMap.ofValues values) = .ok cex ∧
      cex.Replays c net candidates tolerances k scores direct := by
  obtain ⟨direct, hforward, hnear, hrecorded⟩ := exists_direct hfits hk hrate ht hn hnode
  have hread : ∀ v < n.numVars, (VarMap.ofValues values).get? v = some (values.getD v 0) := by
    intro v hv
    have hlt : v < values.length := by
      rw [hnode.length_values, Query.numVariables_compiled]
      exact Nat.lt_succ_of_lt hv
    simp [VarMap.get?_ofValues, hlt]
  have hlength : (n.outputs.map (fun v => values.getD v 0)).length = n.outputs.length :=
    List.length_map _
  refine ⟨_, n.outputs.map (fun v => values.getD v 0), direct,
    counterexample_eq_ok hposes.inputs (fun v hv => hread v (hposes.input_lt v hv))
      fun v hv => hread v (hposes.output_lt v hv), rfl, ?_, ?_, hnear, ?_, ?_⟩
  · rw [hlength, hposes.length_outputs, hfits.outputs]
  · rwa [Constants.normalized_physical hfits.positive]
  · exact fun i hi => hrecorded i (hlength ▸ hi)
  · exact fun i hi => hnear.getD_le (hrecorded i (hlength ▸ hi))

theorem exists_genuine (hrate : k.advisory.boundsRate = true) (ht : 0 ≤ tolerances.bound)
    (hn : question c k net.toNetwork = .ok (some n)) (hposes : Poses c net k n)
    {out : EngineOutput K} (hout : out.interrupted = true ∨
      out = (Reference.engine tolerances).run (Query.compiled n) false) :
    ∃ o, outcome c candidates n (Verdict.ofOutput out) = .ok o ∧
      o.Genuine c net candidates tolerances k := by
  unfold Verdict.ofOutput
  cases hfinished : out.interrupted with
  | true => exact ⟨.earlyTermination, rfl, fun _ h => by cases h⟩
  | false =>
    cases hempty : out.assignment.isEmpty with
    | true => exact ⟨.unsat, rfl, fun _ h => by cases h⟩
    | false =>
      obtain rfl := hout.resolve_left (by simp [hfinished])
      obtain ⟨phases, values, hnode, hassign⟩ := Reference.exists_node_of_run?
        (Reference.run?_of_engine hfinished) (Query.shaped_compiled hposes.allocated) ht hempty
      obtain ⟨cex, scores, direct, hcex, hreplays⟩ :=
        exists_replays hfits hk hrate ht hn hposes hnode
      refine ⟨.sat cex, ?_, fun _ h => ?_⟩
      · simp [outcome, hassign, hcex, Except.map]
      · obtain rfl := Outcome.sat.inj h
        exact ⟨scores, direct, hreplays⟩

end

variable {host : Host (StateM σ) K} {config : CampaignConfig K} {I : σ → Prop}
  {E : Failure K → Prop} {recorded : VerdictRecord K → Prop}

theorem ends_check_genuine (hhost : host.Consults tolerances net) (ht : 0 ≤ tolerances.bound)
    (hkeeps : host.Keeps I E recorded) (hfits : Fits net config.constants candidates)
    (pra : Advisory K) (hk : k ∈ numbered candidates) :
    Ends I (check host config pra candidates k)
      (fun o => o.Genuine config.constants net candidates tolerances k) E :=
  ends_check (Q := fun k o => o.Genuine config.constants net candidates tolerances k)
    (ends_load hhost.load)
    hkeeps hfits (fun _ _ _ h => by cases h)
    (fun _ hk hrate _ hn hposes s => exists_genuine hfits hk hrate ht hn hposes (hhost.solve _ s))
    pra hk

theorem run_replays (hnet : net.WellFormed) (hinputs : net.inputSize = 4) {pra : ℕ}
    (hcandidates : Advisory.candidates pra = .ok candidates)
    (houtputs : net.outputSize = candidates.length) (hc : config.constants.Positive)
    (ht : 0 ≤ tolerances.bound) (hhost : host.Consults tolerances net)
    (hkeeps : host.Keeps I E (fun v => ∃ k ∈ numbered candidates, v.advisory = k.advisory ∧
      v.outcome.Genuine config.constants net candidates tolerances k)) (s : σ) (hs : I s) :
    I ((run host config pra).run s).2 ∧
      (∀ report, ((run host config pra).run s).1 = .ok report →
        ∀ (position : ℕ) (v : VerdictRecord K), report.verdicts[position]? = some v →
          candidates[position]? = some v.advisory ∧
            v.outcome.Genuine config.constants net candidates tolerances ⟨position, v.advisory⟩) ∧
      ∀ e, ((run host config pra).run s).1 = .error e → E e := by
  obtain ⟨a, ha⟩ := Advisory.exists_advisory hcandidates
  have hfits : Fits net config.constants candidates :=
    ⟨hc, hnet, hinputs, houtputs, fun _ => Advisory.mem_all_of_candidates hcandidates⟩
  have hrun := ends_run_of_check hcandidates ha hkeeps
    (Q := fun k o => o.Genuine config.constants net candidates tolerances k)
    (fun k hk => ends_check_genuine hhost ht hkeeps hfits a hk)
    (fun k hk o ho => ⟨k, hk, rfl, ho⟩) s hs
  rcases hresult : (run host config pra).run s with ⟨e | report, s'⟩
  · rw [hresult] at hrun
    exact ⟨hrun.2, fun _ h => (by cases h), fun _ h => Except.error.inj h ▸ hrun.1⟩
  · rw [hresult] at hrun
    obtain ⟨⟨_, hvisited⟩, hs'⟩ := hrun
    refine ⟨hs', fun report' hreport position v hv => ?_, fun _ h => by cases h⟩
    obtain rfl := Except.ok.inj hreport
    obtain ⟨k, o, hk, rfl, ho⟩ := getElem?_of_visited hvisited hv
    obtain ⟨hadvisory, rfl⟩ := numbered_getElem? hk
    exact ⟨hadvisory, ho⟩

def inMemory (tolerances : Tolerances K) (net : LayeredNetwork K) :
    Host (StateM (List (VerdictRecord K))) K :=
  keeping (fun q => (Reference.engine tolerances).run q false) net

omit [IsStrictOrderedRing K] in
theorem consults_inMemory (tolerances : Tolerances K) (net : LayeredNetwork K) :
    (inMemory tolerances net).Consults tolerances net :=
  ⟨fun _ => rfl, fun _ _ => Or.inr rfl⟩

-- the hidden neuron is 5e-7 everywhere, which the search takes for zero
def slackScores : LayeredNetwork ℚ where
  inputSize := 4
  layers := [⟨[[0, 0, 0, 0]], [5e-7]⟩,
    ⟨[[1e6], [0], [0], [0], [0], [0]], [-0.25, 0, -1, -1, -1, -1]⟩]

def slackCounterexample : Counterexample ℚ where
  encounter := ⟨0, 0, 0, 23.84210526⟩
  scores := [("COC", -0.25), ("DNC", 0), ("DND", -1), ("MAINTAIN", -1), ("SDES1500", -1),
    ("SCL1500", -1)]

def slackRecord : VerdictRecord ℚ :=
  ⟨⟨2, "DNC", -1, 0⟩, ⟨2, "DNC", -1, 0⟩, .sat slackCounterexample⟩

theorem run_slackScores : ∃ report log,
    (run (inMemory Tolerances.standard slackScores) CampaignConfig.standard 2).run [] =
      (.ok report, log) ∧ report.verdicts[1]? = some slackRecord ∧ log = report.verdicts := by
  have hrun : (match (run (inMemory Tolerances.standard slackScores) CampaignConfig.standard
      2).run [] with
    | (.ok report, log) => decide (report.verdicts[1]? = some slackRecord ∧ log = report.verdicts)
    | _ => false) = true := by decide +kernel
  split at hrun
  · exact ⟨_, _, ‹_›, of_decide_eq_true hrun⟩
  · cases hrun

theorem run_replays_slackScores : ∃ log scores direct,
    ((run (inMemory Tolerances.standard slackScores) CampaignConfig.standard 2).run []).2 = log ∧
      slackRecord ∈ log ∧ slackCounterexample.Replays Constants.standard slackScores afterDnc
        Tolerances.standard ⟨1, ⟨2, "DNC", -1, 0⟩⟩ scores direct ∧
      slackScores.drift (Tolerances.standard : Tolerances ℚ).slack = [1, 0, 0, 0, 0, 0] := by
  have hnet : slackScores.WellFormed :=
    ⟨by simp [slackScores], by simp [slackScores, LayeredNetwork.Fits, Layer.width]⟩
  have hc : (CampaignConfig.standard : CampaignConfig ℚ).constants.Positive := by
    constructor <;> norm_num [CampaignConfig.standard, Constants.standard]
  have hrun := run_replays hnet rfl (rfl : Advisory.candidates 2 = .ok afterDnc) rfl hc
    (by decide +kernel) (consults_inMemory Tolerances.standard slackScores)
    (keeps_keeping _ slackScores _) [] (by simp)
  obtain ⟨report, log, hresult, hrecord, hlog⟩ := run_slackScores
  obtain ⟨scores, direct, hreplays⟩ :=
    (hrun.2.1 report (congrArg Prod.fst hresult) 1 slackRecord hrecord).2 _ rfl
  refine ⟨log, scores, direct, congrArg Prod.snd hresult, hlog ▸ List.mem_of_getElem? hrecord,
    hreplays, ?_⟩
  rw [Tolerances.slack_standard]
  decide +kernel

theorem exists_drifted_slackScores : ∃ report direct,
    ((run (inMemory Tolerances.standard slackScores) CampaignConfig.standard 2).run []).1 =
        .ok report ∧
      report.verdicts[1]? = some ⟨⟨2, "DNC", -1, 0⟩, ⟨2, "DNC", -1, 0⟩, .sat slackCounterexample⟩ ∧
      slackScores.forward (Constants.standard.normalized slackCounterexample.encounter).toList =
        .ok direct ∧
      slackCounterexample.scores[0]? = some ("COC", (-0.25 : ℚ)) ∧
      1e-6 < |-0.25 - direct.getD 0 0| ∧
      direct.getD 1 0 + 1e-6 < direct.getD 0 0 := by
  obtain ⟨report, log, hresult, hrecord, _⟩ := run_slackScores
  refine ⟨report, [0.25, 0, -1, -1, -1, -1], by rw [hresult], hrecord, ?_, rfl, ?_, ?_⟩
  · decide +kernel
  · decide +kernel
  · decide +kernel

end Campaign

end ReluVerify
