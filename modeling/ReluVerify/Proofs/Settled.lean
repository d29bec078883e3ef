import ReluVerify.Proofs.Campaign
import ReluVerify.Proofs.Protocol

namespace ReluVerify

theorem exists_of_getElem?_filterMap {β γ : Type} {f : β → Option γ} {bs : List β}
    (hf : ∀ b ∈ bs.dropLast, (f b).isSome = true) {i : ℕ} {c : γ}
    (h : (bs.filterMap f)[i]? = some c) : ∃ b, bs[i]? = some b ∧ f b = some c := by
  induction bs generalizing i with
  | nil => cases h
  | cons b rest ih =>
    cases hb : f b with
    | none =>
      -- only the last element has no image
      have hrest : rest = [] := by
        by_contra hne
        have hsome := hf b (by rw [List.dropLast_cons_of_ne_nil hne]; exact List.mem_cons_self)
        rw [hb] at hsome
        cases hsome
      rw [hrest, List.filterMap_cons_none hb] at h
      cases h
    | some c' =>
      rw [List.filterMap_cons_some hb] at h
      cases i with
      | zero => exact ⟨b, rfl, hb.trans (congrArg some (Option.some.inj h))⟩
      | succ i =>
        refine ih (fun b' hb' => hf b' ?_) h
        cases rest with
        | nil => cases hb'
        | cons b'' rest => exact List.mem_cons_of_mem _ hb'

section

variable {α : Type}

def Call.verdict? : Call α → Option (VerdictRecord α)
  | .record v => some v
  | _ => none

-- the verdicts that were handed over to be recorded, whether or not that succeeded
def recordings (events : List (Event α)) : List (VerdictRecord α) :=
  events.filterMap (·.call.verdict?)

theorem recordings_append (events events' : List (Event α)) :
    recordings (events ++ events') = recordings events ++ recordings events' :=
  List.filterMap_append ..

theorem recordings_snoc_of_none {events : List (Event α)} {e : Event α}
    (h : e.call.verdict? = none) : recordings (events ++ [e]) = recordings events := by
  have hnone : recordings [e] = [] := List.filterMap_cons_none h
  rw [recordings_append, hnone, List.append_nil]

theorem recordings_of_sinkless {events : List (Event α)}
    (h : ∀ e ∈ events, e.call.isSink = false) : recordings events = [] := by
  refine List.filterMap_eq_nil_iff.mpr fun e he => ?_
  have hsink := h e he
  cases hcall : e.call with
  | record v =>
    rw [hcall] at hsink
    cases hsink
  | _ => rfl

def Visit.verdict? (v : Visit α) : Option (VerdictRecord α) := v.recorded.map Prod.fst

theorem recordings_events {config : CampaignConfig α} {pra : Advisory α} {v : Visit α}
    (h : v.Orderly config pra) : recordings (v.events pra) = v.verdict?.toList := by
  rw [Visit.events, recordings, List.filterMap_cons_none rfl, ← recordings, recordings_append,
    recordings_of_sinkless h.sinkless, List.nil_append, Visit.verdict?]
  cases v.recorded <;> rfl

theorem recordings_visits {config : CampaignConfig α} {pra : Advisory α} {visits : List (Visit α)}
    (h : ∀ v ∈ visits, v.Orderly config pra) :
    recordings (visits.flatMap (Visit.events pra)) = visits.filterMap Visit.verdict? := by
  induction visits with
  | nil => rfl
  | cons v visits ih =>
    obtain ⟨hv, hvisits⟩ := List.forall_mem_cons.mp h
    rw [List.flatMap_cons, recordings_append, recordings_events hv, ih hvisits]
    cases hr : v.verdict? with
    | none =>
      rw [List.filterMap_cons_none hr]
      rfl
    | some r =>
      rw [List.filterMap_cons_some hr]
      rfl

namespace Protocol

variable {config : CampaignConfig α} {pra : Advisory α} {candidates : List (Advisory α)}
  {visits : List (Visit α)} {r : Except (Failure α) (Report α)}
  (h : Protocol config pra candidates visits r)

include h

-- No visit but the last goes without a record, so a verdict stands where its candidate does.
theorem candidate_of_recorded {position : ℕ} {v : VerdictRecord α}
    (hv : (recordings (visits.flatMap (Visit.events pra)))[position]? = some v) :
    candidates[position]? = some v.advisory := by
  rw [recordings_visits h.orderly] at hv
  have hcompleted : ∀ visit ∈ visits.dropLast, visit.verdict?.isSome = true := by
    intro visit hmem
    obtain ⟨verdict, hverdict⟩ := h.completed visit hmem
    rw [Visit.verdict?, hverdict]
    rfl
  obtain ⟨visit, hvisit, hverdict⟩ := exists_of_getElem?_filterMap hcompleted hv
  obtain ⟨r, hr, rfl⟩ := Option.map_eq_some_iff.mp hverdict
  have hadvisory : (visits.map Visit.advisory)[position]? = some r.1.advisory := by
    have horderly := h.orderly visit (List.mem_of_getElem? hvisit)
    rw [List.getElem?_map, hvisit, (horderly.recorded r hr).2]
    rfl
  obtain ⟨hlt, hget⟩ := List.getElem?_eq_some_iff.mp hadvisory
  exact (List.prefix_iff_getElem?.mp h.begun position hlt).trans (congrArg some hget)

theorem recordings_eq {report : Report α} (hr : r = .ok report) :
    recordings (visits.flatMap (Visit.events pra)) = report.verdicts := by
  have hrecorded := (h.settles report hr).2.recorded
  have hverdicts : visits.filterMap Visit.verdict? =
      (visits.map Visit.recorded).filterMap (·.map Prod.fst) := by
    rw [List.filterMap_map]
    rfl
  rw [recordings_visits h.orderly, hverdicts, hrecorded, List.filterMap_map]
  exact List.filterMap_some

end Protocol

namespace Campaign

variable [Scalar α] {config : CampaignConfig α} {pra : ℕ} {candidates : List (Advisory α)}
  {events : List (Event α)} {r : Except (Failure α) (Report α)}

theorem Runs.exists_visits (h : Runs config pra events r) :
    recordings events = [] ∧ (∃ e, r = .error e) ∨ ∃ a candidates visits,
      Advisory.candidates pra = .ok candidates ∧ Protocol config a candidates visits r ∧
        recordings events = recordings (visits.flatMap (Visit.events a)) := by
  cases h with
  | unknown => exact .inl ⟨rfl, _, rfl⟩
  | unprepared => exact .inl ⟨rfl, _, rfl⟩
  | @visited a candidates visits _ _ hcandidates hprotocol =>
    refine .inr ⟨a, candidates, visits, hcandidates, hprotocol, ?_⟩
    rw [recordings_append]
    cases config.logsDir <;> rfl

theorem Runs.candidate_of_recorded (h : Runs config pra events r)
    (hcandidates : Advisory.candidates pra = .ok candidates) {position : ℕ} {v : VerdictRecord α}
    (hv : (recordings events)[position]? = some v) : candidates[position]? = some v.advisory := by
  rcases h.exists_visits with
    ⟨hnil, _⟩ | ⟨a, candidates', visits, hcandidates', hprotocol, hevents⟩
  · rw [hnil] at hv
    cases hv
  · obtain rfl := Except.ok.inj (hcandidates'.symm.trans hcandidates)
    exact hprotocol.candidate_of_recorded (hevents ▸ hv)

theorem Runs.settles {report : Report α} (h : Runs config pra events (.ok report))
    (hcandidates : Advisory.candidates pra = .ok candidates)
    (hlater : ∀ v ∈ recordings events, v.outcome ≠ .earlyTermination) :
    report.aborted = false ∧ report.verdicts = recordings events ∧
      report.verdicts.map (·.advisory) = candidates := by
  rcases h.exists_visits with
    ⟨_, e, he⟩ | ⟨a, candidates', visits, hcandidates', hprotocol, hevents⟩
  · cases he
  obtain rfl := Except.ok.inj (hcandidates'.symm.trans hcandidates)
  have hsettles := (hprotocol.settles report rfl).2
  have hverdicts : report.verdicts = recordings events :=
    (hevents.trans (hprotocol.recordings_eq rfl)).symm
  have haborted : report.aborted = false := by
    rw [Bool.eq_false_iff, Ne, hsettles.aborted_iff]
    rintro ⟨v, hlast, hearly⟩
    exact hlater v (hverdicts ▸ List.mem_of_getLast? hlast) hearly
  exact ⟨haborted, hverdicts, hsettles.complete haborted⟩

end Campaign

section

variable {σ β : Type} {I : σ → Prop} {E : Failure α → Prop} {recorded : VerdictRecord α → Prop}

theorem ends_logged {call : Call α} {step : ExceptT (Failure α) (StateM σ) β} {P : β → Prop}
    (h : Ends I step P E) (hcall : ∀ v, call.verdict? = some v → recorded v) :
    Ends (fun s : σ × List (Event α) => I s.1 ∧ ∀ v ∈ recordings s.2, recorded v)
      (logged call step) P E := by
  intro s hs
  have hstep := h s.1 hs.1
  have hnoted : ∀ e : Event α, e.call = call →
      ∀ v ∈ recordings (s.2 ++ [e]), recorded v := by
    intro e he v hv
    rw [recordings_append, List.mem_append] at hv
    refine hv.elim (hs.2 v) fun hv => hcall v ?_
    obtain ⟨e', he', hverdict⟩ := List.mem_filterMap.mp hv
    rwa [List.mem_singleton.mp he', he] at hverdict
  rcases hrun : step.run s.1 with ⟨e | b, s'⟩
  · rw [hrun] at hstep
    have hlogged : (logged call step).run s = (.error e, (s', s.2 ++ [⟨call, some e⟩])) := by
      change ((step.run s.1).1, ((step.run s.1).2, s.2 ++ [_])) = _
      rw [hrun]
      rfl
    rw [hlogged]
    exact ⟨hstep.1, hstep.2, hnoted _ rfl⟩
  · rw [hrun] at hstep
    have hlogged : (logged call step).run s = (.ok b, (s', s.2 ++ [⟨call, none⟩])) := by
      change ((step.run s.1).1, ((step.run s.1).2, s.2 ++ [_])) = _
      rw [hrun]
      rfl
    rw [hlogged]
    exact ⟨hstep.1, hstep.2, hnoted _ rfl⟩

end

end

variable {K : Type} [Field K] [LinearOrder K] {σ : Type}
  {host : Host (StateM σ) K} {I : σ → Prop} {E : Failure K → Prop}
  {recorded : VerdictRecord K → Prop}

omit [Field K] [LinearOrder K] in
theorem Host.Keeps.traced (h : host.Keeps I E recorded) : host.traced.Keeps
    (fun s => I s.1 ∧ ∀ v ∈ recordings s.2, recorded v) E recorded where
  prepareLogs := fun dir => ends_logged (h.prepareLogs dir) nofun
  writeLog := fun path solved => ends_logged (h.writeLog path solved) nofun
  begin := fun pra advisory => ends_logged (h.begin pra advisory) nofun
  record := fun v hv => ends_logged (h.record v hv) fun _ hverdict => Option.some.inj hverdict ▸ hv
  solve := fun q s hs => by
    refine ⟨h.solve q s.1 hs.1, ?_⟩
    change ∀ v ∈ recordings (s.2 ++ [⟨.solve q, none⟩]), recorded v
    rw [recordings_append]
    exact List.forall_mem_append.mpr ⟨hs.2, nofun⟩

namespace Campaign

variable {net : LayeredNetwork K} {config : CampaignConfig K} {candidates : List (Advisory K)}

theorem right_of_mem (hnodup : candidates.Nodup) {c : Constants K} {v : VerdictRecord K}
    (h : ∃ k ∈ numbered candidates, v.advisory = k.advisory ∧ v.outcome.Right c net candidates k)
    {position : ℕ} (hposition : candidates[position]? = some v.advisory) :
    v.outcome.Right c net candidates ⟨position, v.advisory⟩ := by
  obtain ⟨k, hk, hadvisory, hright⟩ := h
  have hget := mem_numbered hk
  obtain ⟨hlt, _⟩ := List.getElem?_eq_some_iff.mp hget
  obtain rfl : k.position = position :=
    (List.getElem?_inj hlt hnodup).mp (hget.trans (hadvisory ▸ hposition.symm))
  rwa [hadvisory]

-- The question, the query and the reading back of a solution never fail, so what fails is the host.
-- What is handed over to be recorded is right also where a later call fails.
theorem run_settles [IsStrictOrderedRing K] (hnet : net.WellFormed) (hinputs : net.inputSize = 4)
    {pra : ℕ} (hcandidates : Advisory.candidates pra = .ok candidates)
    (houtputs : net.outputSize = candidates.length) (hc : config.constants.Positive)
    (hexact : host.Exact net) (hkeeps : host.Keeps I E fun v => ∃ k ∈ numbered candidates,
      v.advisory = k.advisory ∧ v.outcome.Right config.constants net candidates k)
    (s : σ) (hs : I s) : ∃ events,
      (run host.traced config pra).run (s, []) = (((run host config pra).run s).1,
        (((run host config pra).run s).2, events)) ∧
      I ((run host config pra).run s).2 ∧
      (∀ (position : ℕ) (v : VerdictRecord K), (recordings events)[position]? = some v →
        candidates[position]? = some v.advisory ∧
          v.outcome.Right config.constants net candidates ⟨position, v.advisory⟩) ∧
      (∀ report, ((run host config pra).run s).1 = .ok report → report.aborted = false ∧
        report.verdicts = recordings events ∧ report.verdicts.map (·.advisory) = candidates) ∧
      ∀ e, ((run host config pra).run s).1 = .error e → E e ∧ host.Fails e := by
  have hfits : Fits net config.constants candidates :=
    ⟨hc, hnet, hinputs, houtputs, fun _ => Advisory.mem_all_of_candidates hcandidates⟩
  have htraces : Traces (run host.traced config pra) (run host config pra) (Runs config pra) :=
    traces_run pra
  obtain ⟨events, htraced, hruns⟩ := htraces s []
  rw [List.nil_append] at htraced
  have hfails : Ends (fun _ => True) (run host config pra) (fun _ => True) host.Fails :=
    ends_run (ends_load hexact.load) hexact.solve hcandidates (host.keeps_fails _) hfits
  have hkept := ends_run (fun pra => ends_logged (ends_load hexact.load pra) nofun)
    (fun q hq s => hexact.solve q hq s.1) hcandidates hkeeps.traced hfits
  have hstart : I s ∧ ∀ v ∈ recordings [], ∃ k ∈ numbered candidates,
      v.advisory = k.advisory ∧ v.outcome.Right config.constants net candidates k := ⟨hs, nofun⟩
  have hstate := hkept.keeps (s := (s, [])) hstart
  rw [htraced] at hstate
  refine ⟨events, htraced, hstate.1, fun position v hv => ?_, fun report hreport => ?_,
    fun e he => ⟨hkept.fails (s := (s, [])) hstart (by rw [htraced, he]),
      hfails.fails trivial he⟩⟩
  · have hcandidate := hruns.candidate_of_recorded hcandidates hv
    exact ⟨hcandidate, right_of_mem (Advisory.nodup_candidates hcandidates)
      (hstate.2 v (List.mem_of_getElem? hv)) hcandidate⟩
  · rw [hreport] at hruns
    refine hruns.settles hcandidates fun v hv hearly => ?_
    obtain ⟨k, _, _, hright⟩ := hstate.2 v hv
    have hlater := isEarlyTermination_of_right hright
    rw [hearly] at hlater
    cases hlater

theorem keeps_recordings (answer : Query K → EngineOutput K) (net : LayeredNetwork K)
    (recorded : VerdictRecord K → Prop) :
    (keeping answer net).traced.Keeps (fun s => s.1 = recordings s.2) (fun _ => False)
      recorded where
  prepareLogs := fun _ _ hs => ⟨trivial, hs.trans (recordings_snoc_of_none rfl).symm⟩
  writeLog := fun _ _ _ hs => ⟨trivial, hs.trans (recordings_snoc_of_none rfl).symm⟩
  begin := fun _ _ _ hs => ⟨trivial, hs.trans (recordings_snoc_of_none rfl).symm⟩
  record := fun v _ _ hs =>
    ⟨trivial, (congrArg (· ++ [v]) hs).trans (recordings_append _ [⟨.record v, none⟩]).symm⟩
  solve := fun _ _ hs => hs.trans (recordings_snoc_of_none rfl).symm

-- What such a host holds in the end is all that it was given, in order.
theorem log_keeping [IsStrictOrderedRing K] {answer : Query K → EngineOutput K}
    (hanswer : ∀ q : Query K, q.Answered (answer q)) {pra : ℕ}
    (hcandidates : Advisory.candidates pra = .ok candidates)
    (hfits : Fits net config.constants candidates) {r : Except (Failure K) (Report K)}
    {log : List (VerdictRecord K)} {events : List (Event K)}
    (h : (run (keeping answer net).traced config pra).run ([], []) = (r, log, events)) :
    log = recordings events := by
  have hload : ∀ pra, Ends (fun s => s.1 = recordings s.2) ((keeping answer net).traced.load pra)
      (fun n => n = net.toNetwork) (fun _ => False) :=
    fun _ _ hs => ⟨rfl, hs.trans (recordings_snoc_of_none rfl).symm⟩
  have hsolve : ∀ q : Query K, q.Shaped → ∀ s,
      q.Answered (((keeping answer net).traced.solve q).run s).1 := fun q _ _ => hanswer q
  have hkept := (ends_run hload hsolve hcandidates (keeps_recordings answer net _) hfits).keeps
    (s := ([], [])) rfl
  rwa [h] at hkept

def constantScores : LayeredNetwork ℚ where
  inputSize := 4
  layers := [⟨List.replicate 6 [0, 0, 0, 0], [1, 9, 2, 3, 4, 5]⟩]

noncomputable def exactHost : Host (StateM (List (VerdictRecord ℚ))) ℚ :=
  keeping Query.exactOutput constantScores

theorem exact_exactHost : exactHost.Exact constantScores :=
  ⟨fun _ => rfl, fun q _ _ => Query.answered_exactOutput q⟩

theorem forward_constantScores (e : Encounter ℚ) :
    constantScores.forward e.toList = .ok [1, 9, 2, 3, 4, 5] := by
  simp [LayeredNetwork.forward, constantScores, Encounter.toList, LayeredNetwork.forwardWith,
    LayeredNetwork.preActivations, Scalar.dot_eq_sum, List.replicate_succ]

theorem fits_constantScores :
    Fits constantScores (CampaignConfig.standard : CampaignConfig ℚ).constants afterDnc where
  positive := by constructor <;> norm_num [CampaignConfig.standard, Constants.standard]
  wellFormed := ⟨by simp [constantScores], by simp [constantScores, LayeredNetwork.Fits]⟩
  inputs := rfl
  outputs := rfl
  standard := fun _ => Advisory.mem_all_of_candidates (rfl : Advisory.candidates 2 = .ok afterDnc)

theorem run_settles_constantScores : ∃ report log, ∃ dnc dnd : VerdictRecord ℚ,
    (run exactHost CampaignConfig.standard 2).run [] = (.ok report, log) ∧
      log = report.verdicts ∧ log[1]? = some dnc ∧ dnc.outcome ≠ .unsat ∧
      log[2]? = some dnd ∧ dnd.outcome = .unsat := by
  have hfits := fits_constantScores
  have hcandidates : Advisory.candidates 2 = .ok afterDnc := rfl
  obtain ⟨events, htraced, _, hright, hreport, herror⟩ := run_settles hfits.wellFormed rfl
    hcandidates rfl hfits.positive exact_exactHost (keeps_keeping Query.exactOutput _ _) [] nofun
  rcases hresult : (run exactHost CampaignConfig.standard 2).run [] with ⟨e | report, log⟩
  · rw [hresult] at herror
    exact (herror e rfl).1.elim
  rw [hresult] at htraced hreport
  obtain ⟨_, hverdicts, hadvisories⟩ := hreport report rfl
  obtain rfl := log_keeping Query.answered_exactOutput hcandidates hfits htraced
  have hverdict : ∀ {position : ℕ} {a : Advisory ℚ}, afterDnc[position]? = some a →
      a.boundsRate = true → ∃ v : VerdictRecord ℚ, (recordings events)[position]? = some v ∧
        v.outcome.Settles Constants.standard constantScores afterDnc ⟨position, a⟩ := by
    intro position a ha hrate
    rw [← hadvisories, hverdicts, List.getElem?_map] at ha
    obtain ⟨v, hv, rfl⟩ := Option.map_eq_some_iff.mp ha
    have houtcome := (hright position v hv).2
    rw [Outcome.Right, if_pos hrate] at houtcome
    exact ⟨v, hv, houtcome⟩
  obtain ⟨dnc, hdnc, hsettles⟩ := hverdict (rfl : afterDnc[1]? = some ⟨2, "DNC", -1, 0⟩) rfl
  obtain ⟨dnd, hdnd, hsettles'⟩ := hverdict (rfl : afterDnc[2]? = some ⟨3, "DND", 1, 0⟩) rfl
  refine ⟨report, _, dnc, dnd, rfl, hverdicts.symm, hdnc, fun hunsat => ?_, hdnd,
    hsettles'.unsat_iff.mpr ?_⟩
  · refine hsettles.unsat_iff.mp hunsat ⟨⟨0, 0, 0, 0⟩, ?_, _, 9, forward_constantScores _, rfl, ?_⟩
    · norm_num [Advisory.Concerns, Constants.standard]
    · norm_num
  · rintro ⟨e, _, scores, top, hscores, htop, hmax⟩
    rw [forward_constantScores] at hscores
    obtain rfl := Except.ok.inj hscores
    obtain rfl := Option.some.inj htop
    exact absurd (hmax 9 (by simp)) (by norm_num)

end Campaign

end ReluVerify
