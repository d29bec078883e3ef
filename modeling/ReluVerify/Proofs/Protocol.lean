import ReluVerify.Proofs.Visits

namespace ReluVerify

variable {α β : Type}

def Call.isLoad : Call α → Bool
  | .load _ => true
  | _ => false

def Call.isSolve : Call α → Bool
  | .solve _ => true
  | _ => false

def Call.isSink : Call α → Bool
  | .begin _ _ => true
  | .record _ => true
  | _ => false

-- The first call that fails is the last one made, and its failure is the result.
structure Stops (events : List (Event α)) (r : Except (Failure α) β) : Prop where
  quiet : ∀ e ∈ events.dropLast, e.failure = none
  fatal : ∀ e ∈ events, ∀ f, e.failure = some f → r = .error f

theorem Stops.of_quiet {events : List (Event α)} (r : Except (Failure α) β)
    (h : ∀ e ∈ events, e.failure = none) : Stops events r where
  quiet := fun e he => h e (List.mem_of_mem_dropLast he)
  fatal := fun e he f hf => by
    rw [h e he] at hf
    cases hf

theorem Stops.of_failed (call : Call α) (f : Failure α) :
    Stops [⟨call, some f⟩] (.error f : Except (Failure α) β) where
  quiet := fun _ he => absurd he List.not_mem_nil
  fatal := fun e he f' hf => by
    rw [List.mem_singleton.mp he] at hf
    exact congrArg _ (Option.some.inj hf)

theorem Stops.quiet_of_ok {events : List (Event α)} {b : β} (h : Stops events (.ok b)) :
    ∀ e ∈ events, e.failure = none := by
  intro e he
  cases hf : e.failure with
  | none => rfl
  | some f => cases h.fatal e he f hf

theorem Stops.append {events events' : List (Event α)} {r : Except (Failure α) β}
    (hquiet : ∀ e ∈ events, e.failure = none) (h : Stops events' r) :
    Stops (events ++ events') r where
  quiet := fun e he => by
    rcases eq_or_ne events' [] with rfl | hne
    · rw [List.append_nil] at he
      exact hquiet e (List.mem_of_mem_dropLast he)
    · rw [List.dropLast_append_of_ne_nil hne] at he
      rcases List.mem_append.mp he with he | he
      · exact hquiet e he
      · exact h.quiet e he
  fatal := fun e he f hf => by
    rcases List.mem_append.mp he with he | he
    · rw [hquiet e he] at hf
      cases hf
    · exact h.fatal e he f hf

theorem Stops.cons {e : Event α} {events : List (Event α)} {r : Except (Failure α) β}
    (he : e.failure = none) (h : Stops events r) : Stops (e :: events) r :=
  .append (List.forall_mem_singleton.mpr he) h

theorem Stops.imp {γ : Type} {events : List (Event α)} {r : Except (Failure α) β}
    {r' : Except (Failure α) γ} (h : Stops events r) (hr : ∀ f, r = .error f → r' = .error f) :
    Stops events r' :=
  ⟨h.quiet, fun e he f hf => hr f (h.fatal e he f hf)⟩

namespace Campaign

variable {σ : Type} {config : CampaignConfig α} {pra advisory : Advisory α}

def consultation (config : CampaignConfig α) (pra advisory : Advisory α) (solved : Solved α) :
    List (Call α) :=
  .load pra.index :: .solve solved.query ::
    (config.logPath pra advisory).toList.map (.writeLog · solved)

def unanswered : Solved α := ⟨⟨0, .empty, [], []⟩, .stopped {}⟩

theorem Solves.stops {log : Option String} {events : List (Event α)}
    {r : Except (Failure α) (Verdict α)} (h : Solves log events r) : Stops events r := by
  cases h with
  | refused => exact .of_quiet _ fun _ he => absurd he List.not_mem_nil
  | unlogged => exact .cons rfl (.of_failed _ _)
  | answered => exact .of_quiet _ (by simp)

theorem Solves.calls {events : List (Event α)} {r : Except (Failure α) (Verdict α)}
    (h : Solves (config.logPath pra advisory) events r) : ∃ solved,
      .load pra.index :: events.map Event.call <+: consultation config pra advisory solved := by
  cases h with
  | refused => exact ⟨unanswered, by simp [consultation]⟩
  | @unlogged q out _ _ hlog => exact ⟨⟨q, out⟩, by simp [consultation, hlog]⟩
  | @answered q out => exact ⟨⟨q, out⟩, by simp [consultation, Function.comp_def]⟩

section

variable {events : List (Event α)} {r : Except (Failure α) (Outcome α)}
  (h : Checks config pra advisory events r)

include h

theorem Checks.stops : Stops events r := by
  cases h with
  | skipped => exact .of_quiet _ fun _ he => absurd he List.not_mem_nil
  | unloaded => exact .of_failed _ _
  | refused => exact .of_quiet _ (List.forall_mem_singleton.mpr rfl)
  | unsolved _ hsolve => exact .cons rfl (hsolve.stops.imp fun f hf => by cases hf; rfl)
  | solved _ hsolve _ => exact .cons rfl (.of_quiet _ hsolve.stops.quiet_of_ok)

theorem Checks.calls : ∃ solved,
    events.map Event.call <+: consultation config pra advisory solved := by
  cases h with
  | skipped => exact ⟨unanswered, List.nil_prefix⟩
  | unloaded => exact ⟨unanswered, by simp [consultation]⟩
  | refused => exact ⟨unanswered, by simp [consultation]⟩
  | unsolved _ hsolve => exact hsolve.calls
  | solved _ hsolve _ => exact hsolve.calls

theorem Checks.idle (hrate : advisory.turnRate = 0) : events = [] := by
  have hrate := Advisory.boundsRate_eq_false.mpr hrate
  cases h with
  | skipped => rfl
  | unloaded hrate' | refused hrate' | unsolved hrate' _ | solved hrate' _ _ =>
    cases hrate.symm.trans hrate'

theorem Checks.skipped_iff {o : Outcome α} (hr : r = .ok o) :
    o = .skipped ↔ advisory.turnRate = 0 := by
  rw [← Advisory.boundsRate_eq_false]
  cases h with
  | skipped hrate => exact iff_of_true (Except.ok.inj hr).symm hrate
  | unloaded | refused | unsolved => cases hr
  | solved hrate _ hne =>
    refine iff_of_false ?_ (by simp [hrate])
    rintro rfl
    exact hne hr

theorem Checks.solves_eq_one {o : Outcome α} (hr : r = .ok o) (ho : o ≠ .skipped) :
    events.countP (·.call.isSolve) = 1 := by
  cases h with
  | skipped => exact absurd (Except.ok.inj hr).symm ho
  | unloaded | refused | unsolved => cases hr
  | solved _ hsolve _ =>
    cases hsolve
    simp [Call.isSolve, List.countP_map, Function.comp_def]

end

end Campaign

structure Visit.Orderly (config : CampaignConfig α) (pra : Advisory α) (v : Visit α) : Prop where
  ordered : ∃ solved, v.consulted.map Event.call <+:
    Campaign.consultation config pra v.advisory solved
  sinkless : ∀ e ∈ v.consulted, e.call.isSink = false
  loads : v.consulted.countP (·.call.isLoad) ≤ 1
  solves : v.consulted.countP (·.call.isSolve) ≤ 1
  unbegun : ∀ f, v.begun = some f → v.consulted = [] ∧ v.recorded = none
  idle : v.advisory.turnRate = 0 → v.consulted = []
  recorded : ∀ r ∈ v.recorded, r.1.pra = pra ∧ r.1.advisory = v.advisory
  skipped : ∀ r ∈ v.recorded, r.1.outcome = .skipped ↔ v.advisory.turnRate = 0
  solved : ∀ r ∈ v.recorded, r.1.outcome ≠ .skipped → v.consulted.countP (·.call.isSolve) = 1

structure Report.Settles (report : Report α) (candidates : List (Advisory α))
    (visits : List (Visit α)) : Prop where
  recorded : visits.map Visit.recorded = report.verdicts.map fun v => some (v, none)
  later : ∀ v ∈ report.verdicts.dropLast, v.outcome ≠ .earlyTermination
  aborted_iff : report.aborted = true ↔
    ∃ v, report.verdicts.getLast? = some v ∧ v.outcome = .earlyTermination
  complete : report.aborted = false → report.verdicts.map VerdictRecord.advisory = candidates
  count : report.count "SAT" + report.count "UNSAT" + report.count "SKIPPED" +
    report.aborted.toNat = report.verdicts.length

structure Protocol (config : CampaignConfig α) (pra : Advisory α) (candidates : List (Advisory α))
    (visits : List (Visit α)) (r : Except (Failure α) (Report α)) : Prop where
  begun : visits.map Visit.advisory <+: candidates
  once : (visits.map Visit.advisory).Nodup
  orderly : ∀ v ∈ visits, v.Orderly config pra
  completed : ∀ v ∈ visits.dropLast, ∃ verdict, v.recorded = some (verdict, none)
  stops : Stops (visits.flatMap (Visit.events pra)) r
  settles : ∀ report, r = .ok report → report.pra = pra ∧ report.Settles candidates visits
  broken : ∀ f, r = .error f →
    ∃ v, visits.getLast? = some v ∧ ∀ verdict, v.recorded ≠ some (verdict, none)

namespace Campaign

variable {config : CampaignConfig α} {pra : Advisory α}

section

variable {calls : List (Call α)} {advisory : Advisory α} {solved : Solved α}
  (h : calls <+: consultation config pra advisory solved)

include h

theorem isSink_of_prefix : ∀ call ∈ calls, call.isSink = false := by
  intro call hcall
  have hmem := h.subset hcall
  simp only [consultation, List.mem_cons, List.mem_map] at hmem
  rcases hmem with rfl | rfl | ⟨path, _, rfl⟩ <;> rfl

theorem loads_of_prefix : calls.countP Call.isLoad ≤ 1 :=
  h.sublist.countP_le.trans (by
    rw [consultation]
    cases config.logPath pra advisory <;> simp [List.countP_cons, Call.isLoad])

theorem solves_of_prefix : calls.countP Call.isSolve ≤ 1 :=
  h.sublist.countP_le.trans (by
    rw [consultation]
    cases config.logPath pra advisory <;> simp [List.countP_cons, Call.isSolve])

end

theorem orderly_unchecked (advisory : Advisory α) (begun : Option (Failure α)) :
    Visit.Orderly config pra ⟨advisory, begun, [], none⟩ where
  ordered := ⟨unanswered, List.nil_prefix⟩
  sinkless := fun _ he => absurd he List.not_mem_nil
  loads := Nat.zero_le _
  solves := Nat.zero_le _
  unbegun := fun _ _ => ⟨rfl, rfl⟩
  idle := fun _ => rfl
  recorded := fun _ hr => nomatch hr
  skipped := fun _ hr => nomatch hr
  solved := fun _ hr => nomatch hr

theorem orderly_checked {advisory : Advisory α} {consulted : List (Event α)}
    {r : Except (Failure α) (Outcome α)} (h : Checks config pra advisory consulted r)
    {recorded : Option (VerdictRecord α × Option (Failure α))}
    (hrecorded : ∀ v ∈ recorded, v.1.pra = pra ∧ v.1.advisory = advisory ∧ r = .ok v.1.outcome) :
    Visit.Orderly config pra ⟨advisory, none, consulted, recorded⟩ := by
  obtain ⟨solved, hcalls⟩ := h.calls
  refine ⟨⟨solved, hcalls⟩, fun e he => isSink_of_prefix hcalls _ (List.mem_map_of_mem he), ?_, ?_,
    nofun, h.idle, fun v hv => ?_, fun v hv => ?_, fun v hv hne => ?_⟩
  · simpa [List.countP_map, Function.comp_def] using loads_of_prefix hcalls
  · simpa [List.countP_map, Function.comp_def] using solves_of_prefix hcalls
  · exact ⟨(hrecorded v hv).1, (hrecorded v hv).2.1⟩
  · exact h.skipped_iff (hrecorded v hv).2.2
  · exact h.solves_eq_one (hrecorded v hv).2.2 hne

theorem quiet_events {v : Visit α} (hbegun : v.begun = none)
    (hconsulted : ∀ e ∈ v.consulted, e.failure = none)
    (hrecorded : ∀ r ∈ v.recorded, r.2 = none) : ∀ e ∈ v.events pra, e.failure = none := by
  simp only [Visit.events, List.forall_mem_cons, List.forall_mem_append, List.forall_mem_map,
    Option.mem_toList]
  exact ⟨hbegun, hconsulted, hrecorded⟩

section

variable {as : List (Advisory α)} {visits : List (Visit α)}
  {r : Except (Failure α) (List (VerdictRecord α) × Bool)} (h : Visits config pra as visits r)

include h

theorem Visits.begun : visits.map Visit.advisory <+: as := by
  induction h with
  | done => exact List.nil_prefix
  | unbegun | unchecked | unrecorded | aborted =>
    exact List.cons_prefix_cons.mpr ⟨rfl, List.nil_prefix⟩
  | next _ _ _ ih => exact List.cons_prefix_cons.mpr ⟨rfl, ih⟩

theorem Visits.orderly : ∀ v ∈ visits, v.Orderly config pra := by
  have hverdict : ∀ {a : Advisory α} {consulted : List (Event α)} {o : Outcome α}
      {f : Option (Failure α)}, Checks config pra a consulted (.ok o) →
      Visit.Orderly config pra ⟨a, none, consulted, some (⟨pra, a, o⟩, f)⟩ := by
    intro a consulted o f hcheck
    refine orderly_checked hcheck fun v hv => ?_
    obtain rfl := Option.some.inj hv
    exact ⟨rfl, rfl, rfl⟩
  induction h with
  | done => exact fun _ hv => absurd hv List.not_mem_nil
  | unbegun => exact List.forall_mem_singleton.mpr (orderly_unchecked _ _)
  | unchecked hcheck =>
    exact List.forall_mem_singleton.mpr (orderly_checked hcheck fun _ hv => nomatch hv)
  | unrecorded hcheck | aborted hcheck _ =>
    exact List.forall_mem_singleton.mpr (hverdict hcheck)
  | next hcheck _ _ ih => exact List.forall_mem_cons.mpr ⟨hverdict hcheck, ih⟩

theorem Visits.completed :
    ∀ v ∈ visits.dropLast, ∃ verdict, v.recorded = some (verdict, none) := by
  induction h with
  | done | unbegun | unchecked | unrecorded | aborted =>
    exact fun _ hv => absurd hv List.not_mem_nil
  | @next a _ _ o visits _ _ _ _ ih =>
    cases visits with
    | nil => exact fun _ hv => absurd hv List.not_mem_nil
    | cons v visits =>
      rw [List.dropLast_cons_cons, List.forall_mem_cons]
      exact ⟨⟨⟨pra, a, o⟩, rfl⟩, ih⟩

theorem Visits.stops : Stops (visits.flatMap (Visit.events pra)) r := by
  induction h with
  | done => exact .of_quiet _ fun _ he => absurd he List.not_mem_nil
  | unbegun => exact .of_failed _ _
  | unchecked hcheck =>
    simp only [List.flatMap_singleton, Visit.events, Option.toList_none, List.map_nil,
      List.append_nil]
    exact .cons rfl (hcheck.stops.imp fun f hf => by cases hf; rfl)
  | unrecorded hcheck =>
    simp only [List.flatMap_singleton, Visit.events, Option.toList_some, List.map_singleton]
    exact .cons rfl (.append hcheck.stops.quiet_of_ok (.of_failed _ _))
  | aborted hcheck _ =>
    rw [List.flatMap_singleton]
    refine .of_quiet _ (quiet_events rfl hcheck.stops.quiet_of_ok ?_)
    simp
  | next hcheck _ _ ih =>
    rw [List.flatMap_cons]
    refine .append (quiet_events rfl hcheck.stops.quiet_of_ok ?_) (ih.imp fun f hf => ?_)
    · simp
    · rw [hf]
      rfl

theorem Visits.broken {f : Failure α} (hr : r = .error f) :
    ∃ v, visits.getLast? = some v ∧ ∀ verdict, v.recorded ≠ some (verdict, none) := by
  induction h with
  | done | aborted => cases hr
  | unbegun | unchecked | unrecorded => exact ⟨_, rfl, by simp⟩
  | @next _ _ _ _ visits r _ _ _ ih =>
    cases r with
    | ok p => cases hr
    | error f' =>
      obtain ⟨v, hlast, hv⟩ := ih hr
      refine ⟨v, ?_, hv⟩
      rw [List.getLast?_cons, hlast]
      rfl

end

section

variable {as : List (Advisory α)} {visits : List (Visit α)} {verdicts : List (VerdictRecord α)}
  {aborted : Bool}

theorem Visits.of_ok_next {r : Except (Failure α) (List (VerdictRecord α) × Bool)}
    {v : VerdictRecord α} (h : r.map (fun p => (v :: p.1, p.2)) = .ok (verdicts, aborted)) :
    ∃ rest, verdicts = v :: rest ∧ r = .ok (rest, aborted) := by
  cases r with
  | error f => cases h
  | ok p =>
    obtain ⟨rfl, rfl⟩ := Prod.mk.inj (Except.ok.inj h)
    exact ⟨p.1, rfl, rfl⟩

theorem isEarlyTermination_iff {o : Outcome α} :
    o.isEarlyTermination = true ↔ o = .earlyTermination := by
  cases o <;> simp [Outcome.isEarlyTermination]

-- A run that returns has gone through all candidates, or has met its first early termination.
theorem Visits.verdicts_eq (h : Visits config pra as visits (.ok (verdicts, aborted))) :
    visits.map Visit.recorded = verdicts.map (fun v => some (v, none)) ∧
      ∃ init : List (VerdictRecord α), (∀ v ∈ init, v.outcome ≠ .earlyTermination) ∧
        ((aborted = false ∧ verdicts = init ∧ init.map VerdictRecord.advisory = as) ∨
          (aborted = true ∧ ∃ v, verdicts = init ++ [v] ∧ v.outcome = .earlyTermination)) := by
  generalize hr : Except.ok (verdicts, aborted) = r at h
  induction h generalizing verdicts with
  | done =>
    obtain ⟨rfl, rfl⟩ := Prod.mk.inj (Except.ok.inj hr)
    exact ⟨rfl, [], fun _ hv => absurd hv List.not_mem_nil, .inl ⟨rfl, rfl, rfl⟩⟩
  | unbegun | unchecked | unrecorded => cases hr
  | aborted _ hearly =>
    obtain ⟨rfl, rfl⟩ := Prod.mk.inj (Except.ok.inj hr)
    exact ⟨rfl, [], fun _ hv => absurd hv List.not_mem_nil,
      .inr ⟨rfl, _, rfl, isEarlyTermination_iff.mp hearly⟩⟩
  | @next a _ _ o _ _ _ hlater _ ih =>
    obtain ⟨rest, rfl, hrest⟩ := Visits.of_ok_next hr.symm
    obtain ⟨hrecorded, init, hinit, hcase⟩ := ih hrest.symm
    have hinit' : ∀ v ∈ (⟨pra, a, o⟩ : VerdictRecord α) :: init, v.outcome ≠ .earlyTermination := by
      refine List.forall_mem_cons.mpr ⟨?_, hinit⟩
      rw [Ne, ← isEarlyTermination_iff, hlater]
      exact Bool.false_ne_true
    refine ⟨congrArg (List.cons _) hrecorded, _, hinit', ?_⟩
    rcases hcase with ⟨rfl, rfl, hall⟩ | ⟨rfl, v, rfl, hv⟩
    · exact .inl ⟨rfl, rfl, congrArg (List.cons a) hall⟩
    · exact .inr ⟨rfl, v, rfl, hv⟩

theorem count_tokens (vs : List (VerdictRecord α)) :
    vs.countP (·.outcome.token == "SAT") + vs.countP (·.outcome.token == "UNSAT") +
      vs.countP (·.outcome.token == "SKIPPED") + vs.countP (·.outcome.isEarlyTermination) =
      vs.length := by
  induction vs with
  | nil => rfl
  | cons v vs ih =>
    rw [List.length_cons, ← ih]
    obtain ⟨_, _, _ | _ | _ | _⟩ := v <;>
      simp [Outcome.token, Outcome.isEarlyTermination] <;> omega

theorem Visits.settles (h : Visits config pra as visits (.ok (verdicts, aborted))) :
    (⟨pra, verdicts, aborted⟩ : Report α).Settles as visits := by
  obtain ⟨hrecorded, init, hinit, hcase⟩ := h.verdicts_eq
  have hcount : init.countP (·.outcome.isEarlyTermination) = 0 := by
    rw [List.countP_eq_zero]
    exact fun v hv => fun hearly => hinit v hv (isEarlyTermination_iff.mp hearly)
  have htokens := count_tokens verdicts
  rcases hcase with ⟨rfl, rfl, hall⟩ | ⟨rfl, v, rfl, hv⟩
  · rw [hcount] at htokens
    refine ⟨hrecorded, fun v hv => hinit v (List.mem_of_mem_dropLast hv), ?_, fun _ => hall, htokens⟩
    refine iff_of_false Bool.false_ne_true ?_
    rintro ⟨v, hlast, hv⟩
    exact hinit v (List.mem_of_getLast? hlast) hv
  · have hone : (init ++ [v]).countP (·.outcome.isEarlyTermination) = 1 := by
      rw [List.countP_append, hcount, List.countP_singleton, isEarlyTermination_iff.mpr hv]
      rfl
    rw [hone] at htokens
    refine ⟨hrecorded, ?_, iff_of_true rfl ⟨v, List.getLast?_concat, hv⟩, nofun, htokens⟩
    rw [List.dropLast_concat]
    exact hinit

theorem Visits.protocol {candidates : List (Advisory α)} (hnodup : candidates.Nodup)
    {r : Except (Failure α) (List (VerdictRecord α) × Bool)}
    (h : Visits config pra candidates visits r) :
    Protocol config pra candidates visits (r.map fun p => ⟨pra, p.1, p.2⟩) where
  begun := h.begun
  once := hnodup.sublist h.begun.sublist
  orderly := h.orderly
  completed := h.completed
  stops := h.stops.imp fun f hf => by rw [hf]; rfl
  settles := fun report hreport => by
    cases r with
    | error f => cases hreport
    | ok p =>
      obtain rfl := Except.ok.inj hreport
      exact ⟨rfl, h.settles⟩
  broken := fun f hf => by
    cases r with
    | error f' => exact h.broken rfl
    | ok p => cases hf

end

end Campaign

namespace Campaign

variable [Scalar α] {σ : Type} {host : Host (StateM σ) α} {config : CampaignConfig α}

inductive Runs (config : CampaignConfig α) (pra : ℕ) :
    List (Event α) → Except (Failure α) (Report α) → Prop
  | unknown (h : pra = 0 ∨ 11 < pra) : Runs config pra [] (.error (.unknownAdvisory ⟨pra⟩))
  | unprepared {a : Advisory α} {dir : String} {f : Failure α} (ha : Advisory.ofIndex? pra = .ok a)
      (hdir : config.logsDir = some dir) :
      Runs config pra [⟨.prepareLogs dir, some f⟩] (.error f)
  | visited {a : Advisory α} {candidates : List (Advisory α)} {visits : List (Visit α)}
      {r : Except (Failure α) (Report α)} (ha : Advisory.ofIndex? pra = .ok a)
      (hcandidates : Advisory.candidates pra = .ok candidates)
      (h : Protocol config a candidates visits r) :
      Runs config pra (config.logsDir.toList.map (⟨.prepareLogs ·, none⟩) ++
        visits.flatMap (Visit.events a)) r

theorem traces_run (pra : ℕ) : Traces (run host.traced config pra) (run host config pra)
    (Runs config pra) := by
  unfold run
  rcases Advisory.known_or_unknown (α := α) pra with ⟨a, candidates, ha, hcandidates⟩ | ⟨h, hpra⟩
  · have hknown : (advisoryOf pra : Except (Failure α) (Advisory α)) = .ok a := by
      rw [advisoryOf, ha]
      rfl
    have hof : (candidatesOf pra : Except (Failure α) (List (Advisory α))) = .ok candidates := by
      rw [candidatesOf, hcandidates]
      rfl
    refine Traces.after_ok hknown (Traces.after_ok hof ?_)
    have hvisited : ∀ {visits r}, Visits config a ((numbered candidates).map Candidate.advisory)
        visits r → Protocol config a candidates visits (r.map fun p => ⟨a, p.1, p.2⟩) := by
      intro visits r h
      rw [map_advisory_numbered] at h
      exact h.protocol (Advisory.nodup_candidates hcandidates)
    have hreport : Traces (visit host.traced config a candidates (numbered candidates) >>=
          fun p => pure ⟨a, p.1, p.2⟩)
        (visit host config a candidates (numbered candidates) >>= fun p => pure ⟨a, p.1, p.2⟩)
        (fun events r => ∃ visits, events = visits.flatMap (Visit.events a) ∧
          Protocol config a candidates visits r) := by
      refine (traces_visit (numbered candidates)).bind (fun events f h => ?_) fun events p h => ?_
      · obtain ⟨visits, rfl, h⟩ := h
        exact ⟨visits, rfl, hvisited h⟩
      · obtain ⟨visits, rfl, h⟩ := h
        refine (traces_silent (.ok (Report.mk a p.1 p.2))).imp fun events r hr => ?_
        obtain ⟨rfl, rfl⟩ := hr
        exact ⟨visits, List.append_nil _, hvisited h⟩
    have hruns : ∀ events r, (∃ visits, events = visits.flatMap (Visit.events a) ∧
        Protocol config a candidates visits r) →
        Runs config pra (config.logsDir.toList.map (⟨.prepareLogs ·, none⟩) ++ events) r := by
      rintro _ r ⟨visits, rfl, h⟩
      exact .visited ha hcandidates h
    cases hdir : config.logsDir with
    | none =>
      rw [hdir] at hruns
      exact hreport.imp hruns
    | some dir =>
      rw [hdir] at hruns
      refine (traces_logged (.prepareLogs dir) (host.prepareLogs dir)).bind
        (fun events f h => ?_) fun events _ h => ?_
      · rw [h]
        exact .unprepared ha hdir
      · rw [h]
        exact hreport.imp hruns
  · have hunknown : (advisoryOf pra : Except (Failure α) (Advisory α)) =
        .error (.unknownAdvisory ⟨pra⟩) := by
      rw [advisoryOf, hpra]
      rfl
    exact Traces.after_error hunknown (.unknown h)

inductive RunsAll (config : CampaignConfig α) :
    List ℕ → List (Event α) → Except (Failure α) (List (Report α)) → Prop
  | done : RunsAll config [] [] (.ok [])
  | failed {pra : ℕ} {pras : List ℕ} {events : List (Event α)} {f : Failure α}
      (h : Runs config pra events (.error f)) : RunsAll config (pra :: pras) events (.error f)
  | aborted {pra : ℕ} {pras : List ℕ} {events : List (Event α)} {report : Report α}
      (h : Runs config pra events (.ok report)) (haborted : report.aborted = true) :
      RunsAll config (pra :: pras) events (.ok [report])
  | next {pra : ℕ} {pras : List ℕ} {events events' : List (Event α)} {report : Report α}
      {r : Except (Failure α) (List (Report α))} (h : Runs config pra events (.ok report))
      (hfinished : report.aborted = false) (hrest : RunsAll config pras events' r) :
      RunsAll config (pra :: pras) (events ++ events') (r.map (report :: ·))

theorem traces_runAll (pras : List ℕ) : Traces (runAll host.traced config pras)
    (runAll host config pras) (RunsAll config pras) := by
  induction pras with
  | nil =>
    refine (traces_silent (.ok [])).imp fun events r h => ?_
    rw [h.1, h.2]
    exact .done
  | cons pra pras ih =>
    unfold runAll
    refine (traces_run pra).bind (fun events f h => .failed h) fun events report h => ?_
    cases haborted : report.aborted with
    | true =>
      refine (traces_silent (.ok [report])).imp fun events' r hr => ?_
      rw [hr.1, hr.2, List.append_nil]
      exact .aborted h haborted
    | false =>
      refine ih.bind (fun events' f h' => .next h haborted h') fun events' reports h' => ?_
      refine (traces_silent (.ok (report :: reports))).imp fun events'' r hr => ?_
      rw [hr.1, hr.2, List.append_nil]
      exact .next h haborted h'

-- Nothing is asked of the host: it may fail or interrupt at any call.
theorem run_keeps_protocol (host : Host (StateM σ) α) (config : CampaignConfig α) :
    (∀ pra, Traces (run host.traced config pra) (run host config pra) (Runs config pra)) ∧
      ∀ pras, Traces (runAll host.traced config pras) (runAll host config pras)
        (RunsAll config pras) :=
  ⟨traces_run, traces_runAll⟩

end Campaign

end ReluVerify
