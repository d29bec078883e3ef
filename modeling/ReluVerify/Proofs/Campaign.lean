import ReluVerify.Proofs.Candidate

namespace ReluVerify

variable {K : Type} [Field K] [LinearOrder K] {σ : Type}

def Outcome.Right (o : Outcome K) (c : Constants K) (net : LayeredNetwork K)
    (candidates : List (Advisory K)) (k : Candidate K) : Prop :=
  if k.advisory.boundsRate then o.Settles c net candidates k else o = .skipped

namespace Host

structure Exact (host : Host (StateM σ) K) (net : LayeredNetwork K) : Prop where
  load : ∀ pra, host.load pra = pure net.toNetwork
  solve : ∀ q : Query K, q.Shaped → ∀ s, q.Answered ((host.solve q).run s).1

structure Keeps (host : Host (StateM σ) K) (I : σ → Prop) (E : Failure K → Prop)
    (recorded : VerdictRecord K → Prop) : Prop where
  prepareLogs : ∀ dir, Ends I (host.prepareLogs dir) (fun _ => True) E
  writeLog : ∀ path solved, Ends I (host.writeLog path solved) (fun _ => True) E
  begin : ∀ pra advisory, Ends I (host.begin pra advisory) (fun _ => True) E
  record : ∀ v, recorded v → Ends I (host.record v) (fun _ => True) E
  solve : ∀ q s, I s → I ((host.solve q).run s).2

inductive Fails (host : Host (StateM σ) K) : Failure K → Prop where
  | prepareLogs {dir : String} {s s' : σ} {e : Failure K}
      (h : (host.prepareLogs dir).run s = (.error e, s')) : Fails host e
  | writeLog {path : String} {solved : Solved K} {s s' : σ} {e : Failure K}
      (h : (host.writeLog path solved).run s = (.error e, s')) : Fails host e
  | begin {pra advisory : Advisory K} {s s' : σ} {e : Failure K}
      (h : (host.begin pra advisory).run s = (.error e, s')) : Fails host e
  | record {v : VerdictRecord K} {s s' : σ} {e : Failure K}
      (h : (host.record v).run s = (.error e, s')) : Fails host e

omit [Field K] [LinearOrder K] in
theorem ends_of_fails {step : ExceptT (Failure K) (StateM σ) Unit} {E : Failure K → Prop}
    (h : ∀ {e s s'}, step.run s = (.error e, s') → E e) :
    Ends (fun _ => True) step (fun _ => True) E := by
  intro s _
  rcases hrun : step.run s with ⟨e | _, s'⟩
  · exact ⟨h hrun, trivial⟩
  · exact ⟨trivial, trivial⟩

omit [Field K] [LinearOrder K] in
theorem keeps_fails (host : Host (StateM σ) K) (recorded : VerdictRecord K → Prop) :
    host.Keeps (fun _ => True) host.Fails recorded where
  prepareLogs := fun _ => ends_of_fails .prepareLogs
  writeLog := fun _ _ => ends_of_fails .writeLog
  begin := fun _ _ => ends_of_fails .begin
  record := fun _ _ => ends_of_fails .record
  solve := fun _ _ _ => trivial

end Host

namespace Campaign

variable {host : Host (StateM σ) K} {net : LayeredNetwork K} {I : σ → Prop}
  {E : Failure K → Prop} {recorded : VerdictRecord K → Prop}

theorem ends_load (h : ∀ pra, host.load pra = pure net.toNetwork) (pra : ℕ) :
    Ends I (host.load pra) (fun n => n = net.toNetwork) E :=
  h pra ▸ ends_pure rfl

theorem ends_solve (hkeeps : host.Keeps I E recorded) (log : Option String) {n : Network K}
    (hn : n.Allocated) {A : EngineOutput K → Prop}
    (hanswer : ∀ s, A ((host.solve (Query.compiled n)).run s).1) :
    Ends I (solve host log n) (fun v => ∃ out, A out ∧ v = Verdict.ofOutput out) E := by
  unfold solve
  have hcompile : (Query.compile n).mapError (Failure.malformed (α := K)) =
      .ok (Query.compiled n) := by
    rw [Query.compile_eq_ok.mpr ⟨hn, rfl⟩]
    rfl
  refine (ends_except hcompile).bind fun q hq => ?_
  subst hq
  have hsolve : Ends I (liftM (host.solve (Query.compiled n)) : ExceptT (Failure K) _ _) A E :=
    ends_state fun s hs => ⟨hanswer s, hkeeps.solve _ s hs⟩
  refine hsolve.bind fun out hout => ?_
  have hreturn : Ends I (pure (Verdict.ofOutput out) : ExceptT (Failure K) (StateM σ) _)
      (fun v => ∃ out, A out ∧ v = Verdict.ofOutput out) E :=
    ends_pure ⟨out, hout, rfl⟩
  cases log with
  | none => exact hreturn
  | some path => exact (hkeeps.writeLog path _).bind fun _ _ => hreturn

structure Fits (net : LayeredNetwork K) (c : Constants K) (candidates : List (Advisory K)) :
    Prop where
  positive : c.Positive
  wellFormed : net.WellFormed
  inputs : net.inputSize = 4
  outputs : net.outputSize = candidates.length
  standard : ∀ a ∈ candidates, a ∈ Advisory.all

theorem isEarlyTermination_of_right {o : Outcome K} {c : Constants K}
    {candidates : List (Advisory K)} {k : Candidate K} (h : o.Right c net candidates k) :
    o.isEarlyTermination = false := by
  unfold Outcome.Right at h
  split at h
  · rcases h.decided with rfl | ⟨cex, rfl⟩ <;> rfl
  · rw [h]
    rfl

variable {config : CampaignConfig K} {candidates : List (Advisory K)}

omit [Field K] [LinearOrder K] in
theorem mem_numbered {k : Candidate K} (hk : k ∈ numbered candidates) :
    candidates[k.position]? = some k.advisory := by
  obtain ⟨p, hp, rfl⟩ := List.mem_map.mp hk
  exact List.mem_zipIdx_iff_getElem?.mp hp

theorem ends_check [IsStrictOrderedRing K]
    (hload : ∀ pra, Ends I (host.load pra) (fun n => n = net.toNetwork) E)
    (hkeeps : host.Keeps I E recorded) (hfits : Fits net config.constants candidates)
    {Q : Candidate K → Outcome K → Prop}
    (hskipped : ∀ k, k.advisory.boundsRate = false → Q k .skipped)
    (hasked : ∀ k ∈ numbered candidates, k.advisory.boundsRate = true → ∀ n,
      question config.constants k net.toNetwork = .ok (some n) → Poses config.constants net k n →
      ∀ s, ∃ o, outcome config.constants candidates n
        (Verdict.ofOutput ((host.solve (Query.compiled n)).run s).1) = .ok o ∧ Q k o)
    (pra : Advisory K) {k : Candidate K} (hk : k ∈ numbered candidates) :
    Ends I (check host config pra candidates k) (Q k) E := by
  have hadvisory := mem_numbered hk
  have hposition : k.position < net.outputSize := by
    rw [hfits.outputs]
    exact (List.getElem?_eq_some_iff.mp hadvisory).1
  have houtputs : net.toNetwork.outputs.length = candidates.length := by
    rw [(LayeredNetwork.encodes_toNetwork hfits.wellFormed).length_outputs, hfits.outputs]
  unfold check
  cases hrate : k.advisory.boundsRate with
  | false => exact ends_pure (hskipped k hrate)
  | true =>
    have hdirected := Advisory.directed_of_mem
      (hfits.standard _ (List.mem_of_getElem? hadvisory)) hrate
    obtain ⟨n, hquestion, hposes⟩ := exists_question hfits.positive hfits.wellFormed hfits.inputs
      hdirected hposition
    simp only [Bool.not_true, Bool.false_eq_true, if_false]
    refine (hload pra.index).bind fun loaded hloaded => ?_
    subst hloaded
    simp only [houtputs, ne_eq, not_true_eq_false, if_false]
    refine (ends_except hquestion).bind fun asked heq => ?_
    subst heq
    have hsolve := ends_solve hkeeps (config.logPath pra k.advisory) hposes.allocated
      (A := fun out => ∃ o, outcome config.constants candidates n (Verdict.ofOutput out) = .ok o ∧
        Q k o) (hasked k hk hrate n hquestion hposes)
    refine hsolve.bind fun verdict hverdict => ?_
    obtain ⟨out, ⟨o, ho, hq⟩, rfl⟩ := hverdict
    exact (ends_except ho).mono fun _ heq => heq ▸ hq

inductive Visited (pra : Advisory K) (Q : Candidate K → Outcome K → Prop) :
    List (Candidate K) → List (VerdictRecord K) → Bool → Prop
  | nil : Visited pra Q [] [] false
  | last {k : Candidate K} {rest : List (Candidate K)} {o : Outcome K} (h : Q k o)
      (hearly : o.isEarlyTermination = true) :
      Visited pra Q (k :: rest) [⟨pra, k.advisory, o⟩] true
  | next {k : Candidate K} {rest : List (Candidate K)} {o : Outcome K}
      {verdicts : List (VerdictRecord K)} {aborted : Bool} (h : Q k o)
      (hlater : o.isEarlyTermination = false) (hrest : Visited pra Q rest verdicts aborted) :
      Visited pra Q (k :: rest) (⟨pra, k.advisory, o⟩ :: verdicts) aborted

omit [Field K] [LinearOrder K] in
theorem getElem?_of_visited {pra : Advisory K} {Q : Candidate K → Outcome K → Prop}
    {ks : List (Candidate K)} {verdicts : List (VerdictRecord K)} {aborted : Bool}
    (h : Visited pra Q ks verdicts aborted) {i : ℕ} {v : VerdictRecord K}
    (hv : verdicts[i]? = some v) : ∃ k o, ks[i]? = some k ∧ v = ⟨pra, k.advisory, o⟩ ∧ Q k o := by
  induction h generalizing i with
  | nil => cases hv
  | @last k _ o h _ =>
    cases i with
    | zero => exact ⟨k, o, rfl, (Option.some.inj hv).symm, h⟩
    | succ i => cases hv
  | @next k _ o _ _ h _ _ ih =>
    cases i with
    | zero => exact ⟨k, o, rfl, (Option.some.inj hv).symm, h⟩
    | succ i => exact ih hv

theorem ends_visit {pra : Advisory K} {Q : Candidate K → Outcome K → Prop}
    (hkeeps : host.Keeps I E recorded)
    (hcheck : ∀ k ∈ numbered candidates, Ends I (check host config pra candidates k) (Q k) E)
    (hrecorded : ∀ k ∈ numbered candidates, ∀ o, Q k o → recorded ⟨pra, k.advisory, o⟩)
    {ks : List (Candidate K)} (hks : ∀ k ∈ ks, k ∈ numbered candidates) :
    Ends I (visit host config pra candidates ks) (fun r => Visited pra Q ks r.1 r.2) E := by
  induction ks with
  | nil => exact ends_pure .nil
  | cons k rest ih =>
    obtain ⟨hk, hrest⟩ := List.forall_mem_cons.mp hks
    unfold visit
    refine (hkeeps.begin pra k.advisory).bind fun _ _ => ?_
    refine (hcheck k hk).bind fun o ho => ?_
    refine (hkeeps.record _ (hrecorded k hk o ho)).bind fun _ _ => ?_
    cases hearly : o.isEarlyTermination with
    | true => exact ends_pure (.last ho hearly)
    | false => exact (ih hrest).bind fun r hr => ends_pure (.next ho hearly hr)

theorem ends_run_of_check {pra : ℕ} (hcandidates : Advisory.candidates pra = .ok candidates)
    {a : Advisory K} (ha : Advisory.ofIndex? pra = .ok a) {Q : Candidate K → Outcome K → Prop}
    (hkeeps : host.Keeps I E recorded)
    (hcheck : ∀ k ∈ numbered candidates, Ends I (check host config a candidates k) (Q k) E)
    (hrecorded : ∀ k ∈ numbered candidates, ∀ o, Q k o → recorded ⟨a, k.advisory, o⟩) :
    Ends I (run host config pra) (fun report => report.pra = a ∧
      Visited a Q (numbered candidates) report.verdicts report.aborted) E := by
  have hpra : (advisoryOf pra : Except (Failure K) (Advisory K)) = .ok a := by
    rw [advisoryOf, ha]
    rfl
  have hof : (candidatesOf pra : Except (Failure K) (List (Advisory K))) = .ok candidates := by
    rw [candidatesOf, hcandidates]
    rfl
  unfold run
  refine (ends_except hpra).bind fun a' ha' => ?_
  refine (ends_except hof).bind fun candidates' hcandidates' => ?_
  subst ha' hcandidates'
  have hreport : ∀ r : List (VerdictRecord K) × Bool,
      Visited a' Q (numbered candidates') r.1 r.2 →
      Ends I (pure ⟨a', r.1, r.2⟩ : ExceptT (Failure K) (StateM σ) (Report K))
        (fun report => report.pra = a' ∧
          Visited a' Q (numbered candidates') report.verdicts report.aborted) E :=
    fun r hr => ends_pure ⟨rfl, hr⟩
  have hvisit := (ends_visit hkeeps hcheck hrecorded fun k hk => hk).bind hreport
  cases config.logsDir with
  | none => exact hvisit
  | some dir => exact (hkeeps.prepareLogs dir).bind fun _ _ => hvisit

omit [Field K] [LinearOrder K] in
theorem numbered_getElem? {position : ℕ} {k : Candidate K}
    (h : (numbered candidates)[position]? = some k) :
    candidates[position]? = some k.advisory ∧ k.position = position := by
  rw [numbered, List.getElem?_map, List.getElem?_zipIdx, Option.map_map] at h
  obtain ⟨a, ha, rfl⟩ := Option.map_eq_some_iff.mp h
  exact ⟨ha, zero_add position⟩

theorem ends_run [IsStrictOrderedRing K]
    (hload : ∀ pra, Ends I (host.load pra) (fun n => n = net.toNetwork) E)
    (hsolve : ∀ q : Query K, q.Shaped → ∀ s, q.Answered ((host.solve q).run s).1) {pra : ℕ}
    (hcandidates : Advisory.candidates pra = .ok candidates) (hkeeps : host.Keeps I E
      fun v => ∃ k ∈ numbered candidates, v.advisory = k.advisory ∧
        v.outcome.Right config.constants net candidates k)
    (hfits : Fits net config.constants candidates) :
    Ends I (run host config pra) (fun _ => True) E := by
  obtain ⟨a, ha⟩ := Advisory.exists_advisory hcandidates
  have hcheck : ∀ k ∈ numbered candidates, Ends I (check host config a candidates k)
      (fun o => o.Right config.constants net candidates k) E := by
    refine fun k hk => ends_check (Q := fun k o => o.Right config.constants net candidates k)
      hload hkeeps hfits (fun k hrate => ?_) (fun k _ hrate n _ hposes s => ?_) a hk
    · simp [Outcome.Right, hrate]
    · simp only [Outcome.Right, hrate, if_true]
      exact exists_outcome hfits.positive hposes hfits.outputs
        (hsolve _ (Query.shaped_compiled hposes.allocated) s)
  exact (ends_run_of_check hcandidates ha hkeeps hcheck
    fun k hk o ho => ⟨k, hk, rfl, ho⟩).mono fun _ _ => trivial

def keeping (answer : Query K → EngineOutput K) (net : LayeredNetwork K) :
    Host (StateM (List (VerdictRecord K))) K where
  prepareLogs _ := pure ()
  load _ := pure net.toNetwork
  solve q := pure (answer q)
  writeLog _ _ := pure ()
  begin _ _ := pure ()
  record v := modify (· ++ [v])

theorem keeps_keeping (answer : Query K → EngineOutput K) (net : LayeredNetwork K)
    (P : VerdictRecord K → Prop) :
    (keeping answer net).Keeps (fun log => ∀ v ∈ log, P v) (fun _ => False) P where
  prepareLogs := fun _ => ends_pure trivial
  writeLog := fun _ _ => ends_pure trivial
  begin := fun _ _ => ends_pure trivial
  record := fun _ hv _ hlog =>
    ⟨trivial, List.forall_mem_append.mpr ⟨hlog, List.forall_mem_singleton.mpr hv⟩⟩
  solve := fun _ _ hlog => hlog

def afterDnc : List (Advisory ℚ) := [⟨1, "COC", 0, 0⟩, ⟨2, "DNC", -1, 0⟩, ⟨3, "DND", 1, 0⟩,
  ⟨4, "MAINTAIN", 0, 0⟩, ⟨7, "SDES1500", -1, Advisory.perMinute (-1500.0)⟩,
  ⟨8, "SCL1500", 1, Advisory.perMinute 1500.0⟩]

end Campaign

end ReluVerify
