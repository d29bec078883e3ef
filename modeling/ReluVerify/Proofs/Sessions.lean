import ReluVerify.Campaign.Store
import ReluVerify.Proofs.Protocol
import ReluVerify.Proofs.Storage

namespace ReluVerify

variable {α : Type} {σ : Type}

structure Session (σ α : Type) where
  load : ℕ → FileTree → ExceptT (Failure α) (StateM σ) (Network α)
  solve : Query α → FileTree → StateM σ (EngineOutput α)
  engine : String
  config : CampaignConfig α
  pra : ℕ

namespace Session

def files : Files (StateM (σ × FileTree)) := FileTree.filesIn Prod.snd fun t s => (s.1, t)

-- The loader and the engine may read all files and keep a state of their own, but write no file.
def host (records : RecordFormat α) (dir : String) (x : Session σ α) :
    Host (StateM (σ × FileTree)) α where
  prepareLogs := Campaign.makeDirs files
  load pra := ExceptT.mk fun s =>
    (((x.load pra s.2).run s.1).1, (((x.load pra s.2).run s.1).2, s.2))
  solve q := fun s => (((x.solve q s.2).run s.1).1, (((x.solve q s.2).run s.1).2, s.2))
  writeLog := Campaign.writeLog files x.engine
  begin := Campaign.beginFile files records dir
  record := Campaign.recordFile files records dir

def networkIn (numbers : NumberFormat α) (path : String) (tree : FileTree) :
    Except (Failure α) (LayeredNetwork α) :=
  match tree.read? path with
  | none => .error (.networkFile path)
  | some text => (LayeredText.parse numbers text).mapError Failure.networkText

theorem run_read (numbers : NumberFormat α) (path : String) (s : σ) (tree : FileTree) :
    (Layered.read files numbers path).run (s, tree) = (networkIn numbers path tree, (s, tree)) := by
  have hread : (liftM ((files : Files (StateM (σ × FileTree))).read? path) :
      ExceptT (Failure α) (StateM (σ × FileTree)) _).run (s, tree) =
      (.ok (tree.read? path), (s, tree)) := rfl
  unfold Layered.read networkIn
  rw [run_bind_of_ok hread]
  cases tree.read? path <;> rfl

variable [Scalar α]

def ofFiles (numbers : NumberFormat α) (config : CampaignConfig α) (engine : Engine α)
    (pra : ℕ) : Session σ α where
  load index tree := liftM ((networkIn numbers (config.networkPath index) tree).map
    LayeredNetwork.toNetwork)
  solve q _ := pure (engine.run q false)
  engine := engine.name
  config := config
  pra := pra

theorem host_ofFiles (numbers : NumberFormat α) (records : RecordFormat α)
    (config : CampaignConfig α) (engine : Engine α) (pra : ℕ) :
    (ofFiles numbers config engine pra : Session σ α).host records config.resultsDir =
      Campaign.fileHost files numbers records config engine := by
  have hload : ((ofFiles numbers config engine pra : Session σ α).host records
      config.resultsDir).load = (Campaign.fileHost files numbers records config engine).load := by
    funext index ⟨s, tree⟩
    have hrun := run_read numbers (config.networkPath index) s tree
    change ((networkIn numbers (config.networkPath index) tree).map LayeredNetwork.toNetwork,
      (s, tree)) = ((Layered.read files numbers (config.networkPath index) >>=
        fun net => pure net.toNetwork : ExceptT (Failure α) (StateM (σ × FileTree)) _)).run (s, tree)
    cases hnet : networkIn numbers (config.networkPath index) tree with
    | error e =>
      rw [hnet] at hrun
      rw [run_bind_of_error hrun]
      rfl
    | ok net =>
      rw [hnet] at hrun
      rw [run_bind_of_ok hrun]
      rfl
  unfold host Campaign.fileHost
  congr 1

end Session

section

variable {config : CampaignConfig α} {pra : Advisory α} {w : Visit α} (h : w.Orderly config pra)

include h

theorem Visit.Orderly.begun_of_mem {e : Event α} (he : e ∈ w.consulted) : w.begun = none := by
  cases hbegun : w.begun with
  | none => rfl
  | some f =>
    rw [(h.unbegun f hbegun).1] at he
    cases he

theorem Visit.Orderly.begun_of_recorded {r : VerdictRecord α × Option (Failure α)}
    (hr : w.recorded = some r) : w.begun = none := by
  cases hbegun : w.begun with
  | none => rfl
  | some f =>
    rw [(h.unbegun f hbegun).2] at hr
    cases hr

theorem Visit.Orderly.logPath_of_mem {path : String} {solved : Solved α} {f : Option (Failure α)}
    (he : ⟨.writeLog path solved, f⟩ ∈ w.consulted) :
    config.logPath pra w.advisory = some path := by
  obtain ⟨_, hcalls⟩ := h.ordered
  have hmem := hcalls.subset (List.mem_map_of_mem he)
  simp only [Campaign.consultation, List.mem_cons, List.mem_map, reduceCtorEq, false_or,
    Option.mem_toList] at hmem
  obtain ⟨path', hpath, hcall⟩ := hmem
  cases hcall
  exact hpath

theorem Visit.Orderly.eq_of_record {front back : List (Event α)} {v : VerdictRecord α}
    {f : Option (Failure α)} (hevents : w.events pra = front ++ ⟨.record v, f⟩ :: back) :
    front = ⟨.begin v.pra v.advisory, none⟩ :: w.consulted := by
  have hconsulted : (⟨.record v, f⟩ : Event α) ∉ ⟨.begin pra w.advisory, w.begun⟩ :: w.consulted :=
    fun hmem => nomatch h.sinkless _ ((List.mem_cons.mp hmem).resolve_left nofun)
  cases hrecorded : w.recorded with
  | none =>
    rw [Visit.events, hrecorded, Option.toList_none, List.map_nil, List.append_nil] at hevents
    exact absurd (hevents ▸ List.mem_append_right _ List.mem_cons_self) hconsulted
  | some r =>
    rw [Visit.events, hrecorded, Option.toList_some, List.map_singleton, ← List.cons_append] at hevents
    obtain ⟨rfl, hevent, -⟩ := (List.append_cons_inj_of_notMem hconsulted List.not_mem_nil).mp hevents
    cases hevent
    obtain ⟨hpra, hadvisory⟩ := h.recorded r hrecorded
    rw [h.begun_of_recorded hrecorded, hpra, hadvisory]

end

namespace Campaign

variable [Scalar α]

section

variable {τ : Type} (host : Session σ α → Host (StateM τ) α)

def runSessions : List (Session σ α) → StateM τ (List (Except (Failure α) (Report α)))
  | [] => pure []
  | x :: rest => do
      let report ← (run (host x) x.config x.pra).run
      let reports ← runSessions rest
      return report :: reports

end

-- The calls of a whole history, visit after visit: whose they are does not matter.
inductive Tale (xs : List (Session σ α)) : List (Event α) → Prop
  | nil : Tale xs []
  | prepared {dir : String} {f : Option (Failure α)} {events : List (Event α)}
      (hrest : Tale xs events) : Tale xs (⟨.prepareLogs dir, f⟩ :: events)
  | visited {x : Session σ α} {pra : Advisory α} {v : Visit α} {events : List (Event α)}
      (hx : x ∈ xs) (hpra : pra ∈ Advisory.all) (hadvisory : v.advisory ∈ Advisory.all)
      (h : v.Orderly x.config pra) (hrest : Tale xs events) : Tale xs (v.events pra ++ events)

theorem tale_of_visits {xs : List (Session σ α)} {x : Session σ α} (hx : x ∈ xs)
    {pra : Advisory α} (hpra : pra ∈ Advisory.all) {visits : List (Visit α)}
    (hvisits : ∀ v ∈ visits, v.advisory ∈ Advisory.all ∧ v.Orderly x.config pra)
    {events : List (Event α)} (hevents : Tale xs events) :
    Tale xs (visits.flatMap (Visit.events pra) ++ events) := by
  induction visits with
  | nil => exact hevents
  | cons v visits ih =>
    obtain ⟨⟨hadvisory, hv⟩, hvisits⟩ := List.forall_mem_cons.mp hvisits
    rw [List.flatMap_cons, List.append_assoc]
    exact .visited hx hpra hadvisory hv (ih hvisits)

theorem tale_of_runs {xs : List (Session σ α)} {x : Session σ α} (hx : x ∈ xs)
    {events events' : List (Event α)} {r : Except (Failure α) (Report α)}
    (h : Runs x.config x.pra events r) (hevents' : Tale xs events') :
    Tale xs (events ++ events') := by
  cases h with
  | unknown => exact hevents'
  | unprepared => exact .prepared hevents'
  | @visited pra candidates visits _ ha hcandidates hprotocol =>
    have hvisits := tale_of_visits hx (Advisory.mem_all_of_ofIndex? ha)
      (fun v hv => ⟨Advisory.mem_all_of_candidates hcandidates
        (hprotocol.begun.subset (List.mem_map_of_mem hv)), hprotocol.orderly v hv⟩) hevents'
    rw [List.append_assoc]
    cases x.config.logsDir with
    | none => exact hvisits
    | some dir => exact .prepared hvisits

theorem tale_of_runsAll {xs : List (Session σ α)} {config : CampaignConfig α} {pras : List ℕ}
    (hpras : ∀ pra ∈ pras, ∃ x ∈ xs, x.config = config ∧ x.pra = pra)
    {events events' : List (Event α)} {r : Except (Failure α) (List (Report α))}
    (h : RunsAll config pras events r) (hevents' : Tale xs events') :
    Tale xs (events ++ events') := by
  induction h with
  | done => exact hevents'
  | failed h | aborted h _ =>
    obtain ⟨x, hx, rfl, rfl⟩ := hpras _ List.mem_cons_self
    exact tale_of_runs hx h hevents'
  | next h _ _ ih =>
    obtain ⟨x, hx, rfl, rfl⟩ := hpras _ List.mem_cons_self
    rw [List.append_assoc]
    exact tale_of_runs hx h (ih fun pra hpra => hpras pra (List.mem_cons_of_mem _ hpra))

theorem traces_runSessions {τ : Type} (host : Session σ α → Host (StateM τ) α)
    {xs ys : List (Session σ α)} (hys : ys ⊆ xs) (s : τ) (log : List (Event α)) : ∃ events,
    (runSessions (fun x => (host x).traced) ys).run (s, log) =
      (((runSessions host ys).run s).1, (((runSessions host ys).run s).2, log ++ events)) ∧
    Tale xs events := by
  induction ys generalizing s log with
  | nil => exact ⟨[], by rw [List.append_nil]; rfl, .nil⟩
  | cons x ys ih =>
    obtain ⟨hx, hys⟩ := List.cons_subset.mp hys
    have htraces : Traces (run (host x).traced x.config x.pra) (run (host x) x.config x.pra)
        (Runs x.config x.pra) := traces_run x.pra
    obtain ⟨events, hrun, hevents⟩ := htraces s log
    obtain ⟨events', hrest, hevents'⟩ :=
      ih hys ((run (host x) x.config x.pra).run s).2 (log ++ events)
    refine ⟨events ++ events', ?_, tale_of_runs hx hevents hevents'⟩
    have htraced : (runSessions (fun x => (host x).traced) (x :: ys)).run (s, log) =
        (((run (host x).traced x.config x.pra).run (s, log)).1 ::
          ((runSessions (fun x => (host x).traced) ys).run
            ((run (host x).traced x.config x.pra).run (s, log)).2).1,
          ((runSessions (fun x => (host x).traced) ys).run
            ((run (host x).traced x.config x.pra).run (s, log)).2).2) := rfl
    rw [htraced, hrun, hrest, List.append_assoc]
    rfl

section

variable {xs : List (Session σ α)} {events : List (Event α)} (h : Tale xs events)

include h

theorem Tale.standard {pra advisory : Advisory α} {f : Option (Failure α)}
    (he : ⟨.begin pra advisory, f⟩ ∈ events) :
    pra ∈ Advisory.all ∧ advisory ∈ Advisory.all := by
  induction h with
  | nil => cases he
  | prepared _ ih => exact ih ((List.mem_cons.mp he).resolve_left nofun)
  | @visited x p v events hx hpra hadvisory hv _ ih =>
    rcases List.mem_append.mp he with he | he
    · simp only [Visit.events, List.mem_cons, List.mem_append, List.mem_map] at he
      rcases he with he | he | ⟨r, _, he⟩
      · cases he
        exact ⟨hpra, hadvisory⟩
      · cases hv.sinkless _ he
      · cases he
    · exact ih he

theorem Tale.paired {front back : List (Event α)} {v : VerdictRecord α} {f : Option (Failure α)}
    (hevents : events = front ++ ⟨.record v, f⟩ :: back) : ∃ before between,
      front = before ++ ⟨.begin v.pra v.advisory, none⟩ :: between ∧
        ∀ e ∈ between, e.call.isSink = false := by
  induction h generalizing front with
  | nil => exact absurd hevents.symm (by simp)
  | prepared _ ih =>
    cases front with
    | nil => cases hevents
    | cons e front =>
      obtain ⟨rfl, hrest⟩ := List.cons.inj hevents
      obtain ⟨before, between, rfl, hbetween⟩ := ih hrest
      exact ⟨_ :: before, between, rfl, hbetween⟩
  | @visited _ _ _ events _ _ _ hw _ ih =>
    rcases List.append_eq_append_iff.mp hevents with ⟨front, rfl, hrest⟩ | ⟨rest, hvisit, hback⟩
    · obtain ⟨before, between, rfl, hbetween⟩ := ih hrest
      exact ⟨_, between, (List.append_assoc _ _ _).symm, hbetween⟩
    cases rest with
    | nil =>
      have hrest : events = [] ++ ⟨.record v, f⟩ :: back := hback.symm
      obtain ⟨before, between, hnil, _⟩ := ih hrest
      exact absurd hnil (by simp)
    | cons e rest =>
      obtain ⟨rfl, -⟩ := List.cons.inj hback
      obtain rfl := hw.eq_of_record hvisit
      exact ⟨[], _, rfl, hw.sinkless⟩

theorem Tale.logged {path : String} {solved : Solved α} {f : Option (Failure α)}
    (he : ⟨.writeLog path solved, f⟩ ∈ events) : ∃ x ∈ xs, ∃ pra advisory,
      ⟨.begin pra advisory, none⟩ ∈ events ∧ x.config.logPath pra advisory = some path := by
  induction h with
  | nil => cases he
  | prepared _ ih =>
    obtain ⟨x, hx, pra, advisory, hbegin, hpath⟩ := ih ((List.mem_cons.mp he).resolve_left nofun)
    exact ⟨x, hx, pra, advisory, List.mem_cons_of_mem _ hbegin, hpath⟩
  | @visited x p v events hx hpra hadvisory hv _ ih =>
    rcases List.mem_append.mp he with he | he
    · simp only [Visit.events, List.mem_cons, reduceCtorEq, Event.mk.injEq, false_and, false_or,
        List.mem_append, List.mem_map, exists_false, and_false, or_false] at he
      refine ⟨x, hx, p, v.advisory, ?_, hv.logPath_of_mem he⟩
      rw [← hv.begun_of_mem he]
      exact List.mem_append_left _ List.mem_cons_self
    · obtain ⟨x, hx, pra, advisory, hbegin, hpath⟩ := ih he
      exact ⟨x, hx, pra, advisory, List.mem_append_right _ hbegin, hpath⟩

end

end Campaign

end ReluVerify
