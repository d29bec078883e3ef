import ReluVerify.Command.Run
import ReluVerify.Proofs.History

namespace ReluVerify

variable {α : Type} [Scalar α] {σ : Type}

-- The files after runs that share a directory: each is the result of a begun pair, a log, or as it
-- was before.
structure Filed (records : RecordFormat α) (dir : String) (xs : List (Session σ α))
    (tree tree' : FileTree) (events : List (Event α)) : Prop where
  cwd : tree'.cwd = tree.cwd
  standard : ∀ pra advisory f, ⟨.begin pra advisory, f⟩ ∈ events →
    pra ∈ Advisory.all ∧ advisory ∈ Advisory.all
  recorded : ∀ pra advisory before after v,
    events = before ++ ⟨.begin pra advisory, none⟩ :: after →
    ⟨.begin pra advisory, none⟩ ∉ after → ⟨.record v, none⟩ ∈ after →
    v.pra = pra → v.advisory = advisory →
    tree'.read? (CampaignConfig.resultPath dir pra advisory) = some (v.render records)
  unrecorded : ∀ pra advisory before after,
    events = before ++ ⟨.begin pra advisory, none⟩ :: after →
    ⟨.begin pra advisory, none⟩ ∉ after →
    (∀ v, ⟨.record v, none⟩ ∈ after → v.pra = pra → v.advisory ≠ advisory) →
    tree'.read? (CampaignConfig.resultPath dir pra advisory) =
      some (VerdictRecord.header records pra advisory)
  distinct : ∀ pra advisory pra' advisory' : Advisory α, pra ∈ Advisory.all →
    advisory ∈ Advisory.all → pra' ∈ Advisory.all → advisory' ∈ Advisory.all →
    tree.resultPlace dir pra advisory = tree.resultPlace dir pra' advisory' →
    pra = pra' ∧ advisory = advisory'
  unbegun : ∀ pra advisory : Advisory α, pra ∈ Advisory.all → advisory ∈ Advisory.all →
    ⟨.begin pra advisory, none⟩ ∉ events →
    tree'.text? (tree.resultPlace dir pra advisory) = tree.text? (tree.resultPlace dir pra advisory)
  logged : ∀ path solved f, ⟨.writeLog path solved, f⟩ ∈ events → ∃ x ∈ xs, ∃ pra advisory,
    ⟨.begin pra advisory, none⟩ ∈ events ∧ x.config.logPath pra advisory = some path
  frame : ∀ q, (∀ pra advisory, ⟨.begin pra advisory, none⟩ ∈ events →
      q ≠ tree.resultPlace dir pra advisory) →
    (∀ path solved, ⟨.writeLog path solved, none⟩ ∈ events → q ≠ tree.place path) →
    tree'.text? q = tree.text? q

namespace Campaign

theorem eq_of_last {β : Type} {b : β} {front back front' back' : List β} (hback : b ∉ back)
    (hback' : b ∉ back') (h : front ++ b :: back = front' ++ b :: back') : back = back' := by
  rcases List.append_eq_append_iff.mp h with ⟨between, -, hrest⟩ | ⟨between, -, hrest⟩
  · cases between with
    | nil => exact (List.cons.inj hrest).2
    | cons _ between =>
      rw [(List.cons.inj hrest).2] at hback
      exact absurd (List.mem_append_right _ List.mem_cons_self) hback
  · cases between with
    | nil => exact (List.cons.inj hrest).2.symm
    | cons _ between =>
      rw [(List.cons.inj hrest).2] at hback'
      exact absurd (List.mem_append_right _ List.mem_cons_self) hback'

section

variable {records : RecordFormat α} {tree : FileTree} {dir : String} {xs : List (Session σ α)}
  {events : List (Event α)} (h : Tale xs events)

include h

theorem Tale.begun_of_record {v : VerdictRecord α} {f : Option (Failure α)}
    (he : ⟨.record v, f⟩ ∈ events) : ⟨.begin v.pra v.advisory, none⟩ ∈ events := by
  obtain ⟨front, back, hevents⟩ := List.append_of_mem he
  obtain ⟨before, between, rfl, _⟩ := h.paired hevents
  rw [hevents, List.append_assoc]
  exact List.mem_append_right _ List.mem_cons_self

theorem Tale.sinkless_after {before after front back : List (Event α)} {v : VerdictRecord α}
    {f : Option (Failure α)}
    (hevents : events = before ++ ⟨.begin v.pra v.advisory, none⟩ :: after)
    (hlatest : ⟨.begin v.pra v.advisory, none⟩ ∉ after)
    (hafter : after = front ++ ⟨.record v, f⟩ :: back) : ∀ e ∈ front, e.call.isSink = false := by
  subst hafter
  have hfront : events = (before ++ ⟨.begin v.pra v.advisory, none⟩ :: front) ++
      ⟨.record v, f⟩ :: back := by
    rw [hevents, List.append_assoc, List.cons_append]
  obtain ⟨before', between, heq, hbetween⟩ := h.paired hfront
  have hnot : (⟨.begin v.pra v.advisory, none⟩ : Event α) ∉ between :=
    fun hmem => nomatch hbetween _ hmem
  rwa [eq_of_last (fun hmem => hlatest (List.mem_append_left _ hmem)) hnot heq]

variable {pra advisory : Advisory α} (hpra : pra ∈ Advisory.all)
  (hadvisory : advisory ∈ Advisory.all)

include hpra hadvisory

theorem Tale.untouched {e : Event α} (he : e ∈ events) (hbegin : e ≠ ⟨.begin pra advisory, none⟩)
    (hrecord : ∀ v, e = ⟨.record v, none⟩ → v.pra = pra → v.advisory ≠ advisory)
    (old : Option String) :
    touch records tree dir (tree.resultPlace dir pra advisory) old e = old := by
  obtain ⟨call, _ | f⟩ := e
  case some => exact touch_failed records tree dir _ old call f
  cases call with
  | prepareLogs | load | solve | writeLog => rfl
  | begin pra' advisory' =>
    obtain ⟨hpra', hadvisory'⟩ := h.standard he
    rw [touch_begin, if_neg]
    intro hplace
    obtain ⟨rfl, rfl⟩ := resultPlace_injective hpra hadvisory hpra' hadvisory' hplace
    exact hbegin rfl
  | record v =>
    obtain ⟨hpra', hadvisory'⟩ := h.standard (h.begun_of_record he)
    rw [touch_record, if_neg]
    intro hplace
    obtain ⟨rfl, rfl⟩ := resultPlace_injective hpra hadvisory hpra' hadvisory' hplace
    exact hrecord v rfl rfl rfl

theorem Tale.not_logged : ∀ path solved, ⟨.writeLog path solved, none⟩ ∈ events →
    tree.resultPlace dir pra advisory ≠ tree.place path := by
  intro path solved he
  obtain ⟨x, _, pra', advisory', hbegin, hpath⟩ := h.logged he
  obtain ⟨hpra', hadvisory'⟩ := h.standard hbegin
  exact resultPlace_ne_log hpra hadvisory hpra' hadvisory' hpath

end

omit [Scalar α] in
theorem foldl_touch {records : RecordFormat α} {tree : FileTree} {dir : String} {q : Place}
    {events : List (Event α)} (h : ∀ e ∈ events, ∀ old, touch records tree dir q old e = old)
    (old : Option String) :
    events.foldl (touch records tree dir q) old = old := by
  induction events with
  | nil => rfl
  | cons e events ih =>
    obtain ⟨he, hevents⟩ := List.forall_mem_cons.mp h
    rw [List.foldl_cons, he, ih hevents]

section

variable {records : RecordFormat α} {dir : String} {xs : List (Session σ α)} {tree t : FileTree}
  {events before after : List (Event α)} (h : Tale xs events)
  (ht : Tells records dir tree t events) {pra advisory : Advisory α}
  (hevents : events = before ++ ⟨.begin pra advisory, none⟩ :: after)

include h ht hevents

theorem read?_of_begun : t.read? (CampaignConfig.resultPath dir pra advisory) =
    after.foldl (touch records tree dir (tree.resultPlace dir pra advisory))
      (some (VerdictRecord.header records pra advisory)) := by
  have hmem : (⟨.begin pra advisory, none⟩ : Event α) ∈ events :=
    hevents ▸ List.mem_append_right _ List.mem_cons_self
  obtain ⟨hpra, hadvisory⟩ := h.standard hmem
  rw [FileTree.read?, ht.found pra advisory hmem, Option.bind_some,
    ht.text _ (h.not_logged hpra hadvisory), hevents, List.foldl_append, List.foldl_cons,
    touch_begin, if_pos rfl]

variable (hlatest : ⟨.begin pra advisory, none⟩ ∉ after)

include hlatest

theorem read?_of_unrecorded
    (hunrecorded : ∀ v, ⟨.record v, none⟩ ∈ after → v.pra = pra → v.advisory ≠ advisory) :
    t.read? (CampaignConfig.resultPath dir pra advisory) =
      some (VerdictRecord.header records pra advisory) := by
  have hmem : ∀ e ∈ after, e ∈ events := fun e he =>
    hevents ▸ List.mem_append_right _ (List.mem_cons_of_mem _ he)
  obtain ⟨hpra, hadvisory⟩ := h.standard (hevents ▸ List.mem_append_right _ List.mem_cons_self)
  rw [read?_of_begun h ht hevents]
  refine foldl_touch (fun e he old => ?_) _
  refine h.untouched hpra hadvisory (hmem e he) (fun heq => hlatest (heq ▸ he)) ?_ old
  exact fun v heq => hunrecorded v (heq ▸ he)

theorem read?_of_recorded {v : VerdictRecord α} (hv : ⟨.record v, none⟩ ∈ after)
    (hpra : v.pra = pra) (hadvisory : v.advisory = advisory) :
    t.read? (CampaignConfig.resultPath dir pra advisory) = some (v.render records) := by
  subst hpra hadvisory
  obtain ⟨front, back, hafter⟩ := List.append_of_mem hv
  have hmem : ∀ e ∈ after, e ∈ events := fun e he =>
    hevents ▸ List.mem_append_right _ (List.mem_cons_of_mem _ he)
  obtain ⟨hpra, hadvisory⟩ := h.standard (hevents ▸ List.mem_append_right _ List.mem_cons_self)
  have hfront := h.sinkless_after hevents hlatest hafter
  -- A second record would need a second begin between the two.
  have hback : ∀ w, ⟨.record w, none⟩ ∈ back → w.pra = v.pra → w.advisory ≠ v.advisory := by
    intro w hw hwpra hwadvisory
    obtain ⟨front', back', rfl⟩ := List.append_of_mem hw
    have hsecond : after = (front ++ ⟨.record v, none⟩ :: front') ++ ⟨.record w, none⟩ :: back' := by
      rw [hafter, List.append_assoc, List.cons_append]
    have hsinkless := h.sinkless_after (v := w) (hwpra ▸ hwadvisory ▸ hevents)
      (hwpra ▸ hwadvisory ▸ hlatest) hsecond
    exact nomatch hsinkless _ (List.mem_append_right _ List.mem_cons_self)
  subst hafter
  let place := tree.resultPlace dir v.pra v.advisory
  have hquiet : ∀ old, front.foldl (touch records tree dir place) old = old :=
    foldl_touch fun e he => h.untouched hpra hadvisory (hmem e (List.mem_append_left _ he))
      (fun heq => nomatch heq ▸ hfront e he) fun w heq => nomatch heq ▸ hfront e he
  have hquiet' : ∀ old, back.foldl (touch records tree dir place) old = old :=
    foldl_touch fun e he => by
      have hafter : e ∈ front ++ ⟨.record v, none⟩ :: back :=
        List.mem_append_right _ (List.mem_cons_of_mem _ he)
      exact h.untouched hpra hadvisory (hmem e hafter) (fun heq => hlatest (heq ▸ hafter))
        fun w heq => hback w (heq ▸ he)
  rw [read?_of_begun h ht hevents, List.foldl_append, List.foldl_cons, hquiet, hquiet',
    touch_record, if_pos rfl, Option.map_some, VerdictRecord.render]

end

-- Every file but those of begun pairs and the logs is as it was, in the directory and elsewhere.
theorem text?_of_unbegun {records : RecordFormat α} {dir : String} {xs : List (Session σ α)}
    {tree t : FileTree} {events : List (Event α)} (h : Tale xs events)
    (ht : Tells records dir tree t events) {q : Place}
    (hbegun : ∀ pra advisory, ⟨.begin pra advisory, none⟩ ∈ events →
      q ≠ tree.resultPlace dir pra advisory)
    (hlogs : ∀ path solved, ⟨.writeLog path solved, none⟩ ∈ events → q ≠ tree.place path) :
    t.text? q = tree.text? q := by
  rw [ht.text q hlogs]
  refine foldl_touch (fun e he old => ?_) _
  obtain ⟨call, _ | f⟩ := e
  case some => exact touch_failed records tree dir _ old call f
  cases call with
  | prepareLogs | load | solve | writeLog => rfl
  | begin pra advisory => rw [touch_begin, if_neg (hbegun pra advisory he)]
  | record v => rw [touch_record, if_neg (hbegun _ _ (h.begun_of_record he))]

theorem filed_of_tells {records : RecordFormat α} {dir : String} {xs : List (Session σ α)}
    {tree t : FileTree} {events : List (Event α)} (h : Tale xs events)
    (ht : Tells records dir tree t events) : Filed records dir xs tree t events where
  cwd := ht.cwd
  standard := fun _ _ _ he => h.standard he
  recorded := fun _ _ _ _ _ hevents hlatest hv hpra hadvisory =>
    read?_of_recorded h ht hevents hlatest hv hpra hadvisory
  unrecorded := fun _ _ _ _ hevents hlatest hunrecorded =>
    read?_of_unrecorded h ht hevents hlatest hunrecorded
  distinct := fun _ _ _ _ hpra hadvisory hpra' hadvisory' hplace =>
    resultPlace_injective hpra hadvisory hpra' hadvisory' hplace
  unbegun := fun pra advisory hpra hadvisory hunbegun => by
    refine text?_of_unbegun h ht (fun pra' advisory' hbegun hplace => hunbegun ?_)
      (h.not_logged hpra hadvisory)
    obtain ⟨hpra', hadvisory'⟩ := h.standard hbegun
    obtain ⟨rfl, rfl⟩ := resultPlace_injective hpra hadvisory hpra' hadvisory' hplace
    exact hbegun
  logged := fun _ _ _ he => h.logged he
  frame := fun _ hbegun hlogs => text?_of_unbegun h ht hbegun hlogs

theorem runSessions_files (records : RecordFormat α) (dir : String) (xs : List (Session σ α))
    (s : σ) (tree : FileTree) : ∃ events,
    (runSessions (fun x => (x.host records dir).traced) xs).run ((s, tree), []) =
      (((runSessions (Session.host records dir) xs).run (s, tree)).1,
        (((runSessions (Session.host records dir) xs).run (s, tree)).2, events)) ∧
    Filed records dir xs tree ((runSessions (Session.host records dir) xs).run (s, tree)).2.2
      events := by
  obtain ⟨events, hrun, htale⟩ := traces_runSessions (Session.host records dir)
    (List.Subset.refl xs) (s, tree) []
  rw [List.nil_append] at hrun
  have hstart : Told records dir tree ((s, tree), []) := told_start s
  have htold := told_runSessions xs hstart
  rw [hrun] at htold
  exact ⟨events, hrun, filed_of_tells htale htold⟩

theorem runAll_files (numbers : NumberFormat α) (records : RecordFormat α)
    (config : CampaignConfig α) (engine : Engine α) (pras : List ℕ) (s : σ) (tree : FileTree) :
    let host := fileHost Session.files numbers records config engine
    ∃ events, (runAll host.traced config pras).run ((s, tree), []) =
        (((runAll host config pras).run (s, tree)).1,
          (((runAll host config pras).run (s, tree)).2, events)) ∧
      RunsAll config pras events ((runAll host config pras).run (s, tree)).1 ∧
      Filed records config.resultsDir
        (pras.map fun pra => (Session.ofFiles numbers config engine pra : Session σ α)) tree
        ((runAll host config pras).run (s, tree)).2.2 events := by
  intro host
  have htraces : Traces (runAll host.traced config pras) (runAll host config pras)
      (RunsAll config pras) := traces_runAll pras
  obtain ⟨events, hrun, hruns⟩ := htraces (s, tree) []
  rw [List.nil_append] at hrun
  let session : ℕ → Session σ α := Session.ofFiles numbers config engine
  have htale : Tale (pras.map session) (events ++ []) :=
    tale_of_runsAll (fun pra hpra => ⟨session pra, List.mem_map_of_mem hpra, rfl, rfl⟩) hruns .nil
  rw [List.append_nil] at htale
  have hhost : host.traced.Maintains (Told records config.resultsDir tree) := by
    have htraced : ((session 0).host records config.resultsDir).traced.Maintains
        (Told records config.resultsDir tree) := told_traced (session 0)
    rwa [Session.host_ofFiles] at htraced
  have hmaintains : Maintains (Told records config.resultsDir tree)
      (runAll host.traced config pras) := maintains_runAll hhost pras
  have htold := hmaintains _ (told_start s)
  rw [hrun] at htold
  exact ⟨events, hrun, hruns, filed_of_tells htale htold⟩

def sixScores : LayeredNetwork Float :=
  ⟨4, [⟨List.replicate 6 [0, 0, 0, 0], [1, 9, 2, 3, 4, 5]⟩], none⟩

def interrupted : Session Unit Float where
  load _ _ := pure sixScores.toNetwork
  solve _ _ := pure (.stopped {})
  engine := "reference"
  config := { CampaignConfig.standard with resultsDir := "out", logsDir := some "out" }
  pra := 2

def notes : FileTree :=
  ⟨⟨["work"]⟩, [⟨["work", "out"]⟩], [(⟨["work", "out", "praDNC_raDNC.log"]⟩, "notes\n")]⟩

-- The logs of a run can lie among the results, and its log is written over what is there.
theorem exists_overwritten_log : ∃ q : Place,
    q = (notes.place "out").child "praDNC_raDNC.log" ∧
    (∀ pra ∈ (Advisory.all : List (Advisory Float)), ∀ advisory ∈ Advisory.all,
      q ≠ notes.resultPlace "out" pra advisory) ∧
    notes.text? q = some "notes\n" ∧
    ((runSessions (Session.host RecordFormat.decimal "out") [interrupted]).run
      ((), notes)).2.2.text? q ≠ some "notes\n" := by
  have hdnc : (⟨2, "DNC", -1, 0⟩ : Advisory Float) ∈ Advisory.all :=
    List.mem_cons_of_mem _ List.mem_cons_self
  have hlog : interrupted.config.logPath ⟨2, "DNC", -1, 0⟩ ⟨2, "DNC", -1, 0⟩ =
      some "out/praDNC_raDNC.log" := by decide +kernel
  have hplace : notes.place "out/praDNC_raDNC.log" =
      (notes.place "out").child "praDNC_raDNC.log" := by decide +kernel
  refine ⟨_, rfl, fun pra hpra advisory hadvisory => ?_, by decide +kernel, ?_⟩
  · rw [← hplace]
    exact (resultPlace_ne_log hpra hadvisory hdnc hdnc hlog).symm
  · unfold Session.host Session.files FileTree.filesIn FileTree.write? FileTree.append?
      FileTree.makeDirs? FileTree.find? Path.isAdmissible
    simp only [String.contains_char_eq]
    decide +kernel

end Campaign

end ReluVerify
