import ReluVerify.Proofs.Maintained
import ReluVerify.Proofs.Sessions

namespace ReluVerify

variable {α : Type} {σ : Type}

section

variable {pra advisory pra' advisory' : Advisory α}

theorem toList_pairName (pra advisory : Advisory α) :
    (CampaignConfig.pairName pra advisory).toList =
      'p' :: 'r' :: 'a' :: (pra.name.toList ++ '_' :: 'r' :: 'a' :: advisory.name.toList) := by
  simp only [CampaignConfig.pairName, String.toList_append, List.append_assoc]
  rfl

variable [Scalar α]

theorem pairName_injective (hpra : pra ∈ Advisory.all) (hadvisory : advisory ∈ Advisory.all)
    (hpra' : pra' ∈ Advisory.all) (hadvisory' : advisory' ∈ Advisory.all)
    (h : CampaignConfig.pairName pra advisory = CampaignConfig.pairName pra' advisory') :
    pra = pra' ∧ advisory = advisory' := by
  have hlist := congrArg String.toList h
  have htail : '_' ∉ 'r' :: 'a' :: advisory.name.toList := by
    simp [(Advisory.notMem_name hadvisory).1]
  simp only [toList_pairName, List.cons.injEq, true_and] at hlist
  obtain ⟨hname, -, hrest⟩ :=
    (List.append_cons_inj_of_notMem (Advisory.notMem_name hpra).1 htail).mp hlist
  simp only [List.cons.injEq, true_and] at hrest
  exact ⟨Advisory.eq_of_name hpra hpra' (String.toList_injective hname),
    Advisory.eq_of_name hadvisory hadvisory' (String.toList_injective hrest)⟩

theorem isName_pairName (hpra : pra ∈ Advisory.all) (hadvisory : advisory ∈ Advisory.all)
    {extension : String} (h : '/' ∉ extension.toList) :
    Path.IsName (CampaignConfig.pairName pra advisory ++ extension) := by
  have hlist : (CampaignConfig.pairName pra advisory ++ extension).toList =
      'p' :: 'r' :: 'a' :: (pra.name.toList ++ '_' :: 'r' :: 'a' :: advisory.name.toList) ++
        extension.toList := by
    rw [String.toList_append, toList_pairName]
  refine ⟨fun heq => ?_, fun heq => ?_, fun heq => ?_, ?_⟩
  · exact absurd (hlist.symm.trans (congrArg String.toList heq)) (by simp)
  · exact absurd (hlist.symm.trans (congrArg String.toList heq)) (by simp)
  · exact absurd (hlist.symm.trans (congrArg String.toList heq)) (by simp)
  · rw [hlist]
    simp [Advisory.notMem_name hpra, Advisory.notMem_name hadvisory, h]

def FileTree.resultPlace (t : FileTree) (dir : String) (pra advisory : Advisory α) : Place :=
  t.place (CampaignConfig.resultPath dir pra advisory)

theorem resultPlace_eq (t : FileTree) (dir : String) (hpra : pra ∈ Advisory.all)
    (hadvisory : advisory ∈ Advisory.all) : t.resultPlace dir pra advisory =
      (t.place dir).child (CampaignConfig.pairName pra advisory ++ ".txt") :=
  FileTree.place_join t dir (isName_pairName hpra hadvisory (by decide))

theorem resultPlace_injective {t : FileTree} {dir : String} (hpra : pra ∈ Advisory.all)
    (hadvisory : advisory ∈ Advisory.all) (hpra' : pra' ∈ Advisory.all)
    (hadvisory' : advisory' ∈ Advisory.all)
    (h : t.resultPlace dir pra advisory = t.resultPlace dir pra' advisory') :
    pra = pra' ∧ advisory = advisory' := by
  rw [resultPlace_eq t dir hpra hadvisory, resultPlace_eq t dir hpra' hadvisory'] at h
  have hname := congrArg String.toList (Place.child_injective h)
  rw [String.toList_append, String.toList_append] at hname
  exact pairName_injective hpra hadvisory hpra' hadvisory'
    (String.toList_injective (List.append_cancel_right hname))

theorem resultPlace_ne_log {config : CampaignConfig α} {t : FileTree} {dir path : String}
    (hpra : pra ∈ Advisory.all) (hadvisory : advisory ∈ Advisory.all)
    (hpra' : pra' ∈ Advisory.all) (hadvisory' : advisory' ∈ Advisory.all)
    (hpath : config.logPath pra' advisory' = some path) :
    t.resultPlace dir pra advisory ≠ t.place path := by
  obtain ⟨logs, -, rfl⟩ := Option.map_eq_some_iff.mp hpath
  rw [resultPlace_eq t dir hpra hadvisory, FileTree.place_join t logs
    (isName_pairName hpra' hadvisory' (by decide))]
  intro h
  have hnames : (t.place dir).names ++ [CampaignConfig.pairName pra advisory ++ ".txt"] =
      (t.place logs).names ++ [CampaignConfig.pairName pra' advisory' ++ ".log"] :=
    congrArg Place.names h
  have hname := congrArg String.toList (List.singleton_inj.mp (List.append_inj' hnames rfl).2)
  rw [String.toList_append, String.toList_append] at hname
  exact absurd (List.append_inj' hname rfl).2 (by decide)

end

section

variable (records : RecordFormat α) (tree : FileTree) (dir : String)

def touch (q : Place) (old : Option String) : Event α → Option String
  | ⟨.begin pra advisory, none⟩ =>
      if q = tree.resultPlace dir pra advisory then some (VerdictRecord.header records pra advisory)
      else old
  | ⟨.record v, none⟩ =>
      if q = tree.resultPlace dir v.pra v.advisory then old.map (· ++ v.outcome.render records)
      else old
  | _ => old

theorem touch_begin (q : Place) (old : Option String) (pra advisory : Advisory α) :
    touch records tree dir q old ⟨.begin pra advisory, none⟩ =
      if q = tree.resultPlace dir pra advisory then some (VerdictRecord.header records pra advisory)
      else old :=
  rfl

theorem touch_record (q : Place) (old : Option String) (v : VerdictRecord α) :
    touch records tree dir q old ⟨.record v, none⟩ =
      if q = tree.resultPlace dir v.pra v.advisory then old.map (· ++ v.outcome.render records)
      else old :=
  rfl

theorem touch_failed (q : Place) (old : Option String) (call : Call α) (f : Failure α) :
    touch records tree dir q old ⟨call, some f⟩ = old := by
  cases call <;> rfl

-- What the files are after some calls, apart from logs: the text of each is told by the calls.
structure Tells (tree t : FileTree) (events : List (Event α)) : Prop where
  cwd : t.cwd = tree.cwd
  text : ∀ q, (∀ path solved, ⟨.writeLog path solved, none⟩ ∈ events → q ≠ tree.place path) →
    t.text? q = events.foldl (touch records tree dir q) (tree.text? q)
  found : ∀ pra advisory, ⟨.begin pra advisory, none⟩ ∈ events →
    t.find? (CampaignConfig.resultPath dir pra advisory) = some (tree.resultPlace dir pra advisory)

variable {records dir} {tree t t' : FileTree} {events : List (Event α)} {e : Event α}

theorem Tells.snoc (h : Tells records dir tree t events) (hcwd : t'.cwd = t.cwd)
    (hdirs : t.dirs ⊆ t'.dirs)
    (htext : ∀ q, (∀ path solved, e = ⟨.writeLog path solved, none⟩ → q ≠ tree.place path) →
      t'.text? q = touch records tree dir q (t.text? q) e)
    (hfound : ∀ pra advisory, e = ⟨.begin pra advisory, none⟩ →
      t.find? (CampaignConfig.resultPath dir pra advisory) =
        some (tree.resultPlace dir pra advisory)) :
    Tells records dir tree t' (events ++ [e]) where
  cwd := hcwd.trans h.cwd
  text := fun q hq => by
    rw [List.foldl_append, List.foldl_cons, List.foldl_nil, ← h.text q fun path solved he =>
      hq path solved (List.mem_append_left _ he)]
    exact htext q fun path solved he => hq path solved (he ▸ List.mem_append_right _ (by simp))
  found := fun pra advisory he => by
    refine FileTree.find?_mono hcwd hdirs ?_
    rcases List.mem_append.mp he with he | he
    · exact h.found pra advisory he
    · exact hfound pra advisory (List.mem_singleton.mp he).symm

theorem Tells.silent (h : Tells records dir tree t events)
    (htouch : ∀ q old, touch records tree dir q old e = old)
    (hbegin : ∀ pra advisory, e ≠ ⟨.begin pra advisory, none⟩) :
    Tells records dir tree t (events ++ [e]) :=
  h.snoc rfl (List.Subset.refl _) (fun q _ => (htouch q _).symm)
    fun pra advisory he => absurd he (hbegin pra advisory)

def Told (records : RecordFormat α) (dir : String) (tree : FileTree)
    (s : (σ × FileTree) × List (Event α)) : Prop := Tells records dir tree s.1.2 s.2

theorem told_start (s : σ) : Told records dir tree ((s, tree), []) :=
  ⟨rfl, fun _ _ => rfl, fun _ _ he => absurd he List.not_mem_nil⟩

theorem run_orFail {failure : Failure α} {change : FileTree → Option FileTree} (s : σ)
    (t : FileTree) : (Campaign.orFail failure (FileTree.attempt Prod.snd
      (fun t (s : σ × FileTree) => (s.1, t)) change)).run (s, t) =
      match change t with
      | some t' => (.ok (), (s, t'))
      | none => (.error failure, (s, t)) := by
  unfold Campaign.orFail
  cases hchange : change t with
  | none =>
    have hattempt : FileTree.attempt Prod.snd (fun t (s : σ × FileTree) => (s.1, t)) change (s, t) =
        (false, (s, t)) := by
      rw [FileTree.attempt, hchange]
    exact run_bind_of_ok (congrArg (fun r => (Except.ok r.1, r.2)) hattempt)
  | some t' =>
    have hattempt : FileTree.attempt Prod.snd (fun t (s : σ × FileTree) => (s.1, t)) change (s, t) =
        (true, (s, t')) := by
      rw [FileTree.attempt, hchange]
    exact run_bind_of_ok (congrArg (fun r => (Except.ok r.1, r.2)) hattempt)

theorem maintains_attempt (call : Call α) (failure : Failure α)
    (change : FileTree → Option FileTree) (hchange : ∀ t t', t.cwd = tree.cwd →
      change t = some t' → t'.cwd = t.cwd ∧ t.dirs ⊆ t'.dirs ∧
      (∀ q, (∀ path solved, call = .writeLog path solved → q ≠ tree.place path) →
        t'.text? q = touch records tree dir q (t.text? q) ⟨call, none⟩) ∧
      ∀ pra advisory, call = .begin pra advisory →
        t.find? (CampaignConfig.resultPath dir pra advisory) =
          some (tree.resultPlace dir pra advisory)) :
    Maintains (Told records dir tree) (logged call (Campaign.orFail failure
      (FileTree.attempt Prod.snd (fun t (s : σ × FileTree) => (s.1, t)) change))) := by
  rintro ⟨⟨s, t⟩, events⟩ h
  let step := Campaign.orFail failure (FileTree.attempt Prod.snd
    (fun t (s : σ × FileTree) => (s.1, t)) change)
  change Tells records dir tree (step.run (s, t)).2.2
    (events ++ [⟨call, failure? (step.run (s, t)).1⟩])
  rw [run_orFail]
  cases hstep : change t with
  | none =>
    exact h.silent (fun q old => touch_failed records tree dir q old call failure)
      fun _ _ he => nomatch congrArg Event.failure he
  | some t' =>
    obtain ⟨hcwd, hdirs, htext, hfound⟩ := hchange t t' h.cwd hstep
    refine h.snoc hcwd hdirs (fun q hq => htext q fun path solved hcall => hq path solved ?_)
      fun pra advisory he => hfound pra advisory (congrArg Event.call he)
    rw [hcall]
    rfl

theorem told_load (x : Session σ α) (pra : ℕ) :
    Maintains (Told records dir tree) ((x.host records dir).traced.load pra) := by
  rintro ⟨⟨s, t⟩, events⟩ h
  exact Tells.silent h (fun _ _ => rfl) fun _ _ he => nomatch congrArg Event.call he

theorem told_prepareLogs (x : Session σ α) (path : String) :
    Maintains (Told records dir tree) ((x.host records dir).traced.prepareLogs path) := by
  refine maintains_attempt (.prepareLogs path) (.storage path) (·.makeDirs? path) fun t t' _ h => ?_
  obtain ⟨hcwd, hfiles, hdirs⟩ := FileTree.makeDirs?_eq_some h
  refine ⟨hcwd, hdirs, fun q _ => ?_, nofun⟩
  rw [FileTree.text?, hfiles]
  rfl

theorem told_writeLog (x : Session σ α) (path : String) (solved : Solved α) :
    Maintains (Told records dir tree) ((x.host records dir).traced.writeLog path solved) := by
  refine maintains_attempt (.writeLog path solved) (.log path)
    (·.write? path (solved.log x.engine)) fun t t' hcwd h => ?_
  obtain ⟨_, rfl⟩ := FileTree.write?_eq_some h
  refine ⟨FileTree.cwd_setText .., fun _ hd => by rwa [FileTree.dirs_setText], fun q hq => ?_,
    nofun⟩
  rw [FileTree.text?_setText, FileTree.place_eq_of_cwd hcwd, if_neg (hq path solved rfl)]
  rfl

theorem told_begin (x : Session σ α) (pra advisory : Advisory α) :
    Maintains (Told records dir tree) ((x.host records dir).traced.begin pra advisory) := by
  let path := CampaignConfig.resultPath dir pra advisory
  refine maintains_attempt (.begin pra advisory) (.storage path)
    (·.write? path (VerdictRecord.header records pra advisory)) fun t t' hcwd h => ?_
  obtain ⟨hfind, rfl⟩ := FileTree.write?_eq_some h
  rw [FileTree.place_eq_of_cwd hcwd] at hfind ⊢
  refine ⟨FileTree.cwd_setText .., fun _ hd => by rwa [FileTree.dirs_setText], fun q _ => ?_, ?_⟩
  · rw [FileTree.text?_setText, touch_begin]
    rfl
  · rintro _ _ ⟨⟩
    exact hfind

theorem told_record (x : Session σ α) (v : VerdictRecord α) :
    Maintains (Told records dir tree) ((x.host records dir).traced.record v) := by
  let path := CampaignConfig.resultPath dir v.pra v.advisory
  refine maintains_attempt (.record v) (.storage path)
    (·.append? path (v.outcome.render records)) fun t t' hcwd h => ?_
  obtain ⟨old, hold, rfl⟩ := FileTree.append?_eq_some h
  rw [FileTree.place_eq_of_cwd hcwd] at hold ⊢
  refine ⟨FileTree.cwd_setText .., fun _ hd => by rwa [FileTree.dirs_setText], fun q _ => ?_,
    nofun⟩
  rw [FileTree.text?_setText, touch_record]
  change _ = if q = tree.place path then _ else _
  split
  · next hq => rw [hq, hold, Option.map_some]
  · rfl

theorem told_traced (x : Session σ α) :
    (x.host records dir).traced.Maintains (Told records dir tree) where
  prepareLogs := told_prepareLogs x
  load := told_load x
  solve := fun _ _ h => Tells.silent h (fun _ _ => rfl) fun _ _ he => nomatch congrArg Event.call he
  writeLog := told_writeLog x
  begin := told_begin x
  record := told_record x

theorem told_runSessions [Scalar α] (xs : List (Session σ α)) {s : (σ × FileTree) × List (Event α)}
    (h : Told records dir tree s) : Told records dir tree
      ((Campaign.runSessions (fun x => (x.host records dir).traced) xs).run s).2 := by
  induction xs generalizing s with
  | nil => exact h
  | cons x xs ih => exact ih (Campaign.maintains_run (told_traced x) x.pra s h)

end

end ReluVerify
