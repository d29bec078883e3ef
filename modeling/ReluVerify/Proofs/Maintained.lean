import ReluVerify.Campaign.Run
import ReluVerify.Proofs.Step

namespace ReluVerify

section

variable {ε σ β γ : Type} {I : σ → Prop}

def Maintains (I : σ → Prop) (step : ExceptT ε (StateM σ) β) : Prop :=
  ∀ s, I s → I (step.run s).2

theorem maintains_except (x : Except ε β) :
    Maintains I (liftM x : ExceptT ε (StateM σ) β) := fun _ hs => hs

theorem maintains_pure (b : β) : Maintains I (pure b : ExceptT ε (StateM σ) β) := fun _ hs => hs

theorem maintains_throw (e : ε) : Maintains I (throw e : ExceptT ε (StateM σ) β) := fun _ hs => hs

theorem Maintains.bind {step : ExceptT ε (StateM σ) β} {f : β → ExceptT ε (StateM σ) γ}
    (h : Maintains I step) (hf : ∀ b, Maintains I (f b)) : Maintains I (step >>= f) := by
  intro s hs
  have hstep := h s hs
  rcases hrun : step.run s with ⟨e | b, s'⟩
  · rw [hrun] at hstep
    rwa [run_bind_of_error hrun]
  · rw [hrun] at hstep
    rw [run_bind_of_ok hrun]
    exact hf b s' hstep

theorem Maintains.guarded {p : Prop} [Decidable p] {e : ε}
    {rest : PUnit → ExceptT ε (StateM σ) β} (h : Maintains I (rest ⟨⟩)) :
    Maintains I (if p then throw e >>= rest else rest ⟨⟩) := by
  split
  · exact (maintains_throw e).bind fun _ => h
  · exact h

end

variable {σ α : Type}

structure Host.Maintains (host : Host (StateM σ) α) (I : σ → Prop) : Prop where
  prepareLogs : ∀ dir, ReluVerify.Maintains I (host.prepareLogs dir)
  load : ∀ pra, ReluVerify.Maintains I (host.load pra)
  solve : ∀ q s, I s → I ((host.solve q).run s).2
  writeLog : ∀ path solved, ReluVerify.Maintains I (host.writeLog path solved)
  begin : ∀ pra advisory, ReluVerify.Maintains I (host.begin pra advisory)
  record : ∀ v, ReluVerify.Maintains I (host.record v)

namespace Campaign

variable [Scalar α] {host : Host (StateM σ) α} {I : σ → Prop} {config : CampaignConfig α}
  {candidates : List (Advisory α)}

section

variable (h : host.Maintains I)

include h

theorem maintains_solve (log : Option String) (n : Network α) :
    Maintains I (solve host log n) := by
  unfold solve
  refine (maintains_except _).bind fun q => ?_
  have hsolve : Maintains I (liftM (host.solve q) : ExceptT (Failure α) (StateM σ) _) :=
    fun s hs => h.solve q s hs
  refine hsolve.bind fun out => ?_
  cases log with
  | none => exact maintains_pure _
  | some path => exact (h.writeLog path _).bind fun _ => maintains_pure _

theorem maintains_check (pra : Advisory α) (k : Candidate α) :
    Maintains I (check host config pra candidates k) := by
  unfold check
  split
  · exact maintains_pure _
  · refine (h.load pra.index).bind fun n => ?_
    refine Maintains.guarded ((maintains_except _).bind fun asked => ?_)
    cases asked with
    | none => exact maintains_pure _
    | some n => exact (maintains_solve h _ n).bind fun v => maintains_except _

theorem maintains_visit (pra : Advisory α) (ks : List (Candidate α)) :
    Maintains I (visit host config pra candidates ks) := by
  induction ks with
  | nil => exact maintains_pure _
  | cons k rest ih =>
    unfold visit
    refine (h.begin pra k.advisory).bind fun _ => (maintains_check h pra k).bind fun o =>
      (h.record _).bind fun _ => ?_
    split
    · exact maintains_pure _
    · exact ih.bind fun _ => maintains_pure _

theorem maintains_run (pra : ℕ) : Maintains I (run host config pra) := by
  unfold run
  refine (maintains_except _).bind fun a => (maintains_except _).bind fun candidates => ?_
  have hvisit : Maintains I (visit host config a candidates (numbered candidates) >>=
      fun r => pure (Report.mk a r.1 r.2)) :=
    (maintains_visit h a _).bind fun _ => maintains_pure _
  cases config.logsDir with
  | none => exact hvisit
  | some dir => exact (h.prepareLogs dir).bind fun _ => hvisit

theorem maintains_runAll (pras : List ℕ) : Maintains I (runAll host config pras) := by
  induction pras with
  | nil => exact maintains_pure _
  | cons pra pras ih =>
    unfold runAll
    refine (maintains_run h pra).bind fun report => ?_
    cases report.aborted with
    | true => exact maintains_pure _
    | false => exact ih.bind fun _ => maintains_pure _

end

end Campaign

end ReluVerify
