import ReluVerify.Campaign.Run
import ReluVerify.Proofs.Step

namespace ReluVerify

inductive Call (α : Type) where
  | prepareLogs (dir : String)
  | load (pra : ℕ)
  | solve (q : Query α)
  | writeLog (path : String) (solved : Solved α)
  | begin (pra advisory : Advisory α)
  | record (v : VerdictRecord α)

structure Event (α : Type) where
  call : Call α
  failure : Option (Failure α)

variable {α β γ σ : Type}

def failure? : Except (Failure α) β → Option (Failure α)
  | .ok _ => none
  | .error e => some e

def logged (call : Call α) (step : ExceptT (Failure α) (StateM σ) β) :
    ExceptT (Failure α) (StateM (σ × List (Event α))) β :=
  ExceptT.mk fun s => ((step.run s.1).1,
    ((step.run s.1).2, s.2 ++ [⟨call, failure? (step.run s.1).1⟩]))

def Host.traced (host : Host (StateM σ) α) : Host (StateM (σ × List (Event α))) α where
  prepareLogs dir := logged (.prepareLogs dir) (host.prepareLogs dir)
  load pra := logged (.load pra) (host.load pra)
  solve q := fun s => (((host.solve q).run s.1).1,
    (((host.solve q).run s.1).2, s.2 ++ [⟨.solve q, none⟩]))
  writeLog path solved := logged (.writeLog path solved) (host.writeLog path solved)
  begin pra advisory := logged (.begin pra advisory) (host.begin pra advisory)
  record v := logged (.record v) (host.record v)

-- A step beside the same step with its calls noted: the notes change nothing else.
def Traces (step' : ExceptT (Failure α) (StateM (σ × List (Event α))) β)
    (step : ExceptT (Failure α) (StateM σ) β)
    (P : List (Event α) → Except (Failure α) β → Prop) : Prop :=
  ∀ s log, ∃ events, step'.run (s, log) = ((step.run s).1, ((step.run s).2, log ++ events)) ∧
    P events (step.run s).1

theorem Traces.imp {step' : ExceptT (Failure α) (StateM (σ × List (Event α))) β}
    {step : ExceptT (Failure α) (StateM σ) β}
    {P Q : List (Event α) → Except (Failure α) β → Prop} (h : Traces step' step P)
    (hPQ : ∀ events r, P events r → Q events r) : Traces step' step Q := by
  intro s log
  obtain ⟨events, hrun, hP⟩ := h s log
  exact ⟨events, hrun, hPQ _ _ hP⟩

theorem traces_silent (x : Except (Failure α) β) :
    Traces (liftM x : ExceptT (Failure α) (StateM (σ × List (Event α))) β) (liftM x)
      (fun events r => events = [] ∧ r = x) :=
  fun s log => ⟨[], by rw [List.append_nil]; rfl, rfl, rfl⟩

theorem traces_logged (call : Call α) (step : ExceptT (Failure α) (StateM σ) β) :
    Traces (logged call step) step (fun events r => events = [⟨call, failure? r⟩]) :=
  fun _ _ => ⟨_, rfl, rfl⟩

theorem Host.traces_solve (host : Host (StateM σ) α) (q : Query α) :
    Traces (liftM (host.traced.solve q)) (liftM (host.solve q) : ExceptT (Failure α) (StateM σ) _)
      (fun events r => events = [⟨.solve q, none⟩] ∧ ∃ out, r = .ok out) :=
  fun _ _ => ⟨_, rfl, rfl, _, rfl⟩

theorem Traces.bind {step' : ExceptT (Failure α) (StateM (σ × List (Event α))) β}
    {step : ExceptT (Failure α) (StateM σ) β}
    {f' : β → ExceptT (Failure α) (StateM (σ × List (Event α))) γ}
    {f : β → ExceptT (Failure α) (StateM σ) γ}
    {P : List (Event α) → Except (Failure α) β → Prop}
    {Q : List (Event α) → Except (Failure α) γ → Prop} (h : Traces step' step P)
    (herror : ∀ events e, P events (.error e) → Q events (.error e))
    (hok : ∀ events b, P events (.ok b) →
      Traces (f' b) (f b) (fun events' r => Q (events ++ events') r)) :
    Traces (step' >>= f') (step >>= f) Q := by
  intro s log
  obtain ⟨events, hrun', hP⟩ := h s log
  rcases hrun : step.run s with ⟨e | b, t⟩
  · rw [hrun] at hrun' hP
    refine ⟨events, ?_, ?_⟩
    · rw [run_bind_of_error hrun', run_bind_of_error hrun]
    · rw [run_bind_of_error hrun]
      exact herror events e hP
  · rw [hrun] at hrun' hP
    obtain ⟨events', hnext, hQ⟩ := hok events b hP t (log ++ events)
    refine ⟨events ++ events', ?_, ?_⟩
    · rw [run_bind_of_ok hrun', run_bind_of_ok hrun, hnext, List.append_assoc]
    · rw [run_bind_of_ok hrun]
      exact hQ

theorem Traces.after_ok {x : Except (Failure α) β} {b : β} (hx : x = .ok b)
    {f' : β → ExceptT (Failure α) (StateM (σ × List (Event α))) γ}
    {f : β → ExceptT (Failure α) (StateM σ) γ} {P : List (Event α) → Except (Failure α) γ → Prop}
    (h : Traces (f' b) (f b) P) : Traces (liftM x >>= f') (liftM x >>= f) P := by
  subst hx
  exact h

theorem Traces.after_error {x : Except (Failure α) β} {e : Failure α} (hx : x = .error e)
    {f' : β → ExceptT (Failure α) (StateM (σ × List (Event α))) γ}
    {f : β → ExceptT (Failure α) (StateM σ) γ} {P : List (Event α) → Except (Failure α) γ → Prop}
    (h : P [] (.error e)) : Traces (liftM x >>= f') (liftM x >>= f) P := by
  subst hx
  exact fun s log => ⟨[], by rw [List.append_nil]; rfl, h⟩

end ReluVerify
