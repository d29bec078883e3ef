import Mathlib

namespace ReluVerify

theorem bind_eq_ok {ε α β : Type} {x : Except ε α} {f : α → Except ε β} {b : β} :
    x >>= f = .ok b ↔ ∃ a, x = .ok a ∧ f a = .ok b := by
  cases x with
  | error e => simp [bind, Except.bind]
  | ok a => simp [bind, Except.bind]

theorem pure_eq_ok {ε α : Type} {a b : α} : (pure a : Except ε α) = .ok b ↔ b = a := by
  simp [pure, Except.pure, eq_comm]

theorem bind_unit_eq_ok {ε β : Type} {x : Except ε Unit} {f : Unit → Except ε β} {b : β} :
    x >>= f = .ok b ↔ x = .ok () ∧ f () = .ok b := by
  cases x with
  | error e => simp [bind, Except.bind]
  | ok a => simp [bind, Except.bind]

theorem bind_eq_error {ε α β : Type} {x : Except ε α} {f : α → Except ε β} {e : ε} :
    x >>= f = .error e ↔ x = .error e ∨ ∃ a, x = .ok a ∧ f a = .error e := by
  cases x with
  | error e' => simp [bind, Except.bind]
  | ok a => simp [bind, Except.bind]

theorem forM_eq_ok {ε α : Type} {f : α → Except ε Unit} {l : List α} :
    l.forM f = .ok () ↔ ∀ a ∈ l, f a = .ok () := by
  rw [List.forM_eq_forM]
  induction l with
  | nil => simp [pure, Except.pure]
  | cons a l ih => rw [List.forM_cons, bind_unit_eq_ok, ih, List.forall_mem_cons]

theorem exists_of_forM_eq_error {ε α : Type} {f : α → Except ε Unit} {l : List α} {e : ε}
    (h : l.forM f = .error e) : ∃ a ∈ l, f a = .error e := by
  rw [List.forM_eq_forM] at h
  induction l with
  | nil => cases h
  | cons a l ih =>
    rw [List.forM_cons] at h
    rcases bind_eq_error.mp h with h | ⟨_, _, h⟩
    · exact ⟨a, List.mem_cons_self, h⟩
    · obtain ⟨b, hb, hfb⟩ := ih h
      exact ⟨b, List.mem_cons_of_mem _ hb, hfb⟩

theorem exists_of_foldlM_eq_error {ε α β : Type} {f : β → α → Except ε β} {l : List α} {b : β}
    {e : ε} (h : l.foldlM f b = .error e) : ∃ before a after b', l = before ++ a :: after ∧
      before.foldlM f b = .ok b' ∧ f b' a = .error e := by
  induction l generalizing b with
  | nil => cases h
  | cons a l ih =>
    rw [List.foldlM_cons] at h
    rcases bind_eq_error.mp h with h | ⟨b', hb', h⟩
    · exact ⟨[], a, l, b, rfl, rfl, h⟩
    · obtain ⟨before, c, after, b'', rfl, hbefore, hc⟩ := ih h
      refine ⟨a :: before, c, after, b'', rfl, ?_, hc⟩
      rw [List.foldlM_cons, bind_eq_ok]
      exact ⟨b', hb', hbefore⟩

theorem mapM_eq_ok {ε α β : Type} {f : α → Except ε β} {g : α → β} {l : List α}
    (h : ∀ a ∈ l, f a = .ok (g a)) : l.mapM f = .ok (l.map g) := by
  induction l with
  | nil => rfl
  | cons a l ih =>
    obtain ⟨ha, hl⟩ := List.forall_mem_cons.mp h
    rw [List.mapM_cons, ha, ih hl]
    rfl

theorem mem_of_mapM_eq_ok {ε α β : Type} {f : α → Except ε β} {l : List α} {bs : List β}
    (h : l.mapM f = .ok bs) {b : β} (hb : b ∈ bs) : ∃ a ∈ l, f a = .ok b := by
  induction l generalizing bs with
  | nil =>
    obtain rfl := pure_eq_ok.mp h
    cases hb
  | cons a l ih =>
    rw [List.mapM_cons] at h
    obtain ⟨b', hb', h⟩ := bind_eq_ok.mp h
    obtain ⟨bs', hbs', h⟩ := bind_eq_ok.mp h
    obtain rfl := pure_eq_ok.mp h
    rcases List.mem_cons.mp hb with rfl | hb
    · exact ⟨a, List.mem_cons_self, hb'⟩
    · obtain ⟨a', ha', hfa'⟩ := ih hbs' hb
      exact ⟨a', List.mem_cons_of_mem _ ha', hfa'⟩

theorem run_bind_of_ok {ε σ α β : Type} {x : ExceptT ε (StateM σ) α}
    {f : α → ExceptT ε (StateM σ) β} {s s' : σ} {a : α} (h : x.run s = (.ok a, s')) :
    (x >>= f).run s = (f a).run s' := by
  change (ExceptT.bindCont f) (x.run s).1 (x.run s).2 = _
  rw [h]
  rfl

theorem run_bind_of_error {ε σ α β : Type} {x : ExceptT ε (StateM σ) α}
    {f : α → ExceptT ε (StateM σ) β} {s s' : σ} {e : ε} (h : x.run s = (.error e, s')) :
    (x >>= f).run s = (.error e, s') := by
  change (ExceptT.bindCont f) (x.run s).1 (x.run s).2 = _
  rw [h]
  rfl

variable {ε σ β γ : Type} {I : σ → Prop} {P : β → Prop} {Q : γ → Prop} {E : ε → Prop}

def Ends (I : σ → Prop) (step : ExceptT ε (StateM σ) β) (P : β → Prop) (E : ε → Prop) : Prop :=
  ∀ s, I s → match step.run s with
    | (.ok b, s') => P b ∧ I s'
    | (.error e, s') => E e ∧ I s'

theorem ends_pure {b : β} (h : P b) : Ends I (pure b : ExceptT ε (StateM σ) β) P E :=
  fun _ hs => ⟨h, hs⟩

theorem ends_except {x : Except ε β} {b : β} (hx : x = .ok b) :
    Ends I (liftM x : ExceptT ε (StateM σ) β) (fun b' => b' = b) E := by
  subst hx
  exact fun _ hs => ⟨rfl, hs⟩

theorem ends_state {x : StateM σ β} (h : ∀ s, I s → P (x.run s).1 ∧ I (x.run s).2) :
    Ends I (liftM x : ExceptT ε (StateM σ) β) P E :=
  fun s hs => h s hs

theorem Ends.bind {step : ExceptT ε (StateM σ) β} {f : β → ExceptT ε (StateM σ) γ}
    (h : Ends I step P E) (hf : ∀ b, P b → Ends I (f b) Q E) : Ends I (step >>= f) Q E := by
  intro s hs
  have hstep := h s hs
  rcases hrun : step.run s with ⟨r, s'⟩
  rw [hrun] at hstep
  cases r with
  | error e => rwa [run_bind_of_error hrun]
  | ok b =>
    rw [run_bind_of_ok hrun]
    exact hf b hstep.1 s' hstep.2

theorem Ends.mono {P' : β → Prop} {step : ExceptT ε (StateM σ) β} (h : Ends I step P E)
    (hP : ∀ b, P b → P' b) : Ends I step P' E := by
  intro s hs
  have hstep := h s hs
  rcases hrun : step.run s with ⟨_ | b, s'⟩
  · rwa [hrun] at hstep
  · rw [hrun] at hstep
    exact ⟨hP b hstep.1, hstep.2⟩

section

variable {step : ExceptT ε (StateM σ) β} (h : Ends I step P E) {s : σ} (hs : I s)

include h hs

theorem Ends.keeps : I (step.run s).2 := by
  have hstep := h s hs
  rcases hrun : step.run s with ⟨_ | _, s'⟩ <;> rw [hrun] at hstep <;> exact hstep.2

theorem Ends.returns {b : β} (hb : (step.run s).1 = .ok b) : P b := by
  have hstep := h s hs
  rcases hrun : step.run s with ⟨_ | _, s'⟩ <;> rw [hrun] at hstep hb <;> cases hb
  exact hstep.1

theorem Ends.fails {e : ε} (he : (step.run s).1 = .error e) : E e := by
  have hstep := h s hs
  rcases hrun : step.run s with ⟨_ | _, s'⟩ <;> rw [hrun] at hstep he <;> cases he
  exact hstep.1

end

end ReluVerify
