import ReluVerify.Proofs.Reading

namespace ReluVerify.LayeredText

variable {α β γ : Type} {F : Failure → Prop}

-- What a reading does with the lines to come. Beside the faults of a text, it ends with the given
-- failures only.
inductive Plan (F : Failure → Prop) (β : Type) where
  | done (b : β)
  | fail (cause : Cause)
  | abort (failure : Failure) (h : F failure)
  | line (part : Part) (next : List Char → Plan F β)

namespace Plan

def run : Plan F β → Reading β
  | done b => pure b
  | fail cause => LayeredText.fail cause
  | abort failure _ => throw failure
  | line part next => nextLine part >>= fun text => (next text).run

def bind : Plan F β → (β → Plan F γ) → Plan F γ
  | done b, f => f b
  | fail cause, _ => fail cause
  | abort failure h, _ => abort failure h
  | line part next, f => line part fun text => (next text).bind f

theorem run_bind (p : Plan F β) (f : β → Plan F γ) :
    (p.bind f).run = p.run >>= fun b => (f b).run := by
  induction p with
  | done b => exact (pure_bind b fun b => (f b).run).symm
  | fail cause => rfl
  | abort failure h => rfl
  | line part next ih =>
    simp only [bind, run, bind_assoc]
    exact bind_congr ih

def answer (number : ℕ) : Plan F β → Except Failure β
  | done b => .ok b
  | fail cause => .error (.malformed number cause)
  | abort failure _ => .error failure
  | line part _ => .error (.malformed number (.endOfText part))

def Waits : Plan F β → Prop
  | line _ _ => True
  | _ => False

theorem answer_of_waits {p : Plan F β} (h : p.Waits) (number : ℕ) :
    ∃ part, p.answer number = .error (.malformed number (.endOfText part)) := by
  cases p with
  | line part next => exact ⟨part, rfl⟩
  | done b => cases h
  | fail cause => cases h
  | abort failure hf => cases h

theorem answer_cases (p : Plan F β) (number : ℕ) : (∃ b, p.answer number = .ok b) ∨
    (∃ cause, p.answer number = .error (.malformed number cause)) ∨
    ∃ failure, F failure ∧ p.answer number = .error failure := by
  cases p with
  | done b => exact Or.inl ⟨b, rfl⟩
  | fail cause => exact Or.inr (Or.inl ⟨cause, rfl⟩)
  | abort failure h => exact Or.inr (Or.inr ⟨failure, h, rfl⟩)
  | line part next => exact Or.inr (Or.inl ⟨.endOfText part, rfl⟩)

inductive Leads : Plan F β → List Line → Plan F β → Prop
  | stay (p : Plan F β) : Leads p [] p
  | line {part : Part} {next : List Char → Plan F β} {l : Line} {ls : List Line} {p : Plan F β}
      (h : Leads (next l.2) ls p) : Leads (line part next) (l :: ls) p

theorem leads_append {p p' : Plan F β} {ls ls' : List Line} :
    Leads p (ls ++ ls') p' ↔ ∃ q, Leads p ls q ∧ Leads q ls' p' := by
  induction ls generalizing p with
  | nil =>
    constructor
    · exact fun h => ⟨p, .stay p, h⟩
    · rintro ⟨_, ⟨⟩, h⟩
      exact h
  | cons l ls ih =>
    constructor
    · rintro (_ | ⟨h⟩)
      obtain ⟨q, hls, hls'⟩ := ih.mp h
      exact ⟨q, .line hls, hls'⟩
    · rintro ⟨q, _ | ⟨hls⟩, hls'⟩
      exact .line (ih.mpr ⟨q, hls, hls'⟩)

theorem Leads.waits {p p' : Plan F β} {ls : List Line} (h : Leads p ls p') (hne : ls ≠ []) :
    p.Waits := by
  cases h with
  | stay => exact absurd rfl hne
  | line h => trivial

theorem exists_leads (p : Plan F β) (ls : List Line) : ∃ looked rest p',
    ls = looked ++ rest ∧ Leads p looked p' ∧ (p'.Waits → rest = []) := by
  induction p generalizing ls with
  | done b => exact ⟨[], ls, _, rfl, .stay _, False.elim⟩
  | fail cause => exact ⟨[], ls, _, rfl, .stay _, False.elim⟩
  | abort failure h => exact ⟨[], ls, _, rfl, .stay _, False.elim⟩
  | line part next ih =>
    cases ls with
    | nil => exact ⟨[], [], _, rfl, .stay _, fun _ => rfl⟩
    | cons l ls =>
      obtain ⟨looked, rest, p', hls, hleads, hrest⟩ := ih l.2 ls
      exact ⟨l :: looked, rest, p', congrArg (List.cons l) hls, .line hleads, hrest⟩

theorem Leads.run' {p p' : Plan F β} {looked rest : List Line} (h : Leads p looked p')
    (hrest : p'.Waits → rest = []) (last : ℕ) : p.run.run' ⟨looked ++ rest, last⟩ =
      p'.answer (looked.foldl (fun _ l => l.1) last) := by
  induction h generalizing last with
  | stay p =>
    cases p with
    | done b => rfl
    | fail cause => rfl
    | abort failure h => rfl
    | line part next =>
      rw [hrest trivial]
      rfl
  | @line part next l ls p h ih => exact ih hrest l.1

theorem Leads.run'_all {p p' : Plan F β} {looked : List Line} (h : Leads p looked p') (last : ℕ) :
    p.run.run' ⟨looked, last⟩ = p'.answer (looked.foldl (fun _ l => l.1) last) := by
  have hrun := h.run' (fun _ => Eq.refl []) last
  rwa [List.append_nil] at hrun

end Plan

def lastNumber (ls : List Line) : ℕ := ls.foldl (fun _ l => l.1) 0

theorem lastNumber_concat (ls : List Line) (l : Line) : lastNumber (ls ++ [l]) = l.1 := by
  rw [lastNumber, List.foldl_concat]

-- With fewer lines the text ends too early, and what comes after them changes nothing, except where
-- they are all and more are asked for.
structure LooksAt (step : Reading β) (looked rest : List Line) : Prop where
  needed : ∀ before after, looked = before ++ after → after ≠ [] → ∃ part,
    step.run' ⟨before, 0⟩ = .error (.malformed (lastNumber before) (.endOfText part))
  enough : (∀ rest', step.run' ⟨looked ++ rest', 0⟩ = step.run' ⟨looked ++ rest, 0⟩) ∨
    rest = [] ∧ ∃ part,
      step.run' ⟨looked, 0⟩ = .error (.malformed (lastNumber looked) (.endOfText part))

theorem Plan.looksAt {p p' : Plan F β} {looked rest : List Line} (h : Leads p looked p')
    (hrest : p'.Waits → rest = []) : LooksAt p.run looked rest where
  needed before after hsplit hne := by
    obtain ⟨q, hbefore, hafter⟩ := leads_append.mp (hsplit ▸ h)
    obtain ⟨part, hpart⟩ := answer_of_waits (hafter.waits hne) (lastNumber before)
    exact ⟨part, (hbefore.run'_all 0).trans hpart⟩
  enough := by
    by_cases hwaits : p'.Waits
    · obtain ⟨part, hpart⟩ := answer_of_waits hwaits (lastNumber looked)
      exact Or.inr ⟨hrest hwaits, part, (h.run'_all 0).trans hpart⟩
    · refine Or.inl fun rest' => ?_
      rw [h.run' hrest, h.run' fun hw => absurd hw hwaits]

def Planned (F : Failure → Prop) (step : Reading β) : Prop := ∃ p : Plan F β, p.run = step

theorem Planned.exists_looksAt {step : Reading β} (h : Planned F step) (ls : List Line) :
    ∃ looked rest, ls = looked ++ rest ∧ LooksAt step looked rest ∧
      ((∃ b, step.run' ⟨ls, 0⟩ = .ok b) ∨
        (∃ cause, step.run' ⟨ls, 0⟩ = .error (.malformed (lastNumber looked) cause)) ∨
        ∃ failure, F failure ∧ step.run' ⟨ls, 0⟩ = .error failure) := by
  obtain ⟨p, rfl⟩ := h
  obtain ⟨looked, rest, p', rfl, hleads, hrest⟩ := p.exists_leads ls
  refine ⟨looked, rest, rfl, Plan.looksAt hleads hrest, ?_⟩
  rw [hleads.run' hrest]
  exact p'.answer_cases _

theorem Planned.run'_ne_sizeCount {step : Reading β} (h : Planned F step) (hF : ¬F .sizeCount)
    (c : Cursor) : step.run' c ≠ .error .sizeCount := by
  obtain ⟨p, rfl⟩ := h
  obtain ⟨looked, rest, p', hls, hleads, hrest⟩ := p.exists_leads c.rest
  have hrun : p.run.run' c = _ := hls ▸ hleads.run' hrest c.line
  rw [hrun]
  rcases p'.answer_cases (looked.foldl (fun _ l => l.1) c.line) with
    ⟨b, hb⟩ | ⟨cause, hcause⟩ | ⟨failure, hfailure, hp⟩
  · rw [hb]
    nofun
  · rw [hcause]
    nofun
  · rw [hp]
    rintro ⟨⟩
    exact hF hfailure

theorem planned_pure (b : β) : Planned F (pure b) := ⟨.done b, rfl⟩

theorem planned_fail (cause : Cause) : Planned F (fail cause : Reading β) := ⟨.fail cause, rfl⟩

theorem planned_throw {failure : Failure} (h : F failure) :
    Planned F (throw failure : Reading β) := ⟨.abort failure h, rfl⟩

theorem planned_nextLine (part : Part) : Planned F (nextLine part) :=
  ⟨.line part .done, bind_pure _⟩

theorem bind_eq_of_ok {step : Reading β} {f g : β → Reading γ}
    (h : ∀ b c c', step.run c = .ok (b, c') → f b = g b) : step >>= f = step >>= g := by
  refine StateT.ext fun c => ?_
  rw [StateT.run_bind, StateT.run_bind]
  cases hstep : step.run c with
  | error e => rfl
  | ok r => exact congrArg (fun next : Reading γ => next.run r.2) (h r.1 c r.2 hstep)

theorem Planned.bind {step : Reading β} {f : β → Reading γ} (h : Planned F step)
    (hf : ∀ b c c', step.run c = .ok (b, c') → Planned F (f b)) : Planned F (step >>= f) := by
  obtain ⟨p, rfl⟩ := h
  have hplan : ∀ b, ∃ q : Plan F γ, ∀ c c', p.run.run c = .ok (b, c') → q.run = f b := by
    intro b
    by_cases hb : ∃ c c', p.run.run c = .ok (b, c')
    · obtain ⟨c, c', hc⟩ := hb
      obtain ⟨q, hq⟩ := hf b c c' hc
      exact ⟨q, fun _ _ _ => hq⟩
    · -- no run of the first step answers `b`, so any plan will do
      exact ⟨.fail .noLayers, fun c c' hc => absurd ⟨c, c', hc⟩ hb⟩
  choose q hq using hplan
  exact ⟨p.bind q, (p.run_bind q).trans (bind_eq_of_ok hq)⟩

theorem planned_mapM {f : β → Reading γ} (h : ∀ b, Planned F (f b)) (bs : List β) :
    Planned F (bs.mapM f) := by
  induction bs with
  | nil => exact planned_pure []
  | cons b bs ih =>
    rw [List.mapM_cons]
    exact (h b).bind fun _ _ _ _ => ih.bind fun _ _ _ _ => planned_pure _

theorem planned_times {step : Reading β} (h : Planned F step) (n : ℕ) :
    Planned F (times step n) := by
  induction n with
  | zero => exact planned_pure []
  | succ n ih => exact h.bind fun _ _ _ _ => ih.bind fun _ _ _ _ => planned_pure _

section

variable (format : NumberFormat α)

theorem planned_values (part : Part) (least : ℕ) : Planned F (values format part least) := by
  have htoken : ∀ token, Planned F (readToken format part token) := by
    intro token
    unfold readToken
    cases format.read? (String.ofList token) with
    | some x => exact planned_pure x
    | none => exact planned_fail _
  refine (planned_nextLine part).bind fun line _ _ _ =>
    (planned_mapM htoken _).bind fun xs _ _ _ => ?_
  split
  · exact planned_fail _
  · exact planned_pure xs

theorem planned_sizes (part : Part) (least : ℕ) : Planned F (sizes format part least) := by
  refine (planned_values format part least).bind fun xs _ _ _ => planned_mapM (fun x => ?_) xs
  unfold toSize
  cases format.size? x with
  | some n => exact planned_pure n
  | none => exact planned_fail _

theorem planned_firstValues (part : Part) (count : ℕ) :
    Planned F (firstValues format part count) :=
  (planned_values format part count).bind fun _ _ _ _ => planned_pure _

theorem planned_bias : Planned F (bias format) := by
  refine (planned_values format .bias 1).bind fun xs _ _ _ => ?_
  cases xs with
  | nil => exact planned_fail _
  | cons x xs => exact planned_pure x

theorem planned_layer (fanIn fanOut : ℕ) : Planned F (layer format fanIn fanOut) :=
  (planned_times (planned_firstValues format .weights fanIn) fanOut).bind fun _ _ _ _ =>
    (planned_times (planned_bias format) fanOut).bind fun _ _ _ _ => planned_pure _

theorem planned_layers (size : ℕ) (sizes : List ℕ) :
    Planned F (layers format (size :: sizes)) := by
  induction sizes generalizing size with
  | nil => exact planned_pure []
  | cons fanOut sizes ih =>
    exact (planned_layer format size fanOut).bind fun _ _ _ _ =>
      (ih fanOut).bind fun _ _ _ _ => planned_pure _

theorem planned_normalization (inputs : ℕ) : Planned F (normalization format inputs) :=
  (planned_firstValues format .minimums inputs).bind fun _ _ _ _ =>
    (planned_firstValues format .maximums inputs).bind fun _ _ _ _ =>
    (planned_firstValues format .means (inputs + 1)).bind fun _ _ _ _ =>
    (planned_firstValues format .ranges (inputs + 1)).bind fun _ _ _ _ => planned_pure _

theorem planned_header : Planned F (header format) := by
  refine (planned_sizes format .header 4).bind fun ns _ _ _ => ?_
  split
  · split
    · exact planned_fail _
    · exact planned_pure _
  · exact planned_fail _

theorem planned_layerSizes {numLayers : ℕ} (inputs outputs : ℕ)
    (h : maxSize ≤ numLayers → F .sizeCount) :
    Planned F (layerSizes format numLayers inputs outputs) := by
  unfold layerSizes
  by_cases hcount : maxSize ≤ numLayers
  · rw [if_pos hcount]
    exact (planned_throw (h hcount)).bind fun _ _ _ hok => by cases hok
  · rw [if_neg hcount]
    refine (planned_sizes format .layerSizes (numLayers + 1)).bind fun ns _ _ _ => ?_
    dsimp only
    split
    · exact planned_fail _
    · exact planned_pure _

end

end ReluVerify.LayeredText
