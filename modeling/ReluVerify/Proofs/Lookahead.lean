import ReluVerify.Proofs.Kept

namespace ReluVerify.LayeredText

variable {α β : Type} {F : Failure → Prop}

def Failure.atLine (number : ℕ) : Failure → Failure
  | .malformed _ cause => .malformed number cause
  | failure => failure

theorem Plan.answer_atLine (hF : ∀ failure, F failure → ∀ n, failure.atLine n = failure)
    (p : Plan F β) (number number' : ℕ) :
    p.answer number' = (p.answer number).mapError (Failure.atLine number') := by
  cases p with
  | done b => rfl
  | fail cause => rfl
  | abort failure h => exact congrArg Except.error (hF failure h number').symm
  | line part next => rfl

theorem Plan.Leads.congr {p p' : Plan F β} {ls ls' : List Line} (h : Leads p ls p')
    (htexts : ls'.map Prod.snd = ls.map Prod.snd) : Leads p ls' p' := by
  induction h generalizing ls' with
  | stay p =>
    rw [List.map_eq_nil_iff.mp htexts]
    exact .stay p
  | @line part next l ls p' h ih =>
    obtain ⟨l', ls', rfl, hl, hls⟩ := List.map_eq_cons_iff.mp htexts
    exact .line (hl ▸ ih hls)

theorem Plan.Leads.run'_of_texts {p p' : Plan F β} {looked rest ls : List Line}
    (h : Leads p looked p') (hrest : p'.Waits → rest = [])
    (htexts : ls.map Prod.snd = (looked ++ rest).map Prod.snd) :
    p.run.run' ⟨ls, 0⟩ = p'.answer (lastNumber (ls.take looked.length)) := by
  have htake : (ls.take looked.length).map Prod.snd = looked.map Prod.snd := by
    rw [List.map_take, htexts, List.map_append]
    exact List.take_left' (List.length_map _)
  have hdrop : p'.Waits → ls.drop looked.length = [] := by
    intro hwaits
    have hlen := congrArg List.length htexts
    rw [hrest hwaits, List.append_nil, List.length_map, List.length_map] at hlen
    exact List.drop_eq_nil_of_le hlen.le
  have hlooked := (h.congr htake).run' hdrop 0
  rwa [List.take_append_drop] at hlooked

theorem Planned.exists_count {step : Reading β} (h : Planned F step)
    (hF : ∀ failure, F failure → ∀ n, failure.atLine n = failure) {ls ls' : List Line}
    (htexts : ls'.map Prod.snd = ls.map Prod.snd) : ∃ count,
      step.run' ⟨ls, 0⟩ =
        (step.run' ⟨ls, 0⟩).mapError (Failure.atLine (lastNumber (ls.take count))) ∧
      step.run' ⟨ls', 0⟩ =
        (step.run' ⟨ls, 0⟩).mapError (Failure.atLine (lastNumber (ls'.take count))) := by
  obtain ⟨p, rfl⟩ := h
  obtain ⟨looked, rest, p', rfl, hleads, hrest⟩ := p.exists_leads ls
  have hrun := hleads.run'_of_texts hrest rfl
  have hrun' := hleads.run'_of_texts hrest htexts
  refine ⟨looked.length, ?_, ?_⟩
  · rw [hrun]
    exact p'.answer_atLine hF _ _
  · rw [hrun, hrun']
    exact p'.answer_atLine hF _ _

theorem LooksAt.run'_of_end {step : Reading β} {looked rest more after : List Line} {number : ℕ}
    {part : Part} (h : LooksAt step looked rest)
    (hend : step.run' ⟨looked ++ rest, 0⟩ = .error (.malformed number (.endOfText part)))
    (hsplit : rest = more ++ after) : ∃ number' part',
      step.run' ⟨looked ++ more, 0⟩ = .error (.malformed number' (.endOfText part')) := by
  rcases h.enough with henough | ⟨rfl, part', hpart'⟩
  · exact ⟨number, part, (henough more).trans hend⟩
  · obtain ⟨rfl, rfl⟩ := List.append_eq_nil_iff.mp hsplit.symm
    rw [List.append_nil]
    exact ⟨_, part', hpart'⟩

theorem LooksAt.run'_prefix {step : Reading β} {looked rest before after : List Line} {number : ℕ}
    {part : Part} (h : LooksAt step looked rest)
    (hend : step.run' ⟨looked ++ rest, 0⟩ = .error (.malformed number (.endOfText part)))
    (hsplit : looked ++ rest = before ++ after) : ∃ number' part',
      step.run' ⟨before, 0⟩ = .error (.malformed number' (.endOfText part')) := by
  rcases List.append_eq_append_iff.mp hsplit with ⟨more, rfl, hrest⟩ | ⟨missing, hlooked, -⟩
  · exact h.run'_of_end hend hrest
  · by_cases hmissing : missing = []
    · rw [hmissing, List.append_nil] at hlooked
      have hnone := h.run'_of_end hend (List.nil_append rest).symm
      rwa [List.append_nil, hlooked] at hnone
    · obtain ⟨part', hpart'⟩ := h.needed before missing hlooked hmissing
      exact ⟨_, part', hpart'⟩

variable {read : String → Option α}

theorem advances_iff {c c' : Cursor} {rows : List (List α)} : Advances read c rows c' ↔
    ∃ looked, c.rest = looked ++ c'.rest ∧
      List.Forall₂ (fun (l : Line) row => Reads read l.2 row) looked rows ∧
      c'.line = looked.foldl (fun _ l => l.1) c.line := by
  induction rows generalizing c with
  | nil =>
    rw [advances_nil]
    constructor
    · rintro rfl
      exact ⟨[], rfl, .nil, rfl⟩
    · rintro ⟨_, hrest, ⟨⟩, hline⟩
      cases c
      cases c'
      cases hrest
      cases hline
      rfl
  | cons row rows ih =>
    constructor
    · rintro (_ | ⟨hrow, hrows⟩)
      obtain ⟨looked, rfl, hlooked, hline⟩ := ih.mp hrows
      exact ⟨_ :: looked, rfl, .cons hrow hlooked, hline⟩
    · rintro ⟨_, hrest, hrows, hline⟩
      obtain ⟨⟨number, text⟩, looked, hrow, hlooked, rfl⟩ := List.forall₂_cons_right_iff.mp hrows
      obtain ⟨_, last⟩ := c
      cases hrest
      exact .line hrow (ih.mpr ⟨looked, rfl, hlooked, hline⟩)

theorem forall₂_getLast? {γ δ : Type} {R : γ → δ → Prop} {xs : List γ} {ys : List δ} {y : δ}
    (h : List.Forall₂ R xs ys) (hy : ys.getLast? = some y) : ∃ x, xs.getLast? = some x ∧ R x y := by
  have hreverse := List.forall₂_reverse_iff.mpr h
  rw [← List.head?_reverse] at hy ⊢
  obtain ⟨ys', hys'⟩ := List.head?_eq_some_iff.mp hy
  rw [hys'] at hreverse
  obtain ⟨x, xs', hx, _, hxs'⟩ := List.forall₂_cons_right_iff.mp hreverse
  exact ⟨x, by rw [hxs', List.head?_cons], hx⟩

theorem LayerRows.length_rows {sizes : List ℕ} {rows : List (List α)} {layers : List (Layer α)}
    (h : LayerRows sizes rows layers) : rows.length = 2 * (layers.flatMap Layer.biases).length := by
  induction h with
  | last => rfl
  | layer hweightRows _ hbiasRows hbiases _ ih =>
    rw [List.flatMap_cons]
    simp only [List.length_append, ih, ← hbiases.length_eq, hweightRows, hbiasRows]
    omega

theorem LayerRows.getLast? {sizes : List ℕ} {rows : List (List α)} {layers : List (Layer α)} {b : α}
    (h : LayerRows sizes rows layers) (hb : (layers.flatMap Layer.biases).getLast? = some b) :
    ∃ row, rows.getLast? = some row ∧ row.head? = some b := by
  induction h with
  | last => cases hb
  | @layer _ _ _ _ biasRows rest l ls _ _ _ hbiases hrest ih =>
    rw [List.flatMap_cons, List.getLast?_append] at hb
    rw [List.getLast?_append, List.getLast?_append]
    cases hls : (ls.flatMap Layer.biases).getLast? with
    | some b' =>
      rw [hls] at hb ih
      obtain ⟨row, hrow, hhead⟩ := ih hb
      exact ⟨row, by rw [hrow, Option.some_or, Option.some_or], hhead⟩
    | none =>
      -- layers without biases have no rows either
      rw [hls, Option.none_or] at hb
      obtain ⟨row, hrow, hhead⟩ := forall₂_getLast? hbiases hb
      have hnil : rest = [] := by
        have hlen := hrest.length_rows
        rw [List.getLast?_eq_none_iff.mp hls] at hlen
        exact List.length_eq_zero_iff.mp hlen
      exact ⟨row, by rw [hnil, List.getLast?_nil, Option.none_or, hrow, Option.some_or], hhead⟩

def lastBias? (net : LayeredNetwork α) : Option α := (net.layers.flatMap Layer.biases).getLast?

theorem Describes.getLast? {whole : α → ℕ → Prop} {rows : List (List α)} {net : LayeredNetwork α}
    {b : α} (h : Describes whole rows net) (hb : lastBias? net = some b) :
    ∃ row, rows.getLast? = some row ∧ row.head? = some b := by
  obtain ⟨_, _, _, _, _, _, hlayers⟩ := h
  obtain ⟨row, hrow, hhead⟩ := hlayers.getLast? hb
  obtain ⟨body, rfl⟩ := List.getLast?_eq_some_iff.mp hrow
  refine ⟨row, ?_, hhead⟩
  simp only [← List.cons_append, List.getLast?_concat]

section

variable (format : NumberFormat α)

def SameStart (count : ℕ) (text text' : String) : Prop :=
  (trimmedLines text'.toList).take count = (trimmedLines text.toList).take count

theorem exists_keptLines {text text' : String} {looked rest : List Line}
    (h : keptLines text.toList = looked ++ rest)
    (hstart : SameStart (lastNumber looked) text text') :
    ∃ rest', keptLines text'.toList = looked ++ rest' := by
  rw [keptLines_eq] at h ⊢
  exact exists_kept h hstart

theorem parse_eq_of_malformed {text text' : String} {number : ℕ} {cause : Cause}
    (h : parse format text = .error (.malformed number cause))
    (hcause : ∀ part, cause ≠ .endOfText part) (hstart : SameStart number text text') :
    parse format text' = .error (.malformed number cause) := by
  obtain ⟨looked, rest, hsplit, hlooks, houtcome⟩ :=
    (planned_network format).exists_looksAt (keptLines text.toList)
  rw [parse] at h
  have hnumber : number = lastNumber looked := by
    rw [h] at houtcome
    rcases houtcome with ⟨_, ⟨⟩⟩ | ⟨_, ⟨⟩⟩ | ⟨_, rfl, ⟨⟩⟩
    rfl
  rcases hlooks.enough with henough | ⟨hnil, part, hpart⟩
  · obtain ⟨rest', hrest'⟩ := exists_keptLines hsplit (hnumber ▸ hstart)
    rw [parse, hrest', henough rest', ← hsplit, h]
  · rw [hsplit, hnil, List.append_nil, hpart] at h
    cases h
    exact absurd rfl (hcause part)

theorem parse_eq_of_ok {text : String} {net : LayeredNetwork α} (h : parse format text = .ok net) :
    ∃ number rest, (network format).run ⟨keptLines text.toList, 0⟩ = .ok (net, ⟨rest, number⟩) ∧
      (∀ b, lastBias? net = some b → 1 ≤ number ∧ ∃ line row,
        (trimmedLines text.toList)[number - 1]? = some line ∧ Reads format.read? line row ∧
          row.head? = some b) ∧
      ∀ text', SameStart number text text' → parse format text' = .ok net := by
  obtain ⟨⟨rest, number⟩, hrun⟩ := run'_eq_ok.mp h
  refine ⟨number, rest, hrun, ?_⟩
  obtain ⟨rows, hrows, hadvances⟩ := (accepts_network format _ _ _).mp hrun
  obtain ⟨looked, hsplit, hlooked, hline⟩ := advances_iff.mp hadvances
  replace hline : number = lastNumber looked := hline
  refine ⟨fun b hb => ?_, fun text' hstart => ?_⟩
  · obtain ⟨row, hrow, hhead⟩ := hrows.2.getLast? hb
    obtain ⟨l, hl, hread⟩ := forall₂_getLast? hlooked hrow
    obtain ⟨before, rfl⟩ := List.getLast?_eq_some_iff.mp hl
    rw [lastNumber_concat] at hline
    have hmem : l ∈ keptLines text.toList := by
      rw [show keptLines text.toList = _ from hsplit]
      simp
    obtain ⟨hpos, line, hget, htrim⟩ := textLines_of_mem_keptLines hmem
    refine ⟨hline ▸ hpos, l.2, row, ?_, hread, hhead⟩
    rw [hline, trimmedLines, List.getElem?_map, hget, htrim]
    rfl
  · obtain ⟨rest', hrest'⟩ := exists_keptLines hsplit (hline ▸ hstart)
    have hrun' : (network format).run ⟨keptLines text'.toList, 0⟩ = .ok (net, ⟨rest', number⟩) :=
      (accepts_network format _ _ _).mpr
        ⟨rows, hrows, advances_iff.mpr ⟨looked, hrest', hlooked, hline⟩⟩
    exact run'_eq_ok.mpr ⟨_, hrun'⟩

theorem parse_prefix {text text' : String} {number : ℕ} {part : Part}
    (h : parse format text = .error (.malformed number (.endOfText part)))
    (hshorter : trimmedLines text'.toList <+: trimmedLines text.toList) : ∃ number' part',
      parse format text' = .error (.malformed number' (.endOfText part')) := by
  obtain ⟨looked, rest, hsplit, hlooks, -⟩ :=
    (planned_network format).exists_looksAt (keptLines text.toList)
  obtain ⟨more, hmore⟩ := hshorter
  obtain ⟨after, hkept, -, -⟩ := exists_kept_append (trimmedLines text'.toList) more
  rw [hmore, ← keptLines_eq, ← keptLines_eq, hsplit] at hkept
  rw [parse, hsplit] at h
  exact hlooks.run'_prefix h hkept

theorem exists_parse_spaced {text text' : String} {start after after' : List (List Char)}
    (htext : trimmedLines text.toList = start ++ after)
    (htext' : trimmedLines text'.toList = start ++ after') (hstart : kept start ≠ [])
    (hspaced : Spaced after after') : ∃ count,
      parse format text = (parse format text).mapError
        (Failure.atLine (lastNumber ((keptLines text.toList).take count))) ∧
      parse format text' = (parse format text).mapError
        (Failure.atLine (lastNumber ((keptLines text'.toList).take count))) := by
  have htexts : ∀ {text : String} {after : List (List Char)},
      trimmedLines text.toList = start ++ after →
        (keptLines text.toList).map Prod.snd =
          (kept start).map Prod.snd ++ after.filter (!·.isEmpty) := by
    intro text after htext
    obtain ⟨rest, hkept, -, hrest⟩ := exists_kept_append start after
    rw [keptLines_eq, htext, hkept, hrest hstart, List.map_append, map_snd_shown_numbered]
  refine (planned_network format).exists_count (fun failure hfailure n => ?_) ?_
  · rw [hfailure]
    rfl
  · rw [htexts htext, htexts htext', hspaced.filter_eq]

theorem parse_looks_no_further (text : String) :
    (∀ number cause, parse format text = .error (.malformed number cause) →
      (∀ part, cause ≠ .endOfText part) → ∀ text', SameStart number text text' →
        parse format text' = .error (.malformed number cause)) ∧
    (∀ net, parse format text = .ok net → ∃ number rest,
      (network format).run ⟨keptLines text.toList, 0⟩ = .ok (net, ⟨rest, number⟩) ∧
      (∀ b, lastBias? net = some b → 1 ≤ number ∧ ∃ line row,
        (trimmedLines text.toList)[number - 1]? = some line ∧ Reads format.read? line row ∧
          row.head? = some b) ∧
      ∀ text', SameStart number text text' → parse format text' = .ok net) ∧
    (∀ number part, parse format text = .error (.malformed number (.endOfText part)) →
      ∀ text' : String, trimmedLines text'.toList <+: trimmedLines text.toList →
        ∃ number' part', parse format text' = .error (.malformed number' (.endOfText part'))) ∧
    ∀ (text' : String) (start after after' : List (List Char)),
      trimmedLines text.toList = start ++ after → trimmedLines text'.toList = start ++ after' →
      kept start ≠ [] → Spaced after after' → ∃ count,
        parse format text = (parse format text).mapError
          (Failure.atLine (lastNumber ((keptLines text.toList).take count))) ∧
        parse format text' = (parse format text).mapError
          (Failure.atLine (lastNumber ((keptLines text'.toList).take count))) :=
  ⟨fun _ _ h hcause _ hstart => parse_eq_of_malformed format h hcause hstart,
    fun _ h => parse_eq_of_ok format h, fun _ _ h _ hshorter => parse_prefix format h hshorter,
    fun _ _ _ _ htext htext' hstart hspaced =>
      exists_parse_spaced format htext htext' hstart hspaced⟩

end

end ReluVerify.LayeredText
