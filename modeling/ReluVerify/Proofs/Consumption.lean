import ReluVerify.Proofs.Parsing
import ReluVerify.Proofs.Plan

namespace ReluVerify.LayeredText

variable {α : Type} {F : Failure → Prop}

-- What follows the last line break is a line unless it is empty.
def textLines (text : List Char) : List (List Char) :=
  if (text.splitOn '\n').getLast? = some [] then (text.splitOn '\n').dropLast
  else text.splitOn '\n'

theorem getElem?_textLines {text line : List Char} {i : ℕ} (h : (text.splitOn '\n')[i]? = some line)
    (hne : line ≠ []) : (textLines text)[i]? = some line := by
  unfold textLines
  split
  · rename_i hlast
    rw [List.getElem?_dropLast, if_pos, h]
    by_contra hi
    have hlen := (List.getElem?_eq_some_iff.mp h).1
    rw [List.getLast?_eq_getElem?, show (text.splitOn '\n').length - 1 = i by omega, h] at hlast
    exact hne (Option.some.inj hlast)
  · exact h

theorem textLines_of_mem_keptLines {text : List Char} {l : Line} (h : l ∈ keptLines text) :
    1 ≤ l.1 ∧ ∃ line, (textLines text)[l.1 - 1]? = some line ∧ l.2 = Text.trim line := by
  obtain ⟨hmem, hkept⟩ := List.mem_filter.mp h
  obtain ⟨⟨line, number⟩, hline, rfl⟩ := List.mem_map.mp ((List.dropWhile_sublist _).subset hmem)
  obtain ⟨hle, hget⟩ := List.mk_mem_zipIdx_iff_le_and_getElem?_sub.mp hline
  refine ⟨hle, line, getElem?_textLines hget ?_, rfl⟩
  rintro rfl
  cases hkept

theorem lastNumber_le {text : List Char} {looked rest : List Line}
    (h : keptLines text = looked ++ rest) : lastNumber looked ≤ (textLines text).length := by
  rcases List.eq_nil_or_concat looked with rfl | ⟨before, l, rfl⟩
  · exact Nat.zero_le _
  · have hl : l ∈ keptLines text := by
      rw [h]
      simp
    obtain ⟨hpos, line, hline, _⟩ := textLines_of_mem_keptLines hl
    have hlt := (List.getElem?_eq_some_iff.mp hline).1
    rw [List.concat_eq_append, lastNumber_concat]
    omega

section

variable (format : NumberFormat α)

def body (numLayers inputs outputs : ℕ) : Reading (LayeredNetwork α) := do
  let sizes ← layerSizes format numLayers inputs outputs
  let _ ← values format .flag 0
  let norm ← normalization format inputs
  let ls ← layers format sizes
  match LayeredNetwork.build (ls.map Layer.weights) (ls.map Layer.biases) with
  | .ok n => return n.withNormalization norm
  | .error e => throw (.shape e)

theorem network_eq_bind :
    network format = header format >>= fun r => body format r.1 r.2.1 r.2.2 := rfl

theorem planned_body {numLayers : ℕ} (inputs outputs : ℕ) (hpos : 1 ≤ numLayers)
    (h : maxSize ≤ numLayers → F .sizeCount) :
    Planned F (body format numLayers inputs outputs) := by
  refine (planned_layerSizes format inputs outputs h).bind fun sizes c c' hsizes => ?_
  obtain ⟨_, ⟨_, _, _, hsizes⟩, _⟩ := (accepts_layerSizes format _ _ _ c sizes c').mp hsizes
  obtain ⟨tail, rfl⟩ : ∃ tail, sizes = inputs :: tail := ⟨_, hsizes.sizes_eq⟩
  refine (planned_values format .flag 0).bind fun _ _ _ _ =>
    (planned_normalization format inputs).bind fun norm _ _ _ =>
    (planned_layers format inputs tail).bind fun ls c c' hls => ?_
  obtain ⟨rows, hrows, _⟩ := (accepts_layers format _ _ c ls c').mp hls
  have hne : ls ≠ [] :=
    List.ne_nil_of_length_pos (hpos.trans_eq (hsizes.numLayers_eq hrows).symm)
  rw [LayeredNetwork.build_layers hne hrows.fits]
  exact planned_pure _

theorem planned_network : Planned (· = .sizeCount) (network format) := by
  rw [network_eq_bind]
  refine (planned_header format).bind fun r c c' hr => ?_
  obtain ⟨_, ⟨_, _, hheader⟩, _⟩ := (accepts_header format c r c').mp hr
  exact planned_body format _ _ hheader.numLayers_pos fun _ => rfl

theorem header_run'_eq_ok {text : List Char} {r : ℕ × ℕ × ℕ} :
    (header format).run' ⟨keptLines text, 0⟩ = .ok r ↔ ∃ line rest row,
      lines text = line :: rest ∧ Reads format.read? line row ∧
        HeaderRow (Sized format) r.1 r.2.1 r.2.2 row := by
  rw [(accepts_header format).run']
  constructor
  · rintro ⟨_, rest, _, hsplit, hrows, row, rfl, hheader⟩
    obtain ⟨line, _, hrow, hnil, rfl⟩ := List.forall₂_cons_right_iff.mp hrows
    rw [List.forall₂_nil_right_iff.mp hnil] at hsplit
    exact ⟨line, rest, row, hsplit, hrow, hheader⟩
  · rintro ⟨line, rest, row, hsplit, hrow, hheader⟩
    exact ⟨[line], rest, [row], hsplit, .cons hrow .nil, row, rfl, hheader⟩

theorem parse_eq_sizeCount_iff {text : String} : parse format text = .error .sizeCount ↔
    ∃ r, (header format).run' ⟨keptLines text.toList, 0⟩ = .ok r ∧ maxSize ≤ r.1 := by
  have hparse : parse format text = ((header format).run ⟨keptLines text.toList, 0⟩ >>= fun p =>
      (body format p.1.1 p.1.2.1 p.1.2.2).run' p.2) := by
    rw [parse, network_eq_bind, StateT.run'_eq, StateT.run_bind]
    cases (header format).run ⟨keptLines text.toList, 0⟩ <;> rfl
  rw [hparse]
  have hne : (header format).run' ⟨keptLines text.toList, 0⟩ ≠ .error .sizeCount :=
    Planned.run'_ne_sizeCount (F := fun _ => False) (planned_header format) id _
  rw [StateT.run'_eq] at hne ⊢
  cases hrun : (header format).run ⟨keptLines text.toList, 0⟩ with
  | error e =>
    rw [hrun] at hne
    refine iff_of_false (fun h => ?_) (by simp)
    cases h
    exact hne rfl
  | ok p =>
    obtain ⟨⟨numLayers, inputs, outputs⟩, c⟩ := p
    obtain ⟨_, ⟨_, _, hheader⟩, _⟩ := (accepts_header format _ _ c).mp hrun
    have hcount : (∃ r, Prod.fst <$> (Except.ok ((numLayers, inputs, outputs), c) :
        Except Failure _) = .ok r ∧ maxSize ≤ r.1) ↔ maxSize ≤ numLayers := by simp
    rw [hcount]
    by_cases h : maxSize ≤ numLayers
    · refine iff_of_true ?_ h
      change (body format numLayers inputs outputs).run' c = _
      rw [body, layerSizes, if_pos h]
      rfl
    · refine iff_of_false ?_ h
      exact Planned.run'_ne_sizeCount (F := fun _ => False)
        (planned_body format inputs outputs hheader.numLayers_pos h) id c

theorem length_of_values {text : List Char} {part : Part} {least : ℕ} {c c' : Cursor} {xs : List α}
    (hc : ∀ l ∈ c.rest, l ∈ keptLines text)
    (h : (values format part least).run c = .ok (xs, c')) :
    least ≤ xs.length ∧ xs.length ≤ text.length + 1 := by
  obtain ⟨_, ⟨rfl, hle⟩, hadvances⟩ := (accepts_values format part least c xs c').mp h
  obtain _ | @⟨number, last, line, rest, _, _, _, hreads, _⟩ := hadvances
  refine ⟨hle, ?_⟩
  have hline : line ∈ lines text := by
    rw [← map_snd_keptLines]
    exact List.mem_map.mpr ⟨_, hc _ List.mem_cons_self, rfl⟩
  rw [← List.Forall₂.length_eq hreads]
  exact (length_tokens_le line).trans (Nat.succ_le_succ (length_le_of_mem_lines hline))

theorem length_of_sizes {part : Part} {least : ℕ} {c c' : Cursor} {ns : List ℕ}
    (h : (sizes format part least).run c = .ok (ns, c')) : least ≤ ns.length := by
  obtain ⟨_, ⟨xs, rfl, hle, hns⟩, _⟩ := (accepts_sizes format part least c ns c').mp h
  exact hle.trans_eq hns.length_eq

theorem parse_outcome (text : String) :
    (∃ looked rest, keptLines text.toList = looked ++ rest ∧
      LooksAt (network format) looked rest ∧
      lastNumber looked ≤ (textLines text.toList).length ∧
      ((∃ net, parse format text = .ok net) ∨
        (∃ cause, parse format text = .error (.malformed (lastNumber looked) cause)) ∨
        parse format text = .error .sizeCount)) ∧
    (∀ l ∈ keptLines text.toList, 1 ≤ l.1 ∧
      ∃ line, (textLines text.toList)[l.1 - 1]? = some line ∧ l.2 = Text.trim line) ∧
    (parse format text = .error .sizeCount ↔ ∃ line rest row numLayers inputs outputs,
      lines text.toList = line :: rest ∧ Reads format.read? line row ∧
        HeaderRow (Sized format) numLayers inputs outputs row ∧ maxSize ≤ numLayers) ∧
    (∀ part least c xs c', (∀ l ∈ c.rest, l ∈ keptLines text.toList) →
      (values format part least).run c = .ok (xs, c') →
        least ≤ xs.length ∧ xs.length ≤ text.length + 1) ∧
    ∀ part least c ns c', (sizes format part least).run c = .ok (ns, c') → least ≤ ns.length := by
  refine ⟨?_, fun l hl => textLines_of_mem_keptLines hl, ?_,
    fun part least c xs c' hc h => ?_, fun part least c ns c' h => length_of_sizes format h⟩
  · obtain ⟨looked, rest, hsplit, hlooks, houtcome⟩ :=
      (planned_network format).exists_looksAt (keptLines text.toList)
    refine ⟨looked, rest, hsplit, hlooks, lastNumber_le hsplit, ?_⟩
    simp only [exists_eq_left] at houtcome
    exact houtcome
  · rw [parse_eq_sizeCount_iff]
    simp only [header_run'_eq_ok]
    constructor
    · rintro ⟨r, ⟨line, rest, row, hsplit, hrow, hheader⟩, hle⟩
      exact ⟨line, rest, row, r.1, r.2.1, r.2.2, hsplit, hrow, hheader, hle⟩
    · rintro ⟨line, rest, row, numLayers, inputs, outputs, hsplit, hrow, hheader, hle⟩
      exact ⟨(numLayers, inputs, outputs), ⟨line, rest, row, hsplit, hrow, hheader⟩, hle⟩
  · rw [← String.length_toList]
    exact length_of_values format hc h

end

theorem parse_hugeHeader : parse Binary64.format "1e300,0,0,0" = .error .sizeCount := by
  decide +kernel

end ReluVerify.LayeredText
