import ReluVerify.Proofs.Format

namespace ReluVerify

theorem length_splitOn_le {α : Type} [BEq α] (a : α) (l : List α) :
    (l.splitOn a).length ≤ l.length + 1 := by
  unfold List.splitOn
  induction l with
  | nil => rw [List.splitOnP_nil, List.length_singleton, List.length_nil]
  | cons x l ih =>
    rw [List.splitOnP_cons_eq_if_modifyHead, List.length_cons]
    split
    · rw [List.length_cons]
      exact Nat.succ_le_succ ih
    · rw [List.length_modifyHead]
      exact ih.trans (Nat.le_succ _)

theorem sublist_of_mem_splitOn {α : Type} [BEq α] {a : α} {l piece : List α}
    (h : piece ∈ l.splitOn a) : piece.Sublist l := by
  unfold List.splitOn at h
  induction l generalizing piece with
  | nil =>
    rw [List.splitOnP_nil, List.mem_singleton] at h
    rw [h]
  | cons x l ih =>
    rw [List.splitOnP_cons_eq_if_modifyHead] at h
    split at h
    · rcases List.mem_cons.mp h with rfl | h
      · exact List.nil_sublist _
      · exact (ih h).cons x
    · rcases hsplit : List.splitOnP (· == a) l with _ | ⟨first, rest⟩
      · rw [hsplit] at h
        cases h
      · rw [hsplit] at h ih
        rcases List.mem_cons.mp h with rfl | h
        · exact (ih List.mem_cons_self).cons_cons x
        · exact (ih (List.mem_cons_of_mem _ h)).cons x

theorem Text.trim_sublist (cs : List Char) : (Text.trim cs).Sublist cs := by
  have h := (List.dropWhile_sublist Text.isBlank).trans
    (List.dropWhile_sublist Text.isBlank (l := cs)).reverse
  rw [Text.trim]
  exact h.reverse.trans (by rw [List.reverse_reverse])

namespace Binary64

def IsWhole (x : Float) (n : ℕ) : Prop :=
  ∃ m e, magnitude x = .finite m e ∧ (isNegative x = false ∨ m = 0) ∧ (m : ℚ) * 2 ^ e = n

theorem eq_mul_iff_mod_div {m d n : ℕ} (hd : 0 < d) : m = n * d ↔ m % d = 0 ∧ n = m / d := by
  constructor
  · rintro rfl
    exact ⟨Nat.mul_mod_left n d, (Nat.mul_div_cancel n hd).symm⟩
  · rintro ⟨hmod, rfl⟩
    exact (Nat.div_mul_cancel (Nat.dvd_of_mod_eq_zero hmod)).symm

theorem mul_two_zpow_eq_iff {m n : ℕ} {e : ℤ} : (m : ℚ) * 2 ^ e = n ↔
    (scaleBinary m 1 (-e)).1 = n * (scaleBinary m 1 (-e)).2 := by
  unfold scaleBinary
  split
  case isTrue h =>
    obtain ⟨k, hk⟩ := Int.eq_ofNat_of_zero_le h
    obtain rfl : e = -(k : ℤ) := by omega
    rw [zpow_neg, zpow_natCast, mul_inv_eq_iff_eq_mul₀ (by positivity)]
    simp only [neg_neg, Int.toNat_natCast, Nat.one_shiftLeft]
    exact_mod_cast Iff.rfl
  case isFalse h =>
    obtain ⟨k, rfl⟩ := Int.eq_ofNat_of_zero_le (show 0 ≤ e by omega)
    simp only [neg_neg, Int.toNat_natCast, Nat.shiftLeft_eq, mul_one, zpow_natCast]
    exact_mod_cast Iff.rfl

theorem size?_eq_some {x : Float} {k : ℕ} :
    size? x = some k ↔ ∃ n, IsWhole x n ∧ k = min n maxSize := by
  unfold size? IsWhole
  cases hx : magnitude x with
  | nan => simp
  | infinite => simp
  | finite m e =>
    have hd : 0 < (scaleBinary m 1 (-e)).2 := by
      unfold scaleBinary
      split <;> simp [Nat.shiftLeft_eq]
    simp only [Bool.and_eq_true, decide_eq_true_eq, Bool.or_eq_true, Bool.not_eq_true',
      Option.ite_none_right_eq_some, Option.some.injEq]
    constructor
    · rintro ⟨⟨hmod, hsign⟩, rfl⟩
      exact ⟨_, ⟨m, e, rfl, hsign, mul_two_zpow_eq_iff.mpr
        ((eq_mul_iff_mod_div hd).mpr ⟨hmod, rfl⟩)⟩, rfl⟩
    · rintro ⟨n, ⟨m', e', hfinite, hsign, hvalue⟩, rfl⟩
      obtain ⟨rfl, rfl⟩ := Magnitude.finite.inj hfinite
      obtain ⟨hmod, rfl⟩ := (eq_mul_iff_mod_div hd).mp (mul_two_zpow_eq_iff.mp hvalue)
      exact ⟨⟨hmod, hsign⟩, rfl⟩

theorem sized_of_isWhole {x : Float} {n : ℕ} (h : n < maxSize) : size? x = some n ↔ IsWhole x n := by
  rw [size?_eq_some]
  constructor
  · rintro ⟨k, hk, hmin⟩
    rcases min_choice k maxSize with hmin' | hmin'
    · rwa [hmin, hmin']
    · exact absurd (hmin.trans hmin') h.ne
  · exact fun hn => ⟨n, hn, (min_eq_left h.le).symm⟩

end Binary64

namespace LayeredText

variable {α : Type} {read : String → Option α}

def lines (text : List Char) : List (List Char) :=
  (((text.splitOn '\n').map Text.trim).dropWhile (['/', '/'].isPrefixOf ·)).filter (!·.isEmpty)

theorem map_snd_keptLines (text : List Char) : (keptLines text).map Prod.snd = lines text := by
  have hlines : (text.splitOn '\n').map Text.trim =
      (((text.splitOn '\n').zipIdx 1).map (fun p => (p.2, Text.trim p.1))).map Prod.snd := by
    have hpieces := congrArg (List.map Text.trim) (List.zipIdx_map_fst 1 (text.splitOn '\n'))
    rw [← hpieces, List.map_map, List.map_map]
    rfl
  rw [lines, hlines, List.dropWhile_map, List.filter_map]
  rfl

theorem length_lines_le (text : List Char) : (lines text).length ≤ text.length + 1 := by
  refine ((List.filter_sublist.trans (List.dropWhile_sublist _)).length_le).trans ?_
  rw [List.length_map]
  exact length_splitOn_le _ _

theorem length_le_of_mem_lines {text line : List Char} (h : line ∈ lines text) :
    line.length ≤ text.length := by
  have hmem := (List.filter_sublist.trans (List.dropWhile_sublist _)).subset h
  obtain ⟨piece, hpiece, rfl⟩ := List.mem_map.mp hmem
  exact ((Text.trim_sublist piece).trans (sublist_of_mem_splitOn hpiece)).length_le

theorem length_tokens_le (line : List Char) : (tokens line).length ≤ line.length + 1 := by
  refine List.filter_sublist.length_le.trans ?_
  rw [List.length_map]
  exact length_splitOn_le _ _

theorem length_le_of_reads {bound : ℕ} {consumed : List (List Char)} {rows : List (List α)}
    (h : List.Forall₂ (Reads read) consumed rows) (hlines : ∀ line ∈ consumed, line.length ≤ bound) :
    ∀ row ∈ rows, row.length ≤ bound + 1 := by
  induction h with
  | nil => exact fun _ hrow => absurd hrow List.not_mem_nil
  | cons hrow _ ih =>
    obtain ⟨hline, hlines⟩ := List.forall_mem_cons.mp hlines
    refine List.forall_mem_cons.mpr ⟨?_, ih hlines⟩
    rw [← List.Forall₂.length_eq hrow]
    exact (length_tokens_le _).trans (Nat.succ_le_succ hline)

theorem exists_advances_iff {ls : List Line} {last : ℕ} {rows : List (List α)} :
    (∃ c, Advances read ⟨ls, last⟩ rows c) ↔ ∃ consumed rest,
      ls.map Prod.snd = consumed ++ rest ∧ List.Forall₂ (Reads read) consumed rows := by
  induction rows generalizing ls last with
  | nil => simp [advances_nil]
  | cons row rows ih =>
    constructor
    · rintro ⟨c, _ | ⟨hrow, hrest⟩⟩
      obtain ⟨consumed, rest, hsplit, hrows⟩ := ih.mp ⟨c, hrest⟩
      exact ⟨_ :: consumed, rest, congrArg (List.cons _) hsplit, .cons hrow hrows⟩
    · rintro ⟨_, rest, hsplit, _ | ⟨hrow, hrows⟩⟩
      obtain ⟨⟨number, text⟩, ls, rfl, rfl, hls⟩ := List.map_eq_cons_iff.mp hsplit
      obtain ⟨c, hc⟩ := ih.mpr ⟨_, rest, hls, hrows⟩
      exact ⟨c, .line hrow hc⟩

theorem run'_eq_ok {β : Type} {step : Reading β} {c : Cursor} {b : β} :
    step.run' c = .ok b ↔ ∃ c', step.run c = .ok (b, c') := by
  rw [StateT.run'_eq]
  cases step.run c with
  | error e => simp
  | ok r => simp [Prod.ext_iff]

theorem Accepts.run' {β : Type} {step : Reading β} {P : List (List α) → β → Prop}
    (h : Accepts read step P) {text : List Char} {b : β} :
    step.run' ⟨keptLines text, 0⟩ = .ok b ↔ ∃ consumed rest rows,
      lines text = consumed ++ rest ∧ List.Forall₂ (Reads read) consumed rows ∧ P rows b := by
  rw [run'_eq_ok, exists_congr (h _ b)]
  constructor
  · rintro ⟨c, rows, hb, hadvances⟩
    obtain ⟨consumed, rest, hsplit, hrows⟩ := exists_advances_iff.mp ⟨c, hadvances⟩
    exact ⟨consumed, rest, rows, map_snd_keptLines text ▸ hsplit, hrows, hb⟩
  · rintro ⟨consumed, rest, rows, hsplit, hrows, hb⟩
    obtain ⟨c, hadvances⟩ := exists_advances_iff.mpr
      ⟨consumed, rest, (map_snd_keptLines text).trans hsplit, hrows⟩
    exact ⟨c, rows, hb, hadvances⟩

-- The bound is no restriction: a text is shorter than the largest size that can index it.
theorem parse_eq_ok_iff (read : String → Option Float) (text : String) (net : LayeredNetwork Float)
    (hlength : text.length < maxSize) :
    parse { Binary64.format with read? := read } text = .ok net ↔ ∃ consumed rest rows,
      lines text.toList = consumed ++ rest ∧ List.Forall₂ (Reads read) consumed rows ∧
        Describes Binary64.IsWhole rows net := by
  rw [← String.length_toList] at hlength
  have hbounded : ∀ {consumed rest : List (List Char)} {rows : List (List Float)},
      lines text.toList = consumed ++ rest → List.Forall₂ (Reads read) consumed rows →
      rows.length ≤ maxSize ∧ ∀ row ∈ rows, row.length ≤ maxSize := by
    intro consumed rest rows hsplit hrows
    constructor
    · have hcount := length_lines_le text.toList
      rw [hsplit, List.length_append, hrows.length_eq] at hcount
      omega
    · refine fun row hrow => (length_le_of_reads hrows (fun line hline => ?_) row hrow).trans hlength
      exact length_le_of_mem_lines (hsplit ▸ List.mem_append_left _ hline)
  refine (accepts_network _).run'.trans ?_
  constructor
  · rintro ⟨consumed, rest, rows, hsplit, hrows, -, hdescribes⟩
    obtain ⟨hcount, hrow⟩ := hbounded hsplit hrows
    refine ⟨consumed, rest, rows, hsplit, hrows, (hdescribes.imp hcount hrow ?_ ?_).2⟩
    · rintro x ⟨k, hk⟩
      obtain ⟨n, hn, -⟩ := Binary64.size?_eq_some.mp hk
      exact ⟨n, hn⟩
    · exact fun x n hn hx => (Binary64.sized_of_isWhole hn).mp hx
  · rintro ⟨consumed, rest, rows, hsplit, hrows, hdescribes⟩
    obtain ⟨hcount, hrow⟩ := hbounded hsplit hrows
    refine ⟨consumed, rest, rows, hsplit, hrows, hdescribes.imp hcount hrow ?_ ?_⟩
    · exact fun x ⟨n, hn⟩ => ⟨_, Binary64.size?_eq_some.mpr ⟨n, hn, rfl⟩⟩
    · exact fun x n hn hx => (Binary64.sized_of_isWhole hn).mpr hx

def gateText : String := "// one hidden neuron
  // and one output
2, 1, 1, 1, 0

1, 1, 1, 9
,
-1,
1.0, 2.0
0, 0,
1, 1
2.0, 7
-0.5
3,
1e-1,
the rest
"

def gate : LayeredNetwork Float :=
  ⟨1, [⟨[[2]], [-0.5]⟩, ⟨[[3]], [0.1]⟩], some ⟨[-1], [1], [0, 0], [1, 1]⟩⟩

theorem parse_eq_ok_iff_gate : gateText.length < maxSize ∧ ∃ consumed rest rows,
    lines gateText.toList = consumed ++ rest ∧
      List.Forall₂ (Reads Numeral.read?) consumed rows ∧ Describes Binary64.IsWhole rows gate := by
  have hlength : gateText.length < maxSize := by decide +kernel
  have hparse : parse { Binary64.format with read? := Numeral.read? } gateText = .ok gate := by
    decide +kernel
  exact ⟨hlength, (parse_eq_ok_iff Numeral.read? gateText gate hlength).mp hparse⟩

end LayeredText

end ReluVerify
