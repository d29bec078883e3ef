import ReluVerify.Proofs.Consumption

namespace ReluVerify.LayeredText

def trimmedLines (text : List Char) : List (List Char) := (textLines text).map Text.trim

def numbered (start : ℕ) (ls : List (List Char)) : List Line :=
  (ls.zipIdx start).map Prod.swap

def shown (ls : List Line) : List Line := ls.filter (fun l => !l.2.isEmpty)

def kept (ls : List (List Char)) : List Line := shown ((numbered 1 ls).dropWhile isComment)

theorem numbered_append (start : ℕ) (ls more : List (List Char)) :
    numbered start (ls ++ more) = numbered start ls ++ numbered (start + ls.length) more := by
  rw [numbered, List.zipIdx_append, List.map_append, numbered, numbered]

theorem map_snd_numbered (start : ℕ) (ls : List (List Char)) :
    (numbered start ls).map Prod.snd = ls := by
  rw [numbered, List.map_map]
  exact List.zipIdx_map_fst start ls

theorem map_fst_numbered (start : ℕ) (ls : List (List Char)) :
    (numbered start ls).map Prod.fst = List.range' start ls.length := by
  rw [numbered, List.map_map]
  exact List.zipIdx_map_snd start ls

theorem bounds_of_mem_numbered {start : ℕ} {ls : List (List Char)} {l : Line}
    (h : l ∈ numbered start ls) : start ≤ l.1 ∧ l.1 < start + ls.length := by
  have hmem : l.1 ∈ (numbered start ls).map Prod.fst := List.mem_map_of_mem h
  rw [map_fst_numbered, List.mem_range'_1] at hmem
  exact hmem

theorem kept_sublist (ls : List (List Char)) : (kept ls).Sublist (numbered 1 ls) :=
  List.filter_sublist.trans (List.dropWhile_sublist _)

theorem bounds_of_mem_kept {ls : List (List Char)} {l : Line} (h : l ∈ kept ls) :
    1 ≤ l.1 ∧ l.1 ≤ ls.length := by
  have hbounds := bounds_of_mem_numbered ((kept_sublist ls).subset h)
  omega

theorem pairwise_kept (ls : List (List Char)) : (kept ls).Pairwise (fun l l' => l.1 < l'.1) := by
  refine List.Pairwise.sublist (kept_sublist ls) (List.pairwise_map.mp ?_)
  rw [map_fst_numbered]
  exact List.pairwise_lt_range'

theorem exists_kept_append (ls more : List (List Char)) : ∃ rest,
    kept (ls ++ more) = kept ls ++ shown rest ∧ rest.Sublist (numbered (1 + ls.length) more) ∧
      (kept ls ≠ [] → rest = numbered (1 + ls.length) more) := by
  rw [kept, numbered_append, List.dropWhile_append]
  split
  case isTrue h =>
    have hnil : kept ls = [] := by rw [kept, List.isEmpty_iff.mp h, shown, List.filter_nil]
    refine ⟨(numbered (1 + ls.length) more).dropWhile isComment, ?_, List.dropWhile_sublist _,
      fun hne => absurd hnil hne⟩
    rw [hnil, List.nil_append]
  case isFalse h =>
    exact ⟨_, List.filter_append .., List.Sublist.refl _, fun _ => rfl⟩

theorem lt_of_mem_shown {start : ℕ} {ls : List (List Char)} {rest : List Line}
    (h : rest.Sublist (numbered start ls)) : ∀ l ∈ shown rest, start ≤ l.1 ∧ l.2 ∈ ls := by
  intro l hl
  have hmem := h.subset (List.mem_of_mem_filter hl)
  refine ⟨(bounds_of_mem_numbered hmem).1, ?_⟩
  rw [← map_snd_numbered start ls]
  exact List.mem_map_of_mem hmem

theorem keptLines_eq (text : List Char) : keptLines text = kept (trimmedLines text) := by
  have hsplit : keptLines text = kept ((text.splitOn '\n').map Text.trim) := by
    rw [keptLines, kept, numbered, List.zipIdx_map, List.map_map]
    rfl
  rw [hsplit, trimmedLines, textLines]
  split
  case isFalse => rfl
  case isTrue h =>
    -- an empty line that ends the text is not kept
    obtain ⟨before, hbefore⟩ := List.getLast?_eq_some_iff.mp h
    rw [hbefore, List.dropLast_concat, List.map_append]
    obtain ⟨rest, hkept, hsub, -⟩ := exists_kept_append (before.map Text.trim) [[]]
    have hnil : shown rest = [] := by
      refine List.eq_nil_iff_forall_not_mem.mpr fun l hl => ?_
      have hempty := List.mem_singleton.mp (lt_of_mem_shown hsub l hl).2
      rw [shown, List.mem_filter, hempty] at hl
      cases hl.2
    rw [hnil, List.append_nil] at hkept
    exact hkept

theorem split_at_lastNumber {ls : List (List Char)} {looked rest : List Line}
    (h : kept ls = looked ++ rest) :
    (∀ l ∈ looked, l.1 ≤ lastNumber looked) ∧ ∀ l ∈ rest, lastNumber looked < l.1 := by
  have hpairwise := pairwise_kept ls
  rcases List.eq_nil_or_concat looked with rfl | ⟨before, last, rfl⟩
  · refine ⟨fun _ hl => absurd hl List.not_mem_nil, fun l hl => ?_⟩
    exact (bounds_of_mem_kept (h ▸ List.mem_append_right _ hl)).1
  · rw [List.concat_eq_append] at h ⊢
    rw [h, List.pairwise_append, List.pairwise_append] at hpairwise
    obtain ⟨⟨_, _, hbefore⟩, _, hrest⟩ := hpairwise
    rw [lastNumber_concat]
    refine ⟨fun l hl => ?_, fun l hl => hrest last (by simp) l hl⟩
    rcases List.mem_append.mp hl with hl | hl
    · exact (hbefore l hl last List.mem_cons_self).le
    · rw [List.mem_singleton.mp hl]

theorem filter_append_eq_left {β : Type} {p : β → Bool} {xs ys : List β} (hxs : ∀ x ∈ xs, p x)
    (hys : ∀ y ∈ ys, ¬p y) : (xs ++ ys).filter p = xs := by
  rw [List.filter_append, List.filter_eq_self.mpr hxs, List.filter_eq_nil_iff.mpr hys,
    List.append_nil]

theorem kept_take {ls : List (List Char)} {looked rest : List Line}
    (h : kept ls = looked ++ rest) : kept (ls.take (lastNumber looked)) = looked := by
  obtain ⟨more, hkept, hsub, -⟩ := exists_kept_append (ls.take (lastNumber looked))
    (ls.drop (lastNumber looked))
  rw [List.take_append_drop] at hkept
  have hmore : ∀ l ∈ shown more, lastNumber looked < l.1 := by
    intro l hl
    obtain ⟨hle, hmem⟩ := lt_of_mem_shown hsub l hl
    have hpos := List.length_pos_of_mem hmem
    rw [List.length_drop] at hpos
    rw [List.length_take_of_le (by omega)] at hle
    omega
  have htake : ∀ l ∈ kept (ls.take (lastNumber looked)), l.1 ≤ lastNumber looked := fun l hl =>
    (bounds_of_mem_kept hl).2.trans (List.length_take_le _ _)
  obtain ⟨hlooked, hrest⟩ := split_at_lastNumber h
  -- the lines up to the last one are the same of both splits
  calc kept (ls.take (lastNumber looked))
      = (kept (ls.take (lastNumber looked)) ++ shown more).filter (·.1 ≤ lastNumber looked) :=
        (filter_append_eq_left (by simpa using htake) (by simpa using hmore)).symm
    _ = (looked ++ rest).filter (·.1 ≤ lastNumber looked) := by rw [← hkept, h]
    _ = looked := filter_append_eq_left (by simpa using hlooked) (by simpa using hrest)

theorem exists_kept {ls ls' : List (List Char)} {looked rest : List Line}
    (h : kept ls = looked ++ rest)
    (hstart : ls'.take (lastNumber looked) = ls.take (lastNumber looked)) :
    ∃ rest', kept ls' = looked ++ rest' := by
  obtain ⟨rest', hkept, -, -⟩ := exists_kept_append (ls'.take (lastNumber looked))
    (ls'.drop (lastNumber looked))
  rw [List.take_append_drop, hstart, kept_take h] at hkept
  exact ⟨_, hkept⟩

inductive Spaced : List (List Char) → List (List Char) → Prop
  | done : Spaced [] []
  | line {l : List Char} {ls ls' : List (List Char)} (h : Spaced ls ls') :
      Spaced (l :: ls) (l :: ls')
  | blank {ls ls' : List (List Char)} (h : Spaced ls ls') : Spaced ls ([] :: ls')

theorem Spaced.filter_eq {ls ls' : List (List Char)} (h : Spaced ls ls') :
    ls'.filter (!·.isEmpty) = ls.filter (!·.isEmpty) := by
  induction h with
  | done => rfl
  | line _ ih => rw [List.filter_cons, List.filter_cons, ih]
  | blank _ ih => exact ih

theorem map_snd_shown_numbered (start : ℕ) (ls : List (List Char)) :
    (shown (numbered start ls)).map Prod.snd = ls.filter (!·.isEmpty) := by
  have hfilter := List.filter_map (f := Prod.snd) (p := fun line : List Char => !line.isEmpty)
    (l := numbered start ls)
  rw [map_snd_numbered] at hfilter
  exact hfilter.symm

end ReluVerify.LayeredText
