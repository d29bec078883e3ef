import Mathlib
import ReluVerify.Storage.FileTree

namespace ReluVerify

theorem splitOn_of_notMem {α : Type} [DecidableEq α] {a : α} {l : List α} (h : a ∉ l) :
    l.splitOn a = [l] := by
  unfold List.splitOn
  induction l with
  | nil => rw [List.splitOnP_nil]
  | cons x l ih =>
    obtain ⟨hx, hl⟩ := not_or.mp (List.mem_cons.not.mp h)
    rw [List.splitOnP_cons_eq_if_modifyHead, ih hl, if_neg (by simpa using Ne.symm hx)]
    rfl

namespace Path

structure IsName (name : String) : Prop where
  ne_here : name ≠ "."
  ne_up : name ≠ ".."
  ne_empty : name ≠ ""
  slash_notMem : '/' ∉ name.toList

theorem steps_of_isName {name : String} (h : IsName name) : steps name = [name] := by
  rw [steps, splitOn_of_notMem h.slash_notMem, List.map_singleton, String.ofList_toList]

theorem steps_append_slash {path : String} {front back : List Char}
    (h : path.toList = front ++ '/' :: back) :
    steps path = steps (String.ofList front) ++ steps (String.ofList back) := by
  simp only [steps, h, List.splitOn, String.toList_ofList, ← List.map_append]
  rw [List.splitOnP_append_cons _ _ (by simp)]

theorem endsWith_slash_iff {path : String} :
    path.endsWith "/" = true ↔ ∃ front, path.toList = front ++ ['/'] := by
  rw [String.endsWith_eq_endsWith_toSlice, String.Slice.endsWith_string_iff, String.copy_toSlice]
  exact ⟨fun ⟨front, h⟩ => ⟨front, h.symm⟩, fun ⟨front, h⟩ => ⟨front, h.symm⟩⟩

theorem not_isAbsolute {name : String} (h : IsName name) : isAbsolute name = false := by
  rw [isAbsolute, String.startsWith_string_eq_false_iff]
  rintro ⟨rest, hrest⟩
  exact h.slash_notMem (hrest ▸ List.mem_append_left _ List.mem_cons_self)

theorem isAbsolute_append {path : String} (h : path.isEmpty = false) (rest : String) :
    isAbsolute (path ++ rest) = isAbsolute path := by
  have hne : path.toList ≠ [] := fun hnil =>
    absurd (String.toList_eq_nil_iff.mp hnil) (String.isEmpty_eq_false_iff.mp h)
  obtain ⟨c, chars, hpath⟩ := List.exists_cons_of_ne_nil hne
  rw [Bool.eq_iff_iff, isAbsolute, isAbsolute, String.startsWith_string_iff,
    String.startsWith_string_iff, String.toList_append, hpath]
  change ['/'] <+: c :: (chars ++ rest.toList) ↔ ['/'] <+: c :: chars
  simp only [List.cons_prefix_cons, List.nil_prefix, and_true]

end Path

namespace Place

def go (p : Place) (step : String) : Place :=
  if step.isEmpty || step == "." then p else if step == ".." then p.parent else p.child step

theorem go_name (p : Place) {name : String} (h : Path.IsName name) : p.go name = p.child name := by
  simp [go, h.ne_here, h.ne_up, h.ne_empty]

theorem child_injective {p : Place} {name name' : String} (h : p.child name = p.child name') :
    name = name' := by
  have hnames : p.names ++ [name] = p.names ++ [name'] := congrArg Place.names h
  exact List.singleton_inj.mp (List.append_cancel_left hnames)

end Place

namespace FileTree

variable {t t' : FileTree}

def place (t : FileTree) (path : String) : Place :=
  (Path.steps path).foldl Place.go (t.cwd.start path)

theorem place_eq_of_cwd (h : t'.cwd = t.cwd) (path : String) : t'.place path = t.place path := by
  rw [place, place, h]

-- A directory named with a slash at its end and one named without are the same place.
theorem place_join (t : FileTree) (dir : String) {name : String} (h : Path.IsName name) :
    t.place (Path.join dir name) = (t.place dir).child name := by
  have hname : ∀ p : Place, (Path.steps name).foldl Place.go p = p.child name := by
    intro p
    rw [Path.steps_of_isName h, List.foldl_cons, List.foldl_nil, Place.go_name p h]
  unfold Path.join
  rw [Path.not_isAbsolute h, Bool.false_or]
  split
  · next hempty =>
    obtain rfl := String.isEmpty_iff.mp hempty
    rw [place, Place.start, Path.not_isAbsolute h]
    exact hname t.cwd
  next hdir =>
  have hstart : ∀ rest : String, t.cwd.start (dir ++ rest) = t.cwd.start dir := by
    intro rest
    rw [Place.start, Place.start, Path.isAbsolute_append (by simpa using hdir)]
  split
  · next hslash =>
    obtain ⟨front, hfront⟩ := Path.endsWith_slash_iff.mp hslash
    have hsteps : Path.steps dir = Path.steps (String.ofList front) ++ [""] :=
      Path.steps_append_slash hfront
    have hjoined : Path.steps (dir ++ name) =
        Path.steps (String.ofList front) ++ Path.steps name := by
      rw [← String.ofList_toList (s := name)]
      exact Path.steps_append_slash (by simp [hfront])
    rw [place, place, hstart, hsteps, hjoined, List.foldl_append, List.foldl_append, hname]
    rfl
  · have hjoined : Path.steps (dir ++ "/" ++ name) = Path.steps dir ++ Path.steps name := by
      rw [← String.ofList_toList (s := dir), ← String.ofList_toList (s := name)]
      exact Path.steps_append_slash (by simp)
    rw [place, place, String.append_assoc, hstart, ← String.append_assoc, hjoined,
      List.foldl_append, hname]

theorem lookup_cons_place (f : Place × String) (files : List (Place × String)) (q : Place) :
    (f :: files).lookup q = if q = f.1 then some f.2 else files.lookup q := by
  rw [List.lookup_cons]
  by_cases h : q = f.1
  · simp [h]
  · rw [beq_eq_false_iff_ne.mpr h, if_neg h]

theorem lookup_map_replace (files : List (Place × String)) (p q : Place) (text : String) :
    (files.map (fun f => if f.1 = p then (p, text) else f)).lookup q =
      if q = p then (files.lookup p).map (fun _ => text) else files.lookup q := by
  induction files with
  | nil => simp
  | cons f files ih =>
    rw [List.map_cons, lookup_cons_place, lookup_cons_place, lookup_cons_place, ih]
    by_cases hq : q = p
    · subst hq
      by_cases hf : f.1 = q
      · simp [hf]
      · simp [hf, Ne.symm hf]
    · by_cases hf : f.1 = p
      · simp [hf, hq]
      · simp [hf, hq]

theorem text?_setText (t : FileTree) (p q : Place) (text : String) :
    (t.setText p text).text? q = if q = p then some text else t.text? q := by
  unfold setText text?
  split
  · next hsome =>
    obtain ⟨old, hold⟩ := Option.isSome_iff_exists.mp hsome
    rw [lookup_map_replace, hold, Option.map_some]
  · next hnone =>
    rw [Bool.not_eq_true, Option.isSome_eq_false_iff, Option.isNone_iff_eq_none] at hnone
    rw [List.lookup_append, lookup_cons_place, List.lookup_nil]
    split
    · next heq => rw [heq, hnone, Option.none_or]
    · rw [Option.or_none]

theorem dirs_setText (t : FileTree) (p : Place) (text : String) :
    (t.setText p text).dirs = t.dirs := by
  unfold setText
  split <;> rfl

theorem cwd_setText (t : FileTree) (p : Place) (text : String) :
    (t.setText p text).cwd = t.cwd := by
  unfold setText
  split <;> rfl

theorem go?_eq_some {p q : Place} {step : String} (h : t.go? p step = some q) :
    q = p.go step := by
  unfold go? at h
  unfold Place.go
  split at h
  · cases h
  split at h
  · next hhere => rw [if_pos hhere, Option.some.inj h]
  · next hhere =>
    rw [if_neg hhere]
    split at h
    · next hup => rw [if_pos hup, Option.some.inj h]
    · next hup =>
      rw [if_neg hup]
      split at h
      · cases h
      · exact (Option.some.inj h).symm

theorem find?_eq_some {path : String} {p : Place} (h : t.find? path = some p) :
    p = t.place path := by
  have hgo : ∀ (steps : List String) (p q : Place), steps.foldlM t.go? p = some q →
      q = steps.foldl Place.go p := by
    intro steps
    induction steps with
    | nil => exact fun p q h => (Option.some.inj h).symm
    | cons step steps ih =>
      intro p q h
      rw [List.foldlM_cons] at h
      obtain ⟨p', hp', h⟩ := Option.bind_eq_some_iff.mp h
      rw [List.foldl_cons, ← go?_eq_some hp']
      exact ih p' q h
  unfold find? at h
  split at h
  · exact hgo _ _ _ h
  · cases h

theorem find?_mono (hcwd : t'.cwd = t.cwd) (hdirs : t.dirs ⊆ t'.dirs) {path : String} {p : Place}
    (h : t.find? path = some p) : t'.find? path = some p := by
  have hisDir : ∀ p, t.isDir p = true → t'.isDir p = true := by
    intro p hp
    simp only [isDir, hcwd, Bool.or_eq_true, List.contains_iff_mem] at hp ⊢
    exact hp.imp_right fun hmem => hdirs hmem
  have hstep : ∀ p q step, t.go? p step = some q → t'.go? p step = some q := by
    intro p q step h
    unfold go? at h ⊢
    split at h
    · cases h
    · next hp =>
      rw [if_neg]
      · exact h
      · simpa using hisDir p (by simpa using hp)
  have hgo : ∀ (steps : List String) (p q : Place), steps.foldlM t.go? p = some q →
      steps.foldlM t'.go? p = some q := by
    intro steps
    induction steps with
    | nil => exact fun p q h => h
    | cons step steps ih =>
      intro p q h
      rw [List.foldlM_cons] at h ⊢
      obtain ⟨p', hp', h⟩ := Option.bind_eq_some_iff.mp h
      exact Option.bind_eq_some_iff.mpr ⟨p', hstep _ _ _ hp', ih p' q h⟩
  unfold find? at h ⊢
  split at h
  · next hadmissible =>
    rw [if_pos hadmissible, hcwd]
    exact hgo _ _ _ h
  · cases h

theorem write?_eq_some {path text : String} (h : t.write? path text = some t') :
    t.find? path = some (t.place path) ∧
      t' = t.setText (t.place path) text := by
  unfold write? at h
  split at h
  · cases h
  · next p hp =>
    obtain rfl := find?_eq_some hp
    split at h
    · cases h
    · exact ⟨hp, (Option.some.inj h).symm⟩

theorem append?_eq_some {path text : String} (h : t.append? path text = some t') :
    ∃ old, t.text? (t.place path) = some old ∧
      t' = t.setText (t.place path) (old ++ text) := by
  unfold append? at h
  split at h
  · cases h
  · next p hp =>
    obtain rfl := find?_eq_some hp
    obtain ⟨old, hold, rfl⟩ := Option.map_eq_some_iff.mp h
    exact ⟨old, hold, rfl⟩

theorem makeDirs?_eq_some {path : String} (h : t.makeDirs? path = some t') :
    t'.cwd = t.cwd ∧ t'.files = t.files ∧ t.dirs ⊆ t'.dirs := by
  have hat : ∀ (steps : List String) (t : FileTree) (p : Place), t.makeDirsAt p steps = some t' →
      t'.cwd = t.cwd ∧ t'.files = t.files ∧ t.dirs ⊆ t'.dirs := by
    intro steps
    induction steps with
    | nil =>
      intro t p h
      obtain rfl := Option.some.inj h
      exact ⟨rfl, rfl, List.Subset.refl _⟩
    | cons step steps ih =>
      intro t p h
      unfold makeDirsAt at h
      split at h
      · cases h
      split at h
      · exact ih _ _ h
      split at h
      · cases h
      · obtain ⟨hcwd, hfiles, hdirs⟩ := ih _ _ h
        exact ⟨hcwd, hfiles, fun q hq => hdirs (List.mem_append_left _ hq)⟩
  unfold makeDirs? at h
  split at h
  · exact hat _ _ _ h
  · cases h

end FileTree

end ReluVerify
