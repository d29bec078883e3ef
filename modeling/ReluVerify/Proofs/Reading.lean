import Mathlib
import ReluVerify.Layered.Reader
import ReluVerify.Proofs.Step

namespace ReluVerify.LayeredText

variable {α β γ : Type} {read : String → Option α}

def Reads (read : String → Option α) (line : List Char) (xs : List α) : Prop :=
  List.Forall₂ (fun token x => read (String.ofList token) = some x) (tokens line) xs

inductive Advances (read : String → Option α) : Cursor → List (List α) → Cursor → Prop
  | stay (c : Cursor) : Advances read c [] c
  | line {number last : ℕ} {text : List Char} {rest : List Line} {xs : List α}
      {rows : List (List α)} {c : Cursor} (h : Reads read text xs)
      (hrest : Advances read ⟨rest, number⟩ rows c) :
      Advances read ⟨(number, text) :: rest, last⟩ (xs :: rows) c

theorem advances_nil {c c' : Cursor} : Advances read c [] c' ↔ c' = c := by
  constructor
  · rintro ⟨⟩
    rfl
  · rintro rfl
    exact .stay _

theorem advances_append {rows rows' : List (List α)} {c c'' : Cursor} :
    Advances read c (rows ++ rows') c'' ↔
      ∃ c', Advances read c rows c' ∧ Advances read c' rows' c'' := by
  induction rows generalizing c with
  | nil => simp [advances_nil]
  | cons row rows ih =>
    constructor
    · rintro (_ | ⟨h, hrest⟩)
      obtain ⟨c', hrows, hrows'⟩ := ih.mp hrest
      exact ⟨c', .line h hrows, hrows'⟩
    · rintro ⟨c', _ | ⟨h, hrest⟩, hrows'⟩
      exact .line h (ih.mpr ⟨c', hrest, hrows'⟩)

def Accepts (read : String → Option α) (step : Reading β) (P : List (List α) → β → Prop) : Prop :=
  ∀ c b c', step.run c = .ok (b, c') ↔ ∃ rows, P rows b ∧ Advances read c rows c'

theorem Accepts.congr {step : Reading β} {P Q : List (List α) → β → Prop}
    (h : Accepts read step P) (hPQ : ∀ rows b, P rows b ↔ Q rows b) : Accepts read step Q := by
  intro c b c'
  simp only [h c b c', hPQ]

theorem accepts_pure (b : β) :
    Accepts read (pure b) (fun rows b' => rows = [] ∧ b' = b) := by
  intro c b' c'
  rw [StateT.run_pure, pure_eq_ok, Prod.mk.injEq]
  constructor
  · rintro ⟨rfl, rfl⟩
    exact ⟨[], ⟨rfl, rfl⟩, .stay _⟩
  · rintro ⟨_, ⟨rfl, rfl⟩, h⟩
    exact ⟨rfl, advances_nil.mp h⟩

theorem Accepts.bind {step : Reading β} {f : β → Reading γ} {P : List (List α) → β → Prop}
    {Q : β → List (List α) → γ → Prop} (h : Accepts read step P)
    (hf : ∀ b rows, P rows b → Accepts read (f b) (Q b)) : Accepts read (step >>= f) (fun rows r =>
      ∃ b rows₁ rows₂, rows = rows₁ ++ rows₂ ∧ P rows₁ b ∧ Q b rows₂ r) := by
  intro c r c''
  rw [StateT.run_bind, bind_eq_ok]
  constructor
  · rintro ⟨⟨b, c'⟩, hstep, hnext⟩
    obtain ⟨rows₁, hP, h₁⟩ := (h _ _ _).mp hstep
    obtain ⟨rows₂, hQ, h₂⟩ := (hf b rows₁ hP _ _ _).mp hnext
    exact ⟨_, ⟨b, rows₁, rows₂, rfl, hP, hQ⟩, advances_append.mpr ⟨c', h₁, h₂⟩⟩
  · rintro ⟨_, ⟨b, rows₁, rows₂, rfl, hP, hQ⟩, hadvances⟩
    obtain ⟨c', h₁, h₂⟩ := advances_append.mp hadvances
    exact ⟨(b, c'), (h _ _ _).mpr ⟨rows₁, hP, h₁⟩, (hf b rows₁ hP _ _ _).mpr ⟨rows₂, hQ, h₂⟩⟩

theorem run_fail_ne_ok {cause : Cause} {c c' : Cursor} {b : β} :
    (fail cause : Reading β).run c ≠ .ok (b, c') := by
  intro h
  cases h

theorem accepts_fail {cause : Cause} :
    Accepts read (fail cause : Reading β) (fun _ _ => False) := by
  intro c b c'
  exact iff_of_false run_fail_ne_ok fun ⟨_, h, _⟩ => h

theorem Accepts.guarded {p : Prop} [Decidable p] {refusal step : Reading β}
    {P : List (List α) → β → Prop} (hrefusal : Accepts read refusal (fun _ _ => False))
    (h : ¬p → Accepts read step P) :
    Accepts read (if p then refusal else step) (fun rows b => ¬p ∧ P rows b) := by
  split
  case isTrue hp => exact hrefusal.congr fun _ _ => iff_of_false id fun h => h.1 hp
  case isFalse hp => exact (h hp).congr fun _ _ => (and_iff_right hp).symm

theorem run_mapM_eq_ok {f : β → Reading γ} {R : β → γ → Prop}
    (hf : ∀ b c x c', (f b).run c = .ok (x, c') ↔ R b x ∧ c' = c) {bs : List β} {c : Cursor}
    {xs : List γ} {c' : Cursor} :
    (bs.mapM f).run c = .ok (xs, c') ↔ List.Forall₂ R bs xs ∧ c' = c := by
  induction bs generalizing c xs c' with
  | nil =>
    rw [List.mapM_nil, StateT.run_pure, pure_eq_ok, Prod.mk.injEq, List.forall₂_nil_left_iff]
  | cons b bs ih =>
    rw [List.mapM_cons, StateT.run_bind, bind_eq_ok]
    simp only [Prod.exists, hf, StateT.run_bind, bind_eq_ok, ih, StateT.run_pure, pure_eq_ok,
      Prod.mk.injEq, List.forall₂_cons_left_iff]
    constructor
    · rintro ⟨x, _, ⟨hx, rfl⟩, xs, _, ⟨hxs, rfl⟩, rfl, rfl⟩
      exact ⟨⟨x, xs, hx, hxs, rfl⟩, rfl⟩
    · rintro ⟨⟨x, xs, hx, hxs, rfl⟩, rfl⟩
      exact ⟨x, _, ⟨hx, rfl⟩, xs, _, ⟨hxs, rfl⟩, rfl, rfl⟩

section

variable (format : NumberFormat α)

theorem run_readToken {part : Part} {token : List Char} {c c' : Cursor} {x : α} :
    (readToken format part token).run c = .ok (x, c') ↔
      format.read? (String.ofList token) = some x ∧ c' = c := by
  unfold readToken
  cases format.read? (String.ofList token) with
  | none => simp [run_fail_ne_ok]
  | some y =>
    rw [StateT.run_pure, pure_eq_ok, Prod.mk.injEq, Option.some.injEq]
    exact and_congr_left' eq_comm

theorem run_toSize {part : Part} {x : α} {c c' : Cursor} {n : ℕ} :
    (toSize format part x).run c = .ok (n, c') ↔ format.size? x = some n ∧ c' = c := by
  unfold toSize
  cases format.size? x with
  | none => simp [run_fail_ne_ok]
  | some m =>
    rw [StateT.run_pure, pure_eq_ok, Prod.mk.injEq, Option.some.injEq]
    exact and_congr_left' eq_comm

theorem accepts_values (part : Part) (least : ℕ) : Accepts format.read? (values format part least)
    (fun rows xs => rows = [xs] ∧ least ≤ xs.length) := by
  intro c xs c'
  unfold values
  rw [StateT.run_bind, bind_eq_ok]
  obtain ⟨_ | ⟨⟨number, text⟩, rest⟩, last⟩ := c
  · refine iff_of_false ?_ ?_
    · rintro ⟨_, h, _⟩
      cases h
    · rintro ⟨_, ⟨rfl, _⟩, h⟩
      cases h
  · have hnext : (nextLine part).run ⟨(number, text) :: rest, last⟩ =
        .ok (text, ⟨rest, number⟩) := rfl
    simp only [hnext, Except.ok.injEq, exists_eq_left', StateT.run_bind, bind_eq_ok, Prod.exists,
      run_mapM_eq_ok fun _ _ _ _ => run_readToken format]
    constructor
    · rintro ⟨ys, _, ⟨hys, rfl⟩, h⟩
      split at h
      · exact absurd h run_fail_ne_ok
      · rw [StateT.run_pure, pure_eq_ok, Prod.mk.injEq] at h
        obtain ⟨rfl, rfl⟩ := h
        exact ⟨_, ⟨rfl, not_lt.mp ‹_›⟩, .line hys (.stay _)⟩
    · rintro ⟨_, ⟨rfl, hle⟩, hread | ⟨hread, hrest⟩⟩
      rw [advances_nil] at hrest
      refine ⟨xs, _, ⟨hread, rfl⟩, ?_⟩
      rw [if_neg (not_lt.mpr hle), hrest]
      rfl

theorem accepts_sizes (part : Part) (least : ℕ) : Accepts format.read? (sizes format part least)
    (fun rows ns => ∃ xs, rows = [xs] ∧ least ≤ xs.length ∧
      List.Forall₂ (fun x n => format.size? x = some n) xs ns) := by
  intro c ns c'
  unfold sizes
  rw [StateT.run_bind, bind_eq_ok]
  simp only [Prod.exists, accepts_values format part least c, run_mapM_eq_ok fun _ _ _ _ =>
    run_toSize format]
  constructor
  · rintro ⟨xs, _, ⟨_, ⟨rfl, hle⟩, hadvances⟩, hns, rfl⟩
    exact ⟨_, ⟨xs, rfl, hle, hns⟩, hadvances⟩
  · rintro ⟨_, ⟨xs, rfl, hle, hns⟩, hadvances⟩
    exact ⟨xs, c', ⟨_, ⟨rfl, hle⟩, hadvances⟩, hns, rfl⟩

def Begins (count : ℕ) (row xs : List α) : Prop := count ≤ row.length ∧ xs = row.take count

theorem accepts_firstValues (part : Part) (count : ℕ) :
    Accepts format.read? (firstValues format part count)
      (fun rows xs => ∃ row, rows = [row] ∧ Begins count row xs) := by
  refine ((accepts_values format part count).bind fun row _ _ => accepts_pure _).congr
    fun rows xs => ?_
  constructor
  · rintro ⟨row, _, _, rfl, ⟨rfl, hle⟩, rfl, rfl⟩
    exact ⟨row, rfl, hle, rfl⟩
  · rintro ⟨row, rfl, hle, rfl⟩
    exact ⟨row, [row], [], rfl, ⟨rfl, hle⟩, rfl, rfl⟩

theorem accepts_bias : Accepts format.read? (bias format)
    (fun rows x => ∃ row, rows = [row] ∧ row.head? = some x) := by
  unfold bias
  refine ((accepts_values format .bias 1).bind
    (Q := fun row rows x => rows = [] ∧ row.head? = some x) ?first).congr fun rows x => ?_
  case first =>
    rintro (_ | ⟨y, row⟩) _ _
    · exact accepts_fail.congr fun _ _ => by simp
    · exact (accepts_pure y).congr fun _ _ => by simp [eq_comm]
  constructor
  · rintro ⟨row, _, _, rfl, ⟨rfl, _⟩, rfl, hx⟩
    exact ⟨row, rfl, hx⟩
  · rintro ⟨row, rfl, hx⟩
    refine ⟨row, [row], [], rfl, ⟨rfl, ?_⟩, rfl, hx⟩
    exact List.length_pos_of_mem (List.mem_of_mem_head? hx)

end

theorem accepts_times {step : Reading β} {R : List α → β → Prop}
    (h : Accepts read step (fun rows b => ∃ row, rows = [row] ∧ R row b)) (n : ℕ) :
    Accepts read (times step n) (fun rows bs => rows.length = n ∧ List.Forall₂ R rows bs) := by
  induction n with
  | zero =>
    refine (accepts_pure []).congr fun rows bs => ?_
    rw [List.length_eq_zero_iff]
    exact and_congr_right fun hrows => by rw [hrows, List.forall₂_nil_left_iff]
  | succ n ih =>
    refine (h.bind fun b _ _ => ih.bind fun bs _ _ => accepts_pure (b :: bs)).congr fun rows bs => ?_
    constructor
    · rintro ⟨b, _, _, rfl, ⟨row, rfl, hb⟩, bs', rows', _, rfl, ⟨hlen, hbs⟩, rfl, rfl⟩
      rw [List.append_nil]
      exact ⟨congrArg (· + 1) hlen, .cons hb hbs⟩
    · rintro ⟨hlen, _ | ⟨hb, hbs⟩⟩
      · cases hlen
      · exact ⟨_, [_], _, rfl, ⟨_, rfl, hb⟩, _, _, [], (List.append_nil _).symm,
          ⟨Nat.succ.inj hlen, hbs⟩, rfl, rfl⟩

end ReluVerify.LayeredText
