import ReluVerify.Number.Binary64
import ReluVerify.Proofs.Question

namespace ReluVerify

structure Network.AgreesOff {α : Type} (n n' : Network α) (vars : List ℕ) : Prop where
  numVars : n'.numVars = n.numVars
  equations : n'.equations = n.equations
  relus : n'.relus = n.relus
  inputs : n'.inputs = n.inputs
  outputs : n'.outputs = n.outputs
  bounds : ∀ v ∉ vars, n'.boundsOf v = n.boundsOf v

namespace Property

open Network

section

variable {α : Type} {a : Advisory α} {c : Constants α}

theorem agreesOff_limited_fix (n : Network α) (v u : ℕ) (l : Limit α) (b : α) :
    n.AgreesOff ((n.limited v l).fix u b) [v, u] where
  numVars := by rw [numVars_fix, numVars_limited]
  equations := by cases l <;> rfl
  relus := by cases l <;> rfl
  inputs := by cases l <;> rfl
  outputs := by cases l <;> rfl
  bounds := fun w hw => by
    rw [List.mem_cons, List.mem_singleton, not_or] at hw
    rw [boundsOf_fix_of_ne hw.2, boundsOf_limited_of_ne hw.1]

variable [Scalar α]

def AltitudeFinite (a : Advisory α) (c : Constants α) : Prop :=
  Scalar.isFinite (altitudeCoefficient a c) = true ∧
    Scalar.isFinite (timeCoefficient a c) = true ∧ Scalar.isFinite (boundary a c) = true

instance (a : Advisory α) (c : Constants α) : Decidable (AltitudeFinite a c) :=
  inferInstanceAs (Decidable (_ ∧ _ ∧ _))

theorem fits_altitude_iff {h tau : ℕ} : HalfSpace.Fits ⟨[h, tau],
    [altitudeCoefficient a c, timeCoefficient a c], boundary a c⟩ ↔ AltitudeFinite a c := by
  simp [HalfSpace.Fits, AltitudeFinite, and_assoc]

theorem exists_run_altitude (hfinite : isLevel a.vlo = true ∨ AltitudeFinite a c) (h tau : ℕ)
    (n : Network α) : ∃ l n', (altitude a c h tau).run n = (.ok l, n') := by
  cases hlevel : isLevel a.vlo with
  | true => exact ⟨_, _, run_altitude_level hlevel c h tau n⟩
  | false =>
    have hfits : HalfSpace.Fits ⟨[h, tau], [altitudeCoefficient a c, timeCoefficient a c],
        boundary a c⟩ := fits_altitude_iff.mpr (hfinite.resolve_left (by simp [hlevel]))
    unfold altitude
    rw [if_neg (by simp [hlevel])]
    exact ⟨_, _, run_bind_of_ok (run_require_of_fits n hfits)⟩

theorem exists_run_altitude_refused (hlevel : isLevel a.vlo = false)
    (hinfinite : ¬ AltitudeFinite a c) (h tau : ℕ) (n : Network α) :
    ∃ cause, (altitude a c h tau).run n = (.error (.inequality cause), n) := by
  obtain ⟨cause, hcause⟩ := n.exists_error_of_not_fits (mt fits_altitude_iff.mp hinfinite)
  unfold altitude
  rw [if_neg (by simp [hlevel])]
  exact ⟨cause, run_bind_of_error (run_require hcause)⟩

structure Refused (a : Advisory α) (position : ℕ) (c : Constants α) (n : Network α) : Prop where
  rate : a.boundsRate = true
  inputs : n.inputs.length = 4
  position : position < n.outputs.length
  steep : isLevel a.vlo = false
  infinite : ¬ AltitudeFinite a c

end

theorem exists_run_dominance (target : ℕ) (others : List ℕ) (n : Network Float) :
    ∃ slacks n', (dominance target others).run n = (.ok slacks, n') := by
  -- scores are compared with the same finite numbers, whatever the constants
  have hunits : ∀ x ∈ ([-1, 1] : List Float), Scalar.isFinite x = true := by decide +kernel
  have hzero : Scalar.isFinite (0 : Float) = true := by decide +kernel
  have hfits : ∀ other ∈ others, (⟨[target, other], [-1, 1], 0⟩ : HalfSpace Float).Fits :=
    fun _ _ => ⟨rfl, hunits, hzero⟩
  exact ⟨_, _, run_mapM_require hfits n⟩

inductive Asked (a : Advisory Float) (position : ℕ) (c : Constants Float) (n : Network Float) :
    Except (PropertyError Float) (Option (PropertyEncoding Float)) × Network Float → Prop
  | skipped (ha : a.boundsRate = false) : Asked a position c n (.ok none, n)
  | inputCount (ha : a.boundsRate = true) (hinputs : n.inputs.length ≠ 4) :
      Asked a position c n (.error (.inputCount 4 n.inputs.length), n)
  | outputIndex (ha : a.boundsRate = true) (hinputs : n.inputs.length = 4)
      (hposition : n.outputs.length ≤ position) :
      Asked a position c n (.error (.outputIndex a.name position n.outputs.length), n)
  | refused {h own intruder tau : ℕ} {cause : InequalityError Float}
      (hrefused : Refused a position c n) (hinputs : n.inputs = [h, own, intruder, tau]) :
      Asked a position c n
        (.error (.inequality cause), (n.limited own (rateLimit a c)).fix intruder 0)
  | added {e : PropertyEncoding Float} {n' : Network Float} (ha : a.boundsRate = true)
      (hinputs : n.inputs.length = 4) (hposition : position < n.outputs.length)
      (hfinite : isLevel a.vlo = true ∨ AltitudeFinite a c) :
      Asked a position c n (.ok (some e), n')

theorem asked_encode (a : Advisory Float) (position : ℕ) (c : Constants Float)
    (n : Network Float) : Asked a position c n ((encode a position c).run n) := by
  unfold encode
  cases ha : a.boundsRate with
  | false => exact .skipped ha
  | true =>
    simp only [Bool.not_true, Bool.false_eq_true, if_false]
    rw [run_bind_of_ok run_get]
    split
    case h_1 h own intruder tau hinputs =>
      have hlength : n.inputs.length = 4 := by rw [hinputs]; rfl
      split
      case h_1 hposition =>
        exact .outputIndex ha hlength (List.getElem?_eq_none_iff.mp hposition)
      case h_2 target htarget =>
        have hposition := (List.getElem?_eq_some_iff.mp htarget).1
        rw [run_bind_of_ok (run_limit own (rateLimit a c)), run_bind_of_ok (run_fix intruder 0)]
        by_cases hfinite : isLevel a.vlo = true ∨ AltitudeFinite a c
        · obtain ⟨l, m, haltitude⟩ := exists_run_altitude hfinite h tau
            ((n.limited own (rateLimit a c)).fix intruder 0)
          obtain ⟨slacks, n', hdominance⟩ :=
            exists_run_dominance target (n.outputs.eraseIdx position) m
          rw [run_bind_of_ok haltitude, run_bind_of_ok hdominance]
          exact .added ha hlength hposition hfinite
        · obtain ⟨hlevel, hinfinite⟩ := not_or.mp hfinite
          rw [Bool.not_eq_true] at hlevel
          obtain ⟨cause, haltitude⟩ := exists_run_altitude_refused hlevel hinfinite h tau
            ((n.limited own (rateLimit a c)).fix intruder 0)
          rw [run_bind_of_error haltitude]
          exact .refused ⟨ha, hlength, hposition, hlevel, hinfinite⟩ hinputs
    case h_2 inputs hinputs =>
      refine .inputCount ha fun hlength => ?_
      obtain ⟨h, own, intruder, tau, heq⟩ := List.length_eq_four.mp hlength
      exact hinputs h own intruder tau heq

theorem run_encode_refused {a : Advisory Float} {position : ℕ} {c : Constants Float}
    {n : Network Float} (hrefused : Refused a position c n) :
    ∃ h own intruder tau cause, n.inputs = [h, own, intruder, tau] ∧
      (encode a position c).run n =
        (.error (.inequality cause), (n.limited own (rateLimit a c)).fix intruder 0) := by
  have hasked := asked_encode a position c n
  generalize hrun : (encode a position c).run n = answer at hasked
  cases hasked with
  | skipped ha => exact absurd hrefused.rate (by simp [ha])
  | inputCount _ hinputs => exact absurd hrefused.inputs hinputs
  | outputIndex _ _ hposition => exact absurd hrefused.position (not_lt.mpr hposition)
  | refused _ hinputs => exact ⟨_, _, _, _, _, hinputs, rfl⟩
  | added _ _ _ hfinite =>
    rcases hfinite with hlevel | hfinite
    · exact absurd hrefused.steep (by simp [hlevel])
    · exact absurd hfinite hrefused.infinite

theorem encode_unchanged_unless_refused (a : Advisory Float) (position : ℕ) (c : Constants Float)
    (n : Network Float) :
    (∀ n', (encode a position c).run n = (.ok none, n') → n' = n) ∧
      (∀ e n', (encode a position c).run n = (.error e, n') → ¬ Refused a position c n → n' = n) ∧
      (Refused a position c n → ∃ h own intruder tau cause n', n.inputs = [h, own, intruder, tau] ∧
        (encode a position c).run n = (.error (.inequality cause), n') ∧
          n' = (n.limited own (rateLimit a c)).fix intruder 0 ∧ n.AgreesOff n' [own, intruder]) := by
  have hasked := asked_encode a position c n
  refine ⟨fun n' h => ?_, fun e n' h hnot => ?_, fun hrefused => ?_⟩
  · rw [h] at hasked
    cases hasked
    rfl
  · rw [h] at hasked
    cases hasked with
    | inputCount => rfl
    | outputIndex => rfl
    | refused hrefused => exact absurd hrefused hnot
  · obtain ⟨h, own, intruder, tau, cause, hinputs, hrun⟩ := run_encode_refused hrefused
    exact ⟨h, own, intruder, tau, cause, _, hinputs, hrun, rfl, agreesOff_limited_fix ..⟩

example : ∀ a ∈ (Advisory.all : List (Advisory Float)),
    isLevel a.vlo = true ∨ AltitudeFinite a Constants.standard := by decide +kernel

def climb1500 : Advisory Float := ⟨6, "CL1500", 1, 25⟩

def twoScores : Network Float :=
  ((Network.empty.newVariables 6).2.withInputs [0, 1, 2, 3]).withOutputs [4, 5]

def farConstants : Constants Float := { Constants.standard with rangeTau := 1e308 }

theorem exists_limited_refused : ∃ cause n', (encode climb1500 0 farConstants).run twoScores =
    (.error (.inequality cause), n') ∧ twoScores.bounds.keys = [] ∧ n'.bounds.keys = [1, 2] := by
  have hrefused : Refused climb1500 0 farConstants twoScores :=
    ⟨rfl, rfl, by decide, by decide +kernel, by decide +kernel⟩
  obtain ⟨h, own, intruder, tau, cause, hinputs, hrun⟩ := run_encode_refused hrefused
  cases hinputs
  exact ⟨cause, _, hrun, rfl, rfl⟩

end Property

end ReluVerify
