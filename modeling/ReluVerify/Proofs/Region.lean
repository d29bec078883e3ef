import ReluVerify.Proofs.Question

namespace ReluVerify

variable {K : Type} [Field K] [LinearOrder K]

omit [LinearOrder K] in
theorem HalfSpace.Filled.map_range' {start : ℕ} {hs : List (HalfSpace K)} {x : ℕ → K}
    (h : Filled start hs x) : (List.range' start hs.length).map x = hs.map (·.gap x) := by
  induction hs generalizing start with
  | nil => rfl
  | cons s hs ih =>
    obtain ⟨hgap, htail⟩ := filled_cons.mp h
    rw [List.length_cons, List.range'_succ, List.map_cons, List.map_cons, hgap, ih htail]

def PropertyEncoding.slacks (enc : PropertyEncoding K) : List ℕ :=
  (match enc.altitude with
    | .single _ => []
    | .hyperplane _ _ _ slack => [slack]) ++ enc.dominance

namespace Property

open Network HalfSpace

variable {a : Advisory K} {c : Constants K}

theorem length_dominance_encoding (start count : ℕ) :
    (encoding a c start count).dominance.length = count := by
  unfold encoding
  split <;> simp

theorem slacks_encoding (start h tau target : ℕ) (others : List ℕ) :
    (encoding a c start others.length).slacks =
      List.range' start (spaces a c h tau target others).length := by
  unfold encoding spaces PropertyEncoding.slacks
  cases isLevel a.vlo with
  | true => simp
  | false => simp [List.range'_succ]

theorem map_gap_spaces (h tau target : ℕ) (others : List ℕ) (x : ℕ → K) :
    (spaces a c h tau target others).map (·.gap x) =
      (if isLevel a.vlo then [] else [c.hp + (a.turnRate : K) *
        (x h * c.rangeH - a.vlo * (x tau * c.rangeTau + c.meanTau))]) ++
        others.map fun v => x target - x v := by
  unfold spaces
  rw [List.map_append, List.map_map]
  refine congrArg₂ (· ++ ·) ?_ (List.map_congr_left fun v _ => gap_prefers target v x)
  split
  · rfl
  · rw [List.map_singleton, gap_altitudeSpace]

theorem encode_region [IsStrictOrderedRing K] {n : Network K} {q : Query K}
    (hq : Query.compile n = .ok q) {h own intruder tau : ℕ} (hr : n.Ready h own intruder tau)
    (hw : a.turnRate = 1 ∨ a.turnRate = -1) (hh : 0 < c.rangeH) (hv : 0 < c.rangeV) {position : ℕ}
    (hposition : position < n.outputs.length) :
    ∃ enc n' q', (encode a position c).run n = (.ok (some enc), n') ∧
      Query.compile n' = .ok q' ∧ n'.inputs = n.inputs ∧ n'.outputs = n.outputs ∧
      (∀ x, n.ExtendsTo n' x ↔ n.Solves x ∧ a.Region c (point h own intruder tau x) ∧
        ∀ i v, n.outputs[i]? = some v → i ≠ position → x v ≤ x n.outputs[position]) ∧
      (∀ x y, n'.Solves x → n'.Solves y → (∀ v < n.numVars, x v = y v) →
        ∀ v < n'.numVars, x v = y v) ∧
      enc.slacks = List.range' n.numVars (n'.numVars - n.numVars) ∧
      enc.dominance.length = n.outputs.length - 1 ∧
      ∀ x, n'.Solves x → enc.slacks.map x =
        (if isLevel a.vlo then [] else [c.hp + (a.turnRate : K) *
          (x h * c.rangeH - a.vlo * (x tau * c.rangeTau + c.meanTau))]) ++
          (n.outputs.eraseIdx position).map fun v => x n.outputs[position] - x v := by
  obtain ⟨hn, rfl⟩ := Query.compile_eq_ok.mp hq
  have hrate : a.boundsRate = true := by rcases hw with hw | hw <;> simp [Advisory.boundsRate, hw]
  have htarget := List.getElem?_eq_getElem hposition
  have htargetlt := hr.output_lt _ (List.mem_of_getElem? htarget)
  have hothers : ∀ v ∈ n.outputs.eraseIdx position, v < n.numVars := fun v hv =>
    hr.output_lt v (List.mem_of_mem_eraseIdx hv)
  have hmarked := refines_marked (a := a) (c := c) hn hr
  have hcut := cutBy_spaces (a := a) (c := c) hn hr htargetlt hothers
  obtain ⟨q', hq'⟩ := hcut.compiles
  refine ⟨_, _, q', run_encode hrate hr.inputs htarget, hq', hcut.inputs.trans hmarked.inputs,
    hcut.outputs.trans hmarked.outputs, fun x => ?_, fun x y hx hy hxy => ?_, ?_, ?_,
    fun x hx => ?_⟩
  · rw [extendsTo_spaces hn hr htargetlt hothers hw hh hv]
    refine and_congr_right fun _ => and_congr_right fun _ => ⟨fun hle i v hi hne => ?_, ?_⟩
    · exact hle v (List.mem_eraseIdx_iff_getElem?.mpr ⟨i, hne, hi⟩)
    · intro hle v hv
      obtain ⟨i, hne, hi⟩ := List.mem_eraseIdx_iff_getElem?.mp hv
      exact hle i v hi hne
  · exact hcut.unique x y hx hy (by rwa [numVars_marked])
  · rw [hcut.numVars, numVars_marked, Nat.add_sub_cancel_left]
    exact slacks_encoding ..
  · rw [length_dominance_encoding, List.length_eraseIdx_of_lt hposition]
  · have hfilled := ((hcut.solves_iff x).mp hx).2.2
    rw [numVars_marked] at hfilled
    rw [slacks_encoding _ h tau n.outputs[position], hfilled.map_range', map_gap_spaces]

def climb : Advisory ℚ := ⟨6, "CL1500", 1, 25⟩

def climbConstants : Constants ℚ := ⟨16000, 200, 34, 24, 100⟩

def climbNetwork : Network ℚ :=
  let n := (Network.empty.newVariables 6).2
  let n := (n.addEquation ⟨4, [(1, 4), (-1, 0)], 0⟩).addEquation ⟨5, [(1, 5), (1, 0)], 0⟩
  (n.withInputs [0, 1, 2, 3]).withOutputs [4, 5]

def climbing (intruder : ℚ) : ℕ → ℚ
  | 0 => 1 / 16
  | 1 => 1 / 4
  | 2 => intruder
  | 3 => 0
  | 4 => 1 / 16
  | _ => -1 / 16

theorem encode_region_climb : ∃ enc n', (encode climb 0 climbConstants).run climbNetwork =
    (.ok (some enc), n') ∧ enc.slacks = [6, 7] ∧ climbNetwork.ExtendsTo n' (climbing 0) ∧
      ¬ climbNetwork.ExtendsTo n' (climbing 1) := by
  have hn : climbNetwork.Allocated :=
    ⟨by decide +kernel, by decide +kernel, by decide +kernel, by decide +kernel,
      by decide +kernel⟩
  have hq : Query.compile climbNetwork = .ok (Query.compiled climbNetwork) :=
    Query.compile_eq_ok.mpr ⟨hn, rfl⟩
  have hr : climbNetwork.Ready 0 1 2 3 :=
    ⟨rfl, by decide +kernel, by decide +kernel, by decide +kernel, by decide +kernel⟩
  have hx : climbNetwork.Solves (climbing 0) := by
    rw [solves_iff_checks hn]
    decide +kernel
  have hposition : 0 < climbNetwork.outputs.length := by decide +kernel
  obtain ⟨enc, n', q', hrun, _, _, _, hextends, _, hslacks, _, hvalues⟩ :=
    encode_region (a := climb) (c := climbConstants) hq hr (Or.inl rfl) (by decide +kernel)
      (by decide +kernel) hposition
  have hin : climbNetwork.ExtendsTo n' (climbing 0) := by
    refine (hextends _).mpr ⟨hx, ⟨by decide +kernel, rfl, by decide +kernel⟩, fun i v hi hne => ?_⟩
    obtain rfl : i = 1 := by
      have hlt : i < 2 := (List.getElem?_eq_some_iff.mp hi).1
      omega
    cases hi
    change climbing 0 5 ≤ climbing 0 4
    decide +kernel
  refine ⟨enc, n', hrun, ?_, hin, fun hout => ?_⟩
  · obtain ⟨y, _, hy⟩ := hin
    have hlength := congrArg List.length (hvalues y hy)
    have hlevel : isLevel climb.vlo = false := by decide +kernel
    rw [hlevel, List.length_map, hslacks, List.length_range'] at hlength
    rw [hslacks, hlength]
    rfl
  · exact absurd ((hextends _).mp hout).2.1.intruder (by decide +kernel)

end Property

end ReluVerify
