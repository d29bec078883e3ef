import ReluVerify.Proofs.Passes

namespace ReluVerify

variable {K : Type} [Field K] [LinearOrder K]

theorem Equation.residual_sub_residual {e : Equation K} (he : e.Leads) {x y : ℕ → K}
    (hxy : ∀ v < e.aux, x v = y v) : e.residual x - e.residual y = x e.aux - y e.aux := by
  have hterm : ∀ t ∈ e.terms, t.1 * x t.2 =
      (if t.2 = e.aux then t.1 else 0) * (x e.aux - y e.aux) + t.1 * y t.2 := by
    intro t ht
    rcases (he.terms_le t ht).lt_or_eq with hlt | heq
    · rw [hxy _ hlt, if_neg hlt.ne, zero_mul, zero_add]
    · rw [heq, if_pos rfl, mul_sub, sub_add_cancel]
  rw [residual, residual, Scalar.total_eq_sum, Scalar.total_eq_sum, List.map_congr_left hterm,
    List.sum_map_add, List.sum_map_mul_right, he.one]
  ring

namespace Network

structure Extends (n : Network K) (xs : List K) (x : ℕ → K) : Prop where
  inputs : n.inputs.map x = xs
  equations : ∀ e ∈ n.equations, e.residual x = 0
  relus : ∀ p ∈ n.relus, x p.output = max (x p.input) 0

theorem Extends.congr {n : Network K} (hn : n.Allocated) (hinputs : ∀ v ∈ n.inputs, v < n.numVars)
    {xs : List K} {x y : ℕ → K} (hx : n.Extends xs x) (hxy : ∀ v < n.numVars, y v = x v) :
    n.Extends xs y where
  inputs := (map_eq_of_lt hinputs hxy).trans hx.inputs
  equations := fun e he => by
    have hterms : e.terms.map (fun t => t.1 * y t.2) = e.terms.map (fun t => t.1 * x t.2) :=
      List.map_congr_left fun t ht => by rw [hxy _ (hn.terms e he t ht)]
    rw [Equation.residual, hterms]
    exact hx.equations e he
  relus := fun p hp => by
    obtain ⟨hin, hout⟩ := hn.relus p hp
    rw [hxy _ hin, hxy _ hout]
    exact hx.relus p hp

-- Every variable but the first ones is led by an equation or a pair, whose other variables come
-- before it.
theorem Drives.eq_of_extends {n : Network K} {count : ℕ} (hn : n.Drives count) {xs ys : List K}
    {x y : ℕ → K} (hx : n.Extends xs x) (hy : n.Extends ys y) (hxy : ∀ v < count, x v = y v)
    {v : ℕ} (hv : v < n.numVars) : x v = y v := by
  induction v using Nat.strong_induction_on with
  | _ v ih =>
    rcases lt_or_ge v count with hlt | hge
    · exact hxy v hlt
    · rcases hn.covered v hge hv with ⟨e, he, rfl⟩ | ⟨p, hp, rfl⟩
      · have hsub := Equation.residual_sub_residual (hn.staged.leads e he)
          fun u hu => ih u hu (hu.trans hv)
        rw [hx.equations e he, hy.equations e he, sub_self] at hsub
        exact sub_eq_zero.mp hsub.symm
      · have hin := hn.staged.ordered p hp
        rw [hx.relus p hp, hy.relus p hp, ih _ hin (hin.trans hv)]

end Network

namespace LayeredNetwork

variable [IsStrictOrderedRing K]

theorem eq_of_extends_toNetwork {net : LayeredNetwork K} (h : net.WellFormed) {xs : List K}
    {x y : ℕ → K} (hx : net.toNetwork.Extends xs x) (hy : net.toNetwork.Extends xs y) {v : ℕ}
    (hv : v < net.toNetwork.numVars) : x v = y v := by
  refine (drives_toNetwork h).eq_of_extends hx hy (fun u hu => ?_) hv
  have hmap : net.toNetwork.inputs.map x = net.toNetwork.inputs.map y :=
    hx.inputs.trans hy.inputs.symm
  rw [(encodes_toNetwork h).inputs] at hmap
  exact List.map_inj_left.mp hmap u (List.mem_range.mpr hu)

theorem exists_unique_extension {weights : List (List (List K))} {biases : List (List K)}
    {net : LayeredNetwork K} (hnet : build weights biases = .ok net) :
    (∃ q, Query.compile net.toNetwork = .ok q) ∧
      ∀ xs : List K, xs.length = net.inputSize → ∃ x : ℕ → K,
        (∀ y : ℕ → K, net.toNetwork.Extends xs y ↔ ∀ v < net.toNetwork.numVars, y v = x v) ∧
          net.forward xs = .ok (net.toNetwork.outputs.map x) := by
  have h := wellFormed_of_build hnet
  have hencodes := encodes_toNetwork h
  refine ⟨⟨_, Query.compile_eq_ok.mpr ⟨hencodes.allocated, rfl⟩⟩, fun xs hlen => ?_⟩
  obtain ⟨x, hsolves, hinputs⟩ := hencodes.exists_solution xs hlen
  have hx : net.toNetwork.Extends xs x := ⟨hinputs, hsolves.equations, hsolves.relus⟩
  refine ⟨x, fun y => ⟨fun hy v hv => eq_of_extends_toNetwork h hy hx hv, fun hyx => ?_⟩, ?_⟩
  · exact hx.congr hencodes.allocated hencodes.input_lt hyx
  · rw [← hinputs]
    exact hencodes.forward hsolves

-- the second hidden neuron has a zero weight and the first is cut off at the input minus one
def gatedNetwork : LayeredNetwork ℚ :=
  ⟨1, [⟨[[2], [0]], [1, 3]⟩, ⟨[[5, 1], [0, -1]], [0, 4]⟩], none⟩

theorem exists_unique_extension_gated : ∃ x : ℕ → ℚ,
    (∀ y : ℕ → ℚ, gatedNetwork.toNetwork.Extends [-1] y ↔ ∀ v < 7, y v = x v) ∧
      gatedNetwork.toNetwork.outputs.map x = [3, 1] := by
  have hnet : build [[[2], [0]], [[5, 1], [0, -1]]] [[1, 3], [0, 4]] = .ok gatedNetwork := by
    decide +kernel
  obtain ⟨x, hunique, hforward⟩ :=
    (exists_unique_extension hnet).2 [-1] (rfl : [(-1 : ℚ)].length = 1)
  have hvalue : gatedNetwork.forward [-1] = .ok [3, 1] := by decide +kernel
  exact ⟨x, hunique, Except.ok.inj (hforward.symm.trans hvalue)⟩

end LayeredNetwork

end ReluVerify
