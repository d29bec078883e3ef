import ReluVerify.Proofs.Passes

namespace ReluVerify

variable {K : Type} [Field K] [LinearOrder K] [IsStrictOrderedRing K]

inductive Near : List K → List K → List K → Prop
  | nil : Near [] [] []
  | cons {e x y : K} {es xs ys : List K} (h : |x - y| ≤ e) (hrest : Near es xs ys) :
      Near (e :: es) (x :: xs) (y :: ys)

namespace Near

variable {es xs ys : List K}

theorem replicate_zero (xs : List K) : Near (List.replicate xs.length 0) xs xs := by
  induction xs with
  | nil => exact .nil
  | cons x xs ih => exact .cons (by rw [sub_self, abs_zero]) ih

omit [IsStrictOrderedRing K] in
theorem length_eq (h : Near es xs ys) : xs.length = ys.length := by
  induction h with
  | nil => rfl
  | cons _ _ ih => exact congrArg Nat.succ ih

theorem abs_getD_sub_le (h : Near es xs ys) (i : ℕ) :
    |xs.getD i 0 - ys.getD i 0| ≤ es.getD i 0 := by
  induction h generalizing i with
  | nil => simp
  | cons h _ ih =>
    cases i with
    | zero => exact h
    | succ i => exact ih i

theorem abs_dot_sub_le (h : Near es xs ys) (row : List K) :
    |Scalar.dot row xs - Scalar.dot row ys| ≤ Scalar.dot (row.map (|·|)) es := by
  simp only [Scalar.dot_eq_sum]
  induction h generalizing row with
  | nil => simp
  | @cons e x y es xs ys h _ ih =>
    cases row with
    | nil => simp
    | cons w row =>
      have hterm : |w * x - w * y| ≤ |w| * e := by
        rw [← mul_sub, abs_mul]
        exact mul_le_mul_of_nonneg_left h (abs_nonneg w)
      simp only [List.map_cons, List.zipWith_cons_cons, List.sum_cons]
      rw [add_sub_add_comm]
      exact (abs_add_le _ _).trans (add_le_add hterm (ih row))

end Near

def Layer.magnitude (l : Layer K) : Layer K :=
  ⟨l.weights.map (fun row => row.map (|·|)), l.biases.map (fun _ => 0)⟩

namespace LayeredNetwork

-- What an error at the end of a pass can come to when every hidden neuron adds one of at most `s`:
-- the network itself run on errors, with the magnitudes of its weights and without its biases.
def drift (net : LayeredNetwork K) (s : K) : List K :=
  forwardWith (· + s) (net.layers.map Layer.magnitude) (List.replicate net.inputSize 0)

theorem near_preActivations {es xs ys : List K} (h : Near es xs ys) (l : Layer K) :
    Near (preActivations l.magnitude es) (preActivations l xs) (preActivations l ys) := by
  obtain ⟨weights, biases⟩ := l
  unfold preActivations Layer.magnitude
  induction weights generalizing biases with
  | nil => exact .nil
  | cons row weights ih =>
    cases biases with
    | nil => exact .nil
    | cons bias biases =>
      refine .cons ?_ (ih biases)
      rw [add_sub_add_right_eq_sub]
      exact (h.abs_dot_sub_le row).trans_eq (add_zero _).symm

theorem near_activated {es xs bs ys : List K} (h : Near es xs ys) {s : K}
    (hbs : List.Forall₂ (fun a b => |b - max a 0| ≤ s) xs bs) :
    Near (es.map (· + s)) bs (ys.map (Scalar.larger · 0)) := by
  induction h generalizing bs with
  | nil =>
    cases hbs
    exact .nil
  | @cons e x y es xs ys h _ ih =>
    cases hbs with
    | @cons _ b _ bs hb hrest =>
      refine .cons ?_ (ih hrest)
      simp only [Scalar.larger_eq_max]
      calc |b - max y 0| ≤ |b - max x 0| + |max x 0 - max y 0| := abs_sub_le _ _ _
        _ ≤ s + e := add_le_add hb ((abs_max_sub_max_le_abs x y 0).trans h)
        _ = e + s := add_comm s e

theorem near_of_passes {s : K} {layers : List (Layer K)} {xs zs ys : List K}
    (h : Passes (fun a b => |b - max a 0| ≤ s) layers xs zs ys) {es xs' : List K}
    (hnear : Near es xs xs') : Near (forwardWith (· + s) (layers.map Layer.magnitude) es) ys
      (forwardWith (Scalar.larger · 0) layers xs') := by
  induction h generalizing es xs' with
  | none => exact hnear
  | last l xs => exact near_preActivations hnear l
  | next h _ ih => exact ih (near_activated (near_preActivations hnear _) h)

theorem exists_near_forward {net : LayeredNetwork K} (h : net.WellFormed) {x : ℕ → K} {s : K}
    (hequations : ∀ e ∈ net.toNetwork.equations, e.residual x = 0)
    (hrelus : ∀ p ∈ net.toNetwork.relus, |x p.output - max (x p.input) 0| ≤ s) :
    ∃ direct, net.forward (net.toNetwork.inputs.map x) = .ok direct ∧
      Near (net.drift s) (net.toNetwork.outputs.map x) direct := by
  have hlen : (net.toNetwork.inputs.map x).length = net.inputSize := by
    rw [List.length_map, (encodes_toNetwork h).inputs, List.length_range]
  obtain ⟨zs, hpasses, _⟩ := passes_toNetwork (fun a b => |b - max a 0| ≤ s) h hequations hrelus
  have hstart := Near.replicate_zero (net.toNetwork.inputs.map x)
  rw [hlen] at hstart
  exact ⟨_, by rw [forward, if_neg (not_not_intro hlen)], near_of_passes hpasses hstart⟩

end LayeredNetwork

end ReluVerify
