import ReluVerify.Proofs.Layered
import ReluVerify.Proofs.Staged

namespace ReluVerify

variable {K : Type} [Field K] [LinearOrder K]

structure Network.Drives (n : Network K) (count : ℕ) : Prop where
  staged : n.Staged
  aux_ge : ∀ e ∈ n.equations, count ≤ e.aux
  output_ge : ∀ p ∈ n.relus, count ≤ p.output
  input : ∀ p ∈ n.relus, ∃ e ∈ n.equations, e.aux = p.input
  covered : ∀ v, count ≤ v → v < n.numVars →
    (∃ e ∈ n.equations, e.aux = v) ∨ ∃ p ∈ n.relus, p.output = v

omit [LinearOrder K] in
theorem Network.drives_grow {n : Network K} {count : ℕ} (hn : n.Drives count)
    (hcount : count ≤ n.numVars) {width : ℕ} {es : List (Equation K)} {rs : ReluList}
    (hstaged : (n.grow width es rs).Staged) (haux : ∀ e ∈ es, n.numVars ≤ e.aux)
    (houtput : ∀ p ∈ rs, n.numVars ≤ p.output)
    (hinput : ∀ p ∈ rs, ∃ e ∈ n.equations ++ es, e.aux = p.input)
    (hcovered : ∀ v, n.numVars ≤ v → v < n.numVars + width →
      (∃ e ∈ es, e.aux = v) ∨ ∃ p ∈ rs, p.output = v) : (n.grow width es rs).Drives count where
  staged := hstaged
  aux_ge := List.forall_mem_append.mpr ⟨hn.aux_ge, fun e he => hcount.trans (haux e he)⟩
  output_ge := List.forall_mem_append.mpr
    ⟨hn.output_ge, fun p hp => hcount.trans (houtput p hp)⟩
  input := List.forall_mem_append.mpr ⟨fun p hp => by
    obtain ⟨e, he, hep⟩ := hn.input p hp
    exact ⟨e, List.mem_append_left _ he, hep⟩, hinput⟩
  covered := fun v hv hlt => by
    rcases lt_or_ge v n.numVars with hold | hnew
    · exact (hn.covered v hv hold).imp
        (fun ⟨e, he, hev⟩ => ⟨e, List.mem_append_left _ he, hev⟩)
        fun ⟨p, hp, hpv⟩ => ⟨p, List.mem_append_left _ hp, hpv⟩
    · exact (hcovered v hnew hlt).imp
        (fun ⟨e, he, hev⟩ => ⟨e, List.mem_append_right _ he, hev⟩)
        fun ⟨p, hp, hpv⟩ => ⟨p, List.mem_append_right _ hp, hpv⟩

namespace LayeredNetwork

theorem leads_neuronEquation [IsStrictOrderedRing K] {previous : List ℕ} {neuron : ℕ}
    (h : ∀ v ∈ previous, v < neuron) (row : List K) (bias : K) :
    (neuronEquation previous neuron row bias).Leads := by
  have hprevious : ∀ t ∈ ((row.zip previous).filter (fun p => !Scalar.isZero p.1)).map
      (fun p => (-p.1, p.2)), t.2 < neuron := by
    intro t ht
    obtain ⟨p, hp, rfl⟩ := List.mem_map.mp ht
    exact h _ (List.of_mem_zip (List.mem_of_mem_filter hp)).2
  refine ⟨List.forall_mem_cons.mpr ⟨le_rfl, fun t ht => (hprevious t ht).le⟩, ?_⟩
  change (if neuron = neuron then (1 : K) else 0) + _ = 1
  rw [if_pos rfl, add_eq_left]
  refine List.sum_eq_zero fun y hy => ?_
  obtain ⟨t, ht, rfl⟩ := List.mem_map.mp hy
  exact if_neg (hprevious t ht).ne

omit [Field K] [LinearOrder K] in
theorem mem_fresh {n : Network K} {count v : ℕ} :
    v ∈ fresh n count ↔ n.numVars ≤ v ∧ v < n.numVars + count := by
  constructor
  · exact fun hv => fresh_lt hv
  · rintro ⟨hle, hlt⟩
    exact List.mem_map.mpr ⟨v - n.numVars, List.mem_range.mpr (by omega), by omega⟩

theorem exists_neuronEquation (previous : List ℕ) {neurons : List ℕ} {weights : List (List K)}
    {biases : List K} (hw : neurons.length = weights.length) (hb : neurons.length = biases.length)
    {v : ℕ} (hv : v ∈ neurons) :
    ∃ e ∈ neuronEquations previous neurons weights biases, e.aux = v := by
  have haux : (neuronEquations previous neurons weights biases).map Equation.aux = neurons :=
    aux_neuronEquations hw hb
  rw [← haux] at hv
  exact List.mem_map.mp hv

theorem eq_neuronEquation {previous neurons : List ℕ} {weights : List (List K)} {biases : List K}
    {e : Equation K} (he : e ∈ neuronEquations previous neurons weights biases) :
    ∃ neuron ∈ neurons, ∃ row bias, e = neuronEquation previous neuron row bias := by
  obtain ⟨⟨⟨neuron, row⟩, bias⟩, hmem, rfl⟩ := List.mem_map.mp he
  exact ⟨neuron, (List.of_mem_zip (List.of_mem_zip hmem).1).1, row, bias, rfl⟩

theorem drives_addNeurons [IsStrictOrderedRing K] {n : Network K} {count : ℕ}
    (hn : n.Drives count) (hcount : count ≤ n.numVars) {previous : List ℕ}
    (hprevious : ∀ v ∈ previous, v < n.numVars) {l : Layer K}
    (hl : l.weights.length = l.biases.length) :
    (addNeurons previous l n).2.Drives count ∧ ∀ v ∈ (addNeurons previous l n).1,
      ∃ e ∈ (addNeurons previous l n).2.equations, e.aux = v := by
  have hgrow := (computes_addNeurons hn.staged.allocated hprevious hl).refines.allocated
  rw [addNeurons_eq] at hgrow ⊢
  have hw : (fresh n l.width).length = l.weights.length := length_fresh n l.width
  have hsome : ∀ v ∈ fresh n l.width,
      ∃ e ∈ neuronEquations previous (fresh n l.width) l.weights l.biases, e.aux = v :=
    fun v hv => exists_neuronEquation previous hw (hw.trans hl) hv
  have haux : ∀ e ∈ neuronEquations previous (fresh n l.width) l.weights l.biases,
      n.numVars ≤ e.aux ∧ e.Leads := by
    intro e he
    obtain ⟨neuron, hneuron, row, bias, rfl⟩ := eq_neuronEquation he
    have hge := (mem_fresh.mp hneuron).1
    exact ⟨hge, leads_neuronEquation (fun v hv => (hprevious v hv).trans_le hge) row bias⟩
  have hstaged := Network.staged_grow hn.staged hgrow (fun e he => (haux e he).1)
    (fun e he => (haux e he).2) (by simp) (by simp) List.Pairwise.nil
  refine ⟨Network.drives_grow hn hcount hstaged (fun e he => (haux e he).1) (by simp) (by simp)
    fun v hv hlt => Or.inl (hsome v (mem_fresh.mpr ⟨hv, hlt⟩)), fun v hv => ?_⟩
  obtain ⟨e, he, hev⟩ := hsome v hv
  exact ⟨e, List.mem_append_right _ he, hev⟩

theorem exists_pair_of_mem {as bs : List ℕ} (h : as.length = bs.length) {b : ℕ} (hb : b ∈ bs) :
    ∃ p ∈ List.zipWith ReluPair.mk as bs, p.output = b := by
  induction as generalizing bs with
  | nil =>
    obtain rfl := List.length_eq_zero_iff.mp h.symm
    cases hb
  | cons a as ih =>
    obtain ⟨b', bs, rfl⟩ := List.exists_cons_of_length_eq_add_one h.symm
    rcases List.mem_cons.mp hb with rfl | hb
    · exact ⟨⟨a, b⟩, List.mem_cons_self, rfl⟩
    · obtain ⟨p, hp, hpb⟩ := ih (Nat.succ.inj h) hb
      exact ⟨p, List.mem_cons_of_mem _ hp, hpb⟩

theorem pairwise_pairs {as bs : List ℕ} (h : bs.Pairwise (· < ·)) :
    (List.zipWith ReluPair.mk as bs).Pairwise (fun p p' => p.output < p'.output) := by
  induction as generalizing bs with
  | nil => simp
  | cons a as ih =>
    cases bs with
    | nil => simp
    | cons b bs =>
      obtain ⟨hb, hbs⟩ := List.pairwise_cons.mp h
      exact List.pairwise_cons.mpr ⟨fun p hp => hb _ (mem_zipWith_pairs hp).2, ih hbs⟩

omit [Field K] [LinearOrder K] in
theorem pairwise_fresh (n : Network K) (count : ℕ) : (fresh n count).Pairwise (· < ·) :=
  List.pairwise_map.mpr (List.pairwise_lt_range.imp fun hlt => Nat.add_lt_add_left hlt _)

theorem drives_addActivations [IsStrictOrderedRing K] {n : Network K} {count : ℕ}
    (hn : n.Drives count) (hcount : count ≤ n.numVars) {neurons : List ℕ}
    (hneurons : ∀ v ∈ neurons, ∃ e ∈ n.equations, e.aux = v) :
    (addActivations neurons n).2.Drives count := by
  have hlt : ∀ v ∈ neurons, v < n.numVars := by
    intro v hv
    obtain ⟨e, he, rfl⟩ := hneurons v hv
    exact hn.staged.allocated.auxiliary e he
  have hgrow := (computes_addActivations hn.staged.allocated hlt).refines.allocated
  rw [addActivations_eq] at hgrow ⊢
  have hpairs : ∀ p ∈ List.zipWith ReluPair.mk neurons (fresh n neurons.length),
      p.input < n.numVars ∧ n.numVars ≤ p.output := by
    intro p hp
    obtain ⟨hin, hout⟩ := mem_zipWith_pairs hp
    exact ⟨hlt _ hin, (mem_fresh.mp hout).1⟩
  have hstaged := Network.staged_grow hn.staged hgrow (by simp) (by simp)
    (fun p hp => ⟨(hpairs p hp).2, by simp⟩)
    (fun p hp => (hpairs p hp).1.trans_le (hpairs p hp).2) (pairwise_pairs (pairwise_fresh _ _))
  refine Network.drives_grow hn hcount hstaged (by simp) (fun p hp => (hpairs p hp).2)
    (fun p hp => ?_) fun v hv hlt => Or.inr ?_
  · rw [List.append_nil]
    exact hneurons _ (mem_zipWith_pairs hp).1
  · exact exists_pair_of_mem (length_fresh n neurons.length).symm (mem_fresh.mpr ⟨hv, hlt⟩)

theorem drives_encodeLayers [IsStrictOrderedRing K] {layers : List (Layer K)} {n : Network K}
    {count : ℕ} (hn : n.Drives count) (hcount : count ≤ n.numVars) {previous : List ℕ}
    (hprevious : ∀ v ∈ previous, v < n.numVars) {fanIn : ℕ} (hfits : Fits fanIn layers) :
    (encodeLayers layers previous n).2.Drives count := by
  induction layers generalizing n previous fanIn with
  | nil => exact hn
  | cons l rest ih =>
    have hneurons := computes_addNeurons hn.staged.allocated hprevious hfits.1
    obtain ⟨hdrives, hown⟩ := drives_addNeurons hn hcount hprevious hfits.1
    cases rest with
    | nil => exact hdrives
    | cons l' rest =>
      have hactivated := computes_addActivations hneurons.refines.allocated hneurons.lt
      have hcount' := hcount.trans hneurons.refines.numVars_le
      exact ih (drives_addActivations hdrives hcount' hown)
        (hcount'.trans hactivated.refines.numVars_le) hactivated.lt hfits.2.2

omit [LinearOrder K] in
theorem drives_inputs (count : ℕ) :
    ((Network.empty : Network K).newVariables count).2.Drives count where
  staged := ⟨allocated_inputs count, fun _ he => (by cases he), fun _ hp => (by cases hp),
    fun _ hp => (by cases hp), List.Pairwise.nil⟩
  aux_ge := fun _ he => by cases he
  output_ge := fun _ hp => by cases hp
  input := fun _ hp => by cases hp
  covered := fun v hv hlt => by
    rw [Network.newVariables, Network.empty, zero_add] at hlt
    exact absurd hlt (not_lt.mpr hv)

theorem drives_toNetwork [IsStrictOrderedRing K] {net : LayeredNetwork K} (h : net.WellFormed) :
    net.toNetwork.Drives net.inputSize := by
  have hinputs : ∀ v ∈ ((Network.empty : Network K).newVariables net.inputSize).1,
      v < ((Network.empty : Network K).newVariables net.inputSize).2.numVars :=
    fun v hv => (fresh_lt hv).2
  have hcount : net.inputSize ≤
      ((Network.empty : Network K).newVariables net.inputSize).2.numVars :=
    Nat.le_add_left _ _
  obtain ⟨⟨⟨h1, h2, h3, h4, h5⟩, h6, h7, h8, h9⟩, h10, h11, h12, h13⟩ :=
    drives_encodeLayers (drives_inputs net.inputSize) hcount hinputs h.fits
  exact ⟨⟨⟨h1, h2, h3, h4, h5⟩, h6, h7, h8, h9⟩, h10, h11, h12, h13⟩

inductive Passes (R : K → K → Prop) : List (Layer K) → List K → List K → List K → Prop
  | none (xs : List K) : Passes R [] xs [] xs
  | last (l : Layer K) (xs : List K) : Passes R [l] xs [] (preActivations l xs)
  | next {l l' : Layer K} {rest : List (Layer K)} {xs hs zs ys : List K}
      (h : List.Forall₂ R (preActivations l xs) hs) (hrest : Passes R (l' :: rest) hs zs ys) :
      Passes R (l :: l' :: rest) xs (preActivations l xs ++ zs) ys

def hidden (activate : K → K) : List (Layer K) → List K → List K
  | l :: l' :: rest, xs =>
      preActivations l xs ++ hidden activate (l' :: rest) ((preActivations l xs).map activate)
  | _, _ => []

theorem eq_forwardWith_of_passes {activate : K → K} {layers : List (Layer K)} {xs zs ys : List K}
    (h : Passes (fun a b => b = activate a) layers xs zs ys) :
    ys = forwardWith activate layers xs ∧ zs = hidden activate layers xs := by
  induction h with
  | none => exact ⟨rfl, rfl⟩
  | last => exact ⟨rfl, rfl⟩
  | @next l l' rest xs hs zs ys h _ ih =>
    have hmap : hs = (preActivations l xs).map activate := by
      rw [← List.forall₂_eq_eq_eq, List.forall₂_map_right_iff]
      exact h.flip.imp fun _ _ he => he
    rw [hmap] at ih
    exact ⟨ih.1, congrArg (preActivations l xs ++ ·) ih.2⟩

theorem encodeLayers_cons (l l' : Layer K) (rest : List (Layer K)) (previous : List ℕ)
    (n : Network K) : encodeLayers (l :: l' :: rest) previous n = encodeLayers (l' :: rest)
      (addActivations (addNeurons previous l n).1 (addNeurons previous l n).2).1
      (addActivations (addNeurons previous l n).1 (addNeurons previous l n).2).2 := rfl

theorem subset_encodeLayers (layers : List (Layer K)) (previous : List ℕ) (n : Network K) :
    n.equations ⊆ (encodeLayers layers previous n).2.equations ∧
      n.relus ⊆ (encodeLayers layers previous n).2.relus := by
  induction layers generalizing previous n with
  | nil => exact ⟨fun _ he => he, fun _ hp => hp⟩
  | cons l rest ih =>
    cases rest with
    | nil => exact ⟨List.subset_append_left _ _, fun _ hp => hp⟩
    | cons l' rest =>
      have hrest := ih (addActivations (addNeurons previous l n).1 (addNeurons previous l n).2).1
        (addActivations (addNeurons previous l n).1 (addNeurons previous l n).2).2
      exact ⟨List.Subset.trans (List.subset_append_left _ _) hrest.1,
        List.Subset.trans (List.subset_append_left _ _) hrest.2⟩

omit [Field K] [LinearOrder K] in
theorem forall₂_pairs {R : K → K → Prop} {x : ℕ → K} {as bs : List ℕ}
    (h : as.length = bs.length)
    (hR : ∀ p ∈ List.zipWith ReluPair.mk as bs, R (x p.input) (x p.output)) :
    List.Forall₂ R (as.map x) (bs.map x) := by
  induction as generalizing bs with
  | nil =>
    obtain rfl := List.length_eq_zero_iff.mp h.symm
    exact .nil
  | cons a as ih =>
    obtain ⟨b, bs, rfl⟩ := List.exists_cons_of_length_eq_add_one h.symm
    obtain ⟨ha, has⟩ := List.forall_mem_cons.mp hR
    exact .cons ha (ih (Nat.succ.inj h) has)

omit [Field K] [LinearOrder K] in
theorem map_input_pairs {as bs : List ℕ} (h : as.length = bs.length) (x : ℕ → K) :
    (List.zipWith ReluPair.mk as bs).map (fun p => x p.input) = as.map x := by
  induction as generalizing bs with
  | nil => rfl
  | cons a as ih =>
    obtain ⟨b, bs, rfl⟩ := List.exists_cons_of_length_eq_add_one h.symm
    rw [List.zipWith_cons_cons, List.map_cons, ih (Nat.succ.inj h), List.map_cons]

theorem map_addNeurons {n : Network K} {previous : List ℕ} {l : Layer K}
    (hl : l.weights.length = l.biases.length) {x : ℕ → K}
    (hx : ∀ e ∈ (addNeurons previous l n).2.equations, e.residual x = 0) :
    (addNeurons previous l n).1.map x = preActivations l (previous.map x) := by
  rw [addNeurons_eq] at hx ⊢
  have hw : (fresh n l.width).length = l.weights.length := length_fresh n l.width
  exact (holds_neuronEquations hw (hw.trans hl) x).mp
    fun e he => hx e (List.mem_append_right _ he)

omit [Field K] [LinearOrder K] in
theorem map_input_addActivations (neurons : List ℕ) (n : Network K) (x : ℕ → K) :
    (addActivations neurons n).2.relus.map (fun p => x p.input) =
      n.relus.map (fun p => x p.input) ++ neurons.map x := by
  rw [addActivations_eq]
  refine (List.map_append ..).trans (congrArg (_ ++ ·) ?_)
  exact map_input_pairs (length_fresh n neurons.length).symm x

omit [Field K] [LinearOrder K] in
theorem forall₂_addActivations {R : K → K → Prop} {x : ℕ → K} {neurons : List ℕ} {n : Network K}
    (hR : ∀ p ∈ (addActivations neurons n).2.relus, R (x p.input) (x p.output)) :
    List.Forall₂ R (neurons.map x) ((addActivations neurons n).1.map x) := by
  rw [addActivations_eq] at hR ⊢
  exact forall₂_pairs (length_fresh n neurons.length).symm
    fun p hp => hR p (List.mem_append_right _ hp)

-- What every equation and every pair says locally makes the whole a pass through the layers.
theorem passes_encodeLayers {R : K → K → Prop} {x : ℕ → K} {layers : List (Layer K)}
    {n : Network K} {previous : List ℕ} {fanIn : ℕ} (hfits : Fits fanIn layers)
    (hx : ∀ e ∈ (encodeLayers layers previous n).2.equations, e.residual x = 0)
    (hR : ∀ p ∈ (encodeLayers layers previous n).2.relus, R (x p.input) (x p.output)) :
    ∃ zs, Passes R layers (previous.map x) zs ((encodeLayers layers previous n).1.map x) ∧
      (encodeLayers layers previous n).2.relus.map (fun p => x p.input) =
        n.relus.map (fun p => x p.input) ++ zs := by
  induction layers generalizing n previous fanIn with
  | nil => exact ⟨[], .none _, (List.append_nil _).symm⟩
  | cons l rest ih =>
    cases rest with
    | nil =>
      refine ⟨[], ?_, (List.append_nil _).symm⟩
      rw [encodeLayers, map_addNeurons hfits.1 hx]
      exact .last _ _
    | cons l' rest =>
      rw [encodeLayers_cons] at hx hR ⊢
      obtain ⟨zs, hpasses, hrelus⟩ := ih hfits.2.2 hx hR
      obtain ⟨hequations, hpairs⟩ := subset_encodeLayers (l' :: rest)
        (addActivations (addNeurons previous l n).1 (addNeurons previous l n).2).1
        (addActivations (addNeurons previous l n).1 (addNeurons previous l n).2).2
      have hneurons : (addNeurons previous l n).1.map x = preActivations l (previous.map x) :=
        map_addNeurons hfits.1 fun e he => hx e (hequations he)
      have hforall := forall₂_addActivations fun p hp => hR p (hpairs hp)
      rw [hneurons] at hforall
      refine ⟨_, .next hforall hpasses, ?_⟩
      rw [hrelus, map_input_addActivations, hneurons, List.append_assoc]
      rfl

theorem passes_toNetwork (R : K → K → Prop) {x : ℕ → K} {net : LayeredNetwork K}
    (h : net.WellFormed) (hx : ∀ e ∈ net.toNetwork.equations, e.residual x = 0)
    (hR : ∀ p ∈ net.toNetwork.relus, R (x p.input) (x p.output)) :
    ∃ zs, Passes R net.layers (net.toNetwork.inputs.map x) zs (net.toNetwork.outputs.map x) ∧
      net.toNetwork.relus.map (fun p => x p.input) = zs :=
  passes_encodeLayers h.fits hx hR

end LayeredNetwork

end ReluVerify
