import ReluVerify.Layered.Encoding
import ReluVerify.Proofs.Refinement

namespace ReluVerify

variable {K : Type}

namespace LayeredNetwork

open Network (Refines)

def Fits : ℕ → List (Layer K) → Prop
  | _, [] => True
  | fanIn, l :: rest => l.weights.length = l.biases.length ∧
      (∀ row ∈ l.weights, row.length = fanIn) ∧ Fits l.width rest

structure WellFormed (net : LayeredNetwork K) : Prop where
  nonempty : net.layers ≠ []
  fits : Fits net.inputSize net.layers

theorem fault?_eq_none {fanIn : ℕ} {l : Layer K} : l.fault? fanIn = none ↔
    l.weights.length = l.biases.length ∧ ∀ row ∈ l.weights, row.length = fanIn := by
  unfold Layer.fault?
  split
  case isTrue h => simp [h]
  case isFalse h => simp [not_not.mp h]

theorem checkLayers_eq_ok {layers : List (Layer K)} {index fanIn : ℕ} :
    checkLayers index fanIn layers = .ok () ↔ Fits fanIn layers := by
  induction layers generalizing index fanIn with
  | nil => exact ⟨fun _ => trivial, fun _ => rfl⟩
  | cons l rest ih =>
    rw [checkLayers, Fits, ← and_assoc, ← fault?_eq_none]
    cases h : l.fault? fanIn with
    | some cause => simp
    | none => simpa using ih

theorem wellFormed_of_build {weights : List (List (List K))} {biases : List (List K)}
    {net : LayeredNetwork K} (h : build weights biases = .ok net) : net.WellFormed := by
  unfold build at h
  split at h
  · cases h
  rename_i hweights
  split at h
  · cases h
  rename_i hlen
  have hcheck : ∀ layers, (checkLayers 0 (fanIn weights) layers).map
      (fun _ => (⟨fanIn weights, layers, none⟩ : LayeredNetwork K)) = .ok net →
      net = ⟨fanIn weights, layers, none⟩ ∧ Fits (fanIn weights) layers := by
    intro layers hmap
    cases hc : checkLayers 0 (fanIn weights) layers with
    | error e =>
      rw [hc] at hmap
      cases hmap
    | ok u =>
      rw [hc] at hmap
      exact ⟨(Except.ok.inj hmap).symm, checkLayers_eq_ok.mp hc⟩
  obtain ⟨rfl, hfits⟩ := hcheck _ h
  refine ⟨fun hnil => hweights ?_, hfits⟩
  have hzero : (List.zipWith Layer.mk weights biases).length = 0 := congrArg List.length hnil
  rw [List.length_zipWith, ← not_not.mp hlen, Nat.min_self] at hzero
  rw [List.isEmpty_iff]
  exact List.length_eq_zero_iff.mp hzero

theorem Fits.fanIn {layers : List (Layer K)} {n : ℕ} (h : Fits n layers) :
    Fits (LayeredNetwork.fanIn (layers.map Layer.weights)) layers := by
  obtain _ | ⟨⟨_ | ⟨row, rows⟩, biases⟩, rest⟩ := layers
  · trivial
  · exact ⟨h.1, fun _ hrow => absurd hrow List.not_mem_nil, h.2.2⟩
  · have hrow : row.length = n := h.2.1 row List.mem_cons_self
    change Fits row.length _
    rwa [hrow]

theorem zipWith_layers (layers : List (Layer K)) :
    List.zipWith Layer.mk (layers.map Layer.weights) (layers.map Layer.biases) = layers := by
  rw [List.zipWith_map, List.zipWith_self, List.map_id']

theorem build_layers {layers : List (Layer K)} {n : ℕ} (hne : layers ≠ []) (h : Fits n layers) :
    build (layers.map Layer.weights) (layers.map Layer.biases) =
      .ok ⟨LayeredNetwork.fanIn (layers.map Layer.weights), layers, none⟩ := by
  have hcheck : checkLayers 0 (LayeredNetwork.fanIn (layers.map Layer.weights)) layers = .ok () :=
    checkLayers_eq_ok.mpr h.fanIn
  rw [build, if_neg (by simpa using hne), if_neg (by simp)]
  simp only [zipWith_layers, hcheck]
  rfl

variable [Field K] [LinearOrder K]

theorem sum_weighted (row : List K) (previous : List ℕ) (x : ℕ → K) :
    ((((row.zip previous).filter (fun p => !Scalar.isZero p.1)).map
      (fun p => (-p.1, p.2))).map (fun t => t.1 * x t.2)).sum =
      -Scalar.dot row (previous.map x) := by
  rw [Scalar.dot_eq_sum]
  induction row generalizing previous with
  | nil => simp
  | cons w row ih =>
    cases previous with
    | nil => simp
    | cons v previous =>
      have hrest := ih previous
      rw [List.zip_cons_cons, List.map_cons, List.zipWith_cons_cons, List.sum_cons, neg_add,
        ← hrest]
      by_cases hw : w = 0
      · simp [hw]
      · simp [hw]

theorem residual_neuronEquation (previous : List ℕ) (neuron : ℕ) (row : List K) (bias : K)
    (x : ℕ → K) : (neuronEquation previous neuron row bias).residual x =
      x neuron - (Scalar.dot row (previous.map x) + bias) := by
  unfold Equation.residual neuronEquation
  rw [Scalar.total_eq_sum, List.map_cons, List.sum_cons, sum_weighted]
  ring

def neuronEquations (previous neurons : List ℕ) (weights : List (List K)) (biases : List K) :
    List (Equation K) :=
  ((neurons.zip weights).zip biases).map
    (fun p => neuronEquation previous p.1.1 p.1.2 p.2)

theorem neuronEquations_cons (previous neurons : List ℕ) (weights : List (List K))
    (biases : List K) (neuron : ℕ) (row : List K) (bias : K) :
    neuronEquations previous (neuron :: neurons) (row :: weights) (bias :: biases) =
      neuronEquation previous neuron row bias ::
        neuronEquations previous neurons weights biases := rfl

theorem aux_neuronEquations {previous neurons : List ℕ} {weights : List (List K)}
    {biases : List K} (hw : neurons.length = weights.length) (hb : neurons.length = biases.length) :
    (neuronEquations previous neurons weights biases).map Equation.aux = neurons := by
  induction neurons generalizing weights biases with
  | nil => rfl
  | cons neuron neurons ih =>
    obtain ⟨row, weights, rfl⟩ := List.exists_cons_of_length_eq_add_one hw.symm
    obtain ⟨bias, biases, rfl⟩ := List.exists_cons_of_length_eq_add_one hb.symm
    rw [neuronEquations_cons, List.map_cons,
      ih (Nat.succ.inj hw) (Nat.succ.inj hb)]
    rfl

theorem terms_neuronEquations {previous neurons : List ℕ} {weights : List (List K)}
    {biases : List K} {e : Equation K}
    (he : e ∈ neuronEquations previous neurons weights biases) {p : K × ℕ} (hp : p ∈ e.terms) :
    p.2 ∈ neurons ∨ p.2 ∈ previous := by
  obtain ⟨⟨⟨neuron, row⟩, bias⟩, hmem, rfl⟩ := List.mem_map.mp he
  rcases List.mem_cons.mp hp with rfl | hp
  · exact Or.inl (List.of_mem_zip (List.of_mem_zip hmem).1).1
  · obtain ⟨q, hq, rfl⟩ := List.mem_map.mp hp
    exact Or.inr (List.of_mem_zip (List.mem_of_mem_filter hq)).2

theorem holds_neuronEquations {previous neurons : List ℕ} {weights : List (List K)}
    {biases : List K} (hw : neurons.length = weights.length) (hb : neurons.length = biases.length)
    (x : ℕ → K) : (∀ e ∈ neuronEquations previous neurons weights biases, e.residual x = 0) ↔
      neurons.map x = List.zipWith
        (fun row bias => Scalar.dot row (previous.map x) + bias) weights biases := by
  induction neurons generalizing weights biases with
  | nil =>
    obtain rfl := List.length_eq_zero_iff.mp hw.symm
    simp [neuronEquations]
  | cons neuron neurons ih =>
    obtain ⟨row, weights, rfl⟩ := List.exists_cons_of_length_eq_add_one hw.symm
    obtain ⟨bias, biases, rfl⟩ := List.exists_cons_of_length_eq_add_one hb.symm
    rw [neuronEquations_cons, List.forall_mem_cons, residual_neuronEquation, sub_eq_zero,
      ih (Nat.succ.inj hw) (Nat.succ.inj hb), List.map_cons, List.zipWith_cons_cons,
      List.cons.injEq]

structure Computes (n : Network K) (previous : List ℕ) (r : List ℕ × Network K)
    (f : List K → List K) : Prop where
  refines : Refines n r.2 (fun _ => True)
  lt : ∀ v ∈ r.1, v < r.2.numVars
  bounds : r.2.bounds = n.bounds
  values : ∀ x, r.2.Solves x → r.1.map x = f (previous.map x)

theorem Computes.trans {n : Network K} {previous : List ℕ} {r r' : List ℕ × Network K}
    {f g : List K → List K} (h : Computes n previous r f) (h' : Computes r.2 r.1 r' g) :
    Computes n previous r' (fun xs => g (f xs)) where
  refines := (h.refines.trans h'.refines fun _ _ _ => id).congr fun _ => and_self_iff
  lt := h'.lt
  bounds := h'.bounds.trans h.bounds
  values := fun x hx => by
    rw [h'.values x hx, h.values x (h'.refines.sound x hx).1]

theorem computes_grow [IsStrictOrderedRing K] {n : Network K} (hn : n.Allocated)
    {previous : List ℕ} {count : ℕ} (hprevious : ∀ v ∈ previous, v < n.numVars)
    {es : List (Equation K)} {rs : ReluList} {f : List K → List K}
    (hgrow : (n.grow count es rs).Allocated)
    (hlen : ∀ x : ℕ → K, (f (previous.map x)).length = count)
    (h : ∀ x, ((∀ e ∈ es, e.residual x = 0) ∧ ∀ p ∈ rs, x p.output = max (x p.input) 0) ↔
      ((List.range count).map (n.numVars + ·)).map x = f (previous.map x)) :
    Computes n previous ((List.range count).map (n.numVars + ·), n.grow count es rs) f where
  refines := by
    refine ⟨Nat.le_add_right _ _, hgrow, rfl, rfl, fun x hx => ?_, fun x hx _ => ?_⟩
    · exact ⟨(Network.solves_grow.mp hx).1, trivial⟩
    · obtain ⟨y, hyx, hy⟩ := Network.exists_fresh x n.numVars (f (previous.map x))
      rw [hlen, ← Network.map_eq_of_lt hprevious hyx] at hy
      exact ⟨y, hyx, Network.solves_grow.mpr
        ⟨hx.congr hn fun v hv => (hyx v hv).symm, (h y).mpr hy⟩⟩
  lt := fun v hv => by
    obtain ⟨i, hi, rfl⟩ := List.mem_map.mp hv
    exact Nat.add_lt_add_left (List.mem_range.mp hi) _
  bounds := rfl
  values := fun x hx => (h x).mp (Network.solves_grow.mp hx).2

theorem fresh_lt {start count v : ℕ} (hv : v ∈ (List.range count).map (start + ·)) :
    start ≤ v ∧ v < start + count := by
  obtain ⟨i, hi, rfl⟩ := List.mem_map.mp hv
  exact ⟨Nat.le_add_right _ _, Nat.add_lt_add_left (List.mem_range.mp hi) _⟩

theorem nodup_fresh (start count : ℕ) : ((List.range count).map (start + ·)).Nodup :=
  List.nodup_range.map (add_right_injective start)

def fresh (n : Network K) (count : ℕ) : List ℕ := (List.range count).map (n.numVars + ·)

theorem addNeurons_eq (previous : List ℕ) (l : Layer K) (n : Network K) :
    addNeurons previous l n = (fresh n l.width,
      n.grow l.width (neuronEquations previous (fresh n l.width) l.weights l.biases) []) := by
  simp [addNeurons, Network.grow, Network.newVariables, neuronEquations, fresh]

omit [Field K] [LinearOrder K] in
theorem addActivations_eq (neurons : List ℕ) (n : Network K) :
    addActivations neurons n = (fresh n neurons.length, n.grow neurons.length []
      (List.zipWith ReluPair.mk neurons (fresh n neurons.length))) := by
  simp [addActivations, Network.grow, Network.newVariables, fresh]

omit [Field K] [LinearOrder K] in
theorem length_fresh (n : Network K) (count : ℕ) : (fresh n count).length = count := by
  simp [fresh]

theorem computes_addNeurons [IsStrictOrderedRing K] {n : Network K} (hn : n.Allocated)
    {previous : List ℕ} (hprevious : ∀ v ∈ previous, v < n.numVars) {l : Layer K}
    (hl : l.weights.length = l.biases.length) :
    Computes n previous (addNeurons previous l n) (preActivations l) := by
  let neurons := fresh n l.width
  have hw : neurons.length = l.weights.length := length_fresh n l.width
  have hb : neurons.length = l.biases.length := hw.trans hl
  have haux : (neuronEquations previous neurons l.weights l.biases).map Equation.aux = neurons :=
    aux_neuronEquations hw hb
  rw [addNeurons_eq]
  refine computes_grow hn hprevious (Network.allocated_grow hn (fun e he => ?_) ?_
    (fun e he p hp => ?_) (by simp)) (fun x => ?_) fun x => ?_
  · have hmem : e.aux ∈ neurons := by
      rw [← haux]
      exact List.mem_map_of_mem he
    exact fresh_lt hmem
  · rw [haux]
    exact nodup_fresh _ _
  · rcases terms_neuronEquations he hp with hmem | hmem
    · exact (fresh_lt hmem).2
    · exact Nat.lt_add_right _ (hprevious _ hmem)
  · simp [preActivations, Layer.width, ← hl]
  · rw [holds_neuronEquations hw hb]
    simp [preActivations, neurons, fresh]

theorem mem_zipWith_pairs {as bs : List ℕ} {p : ReluPair} (h : p ∈ List.zipWith ReluPair.mk as bs) :
    p.input ∈ as ∧ p.output ∈ bs := by
  induction as generalizing bs with
  | nil => simp at h
  | cons a as ih =>
    cases bs with
    | nil => simp at h
    | cons b bs =>
      rcases List.mem_cons.mp h with rfl | h
      · exact ⟨List.mem_cons_self, List.mem_cons_self⟩
      · obtain ⟨hin, hout⟩ := ih h
        exact ⟨List.mem_cons_of_mem _ hin, List.mem_cons_of_mem _ hout⟩

theorem holds_pairs {as bs : List ℕ} (h : as.length = bs.length) (x : ℕ → K) :
    (∀ p ∈ List.zipWith ReluPair.mk as bs, x p.output = max (x p.input) 0) ↔
      bs.map x = (as.map x).map (Scalar.larger · 0) := by
  induction as generalizing bs with
  | nil =>
    obtain rfl := List.length_eq_zero_iff.mp h.symm
    simp
  | cons a as ih =>
    obtain ⟨b, bs, rfl⟩ := List.exists_cons_of_length_eq_add_one h.symm
    rw [List.zipWith_cons_cons, List.forall_mem_cons, ih (Nat.succ.inj h), List.map_cons,
      List.map_cons, List.map_cons, List.cons.injEq, Scalar.larger_eq_max]

theorem computes_addActivations [IsStrictOrderedRing K] {n : Network K} (hn : n.Allocated)
    {neurons : List ℕ} (hneurons : ∀ v ∈ neurons, v < n.numVars) :
    Computes n neurons (addActivations neurons n) (fun xs => xs.map (Scalar.larger · 0)) := by
  rw [addActivations_eq]
  refine computes_grow hn hneurons (Network.allocated_grow hn (by simp) (by simp) (by simp)
    fun p hp => ?_) (fun x => by simp) fun x => ?_
  · obtain ⟨hin, hout⟩ := mem_zipWith_pairs hp
    exact ⟨Nat.lt_add_right _ (hneurons _ hin), (fresh_lt hout).2⟩
  · rw [holds_pairs (length_fresh n neurons.length).symm]
    simp [fresh]

theorem computes_encodeLayers [IsStrictOrderedRing K] {layers : List (Layer K)} {n : Network K}
    (hn : n.Allocated) {previous : List ℕ} (hprevious : ∀ v ∈ previous, v < n.numVars) {fanIn : ℕ}
    (hfits : Fits fanIn layers) : Computes n previous (encodeLayers layers previous n)
      (forwardWith (Scalar.larger · 0) layers) := by
  induction layers generalizing n previous fanIn with
  | nil =>
    exact ⟨Network.refines_of_iff hn rfl rfl rfl fun _ => (and_iff_left trivial).symm, hprevious,
      rfl, fun _ _ => rfl⟩
  | cons l rest ih =>
    have hneurons := computes_addNeurons hn hprevious hfits.1
    cases rest with
    | nil => exact hneurons
    | cons l' rest =>
      have hactivated := computes_addActivations hneurons.refines.allocated hneurons.lt
      exact (hneurons.trans hactivated).trans
        (ih hactivated.refines.allocated hactivated.lt hfits.2.2)

theorem length_encodeLayers (layers : List (Layer K)) (previous : List ℕ) (n : Network K) :
    (encodeLayers layers previous n).1.length =
      (previous.length :: layers.map Layer.width).getLastD 0 := by
  induction layers generalizing n previous with
  | nil => rfl
  | cons l rest ih =>
    cases rest with
    | nil => simp [encodeLayers, addNeurons, Network.newVariables]
    | cons l' rest =>
      rw [encodeLayers, ih]
      · simp [addActivations, addNeurons, Network.newVariables]
      · simp

structure Encodes (net : LayeredNetwork K) (n : Network K) : Prop where
  allocated : n.Allocated
  inputs : n.inputs = List.range net.inputSize
  input_lt : ∀ v ∈ n.inputs, v < n.numVars
  output_lt : ∀ v ∈ n.outputs, v < n.numVars
  length_outputs : n.outputs.length = net.outputSize
  free : ∀ v, n.boundsOf v = Bounds.free
  values : ∀ x, n.Solves x →
    n.outputs.map x = forwardWith (Scalar.larger · 0) net.layers (n.inputs.map x)
  exists_solution : ∀ xs : List K, xs.length = net.inputSize →
    ∃ x, n.Solves x ∧ n.inputs.map x = xs

omit [Field K] [LinearOrder K] in
theorem allocated_inputs (count : ℕ) :
    ((Network.empty : Network K).newVariables count).2.Allocated := by
  refine ⟨?_, ?_, ?_, ?_, fun v hv => by cases hv⟩ <;> simp [Network.newVariables, Network.empty]

theorem encodes_toNetwork [IsStrictOrderedRing K] {net : LayeredNetwork K} (h : net.WellFormed) :
    net.Encodes net.toNetwork := by
  let start : Network K := (Network.empty.newVariables net.inputSize).2
  let inputs := (List.range net.inputSize).map (0 + ·)
  have hstart : start.Allocated := allocated_inputs net.inputSize
  have hinputs : ∀ v ∈ inputs, v < start.numVars := fun v hv => (fresh_lt hv).2
  have hcomputes := computes_encodeLayers hstart hinputs h.fits
  let r := encodeLayers net.layers inputs start
  have heq : net.toNetwork = { r.2 with inputs := inputs, outputs := r.1 } := rfl
  have hsolves : ∀ x, net.toNetwork.Solves x ↔ r.2.Solves x := fun x =>
    ⟨fun hx => ⟨hx.equations, hx.bounds, hx.relus⟩, fun hx => ⟨hx.equations, hx.bounds, hx.relus⟩⟩
  have halloc := hcomputes.refines.allocated
  refine ⟨⟨halloc.auxiliary, halloc.terms, halloc.distinct, halloc.relus, halloc.bounds⟩, ?_,
    fun v hv => ?_, hcomputes.lt, ?_, fun v => ?_, fun x hx => ?_, fun xs hxs => ?_⟩
  · simp [heq, inputs]
  · exact (hinputs v hv).trans_le hcomputes.refines.numVars_le
  · change r.1.length = _
    rw [length_encodeLayers]
    simp [inputs, outputSize, sizes]
  · change BoundStore.bounds r.2.bounds v = _
    rw [hcomputes.bounds]
    rfl
  · exact hcomputes.values x ((hsolves x).mp hx)
  · obtain ⟨x, _, hx⟩ := Network.exists_fresh (fun _ => 0) 0 xs
    have hx0 : start.Solves x := ⟨fun e he => (by cases he), fun v => Bounds.within_free 0 _,
      fun p hp => (by cases hp)⟩
    obtain ⟨y, hyx, hy⟩ := hcomputes.refines.complete x hx0 trivial
    refine ⟨y, (hsolves y).mpr hy, ?_⟩
    change inputs.map y = xs
    rw [Network.map_eq_of_lt hinputs hyx, ← hx, hxs]

theorem Encodes.forward {net : LayeredNetwork K} {n : Network K} (h : net.Encodes n) {x : ℕ → K}
    (hx : n.Solves x) : net.forward (n.inputs.map x) = .ok (n.outputs.map x) := by
  rw [LayeredNetwork.forward, if_neg (by simp [h.inputs]), h.values x hx]

def Favours (net : LayeredNetwork K) (xs : List K) (position : ℕ) : Prop :=
  ∃ scores top, net.forward xs = .ok scores ∧ scores[position]? = some top ∧
    ∀ s ∈ scores, s ≤ top

theorem Encodes.favours_iff {net : LayeredNetwork K} {n : Network K} (h : net.Encodes n)
    {x : ℕ → K} (hx : n.Solves x) {position target : ℕ}
    (htarget : n.outputs[position]? = some target) :
    net.Favours (n.inputs.map x) position ↔ ∀ v ∈ n.outputs, x v ≤ x target := by
  have htop : (n.outputs.map x)[position]? = some (x target) := by
    rw [List.getElem?_map, htarget, Option.map_some]
  constructor
  · rintro ⟨scores, top, hscores, htop', hmax⟩ v hv
    obtain rfl := Except.ok.inj ((h.forward hx).symm.trans hscores)
    rw [Option.some.inj (htop.symm.trans htop')]
    exact hmax _ (List.mem_map_of_mem hv)
  · exact fun hmax => ⟨_, _, h.forward hx, htop, List.forall_mem_map.mpr hmax⟩

end LayeredNetwork

end ReluVerify
