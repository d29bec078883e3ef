import ReluVerify.Proofs.Shape

namespace ReluVerify

theorem mapM_eq_some {β γ : Type} {f : β → Option γ} {g : β → γ} {l : List β}
    (h : ∀ b ∈ l, f b = some (g b)) : l.mapM f = some (l.map g) := by
  induction l with
  | nil => rfl
  | cons b l ih =>
    obtain ⟨hb, hl⟩ := List.forall_mem_cons.mp h
    rw [List.mapM_cons, hb, ih hl]
    rfl

def paired? {β γ : Type} (xs : List β) (ys : List γ) : Option (List (β × γ)) :=
  if xs.length = ys.length then some (xs.zip ys) else none

theorem paired?_of_length {β γ : Type} {xs : List β} {ys : List γ} (h : xs.length = ys.length) :
    paired? xs ys = some (xs.zip ys) := if_pos h

variable {α : Type}

theorem Network.length_newVariables (n : Network α) (count : ℕ) :
    (n.newVariables count).1.length = count := by
  rw [newVariables, List.length_map, List.length_range]

namespace LayeredNetwork

variable [Scalar α]

def preActivations? (l : Layer α) (xs : List α) : Option (List α) := do
  let neurons ← paired? l.weights l.biases
  neurons.mapM fun p => do
    let products ← paired? p.1 xs
    return Scalar.total (products.map fun q => q.1 * q.2) + p.2

def forwardWith? (activate : α → α) : List (Layer α) → List α → Option (List α)
  | [], xs => some xs
  | [l], xs => preActivations? l xs
  | l :: rest, xs => do forwardWith? activate rest ((← preActivations? l xs).map activate)

def neuronEquation? (previous : List ℕ) (neuron : ℕ) (row : List α) (bias : α) :
    Option (Equation α) := do
  let terms ← paired? row previous
  return ⟨neuron, (1, neuron) :: (terms.filter fun p => !Scalar.isZero p.1).map
    fun p => (-p.1, p.2), bias⟩

def addNeurons? (previous : List ℕ) (l : Layer α) (n : Network α) :
    Option (List ℕ × Network α) := do
  let (neurons, n) := n.newVariables l.width
  let rows ← paired? neurons l.weights
  let owned ← paired? rows l.biases
  let equations ← owned.mapM fun p => neuronEquation? previous p.1.1 p.1.2 p.2
  return (neurons, { n with equations := n.equations ++ equations })

def addActivations? (neurons : List ℕ) (n : Network α) : Option (List ℕ × Network α) := do
  let (activated, n) := n.newVariables neurons.length
  let pairs ← paired? neurons activated
  return (activated, { n with relus := n.relus ++ pairs.map fun p => ⟨p.1, p.2⟩ })

def encodeLayers? : List (Layer α) → List ℕ → Network α → Option (List ℕ × Network α)
  | [], previous, n => some (previous, n)
  | [l], previous, n => addNeurons? previous l n
  | l :: rest, previous, n => do
      let (neurons, n) ← addNeurons? previous l n
      let (activated, n) ← addActivations? neurons n
      encodeLayers? rest activated n

def toNetwork? (net : LayeredNetwork α) : Option (Network α) := do
  let (inputs, n) := Network.empty.newVariables net.inputSize
  let (outputs, n) ← encodeLayers? net.layers inputs n
  return (n.withInputs inputs).withOutputs outputs

theorem length_preActivations {l : Layer α} (hl : l.weights.length = l.biases.length)
    (xs : List α) : (preActivations l xs).length = l.width := by
  rw [preActivations, List.length_zipWith, ← hl, Nat.min_self, Layer.width]

theorem preActivations?_eq {l : Layer α} {xs : List α} (hl : l.weights.length = l.biases.length)
    (hrows : ∀ row ∈ l.weights, row.length = xs.length) :
    preActivations? l xs = some (preActivations l xs) := by
  have hneuron : ∀ p ∈ l.weights.zip l.biases, (do
      let products ← paired? p.1 xs
      return Scalar.total (products.map fun q => q.1 * q.2) + p.2 : Option α) =
        some (Scalar.dot p.1 xs + p.2) := by
    intro p hp
    rw [paired?_of_length (hrows p.1 (List.of_mem_zip hp).1), Scalar.dot,
      ← List.map_uncurry_zip_eq_zipWith]
    rfl
  rw [preActivations?, paired?_of_length hl, preActivations, ← List.map_uncurry_zip_eq_zipWith]
  exact mapM_eq_some hneuron

theorem forwardWith?_eq {activate : α → α} {fanIn : ℕ} {layers : List (Layer α)} {xs : List α}
    (h : Fits fanIn layers) (hxs : xs.length = fanIn) :
    forwardWith? activate layers xs = some (forwardWith activate layers xs) := by
  induction layers generalizing fanIn xs with
  | nil => rfl
  | cons l rest ih =>
    have hl : preActivations? l xs = some (preActivations l xs) :=
      preActivations?_eq h.1 fun row hrow => (h.2.1 row hrow).trans hxs.symm
    cases rest with
    | nil => exact hl
    | cons l' rest =>
      rw [forwardWith?, forwardWith, hl]
      · exact ih h.2.2 (by rw [List.length_map, length_preActivations h.1])
      · exact List.cons_ne_nil _ _
      · exact List.cons_ne_nil _ _

theorem length_forwardWith {activate : α → α} {fanIn : ℕ} {layers : List (Layer α)} {xs : List α}
    (h : Fits fanIn layers) : (forwardWith activate layers xs).length =
      (layers.map Layer.width).getLastD xs.length := by
  induction layers generalizing fanIn xs with
  | nil => rfl
  | cons l rest ih =>
    have hl := length_preActivations h.1 xs
    cases rest with
    | nil => simpa [forwardWith] using hl
    | cons l' rest =>
      rw [forwardWith, ih h.2.2]
      · simp only [List.length_map, hl, List.map_cons, List.getLastD_cons]
      · exact List.cons_ne_nil _ _

theorem neuronEquation?_eq {previous : List ℕ} {row : List α} (h : row.length = previous.length)
    (neuron : ℕ) (bias : α) : neuronEquation? previous neuron row bias =
      some (neuronEquation previous neuron row bias) := by
  rw [neuronEquation?, paired?_of_length h]
  rfl

theorem addNeurons?_eq {previous : List ℕ} {l : Layer α} (n : Network α)
    (hl : l.weights.length = l.biases.length)
    (hrows : ∀ row ∈ l.weights, row.length = previous.length) :
    addNeurons? previous l n = some (addNeurons previous l n) := by
  have hneurons : (n.newVariables l.width).1.length = l.weights.length :=
    Network.length_newVariables n _
  have hrow : ∀ p ∈ ((n.newVariables l.width).1.zip l.weights).zip l.biases,
      neuronEquation? previous p.1.1 p.1.2 p.2 =
        some (neuronEquation previous p.1.1 p.1.2 p.2) := fun p hp =>
    neuronEquation?_eq (hrows _ (List.of_mem_zip (List.of_mem_zip hp).1).2) _ _
  rw [addNeurons?]
  dsimp only
  rw [paired?_of_length hneurons, Option.bind_eq_bind, Option.bind_some, paired?_of_length
    (by rw [List.length_zip, hneurons, Nat.min_self, hl]), Option.bind_eq_bind, Option.bind_some,
    mapM_eq_some hrow]
  rfl

omit [Scalar α] in
theorem addActivations?_eq (neurons : List ℕ) (n : Network α) :
    addActivations? neurons n = some (addActivations neurons n) := by
  have hlen : neurons.length = (n.newVariables neurons.length).1.length :=
    (Network.length_newVariables n _).symm
  have hpairs : (neurons.zip (n.newVariables neurons.length).1).map (fun p => ReluPair.mk p.1 p.2) =
      List.zipWith ReluPair.mk neurons (n.newVariables neurons.length).1 :=
    List.map_uncurry_zip_eq_zipWith
  rw [addActivations?]
  dsimp only
  rw [paired?_of_length hlen, Option.bind_eq_bind, Option.bind_some, hpairs]
  rfl

theorem encodeLayers?_eq {fanIn : ℕ} {layers : List (Layer α)} {previous : List ℕ}
    (h : Fits fanIn layers) (hprevious : previous.length = fanIn) (n : Network α) :
    encodeLayers? layers previous n = some (encodeLayers layers previous n) := by
  induction layers generalizing fanIn previous n with
  | nil => rfl
  | cons l rest ih =>
    have hl : addNeurons? previous l n = some (addNeurons previous l n) :=
      addNeurons?_eq n h.1 fun row hrow => (h.2.1 row hrow).trans hprevious.symm
    cases rest with
    | nil => exact hl
    | cons l' rest =>
      have hactivated : (addActivations (addNeurons previous l n).1
          (addNeurons previous l n).2).1.length = l.width := by
        rw [addActivations, Network.length_newVariables, addNeurons, Network.length_newVariables]
      rw [encodeLayers?, hl, encodeLayers]
      · dsimp only [Option.bind_eq_bind, Option.bind_some]
        rw [addActivations?_eq]
        exact ih h.2.2 hactivated _
      · exact List.cons_ne_nil _ _
      · exact List.cons_ne_nil _ _

def neuronBlocks : ℕ → List ℕ → List (List ℕ)
  | _, [] => []
  | start, width :: widths =>
      (List.range width).map (start + ·) :: neuronBlocks (start + 2 * width) widths

def hiddenPairs (blocks : List (List ℕ)) : ReluList :=
  blocks.dropLast.flatMap fun block => block.map fun v => ⟨v, v + block.length⟩

theorem map_length_neuronBlocks (start : ℕ) (widths : List ℕ) :
    (neuronBlocks start widths).map List.length = widths := by
  induction widths generalizing start with
  | nil => rfl
  | cons width widths ih => simp [neuronBlocks, ih]

theorem length_getLastD (blocks : List (List ℕ)) (previous : List ℕ) :
    (blocks.getLastD previous).length = (blocks.map List.length).getLastD previous.length := by
  rw [List.getLastD_eq_getLast?, List.getLastD_eq_getLast?, List.getLast?_map, Option.getD_map]

theorem le_of_mem_neuronBlocks {start v : ℕ} {widths : List ℕ}
    (h : v ∈ (neuronBlocks start widths).flatten) : start ≤ v := by
  induction widths generalizing start with
  | nil => cases h
  | cons width widths ih =>
    rcases List.mem_append.mp h with h | h
    · exact (fresh_lt h).1
    · exact (Nat.le_add_right _ _).trans (ih h)

theorem nodup_neuronBlocks (start : ℕ) (widths : List ℕ) :
    (neuronBlocks start widths).flatten.Nodup := by
  induction widths generalizing start with
  | nil => exact List.nodup_nil
  | cons width widths ih =>
    refine List.nodup_append.mpr ⟨nodup_fresh start width, ih _, fun v hv w hw => ?_⟩
    have hlt := (fresh_lt hv).2
    have hle := le_of_mem_neuronBlocks hw
    omega

theorem length_hiddenPairs (blocks : List (List ℕ)) :
    (hiddenPairs blocks).length = ((blocks.map List.length).dropLast).sum := by
  rw [hiddenPairs, List.length_flatMap, ← List.map_dropLast]
  simp

theorem owners_addNeurons (previous : List ℕ) {l : Layer α} (n : Network α)
    (hl : l.weights.length = l.biases.length) :
    (addNeurons previous l n).2.equations.map Equation.aux =
      n.equations.map Equation.aux ++ (List.range l.width).map (n.numVars + ·) := by
  have hneurons : (n.newVariables l.width).1.length = l.weights.length :=
    Network.length_newVariables n _
  have howners : ((((n.newVariables l.width).1.zip l.weights).zip l.biases).map Prod.fst).map
      Prod.fst = (n.newVariables l.width).1 := by
    rw [List.map_fst_zip (by rw [List.length_zip, hneurons, Nat.min_self, hl]),
      List.map_fst_zip hneurons.le]
  rw [List.map_map] at howners
  rw [addNeurons]
  dsimp only
  rw [List.map_append, List.map_map]
  exact congrArg (_ ++ ·) howners

omit [Scalar α] in
theorem relus_addActivations (start count : ℕ) (n : Network α) (hn : n.numVars = start + count) :
    (addActivations ((List.range count).map (start + ·)) n).2.relus =
      n.relus ++ ((List.range count).map (start + ·)).map fun v => ⟨v, v + count⟩ := by
  simp only [addActivations, Network.newVariables, List.length_map, List.length_range, hn,
    List.zipWith_map, List.zipWith_self, List.map_map]
  refine congrArg (n.relus ++ ·) (List.map_congr_left fun i _ => ?_)
  simp [Nat.add_right_comm]

structure Wired (blocks : List (List ℕ)) (previous : List ℕ) (n : Network α)
    (r : List ℕ × Network α) : Prop where
  owners : r.2.equations.map Equation.aux = n.equations.map Equation.aux ++ blocks.flatten
  relus : r.2.relus = n.relus ++ hiddenPairs blocks
  outputs : r.1 = blocks.getLastD previous

theorem hiddenPairs_cons (block : List ℕ) {blocks : List (List ℕ)} (h : blocks ≠ []) :
    hiddenPairs (block :: blocks) =
      (block.map fun v => ⟨v, v + block.length⟩) ++ hiddenPairs blocks := by
  rw [hiddenPairs, List.dropLast_cons_of_ne_nil h, List.flatMap_cons, hiddenPairs]

theorem wired_encodeLayers {fanIn : ℕ} {layers : List (Layer α)} (h : Fits fanIn layers)
    (previous : List ℕ) (n : Network α) :
    Wired (neuronBlocks n.numVars (layers.map Layer.width)) previous n
      (encodeLayers layers previous n) := by
  induction layers generalizing fanIn previous n with
  | nil => exact ⟨(List.append_nil _).symm, (List.append_nil _).symm, rfl⟩
  | cons l rest ih =>
    have howners := owners_addNeurons previous n h.1
    cases rest with
    | nil =>
      refine ⟨?_, (List.append_nil _).symm, rfl⟩
      rw [encodeLayers, howners, List.map_singleton, neuronBlocks, neuronBlocks,
        List.flatten_cons, List.flatten_nil, List.append_nil]
    | cons l' rest =>
      let r := addNeurons previous l n
      let r' := addActivations r.1 r.2
      let blocks := neuronBlocks (n.numVars + 2 * l.width) ((l' :: rest).map Layer.width)
      have hblocks : blocks ≠ [] := List.cons_ne_nil _ _
      have hwidth : r.1.length = l.width := Network.length_newVariables n l.width
      have hrelus : r'.2.relus = n.relus ++ r.1.map fun v => ⟨v, v + l.width⟩ :=
        relus_addActivations n.numVars l.width r.2 rfl
      have hnext : r'.2.numVars = n.numVars + 2 * l.width := by
        change n.numVars + l.width + r.1.length = _
        omega
      have hrest : Wired blocks r'.1 r'.2 (encodeLayers (l' :: rest) r'.1 r'.2) := by
        have hrest := ih h.2.2 r'.1 r'.2
        rwa [hnext] at hrest
      have hencode : encodeLayers (l :: l' :: rest) previous n =
          encodeLayers (l' :: rest) r'.1 r'.2 := by
        rw [encodeLayers]
        exact List.cons_ne_nil _ _
      change Wired (r.1 :: blocks) previous n _
      rw [hencode]
      refine ⟨?_, ?_, hrest.outputs⟩
      · rw [hrest.owners, List.flatten_cons, ← List.append_assoc]
        exact congrArg (· ++ blocks.flatten) howners
      · rw [hrest.relus, hiddenPairs_cons r.1 hblocks, hrelus, hwidth,
          List.append_assoc]

def neurons (net : LayeredNetwork α) : List (List ℕ) :=
  neuronBlocks net.inputSize (net.layers.map Layer.width)

theorem inputs_toNetwork (net : LayeredNetwork α) :
    net.toNetwork.inputs = List.range net.inputSize := by
  change ((Network.empty : Network α).newVariables net.inputSize).1 = _
  simp [Network.newVariables, Network.empty]

theorem wired_toNetwork {net : LayeredNetwork α} (h : net.WellFormed) :
    Wired net.neurons net.toNetwork.inputs Network.empty
      (net.toNetwork.outputs, net.toNetwork) := by
  have hwired := wired_encodeLayers h.fits
    ((Network.empty : Network α).newVariables net.inputSize).1
    ((Network.empty : Network α).newVariables net.inputSize).2
  have hnum : ((Network.empty : Network α).newVariables net.inputSize).2.numVars =
      net.inputSize := Nat.zero_add _
  rw [hnum] at hwired
  exact ⟨hwired.owners, hwired.relus, hwired.outputs⟩

theorem toNetwork?_eq {net : LayeredNetwork α} (h : net.WellFormed) :
    net.toNetwork? = some net.toNetwork := by
  rw [toNetwork?]
  dsimp only
  rw [encodeLayers?_eq h.fits (Network.length_newVariables _ _)]
  rfl

structure Blueprint (net : LayeredNetwork α) (n : Network α) : Prop where
  inputs : n.inputs.length = net.inputSize
  outputs : n.outputs.length = net.outputSize
  owners : n.equations.map Equation.aux = net.neurons.flatten
  distinct : net.neurons.flatten.Nodup
  equations : n.equations.length = (net.layers.map Layer.width).sum
  pairs : n.relus = hiddenPairs net.neurons
  relus : n.relus.length = (net.layers.map Layer.width).dropLast.sum

theorem blueprint_toNetwork {net : LayeredNetwork α} (h : net.WellFormed) :
    net.Blueprint net.toNetwork := by
  have hwired := wired_toNetwork h
  have howners : net.toNetwork.equations.map Equation.aux = net.neurons.flatten := hwired.owners
  have hpairs : net.toNetwork.relus = hiddenPairs net.neurons := hwired.relus
  have hwidths : net.neurons.map List.length = net.layers.map Layer.width :=
    map_length_neuronBlocks _ _
  refine ⟨?_, ?_, howners, nodup_neuronBlocks _ _, ?_, hpairs, ?_⟩
  · rw [inputs_toNetwork, List.length_range]
  · have hout : net.toNetwork.outputs = net.neurons.getLastD net.toNetwork.inputs := hwired.outputs
    rw [hout, length_getLastD, inputs_toNetwork, List.length_range, hwidths, outputSize, sizes,
      List.getLastD_cons]
  · rw [← List.length_map (f := Equation.aux), howners, List.length_flatten, hwidths]
  · rw [hpairs, length_hiddenPairs, hwidths]

structure Dimensioned (weights : List (List (List α))) (biases : List (List α))
    (net : LayeredNetwork α) : Prop where
  weights_eq : net.layers.map Layer.weights = weights
  biases_eq : net.layers.map Layer.biases = biases
  count : net.sizes.length = weights.length + 1
  rows : ∀ (l : ℕ) rows, weights[l]? = some rows → net.sizes[l + 1]? = some rows.length
  columns : ∀ (l : ℕ) rows, weights[l]? = some rows →
    ∀ row ∈ rows, net.sizes[l]? = some row.length

omit [Scalar α] in
theorem dimensioned_of_build {weights : List (List (List α))} {biases : List (List α)}
    {net : LayeredNetwork α} (h : build weights biases = .ok net) :
    Dimensioned weights biases net := by
  obtain ⟨hconforms, rfl⟩ := build_eq_ok_iff.mp h
  have hlen := hconforms.counts
  refine ⟨?_, ?_, ?_, fun l rows hrows => ?_, fun l rows hrows row hrow => ?_⟩
  · rw [← List.map_uncurry_zip_eq_zipWith, List.map_map]
    exact List.map_fst_zip hlen.le
  · rw [← List.map_uncurry_zip_eq_zipWith, List.map_map]
    exact List.map_snd_zip hlen.ge
  · simp [sizes, hlen]
  · have hl := (List.getElem?_eq_some_iff.mp hrows).1
    rw [hconforms.getElem?_sizes hl, fanInAt, hrows]
    rfl
  · have hl := (List.getElem?_eq_some_iff.mp hrows).1
    obtain ⟨bs, hbs, _⟩ := exists_layer hlen hrows
    rw [hconforms.getElem?_sizes hl.le, (hconforms.layers l rows bs hrows hbs).2 row hrow]

theorem forward_eq_ok {net : LayeredNetwork α} {xs ys : List α} : net.forward xs = .ok ys ↔
    xs.length = net.inputSize ∧ forwardWith (Scalar.larger · 0) net.layers xs = ys := by
  unfold forward
  split
  case isTrue hlen => simp [hlen]
  case isFalse hlen => simp [not_not.mp hlen]

theorem exists_forward_eq_ok {net : LayeredNetwork α} {xs : List α} :
    (∃ ys, net.forward xs = .ok ys) ↔ xs.length = net.inputSize := by
  simp only [forward_eq_ok, exists_and_left, exists_eq', and_true]

structure Evaluates (net : LayeredNetwork α) (xs : List α) : Prop where
  accepts : (∃ ys, net.forward xs = .ok ys) ↔ xs.length = net.inputSize
  refuses : xs.length ≠ net.inputSize → net.forward xs = .error ⟨net.inputSize, xs.length⟩
  length : ∀ ys, net.forward xs = .ok ys → ys.length = net.outputSize
  exact : ∀ ys, net.forward xs = .ok ys → forwardWith? (Scalar.larger · 0) net.layers xs = some ys

theorem evaluates {net : LayeredNetwork α} (h : net.WellFormed) (xs : List α) :
    net.Evaluates xs := by
  refine ⟨exists_forward_eq_ok, fun hlen => if_pos hlen, fun ys hys => ?_, fun ys hys => ?_⟩
  · obtain ⟨hlen, rfl⟩ := forward_eq_ok.mp hys
    rw [length_forwardWith h.fits, hlen, outputSize, sizes, List.getLastD_cons]
  · obtain ⟨hlen, rfl⟩ := forward_eq_ok.mp hys
    exact forwardWith?_eq h.fits hlen

theorem build_conforms (weights : List (List (List α))) (biases : List (List α)) :
    ((∃ net, build weights biases = .ok net) ↔ Conforms weights biases) ∧
      (∀ r, build weights biases = r ↔ Judged weights biases r) ∧
      ∀ net, build weights biases = .ok net → Dimensioned weights biases net ∧
        (∀ xs, net.Evaluates xs) ∧ net.toNetwork? = some net.toNetwork ∧
        net.Blueprint net.toNetwork := by
  refine ⟨?_, fun r => build_eq_iff r, fun net hnet => ?_⟩
  · simp only [build_eq_ok_iff, exists_and_left, exists_eq, and_true]
  · have hnet' := wellFormed_of_build hnet
    exact ⟨dimensioned_of_build hnet, evaluates hnet', toNetwork?_eq hnet',
      blueprint_toNetwork hnet'⟩

end LayeredNetwork

end ReluVerify
