import ReluVerify.Proofs.Parsing
import ReluVerify.Proofs.Wiring

namespace ReluVerify.LayeredText

variable {α : Type}

theorem LayerRows.map_width {size : ℕ} {sizes : List ℕ} {rows : List (List α)}
    {layers : List (Layer α)} (h : LayerRows (size :: sizes) rows layers) :
    layers.map Layer.width = sizes := by
  induction layers generalizing size sizes rows with
  | nil =>
    obtain ⟨⟩ := h
    rfl
  | cons l ls ih =>
    obtain _ | ⟨hweightRows, hweights, _, _, hrest⟩ := h
    have hwidth : l.width = _ := hweights.length_eq.symm.trans hweightRows
    rw [List.map_cons, ih hrest, hwidth]

theorem LayerRows.fanIn {fanIn fanOut : ℕ} {sizes : List ℕ} {rows : List (List α)}
    {layers : List (Layer α)} (h : LayerRows (fanIn :: fanOut :: sizes) rows layers) :
    LayeredNetwork.fanIn (layers.map Layer.weights) = if fanOut = 0 then 0 else fanIn := by
  obtain _ | @⟨_, _, _, _, _, _, l, ls, hweightRows, hweights, _, _, _⟩ := h
  have hwidth : l.weights.length = fanOut := hweights.length_eq.symm.trans hweightRows
  rw [LayeredNetwork.fanIn, List.map_cons, List.head?_cons, Option.bind_some]
  cases hrows : l.weights with
  | nil =>
    rw [← hwidth, hrows]
    rfl
  | cons row rows =>
    have hrow : row.length = fanIn := forall₂_begins hweights row (hrows ▸ List.mem_cons_self)
    rw [← hwidth, hrows, List.length_cons, if_neg (Nat.succ_ne_zero _), ← hrow]
    rfl

structure Declaration where
  numLayers : ℕ
  inputs : ℕ
  outputs : ℕ
  sizes : List ℕ

-- The input size is read off the first row of weights, so without rows it is zero.
def Declaration.inputSize (d : Declaration) : ℕ := if d.sizes[1]? = some 0 then 0 else d.inputs

section

variable (format : NumberFormat α)

def Declares (text : List Char) (d : Declaration) : Prop :=
  ∃ headerLine sizeLine rest headerRow sizeRow, lines text = headerLine :: sizeLine :: rest ∧
    Reads format.read? headerLine headerRow ∧ Reads format.read? sizeLine sizeRow ∧
    HeaderRow (Sized format) d.numLayers d.inputs d.outputs headerRow ∧
    SizeRow (Sized format) d.numLayers d.inputs d.outputs sizeRow d.sizes

theorem reads_unique {read : String → Option α} {line : List Char} {xs ys : List α}
    (hx : Reads read line xs) (hy : Reads read line ys) : xs = ys := by
  have hunique : Relator.RightUnique fun (token : List Char) x =>
      read (String.ofList token) = some x :=
    fun _ _ _ h h' => Option.some.inj (h.symm.trans h')
  exact hunique.forall₂ hx hy

theorem Declares.unique {text : List Char} {d d' : Declaration} (h : Declares format text d)
    (h' : Declares format text d') : d' = d := by
  obtain ⟨headerLine, sizeLine, rest, headerRow, sizeRow, hlines, hheader, hsizes, hd, hs⟩ := h
  obtain ⟨_, _, _, _, _, hlines', hheader', hsizes', hd', hs'⟩ := h'
  rw [hlines] at hlines'
  obtain ⟨rfl, rfl, rfl⟩ := by simpa only [List.cons.injEq] using hlines'
  obtain rfl := reads_unique hheader hheader'
  obtain rfl := reads_unique hsizes hsizes'
  obtain ⟨n, i, o, ss⟩ := d
  obtain ⟨n', i', o', ss'⟩ := d'
  have hfirst := (rightUnique_sized format).forall₂ hd.first hd'.first
  simp only [List.cons.injEq, and_true] at hfirst
  obtain ⟨rfl, rfl, rfl⟩ := hfirst
  obtain rfl := (rightUnique_sized format).forall₂ hs.first hs'.first
  rfl

structure Declaration.Shapes (d : Declaration) (net : LayeredNetwork α) : Prop where
  numLayers : net.numLayers = d.numLayers
  sizes : net.sizes = d.inputSize :: d.sizes.tail
  outputSize : net.outputSize = d.outputs
  normalization : ∃ norm, net.normalization = some norm ∧ norm.mins.length = d.inputs ∧
    norm.maxes.length = d.inputs ∧ norm.means.length = d.inputs + 1 ∧
    norm.ranges.length = d.inputs + 1

theorem SizeRow.exists_sizes {whole : α → ℕ → Prop} {numLayers inputs outputs : ℕ} {row : List α}
    {sizes : List ℕ} (h : SizeRow whole numLayers inputs outputs row sizes) (hpos : 1 ≤ numLayers) :
    ∃ first rest, sizes = inputs :: first :: rest ∧ (first :: rest).getLastD 0 = outputs := by
  have hlast : sizes.getLast? = some outputs := by
    rw [List.getLast?_eq_getElem?, h.length_sizes]
    exact h.outputs
  have hlen := h.length_sizes
  rw [h.sizes_eq] at hlen hlast ⊢
  obtain ⟨first, rest, htail⟩ : ∃ first rest, sizes.tail = first :: rest :=
    List.exists_cons_of_length_pos (hpos.trans_eq (Nat.succ.inj hlen).symm)
  rw [htail, List.getLast?_cons_cons] at hlast
  refine ⟨first, rest, congrArg _ htail, ?_⟩
  rw [List.getLastD_eq_getLast?, hlast]
  rfl

theorem exists_declaration {text : String} {net : LayeredNetwork α}
    (h : parse format text = .ok net) :
    ∃ d, Declares format text.toList d ∧ d.Shapes net := by
  obtain ⟨consumed, rest, rows, hsplit, hrows, -, hdescribes⟩ := (accepts_network format).run'.mp h
  obtain @⟨header, sizeRow, _, _, _, _, _, _, numLayers, inputs, outputs, sizes, norm, layers,
    hheader, hsizes, hmins, hmaxes, hmeans, hranges, hlayers⟩ := hdescribes
  obtain ⟨headerLine, _, hheaderLine, htail, rfl⟩ := List.forall₂_cons_right_iff.mp hrows
  obtain ⟨sizeLine, consumed, hsizeLine, -, rfl⟩ := List.forall₂_cons_right_iff.mp htail
  obtain ⟨first, widths, rfl, hlast⟩ := hsizes.exists_sizes hheader.numLayers_pos
  refine ⟨⟨numLayers, inputs, outputs, _⟩, ⟨headerLine, sizeLine, consumed ++ rest, header, sizeRow,
    hsplit, hheaderLine, hsizeLine, hheader, hsizes⟩, hsizes.numLayers_eq hlayers, ?_, ?_,
    norm, rfl, hmins.length_eq, hmaxes.length_eq, hmeans.length_eq, hranges.length_eq⟩
  · simp [LayeredNetwork.sizes, Declaration.inputSize, hlayers.fanIn, hlayers.map_width]
  · rw [LayeredNetwork.outputSize, LayeredNetwork.sizes, hlayers.map_width, List.getLastD_cons]
    exact hlast

theorem Declares.sizes_eq {text : List Char} {d : Declaration} (h : Declares format text d) :
    d.sizes = d.inputs :: d.sizes.tail := by
  obtain ⟨_, _, _, _, _, _, _, _, _, hsizes⟩ := h
  exact hsizes.sizes_eq

theorem Declaration.inputSize_eq_iff (d : Declaration) :
    d.inputSize = d.inputs ↔ (d.sizes[1]? = some 0 → d.inputs = 0) := by
  unfold inputSize
  split
  case isTrue h => simp [h, eq_comm]
  case isFalse h => simp [h]

theorem parse_shape [Scalar α] {text : String} {net : LayeredNetwork α}
    (h : parse format text = .ok net) : ∃ d, Declares format text.toList d ∧
      (∀ d', Declares format text.toList d' → d' = d) ∧ d.Shapes net ∧
      (net.sizes = d.sizes ↔ (d.sizes[1]? = some 0 → d.inputs = 0)) ∧
      ∀ xs, (∃ ys, net.forward xs = .ok ys) ↔ xs.length = d.inputSize := by
  obtain ⟨d, hd, hshapes⟩ := exists_declaration format h
  have hsizes := hshapes.sizes
  refine ⟨d, hd, fun d' hd' => hd.unique format hd', hshapes, ?_, fun xs => ?_⟩
  · rw [← d.inputSize_eq_iff, hsizes, hd.sizes_eq, List.cons.injEq, List.tail_cons]
    exact and_iff_left rfl
  · have hinput : net.inputSize = d.inputSize := (List.cons.inj hsizes).1
    rw [LayeredNetwork.exists_forward_eq_ok, hinput]

end

theorem parse_shape_gate : parse Binary64.format gateText = .ok gate ∧
    ∃ d, Declares Binary64.format gateText.toList d ∧ d.Shapes gate ∧
      ∀ xs, (∃ ys, gate.forward xs = .ok ys) ↔ xs.length = d.inputSize := by
  have hparse : parse Binary64.format gateText = .ok gate := by decide +kernel
  obtain ⟨d, hd, -, hshapes, -, hforward⟩ := parse_shape Binary64.format hparse
  exact ⟨hparse, d, hd, hshapes, hforward⟩

-- one input, no hidden neuron, one output: no row of weights has a place for the input
def severedText : String := "2, 1, 1, 1
1, 0, 1
0
-1
1
0, 0
1, 1
,
3
"

def severed : LayeredNetwork Float :=
  ⟨0, [⟨[], []⟩, ⟨[[]], [3]⟩], some ⟨[-1], [1], [0, 0], [1, 1]⟩⟩

instance [DecidableEq α] (read : String → Option α) (line : List Char) (xs : List α) :
    Decidable (Reads read line xs) := inferInstanceAs (Decidable (List.Forall₂ _ _ _))

instance (format : NumberFormat α) (x : α) (n : ℕ) : Decidable (Sized format x n) :=
  inferInstanceAs (Decidable (format.size? x = some n))

theorem declares_severedText :
    Declares Binary64.format severedText.toList ⟨2, 1, 1, [1, 0, 1]⟩ := by
  have hheader : List.Forall₂ (Sized Binary64.format) [2, 1, 1, 1] [2, 1, 1, 1] := by
    decide +kernel
  have hsizes : List.Forall₂ (Sized Binary64.format) [1, 0, 1] [1, 0, 1] := by decide +kernel
  refine ⟨"2, 1, 1, 1".toList, "1, 0, 1".toList, ["0", "-1", "1", "0, 0", "1, 1", ",", "3"].map
    String.toList, [2, 1, 1, 1], [1, 0, 1], by decide +kernel, by decide +kernel,
    by decide +kernel, ⟨by decide, forall₂_exists.mp ⟨_, hheader⟩, List.forall₂_take 3 hheader,
      by decide⟩, ⟨by decide, forall₂_exists.mp ⟨_, hsizes⟩, hsizes, rfl, rfl⟩⟩

theorem exists_severed_input : ∃ net, parse Binary64.format severedText = .ok net ∧
    Declares Binary64.format severedText.toList ⟨2, 1, 1, [1, 0, 1]⟩ ∧
    net.sizes = [0, 0, 1] ∧ net.inputSize = 0 ∧ net.forward [5] = .error ⟨0, 1⟩ :=
  ⟨severed, by decide +kernel, declares_severedText, rfl, rfl, rfl⟩

end ReluVerify.LayeredText
