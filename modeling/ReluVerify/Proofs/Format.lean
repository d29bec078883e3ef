import ReluVerify.Proofs.Layered
import ReluVerify.Proofs.Reading

namespace ReluVerify.LayeredText

open LayeredNetwork (Fits)

variable {α β : Type} {read : String → Option α}

inductive LayerRows : List ℕ → List (List α) → List (Layer α) → Prop
  | last (size : ℕ) : LayerRows [size] [] []
  | layer {fanIn fanOut : ℕ} {sizes : List ℕ} {weightRows biasRows rest : List (List α)}
      {l : Layer α} {ls : List (Layer α)} (hweightRows : weightRows.length = fanOut)
      (hweights : List.Forall₂ (Begins fanIn) weightRows l.weights)
      (hbiasRows : biasRows.length = fanOut)
      (hbiases : List.Forall₂ (fun row b => row.head? = some b) biasRows l.biases)
      (hrest : LayerRows (fanOut :: sizes) rest ls) :
      LayerRows (fanIn :: fanOut :: sizes) (weightRows ++ (biasRows ++ rest)) (l :: ls)

structure HeaderRow (whole : α → ℕ → Prop) (numLayers inputs outputs : ℕ) (row : List α) :
    Prop where
  length_ge : 4 ≤ row.length
  all_whole : ∀ x ∈ row, ∃ n, whole x n
  first : List.Forall₂ whole (row.take 3) [numLayers, inputs, outputs]
  numLayers_pos : 1 ≤ numLayers

structure SizeRow (whole : α → ℕ → Prop) (numLayers inputs outputs : ℕ) (row : List α)
    (sizes : List ℕ) : Prop where
  length_ge : numLayers + 1 ≤ row.length
  all_whole : ∀ x ∈ row, ∃ n, whole x n
  first : List.Forall₂ whole (row.take (numLayers + 1)) sizes
  inputs : sizes[0]? = some inputs
  outputs : sizes[numLayers]? = some outputs

inductive Describes (whole : α → ℕ → Prop) : List (List α) → LayeredNetwork α → Prop
  | rows {header sizeRow flag minimums maximums means ranges : List α} {body : List (List α)}
      {numLayers inputs outputs : ℕ} {sizes : List ℕ} {norm : Normalization α}
      {layers : List (Layer α)} (hheader : HeaderRow whole numLayers inputs outputs header)
      (hsizes : SizeRow whole numLayers inputs outputs sizeRow sizes)
      (hmins : Begins inputs minimums norm.mins) (hmaxes : Begins inputs maximums norm.maxes)
      (hmeans : Begins (inputs + 1) means norm.means)
      (hranges : Begins (inputs + 1) ranges norm.ranges) (hlayers : LayerRows sizes body layers) :
      Describes whole
        (header :: sizeRow :: flag :: minimums :: maximums :: means :: ranges :: body)
        ⟨LayeredNetwork.fanIn (layers.map Layer.weights), layers, some norm⟩

theorem LayerRows.length_eq {sizes : List ℕ} {rows : List (List α)} {layers : List (Layer α)}
    (h : LayerRows sizes rows layers) : sizes.length = layers.length + 1 := by
  induction h with
  | last => rfl
  | layer _ _ _ _ _ ih => exact congrArg (· + 1) ih

section

variable {whole : α → ℕ → Prop} {numLayers inputs outputs : ℕ} {row : List α} {sizes : List ℕ}
  (h : SizeRow whole numLayers inputs outputs row sizes)

include h

theorem SizeRow.length_sizes : sizes.length = numLayers + 1 := by
  rw [← h.first.length_eq, List.length_take_of_le h.length_ge]

theorem SizeRow.sizes_eq : sizes = inputs :: sizes.tail := by
  have hinputs := h.inputs
  cases sizes with
  | nil => cases hinputs
  | cons size sizes => rw [Option.some.inj hinputs, List.tail_cons]

theorem SizeRow.numLayers_eq {body : List (List α)} {layers : List (Layer α)}
    (hbody : LayerRows sizes body layers) : layers.length = numLayers :=
  Nat.succ.inj (hbody.length_eq.symm.trans h.length_sizes)

end

theorem Begins.length_eq {count : ℕ} {row xs : List α} (h : Begins count row xs) :
    xs.length = count := by
  rw [h.2, List.length_take_of_le h.1]

theorem forall₂_begins {fanIn : ℕ} {rows weights : List (List α)}
    (h : List.Forall₂ (Begins fanIn) rows weights) : ∀ row ∈ weights, row.length = fanIn := by
  induction h with
  | nil => exact fun _ hrow => absurd hrow List.not_mem_nil
  | cons hrow _ ih =>
    exact List.forall_mem_cons.mpr ⟨hrow.length_eq, ih⟩

theorem LayerRows.fits {size : ℕ} {sizes : List ℕ} {rows : List (List α)}
    {layers : List (Layer α)} (h : LayerRows (size :: sizes) rows layers) : Fits size layers := by
  induction layers generalizing size sizes rows with
  | nil => trivial
  | cons l ls ih =>
    obtain _ | ⟨hweightRows, hweights, hbiasRows, hbiases, hrest⟩ := h
    have hwidth : l.width = _ := hweights.length_eq.symm.trans hweightRows
    exact ⟨hwidth.trans (hbiasRows.symm.trans hbiases.length_eq), forall₂_begins hweights,
      hwidth ▸ ih hrest⟩

theorem LayerRows.le_length {sizes : List ℕ} {rows : List (List α)} {layers : List (Layer α)}
    (h : LayerRows sizes rows layers) : ∀ n ∈ sizes.tail, n ≤ rows.length := by
  induction h with
  | last => exact fun _ hn => absurd hn List.not_mem_nil
  | layer hweightRows _ _ _ _ ih =>
    simp only [List.tail_cons, List.forall_mem_cons, List.length_append] at ih ⊢
    exact ⟨by omega, fun n hn => (ih n hn).trans (by omega)⟩

theorem forall₂_of_lt {w w' : α → ℕ → Prop} {bound : ℕ} (h : ∀ x, ∀ n < bound, w x n → w' x n)
    {xs : List α} {ns : List ℕ} (hns : ∀ n ∈ ns, n < bound) (hw : List.Forall₂ w xs ns) :
    List.Forall₂ w' xs ns := by
  induction hw with
  | nil => exact .nil
  | cons hx _ ih =>
    obtain ⟨hn, hns⟩ := List.forall_mem_cons.mp hns
    exact .cons (h _ _ hn hx) (ih hns)

-- Every size a text gives is also a number of its lines or of the values of one of them.
theorem Describes.imp {w w' : α → ℕ → Prop} {bound : ℕ} {rows : List (List α)}
    {net : LayeredNetwork α} (hdescribes : Describes w rows net) (hrows : rows.length ≤ bound)
    (hrow : ∀ row ∈ rows, row.length ≤ bound) (hexists : ∀ x, (∃ n, w x n) → ∃ n, w' x n)
    (h : ∀ x, ∀ n < bound, w x n → w' x n) :
    net.numLayers < bound ∧ Describes w' rows net := by
  obtain ⟨hheader, hsizes, hmins, hmaxes, hmeans, hranges, hlayers⟩ := hdescribes
  rename_i body numLayers inputs outputs sizes norm layers
  simp only [List.forall_mem_cons] at hrow
  obtain ⟨-, hsizeRow, -, -, -, hmeansRow, -⟩ := hrow
  have hnumLayers : numLayers < bound := hsizes.length_ge.trans hsizeRow
  have hinputs : inputs < bound := hmeans.1.trans hmeansRow
  have hbody : body.length < bound := by
    simp only [List.length_cons] at hrows
    omega
  have hlt : ∀ n ∈ sizes, n < bound := by
    rw [hsizes.sizes_eq, List.forall_mem_cons]
    exact ⟨hinputs, fun n hn => (hlayers.le_length n hn).trans_lt hbody⟩
  have houtputs : outputs < bound := hlt _ (List.mem_of_getElem? hsizes.outputs)
  refine ⟨(hsizes.numLayers_eq hlayers).trans_lt hnumLayers,
    .rows ⟨hheader.length_ge, fun x hx => hexists x (hheader.all_whole x hx), ?_,
      hheader.numLayers_pos⟩ ⟨hsizes.length_ge, fun x hx => hexists x (hsizes.all_whole x hx),
      forall₂_of_lt h hlt hsizes.first, hsizes.inputs, hsizes.outputs⟩ hmins hmaxes hmeans hranges
      hlayers⟩
  refine forall₂_of_lt h ?_ hheader.first
  simp only [List.forall_mem_cons]
  exact ⟨hnumLayers, hinputs, houtputs, fun _ hn => absurd hn List.not_mem_nil⟩

section

variable (format : NumberFormat α)

theorem accepts_layer (fanIn fanOut : ℕ) : Accepts format.read? (layer format fanIn fanOut)
    (fun rows l => ∃ weightRows biasRows, rows = weightRows ++ biasRows ∧
      (weightRows.length = fanOut ∧ List.Forall₂ (Begins fanIn) weightRows l.weights) ∧
      biasRows.length = fanOut ∧
      List.Forall₂ (fun row b => row.head? = some b) biasRows l.biases) := by
  refine (((accepts_times (accepts_firstValues format .weights fanIn) fanOut).bind fun weights _ _ =>
    ((accepts_times (accepts_bias format) fanOut).bind fun biases _ _ =>
      accepts_pure (⟨weights, biases⟩ : Layer α))).congr fun rows l => ?_)
  constructor
  · rintro ⟨weights, weightRows, _, rfl, hweights, biases, biasRows, _, rfl, hbiases, rfl, rfl⟩
    exact ⟨weightRows, biasRows, by rw [List.append_nil], hweights, hbiases⟩
  · rintro ⟨weightRows, biasRows, rfl, hweights, hbiases⟩
    exact ⟨_, _, _, rfl, hweights, _, _, [], (List.append_nil _).symm, hbiases, rfl, rfl⟩

theorem accepts_layers (size : ℕ) (sizes : List ℕ) :
    Accepts format.read? (layers format (size :: sizes)) (LayerRows (size :: sizes)) := by
  induction sizes generalizing size with
  | nil =>
    refine (accepts_pure []).congr fun rows ls => ?_
    constructor
    · rintro ⟨rfl, rfl⟩
      exact .last size
    · rintro ⟨⟩
      exact ⟨rfl, rfl⟩
  | cons fanOut sizes ih =>
    refine ((accepts_layer format size fanOut).bind fun l _ _ => (ih fanOut).bind fun ls _ _ =>
      accepts_pure (l :: ls)).congr fun rows ls => ?_
    constructor
    · rintro ⟨l, _, _, rfl, ⟨weightRows, biasRows, rfl, ⟨hw, hweights⟩, hb, hbiases⟩, ls', rest, _,
        rfl, hrest, rfl, rfl⟩
      rw [List.append_nil, List.append_assoc]
      exact .layer hw hweights hb hbiases hrest
    · rintro (_ | ⟨hw, hweights, hb, hbiases, hrest⟩)
      exact ⟨_, _, _, (List.append_assoc _ _ _).symm,
        ⟨_, _, rfl, ⟨hw, hweights⟩, hb, hbiases⟩, _, _, [], (List.append_nil _).symm, hrest, rfl, rfl⟩

theorem accepts_normalization (inputs : ℕ) :
    Accepts format.read? (normalization format inputs) (fun rows norm =>
      ∃ minimums maximums means ranges, rows = [minimums, maximums, means, ranges] ∧
        Begins inputs minimums norm.mins ∧ Begins inputs maximums norm.maxes ∧
        Begins (inputs + 1) means norm.means ∧ Begins (inputs + 1) ranges norm.ranges) := by
  refine ((accepts_firstValues format .minimums inputs).bind fun mins _ _ =>
    (accepts_firstValues format .maximums inputs).bind fun maxes _ _ =>
    (accepts_firstValues format .means (inputs + 1)).bind fun means _ _ =>
    (accepts_firstValues format .ranges (inputs + 1)).bind fun ranges _ _ =>
      accepts_pure (⟨mins, maxes, means, ranges⟩ : Normalization α)).congr fun rows norm => ?_
  constructor
  · rintro ⟨_, _, _, rfl, ⟨minimums, rfl, hmins⟩, _, _, _, rfl, ⟨maximums, rfl, hmaxes⟩,
      _, _, _, rfl, ⟨means, rfl, hmeans⟩, _, _, _, rfl, ⟨ranges, rfl, hranges⟩, rfl, rfl⟩
    exact ⟨_, _, _, _, rfl, hmins, hmaxes, hmeans, hranges⟩
  · rintro ⟨minimums, maximums, means, ranges, rfl, hmins, hmaxes, hmeans, hranges⟩
    exact ⟨_, [_], _, rfl, ⟨_, rfl, hmins⟩, _, [_], _, rfl, ⟨_, rfl, hmaxes⟩,
      _, [_], _, rfl, ⟨_, rfl, hmeans⟩, _, [_], [], rfl, ⟨_, rfl, hranges⟩, rfl, rfl⟩

def Sized (x : α) (n : ℕ) : Prop := format.size? x = some n

theorem forall₂_exists {R : α → β → Prop} {xs : List α} :
    (∃ ns, List.Forall₂ R xs ns) ↔ ∀ x ∈ xs, ∃ n, R x n := by
  induction xs with
  | nil => simp
  | cons x xs ih =>
    rw [List.forall_mem_cons, ← ih]
    constructor
    · rintro ⟨_, _ | ⟨hx, hxs⟩⟩
      exact ⟨⟨_, hx⟩, _, hxs⟩
    · rintro ⟨⟨n, hx⟩, ns, hxs⟩
      exact ⟨n :: ns, .cons hx hxs⟩

theorem rightUnique_sized : Relator.RightUnique (Sized format) :=
  fun _ _ _ h h' => Option.some.inj (h.symm.trans h')

theorem accepts_header : Accepts format.read? (header format) (fun rows r =>
    ∃ row, rows = [row] ∧ HeaderRow (Sized format) r.1 r.2.1 r.2.2 row) := by
  unfold header
  refine ((accepts_sizes format .header 4).bind (Q := fun ns rows r =>
    1 ≤ r.1 ∧ rows = [] ∧ ns.take 3 = [r.1, r.2.1, r.2.2]) ?first).congr fun rows r => ?_
  case first =>
    rintro (_ | ⟨numLayers, _ | ⟨inputs, _ | ⟨outputs, ns⟩⟩⟩) _ _
    · exact accepts_fail.congr fun _ _ => by simp
    · exact accepts_fail.congr fun _ _ => by simp
    · exact accepts_fail.congr fun _ _ => by simp
    · refine (accepts_fail.guarded fun _ => accepts_pure _).congr fun rows r => ?_
      obtain ⟨numLayers', inputs', outputs'⟩ := r
      simp only [Prod.mk.injEq, List.take_succ_cons, List.take_zero, List.cons.injEq, and_true]
      constructor
      · rintro ⟨hpos, rfl, rfl, rfl, rfl⟩
        exact ⟨Nat.one_le_iff_ne_zero.mpr hpos, rfl, rfl, rfl, rfl⟩
      · rintro ⟨hpos, rfl, rfl, rfl, rfl⟩
        exact ⟨Nat.one_le_iff_ne_zero.mp hpos, rfl, rfl, rfl, rfl⟩
  constructor
  · rintro ⟨ns, _, _, rfl, ⟨row, rfl, hlen, hns⟩, hpos, rfl, hfirst⟩
    exact ⟨row, rfl, hlen, forall₂_exists.mp ⟨ns, hns⟩, hfirst ▸ List.forall₂_take 3 hns, hpos⟩
  · rintro ⟨row, rfl, hlen, hwhole, hfirst, hpos⟩
    obtain ⟨ns, hns⟩ := forall₂_exists.mpr hwhole
    refine ⟨ns, [row], [], rfl, ⟨row, rfl, hlen, hns⟩, hpos, rfl, ?_⟩
    exact (rightUnique_sized format).forall₂ (List.forall₂_take 3 hns) hfirst

theorem accepts_layerSizes (numLayers inputs outputs : ℕ) :
    Accepts format.read? (layerSizes format numLayers inputs outputs) (fun rows ns =>
      numLayers < maxSize ∧
        ∃ row, rows = [row] ∧ SizeRow (Sized format) numLayers inputs outputs row ns) := by
  have hthrow : ∀ next : PUnit → Reading (List ℕ), Accepts format.read?
      (throw .sizeCount >>= next) (fun _ _ => False) := by
    intro next c b c'
    refine iff_of_false ?_ fun ⟨_, h, _⟩ => h
    intro h
    cases h
  refine ((hthrow _).guarded fun _ => (accepts_sizes format .layerSizes (numLayers + 1)).bind
    fun ns _ _ => accepts_fail.guarded fun _ =>
      accepts_pure (ns.take (numLayers + 1))).congr fun rows ns => ?_
  rw [not_le]
  refine and_congr_right fun _ => ?_
  simp only [Bool.or_eq_true, decide_eq_true_eq, not_or, not_not, List.head?_eq_getElem?]
  constructor
  · rintro ⟨ns', _, _, rfl, ⟨row, rfl, hlen, hns⟩, ⟨hinputs, houtputs⟩, rfl, rfl⟩
    exact ⟨row, rfl, hlen, forall₂_exists.mp ⟨ns', hns⟩, List.forall₂_take _ hns, hinputs, houtputs⟩
  · rintro ⟨row, rfl, hlen, hwhole, hfirst, hinputs, houtputs⟩
    obtain ⟨ns', hns⟩ := forall₂_exists.mpr hwhole
    obtain rfl := (rightUnique_sized format).forall₂ (List.forall₂_take _ hns) hfirst
    exact ⟨ns', [row], [], rfl, ⟨row, rfl, hlen, hns⟩, ⟨hinputs, houtputs⟩, rfl, rfl⟩

theorem accepts_build (inputs : ℕ) (norm : Normalization α) {ls : List (Layer α)} (hne : ls ≠ [])
    (hfits : Fits inputs ls) : Accepts read
      (match LayeredNetwork.build (ls.map Layer.weights) (ls.map Layer.biases) with
        | .ok n => pure (n.withNormalization norm)
        | .error e => throw (.shape e) : Reading (LayeredNetwork α)) (fun rows net => rows = [] ∧
          net = ⟨LayeredNetwork.fanIn (ls.map Layer.weights), ls, some norm⟩) := by
  rw [LayeredNetwork.build_layers hne hfits]
  exact accepts_pure _

theorem accepts_network : Accepts format.read? (network format) (fun rows net =>
    net.numLayers < maxSize ∧ Describes (Sized format) rows net) := by
  refine ((accepts_header format).bind fun r _ hheader =>
    (accepts_layerSizes format r.1 r.2.1 r.2.2).bind fun sizes _ hsizes =>
    (accepts_values format .flag 0).bind fun _ _ _ =>
    (accepts_normalization format r.2.1).bind fun norm _ _ =>
    (?layers : Accepts _ (layers format sizes) (LayerRows sizes)).bind fun ls _ hrows =>
      accepts_build r.2.1 norm ?nonempty ?fits).congr fun rows net => ?_
  case layers =>
    obtain ⟨_, _, _, hsizes⟩ := hsizes
    rw [hsizes.sizes_eq]
    exact accepts_layers format _ _
  case nonempty =>
    obtain ⟨_, _, hheader⟩ := hheader
    obtain ⟨_, _, _, hsizes⟩ := hsizes
    exact List.ne_nil_of_length_pos (hheader.numLayers_pos.trans_eq (hsizes.numLayers_eq hrows).symm)
  case fits =>
    obtain ⟨_, _, _, hsizes⟩ := hsizes
    rw [hsizes.sizes_eq] at hrows
    exact hrows.fits
  constructor
  · rintro ⟨⟨numLayers, inputs, outputs⟩, _, _, rfl, ⟨header, rfl, hheader⟩, sizes, _, _, rfl,
      ⟨hlt, sizeRow, rfl, hsizes⟩, flag, _, _, rfl, ⟨rfl, -⟩, norm, _, _, rfl,
      ⟨minimums, maximums, means, ranges, rfl, hmins, hmaxes, hmeans, hranges⟩, ls, body, _, rfl,
      hbody, rfl, rfl⟩
    rw [List.append_nil]
    exact ⟨(hsizes.numLayers_eq hbody).trans_lt hlt,
      .rows hheader hsizes hmins hmaxes hmeans hranges hbody⟩
  · rintro ⟨hlt, hheader, hsizes, hmins, hmaxes, hmeans, hranges, hbody⟩
    exact ⟨(_, _, _), [_], _, rfl, ⟨_, rfl, hheader⟩, _, [_], _, rfl,
      ⟨(hsizes.numLayers_eq hbody).symm.trans_lt hlt, _, rfl, hsizes⟩, _, [_], _, rfl,
      ⟨rfl, Nat.zero_le _⟩, _, [_, _, _, _], _, rfl,
      ⟨_, _, _, _, rfl, hmins, hmaxes, hmeans, hranges⟩, _, _, [], (List.append_nil _).symm, hbody,
      rfl, rfl⟩

end

end ReluVerify.LayeredText
