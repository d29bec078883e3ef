import ReluVerify.Proofs.Layered

namespace ReluVerify.LayeredNetwork

variable {α : Type}

def widthBefore (fanIn : ℕ) (layers : List (Layer α)) : ℕ → ℕ
  | 0 => fanIn
  | l + 1 => (layers[l]?.map Layer.width).getD 0

theorem widthBefore_cons (fanIn : ℕ) (l : Layer α) (rest : List (Layer α)) (i : ℕ) :
    widthBefore fanIn (l :: rest) (i + 1) = widthBefore l.width rest i := by
  cases i <;> rfl

theorem fits_iff_fault? {fanIn : ℕ} {layers : List (Layer α)} :
    Fits fanIn layers ↔ ∀ (i : ℕ) (l : Layer α), layers[i]? = some l →
      l.fault? (widthBefore fanIn layers i) = none := by
  induction layers generalizing fanIn with
  | nil => simp [Fits]
  | cons l rest ih =>
    rw [Fits, ← and_assoc, ← fault?_eq_none, ih]
    constructor
    · rintro ⟨hl, hrest⟩ (_ | i) l' hi
      · obtain rfl := Option.some.inj hi
        exact hl
      · rw [widthBefore_cons]
        exact hrest i l' hi
    · intro h
      refine ⟨h 0 l rfl, fun i l' hi => ?_⟩
      rw [← widthBefore_cons fanIn]
      exact h (i + 1) l' hi

theorem checkLayers_of_fault {layers : List (Layer α)} {index fanIn i : ℕ} {l : Layer α}
    {cause : ShapeCause} (hi : layers[i]? = some l)
    (hbefore : ∀ j < i, ∀ l', layers[j]? = some l' →
      l'.fault? (widthBefore fanIn layers j) = none)
    (hfault : l.fault? (widthBefore fanIn layers i) = some cause) :
    checkLayers index fanIn layers = .error ⟨index + i, cause⟩ := by
  induction layers generalizing index fanIn i with
  | nil => cases hi
  | cons first rest ih =>
    rw [checkLayers]
    cases i with
    | zero =>
      obtain rfl := Option.some.inj hi
      rw [show first.fault? fanIn = some cause from hfault]
      rfl
    | succ i =>
      have hfirst : first.fault? fanIn = none := hbefore 0 (Nat.succ_pos i) first rfl
      rw [widthBefore_cons] at hfault
      rw [hfirst]
      dsimp only
      rw [ih hi (fun j hj l' hl' => ?_) hfault, Nat.add_right_comm, Nat.add_assoc]
      rw [← widthBefore_cons fanIn]
      exact hbefore (j + 1) (Nat.succ_lt_succ hj) l' hl'

inductive Misfit (fanIn : ℕ) (rows : List (List α)) (biases : List α) : ShapeCause → Prop
  | rowCount (h : rows.length ≠ biases.length) : Misfit fanIn rows biases
      (.rowCount rows.length biases.length)
  | rowLength {before after : List (List α)} {row : List α} (h : rows.length = biases.length)
      (hrows : rows = before ++ row :: after) (hbefore : ∀ r ∈ before, r.length = fanIn)
      (hrow : row.length ≠ fanIn) : Misfit fanIn rows biases (.rowLength row.length fanIn)

theorem fault?_of_misfit {fanIn : ℕ} {l : Layer α} {cause : ShapeCause}
    (h : Misfit fanIn l.weights l.biases cause) : l.fault? fanIn = some cause := by
  unfold Layer.fault?
  cases h with
  | rowCount h => rw [if_pos h]
  | @rowLength before after row h hrows hbefore hrow =>
    have hfind : l.weights.find? (fun row => row.length != fanIn) = some row :=
      List.find?_eq_some_iff_append.mpr
        ⟨by simpa using hrow, before, after, hrows, fun r hr => by simpa using hbefore r hr⟩
    rw [if_neg (not_not.mpr h), hfind]
    rfl

theorem misfit_of_fault? {fanIn : ℕ} {l : Layer α} {cause : ShapeCause}
    (h : l.fault? fanIn = some cause) : Misfit fanIn l.weights l.biases cause := by
  unfold Layer.fault? at h
  split at h
  case isTrue hlen =>
    obtain rfl := Option.some.inj h
    exact .rowCount hlen
  case isFalse hlen =>
    obtain ⟨row, hfind, rfl⟩ := Option.map_eq_some_iff.mp h
    obtain ⟨hrow, before, after, hrows, hbefore⟩ := List.find?_eq_some_iff_append.mp hfind
    exact .rowLength (not_not.mp hlen) hrows (fun r hr => by simpa using hbefore r hr)
      (by simpa using hrow)

section

variable (weights : List (List (List α))) (biases : List (List α))

def fanInAt : ℕ → ℕ
  | 0 => fanIn weights
  | l + 1 => (weights[l]?.map List.length).getD 0

def FitsAt (l : ℕ) : Prop := ∀ rows bs, weights[l]? = some rows → biases[l]? = some bs →
  rows.length = bs.length ∧ ∀ row ∈ rows, row.length = fanInAt weights l

structure Conforms : Prop where
  nonempty : weights ≠ []
  counts : weights.length = biases.length
  layers : ∀ l, FitsAt weights biases l

inductive Judged : Except ShapeError (LayeredNetwork α) → Prop
  | noLayers (h : weights = []) : Judged (.error ⟨0, .noLayers⟩)
  | counts (hne : weights ≠ []) (h : weights.length ≠ biases.length) :
      Judged (.error ⟨min weights.length biases.length,
        .layerCounts weights.length biases.length⟩)
  | misfit {l : ℕ} {rows : List (List α)} {bs : List α} {cause : ShapeCause}
      (hlen : weights.length = biases.length) (hbefore : ∀ i < l, FitsAt weights biases i)
      (hrows : weights[l]? = some rows) (hbs : biases[l]? = some bs)
      (h : Misfit (fanInAt weights l) rows bs cause) : Judged (.error ⟨l, cause⟩)
  | conforms (h : Conforms weights biases) :
      Judged (.ok ⟨fanIn weights, List.zipWith Layer.mk weights biases, none⟩)

end

variable {weights : List (List (List α))} {biases : List (List α)}

theorem getElem?_layers {i : ℕ} {l : Layer α} :
    (List.zipWith Layer.mk weights biases)[i]? = some l ↔
      weights[i]? = some l.weights ∧ biases[i]? = some l.biases := by
  rw [List.getElem?_zipWith_eq_some]
  constructor
  · rintro ⟨rows, bs, hrows, hbs, rfl⟩
    exact ⟨hrows, hbs⟩
  · exact fun h => ⟨_, _, h.1, h.2, rfl⟩

theorem exists_layer (hlen : weights.length = biases.length) {i : ℕ} {rows : List (List α)}
    (h : weights[i]? = some rows) : ∃ bs, biases[i]? = some bs ∧
      (List.zipWith Layer.mk weights biases)[i]? = some ⟨rows, bs⟩ := by
  have hi : i < biases.length := hlen ▸ (List.getElem?_eq_some_iff.mp h).1
  have hbs : biases[i]? = some biases[i] := List.getElem?_eq_getElem hi
  exact ⟨_, hbs, getElem?_layers.mpr ⟨h, hbs⟩⟩

theorem widthBefore_layers (hlen : weights.length = biases.length) (i : ℕ) :
    widthBefore (fanIn weights) (List.zipWith Layer.mk weights biases) i = fanInAt weights i := by
  cases i with
  | zero => rfl
  | succ i =>
    rw [widthBefore, fanInAt]
    cases hrows : weights[i]? with
    | none =>
      rw [List.getElem?_eq_none (by simpa [← hlen] using hrows)]
      rfl
    | some rows =>
      obtain ⟨bs, _, hlayer⟩ := exists_layer hlen hrows
      rw [hlayer]
      rfl

theorem fitsAt_iff_fault? (hlen : weights.length = biases.length) {i : ℕ} :
    FitsAt weights biases i ↔ ∀ l, (List.zipWith Layer.mk weights biases)[i]? = some l →
      l.fault? (widthBefore (fanIn weights) (List.zipWith Layer.mk weights biases) i) = none := by
  simp only [fault?_eq_none, widthBefore_layers hlen, getElem?_layers]
  exact ⟨fun h l hl => h l.weights l.biases hl.1 hl.2, fun h rows bs hrows hbs =>
    h ⟨rows, bs⟩ ⟨hrows, hbs⟩⟩

theorem Conforms.checkLayers (h : Conforms weights biases) :
    checkLayers 0 (fanIn weights) (List.zipWith Layer.mk weights biases) = .ok () := by
  rw [checkLayers_eq_ok, fits_iff_fault?]
  exact fun i => (fitsAt_iff_fault? h.counts).mp (h.layers i)

theorem build_of_judged {r : Except ShapeError (LayeredNetwork α)}
    (h : Judged weights biases r) : build weights biases = r := by
  unfold build
  cases h with
  | noLayers h =>
    subst h
    rfl
  | counts hne h => rw [if_neg (by simpa using hne), if_pos h]
  | @misfit l rows bs cause hlen hbefore hrows hbs h =>
    have hne : weights ≠ [] := by
      rintro rfl
      cases hrows
    rw [if_neg (by simpa using hne), if_neg (not_not.mpr hlen)]
    have hlayer : (List.zipWith Layer.mk weights biases)[l]? = some ⟨rows, bs⟩ :=
      getElem?_layers.mpr ⟨hrows, hbs⟩
    have hcheck : LayeredNetwork.checkLayers 0 (fanIn weights) _ = .error ⟨0 + l, cause⟩ :=
      checkLayers_of_fault hlayer (fun i hi => (fitsAt_iff_fault? hlen).mp (hbefore i hi))
        (fault?_of_misfit ((widthBefore_layers hlen l).symm ▸ h))
    rw [Nat.zero_add] at hcheck
    simp only [hcheck]
    rfl
  | conforms h =>
    rw [if_neg (by simpa using h.nonempty), if_neg (not_not.mpr h.counts)]
    simp only [h.checkLayers]
    rfl

theorem exists_judged (weights : List (List (List α))) (biases : List (List α)) :
    ∃ r, Judged weights biases r := by
  by_cases hne : weights = []
  · exact ⟨_, .noLayers hne⟩
  by_cases hlen : weights.length = biases.length
  · by_cases hfits : ∀ l, FitsAt weights biases l
    · exact ⟨_, .conforms ⟨hne, hlen, hfits⟩⟩
    · -- of the layers that fail, the first is named
      classical
      rw [not_forall] at hfits
      have hfirst : ¬FitsAt weights biases (Nat.find hfits) := Nat.find_spec hfits
      have hbefore : ∀ i < Nat.find hfits, FitsAt weights biases i := fun i hi =>
        not_not.mp (Nat.find_min hfits hi)
      rw [fitsAt_iff_fault? hlen, not_forall] at hfirst
      obtain ⟨l, hfirst⟩ := hfirst
      rw [Classical.not_imp, ← ne_eq, Option.ne_none_iff_exists'] at hfirst
      obtain ⟨hl, cause, hcause⟩ := hfirst
      obtain ⟨hrows, hbs⟩ := getElem?_layers.mp hl
      rw [widthBefore_layers hlen] at hcause
      exact ⟨_, .misfit hlen hbefore hrows hbs (misfit_of_fault? hcause)⟩
  · exact ⟨_, .counts hne hlen⟩

theorem build_eq_iff (r : Except ShapeError (LayeredNetwork α)) :
    build weights biases = r ↔ Judged weights biases r := by
  constructor
  · rintro rfl
    obtain ⟨r, hr⟩ := exists_judged weights biases
    rwa [build_of_judged hr]
  · exact build_of_judged

theorem build_eq_ok_iff {net : LayeredNetwork α} :
    build weights biases = .ok net ↔ Conforms weights biases ∧
      net = ⟨fanIn weights, List.zipWith Layer.mk weights biases, none⟩ := by
  rw [build_eq_iff]
  constructor
  · rintro ⟨⟩
    exact ⟨‹_›, rfl⟩
  · rintro ⟨h, rfl⟩
    exact .conforms h

theorem Conforms.getElem?_sizes (h : Conforms weights biases) {l : ℕ} (hl : l ≤ weights.length) :
    (sizes ⟨fanIn weights, List.zipWith Layer.mk weights biases, none⟩)[l]? =
      some (fanInAt weights l) := by
  cases l with
  | zero => rfl
  | succ l =>
    have hrows : weights[l]? = some weights[l] := List.getElem?_eq_getElem hl
    obtain ⟨bs, _, hlayer⟩ := exists_layer h.counts hrows
    rw [sizes, List.getElem?_cons_succ, List.getElem?_map, hlayer, fanInAt, hrows]
    rfl

end ReluVerify.LayeredNetwork
