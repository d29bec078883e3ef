import ReluVerify.Advisory.Property
import ReluVerify.Proofs.Exact
import ReluVerify.Proofs.Step

namespace ReluVerify

namespace Advisory

section

variable {α : Type}

theorem boundsRate_eq_false {a : Advisory α} : a.boundsRate = false ↔ a.turnRate = 0 := by
  rw [boundsRate, bne_eq_false_iff_eq]

variable [Scalar α]

theorem index_of_ofIndex? {index : ℕ} {a : Advisory α} (h : ofIndex? index = .ok a) :
    a.index = index := by
  have hall : (all : List (Advisory α)).map Advisory.index = List.range' 1 11 := rfl
  cases index with
  | zero => cases h
  | succ i =>
    rw [ofIndex?] at h
    split at h
    case h_2 => cases h
    case h_1 b hb =>
      obtain rfl := Except.ok.inj h
      have hindex := congrArg (Option.map Advisory.index) hb
      have hi : i < 11 := (List.getElem?_eq_some_iff.mp hb).1
      rw [← List.getElem?_map, hall, List.getElem?_range' hi] at hindex
      simpa [add_comm] using (Option.some.inj hindex).symm

theorem indices_of_mapM {indices : List ℕ} {candidates : List (Advisory α)}
    (h : indices.mapM ofIndex? = .ok candidates) : candidates.map Advisory.index = indices := by
  induction indices generalizing candidates with
  | nil =>
    obtain rfl := pure_eq_ok.mp h
    rfl
  | cons i is ih =>
    rw [List.mapM_cons] at h
    obtain ⟨a, ha, h⟩ := bind_eq_ok.mp h
    obtain ⟨as, has, h⟩ := bind_eq_ok.mp h
    obtain rfl := pure_eq_ok.mp h
    rw [List.map_cons, index_of_ofIndex? ha, ih has]

theorem mem_all_of_ofIndex? {index : ℕ} {a : Advisory α} (h : ofIndex? index = .ok a) :
    a ∈ all := by
  cases index with
  | zero => cases h
  | succ i =>
    rw [ofIndex?] at h
    split at h
    · obtain rfl := Except.ok.inj h
      exact List.mem_of_getElem? ‹_›
    · cases h

def names : List String := ["COC", "DNC", "DND", "MAINTAIN", "DES1500", "CL1500", "SDES1500",
  "SCL1500", "SDES2500", "SCL2500", "MTLO"]

theorem name_all : (all : List (Advisory α)).map Advisory.name = names := rfl

theorem eq_of_name {a b : Advisory α} (ha : a ∈ all) (hb : b ∈ all) (h : a.name = b.name) :
    a = b := by
  have hnodup : (all.map (Advisory.name : Advisory α → String)).Nodup := by
    rw [name_all]
    decide
  exact List.inj_on_of_nodup_map hnodup ha hb h

theorem notMem_name {a : Advisory α} (ha : a ∈ all) :
    '_' ∉ a.name.toList ∧ '/' ∉ a.name.toList := by
  have hnames : ∀ name ∈ names, '_' ∉ name.toList ∧ '/' ∉ name.toList := by decide
  refine hnames a.name ?_
  rw [← name_all (α := α)]
  exact List.mem_map_of_mem ha

theorem exists_reachable {pra : ℕ} {candidates : List (Advisory α)}
    (h : Advisory.candidates pra = .ok candidates) : ∃ row, reachable pra = .ok row ∧
      row.mapM ofIndex? = .ok candidates :=
  bind_eq_ok.mp h

theorem mem_all_of_candidates {pra : ℕ} {candidates : List (Advisory α)}
    (h : Advisory.candidates pra = .ok candidates) {a : Advisory α} (ha : a ∈ candidates) :
    a ∈ all := by
  obtain ⟨row, _, hmap⟩ := exists_reachable h
  obtain ⟨index, _, hindex⟩ := mem_of_mapM_eq_ok hmap ha
  exact mem_all_of_ofIndex? hindex

theorem nodup_candidates {pra : ℕ} {candidates : List (Advisory α)}
    (h : Advisory.candidates pra = .ok candidates) : candidates.Nodup := by
  obtain ⟨row, hrow, hmap⟩ := exists_reachable h
  have hnodup : ∀ row ∈ transitions, row.Nodup := by decide
  refine List.Nodup.of_map Advisory.index ?_
  rw [indices_of_mapM hmap]
  cases pra with
  | zero => cases hrow
  | succ i =>
    rw [reachable] at hrow
    split at hrow
    · obtain rfl := Except.ok.inj hrow
      exact hnodup _ (List.mem_of_getElem? ‹_›)
    · cases hrow

theorem known_or_unknown (pra : ℕ) :
    (∃ (a : Advisory α) (candidates : List (Advisory α)), ofIndex? pra = .ok a ∧
      Advisory.candidates pra = .ok candidates) ∨
    (pra = 0 ∨ 11 < pra) ∧ (ofIndex? pra : Except _ (Advisory α)) = .error ⟨pra⟩ := by
  rcases pra with _ | i
  · exact .inr ⟨.inl rfl, rfl⟩
  · by_cases hi : i < 11
    · interval_cases i <;> exact .inl ⟨_, _, rfl, rfl⟩
    · have hnone : (all : List (Advisory α))[i]? = none :=
        List.getElem?_eq_none (not_lt.mp hi)
      exact .inr ⟨.inr (by omega), by rw [ofIndex?, hnone]⟩

end

variable {K : Type} [Field K] [LinearOrder K] [IsStrictOrderedRing K]

def Concerns (a : Advisory K) (c : Constants K) (e : Encounter K) : Prop :=
  e.intruder = 0 ∧ 0 ≤ (a.turnRate : K) * (e.own - a.vlo) ∧
    -c.hp ≤ (a.turnRate : K) * (e.h - a.vlo * e.tau)

structure Directed (a : Advisory K) : Prop where
  sense : a.turnRate = 1 ∨ a.turnRate = -1
  level : Property.isLevel a.vlo = true → a.vlo = 0

theorem perMinute_eq (feet : K) : perMinute feet = feet / 60 := by
  unfold perMinute
  norm_num

theorem not_isLevel_perMinute {feet : K} (h : 1 ≤ |feet|) :
    Property.isLevel (perMinute feet) = false := by
  have hsixty : |(60 : K)| = 60 := abs_of_pos (by norm_num)
  rw [Property.isLevel, decide_eq_false_iff_not, perMinute_eq, Scalar.exact_abs, abs_div, hsixty,
    not_lt, le_div_iff₀ (by norm_num)]
  exact le_trans (by norm_num) h

theorem directed_of_mem {a : Advisory K} (h : a ∈ all) (ha : a.boundsRate = true) :
    a.Directed := by
  have hslow : ∀ {feet : K}, 1 ≤ |feet| →
      Property.isLevel (perMinute feet) = true → perMinute feet = 0 := fun hfeet hlevel =>
    absurd hlevel (by simp [not_isLevel_perMinute hfeet])
  have hdescend : (1 : K) ≤ |(-1500.0)| ∧ (1 : K) ≤ |(-2500.0)| := by
    simp only [abs_neg]
    constructor <;> exact le_abs.mpr (Or.inl (by norm_num))
  have hclimb : (1 : K) ≤ |(1500.0)| ∧ (1 : K) ≤ |(2500.0)| := by
    constructor <;> exact le_abs.mpr (Or.inl (by norm_num))
  simp only [all, List.mem_cons, List.not_mem_nil, or_false] at h
  rcases h with rfl | rfl | rfl | rfl | rfl | rfl | rfl | rfl | rfl | rfl | rfl
  case inl | inr.inr.inr.inl | inr.inr.inr.inr.inr.inr.inr.inr.inr.inr => simp [boundsRate] at ha
  · exact ⟨Or.inr rfl, fun _ => rfl⟩
  · exact ⟨Or.inl rfl, fun _ => rfl⟩
  · exact ⟨Or.inr rfl, hslow hdescend.1⟩
  · exact ⟨Or.inl rfl, hslow hclimb.1⟩
  · exact ⟨Or.inr rfl, hslow hdescend.1⟩
  · exact ⟨Or.inl rfl, hslow hclimb.1⟩
  · exact ⟨Or.inr rfl, hslow hdescend.2⟩
  · exact ⟨Or.inl rfl, hslow hclimb.2⟩

omit [IsStrictOrderedRing K] in
theorem Directed.boundsRate {a : Advisory K} (ha : a.Directed) : a.boundsRate = true := by
  rcases ha.sense with h | h <;> simp [Advisory.boundsRate, h]

omit [IsStrictOrderedRing K] in
theorem exists_advisory {pra : ℕ} {candidates : List (Advisory K)}
    (h : Advisory.candidates pra = .ok candidates) :
    ∃ a : Advisory K, ofIndex? pra = .ok a := by
  obtain ⟨row, hrow, _⟩ := exists_reachable h
  cases pra with
  | zero => cases hrow
  | succ i =>
    have hi : i < transitions.length := by
      by_contra hi
      rw [reachable, List.getElem?_eq_none (not_lt.mp hi)] at hrow
      cases hrow
    have hall : i < (all : List (Advisory K)).length := hi
    exact ⟨_, by rw [ofIndex?, List.getElem?_eq_getElem hall]⟩

end Advisory

end ReluVerify
