import ReluVerify.Engine.Search
import ReluVerify.Proofs.Relaxation

namespace ReluVerify

section

variable {K : Type} [Field K] [LinearOrder K]

theorem Follows.set {t : K} {x : ℕ → K} {relus : ReluList} {phases : List Phase}
    (h : Follows t x relus phases) {k : ℕ} {pair : ReluPair} (hk : relus[k]? = some pair)
    {phase : Phase} (hphase : phase.Allows t x pair) : Follows t x relus (phases.set k phase) := by
  intro d hd
  obtain ⟨i, hrelu, hset⟩ := getElem?_of_mem_zip hd
  rw [List.getElem?_set] at hset
  split at hset
  · rename_i hik
    subst hik
    split at hset
    · rw [hk] at hrelu
      rw [← Option.some.inj hrelu, ← Option.some.inj hset]
      exact hphase
    · cases hset
  · exact h d (mem_zip_of_getElem? hrelu hset)

theorem follows_undecided (t : K) (x : ℕ → K) (relus : ReluList) :
    Follows t x relus (relus.map (fun _ => .undecided)) := by
  intro d hd
  obtain ⟨_, _, hphase⟩ := List.mem_map.mp (List.of_mem_zip hd).2
  rw [← hphase]
  trivial

end

instance : Add Stats where
  add a b := ⟨a.pivots + b.pivots, a.caseSplits + b.caseSplits, a.lpSolves + b.lpSolves⟩

theorem Stats.add_assoc (a b c : Stats) : a + b + c = a + (b + c) :=
  Stats.mk.injEq .. ▸ ⟨Nat.add_assoc .., Nat.add_assoc .., Nat.add_assoc ..⟩

theorem Stats.zero_add (a : Stats) : ({} : Stats) + a = a :=
  Stats.mk.injEq .. ▸ ⟨Nat.zero_add _, Nat.zero_add _, Nat.zero_add _⟩

theorem Stats.add_zero (a : Stats) : a + {} = a :=
  Stats.mk.injEq .. ▸ ⟨Nat.add_zero _, Nat.add_zero _, Nat.add_zero _⟩

namespace Search

variable {α : Type} [Scalar α]

section

variable {relus : ReluList} {tolerance : α}

theorem firstBroken?_eq_some {values : List α} {phases : List Phase} {k : ℕ} {pair : ReluPair}
    (h : firstBroken? tolerance values relus phases = some (k, pair)) :
    relus[k]? = some pair ∧ phases[k]? = some .undecided := by
  obtain ⟨⟨⟨pair', phase⟩, i⟩, hfind, heq⟩ := Option.map_eq_some_iff.mp h
  cases heq
  obtain ⟨hrelu, hphase⟩ := List.getElem?_zip_eq_some.mp
    (List.mem_zipIdx_iff_getElem?.mp (List.mem_of_find?_eq_some hfind))
  have hbroken := List.find?_some hfind
  simp only [isBroken, Bool.and_eq_true, beq_iff_eq] at hbroken
  exact ⟨hrelu, hbroken.1 ▸ hphase⟩

theorem leaning_cases (values : List α) (pair : ReluPair) :
    leaning values pair = (.active, .inactive) ∨ leaning values pair = (.inactive, .active) := by
  unfold leaning
  split
  · exact Or.inl rfl
  · exact Or.inr rfl

theorem leaning_ne_undecided (values : List α) (pair : ReluPair) :
    (leaning values pair).1 ≠ .undecided ∧ (leaning values pair).2 ≠ .undecided := by
  rcases leaning_cases values pair with hl | hl <;> rw [hl] <;> decide

end

theorem set_set_of_getElem? {phases : List Phase} {k : ℕ} {phase : Phase}
    (h : phases[k]? = some phase) (other : Phase) : (phases.set k other).set k phase = phases := by
  obtain ⟨hk, hget⟩ := List.getElem?_eq_some_iff.mp h
  rw [List.set_set, ← hget, List.set_getElem_self]

theorem count_set_undecided {phases : List Phase} {k : ℕ} (hk : phases[k]? = some .undecided)
    {phase : Phase} (hphase : phase ≠ .undecided) :
    (phases.set k phase).count .undecided + 1 = phases.count .undecided := by
  obtain ⟨hlt, hget⟩ := List.getElem?_eq_some_iff.mp hk
  have hpos : 0 < phases.count .undecided := List.count_pos_iff.mpr (hget ▸ List.getElem_mem hlt)
  rw [List.count_set hlt, hget]
  simp only [beq_self_eq_true, if_true, beq_iff_eq, hphase, if_false]
  omega

structure Deepens (phases deeper : List Phase) : Prop where
  length : deeper.length = phases.length
  keeps : ∀ i : ℕ, phases[i]? ≠ some Phase.undecided → deeper[i]? = phases[i]?

theorem Deepens.refl (phases : List Phase) : Deepens phases phases := ⟨rfl, fun _ _ => rfl⟩

theorem Deepens.of_set {phases deeper : List Phase} {k : ℕ} {phase : Phase}
    (h : Deepens (phases.set k phase) deeper) (hk : phases[k]? = some .undecided) :
    Deepens phases deeper where
  length := h.length.trans (List.length_set ..)
  keeps := fun i hi => by
    have hne : k ≠ i := by
      rintro rfl
      exact hi hk
    have hset : (phases.set k phase)[i]? = phases[i]? := List.getElem?_set_ne hne
    rw [← hset] at hi ⊢
    exact h.keeps i hi

-- The nodes of a search, each with the phases it looks at, and with the pair it splits on if it
-- splits. A stopped node found the token tripped; the second side of a split is missing when the
-- first one ended the search.
inductive Tree where
  | stopped (phases : List Phase)
  | leaf (phases : List Phase)
  | first (phases : List Phase) (pair : ℕ) (left : Tree)
  | both (phases : List Phase) (pair : ℕ) (left right : Tree)

namespace Tree

def nodes : Tree → List (List Phase)
  | stopped phases => [phases]
  | leaf phases => [phases]
  | first phases _ left => phases :: left.nodes
  | both phases _ left right => phases :: (left.nodes ++ right.nodes)

def checks : Tree → List (List Phase)
  | stopped _ => []
  | leaf phases => [phases]
  | first phases _ left => phases :: left.checks
  | both phases _ left right => phases :: (left.checks ++ right.checks)

def splits : Tree → ℕ
  | stopped _ => 0
  | leaf _ => 0
  | first _ _ left => left.splits + 1
  | both _ _ left right => left.splits + right.splits + 1

def branches : Tree → List (List ℕ)
  | stopped _ => [[]]
  | leaf _ => [[]]
  | first _ pair left => left.branches.map (pair :: ·)
  | both _ pair left right => (left.branches ++ right.branches).map (pair :: ·)

def tally (pivots : List Phase → ℕ) (tree : Tree) : Stats :=
  ⟨(tree.checks.map pivots).sum, tree.splits, tree.checks.length⟩

theorem checks_sublist_nodes (tree : Tree) : tree.checks.Sublist tree.nodes := by
  induction tree with
  | stopped phases => exact List.nil_sublist _
  | leaf phases => exact .refl _
  | first phases pair left ih => exact ih.cons_cons _
  | both phases pair left right ih ih' => exact (ih.append ih').cons_cons _

theorem tally_first (pivots : List Phase → ℕ) (phases : List Phase) (pair : ℕ) (left : Tree) :
    (first phases pair left).tally pivots = ⟨pivots phases, 1, 1⟩ + left.tally pivots :=
  Stats.mk.injEq .. ▸ ⟨List.sum_cons, Nat.add_comm .., Nat.add_comm ..⟩

theorem tally_both (pivots : List Phase → ℕ) (phases : List Phase) (pair : ℕ) (left right : Tree) :
    (both phases pair left right).tally pivots =
      ⟨pivots phases, 1, 1⟩ + (left.tally pivots + right.tally pivots) := by
  refine Stats.mk.injEq .. ▸ ⟨?_, Nat.add_comm .., ?_⟩
  · rw [checks, List.map_cons, List.sum_cons, List.map_append, List.sum_append]
    rfl
  · rw [checks, List.length_cons, List.length_append]
    exact Nat.add_comm ..

end Tree

section

variable (tripped : List Phase → Bool) (answer : List Phase → Answer α) (relus : ReluList)
  (tolerance : α)

structure SplitsOn (phases : List Phase) (values : List α) (k : ℕ) (pair : ReluPair) : Prop where
  polled : tripped phases = false
  answer : answer phases = .feasible values
  broken : firstBroken? tolerance values relus phases = some (k, pair)

-- what is found below the given phases, and the tree that is searched for it
inductive Grows : List Phase → SearchResult α → Tree → Prop
  | stopped {phases : List Phase} (ht : tripped phases = true) :
      Grows phases .interrupted (.stopped phases)
  | interrupted {phases : List Phase} (ht : tripped phases = false)
      (ha : answer phases = .interrupted) : Grows phases .interrupted (.leaf phases)
  | infeasible {phases : List Phase} (ht : tripped phases = false)
      (ha : answer phases = .infeasible) : Grows phases .unsat (.leaf phases)
  | feasible {phases : List Phase} {values : List α} (ht : tripped phases = false)
      (ha : answer phases = .feasible values)
      (hb : firstBroken? tolerance values relus phases = none) :
      Grows phases (.sat values) (.leaf phases)
  | first {phases : List Phase} {values : List α} {k : ℕ} {pair : ReluPair}
      {result : SearchResult α} {left : Tree}
      (hs : SplitsOn tripped answer relus tolerance phases values k pair)
      (h : Grows (phases.set k (leaning values pair).1) result left) (hr : result ≠ .unsat) :
      Grows phases result (.first phases k left)
  | both {phases : List Phase} {values : List α} {k : ℕ} {pair : ReluPair}
      {result : SearchResult α} {left right : Tree}
      (hs : SplitsOn tripped answer relus tolerance phases values k pair)
      (h : Grows (phases.set k (leaning values pair).1) .unsat left)
      (h' : Grows (phases.set k (leaning values pair).2) result right) :
      Grows phases result (.both phases k left right)

end

variable {tripped : List Phase → Bool} {answer : List Phase → Answer α} {relus : ReluList}
  {tolerance : α}

section

variable {phases : List Phase} {values : List α} {k : ℕ} {pair : ReluPair}
  (h : SplitsOn tripped answer relus tolerance phases values k pair)

include h

theorem SplitsOn.relu : relus[k]? = some pair := (firstBroken?_eq_some h.broken).1

theorem SplitsOn.undecided : phases[k]? = some .undecided := (firstBroken?_eq_some h.broken).2

theorem SplitsOn.count_first :
    (phases.set k (leaning values pair).1).count .undecided + 1 = phases.count .undecided :=
  count_set_undecided h.undecided (leaning_ne_undecided values pair).1

theorem SplitsOn.count_second :
    (phases.set k (leaning values pair).2).count .undecided + 1 = phases.count .undecided :=
  count_set_undecided h.undecided (leaning_ne_undecided values pair).2

end

variable (tripped answer relus tolerance) in
theorem exists_grows (phases : List Phase) :
    ∃ result tree, Grows tripped answer relus tolerance phases result tree := by
  induction hleft : phases.count .undecided using Nat.strong_induction_on generalizing phases with
  | _ left ih =>
    cases ht : tripped phases with
    | true => exact ⟨_, _, .stopped ht⟩
    | false =>
    cases ha : answer phases with
    | infeasible => exact ⟨_, _, .infeasible ht ha⟩
    | interrupted => exact ⟨_, _, .interrupted ht ha⟩
    | feasible values =>
      cases hb : firstBroken? tolerance values relus phases with
      | none => exact ⟨_, _, .feasible ht ha hb⟩
      | some broken =>
        obtain ⟨k, pair⟩ := broken
        have hs : SplitsOn tripped answer relus tolerance phases values k pair := ⟨ht, ha, hb⟩
        have hfirst := hs.count_first
        have hsecond := hs.count_second
        obtain ⟨result, tree, h⟩ := ih _ (by omega) (phases.set k (leaning values pair).1) rfl
        cases result with
        | sat found => exact ⟨_, _, .first hs h nofun⟩
        | interrupted => exact ⟨_, _, .first hs h nofun⟩
        | unsat =>
          obtain ⟨result, tree', h'⟩ := ih _ (by omega) (phases.set k (leaning values pair).2) rfl
          exact ⟨_, _, .both hs h h'⟩

theorem phases_countSolve (s : SearchState) (pivots : ℕ) :
    (s.countSolve pivots).phases = s.phases := rfl

theorem decide_set (phases : List Phase) (stats : Stats) (k : ℕ) (phase other : Phase) :
    (SearchState.mk (phases.set k other) stats).decide k phase = ⟨phases.set k phase, stats⟩ :=
  congrArg (SearchState.mk · stats) (List.set_set ..)

theorem decide_undecided {phases : List Phase} {k : ℕ} (hk : phases[k]? = some .undecided)
    (stats : Stats) (other : Phase) :
    (SearchState.mk (phases.set k other) stats).decide k .undecided = ⟨phases, stats⟩ :=
  congrArg (SearchState.mk · stats) (set_set_of_getElem? hk other)

-- The check needs to answer at the nodes of the tree only. However the search ends, the phases are
-- as they were.
theorem Grows.descend {phases : List Phase} {result : SearchResult α} {tree : Tree}
    (h : Grows tripped answer relus tolerance phases result tree)
    {linear : List Phase → Option (Decision α)} {pivots : List Phase → ℕ}
    (hlinear : ∀ phases ∈ tree.checks, linear phases = some ⟨answer phases, pivots phases⟩)
    {depth : ℕ} (hdepth : phases.count .undecided ≤ depth) (stats : Stats) :
    descend tripped linear relus tolerance depth ⟨phases, stats⟩ =
      some (result, ⟨phases, stats + tree.tally pivots⟩) := by
  induction h generalizing depth stats with
  | @stopped phases ht =>
    rw [show Tree.tally pivots (.stopped phases) = {} from rfl, Stats.add_zero]
    cases depth <;> rw [Search.descend, if_pos ht]
  | @interrupted phases ht ha | @infeasible phases ht ha =>
    have hd := hlinear phases List.mem_cons_self
    cases depth <;> simp only [Search.descend, ht, hd, ha] <;> rfl
  | @feasible phases values ht ha hb =>
    have hd := hlinear phases List.mem_cons_self
    cases depth <;> simp only [Search.descend, ht, hd, ha, phases_countSolve, hb] <;> rfl
  | @first phases values k pair result left hs h hr ih =>
    obtain ⟨hd, hleft⟩ := List.forall_mem_cons.mp hlinear
    have hone := hs.count_first
    obtain ⟨depth, rfl⟩ : ∃ d, depth = d + 1 := ⟨depth - 1, by omega⟩
    have hfirst : Search.descend tripped linear relus tolerance depth
        (((SearchState.mk phases stats).countSolve (pivots phases)).countSplit.decide k
          (leaning values pair).1) = _ :=
      ih hleft (by omega) (stats + ⟨pivots phases, 1, 1⟩)
    cases result with
    | unsat => exact absurd rfl hr
    | sat | interrupted =>
      simp only [Search.descend, hs.polled, hd, hs.answer, phases_countSolve, hs.broken, hfirst,
        decide_undecided hs.undecided, Tree.tally_first, Stats.add_assoc, Bool.false_eq_true,
        if_false]
  | @both phases values k pair result left right hs h h' ih ih' =>
    obtain ⟨hd, hsides⟩ := List.forall_mem_cons.mp hlinear
    obtain ⟨hleft, hright⟩ := List.forall_mem_append.mp hsides
    have hone := hs.count_first
    have hone' := hs.count_second
    obtain ⟨depth, rfl⟩ : ∃ d, depth = d + 1 := ⟨depth - 1, by omega⟩
    have hfirst : Search.descend tripped linear relus tolerance depth
        (((SearchState.mk phases stats).countSolve (pivots phases)).countSplit.decide k
          (leaning values pair).1) = _ :=
      ih hleft (by omega) (stats + ⟨pivots phases, 1, 1⟩)
    have hsecond := fun stats => ih' hright (show _ ≤ depth by omega) stats
    simp only [Search.descend, hs.polled, hd, hs.answer, phases_countSolve, hs.broken, hfirst,
      decide_set, hsecond, decide_undecided hs.undecided, Tree.tally_both, Stats.add_assoc,
      Bool.false_eq_true, if_false]

theorem Grows.deepens {phases : List Phase} {result : SearchResult α} {tree : Tree}
    (h : Grows tripped answer relus tolerance phases result tree) :
    ∀ deeper ∈ tree.nodes, Deepens phases deeper := by
  induction h with
  | stopped | interrupted | infeasible | feasible =>
    exact List.forall_mem_singleton.mpr (.refl _)
  | first hs _ _ ih =>
    exact List.forall_mem_cons.mpr ⟨.refl _, fun deeper h => (ih deeper h).of_set hs.undecided⟩
  | both hs _ _ ih ih' =>
    exact List.forall_mem_cons.mpr ⟨.refl _, List.forall_mem_append.mpr
      ⟨fun deeper h => (ih deeper h).of_set hs.undecided,
        fun deeper h => (ih' deeper h).of_set hs.undecided⟩⟩

theorem Grows.length_of_mem {phases : List Phase} {result : SearchResult α} {tree : Tree}
    (h : Grows tripped answer relus tolerance phases result tree) {deeper : List Phase}
    (hmem : deeper ∈ tree.checks) : deeper.length = phases.length :=
  (h.deepens deeper (tree.checks_sublist_nodes.subset hmem)).length

theorem Grows.exists_feasible {phases : List Phase} {result : SearchResult α} {tree : Tree}
    (h : Grows tripped answer relus tolerance phases result tree) {found : List α}
    (hfound : result = .sat found) : ∃ deeper ∈ tree.checks,
      answer deeper = .feasible found ∧ firstBroken? tolerance found relus deeper = none := by
  induction h with
  | stopped | interrupted | infeasible => cases hfound
  | @feasible phases values _ ha hb =>
    cases hfound
    exact ⟨phases, List.mem_cons_self, ha, hb⟩
  | first _ _ _ ih =>
    obtain ⟨deeper, hmem, hfeasible⟩ := ih hfound
    exact ⟨deeper, List.mem_cons_of_mem _ hmem, hfeasible⟩
  | both _ _ _ _ ih =>
    obtain ⟨deeper, hmem, hfeasible⟩ := ih hfound
    exact ⟨deeper, List.mem_cons_of_mem _ (List.mem_append_right _ hmem), hfeasible⟩

-- Nothing but the token ends a search early.
theorem Grows.ne_interrupted {phases : List Phase} {result : SearchResult α} {tree : Tree}
    (h : Grows tripped answer relus tolerance phases result tree)
    (hnodes : ∀ node ∈ tree.nodes, tripped node = false)
    (hchecks : ∀ node ∈ tree.checks, answer node ≠ .interrupted) : result ≠ .interrupted := by
  induction h with
  | stopped ht => exact absurd ht (Bool.eq_false_iff.mp (hnodes _ List.mem_cons_self))
  | interrupted _ ha => exact absurd ha (hchecks _ List.mem_cons_self)
  | infeasible | feasible => exact nofun
  | first _ _ _ ih => exact ih (List.forall_mem_cons.mp hnodes).2 (List.forall_mem_cons.mp hchecks).2
  | both _ _ _ _ ih =>
    have hright := (List.forall_mem_append.mp (List.forall_mem_cons.mp hnodes).2).2
    exact ih hright (List.forall_mem_append.mp (List.forall_mem_cons.mp hchecks).2).2

section

variable {linear : List Phase → Option (Decision α)}

-- where the check has no answer, any one will do
def answerOf (linear : List Phase → Option (Decision α)) (phases : List Phase) : Answer α :=
  ((linear phases).map Decision.answer).getD .infeasible

def pivotsOf (linear : List Phase → Option (Decision α)) (phases : List Phase) : ℕ :=
  ((linear phases).map Decision.pivots).getD 0

omit [Scalar α] in
theorem answerOf_eq {phases : List Phase} {d : Decision α} (hd : linear phases = some d) :
    answerOf linear phases = d.answer := by
  rw [answerOf, hd, Option.map_some, Option.getD_some]

omit [Scalar α] in
theorem linear_eq {phases : List Phase} (h : ∃ d, linear phases = some d) :
    linear phases = some ⟨answerOf linear phases, pivotsOf linear phases⟩ := by
  obtain ⟨d, hd⟩ := h
  simp only [answerOf, pivotsOf, hd, Option.map_some, Option.getD_some]

theorem phases_restored {s t : SearchState} {k : ℕ} {phase : Phase}
    (hk : s.phases[k]? = some .undecided) (h : t.phases = s.phases.set k phase) :
    (t.decide k .undecided).phases = s.phases := by
  change t.phases.set k .undecided = s.phases
  rw [h]
  exact set_set_of_getElem? hk phase

-- A search that ends has had an answer at every node of its tree that it did not stop at.
theorem exists_tree_of_descend {depth : ℕ} {s s' : SearchState} {result : SearchResult α}
    (h : descend tripped linear relus tolerance depth s = some (result, s')) :
    ∃ tree, Grows tripped (answerOf linear) relus tolerance s.phases result tree ∧
      (∀ phases ∈ tree.checks, ∃ d, linear phases = some d) ∧ s'.phases = s.phases := by
  fun_induction descend tripped linear relus tolerance depth s generalizing result s'
  case case2 | case6 | case7 | case8 => cases h
  case case1 s ht =>
    cases h
    exact ⟨.stopped s.phases, .stopped ht, nofun, rfl⟩
  case case3 s ht d hd _ ha =>
    cases h
    exact ⟨.leaf s.phases, .infeasible (Bool.eq_false_iff.mpr ht) ((answerOf_eq hd).trans ha),
      List.forall_mem_singleton.mpr ⟨d, hd⟩, rfl⟩
  case case4 s ht d hd _ ha =>
    cases h
    exact ⟨.leaf s.phases, .interrupted (Bool.eq_false_iff.mpr ht) ((answerOf_eq hd).trans ha),
      List.forall_mem_singleton.mpr ⟨d, hd⟩, rfl⟩
  case case5 s ht d hd _ values ha hb =>
    cases h
    exact ⟨.leaf s.phases, .feasible (Bool.eq_false_iff.mpr ht) ((answerOf_eq hd).trans ha) hb,
      List.forall_mem_singleton.mpr ⟨d, hd⟩, rfl⟩
  case case9 s ht d hd _ values ha k pair hb depth first second hl s₁ hfirst result s₂ hsecond ih' ih =>
    cases h
    have hs : SplitsOn tripped (answerOf linear) relus tolerance s.phases values k pair :=
      ⟨Bool.eq_false_iff.mpr ht, (answerOf_eq hd).trans ha, hb⟩
    obtain ⟨left, hleft, hchecks, hback⟩ := ih' hfirst
    obtain ⟨right, hright, hchecks', hback'⟩ := ih hsecond
    have hside : (s₁.decide k second).phases = s.phases.set k second := by
      change s₁.phases.set k second = _
      rw [hback]
      exact List.set_set ..
    rw [hside] at hright hback'
    exact ⟨.both s.phases k left right, .both hs (hl ▸ hleft) (hl ▸ hright),
      List.forall_mem_cons.mpr ⟨⟨d, hd⟩, List.forall_mem_append.mpr ⟨hchecks, hchecks'⟩⟩,
      phases_restored hs.undecided hback'⟩
  case case10 s ht d hd _ values ha k pair hb depth first second hl found s₁ hne hfirst ih =>
    cases h
    have hs : SplitsOn tripped (answerOf linear) relus tolerance s.phases values k pair :=
      ⟨Bool.eq_false_iff.mpr ht, (answerOf_eq hd).trans ha, hb⟩
    obtain ⟨left, hleft, hchecks, hback⟩ := ih hfirst
    exact ⟨.first s.phases k left, .first hs (hl ▸ hleft) hne,
      List.forall_mem_cons.mpr ⟨⟨d, hd⟩, hchecks⟩, phases_restored hs.undecided hback⟩

-- However a search ends, it has counted what its tree tells and leaves the phases as they were.
theorem exists_tree_of_search {s s' : SearchState} {result : SearchResult α}
    (h : search tripped linear relus tolerance s = some (result, s')) :
    ∃ tree, Grows tripped (answerOf linear) relus tolerance s.phases result tree ∧
      (∀ phases ∈ tree.checks, ∃ d, linear phases = some d) ∧
      s' = ⟨s.phases, s.stats + tree.tally (pivotsOf linear)⟩ := by
  obtain ⟨tree, hgrows, hchecks, -⟩ := exists_tree_of_descend h
  have hdescend : search tripped linear relus tolerance s = _ :=
    hgrows.descend (fun phases hmem => linear_eq (hchecks phases hmem)) le_rfl s.stats
  rw [h, Option.some.injEq, Prod.mk.injEq] at hdescend
  exact ⟨tree, hgrows, hchecks, hdescend.2⟩

theorem descend_of_none {s : SearchState} (ht : tripped s.phases = false)
    (h : linear s.phases = none) (depth : ℕ) :
    descend tripped linear relus tolerance depth s = none := by
  cases depth <;> simp only [descend, ht, h, Bool.false_eq_true, if_false]

variable (tripped relus tolerance) in
theorem exists_search {s : SearchState} (h : ∀ phases : List Phase,
    phases.length = s.phases.length → ∃ d, linear phases = some d) :
    ∃ result s', (∀ depth, s.undecided ≤ depth →
      descend tripped linear relus tolerance depth s = some (result, s')) := by
  obtain ⟨result, tree, hgrows⟩ :=
    exists_grows tripped (answerOf linear) relus tolerance s.phases
  exact ⟨result, _, fun depth hdepth => hgrows.descend
    (fun phases hmem => linear_eq (h phases (hgrows.length_of_mem hmem))) hdepth s.stats⟩

end

section

variable {K : Type} [Field K] [LinearOrder K] {tripped : List Phase → Bool}
  {answer : List Phase → Answer K} {relus : ReluList} {tolerance : K}

theorem leaning_allows {x : ℕ → K} {pair : ReluPair}
    (hpair : x pair.output = max (x pair.input) 0) (values : List K) :
    (leaning values pair).1.Allows 0 x pair ∨ (leaning values pair).2.Allows 0 x pair := by
  have hcases : Phase.Allows 0 x pair .active ∨ Phase.Allows 0 x pair .inactive := by
    rcases le_total 0 (x pair.input) with hin | hin
    · exact Or.inl (by simpa [Phase.Allows] using hin)
    · refine Or.inr ⟨hin, ?_⟩
      rw [hpair, max_eq_right hin]
  rcases leaning_cases values pair with hl | hl
  · rw [hl]
    exact hcases
  · rw [hl]
    exact hcases.symm

theorem Grows.exists_infeasible {phases : List Phase} {result : SearchResult K} {tree : Tree}
    (h : Grows tripped answer relus tolerance phases result tree) (hunsat : result = .unsat)
    {x : ℕ → K} (hrelus : ∀ p ∈ relus, x p.output = max (x p.input) 0)
    (hx : Follows 0 x relus phases) : ∃ deeper ∈ tree.checks,
      answer deeper = .infeasible ∧ Follows 0 x relus deeper := by
  induction h with
  | stopped | interrupted | feasible => cases hunsat
  | @infeasible phases _ ha => exact ⟨phases, List.mem_cons_self, ha, hx⟩
  | first _ _ hr => exact absurd hunsat hr
  | @both phases values k pair result left right hs _ _ ih ih' =>
    have hpair := hrelus pair (List.mem_of_getElem? hs.relu)
    rcases leaning_allows hpair values with hfirst | hsecond
    · obtain ⟨deeper, hmem, hrest⟩ := ih rfl (hx.set hs.relu hfirst)
      exact ⟨deeper, List.mem_cons_of_mem _ (List.mem_append_left _ hmem), hrest⟩
    · obtain ⟨deeper, hmem, hrest⟩ := ih' hunsat (hx.set hs.relu hsecond)
      exact ⟨deeper, List.mem_cons_of_mem _ (List.mem_append_right _ hmem), hrest⟩

theorem firstBroken?_eq_none {values : List K} {phases : List Phase}
    (h : firstBroken? tolerance values relus phases = none) :
    ∀ pair, (pair, Phase.undecided) ∈ relus.zip phases →
      |values.getD pair.output 0 - max (values.getD pair.input 0) 0| ≤ tolerance := by
  intro pair hd
  obtain ⟨i, hi⟩ := List.mem_iff_getElem?.mp hd
  have hall := List.find?_eq_none.mp (Option.map_eq_none_iff.mp h) _
    (List.mem_zipIdx_iff_getElem?.mpr hi : ((pair, Phase.undecided), i) ∈ _)
  rw [← ReluPair.holds_iff]
  simpa [isBroken] using hall

theorem firstBroken?_first {values : List K} {phases : List Phase} {k : ℕ} {pair : ReluPair}
    (h : firstBroken? tolerance values relus phases = some (k, pair)) :
    tolerance < |values.getD pair.output 0 - max (values.getD pair.input 0) 0| ∧
      ∀ i < k, ∀ p : ReluPair, relus[i]? = some p → phases[i]? = some .undecided →
        |values.getD p.output 0 - max (values.getD p.input 0) 0| ≤ tolerance := by
  obtain ⟨⟨⟨pair', phase⟩, k'⟩, hfind, heq⟩ := Option.map_eq_some_iff.mp h
  cases heq
  obtain ⟨hbroken, j, hj, hget, hbefore⟩ := List.find?_eq_some_iff_getElem.mp hfind
  obtain rfl : j = k' := by
    rw [List.getElem_zipIdx, Prod.mk.injEq] at hget
    omega
  constructor
  · simp only [isBroken, Bool.and_eq_true, Bool.not_eq_true'] at hbroken
    rw [← not_le, ← ReluPair.holds_iff, hbroken.2]
    exact Bool.false_ne_true
  · intro i hi p hp hphase
    have hsound := hbefore i hi
    have hzip : (relus.zip phases)[i]? = some (p, .undecided) :=
      List.getElem?_zip_eq_some.mpr ⟨hp, hphase⟩
    obtain ⟨hlt, hpi⟩ := List.getElem?_eq_some_iff.mp hzip
    rw [List.getElem_zipIdx, hpi] at hsound
    rw [← ReluPair.holds_iff]
    simpa [isBroken] using hsound

end

end Search

end ReluVerify
