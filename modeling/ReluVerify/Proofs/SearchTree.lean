import ReluVerify.Proofs.Reference

namespace ReluVerify

variable {α : Type} [Scalar α]

namespace Search

namespace Tree

theorem splits_le_length_checks (tree : Tree) : tree.splits ≤ tree.checks.length := by
  induction tree with
  | stopped phases => exact Nat.le_refl _
  | leaf phases => exact Nat.zero_le _
  | first phases pair left ih => exact Nat.succ_le_succ ih
  | both phases pair left right ih ih' =>
    rw [splits, checks, List.length_cons, List.length_append]
    omega

theorem length_checks_le (tree : Tree) : tree.checks.length ≤ 2 * tree.splits + 1 := by
  induction tree with
  | stopped phases => exact Nat.zero_le _
  | leaf phases => exact Nat.le_refl _
  | first phases pair left ih =>
    rw [splits, checks, List.length_cons]
    omega
  | both phases pair left right ih ih' =>
    rw [splits, checks, List.length_cons, List.length_append]
    omega

end Tree

variable {tripped : List Phase → Bool} {answer : List Phase → Answer α} {relus : ReluList}
  {tolerance : α} {phases : List Phase} {result : SearchResult α} {tree : Tree}

section

variable (h : Grows tripped answer relus tolerance phases result tree)

include h

theorem Grows.splits_lt_length_checks (hresult : result ≠ .interrupted) :
    tree.splits < tree.checks.length := by
  induction h with
  | stopped | interrupted => exact absurd rfl hresult
  | infeasible | feasible => exact Nat.zero_lt_one
  | first _ _ _ ih => exact Nat.succ_lt_succ (ih hresult)
  | both _ _ _ ih ih' =>
    have hleft := ih nofun
    have hright := ih' hresult
    rw [Tree.splits, Tree.checks, List.length_cons, List.length_append]
    omega

theorem Grows.length_checks_of_unsat (hunsat : result = .unsat) :
    tree.checks.length = 2 * tree.splits + 1 := by
  induction h with
  | stopped | interrupted | feasible => cases hunsat
  | infeasible => rfl
  | first _ _ hr => exact absurd hunsat hr
  | both _ _ _ ih ih' =>
    rw [Tree.checks, Tree.splits, List.length_cons, List.length_append, ih rfl, ih' hunsat]
    omega

theorem Grows.splits_lt : tree.splits < 2 ^ phases.count .undecided := by
  induction h with
  | stopped | interrupted | infeasible | feasible => exact Nat.two_pow_pos _
  | first hs _ _ ih =>
    rw [← hs.count_first, Tree.splits, pow_succ]
    omega
  | both hs _ _ ih ih' =>
    have hsame := Nat.succ.inj (hs.count_second.trans hs.count_first.symm)
    rw [hsame] at ih'
    rw [← hs.count_first, Tree.splits, pow_succ]
    omega

end

structure Opens (phases : List Phase) (pairs : List ℕ) : Prop where
  nodup : pairs.Nodup
  undecided : ∀ i ∈ pairs, phases[i]? = some Phase.undecided

theorem opens_nil (phases : List Phase) : Opens phases [] :=
  ⟨List.nodup_nil, fun _ hi => absurd hi List.not_mem_nil⟩

theorem Opens.cons {phases : List Phase} {k : ℕ} {phase : Phase} {pairs : List ℕ}
    (h : Opens (phases.set k phase) pairs) (hk : phases[k]? = some .undecided)
    (hphase : phase ≠ .undecided) : Opens phases (k :: pairs) := by
  have hne : k ∉ pairs := by
    intro hmem
    have hget := h.undecided k hmem
    rw [List.getElem?_set_self (List.getElem?_eq_some_iff.mp hk).1, Option.some.injEq] at hget
    exact hphase hget
  refine ⟨List.nodup_cons.mpr ⟨hne, h.nodup⟩, List.forall_mem_cons.mpr ⟨hk, fun i hi => ?_⟩⟩
  rw [← h.undecided i hi, List.getElem?_set_ne]
  rintro rfl
  exact hne hi

theorem Grows.branches (h : Grows tripped answer relus tolerance phases result tree) :
    ∀ branch ∈ tree.branches, Opens phases branch := by
  induction h with
  | stopped | interrupted | infeasible | feasible =>
    exact List.forall_mem_singleton.mpr (opens_nil _)
  | @first _ values _ pair _ _ hs _ _ ih =>
    obtain ⟨hne, _⟩ := leaning_ne_undecided values pair
    rw [Tree.branches, List.forall_mem_map]
    exact fun branch h => (ih branch h).cons hs.undecided hne
  | @both _ values _ pair _ _ _ hs _ _ ih ih' =>
    obtain ⟨hne, hne'⟩ := leaning_ne_undecided values pair
    rw [Tree.branches, List.forall_mem_map, List.forall_mem_append]
    exact ⟨fun branch h => (ih branch h).cons hs.undecided hne,
      fun branch h => (ih' branch h).cons hs.undecided hne'⟩

theorem Deepens.getElem?_of_set {phases deeper : List Phase} {k : ℕ} {phase : Phase}
    (h : Deepens (phases.set k phase) deeper) (hk : phases[k]? = some .undecided)
    (hphase : phase ≠ .undecided) : deeper[k]? = some phase := by
  have hget : (phases.set k phase)[k]? = some phase :=
    List.getElem?_set_self (List.getElem?_eq_some_iff.mp hk).1
  rw [h.keeps k (by rw [hget]; simpa using hphase), hget]

theorem Grows.decided {k : ℕ} {phase : Phase}
    (h : Grows tripped answer relus tolerance (phases.set k phase) result tree)
    (hk : phases[k]? = some .undecided) (hphase : phase ≠ .undecided) :
    ∀ deeper ∈ tree.nodes, deeper[k]? = some phase :=
  fun deeper hmem => (h.deepens deeper hmem).getElem?_of_set hk hphase

-- What is visited below a split has the split pair decided, on the two sides in different ways.
theorem Grows.nodup_nodes (h : Grows tripped answer relus tolerance phases result tree) :
    tree.nodes.Nodup := by
  induction h with
  | stopped | interrupted | infeasible | feasible => exact List.nodup_singleton _
  | @first phases values k pair result left hs h _ ih =>
    obtain ⟨hne, _⟩ := leaning_ne_undecided values pair
    refine List.nodup_cons.mpr ⟨fun hmem => hne ?_, ih⟩
    exact Option.some.inj ((h.decided hs.undecided hne _ hmem).symm.trans hs.undecided)
  | @both phases values k pair result left right hs h h' ih ih' =>
    have hk := hs.undecided
    obtain ⟨hne, hne'⟩ := leaning_ne_undecided values pair
    refine List.nodup_cons.mpr ⟨fun hmem => ?_, ih.append ih' fun deeper hleft hright => ?_⟩
    · rcases List.mem_append.mp hmem with hmem | hmem
      · exact hne (Option.some.inj ((h.decided hk hne _ hmem).symm.trans hk))
      · exact hne' (Option.some.inj ((h'.decided hk hne' _ hmem).symm.trans hk))
    · have hsame := (h.decided hk hne _ hleft).symm.trans (h'.decided hk hne' _ hright)
      rcases leaning_cases values pair with hl | hl
      · rw [hl] at hsame
        cases hsame
      · rw [hl] at hsame
        cases hsame

end Search

namespace Reference

open Search (Tree Grows)

theorem count_allUndecided (relus : ReluList) :
    (allUndecided relus).count .undecided = relus.length := by
  rw [allUndecided, List.map_const', List.count_replicate_self]

structure Accounts (tripped : List Phase → Bool) (answer : List Phase → Answer α)
    (pivots : List Phase → ℕ) (tolerance : α) (q : Query α) (result : SearchResult α)
    (tree : Tree) (out : EngineOutput α) : Prop where
  grows : Grows tripped answer q.relus tolerance (allUndecided q.relus) result tree
  distinct : tree.nodes.Nodup
  branches : ∀ branch ∈ tree.branches, branch.Nodup ∧ ∀ pair ∈ branch, pair < q.relus.length
  output : out = result.output out.stats
  uninterrupted : (∀ node ∈ tree.nodes, tripped node = false) →
    (∀ node ∈ tree.checks, answer node ≠ .interrupted) → out.interrupted = false
  pivots : out.stats.pivots = (tree.checks.map pivots).sum
  lpSolves : out.stats.lpSolves = tree.checks.length
  caseSplits : out.stats.caseSplits = tree.splits
  unsat : result = .unsat → out.stats.lpSolves = 2 * out.stats.caseSplits + 1
  caseSplits_lt : out.interrupted = false → out.stats.caseSplits + 1 ≤ out.stats.lpSolves
  caseSplits_le : out.stats.caseSplits ≤ out.stats.lpSolves
  lpSolves_le : out.stats.lpSolves ≤ 2 * out.stats.caseSplits + 1
  caseSplits_bound : out.stats.caseSplits ≤ 2 ^ q.relus.length - 1

section

variable {tripped : List Phase → Bool} {answer : List Phase → Answer α} {pivots : List Phase → ℕ}
  {tolerance : α} {q : Query α} {result : SearchResult α} {tree : Tree}
  (h : Grows tripped answer q.relus tolerance (allUndecided q.relus) result tree)

include h

theorem branches_of_grows :
    ∀ branch ∈ tree.branches, branch.Nodup ∧ ∀ pair ∈ branch, pair < q.relus.length := by
  intro branch hbranch
  have hopens := h.branches branch hbranch
  refine ⟨hopens.nodup, fun pair hpair => ?_⟩
  have hlt := (List.getElem?_eq_some_iff.mp (hopens.undecided pair hpair)).1
  rwa [allUndecided, List.length_map] at hlt

theorem accounts_of_grows : Accounts tripped answer pivots tolerance q result tree
    (result.output (tree.tally pivots)) := by
  have hstats := result.stats_output (tree.tally pivots)
  have hsplits := h.splits_lt
  rw [count_allUndecided] at hsplits
  refine ⟨h, h.nodup_nodes, branches_of_grows h, by rw [hstats],
    fun hnodes hchecks => ?_, ?_, ?_, ?_, fun hunsat => ?_, fun hout => ?_, ?_, ?_, ?_⟩
  case refine_1 => exact SearchResult.interrupted_output.mpr (h.ne_interrupted hnodes hchecks)
  all_goals rw [hstats]
  case refine_2 | refine_3 | refine_4 => rfl
  case refine_5 => exact h.length_checks_of_unsat hunsat
  case refine_6 =>
    exact h.splits_lt_length_checks (SearchResult.interrupted_output.mp hout)
  case refine_7 => exact tree.splits_le_length_checks
  case refine_8 => exact tree.length_checks_le
  case refine_9 => exact Nat.le_sub_one_of_lt hsplits

end

-- With `linear` any check at all, and with the check of the engine at any token.
theorem run_accounts (tolerances : Tolerances α) (q : Query α) :
    (∀ (tripped : List Phase → Bool) (answer : List Phase → Answer α), ∃ result tree,
      ∀ (pivots : List Phase → ℕ) (linear : List Phase → Option (Decision α)),
        (∀ phases ∈ tree.checks, linear phases = some ⟨answer phases, pivots phases⟩) →
          ∃ out, runWith tripped linear tolerances.relu q = some out ∧
            Accounts tripped answer pivots tolerances.relu q result tree out) ∧
    (∀ budget token out, run? budget tolerances q token = some out →
      ∃ answer pivots result tree, (∀ phases ∈ tree.checks,
        linear budget tolerances token (Problem.ofQuery q) phases =
          some ⟨answer phases, pivots phases⟩) ∧
        Accounts token.atNode answer pivots tolerances.relu q result tree out) ∧
    (∀ budget out, run? budget tolerances q (.steady false) = some out →
      out.interrupted = false ∧
        (budget ≤ pivotBudget → (engine tolerances).run q false = out)) ∧
    (∀ budget token, token.atNode (allUndecided q.relus) = true →
      run? budget tolerances q token = some ⟨VarMap.empty, true, ⟨0, 0, 0⟩⟩) ∧
    (engine tolerances).run q true = ⟨VarMap.empty, true, ⟨0, 0, 0⟩⟩ := by
  refine ⟨fun tripped answer => ?_, fun budget token out h => ?_, fun budget out h => ?_,
    fun budget token ht => run?_of_tripped ht budget,
    engine_run_of_run? (run?_of_tripped rfl 0) (Nat.zero_le _)⟩
  · obtain ⟨result, tree, h⟩ :=
      Search.exists_grows tripped answer q.relus tolerances.relu (allUndecided q.relus)
    exact ⟨result, tree, fun _ _ hlinear => ⟨_, runWith_of_grows h hlinear, accounts_of_grows h⟩⟩
  · obtain ⟨answer, pivots, result, tree, hlinear, hgrows, rfl⟩ := exists_tree_of_runWith h
    exact ⟨answer, pivots, result, tree, hlinear, accounts_of_grows hgrows⟩
  · refine ⟨?_, engine_run_of_run? h⟩
    obtain ⟨answer, pivots, result, tree, hlinear, hgrows, rfl⟩ := exists_tree_of_runWith h
    refine SearchResult.interrupted_output.mpr
      (hgrows.ne_interrupted (fun _ _ => rfl) fun phases hmem ha => ?_)
    obtain ⟨_, ht⟩ := Simplex.exists_tripped_of_check (hlinear phases hmem) ha
    cases ht

end Reference

end ReluVerify
