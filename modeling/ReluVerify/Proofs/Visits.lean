import ReluVerify.Proofs.Advisories
import ReluVerify.Proofs.Trace

namespace ReluVerify

variable {α : Type} [Scalar α] {σ : Type}

namespace Campaign

variable {host : Host (StateM σ) α} {config : CampaignConfig α} {pra : Advisory α}
  {candidates : List (Advisory α)}

theorem ends_trivial {ε τ β : Type} (step : ExceptT ε (StateM τ) β) :
    Ends (fun _ => True) step (fun _ => True) (fun _ => True) := by
  intro s _
  rcases step.run s with ⟨_ | _, _⟩ <;> exact ⟨trivial, trivial⟩

theorem ends_encode {a : Advisory α} (hrate : a.boundsRate = true) (position : ℕ)
    (c : Constants α) : Ends (fun _ => True) (Property.encode a position c)
      (fun encoding => encoding ≠ none) (fun _ => True) := by
  unfold Property.encode
  simp only [hrate, Bool.not_true, Bool.false_eq_true, if_false]
  refine (ends_trivial get).bind fun n _ => ?_
  split
  · split
    · exact fun _ _ => ⟨trivial, trivial⟩
    · exact (ends_trivial _).bind fun _ _ => (ends_trivial _).bind fun _ _ =>
        (ends_trivial _).bind fun _ _ => (ends_trivial _).bind fun _ _ =>
          ends_pure (Option.some_ne_none _)
  · exact fun _ _ => ⟨trivial, trivial⟩

theorem question_ne_none {k : Candidate α} {n : Network α} {c : Constants α}
    (hrate : k.advisory.boundsRate = true) : question c k n ≠ .ok none := by
  have hencode := ends_encode hrate k.position c n trivial
  unfold question
  rcases hrun : (Property.encode k.advisory k.position c).run n with ⟨e | _ | encoding, n'⟩
  · exact nofun
  · rw [hrun] at hencode
    exact absurd rfl hencode.1
  · exact nofun

theorem outcome_ne_skipped {c : Constants α} {n : Network α} (v : Verdict α) :
    outcome c candidates n v ≠ .ok .skipped := by
  cases v with
  | unsat => exact nofun
  | earlyTermination => exact nofun
  | sat a =>
    intro h
    change (counterexample c candidates n a).map Outcome.sat = _ at h
    cases hcex : counterexample c candidates n a with
    | error e => rw [hcex] at h; cases h
    | ok cex => rw [hcex] at h; cases h

end Campaign

structure Visit (α : Type) where
  advisory : Advisory α
  begun : Option (Failure α)
  consulted : List (Event α)
  recorded : Option (VerdictRecord α × Option (Failure α))

def Visit.events (pra : Advisory α) (v : Visit α) : List (Event α) :=
  ⟨.begin pra v.advisory, v.begun⟩ ::
    (v.consulted ++ v.recorded.toList.map fun r => ⟨.record r.1, r.2⟩)

namespace Campaign

inductive Solves (log : Option String) :
    List (Event α) → Except (Failure α) (Verdict α) → Prop
  | refused {e : Failure α} : Solves log [] (.error e)
  | unlogged {q : Query α} {out : EngineOutput α} {path : String} {e : Failure α}
      (hlog : log = some path) :
      Solves log [⟨.solve q, none⟩, ⟨.writeLog path ⟨q, out⟩, some e⟩] (.error e)
  | answered {q : Query α} {out : EngineOutput α} :
      Solves log (⟨.solve q, none⟩ :: log.toList.map (⟨.writeLog · ⟨q, out⟩, none⟩))
        (.ok (Verdict.ofOutput out))

theorem traces_solve (log : Option String) (n : Network α) :
    Traces (solve host.traced log n) (solve host log n) (Solves log) := by
  unfold solve
  refine (traces_silent _).bind (fun events e h => ?_) fun events q h => ?_
  · rw [h.1]
    exact .refused
  obtain ⟨rfl, -⟩ := h
  refine (host.traces_solve q).bind (fun events e h => nomatch h.2) fun events out h => ?_
  obtain ⟨rfl, -⟩ := h
  cases log with
  | none =>
    refine (traces_silent (.ok (Verdict.ofOutput out))).imp fun events r h => ?_
    rw [h.1, h.2]
    exact .answered
  | some path =>
    refine (traces_logged (.writeLog path ⟨q, out⟩) (host.writeLog path ⟨q, out⟩)).bind
      (fun events e h => ?_) fun events _ h => ?_
    · rw [h]
      exact .unlogged rfl
    · refine (traces_silent (.ok (Verdict.ofOutput out))).imp fun events' r h' => ?_
      rw [h, h'.1, h'.2]
      exact .answered

inductive Checks (config : CampaignConfig α) (pra advisory : Advisory α) :
    List (Event α) → Except (Failure α) (Outcome α) → Prop
  | skipped (hrate : advisory.boundsRate = false) : Checks config pra advisory [] (.ok .skipped)
  | unloaded {e : Failure α} (hrate : advisory.boundsRate = true) :
      Checks config pra advisory [⟨.load pra.index, some e⟩] (.error e)
  | refused {e : Failure α} (hrate : advisory.boundsRate = true) :
      Checks config pra advisory [⟨.load pra.index, none⟩] (.error e)
  | unsolved {events : List (Event α)} {e : Failure α} (hrate : advisory.boundsRate = true)
      (h : Solves (config.logPath pra advisory) events (.error e)) :
      Checks config pra advisory (⟨.load pra.index, none⟩ :: events) (.error e)
  | solved {events : List (Event α)} {v : Verdict α} {r : Except (Failure α) (Outcome α)}
      (hrate : advisory.boundsRate = true)
      (h : Solves (config.logPath pra advisory) events (.ok v)) (hr : r ≠ .ok .skipped) :
      Checks config pra advisory (⟨.load pra.index, none⟩ :: events) r

theorem traces_check (k : Candidate α) :
    Traces (check host.traced config pra candidates k) (check host config pra candidates k)
      (Checks config pra k.advisory) := by
  unfold check
  cases hrate : k.advisory.boundsRate with
  | false =>
    refine (traces_silent (.ok Outcome.skipped)).imp fun events r h => ?_
    rw [h.1, h.2]
    exact .skipped hrate
  | true =>
    refine (traces_logged (.load pra.index) (host.load pra.index)).bind
      (fun events e h => ?_) fun events n h => ?_
    · rw [h]
      exact .unloaded hrate
    subst h
    have hrefused : ∀ {β : Type} (x : Except (Failure α) β) events e,
        (events = [] ∧ .error e = x) → Checks config pra k.advisory
          ([⟨.load pra.index, none⟩] ++ events) (.error e) := by
      rintro _ _ _ e ⟨rfl, -⟩
      exact .refused hrate
    split
    · exact (traces_silent (.error _)).bind (hrefused (.error _)) fun _ _ h => nomatch h.2
    · refine (traces_silent (question config.constants k n)).bind (hrefused _) fun events asked h => ?_
      obtain ⟨rfl, hasked⟩ := h
      cases asked with
      | none => exact absurd hasked.symm (question_ne_none hrate)
      | some n =>
        refine (traces_solve (config.logPath pra k.advisory) n).bind
          (fun events e h => .unsolved hrate h) fun events v h => ?_
        refine (traces_silent (outcome config.constants candidates n v)).imp fun events' r h' => ?_
        rw [h'.1, h'.2, List.append_nil]
        exact .solved hrate h (outcome_ne_skipped v)

inductive Visits (config : CampaignConfig α) (pra : Advisory α) : List (Advisory α) →
    List (Visit α) → Except (Failure α) (List (VerdictRecord α) × Bool) → Prop
  | done : Visits config pra [] [] (.ok ([], false))
  | unbegun {a : Advisory α} {rest : List (Advisory α)} {e : Failure α} :
      Visits config pra (a :: rest) [⟨a, some e, [], none⟩] (.error e)
  | unchecked {a : Advisory α} {rest : List (Advisory α)} {consulted : List (Event α)}
      {e : Failure α} (h : Checks config pra a consulted (.error e)) :
      Visits config pra (a :: rest) [⟨a, none, consulted, none⟩] (.error e)
  | unrecorded {a : Advisory α} {rest : List (Advisory α)} {consulted : List (Event α)}
      {o : Outcome α} {e : Failure α} (h : Checks config pra a consulted (.ok o)) :
      Visits config pra (a :: rest) [⟨a, none, consulted, some (⟨pra, a, o⟩, some e)⟩] (.error e)
  | aborted {a : Advisory α} {rest : List (Advisory α)} {consulted : List (Event α)}
      {o : Outcome α} (h : Checks config pra a consulted (.ok o))
      (hearly : o.isEarlyTermination = true) :
      Visits config pra (a :: rest) [⟨a, none, consulted, some (⟨pra, a, o⟩, none)⟩]
        (.ok ([⟨pra, a, o⟩], true))
  | next {a : Advisory α} {rest : List (Advisory α)} {consulted : List (Event α)}
      {o : Outcome α} {visits : List (Visit α)}
      {r : Except (Failure α) (List (VerdictRecord α) × Bool)}
      (h : Checks config pra a consulted (.ok o)) (hlater : o.isEarlyTermination = false)
      (hrest : Visits config pra rest visits r) :
      Visits config pra (a :: rest) (⟨a, none, consulted, some (⟨pra, a, o⟩, none)⟩ :: visits)
        (r.map fun p => (⟨pra, a, o⟩ :: p.1, p.2))

theorem traces_visit (ks : List (Candidate α)) :
    Traces (visit host.traced config pra candidates ks) (visit host config pra candidates ks)
      (fun events r => ∃ visits, events = visits.flatMap (Visit.events pra) ∧
        Visits config pra (ks.map Candidate.advisory) visits r) := by
  induction ks with
  | nil =>
    refine (traces_silent (.ok ([], false))).imp fun events r h => ?_
    rw [h.1, h.2]
    exact ⟨[], rfl, .done⟩
  | cons k rest ih =>
    unfold visit
    refine (traces_logged (.begin pra k.advisory) (host.begin pra k.advisory)).bind
      (fun events e h => ⟨[⟨k.advisory, some e, [], none⟩], h, .unbegun⟩) fun events _ h => ?_
    subst h
    refine (traces_check k).bind (fun events e h => ⟨[_], ?_, .unchecked h⟩) fun events o ho => ?_
    · simp [Visit.events, failure?]
    refine (traces_logged (.record ⟨pra, k.advisory, o⟩) (host.record ⟨pra, k.advisory, o⟩)).bind
      (fun events' e h => ⟨[_], ?_, .unrecorded ho⟩) fun events' _ h => ?_
    · rw [h]
      simp [Visit.events, failure?]
    subst h
    cases hearly : o.isEarlyTermination with
    | true =>
      refine (traces_silent (.ok ([VerdictRecord.mk pra k.advisory o], true))).imp fun events' r h => ?_
      rw [h.1, h.2]
      refine ⟨[_], ?_, .aborted ho hearly⟩
      simp [Visit.events, failure?]
    | false =>
      refine ih.bind (fun events' e h => ?_) fun events' p h => ?_
      · obtain ⟨visits, rfl, hvisits⟩ := h
        refine ⟨_ :: visits, ?_, .next ho hearly hvisits⟩
        simp [Visit.events, failure?]
      · obtain ⟨visits, rfl, hvisits⟩ := h
        refine (traces_silent (.ok (VerdictRecord.mk pra k.advisory o :: p.1, p.2))).imp fun events' r h => ?_
        rw [h.1, h.2]
        refine ⟨_ :: visits, ?_, .next ho hearly hvisits⟩
        simp [Visit.events, failure?]

end Campaign

end ReluVerify
