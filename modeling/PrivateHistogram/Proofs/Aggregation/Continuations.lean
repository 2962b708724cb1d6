import PrivateHistogram.Proofs.Aggregation.Failures
import PrivateHistogram.Proofs.PointFunction.Continuations

/-! One round through many levels is as good as several rounds through some of them each. A round goes by its plan and by
    the key halves, so a round that reaches the same plan from further up gives the same (`aggregate_of_planRound`), and a
    round through some levels and then others does what the second of two rounds does (`aggregate_append`). -/

namespace PrivateHistogram.Aggregation

open PointFunction

variable {F : PointFunction BucketShare} {context : EvaluationContext} {e e' : Expansion} {c : CombineParams}

/-- A round that starts elsewhere with the same nodes, and has the same plan, gives the same; if it is accepted, it also
    stops at the same place. -/
theorem aggregate_of_planRound {previousLevel : Option UInt64} {expanded : Array UInt64} (n : Noise) (tape : RandomTape)
    (hplan : planRound F context e c = planRound F { context with previousLevel, expanded } e' c) :
    let round := aggregate F e c n context tape
    let other := aggregate F e' c n { context with previousLevel, expanded } tape
    round.1.1 = other.1.1 ∧ round.2 = other.2 ∧ ∀ h, other.1.1 = .ok h → round.1.2 = other.1.2 := by
  have htotals : ∀ p, totals F p c { context with previousLevel, expanded } = totals F p c context := fun _ => rfl
  have hlabels : ({ context with previousLevel, expanded } : EvaluationContext).labels = context.labels := rfl
  simp only [aggregate_run, hplan, htotals, hlabels]
  rcases planRound F { context with previousLevel, expanded } e' c with error | p
  · exact ⟨rfl, rfl, nofun⟩
  · dsimp only
    rcases totals F p c context with ⟨error | ⟨result, boundaries⟩, caches⟩
    · exact ⟨rfl, rfl, nofun⟩
    · dsimp only
      rcases histogram F p n context.labels result boundaries tape with ⟨error | h, rest⟩
      · exact ⟨rfl, rfl, nofun⟩
      · exact ⟨rfl, rfl, fun _ _ => rfl⟩

/-- After any rounds, and one through the levels of `a` that is accepted, a round through those of `b` gives what one
    through all of them gives, started where the first was: it is refused for the same reason, or puts out the same
    histogram and stops at the same buckets, and no later round can tell which of the two it was. -/
theorem aggregate_append (F : PointFunction BucketShare) (records : List KeyRecord) (before : List Call)
    (start : RandomTape)
    (a b : List (UInt64 × List UInt64)) (hb : b ≠ []) (previousLevel : Option UInt64) (c c' : CombineParams) (n n' : Noise)
    (tape rest tape' : RandomTape) (g : PartialHistogram) (context' : EvaluationContext)
    (hfirst : aggregate F (.ofSteps a previousLevel) c n (rounds F before (.ofRecords records) start).1.2 tape =
      ((.ok g, context'), rest)) :
    let context := (rounds F before (.ofRecords records) start).1.2
    ∃ level, context'.previousLevel = some level ∧
      let whole := aggregate F (.ofSteps (a ++ b) previousLevel) c' n' context tape'
      let second := aggregate F (.ofSteps b (some level)) c' n' context' tape'
      whole.1.1 = second.1.1 ∧ whole.2 = second.2 ∧
      ∀ h, second.1.1 = .ok h →
        whole.1.2.records = second.1.2.records ∧ whole.1.2.previousLevel = second.1.2.previousLevel ∧
        whole.1.2.expanded = second.1.2.expanded ∧
        ∀ later tape, (rounds F later whole.1.2 tape).1.1 = (rounds F later second.1.2 tape).1.1 := by
  intro context
  have hreached := (reached_ofRecords F records).rounds before start
  have hnext := hreached.of_aggregate hfirst
  obtain ⟨p, result, boundaries, caches, hplan, -, -, rfl⟩ := aggregate_ok hfirst
  have hexpansion := (planRound_iff.mp hplan).2.2
  -- The nodes of the start, at the place where the first round has stopped.
  let middle : EvaluationContext := { context with previousLevel := some p.level, expanded := p.buckets }
  have hround : planRound F context (.ofSteps (a ++ b) previousLevel) c' =
      planRound F middle (.ofSteps b (some p.level)) c' := by
    rw [planRound, Expansion.plan_ofSteps_append hreached.previous hexpansion hb]
    rfl
  have halike : Alike F middle { context with caches, previousLevel := some p.level, expanded := p.buckets } :=
    ⟨rfl, rfl, rfl, hreached.soundAll, hnext.soundAll⟩
  obtain ⟨hresult, htape, hafter⟩ := aggregate_of_planRound n' tape' hround
  obtain ⟨hresult', htape', halike'⟩ := halike.aggregate (.ofSteps b (some p.level)) c' n' tape'
  refine ⟨p.level, rfl, hresult.trans hresult'.symm, htape.trans htape'.symm, fun h hh => ?_⟩
  rw [hafter h (hresult'.symm.trans hh)]
  exact ⟨halike'.records.symm, halike'.previousLevel.symm, halike'.expanded.symm, fun later tape =>
    (halike'.rounds later tape).1.symm⟩

/-- One key half: a round at the first level and one that refines the bucket 1 of it, or both in one. -/
theorem aggregate_append_refined :
    let F : PointFunction BucketShare := ⟨.oneThree, .standard BucketShare⟩
    let key := (F.keysFrom 5 ⟨.ofNat 7, 1⟩ (Octets.zero 16) (Octets.zero 16)).1
    let start := EvaluationContext.ofRecords [⟨⟨Octets.zero 16⟩, key, none⟩]
    let tape : RandomTape := ⟨fun _ => 0, 0, none⟩
    ∃ g h context second whole,
      aggregate F (.ofSteps [(0, [])] none) .default .none start tape = ((.ok g, context), tape) ∧
      aggregate F (.ofSteps [(1, [1])] (some 0)) .default .none context tape = ((.ok h, second), tape) ∧
      aggregate F (.ofSteps [(0, []), (1, [1])] none) .default .none start tape = ((.ok h, whole), tape) ∧
      whole.previousLevel = some 1 ∧ whole.expanded = #[4, 5, 6, 7] := by
  intro F key start tape
  have hvalidate : CombineParams.default.validate = .ok () := rfl
  have hplan : (Expansion.ofSteps [(0, [])] none).plan F.domain.hierarchy none = .ok ⟨0, 0, #[0], 1⟩ := rfl
  have hplan' : (Expansion.ofSteps [(1, [1])] (some 0)).plan F.domain.hierarchy (some (0, #[0, 1])) =
      .ok ⟨1, 1, #[1], 3⟩ := by
    decide +kernel
  have hsettled : Settled F start := settled_ofRecords (List.forall_mem_singleton.mpr (checkKey_keysFrom F 5 _ _ _).1)
  obtain ⟨g, -, caches, hfirst, -, -⟩ := aggregate_of_agree hsettled
    ((planRound_eq_ok hsettled).mpr ⟨hvalidate, hplan⟩) Labels.agree_nil tape
  obtain ⟨-, -, -, -, -, hsettled', -, -⟩ := settled_of_aggregate hsettled hfirst
  obtain ⟨h, -, caches', hsecond, -, -⟩ := aggregate_of_agree hsettled'
    ((planRound_eq_ok hsettled').mpr ⟨hvalidate, hplan'⟩) Labels.agree_nil tape
  obtain ⟨level, hlevel, hresult, htape, hafter⟩ :=
    aggregate_append F start.records [] tape [(0, [])] [(1, [1])] (by decide)
    none .default .default .none .none tape tape tape g _ hfirst
  cases hlevel
  obtain ⟨-, hlevel, hexpanded, -⟩ := hafter h (congrArg (·.1.1) hsecond)
  rw [hsecond] at hresult htape hlevel hexpanded
  exact ⟨g, h, _, _, (aggregate F (.ofSteps [(0, []), (1, [1])] none) .default .none start tape).1.2, hfirst, hsecond,
    Prod.ext (Prod.ext hresult rfl) htape, hlevel, hexpanded⟩

end PrivateHistogram.Aggregation
