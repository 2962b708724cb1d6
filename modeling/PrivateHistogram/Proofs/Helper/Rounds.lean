import PrivateHistogram.Proofs.Aggregation.Releases
import PrivateHistogram.Proofs.Helper.Steps
import PrivateHistogram.Proofs.PointFunction.Refinement

/-! Rounds of both helpers. A helper goes on from its context, or opens its key halves for the first round; as long as
    the contexts of both stay in step, a round that refines buckets of the round before either is too large or gives
    both helpers the histograms of one plan (`aggregateBoth_yields`). -/

namespace PrivateHistogram.Helper

open Aggregation PointFunction

variable {S : Suite}

/-- The context that the next round of a helper starts from. -/
def Current (h : Helper S) (context : EvaluationContext) : Prop :=
  h.context = some context ∨
    h.context = none ∧ EvaluationContext.ofSealed S.transport h.keys.transport h.sealedKeys = .ok context

/-- A round is refused because it goes down more than 24 bits or would put out more than `2 ^ 24` buckets, as it can
    only in a domain of more than 24 bits. -/
def TooLarge (d : Domain) (e : Failure) : Prop :=
  ∃ parents depth, e = .input (.pointFunction (.expansionTooLarge parents depth)) ∧
    (Plan.maxBucketBits < depth ∨ 2 ^ 24 < parents * 2 ^ depth.toNat) ∧ 24 < d.bitLength.toNat

/-! ### One helper -/

theorem choose_eq {c : CombineParams} {ignorePrivacy : Bool} (hvalid : c.validate = .ok ())
    (hnoise : ignorePrivacy = true ∨ c.privacy.isEnabled = false) : Noise.choose c.privacy ignorePrivacy = .ok .none := by
  have hprivacy : c.privacy.validate = .ok () := by
    rw [CombineParams.validate] at hvalid
    split at hvalid
    · cases hvalid
    · exact mapError_eq_ok.mp hvalid
  have hnone : (ignorePrivacy || !c.privacy.isEnabled) = true := by
    rcases hnoise with hnoise | hnoise <;> simp [hnoise]
  rw [Noise.choose, hprivacy]
  simp only [hnone, if_true, bind, Except.bind]
  rfl

/-- A round of a helper is one over its context, if it is not to have noise that cannot be drawn. -/
theorem round_run (d : PointFunction.Domain) (p : RoundParams) (context : EvaluationContext) (tape : RandomTape) :
    Round.aggregate S d.hierarchy p context tape =
      match Noise.choose p.combine.privacy p.ignorePrivacy with
      | .error e => ((.error (.privacyConfig e), context), tape)
      | .ok noise =>
        let round := Aggregation.aggregate (Round.pointFunction S d) p.expand p.combine noise context tape
        ((round.1.1.mapError Failure.ofAggregation, round.1.2), round.2) := by
  rw [Round.aggregate, d.ofHierarchy_eq]
  cases Noise.choose p.combine.privacy p.ignorePrivacy <;> rfl

theorem round_eq {d : Domain} {p : RoundParams} (hnoise : Noise.choose p.combine.privacy p.ignorePrivacy = .ok .none)
    {context context' : EvaluationContext} {result : Except Aggregation.Error PartialHistogram} {tape : RandomTape}
    (hrun : Aggregation.aggregate (Round.pointFunction S d) p.expand p.combine .none context tape =
      ((result, context'), tape)) :
    Round.aggregate S d.hierarchy p context tape = ((result.mapError Failure.ofAggregation, context'), tape) := by
  rw [round_run, hnoise]
  simp only [hrun]

section Aggregate
variable {h : Helper S} {context : EvaluationContext}

/-- A round does to a helper what it does to the context it starts from. -/
theorem run_aggregate (hcurrent : h.Current context) (p : RoundParams) (tape : RandomTape) :
    (aggregate p).run.run h tape =
      let round := Round.aggregate S h.domain.hierarchy p context tape
      ((round.1.1, { h with context := some round.1.2 }), round.2) := by
  have hrest : (do
      let outcome ←
        (Round.aggregate S h.domain.hierarchy p context : Draw (Except Failure PartialHistogram × EvaluationContext))
      set { h with context := some outcome.2 }
      outcome.1 : HelperStep S PartialHistogram).run.run h tape =
        let round := Round.aggregate S h.domain.hierarchy p context tape
        ((round.1.1, { h with context := some round.1.2 }), round.2) := by
    have hdraw : (liftM (Round.aggregate S h.domain.hierarchy p context) : HelperStep S _).run.run h tape =
        ((.ok (Round.aggregate S h.domain.hierarchy p context tape).1, h),
          (Round.aggregate S h.domain.hierarchy p context tape).2) := rfl
    rw [run_bind, hdraw]
    rcases Round.aggregate S h.domain.hierarchy p context tape with ⟨⟨e | histogram, context'⟩, rest⟩ <;> rfl
  have hget : (get : HelperStep S (Helper S)).run.run h tape = ((.ok h, h), tape) := rfl
  rw [aggregate, run_bind, hget]
  rcases hcurrent with hcontext | ⟨hcontext, hopen⟩
  · simp only [hcontext]
    exact hrest
  · simp only [hcontext, hopen]
    exact hrest

theorem run_aggregate_of_refused (hnone : h.context = none) {e : Failure}
    (hopen : EvaluationContext.ofSealed S.transport h.keys.transport h.sealedKeys = .error e) (p : RoundParams)
    (tape : RandomTape) : (aggregate p).run.run h tape = ((.error e, h), tape) := by
  have hget : (get : HelperStep S (Helper S)).run.run h tape = ((.ok h, h), tape) := rfl
  rw [aggregate, run_bind, hget]
  simp only [hnone, hopen]
  rfl

end Aggregate

theorem aggregate_yields {h : Helper S} {context : EvaluationContext} (hcurrent : h.Current context) {p : RoundParams}
    {E : Failure → Prop} {Q : PartialHistogram → Helper S → Prop}
    (hround : Draw.Yields (Round.aggregate S h.domain.hierarchy p context) fun outcome =>
      match outcome.1 with
      | .ok histogram => Q histogram { h with context := some outcome.2 }
      | .error e => E e) :
    StepYields (aggregate p) h E Q := by
  intro tape ht
  have houtcome := hround tape ht
  rw [run_aggregate hcurrent]
  generalize Round.aggregate S h.domain.hierarchy p context tape = round at houtcome ⊢
  rcases round with ⟨⟨e | histogram, context'⟩, rest⟩ <;> exact houtcome

/-! ### Both helpers -/

/-- Two helpers after some rounds, with contexts in step. -/
structure Underway (d : Domain) (one two : List KeyRecord) (a b : EvaluationContext) (state : Helper S × Helper S) :
    Prop where
  paired : Paired (Round.pointFunction S d) (.ofRecords one) (.ofRecords two) a b
  first : state.1.Current a
  second : state.2.Current b
  domain_first : state.1.domain = d
  domain_second : state.2.domain = d

/-- The histogram of one helper for a plan: the totals of its key halves, labelled with its smallest reports. -/
structure IsLabelled (F : PointFunction BucketShare) (plan : Plan) (records : List KeyRecord) (h : PartialHistogram) :
    Prop where
  totals : IsHistogram F plan records h.labels h
  labels : Labels.Smallest (planLabels F plan (records.filterMap KeyRecord.label)) h.labels

/-- A plan that refines some buckets at the next level. -/
structure Refines (d : Domain) (previousLevel : Option UInt64) (buckets : List UInt64) (level : UInt64)
    (bits : UInt32) (plan : Plan) : Prop where
  fits : plan.Fits d
  level : plan.level = level
  targetBits : plan.targetBits = bits
  mem : ∀ x, x.toNat < 2 ^ d.bitLength.toNat →
    (ancestor d.bitLength.toNat x bits.toNat ∈ plan.buckets.toList ↔ d.IsRefined previousLevel buckets x)

theorem aggregate_of_plan {d : Domain} {h : Helper S} {context : EvaluationContext} (hcurrent : h.Current context)
    (hdomain : h.domain = d) (hcontext : Settled (Round.pointFunction S d) context) {p : RoundParams}
    (hvalid : p.combine.validate = .ok ()) (hnoise : Noise.choose p.combine.privacy p.ignorePrivacy = .ok .none)
    {plan : Plan} (hplan : p.expand.plan d.hierarchy context.previous = .ok plan)
    (hagree : Labels.Agree (planLabels (Round.pointFunction S d) plan context.labels)) {E : Failure → Prop} :
    StepYields (aggregate p) h E fun histogram h' => IsLabelled (Round.pointFunction S d) plan context.records histogram ∧
      h'.domain = d ∧ ∃ context', h'.Current context' ∧ Settled (Round.pointFunction S d) context' ∧
        context'.records = context.records ∧ context'.previous = some (plan.level, plan.buckets) := by
  subst hdomain
  refine aggregate_yields hcurrent fun tape ht => ?_
  have hround := (planRound_eq_ok hcontext).mpr ⟨hvalid, hplan⟩
  obtain ⟨histogram, labels, caches, hrun, hhistogram, hlabels⟩ := aggregate_of_agree hcontext hround hagree tape
  obtain ⟨plan', -, hplan', -, -, hsettled, hrecords, hprevious⟩ := settled_of_aggregate hcontext hrun
  cases hround.symm.trans hplan'
  rw [round_eq hnoise hrun]
  refine ⟨⟨⟨?_, ?_⟩, rfl, _, .inl rfl, hsettled, hrecords, hprevious⟩, ht⟩
  · rwa [hhistogram.labels]
  · rwa [hhistogram.labels]

theorem aggregate_of_tooLarge {d : Domain} {h : Helper S} {context : EvaluationContext} (hcurrent : h.Current context)
    (hdomain : h.domain = d) (hcontext : Settled (Round.pointFunction S d) context) {p : RoundParams}
    (hvalid : p.combine.validate = .ok ()) (hnoise : Noise.choose p.combine.privacy p.ignorePrivacy = .ok .none)
    {parents : ℕ} {depth : UInt32}
    (hplan : p.expand.plan d.hierarchy context.previous = .error (.expansionTooLarge parents depth))
    (hlarge : (Plan.maxBucketBits < depth ∨ 2 ^ 24 < parents * 2 ^ depth.toNat) ∧ 24 < d.bitLength.toNat) :
    StepYields (aggregate p) h (TooLarge d) fun _ _ => False := by
  subst hdomain
  have hround : planRound (Round.pointFunction S h.domain) context p.expand p.combine =
      .error (.pointFunction (.expansionTooLarge parents depth)) := by
    rw [planRound_eq hcontext, hvalid]
    exact congrArg (Except.mapError Aggregation.Error.pointFunction) hplan
  refine aggregate_yields hcurrent fun tape ht => ?_
  rw [round_eq hnoise (aggregate_eq_error hround tape)]
  exact ⟨⟨parents, depth, rfl, hlarge⟩, ht⟩

/-- A round that refines buckets of the round before at a level that follows is too large, or both helpers give the
    histograms of one plan and stay in step. -/
theorem aggregateBoth_yields {d : Domain} {reports : List JoinedReport} {one two : List KeyRecord}
    (hexchanged : Exchanged (Round.pointFunction S d) reports one two)
    (hbuckets : ∀ r ∈ reports, ∀ r' ∈ reports,
      d.bucketOf r.aggregationId = d.bucketOf r'.aggregationId → r.aggregationId = r'.aggregationId)
    {a b : EvaluationContext} {state : Helper S × Helper S} (hunder : Underway d one two a b state) {p : DriveParams}
    (hvalid : p.combine.validate = .ok ()) (hnoise : Noise.choose p.combine.privacy p.ignorePrivacy = .ok .none)
    {level : UInt64} {targetBits : UInt32} (htarget : d.hierarchy.levelBits level = .ok targetBits)
    (hnext : ∀ current ∈ a.previous.map Prod.fst, current < level) {selected : List UInt64}
    (hselected : CanRefine a.previous selected) :
    StepYields (aggregateBoth (p.round level (a.previous.map Prod.fst) selected)) state (TooLarge d)
      fun histograms state' => ∃ plan a' b',
        Underway d one two a' b' state' ∧ a'.previous = some (plan.level, plan.buckets) ∧
        Refines d (a.previous.map Prod.fst) selected level targetBits plan ∧
        IsLabelled (Round.pointFunction S d) plan one histograms.1 ∧
        IsLabelled (Round.pointFunction S d) plan two histograms.2 := by
  obtain ⟨hpaired, hfirst, hsecond, hdomainA, hdomainB⟩ := hunder
  have hlabelsA : a.labels = one.filterMap KeyRecord.label := congrArg (List.filterMap _) hpaired.records_first
  have hlabelsB : b.labels = two.filterMap KeyRecord.label := congrArg (List.filterMap _) hpaired.records_second
  rcases Plan.plan_refine hpaired.first.previous htarget hnext hselected with
    ⟨parents, depth, hplan, hlarge⟩ | ⟨plan, hplan, hfits, hlevel, hbits, hrefined⟩
  · have hrefuse := aggregate_of_tooLarge (p := p.round level (a.previous.map Prod.fst) selected) hfirst hdomainA
      hpaired.first hvalid hnoise hplan hlarge
    refine .bind (asFirst_yields hrefuse) ?_
    rintro _ _ ⟨hnever, -⟩
    exact hnever.elim
  · have hagreeA := agree_of_reports hexchanged.labels.1 hbuckets plan
    have hagreeB := agree_of_reports hexchanged.labels.2 hbuckets plan
    rw [← hlabelsA] at hagreeA
    rw [← hlabelsB] at hagreeB
    have hroundA := fun E => aggregate_of_plan (p := p.round level (a.previous.map Prod.fst) selected) (E := E)
      hfirst hdomainA hpaired.first hvalid hnoise hplan hagreeA
    refine .bind (asFirst_yields (hroundA _)) ?_
    rintro histogramA ⟨helperA, helperB⟩ ⟨⟨hhistogramA, hdomainA, a', hcurrentA, hsettledA, hrecordsA, hpreviousA⟩, hsame⟩
    obtain rfl : helperB = state.2 := hsame
    rw [hpaired.previous] at hplan hrefined ⊢
    have hroundB := fun E => aggregate_of_plan (p := p.round level (b.previous.map Prod.fst) selected) (E := E)
      hsecond hdomainB hpaired.second hvalid hnoise hplan hagreeB
    refine .bind (asSecond_yields (hroundB _)) ?_
    rintro histogramB ⟨helperA', helperB'⟩ ⟨⟨hhistogramB, hdomainB, b', hcurrentB, hsettledB, hrecordsB, hpreviousB⟩, hsame⟩
    obtain rfl : helperA' = helperA := hsame
    rw [hpaired.records_first] at hrecordsA hhistogramA
    rw [hpaired.records_second] at hrecordsB hhistogramB
    exact .pure ⟨plan, a', b', ⟨⟨hsettledA, hsettledB, hrecordsA, hrecordsB, hpreviousA.trans hpreviousB.symm⟩,
      hcurrentA, hcurrentB, hdomainA, hdomainB⟩, hpreviousA, ⟨hfits, hlevel, hbits, hrefined⟩, hhistogramA, hhistogramB⟩

end PrivateHistogram.Helper
