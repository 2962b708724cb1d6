import PrivateHistogram.Proofs.Aggregation.Outcomes
import PrivateHistogram.Proofs.PointFunction.Refinement

/-! Rounds one after the other, some accepted and some not. Whatever is asked for, the context stays as the last accepted
    round has left it, and what is kept for a key half are nodes of its own (`Reached`); each accepted round goes down
    from there (`follows_of_aggregate`). -/

namespace PrivateHistogram.Aggregation

open PointFunction

structure Call where
  expansion : Expansion
  combine : CombineParams
  noise : Noise

/-- Rounds over one context, each with its result. -/
def rounds (F : PointFunction BucketShare) :
    List Call → EvaluationContext → Draw (List (Except Error PartialHistogram) × EvaluationContext)
  | [], context => return ([], context)
  | call :: calls, context => do
    let (result, context) ← aggregate F call.expansion call.combine call.noise context
    let (results, context) ← rounds F calls context
    return (result :: results, context)

/-- The histogram of the last round that has been accepted. -/
def lastAccepted (results : List (Except Error PartialHistogram)) : Option PartialHistogram :=
  (results.filterMap Except.toOption).getLast?

variable {F : PointFunction BucketShare} {records : List KeyRecord} {last : Option PartialHistogram}
  {context context' : EvaluationContext} {tape rest : RandomTape}

theorem rounds_cons (call : Call) (calls : List Call) :
    rounds F (call :: calls) context tape =
      let first := aggregate F call.expansion call.combine call.noise context tape
      let others := rounds F calls first.1.2 first.2
      ((first.1.1 :: others.1.1, others.1.2), others.2) := rfl

theorem lastAccepted_cons (result : Except Error PartialHistogram) (results : List (Except Error PartialHistogram)) :
    lastAccepted (result :: results) = (lastAccepted results).or result.toOption := by
  cases result with
  | error error => simp [lastAccepted, Except.toOption]
  | ok h =>
    simp only [lastAccepted, List.filterMap_cons, Except.toOption, List.getLast?_cons]
    cases (List.filterMap Except.toOption results).getLast? <;> rfl

/-! ### One round -/

/-- A context after some rounds, the last accepted of which has put out a histogram: no key half has been lost, only nodes
    that are reached with a half are kept for it, and the next round starts from the buckets of the histogram. -/
structure Reached (F : PointFunction BucketShare) (records : List KeyRecord) (last : Option PartialHistogram)
    (context : EvaluationContext) : Prop where
  records_eq : context.records = records
  sound : SoundAll F records context.caches
  fresh : last = none → context.previousLevel = none ∧ context.expanded = #[]
  stopped : ∀ h ∈ last, ∃ p : Plan, p.Fits F.domain ∧ context.previousLevel = some p.level ∧
    context.expanded = p.buckets ∧ h.bucketBits = p.targetBits ∧ h.buckets.keys = p.buckets.toList

theorem reached_ofRecords (F : PointFunction BucketShare) (records : List KeyRecord) :
    Reached F records none (.ofRecords records) where
  records_eq := rfl
  sound := soundAll_empty F records
  fresh _ := ⟨rfl, rfl⟩
  stopped _ hh := nomatch hh

namespace Reached
variable (hreached : Reached F records last context)
include hreached

theorem previous : Stopped F.domain context.previous := by
  intro found hfound
  cases hlast : last with
  | none =>
    rw [EvaluationContext.previous, (hreached.fresh hlast).1] at hfound
    cases hfound
  | some h =>
    obtain ⟨p, hp, hlevel, hexpanded, -, -⟩ := hreached.stopped h hlast
    rw [EvaluationContext.previous, hlevel, hexpanded] at hfound
    cases hfound
    exact ⟨p, hp, rfl⟩

theorem soundAll : SoundAll F context.records context.caches := hreached.records_eq.symm ▸ hreached.sound

theorem aggregate_ok {call : Call} {h : PartialHistogram}
    (hrun : aggregate F call.expansion call.combine call.noise context tape = ((.ok h, context'), rest)) :
    ∃ p, call.expansion.plan F.domain.hierarchy context.previous = .ok p ∧ p.Fits F.domain ∧
      context'.previousLevel = some p.level ∧ context'.expanded = p.buckets ∧ h.bucketBits = p.targetBits ∧
      h.buckets.keys = p.buckets.toList := by
  obtain ⟨p, hplan, hp, hlevel, hexpanded, hbits, -, hkeys⟩ := exists_plan_of_aggregate hreached.previous hrun
  exact ⟨p, hplan, hp, hlevel, hexpanded, hbits, hkeys⟩

/-- A round without noise that is accepted puts out the totals of all key halves, labelled with the smallest reports. -/
theorem isHistogram {e : Expansion} {c : CombineParams} {h : PartialHistogram}
    (hrun : Aggregation.aggregate F e c .none context tape = ((.ok h, context'), rest)) :
    ∃ p, e.plan F.domain.hierarchy context.previous = .ok p ∧ p.Fits F.domain ∧ IsHistogram F p records h.labels h ∧
      Labels.Smallest (planLabels F p (records.filterMap KeyRecord.label)) h.labels := by
  obtain ⟨p, result, boundaries, caches, hplan, htotals, hhistogram, -⟩ := Aggregation.aggregate_ok hrun
  obtain ⟨hvalidate, -, hplan⟩ := planRound_iff.mp hplan
  have hp := fits_of_plan hreached.previous hplan
  have hresult := toList_of_totals hp (segmentLength_of_validate hvalidate) hreached.soundAll htotals
  have hlabels : context.labels = records.filterMap KeyRecord.label := by
    rw [EvaluationContext.labels, hreached.records_eq]
  rw [hreached.records_eq] at hresult
  rw [hlabels] at hhistogram
  have heq := histogram_eq hp hresult (records.filterMap KeyRecord.label) boundaries tape
  rcases hadd : Labels.addAll (planLabels F p (records.filterMap KeyRecord.label)) ∅ with ⟨e' | u, labels⟩
  · rw [hadd] at heq
    cases heq.symm.trans hhistogram
  · rw [hadd] at heq
    obtain ⟨h', hh, hrun'⟩ := heq
    cases hrun'.symm.trans hhistogram
    exact ⟨p, hplan, hp, hh.labels ▸ hh, hh.labels ▸ Labels.smallest_of_addAll hadd⟩

theorem aggregate (call : Call) (tape : RandomTape) :
    let round := aggregate F call.expansion call.combine call.noise context tape
    Reached F records (round.1.1.toOption.or last) round.1.2 := by
  have hsound := ((alike_refl hreached.soundAll).aggregate call.expansion call.combine call.noise tape).2.2.first
  rcases hrun : Aggregation.aggregate F call.expansion call.combine call.noise context tape with ⟨⟨result, context'⟩, rest⟩
  rw [hrun] at hsound
  cases result with
  | error error =>
    obtain ⟨caches, rfl⟩ := aggregate_error hrun
    exact ⟨hreached.records_eq, hreached.records_eq ▸ hsound, hreached.fresh, hreached.stopped⟩
  | ok h =>
    obtain ⟨p, -, hp, hlevel, hexpanded, hbits, hkeys⟩ := hreached.aggregate_ok hrun
    obtain ⟨_, _, _, caches, _, _, _, rfl⟩ := Aggregation.aggregate_ok hrun
    refine ⟨hreached.records_eq, hreached.records_eq ▸ hsound, fun hnone => (nomatch hnone), fun h' hh => ?_⟩
    cases hh
    exact ⟨p, hp, hlevel, hexpanded, hbits, hkeys⟩

theorem of_aggregate {e : Expansion} {c : CombineParams} {n : Noise} {h : PartialHistogram}
    (hrun : Aggregation.aggregate F e c n context tape = ((.ok h, context'), rest)) :
    Reached F records (some h) context' := by
  have hnext := hreached.aggregate ⟨e, c, n⟩ tape
  rw [hrun] at hnext
  exact hnext

theorem rounds (calls : List Call) (tape : RandomTape) :
    Reached F records ((lastAccepted (Aggregation.rounds F calls context tape).1.1).or last)
      (Aggregation.rounds F calls context tape).1.2 := by
  induction calls generalizing last context tape with
  | nil => exact hreached
  | cons call calls ih =>
    rw [rounds_cons, lastAccepted_cons, Option.or_assoc]
    exact ih (hreached.aggregate call tape) _

/-- An accepted round goes down to a level that follows, and its buckets are below those of the round before. -/
theorem follows_of_aggregate {call : Call} {h : PartialHistogram}
    (hrun : Aggregation.aggregate F call.expansion call.combine call.noise context tape = ((.ok h, context'), rest)) :
    (∃ level', context'.previousLevel = some level' ∧ ∀ level ∈ context.previousLevel, level < level') ∧
      ∀ g ∈ last, g.bucketBits < h.bucketBits ∧
        ∀ b ∈ h.buckets.keys, ancestor h.bucketBits.toNat b g.bucketBits.toNat ∈ g.buckets.keys := by
  obtain ⟨p, hplan, hp, hlevel, -, hbits, hkeys⟩ := hreached.aggregate_ok hrun
  cases hlast : last with
  | none =>
    refine ⟨⟨p.level, hlevel, fun level hprevious => ?_⟩, fun g hg => nomatch hg⟩
    rw [(hreached.fresh hlast).1] at hprevious
    cases hprevious
  | some g =>
    obtain ⟨before, hbefore, hprevious, hexpanded, hbits', hkeys'⟩ := hreached.stopped g hlast
    rw [EvaluationContext.previous, hprevious, hexpanded] at hplan
    obtain ⟨hlt, hlt', habove⟩ := Plan.follows_of_plan hbefore hplan
    refine ⟨⟨p.level, hlevel, fun level hfound => ?_⟩, fun g' hg => ?_⟩
    · cases hprevious.symm.trans hfound
      exact hlt
    · cases hg
      rw [hbits, hbits', hkeys, hkeys']
      exact ⟨hlt', habove⟩

end Reached

/-! ### Runs -/

/-- What a context holds after any rounds: the caches are those of the key halves, in their order, and each node that is
    kept is the one that is found without a cache; the last accepted round has stopped at a level of the domain, and
    its buckets are in increasing order and in the domain at that level. -/
structure Consistent (F : PointFunction BucketShare) (records : List KeyRecord) (last : Option PartialHistogram)
    (context : EvaluationContext) : Prop where
  records_eq : context.records = records
  nodes : List.Forall₂ (fun r c => ∀ bits path s, c.get? bits path = some s → s = F.nodeAt r.key bits.toNat path .empty)
    records context.caches
  stopped : match context.previousLevel with
    | none => last = none ∧ context.expanded = #[]
    | some level => ∃ h, last = some h ∧ F.domain.hierarchy.levelBits level = .ok h.bucketBits ∧
        context.expanded.toList = h.buckets.keys ∧ context.expanded.toList.Pairwise (· < ·) ∧
        ∀ q ∈ context.expanded.toList, q.toNat < 2 ^ h.bucketBits.toNat

theorem Reached.consistent (hreached : Reached F records last context) : Consistent F records last context where
  records_eq := hreached.records_eq
  nodes := hreached.sound.imp fun r c hc bits path s hs => (hc bits path s hs).trans (nodeAt_empty _ _).symm
  stopped := by
    cases hlast : last with
    | none =>
      obtain ⟨hlevel, hexpanded⟩ := hreached.fresh hlast
      rw [hlevel]
      exact ⟨rfl, hexpanded⟩
    | some h =>
      obtain ⟨p, hp, hlevel, hexpanded, hbits, hkeys⟩ := hreached.stopped h hlast
      rw [hlevel, hexpanded]
      refine ⟨h, rfl, hbits ▸ hp.level, hkeys.symm, hp.pairwise_buckets, fun q hq => ?_⟩
      obtain ⟨i, hi, rfl⟩ := Plan.mem_buckets.mp hq
      exact hbits ▸ hp.toNat_bucket_lt hi

/-- Whatever rounds have been asked for, accepted or not, the context is consistent, and the next round that is accepted
    goes to a level that follows and puts out buckets below those of the last accepted one. -/
theorem rounds_consistent (F : PointFunction BucketShare) (records : List KeyRecord) (calls : List Call)
    (tape : RandomTape) :
    let run := rounds F calls (.ofRecords records) tape
    let last := lastAccepted run.1.1
    Consistent F records last run.1.2 ∧
    ∀ (call : Call) (tape' rest : RandomTape) (h : PartialHistogram) (context' : EvaluationContext),
      aggregate F call.expansion call.combine call.noise run.1.2 tape' = ((.ok h, context'), rest) →
      (∃ level', context'.previousLevel = some level' ∧ ∀ level ∈ run.1.2.previousLevel, level < level') ∧
      ∀ g ∈ last, g.bucketBits < h.bucketBits ∧
        ∀ b ∈ h.buckets.keys, ancestor h.bucketBits.toNat b g.bucketBits.toNat ∈ g.buckets.keys := by
  intro run last
  have hreached := (reached_ofRecords F records).rounds calls tape
  rw [Option.or_none] at hreached
  exact ⟨hreached.consistent, fun call tape' rest h context' hrun => hreached.follows_of_aggregate hrun⟩

/-- A round over one key half at the first of two levels, and one that goes on from there. -/
theorem rounds_consistent_two :
    let F : PointFunction BucketShare := ⟨.oneThree, .standard BucketShare⟩
    let key := (F.keysFrom 5 ⟨.ofNat 7, 1⟩ (Octets.zero 16) (Octets.zero 16)).1
    let records : List KeyRecord := [⟨⟨Octets.zero 16⟩, key, none⟩]
    let first : Call := ⟨⟨[0], [[]], none⟩, .default, .none⟩
    let second : Call := ⟨⟨[1], [[]], some 0⟩, .default, .none⟩
    let tape : RandomTape := ⟨fun _ => 0, 0, none⟩
    ∃ g h context' context'', rounds F [first] (.ofRecords records) tape = (([.ok g], context'), tape) ∧
      aggregate F second.expansion second.combine second.noise context' tape = ((.ok h, context''), tape) ∧
      (∃ level', context''.previousLevel = some level' ∧ ∀ level ∈ context'.previousLevel, level < level') ∧
      ∀ b ∈ h.buckets.keys, ancestor h.bucketBits.toNat b g.bucketBits.toNat ∈ g.buckets.keys := by
  intro F key records first second tape
  have hvalidate : CombineParams.default.validate = .ok () := rfl
  have hplan : first.expansion.plan F.domain.hierarchy none = .ok ⟨0, 0, #[0], 1⟩ := rfl
  have hplan' : second.expansion.plan F.domain.hierarchy (some (0, #[0, 1])) = .ok ⟨1, 1, #[0, 1], 3⟩ := rfl
  have hsettled : Settled F (.ofRecords records) :=
    settled_ofRecords (List.forall_mem_singleton.mpr (checkKey_keysFrom F 5 _ _ _).1)
  obtain ⟨g, -, caches, hfirst, -, -⟩ := aggregate_of_agree hsettled
    ((planRound_eq_ok hsettled).mpr ⟨hvalidate, hplan⟩) (fun b l l' hl => nomatch hl) tape
  obtain ⟨-, -, -, -, -, hsettled', -, -⟩ := settled_of_aggregate hsettled hfirst
  obtain ⟨h, -, caches', hsecond, -, -⟩ := aggregate_of_agree hsettled'
    ((planRound_eq_ok hsettled').mpr ⟨hvalidate, hplan'⟩) (fun b l l' hl => nomatch hl) tape
  have hrun : rounds F [first] (.ofRecords records) tape =
      (([.ok g], { EvaluationContext.ofRecords records with caches, previousLevel := some 0, expanded := #[0, 1] }),
        tape) := by
    rw [rounds_cons, hfirst]
    rfl
  have hnext := (rounds_consistent F records [first] tape).2 second tape tape h _ (by rw [hrun]; exact hsecond)
  rw [hrun] at hnext
  exact ⟨g, h, _, _, hrun, hsecond, hnext.1, (hnext.2 g rfl).2⟩

end PrivateHistogram.Aggregation
