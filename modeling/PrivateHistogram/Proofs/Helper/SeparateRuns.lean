import PrivateHistogram.Proofs.Helper.Coverage

/-! Rounds that are run apart from a helper. Each run is given the sealed key halves, or the context that the last run to
    succeed has given back, as a value or as JSON, whereas a helper goes on with one context whether its rounds succeed or
    fail. Without noise no result tells the two apart (`separately_eq_serve`): what a failed round leaves in the context
    of a helper only saves work, and a context is read back as it was written. -/

namespace PrivateHistogram

/-! ### Runs -/

namespace Round

/-- How a context is handed over to a run. -/
inductive Handover
  | value
  /-- It is written as JSON and read again. -/
  | json

namespace Handover

def pass : Handover → EvaluationContext → Option EvaluationContext
  | .value, context => some context
  | .json, context => Codec.ofBytes? (Codec.toBytes context)

/-- What a run is given: a context if there is one, or else the key halves. There is nothing to be given where a context is
    not read back. -/
def input? (handover : Handover) (halves : List SealedKey) : Option EvaluationContext → Option Input
  | none => some (.sealedKeys halves)
  | some context => (handover.pass context).map .context

theorem pass_eq (handover : Handover) (context : EvaluationContext) : handover.pass context = some context := by
  cases handover with
  | value => rfl
  | json => exact Codec.ofBytes?_toBytes context

end Handover

/-- Rounds over the same sealed key halves, each run on its own with the context that the last of them to succeed has given
    back, or with the key halves if none has. There are no results where a context is not read back. -/
def separately (S : Suite) (hierarchy : PointFunction.Hierarchy) (keys : KeyMaterial) (halves : List SealedKey) :
    List (RoundParams × Handover) → (last : Option EvaluationContext) →
    Draw (Option (List (Except Failure PartialHistogram)))
  | [], _ => return some []
  | (p, handover) :: rounds, last => do
    match handover.input? halves last with
    | none => return none
    | some input =>
      match ← (run S hierarchy keys p input).run with
      | .error e => return (← separately S hierarchy keys halves rounds last).map (.error e :: ·)
      | .ok (histogram, context) =>
        return (← separately S hierarchy keys halves rounds (some context)).map (.ok histogram :: ·)

section Run
variable {S : Suite} {hierarchy : PointFunction.Hierarchy} {keys : KeyMaterial} {halves : List SealedKey}

theorem run_context (p : RoundParams) (context : EvaluationContext) (tape : RandomTape) :
    (run S hierarchy keys p (.context context)).run tape =
      let outcome := aggregate S hierarchy p context tape
      (outcome.1.1.map (·, outcome.1.2), outcome.2) := by
  have hdraw : (liftM (aggregate S hierarchy p context) : TryDraw Failure _) tape =
      (.ok (aggregate S hierarchy p context tape).1, (aggregate S hierarchy p context tape).2) := rfl
  simp only [run, pure_bind]
  refine (Attempt.bind_of_ok hdraw).trans ?_
  rcases aggregate S hierarchy p context tape with ⟨⟨e | histogram, context'⟩, rest⟩ <;> rfl

theorem run_sealedKeys (p : RoundParams) {context : EvaluationContext}
    (hopen : EvaluationContext.ofSealed S.transport keys.transport halves = .ok context) :
    run S hierarchy keys p (.sealedKeys halves) = run S hierarchy keys p (.context context) := by
  simp only [run, hopen]
  rfl

theorem run_of_refused (p : RoundParams) {e : Failure}
    (hopen : EvaluationContext.ofSealed S.transport keys.transport halves = .error e) (tape : RandomTape) :
    (run S hierarchy keys p (.sealedKeys halves)).run tape = (.error e, tape) := by
  simp only [run, hopen]
  rfl

/-- All that a run of a domain can do if it is accepted: there is a context to start from, and a round over it is
    accepted. -/
theorem run_ok {d : PointFunction.Domain} {p : RoundParams} {input : Input} {histogram : PartialHistogram}
    {context' : EvaluationContext} {tape rest : RandomTape}
    (hrun : (run S d.hierarchy keys p input).run tape = (.ok (histogram, context'), rest)) :
    ∃ context noise, (input = .context context ∨ ∃ halves, input = .sealedKeys halves ∧
        EvaluationContext.ofSealed S.transport keys.transport halves = .ok context) ∧
      Noise.choose p.combine.privacy p.ignorePrivacy = .ok noise ∧
      Aggregation.aggregate (pointFunction S d) p.expand p.combine noise context tape =
        ((.ok histogram, context'), rest) := by
  have hstart : ∃ context, (input = .context context ∨ ∃ halves, input = .sealedKeys halves ∧
      EvaluationContext.ofSealed S.transport keys.transport halves = .ok context) ∧
      (run S d.hierarchy keys p (.context context)).run tape = (.ok (histogram, context'), rest) := by
    cases input with
    | context context => exact ⟨context, .inl rfl, hrun⟩
    | sealedKeys halves =>
      cases hopen : EvaluationContext.ofSealed S.transport keys.transport halves with
      | error e => cases (run_of_refused p hopen tape).symm.trans hrun
      | ok context => exact ⟨context, .inr ⟨halves, rfl, hopen⟩, run_sealedKeys p hopen ▸ hrun⟩
  obtain ⟨context, hinput, hrun⟩ := hstart
  rw [run_context, Helper.round_run] at hrun
  cases hnoise : Noise.choose p.combine.privacy p.ignorePrivacy with
  | error e =>
    rw [hnoise] at hrun
    cases hrun
  | ok noise =>
    rw [hnoise] at hrun
    refine ⟨context, noise, hinput, rfl, ?_⟩
    dsimp only at hrun
    rcases hround : Aggregation.aggregate (pointFunction S d) p.expand p.combine noise context tape with
      ⟨⟨e | h, after⟩, left⟩
    · rw [hround] at hrun
      cases hrun
    · rw [hround] at hrun
      cases hrun
      rfl

theorem separately_cons {last : Option EvaluationContext} {handover : Handover} {input : Input}
    (hinput : handover.input? halves last = some input) (p : RoundParams) (rounds : List (RoundParams × Handover))
    (tape : RandomTape) :
    separately S hierarchy keys halves ((p, handover) :: rounds) last tape =
      match (run S hierarchy keys p input).run tape with
      | (.error e, rest) => (separately S hierarchy keys halves rounds last rest).map (Option.map (.error e :: ·)) id
      | (.ok (histogram, context), rest) =>
        (separately S hierarchy keys halves rounds (some context) rest).map (Option.map (.ok histogram :: ·)) id := by
  rw [separately, hinput]
  change StateT.bind _ _ tape = _
  rw [StateT.bind]
  rcases (run S hierarchy keys p input).run tape with ⟨e | ⟨histogram, context⟩, rest⟩ <;> rfl

end Run

end Round

/-! ### A run for a round -/

namespace Helper

open Round (Handover separately separately_cons run_context run_sealedKeys run_of_refused)

variable {S : Suite}

/-- What a run is given in place of the next round of a helper. -/
def input (h : Helper S) : Round.Input :=
  match h.context with
  | none => .sealedKeys h.sealedKeys
  | some context => .context context

theorem input?_context (h : Helper S) (handover : Handover) : handover.input? h.sealedKeys h.context = some h.input := by
  rw [input]
  cases h.context with
  | none => rfl
  | some context => rw [Handover.input?, handover.pass_eq, Option.map_some]

/-- A run does what the round of the helper does, and gives back the context that a round leaves behind if it succeeds. -/
theorem run_input (h : Helper S) (p : RoundParams) (tape : RandomTape) :
    let round := (aggregate p).run.run h tape
    (∃ e, round.1.1 = .error e ∧ (Round.run S h.domain.hierarchy h.keys p h.input).run tape = (.error e, round.2)) ∨
      ∃ histogram context, round.1 = (.ok histogram, { h with context := some context }) ∧
        (Round.run S h.domain.hierarchy h.keys p h.input).run tape = (.ok (histogram, context), round.2) := by
  dsimp only
  rcases current_or_refused h with ⟨context, hcurrent⟩ | ⟨hnone, e, hopen⟩
  · have hinput : Round.run S h.domain.hierarchy h.keys p h.input =
        Round.run S h.domain.hierarchy h.keys p (.context context) := by
      rcases hcurrent with hcontext | ⟨hnone, hopen⟩
      · rw [input, hcontext]
      · rw [input, hnone]
        exact run_sealedKeys p hopen
    rw [hinput, run_context, run_aggregate hcurrent]
    rcases Round.aggregate S h.domain.hierarchy p context tape with ⟨⟨e | histogram, context'⟩, rest⟩
    · exact .inl ⟨e, rfl, rfl⟩
    · exact .inr ⟨histogram, context', rfl, rfl⟩
  · rw [run_aggregate_of_refused hnone hopen, input, hnone, run_of_refused p hopen]
    exact .inl ⟨e, rfl, rfl⟩

/-! ### Rounds without noise -/

/-- Without noise a round of a helper does not depend on random bytes. -/
theorem aggregate_of_not_noised {p : RoundParams} (hnoise : p.isNoised = false) (h : Helper S) (tape tape' : RandomTape) :
    ((aggregate p).run.run h tape).1 = ((aggregate p).run.run h tape').1 := by
  rcases current_or_refused h with ⟨context, hcurrent⟩ | ⟨hnone, e, hopen⟩
  · rw [run_aggregate hcurrent, run_aggregate hcurrent, round_run, round_run]
    cases hchoose : Noise.choose p.combine.privacy p.ignorePrivacy with
    | error e => rfl
    | ok noise =>
      obtain rfl := noise_eq_none hnoise hchoose
      simp only [Aggregation.aggregate_none p.expand p.combine context tape tape']
  · rw [run_aggregate_of_refused hnone hopen, run_aggregate_of_refused hnone hopen]

/-- Runs go on from the context of a helper `a`, which a failed run leaves as it is. A helper `b` may have gone through
    failed rounds besides and gives the same answers. -/
theorem separately_of_alike {a b : Helper S} (hsound : a.Sound) (hab : Alike a b) (rounds : List (RoundParams × Handover))
    (hnoise : ∀ r ∈ rounds, r.1.isNoised = false) (tape tape' : RandomTape) :
    ∃ results, (separately S a.domain.hierarchy a.keys a.sealedKeys rounds a.context tape).1 = some results ∧
      (serve (rounds.map fun r => .round r.1) b tape').1.1 = results.map (Except.map Answer.histogram) := by
  induction rounds generalizing a b tape tape' with
  | nil => exact ⟨[], rfl, rfl⟩
  | cons round rounds ih =>
    obtain ⟨p, handover⟩ := round
    obtain ⟨hp, hnoise⟩ := List.forall_mem_cons.mp hnoise
    have hsame : ((aggregate p).run.run a tape).1 = ((aggregate p).run.run a tape').1 :=
      aggregate_of_not_noised hp a tape tape'
    obtain ⟨hanswer, -, hafter, -⟩ := hab.round p tape'
    have hsound' := (hsound.step (.round p) tape').1
    rw [step_round p a, ← hsame] at hanswer hafter hsound'
    rw [separately_cons (input?_context a handover), List.map_cons, serve_cons]
    dsimp only
    rw [hanswer]
    rcases run_input a p tape with ⟨e, hfail, hrun⟩ | ⟨histogram, context, hok, hrun⟩
    · rw [hrun, hfail]
      have halike := (alike_of_failed hsound hfail).trans hafter
      obtain ⟨results, hresults, hanswers⟩ := ih hsound halike hnoise _ _
      exact ⟨.error e :: results, congrArg (Option.map _) hresults, congrArg (_ :: ·) hanswers⟩
    · rw [hok] at hafter hsound'
      rw [hrun, hok]
      obtain ⟨results, hresults, hanswers⟩ := ih hsound' hafter hnoise _ _
      exact ⟨.ok histogram :: results, congrArg (Option.map _) hresults, congrArg (_ :: ·) hanswers⟩

/-- Rounds without noise of a helper that has had none yet, with nothing taken in between them, give what runs give that are
    first given its key halves, and from the first success on the context that the last run to succeed has given back. -/
theorem separately_eq_serve (h : Helper S) (hnone : h.context = none) (rounds : List (RoundParams × Handover))
    (hnoise : ∀ r ∈ rounds, r.1.isNoised = false) (tape tape' : RandomTape) :
    ∃ results, (separately S h.domain.hierarchy h.keys h.sealedKeys rounds none tape).1 = some results ∧
      (serve (rounds.map fun r => .round r.1) h tape').1.1 = results.map (Except.map Answer.histogram) := by
  have hsound : h.Sound := fun context hcontext => by
    rw [hnone] at hcontext
    cases hcontext
  have hresults := separately_of_alike hsound ⟨rfl, .inl ⟨hnone, hnone⟩⟩ rounds hnoise tape tape'
  rwa [hnone] at hresults

/-- A helper with one key half is refused a round, and then goes through both levels. So do runs of the same rounds, the
    last of them from a context that has been written as JSON. -/
theorem separately_eq_serve_two_levels :
    let S := Suite.constant
    let tape : RandomTape := ⟨fun _ => 0, 0, none⟩
    ∃ (h : Helper S) (half : SealedKey) (e : Failure) (g g' : PartialHistogram),
      h.sealedKeys = [half] ∧ h.context = none ∧
      (separately S h.domain.hierarchy h.keys h.sealedKeys
        [(noLevels, .value), (firstLevel, .value), (secondLevel, .json)] none tape).1 = some [.error e, .ok g, .ok g'] := by
  intro S tape
  let F := Round.pointFunction S .oneThree
  let key := (F.keysFrom 5 ⟨.ofNat 7, 1⟩ (Octets.zero 16) (Octets.zero 16)).2
  let record : KeyRecord := ⟨⟨Octets.zero 16⟩, key, none⟩
  have hopens : S.transport.Opens KeyMaterial.additiveOne.transport :=
    Transport.plain_lawful.opens KeyMaterial.additiveOne.transport.bytes
  have ht : tape.fault = none := rfl
  obtain ⟨half, -, -, -, hhalf⟩ := (ofRecord_yields hopens record).run ht
  obtain ⟨start, -, hh⟩ := exists_fresh (S := S) .one .additiveOne .additiveTwo .oneThree
  let h : Helper S := { start with sealedKeys := [half] }
  have hcurrent : h.Current (.ofRecords [record]) := by
    refine .inr ⟨hh.context, ?_⟩
    simp only [h, hh.keys, EvaluationContext.ofSealed, List.mapM_cons, List.mapM_nil, hhalf]
    rfl
  have hkey : F.checkKey record.key = .ok () := (PointFunction.checkKey_keysFrom F 5 _ _ _).2
  obtain ⟨e, hrefused⟩ := run_noLevels hcurrent tape
  have hfirst := (aggregate_firstLevel (h := { h with context := some (.ofRecords [record]) }) (.inl rfl) hh.domain
    (by simpa using hkey) rfl).run ht
  obtain ⟨e, -, hnever⟩ | ⟨g, hg, -, hdomain, c, hc, hsettled, hrecords, hprevious⟩ := hfirst
  · exact hnever.elim
  have hlabels : c.labels = [] := by
    rw [EvaluationContext.labels, hrecords]
    rfl
  have hsecond := (aggregate_secondLevel hc hdomain hsettled hprevious hlabels).run ht
  obtain ⟨e, -, hnever⟩ | ⟨g', hg', -⟩ := hsecond
  · exact hnever.elim
  obtain ⟨results, hresults, hanswers⟩ := separately_eq_serve h hh.context
    [(noLevels, .value), (firstLevel, .value), (secondLevel, .json)]
    (by simp [RoundParams.isNoised, noLevels, firstLevel, secondLevel]) tape tape
  -- The tape that the second level starts with is another one, but there is no noise.
  have hlast : ∀ rest, ((aggregate secondLevel).run.run
      ((aggregate firstLevel).run.run { h with context := some (.ofRecords [record]) } tape).1.2 rest).1.1 = .ok g' :=
    fun rest => (congrArg Prod.fst (aggregate_of_not_noised rfl _ rest tape)).trans hg'
  simp only [List.map_cons, List.map_nil, serve_cons, step_round, hrefused, hg, hlast] at hanswers
  have hinjective : Function.Injective (Except.map Answer.histogram : Except Failure PartialHistogram → _) := by
    rintro (e₁ | g₁) (e₂ | g₂) hmap <;> cases hmap <;> rfl
  obtain rfl : [.error e, .ok g, .ok g'] = results := List.map_injective_iff.mpr hinjective hanswers
  exact ⟨h, half, e, g, g', rfl, hh.context, hresults⟩

end Helper

end PrivateHistogram
