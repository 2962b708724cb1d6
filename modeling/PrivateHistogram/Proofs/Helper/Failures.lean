import PrivateHistogram.Proofs.Helper.Batches
import PrivateHistogram.Proofs.Helper.Calls
import PrivateHistogram.Proofs.Suites

/-! Rounds of a helper that fail. A round that fails changes nothing but the context (`alike_of_failed`), and where there
    has been one before, or the key halves do not open, no later call can tell. But the first round that opens the key
    halves leaves them behind in a context also if it fails: halves that come after it are in no later round
    (`serve_of_failed_round`), though they would be if the failed round had not been asked for
    (`failed_round_loses_halves`). -/

namespace PrivateHistogram.Helper

open Aggregation (IsHistogram Settled SoundAll settled_ofRecords)
open PointFunction (Plan)

variable {S : Suite}

/-! ### Contexts of a helper -/

/-- The context of a helper, if it has one, keeps only nodes that are reached with its key halves. -/
def Sound (h : Helper S) : Prop :=
  ∀ context ∈ h.context, SoundAll (Round.pointFunction S h.domain) context.records context.caches

/-- Two helpers that differ at most in their contexts, which are alike: those they have, or those that they will open. -/
structure Alike (a b : Helper S) : Prop where
  eq : b = { a with context := b.context }
  contexts : a.context = none ∧ b.context = none ∨
    ∃ c c', a.Current c ∧ b.Current c' ∧ Aggregation.Alike (Round.pointFunction S a.domain) c c'

section Contexts
variable {h h' a b : Helper S} {c : EvaluationContext}

theorem ofSealed_ok {T : Transport} {k : Transport.PrivateKey} {keys : List SealedKey}
    (hopen : EvaluationContext.ofSealed T k keys = .ok c) : ∃ records, c = .ofRecords records := by
  obtain ⟨records, -, hc⟩ := bind_eq_ok.mp hopen
  cases hc
  exact ⟨records, rfl⟩

theorem Sound.current (hsound : h.Sound) (hcurrent : h.Current c) :
    SoundAll (Round.pointFunction S h.domain) c.records c.caches := by
  rcases hcurrent with hcontext | ⟨-, hopen⟩
  · exact hsound c hcontext
  · obtain ⟨records, rfl⟩ := ofSealed_ok hopen
    exact Aggregation.soundAll_empty _ records

/-- What is taken in does not change the context that the next round starts from, unless it is yet to be opened and key
    halves have come. -/
theorem Current.takes (hcurrent : h.Current c) (htakes : h.Takes h')
    (hkeys : h.context ≠ none ∨ h'.sealedKeys = h.sealedKeys) : h'.Current c := by
  obtain ⟨joins, keys, rfl⟩ := htakes
  rcases hcurrent with hcontext | ⟨hcontext, hopen⟩
  · exact .inl hcontext
  · refine .inr ⟨hcontext, ?_⟩
    rw [hkeys.resolve_left (not_not_intro hcontext)]
    exact hopen

theorem Current.eq {c' : EvaluationContext} (hcurrent : h.Current c) (hcurrent' : h.Current c') : c' = c := by
  rcases hcurrent with hcontext | ⟨hnone, hopen⟩ <;> rcases hcurrent' with hcontext' | ⟨hnone', hopen'⟩
  · exact Option.some.inj (hcontext'.symm.trans hcontext)
  · exact nomatch hcontext.symm.trans hnone'
  · exact nomatch hcontext'.symm.trans hnone
  · exact Except.ok.inj (hopen'.symm.trans hopen)

/-- A helper before a round: its key halves do not open, or the round starts from a context. -/
theorem current_or_refused (h : Helper S) : (∃ c, h.Current c) ∨
    h.context = none ∧ ∃ e, EvaluationContext.ofSealed S.transport h.keys.transport h.sealedKeys = .error e := by
  cases hcontext : h.context with
  | some c => exact .inl ⟨c, .inl hcontext⟩
  | none =>
    cases hopen : EvaluationContext.ofSealed S.transport h.keys.transport h.sealedKeys with
    | ok c => exact .inl ⟨c, .inr ⟨hcontext, hopen⟩⟩
    | error e => exact .inr ⟨rfl, e, rfl⟩

end Contexts

/-! ### Calls of helpers that are alike -/

theorem step_round (p : RoundParams) (h : Helper S) (tape : RandomTape) :
    (Call.round p).step.run.run h tape =
      ((((aggregate p).run.run h tape).1.1.map Answer.histogram, ((aggregate p).run.run h tape).1.2),
        ((aggregate p).run.run h tape).2) :=
  run_bind_pure h tape (aggregate p) Answer.histogram

theorem Sound.step {h : Helper S} (hsound : h.Sound) (call : Call) (tape : RandomTape) :
    (call.step.run.run h tape).1.2.Sound ∧ (call.step.run.run h tape).1.2.domain = h.domain := by
  by_cases hcall : call.isReceipt = true
  · obtain ⟨joins, keys, htakes⟩ := (receives_of_isReceipt hcall h none tape).1
    rw [htakes]
    exact ⟨hsound, rfl⟩
  · obtain ⟨p, rfl⟩ := Call.eq_round hcall
    rw [step_round]
    rcases current_or_refused h with ⟨c, hcurrent⟩ | ⟨hnone, e, hopen⟩
    · rw [run_aggregate hcurrent]
      refine ⟨fun context hcontext => ?_, rfl⟩
      cases hcontext
      exact (round_alike (Aggregation.alike_refl (hsound.current hcurrent)) p tape).2.2.first
    · rw [run_aggregate_of_refused hnone hopen]
      exact ⟨hsound, rfl⟩

theorem Sound.serve {h : Helper S} (hsound : h.Sound) (calls : List Call) (tape : RandomTape) :
    (serve calls h tape).1.2.Sound := by
  induction calls generalizing h tape with
  | nil => exact hsound
  | cons call calls ih => exact ih (hsound.step call tape).1 _

/-- Whatever is taken in, no key half is lost and rounds go on from where they were. -/
theorem takes_of_receipts {calls : List Call} (hcalls : ∀ call ∈ calls, call.isReceipt = true) (h : Helper S)
    (tape : RandomTape) : h.Takes (serve calls h tape).1.2 := by
  induction calls generalizing h tape with
  | nil => exact .refl h
  | cons call calls ih =>
    obtain ⟨hcall, hcalls⟩ := List.forall_mem_cons.mp hcalls
    exact (receives_of_isReceipt hcall h none tape).1.trans (ih hcalls _ _)

theorem sealedKeys_of_takes {h h₁ h₂ : Helper S} (hfirst : h.Takes h₁) (hsecond : h₁.Takes h₂)
    (hkeys : h₂.sealedKeys = h.sealedKeys) : h₁.sealedKeys = h.sealedKeys ∧ h₂.sealedKeys = h₁.sealedKeys := by
  obtain ⟨joins, keys, rfl⟩ := hfirst
  obtain ⟨joins', keys', rfl⟩ := hsecond
  simpa using hkeys

namespace Alike
variable {a b d : Helper S} (hab : Alike a b)
include hab

theorem eq_of_none (ha : a.context = none) (hb : b.context = none) : b = a := by
  rw [hab.eq, hb, ← ha]

theorem trans (hbd : Alike b d) : Alike a d := by
  refine ⟨?_, ?_⟩
  · rw [hbd.eq, hab.eq]
  rcases hab.contexts with ⟨ha, hb⟩ | ⟨c, c', hc, hc', halike⟩
  · rw [← hab.eq_of_none ha hb]
    exact hbd.contexts
  rcases hbd.contexts with ⟨hb, hd⟩ | ⟨c₁, c₂, hc₁, hc₂, halike'⟩
  · rw [hbd.eq_of_none hb hd]
    exact .inr ⟨c, c', hc, hc', halike⟩
  · obtain rfl := hc'.eq hc₁
    have hdomain : b.domain = a.domain := by rw [hab.eq]
    exact .inr ⟨c, c₂, hc, hc₂, halike.trans (hdomain ▸ halike')⟩

theorem receive {call : Call} (hcall : call.isReceipt = true) (tape : RandomTape) :
    call.step.run.run b tape =
      (((call.step.run.run a tape).1.1, { (call.step.run.run a tape).1.2 with context := b.context }),
        (call.step.run.run a tape).2) := by
  have hsame := (receives_of_isReceipt hcall a b.context tape).2
  rwa [← hab.eq] at hsame

/-- They stay alike unless key halves come that only one of them is yet to open. -/
theorem takes {a' : Helper S} (htakes : a.Takes a')
    (hkeys : a.context.isSome = b.context.isSome ∨ a'.sealedKeys = a.sealedKeys) :
    Alike a' { a' with context := b.context } := by
  have htakes' : b.Takes { a' with context := b.context } := by
    obtain ⟨joins, keys, rfl⟩ := htakes
    rw [hab.eq]
    exact ⟨joins, keys, rfl⟩
  have hcontext : a'.context = a.context ∧ a'.domain = a.domain := by
    obtain ⟨joins, keys, rfl⟩ := htakes
    exact ⟨rfl, rfl⟩
  have hheld : b.sealedKeys = a.sealedKeys := by rw [hab.eq]
  refine ⟨rfl, ?_⟩
  rcases hab.contexts with ⟨ha, hb⟩ | ⟨c, c', hcurrent, hcurrent', halike⟩
  · exact .inl ⟨hcontext.1.trans ha, hb⟩
  rw [← hcontext.2] at halike
  rcases hkeys with hsome | hkeys
  · cases ha : a.context with
    | none =>
      rw [ha] at hsome
      exact .inl ⟨hcontext.1.trans ha, Option.isNone_iff_eq_none.mp (by simpa using hsome.symm)⟩
    | some held =>
      have hb : b.context ≠ none := fun hb => by simp [ha, hb] at hsome
      exact .inr ⟨c, c', hcurrent.takes htakes (.inl (by simp [ha])), hcurrent'.takes htakes' (.inl hb), halike⟩
  · exact .inr ⟨c, c', hcurrent.takes htakes (.inr hkeys), hcurrent'.takes htakes' (.inr (hkeys.trans hheld.symm)), halike⟩

theorem round (p : RoundParams) (tape : RandomTape) :
    let first := (Call.round p).step.run.run a tape
    let second := (Call.round p).step.run.run b tape
    second.1.1 = first.1.1 ∧ second.2 = first.2 ∧ Alike first.1.2 second.1.2 ∧
      first.1.2.context.isSome = second.1.2.context.isSome := by
  have hdomain : b.domain = a.domain := by rw [hab.eq]
  have hcases : (b = a ∧ a.context = none ∧
        ∃ e, EvaluationContext.ofSealed S.transport a.keys.transport a.sealedKeys = .error e) ∨
      ∃ c c', a.Current c ∧ b.Current c' ∧ Aggregation.Alike (Round.pointFunction S a.domain) c c' := by
    rcases hab.contexts with ⟨ha, hb⟩ | hcurrent
    · have hsame := hab.eq_of_none ha hb
      rcases current_or_refused a with ⟨c, hcurrent⟩ | ⟨-, hopen⟩
      · have hsound : a.Sound := fun context hcontext => by
          rw [ha] at hcontext
          cases hcontext
        exact .inr ⟨c, c, hcurrent, hsame ▸ hcurrent, Aggregation.alike_refl (hsound.current hcurrent)⟩
      · exact .inl ⟨hsame, ha, hopen⟩
    · exact .inr hcurrent
  simp only [step_round]
  rcases hcases with ⟨hsame, ha, e, hopen⟩ | ⟨c, c', hcurrent, hcurrent', halike⟩
  · rw [hsame, run_aggregate_of_refused ha hopen]
    exact ⟨rfl, rfl, ⟨rfl, .inl ⟨ha, ha⟩⟩, rfl⟩
  · rw [run_aggregate hcurrent, run_aggregate hcurrent', hdomain]
    obtain ⟨hresult, htape, hafter⟩ := round_alike halike p tape
    refine ⟨congrArg (Except.map Answer.histogram) hresult, htape, ⟨?_, .inr ⟨_, _, .inl rfl, .inl rfl, hafter⟩⟩, rfl⟩
    rw [hab.eq]

/-- Calls get the same answers from both, if both have a context or neither, or if no key halves come before the first
    round. -/
theorem serve (calls : List Call) (tape : RandomTape)
    (hkeys : a.context.isSome = b.context.isSome ∨
      (Helper.serve (calls.takeWhile Call.isReceipt) a tape).1.2.sealedKeys = a.sealedKeys) :
    (Helper.serve calls b tape).1.1 = (Helper.serve calls a tape).1.1 := by
  induction calls generalizing a b tape with
  | nil => rfl
  | cons call calls ih =>
    -- The condition passes on through what is taken in, and the first round that comes gives both a context or neither.
    rw [serve_cons, serve_cons]
    by_cases hcall : call.isReceipt = true
    · have htakes := (receives_of_isReceipt hcall a none tape).1
      have hcontext : (call.step.run.run a tape).1.2.context = a.context := by
        obtain ⟨joins, keys, htakes⟩ := htakes
        rw [htakes]
      have hreceipts : ∀ c ∈ calls.takeWhile Call.isReceipt, c.isReceipt = true := fun c hc => List.mem_takeWhile_imp hc
      have hlater := takes_of_receipts hreceipts (call.step.run.run a tape).1.2 (call.step.run.run a tape).2
      rw [List.takeWhile_cons_of_pos hcall, serve_cons] at hkeys
      rw [hab.receive hcall tape]
      have hkeys' := hkeys.imp_right (sealedKeys_of_takes htakes hlater)
      refine congrArg (_ :: ·) (ih (hab.takes htakes (hkeys'.imp_right And.left)) _ ?_)
      rw [hcontext]
      exact hkeys'.imp_right And.right
    · obtain ⟨p, rfl⟩ := Call.eq_round hcall
      obtain ⟨hanswer, htape, hafter, hsome⟩ := hab.round p tape
      simp only [hanswer, htape]
      exact congrArg (_ :: ·) (ih hafter _ (.inl hsome))

end Alike

/-! ### Rounds that fail -/

section Failed
variable {h : Helper S} {c : EvaluationContext} {p : RoundParams} {tape : RandomTape} {e : Failure}

/-- A round that fails changes nothing but the context, and the context only in what it keeps. -/
theorem alike_of_failed (hsound : h.Sound) (hfail : ((aggregate p).run.run h tape).1.1 = .error e) :
    Alike h ((aggregate p).run.run h tape).1.2 := by
  rcases current_or_refused h with ⟨c, hcurrent⟩ | ⟨hnone, e', hopen⟩
  · rw [run_aggregate hcurrent] at hfail ⊢
    exact ⟨rfl, .inr ⟨c, _, hcurrent, .inl rfl, round_error (hsound.current hcurrent) hfail⟩⟩
  · rw [run_aggregate_of_refused hnone hopen]
    exact ⟨rfl, .inl ⟨hnone, hnone⟩⟩

/-- Once there is a context, the key halves in it stay the same. -/
theorem step_records (hcontext : h.context = some c) (call : Call) (tape : RandomTape) :
    ∃ c', (call.step.run.run h tape).1.2.context = some c' ∧ c'.records = c.records := by
  by_cases hcall : call.isReceipt = true
  · obtain ⟨joins, keys, htakes⟩ := (receives_of_isReceipt hcall h none tape).1
    rw [htakes]
    exact ⟨c, hcontext, rfl⟩
  · obtain ⟨p, rfl⟩ := Call.eq_round hcall
    rw [step_round, run_aggregate (.inl hcontext)]
    exact ⟨_, rfl, round_records ..⟩

theorem serve_records (hcontext : h.context = some c) (calls : List Call) (tape : RandomTape) :
    ∃ c', (serve calls h tape).1.2.context = some c' ∧ c'.records = c.records := by
  induction calls generalizing h c tape with
  | nil => exact ⟨c, hcontext, rfl⟩
  | cons call calls ih =>
    obtain ⟨c₁, hcontext₁, hrecords₁⟩ := step_records hcontext call tape
    obtain ⟨c₂, hcontext₂, hrecords₂⟩ := ih hcontext₁ (call.step.run.run h tape).2
    exact ⟨c₂, hcontext₂, hrecords₂.trans hrecords₁⟩

end Failed

/-- The parameters of a round that is always refused, since it asks for no level. -/
def noLevels : RoundParams := ⟨⟨[], [], none⟩, .default, true⟩

theorem run_noLevels {h : Helper S} {records : List KeyRecord} (hcurrent : h.Current (.ofRecords records))
    (tape : RandomTape) :
    ∃ e, (aggregate noLevels).run.run h tape = ((.error e, { h with context := some (.ofRecords records) }), tape) := by
  have hvalidate : noLevels.combine.validate = .ok () := rfl
  obtain ⟨e, hplan⟩ : ∃ e, Aggregation.planRound (Round.pointFunction S h.domain) (.ofRecords records) noLevels.expand
      noLevels.combine = .error e := by
    cases hplan : Aggregation.planRound (Round.pointFunction S h.domain) (.ofRecords records) noLevels.expand
        noLevels.combine with
    | error e => exact ⟨e, rfl⟩
    | ok p => exact nomatch (Aggregation.planRound_iff.mp hplan).2.2
  have hnoise : Noise.choose noLevels.combine.privacy noLevels.ignorePrivacy = .ok .none := choose_eq hvalidate (.inl rfl)
  have hround := round_eq hnoise (Aggregation.aggregate_eq_error hplan tape)
  rw [run_aggregate hcurrent, hround]
  exact ⟨_, rfl⟩

/-- A round that fails after any calls changes nothing but the context. All calls after it get the answers that they would
    have got without it if there was a context before, if the key halves do not open, or if no more key halves come before
    the next round. Otherwise the failed round has settled which key halves all later rounds are over. -/
theorem serve_of_failed_round {id : HelperId} {keys : KeyMaterial} {peer : PublicInfo S}
    {hierarchy : PointFunction.Hierarchy}
    {start : Helper S} (hstart : fresh id keys peer hierarchy = .ok start) (before : List Call) (p : RoundParams)
    (tape tape' : RandomTape) (error : Failure)
    (hfail : ((aggregate p).run.run (serve before start tape).1.2 tape').1.1 = .error error) :
    let h := (serve before start tape).1.2
    let failed := ((aggregate p).run.run h tape').1.2
    let opened := EvaluationContext.ofSealed S.transport h.keys.transport h.sealedKeys
    failed = { h with context := failed.context } ∧
      (∀ later tape, (h.context ≠ none ∨ (∃ e, opened = .error e) ∨
          (serve (later.takeWhile Call.isReceipt) h tape).1.2.sealedKeys = h.sealedKeys) →
        (serve later failed tape).1.1 = (serve later h tape).1.1) ∧
      ∀ context, h.context = none → opened = .ok context → ∀ later tape, ∃ context',
        (serve later failed tape).1.2.context = some context' ∧ context'.records = context.records := by
  intro h failed opened
  have hstartSound : start.Sound := by
    obtain ⟨d, -, hd⟩ := bind_eq_ok.mp hstart
    cases hd
    exact fun context hcontext => nomatch hcontext
  have halike : Alike h failed := alike_of_failed (hstartSound.serve before tape) hfail
  have hcurrent : ∀ {context}, h.Current context → ∃ context', failed.context = some context' ∧
      context'.records = context.records := fun hcurrent => by
    rw [show failed = _ from congrArg (·.1.2) (run_aggregate hcurrent p tape')]
    exact ⟨_, rfl, round_records ..⟩
  refine ⟨halike.eq, fun later tape hkeys => halike.serve later tape ?_, fun context hnone hopen later tape => ?_⟩
  · rcases current_or_refused h with ⟨c, hc⟩ | ⟨hnone, e, hopen⟩
    · obtain ⟨c', hfailed, -⟩ := hcurrent hc
      rcases hkeys with hsome | ⟨e, hopen⟩ | hkeys
      · exact .inl (by rw [hfailed, Option.isSome_iff_ne_none.mpr hsome]; rfl)
      · rcases hc with hsome | ⟨-, hc⟩
        · exact .inl (by rw [hfailed, hsome]; rfl)
        · exact absurd (hopen.symm.trans hc) (by simp)
      · exact .inr hkeys
    · exact .inl (by rw [show failed = h from congrArg (·.1.2) (run_aggregate_of_refused hnone hopen p tape')])
  · obtain ⟨c, hfailed, hrecords⟩ := hcurrent (.inr ⟨hnone, hopen⟩)
    obtain ⟨c', hlater, hrecords'⟩ := serve_records hfailed later tape
    exact ⟨c', hlater, hrecords'.trans hrecords⟩

/-- A helper that holds a key half is asked for a round that is refused. A half that comes after the next round makes no
    difference to the answers; one that comes before it is held, but is not in the context of any round. -/
theorem serve_of_failed_round_additive :
    let S := Suite.additive
    let tape : RandomTape := ⟨fun _ => 0, 0, none⟩
    ∃ (start failed : Helper S) (e : Failure) (message more : Bytes) (half half' : SealedKey) (record : KeyRecord),
      fresh .one .additiveOne (KeyMaterial.additiveTwo.publicInfo S) ⟨[1, 3]⟩ = .ok start ∧
      let h := (serve [.keyHalves message] start tape).1.2
      h.sealedKeys = [half] ∧ half.toRecord S.transport KeyMaterial.additiveOne.transport = .ok record ∧
      (aggregate noLevels).run.run h tape = ((.error e, failed), tape) ∧
      (∀ p p' tape, (serve [.round p, .keyHalves more, .round p'] failed tape).1.1 =
        (serve [.round p, .keyHalves more, .round p'] h tape).1.1) ∧
      (serve [.keyHalves more] failed tape).1.2.sealedKeys = [half, half'] ∧
      ∀ p, ∃ context, (serve [.keyHalves more, .round p] failed tape).1.2.context = some context ∧
        context.records = [record] := by
  intro S tape
  let F := Round.pointFunction S .oneThree
  let record (id : ℕ) : KeyRecord :=
    ⟨⟨Octets.ofNatLittle 16 id⟩, (F.keysFrom 5 ⟨.ofNat 7, 1⟩ (Octets.zero 16) (Octets.zero 16)).2, none⟩
  have hopens : S.transport.Opens KeyMaterial.additiveOne.transport :=
    Transport.plain_lawful.opens KeyMaterial.additiveOne.transport.bytes
  have ht : tape.fault = none := rfl
  obtain ⟨half, -, -, -, hhalf⟩ := (ofRecord_yields hopens (record 1)).run ht
  obtain ⟨half', -, -, -, -⟩ := (ofRecord_yields hopens (record 2)).run ht
  obtain ⟨start, hfresh, hh⟩ := exists_fresh (S := S) .one .additiveOne .additiveTwo .oneThree
  have hcarried (half : SealedKey) : ∃ message, ∀ (h : Helper S) (tape : RandomTape),
      (Call.keyHalves message).step.run.run h tape =
        ((.ok .taken, { h with sealedKeys := h.sealedKeys ++ [half] }), tape) :=
    ⟨_, step_keyHalves [half]⟩
  obtain ⟨message, hmessage⟩ := hcarried half
  obtain ⟨more, hmore⟩ := hcarried half'
  have hserve : (serve [.keyHalves message] start tape).1.2 = { start with sealedKeys := [half] } := by
    rw [serve_cons, hmessage, hh.sealedKeys]
    rfl
  have hopen : EvaluationContext.ofSealed S.transport start.keys.transport [half] = .ok (.ofRecords [record 1]) := by
    rw [hh.keys]
    simp only [EvaluationContext.ofSealed, List.mapM_cons, List.mapM_nil, hhalf]
    rfl
  have hcurrent : Current { start with sealedKeys := [half] } (.ofRecords [record 1]) := .inr ⟨hh.context, hopen⟩
  obtain ⟨e, hrun⟩ := run_noLevels hcurrent tape
  obtain ⟨-, hsame, hsettled⟩ := serve_of_failed_round hfresh [.keyHalves message] noLevels tape tape e
    (by rw [hserve, hrun])
  rw [hserve, hrun] at hsame hsettled
  refine ⟨start, { start with sealedKeys := [half], context := some (.ofRecords [record 1]) }, e, message, more,
    half, half', record 1, hfresh, ?_⟩
  rw [hserve]
  refine ⟨rfl, hhalf, hrun, fun p p' tape' => ?_, ?_, fun p => ?_⟩
  · exact hsame [.round p, .keyHalves more, .round p'] tape' (.inr (.inr rfl))
  · rw [serve_cons, hmore]
    rfl
  · exact hsettled _ hh.context hopen [.keyHalves more, .round p] tape

/-- A round at the first of the levels of one and three bits. -/
def firstLevel : RoundParams := ⟨⟨[0], [[]], none⟩, .default, true⟩

theorem aggregate_firstLevel_of_agree {h : Helper S} {records : List KeyRecord} (hcurrent : h.Current (.ofRecords records))
    (hdomain : h.domain = .oneThree) (hkeys : ∀ r ∈ records, (Round.pointFunction S .oneThree).checkKey r.key = .ok ())
    (hagree : Labels.Agree (Aggregation.planLabels (Round.pointFunction S .oneThree) ⟨0, 0, #[0], 1⟩
      (EvaluationContext.ofRecords records).labels)) :
    StepYields (aggregate firstLevel) h (fun _ => False) fun histogram h' =>
      IsHistogram (Round.pointFunction S .oneThree) ⟨0, 0, #[0], 1⟩ records histogram.labels histogram ∧
      h'.domain = .oneThree ∧ ∃ c, h'.Current c ∧ Settled (Round.pointFunction S .oneThree) c ∧ c.records = records ∧
        c.previous = some (0, #[0, 1]) := by
  have hvalidate : firstLevel.combine.validate = .ok () := rfl
  have hnoise : Noise.choose firstLevel.combine.privacy firstLevel.ignorePrivacy = .ok .none :=
    choose_eq hvalidate (.inl rfl)
  have hplan : firstLevel.expand.plan PointFunction.Domain.oneThree.hierarchy none = .ok ⟨0, 0, #[0], 1⟩ := rfl
  exact (aggregate_of_plan hcurrent hdomain (settled_ofRecords hkeys) hvalidate hnoise hplan hagree).mono
    fun histogram h' ⟨hhistogram, hrest⟩ => ⟨hhistogram.totals, hrest⟩

/-- What comes of that round for key halves without labels. -/
theorem aggregate_firstLevel {h : Helper S} {records : List KeyRecord} (hcurrent : h.Current (.ofRecords records))
    (hdomain : h.domain = .oneThree) (hkeys : ∀ r ∈ records, (Round.pointFunction S .oneThree).checkKey r.key = .ok ())
    (hlabels : (EvaluationContext.ofRecords records).labels = []) :
    StepYields (aggregate firstLevel) h (fun _ => False) fun histogram h' =>
      IsHistogram (Round.pointFunction S .oneThree) ⟨0, 0, #[0], 1⟩ records histogram.labels histogram ∧
      h'.domain = .oneThree ∧ ∃ c, h'.Current c ∧ Settled (Round.pointFunction S .oneThree) c ∧ c.records = records ∧
        c.previous = some (0, #[0, 1]) :=
  aggregate_firstLevel_of_agree hcurrent hdomain hkeys fun b l l' hl => by
    simp [hlabels, Aggregation.planLabels] at hl

theorem step_firstLevel {h : Helper S} {records : List KeyRecord} (hcurrent : h.Current (.ofRecords records))
    (hdomain : h.domain = .oneThree) (hkeys : ∀ r ∈ records, (Round.pointFunction S .oneThree).checkKey r.key = .ok ())
    (hlabels : (EvaluationContext.ofRecords records).labels = []) {tape : RandomTape} (ht : tape.fault = none) :
    ∃ histogram, ((Call.round firstLevel).step.run.run h tape).1.1 = .ok (.histogram histogram) ∧
      IsHistogram (Round.pointFunction S .oneThree) ⟨0, 0, #[0], 1⟩ records histogram.labels histogram := by
  rw [step_round]
  rcases (aggregate_firstLevel hcurrent hdomain hkeys hlabels).run ht with ⟨e, -, hnever⟩ | ⟨histogram, hrun, hhistogram, -⟩
  · exact hnever.elim
  · exact ⟨histogram, by rw [hrun]; rfl, hhistogram⟩

/-- Two helpers differ by a round that one of them has been refused. A key half that comes then is in the next histogram
    of the other, and not in its own. -/
theorem failed_round_loses_halves :
    let S := Suite.constant
    let tape : RandomTape := ⟨fun _ => 0, 0, none⟩
    ∃ (h failed : Helper S) (e : Failure) (message : Bytes) (whole less : PartialHistogram),
      fresh .one .additiveOne (KeyMaterial.additiveTwo.publicInfo S) ⟨[1, 3]⟩ = .ok h ∧
      (aggregate noLevels).run.run h tape = ((.error e, failed), tape) ∧
      (serve [.keyHalves message, .round firstLevel] h tape).1.1 = [.ok .taken, .ok (.histogram whole)] ∧
      (serve [.keyHalves message, .round firstLevel] failed tape).1.1 = [.ok .taken, .ok (.histogram less)] ∧
      whole.share 1 ≠ 0 ∧ less.share 1 = 0 := by
  intro S tape
  let F := Round.pointFunction S .oneThree
  let key := (F.keysFrom 5 ⟨.ofNat 7, 1⟩ (Octets.zero 16) (Octets.zero 16)).2
  let record : KeyRecord := ⟨⟨Octets.zero 16⟩, key, none⟩
  have hkey : F.checkKey key = .ok () := (PointFunction.checkKey_keysFrom F 5 _ _ _).2
  have hopens : S.transport.Opens KeyMaterial.additiveOne.transport :=
    Transport.plain_lawful.opens KeyMaterial.additiveOne.transport.bytes
  have ht : tape.fault = none := rfl
  obtain ⟨half, -, -, -, hhalf⟩ := (ofRecord_yields hopens record).run ht
  obtain ⟨h, hfresh, hh⟩ := exists_fresh (S := S) .one .additiveOne .additiveTwo .oneThree
  have hcurrent : h.Current (.ofRecords []) := .inr ⟨hh.context, by rw [hh.sealedKeys]; rfl⟩
  obtain ⟨e, hrun⟩ := run_noLevels hcurrent tape
  -- The half comes to both helpers, but only one of them is yet to open what it holds.
  have hwhole : Current { h with sealedKeys := h.sealedKeys ++ [half] } (.ofRecords [record]) := by
    refine .inr ⟨hh.context, ?_⟩
    rw [hh.sealedKeys, hh.keys]
    simp only [EvaluationContext.ofSealed, List.nil_append, List.mapM_cons, List.mapM_nil, hhalf]
    rfl
  have hless : Current { h with context := some (.ofRecords []), sealedKeys := h.sealedKeys ++ [half] } (.ofRecords []) :=
    .inl rfl
  obtain ⟨whole, hanswer, hshare⟩ := step_firstLevel hwhole hh.domain (by simpa using hkey) rfl ht
  obtain ⟨less, hanswer', hshare'⟩ := step_firstLevel hless hh.domain (fun r hr => nomatch hr) rfl ht
  refine ⟨h, _, e, Codec.toBytes (PeerMessage.keyHalves [half]), whole, less, hfresh, hrun, ?_, ?_, ?_, ?_⟩
  · rw [serve_cons, step_keyHalves]
    exact congrArg ([.ok .taken, ·]) hanswer
  · rw [serve_cons, step_keyHalves]
    exact congrArg ([.ok .taken, ·]) hanswer'
  · rw [hshare.share 1 (by decide)]
    decide
  · exact hshare'.share 1 (by decide)

end PrivateHistogram.Helper
