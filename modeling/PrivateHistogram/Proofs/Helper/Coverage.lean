import PrivateHistogram.Proofs.Helper.Tables

/-! Which key halves are in a histogram. A helper opens its halves for the first round and never again, so the totals of
    every later round are those of the halves it held then (`aggregate_covers`), and halves that come later are in none
    (`later_halves_not_covered`). -/

namespace PrivateHistogram.Helper

open Aggregation (IsHistogram Reached planLabels)

variable {S : Suite} {h : Helper S}

/-! ### What rounds are over -/

/-- The key halves of which the sealed ones are given. -/
def Unseals (h : Helper S) (keys : List SealedKey) (records : List KeyRecord) : Prop :=
  List.Forall₂ (fun s r => s.toRecord S.transport h.keys.transport = .ok r) keys records

/-- All rounds of a helper are over some key halves: its context is one that rounds over them have left. -/
def IsOver (h : Helper S) (keys : List SealedKey) : Prop :=
  ∃ context records last, h.context = some context ∧ h.Unseals keys records ∧
    Reached (Round.pointFunction S h.domain) records last context

theorem unseals_of_ofSealed {keys : List SealedKey} {context : EvaluationContext}
    (hopen : EvaluationContext.ofSealed S.transport h.keys.transport keys = .ok context) :
    ∃ records, context = .ofRecords records ∧ h.Unseals keys records := by
  obtain ⟨records, hrecords, hc⟩ := bind_eq_ok.mp hopen
  cases hc
  exact ⟨records, rfl, forall₂_of_mapM hrecords⟩

theorem reached_round {d : PointFunction.Domain} {records : List KeyRecord} {last : Option PartialHistogram}
    {context : EvaluationContext} (hreached : Reached (Round.pointFunction S d) records last context) (p : RoundParams)
    (tape : RandomTape) :
    ∃ last', Reached (Round.pointFunction S d) records last' (Round.aggregate S d.hierarchy p context tape).1.2 := by
  rw [round_run]
  cases Noise.choose p.combine.privacy p.ignorePrivacy with
  | error e => exact ⟨last, hreached⟩
  | ok noise => exact ⟨_, hreached.aggregate ⟨p.expand, p.combine, noise⟩ tape⟩

theorem IsOver.step {keys : List SealedKey} (hover : h.IsOver keys) (call : Call) (tape : RandomTape) :
    (call.step.run.run h tape).1.2.IsOver keys := by
  obtain ⟨context, records, last, hcontext, hunseals, hreached⟩ := hover
  by_cases hcall : call.isReceipt = true
  · obtain ⟨joins, more, htakes⟩ := (receives_of_isReceipt hcall h none tape).1
    rw [htakes]
    exact ⟨context, records, last, hcontext, hunseals, hreached⟩
  · obtain ⟨p, rfl⟩ := Call.eq_round hcall
    rw [step_round, run_aggregate (.inl hcontext)]
    obtain ⟨last', hafter⟩ := reached_round hreached p tape
    exact ⟨_, records, last', rfl, hunseals, hafter⟩

theorem IsOver.serve {keys : List SealedKey} (hover : h.IsOver keys) (calls : List Call) (tape : RandomTape) :
    (serve calls h tape).1.2.IsOver keys := by
  induction calls generalizing h tape with
  | nil => exact hover
  | cons call calls ih => exact ih (hover.step call tape) _

/-- Either rounds are over some key halves already, or the next one that is not refused will be over them. -/
def Covers (h : Helper S) (keys : List SealedKey) : Prop := h.IsOver keys ∨ h.context = none ∧ h.sealedKeys = keys

/-- A round from a helper that is still to open its key halves is over those it holds, or they do not open. -/
theorem isOver_of_round (hnone : h.context = none) (p : RoundParams) (tape : RandomTape) :
    ((Call.round p).step.run.run h tape).1.2.IsOver h.sealedKeys ∨
      ∃ e, (Call.round p).step.run.run h tape = ((.error e, h), tape) := by
  rw [step_round]
  rcases current_or_refused h with ⟨context, hcurrent⟩ | ⟨-, e, hopen⟩
  · rw [run_aggregate hcurrent]
    obtain ⟨-, hopen⟩ := hcurrent.resolve_left (by simp [hnone])
    obtain ⟨records, rfl, hunseals⟩ := unseals_of_ofSealed hopen
    obtain ⟨last, hreached⟩ := reached_round (Aggregation.reached_ofRecords (Round.pointFunction S h.domain) records) p tape
    exact .inl ⟨_, records, last, rfl, hunseals, hreached⟩
  · rw [run_aggregate_of_refused hnone hopen]
    exact .inr ⟨e, rfl⟩

/-! ### The first round -/

/-- The helper at its first round that is not refused, or after all calls if there is none. -/
def atFirstRound : List Call → Helper S → RandomTape → Helper S
  | [], h, _ => h
  | call :: calls, h, tape =>
    let result := call.step.run.run h tape
    if !call.isReceipt && result.1.1.isOk then h else atFirstRound calls result.1.2 result.2

/-- No key halves come between a round that is refused and the first that is not. -/
def Undisturbed : List Call → Helper S → RandomTape → Prop
  | [], _, _ => True
  | call :: calls, h, tape =>
    let result := call.step.run.run h tape
    if call.isReceipt then Undisturbed calls result.1.2 result.2
    else result.1.1.isOk ∨
      (atFirstRound calls result.1.2 result.2).sealedKeys = h.sealedKeys ∧ Undisturbed calls result.1.2 result.2

theorem covers_of_serve (hnone : h.context = none) (calls : List Call) (tape : RandomTape)
    (hcalls : Undisturbed calls h tape) :
    (serve calls h tape).1.2.Covers (atFirstRound calls h tape).sealedKeys := by
  induction calls generalizing h tape with
  | nil => exact .inr ⟨hnone, rfl⟩
  | cons call calls ih =>
    rw [serve_cons, atFirstRound]
    rw [Undisturbed] at hcalls
    by_cases hcall : call.isReceipt = true
    · have hcontext : (call.step.run.run h tape).1.2.context = none := by
        obtain ⟨joins, more, htakes⟩ := (receives_of_isReceipt hcall h none tape).1
        rw [htakes]
        exact hnone
      simp only [hcall, Bool.not_true, Bool.false_and, Bool.false_eq_true, if_false, if_true] at hcalls ⊢
      exact ih hcontext _ hcalls
    · simp only [hcall, Bool.not_false, Bool.true_and, Bool.false_eq_true, if_false] at hcalls ⊢
      obtain ⟨p, rfl⟩ := Call.eq_round hcall
      rcases isOver_of_round hnone p tape with hover | ⟨e, hrefused⟩
      · have hlater := hover.serve calls ((Call.round p).step.run.run h tape).2
        split
        · exact .inl hlater
        · rename_i hfailed
          exact .inl ((hcalls.resolve_left hfailed).1 ▸ hlater)
      · rw [hrefused] at hcalls ⊢
        exact ih hnone _ (hcalls.resolve_left nofun).2

/-! ### Histograms -/

theorem noise_eq_none {p : RoundParams} (hnoise : p.isNoised = false) {noise : Noise}
    (hchoose : Noise.choose p.combine.privacy p.ignorePrivacy = .ok noise) : noise = .none := by
  have hleft : (p.ignorePrivacy || !p.combine.privacy.isEnabled) = true := by
    rw [RoundParams.isNoised] at hnoise
    cases hignore : p.ignorePrivacy <;> simp_all
  obtain ⟨-, -, hchoose⟩ := bind_eq_ok.mp hchoose
  rw [if_pos hleft] at hchoose
  exact (Except.ok.inj hchoose).symm

/-- A round without noise that is not refused gives the histogram of the key halves that it is over. -/
theorem isHistogram_of_reached {context : EvaluationContext} (hcurrent : h.Current context) {records : List KeyRecord}
    {last : Option PartialHistogram} (hreached : Reached (Round.pointFunction S h.domain) records last context)
    {p : RoundParams} (hnoise : p.isNoised = false) {tape : RandomTape} {g : PartialHistogram}
    (hok : ((aggregate p).run.run h tape).1.1 = .ok g) :
    ∃ plan, p.expand.plan h.domain.hierarchy context.previous = .ok plan ∧ plan.Fits h.domain ∧
      IsHistogram (Round.pointFunction S h.domain) plan records g.labels g ∧
      Labels.Smallest (planLabels (Round.pointFunction S h.domain) plan (records.filterMap KeyRecord.label)) g.labels := by
  rw [run_aggregate hcurrent, round_run] at hok
  cases hchoose : Noise.choose p.combine.privacy p.ignorePrivacy with
  | error e =>
    rw [hchoose] at hok
    cases hok
  | ok noise =>
    obtain rfl := noise_eq_none hnoise hchoose
    rw [hchoose] at hok
    have hresult := mapError_eq_ok.mp hok
    exact hreached.isHistogram (Prod.ext (Prod.ext hresult rfl) rfl)

theorem Covers.isHistogram {keys : List SealedKey} (hcovers : h.Covers keys) {p : RoundParams} (hnoise : p.isNoised = false)
    {tape : RandomTape} {g : PartialHistogram} (hok : ((aggregate p).run.run h tape).1.1 = .ok g) :
    ∃ records plan, h.Unseals keys records ∧
      p.expand.plan h.domain.hierarchy (h.context.bind EvaluationContext.previous) = .ok plan ∧ plan.Fits h.domain ∧
      IsHistogram (Round.pointFunction S h.domain) plan records g.labels g ∧
      Labels.Smallest (planLabels (Round.pointFunction S h.domain) plan (records.filterMap KeyRecord.label)) g.labels := by
  rcases hcovers with ⟨context, records, last, hcontext, hunseals, hreached⟩ | ⟨hnone, rfl⟩
  · rw [hcontext]
    obtain ⟨plan, hplan⟩ := isHistogram_of_reached (.inl hcontext) hreached hnoise hok
    exact ⟨records, plan, hunseals, hplan⟩
  · rcases current_or_refused h with ⟨context, hcurrent⟩ | ⟨-, e, hopen⟩
    · obtain ⟨-, hopen⟩ := hcurrent.resolve_left (by simp [hnone])
      obtain ⟨records, rfl, hunseals⟩ := unseals_of_ofSealed hopen
      obtain ⟨plan, hplan⟩ := isHistogram_of_reached hcurrent (Aggregation.reached_ofRecords _ records) hnoise hok
      rw [hnone]
      exact ⟨records, plan, hunseals, hplan⟩
    · rw [run_aggregate_of_refused hnone hopen] at hok
      cases hok

/-- Where no key halves come between a round that is refused and the first that is not, every round without noise is over
    all halves held at the first: its shares are the sums of their expansions over the buckets of its plan, and its labels
    those of the smallest of their reports. -/
theorem aggregate_covers {id : HelperId} {keys : KeyMaterial} {peer : PublicInfo S} {hierarchy : PointFunction.Hierarchy}
    {start : Helper S} (hstart : fresh id keys peer hierarchy = .ok start) (calls : List Call) (tape : RandomTape)
    (hcalls : Undisturbed calls start tape) (p : RoundParams) (hnoise : p.isNoised = false) (tape' : RandomTape)
    (g : PartialHistogram) (hok : ((aggregate p).run.run (serve calls start tape).1.2 tape').1.1 = .ok g) :
    let h := (serve calls start tape).1.2
    let F := Round.pointFunction S h.domain
    ∃ records plan,
      List.Forall₂ (fun s r => s.toRecord S.transport keys.transport = .ok r)
        (atFirstRound calls start tape).sealedKeys records ∧
      p.expand.plan h.domain.hierarchy (h.context.bind EvaluationContext.previous) = .ok plan ∧
      IsHistogram F plan records g.labels g ∧
      Labels.Smallest (planLabels F plan (records.filterMap KeyRecord.label)) g.labels := by
  intro h F
  obtain ⟨-, hkeys, -, -⟩ := serve_constants calls start tape
  obtain ⟨d, rfl⟩ := fresh_eq hstart
  obtain ⟨records, plan, hunseals, hplan, -, hhistogram⟩ := (covers_of_serve rfl calls tape hcalls).isHistogram hnoise hok
  refine ⟨records, plan, ?_, hplan, hhistogram⟩
  rwa [Unseals, hkeys] at hunseals

/-- A key half that comes before the first round is in its histogram. -/
theorem aggregate_covers_additive :
    let S := Suite.additive
    let F := Round.pointFunction S .oneThree
    let tape : RandomTape := ⟨fun _ => 0, 0, none⟩
    let record : KeyRecord := ⟨⟨Octets.zero 16⟩, (F.keysFrom 5 ⟨.ofNat 7, 1⟩ (Octets.zero 16) (Octets.zero 16)).2, none⟩
    ∃ (start : Helper S) (message : Bytes) (g : PartialHistogram),
      fresh .one .additiveOne (KeyMaterial.additiveTwo.publicInfo S) ⟨[1, 3]⟩ = .ok start ∧
      ((aggregate firstLevel).run.run (serve [.keyHalves message] start tape).1.2 tape).1.1 = .ok g ∧
      ∃ plan, IsHistogram F plan [record] g.labels g := by
  intro S F tape record
  have hopens : S.transport.Opens KeyMaterial.additiveOne.transport :=
    Transport.plain_lawful.opens KeyMaterial.additiveOne.transport.bytes
  have ht : tape.fault = none := rfl
  obtain ⟨half, -, -, -, hhalf⟩ := (ofRecord_yields hopens record).run ht
  obtain ⟨start, hfresh, hh⟩ := exists_fresh (S := S) .one .additiveOne .additiveTwo .oneThree
  let message := Codec.toBytes (PeerMessage.keyHalves [half])
  have hserve : (serve [.keyHalves message] start tape).1.2 = { start with sealedKeys := [half] } := by
    rw [serve_cons, step_keyHalves, hh.sealedKeys]
    rfl
  have hcurrent : Current { start with sealedKeys := [half] } (.ofRecords [record]) := by
    refine .inr ⟨hh.context, ?_⟩
    rw [hh.keys]
    simp only [EvaluationContext.ofSealed, List.mapM_cons, List.mapM_nil, hhalf]
    rfl
  have hkey : F.checkKey record.key = .ok () := (PointFunction.checkKey_keysFrom F 5 _ _ _).2
  obtain ⟨g, hanswer, -⟩ := step_firstLevel hcurrent hh.domain (by simpa using hkey) rfl ht
  rw [step_round, ← hserve] at hanswer
  have hok : ((aggregate firstLevel).run.run (serve [.keyHalves message] start tape).1.2 tape).1.1 = .ok g := by
    cases hresult : ((aggregate firstLevel).run.run (serve [.keyHalves message] start tape).1.2 tape).1.1 with
    | error e =>
      rw [hresult] at hanswer
      cases hanswer
    | ok g' =>
      rw [hresult] at hanswer
      cases hanswer
      rfl
  obtain ⟨records, plan, hrecords, -, hhistogram, -⟩ :=
    aggregate_covers hfresh [.keyHalves message] tape trivial firstLevel rfl tape g hok
  have hfirst : atFirstRound [.keyHalves message] start tape = { start with sealedKeys := [half] } := by
    rw [atFirstRound, step_keyHalves, hh.sealedKeys]
    rfl
  have hdomain : ({ start with sealedKeys := [half] } : Helper S).domain = .oneThree := hh.domain
  rw [hfirst] at hrecords
  rw [hserve, hdomain] at hhistogram
  cases hrecords with
  | cons hrecord hnil =>
    cases hnil
    cases hhalf.symm.trans hrecord
    exact ⟨start, message, g, hfresh, hok, plan, hhistogram⟩

/-- A round that goes on from the first level to the second. -/
def secondLevel : RoundParams := ⟨⟨[1], [[]], some 0⟩, .default, true⟩

/-- What comes of that round for key halves without labels. -/
theorem aggregate_secondLevel {c : EvaluationContext} (hcurrent : h.Current c) (hdomain : h.domain = .oneThree)
    (hsettled : Aggregation.Settled (Round.pointFunction S .oneThree) c) (hprevious : c.previous = some (0, #[0, 1]))
    (hlabels : c.labels = []) :
    StepYields (aggregate secondLevel) h (fun _ => False) fun histogram _ =>
      IsHistogram (Round.pointFunction S .oneThree) ⟨1, 1, #[0, 1], 3⟩ c.records histogram.labels histogram := by
  have hvalidate : secondLevel.combine.validate = .ok () := rfl
  have hnoise : Noise.choose secondLevel.combine.privacy secondLevel.ignorePrivacy = .ok .none :=
    choose_eq hvalidate (.inl rfl)
  have hplan : secondLevel.expand.plan PointFunction.Domain.oneThree.hierarchy c.previous = .ok ⟨1, 1, #[0, 1], 3⟩ := by
    rw [hprevious]
    rfl
  exact (aggregate_of_plan hcurrent hdomain hsettled hvalidate hnoise hplan
    fun b l l' hl => by simp [hlabels, planLabels] at hl).mono fun histogram h' ⟨hhistogram, _⟩ => hhistogram.totals

/-- A key half that comes after a round at the first level is not in the histogram of the second. -/
theorem later_halves_not_covered :
    let S := Suite.constant
    let F := Round.pointFunction S .oneThree
    let tape : RandomTape := ⟨fun _ => 0, 0, none⟩
    ∃ (start : Helper S) (message : Bytes) (half : SealedKey) (record : KeyRecord) (g : PartialHistogram),
      fresh .one .additiveOne (KeyMaterial.additiveTwo.publicInfo S) ⟨[1, 3]⟩ = .ok start ∧
      let h := (serve [.round firstLevel, .keyHalves message] start tape).1.2
      h.sealedKeys = [half] ∧ half.toRecord S.transport h.keys.transport = .ok record ∧
      ((aggregate secondLevel).run.run h tape).1.1 = .ok g ∧ 5 ∈ g.buckets ∧
      g.share 5 ≠ Aggregation.totalShare F [record] g.bucketBits.toNat 5 := by
  intro S F tape
  let key := (F.keysFrom 5 ⟨.ofNat 7, 1⟩ (Octets.zero 16) (Octets.zero 16)).2
  let record : KeyRecord := ⟨⟨Octets.zero 16⟩, key, none⟩
  have hopens : S.transport.Opens KeyMaterial.additiveOne.transport :=
    Transport.plain_lawful.opens KeyMaterial.additiveOne.transport.bytes
  have ht : tape.fault = none := rfl
  obtain ⟨half, -, -, -, hhalf⟩ := (ofRecord_yields hopens record).run ht
  obtain ⟨start, hfresh, hh⟩ := exists_fresh (S := S) .one .additiveOne .additiveTwo .oneThree
  have hcurrent : start.Current (.ofRecords []) := .inr ⟨hh.context, by rw [hh.sealedKeys]; rfl⟩
  have hvalidate : CombineParams.default.validate = .ok () := rfl
  have hnoise : Noise.choose CombineParams.default.privacy true = .ok .none := choose_eq hvalidate (.inl rfl)
  have hplan : firstLevel.expand.plan PointFunction.Domain.oneThree.hierarchy none = .ok ⟨0, 0, #[0], 1⟩ := rfl
  have hlabels : ∀ {plan : PointFunction.Plan} {c : EvaluationContext}, c.records = [] →
      Labels.Agree (planLabels F plan c.labels) := fun hrecords b l l' hl => by
    simp [EvaluationContext.labels, hrecords, planLabels] at hl
  have hempty : Aggregation.Settled F (.ofRecords []) := Aggregation.settled_ofRecords fun r hr =>
    absurd hr List.not_mem_nil
  have hfirst := (aggregate_of_plan hcurrent hh.domain hempty (p := firstLevel) hvalidate hnoise hplan (hlabels rfl)
    (E := fun _ => False)).run ht
  obtain ⟨e, -, hnever⟩ | ⟨_, -, -, hdomain, c, hc, hsettled, hrecords, hprevious⟩ := hfirst
  · exact hnever.elim
  have hplan' : secondLevel.expand.plan PointFunction.Domain.oneThree.hierarchy c.previous = .ok ⟨1, 1, #[0, 1], 3⟩ := by
    rw [hprevious]
    rfl
  have hkept : ((aggregate firstLevel).run.run start tape).1.2.sealedKeys = [] ∧
      ((aggregate firstLevel).run.run start tape).1.2.keys = .additiveOne ∧
      ((aggregate firstLevel).run.run start tape).1.2.context ≠ none := by
    rw [run_aggregate hcurrent]
    exact ⟨hh.sealedKeys, hh.keys, Option.some_ne_none _⟩
  obtain ⟨opened, hopened⟩ : ∃ opened, ((aggregate firstLevel).run.run start tape).1.2 = opened := ⟨_, rfl⟩
  rw [hopened] at hdomain hc hkept
  -- The half comes to a helper that has opened what it holds, so the next round goes on without it.
  have hserve : (serve [.round firstLevel, .keyHalves (Codec.toBytes (PeerMessage.keyHalves [half]))] start tape).1.2 =
      { opened with sealedKeys := [half] } := by
    rw [serve_cons, step_round]
    dsimp only
    rw [serve_cons, step_keyHalves, hopened, hkept.1]
    rfl
  have hlater : Current { opened with sealedKeys := [half] } c :=
    hc.takes ⟨opened.joins, [half], by rw [hkept.1]; rfl⟩ (.inl hkept.2.2)
  have hsecond := (aggregate_of_plan hlater hdomain hsettled (p := secondLevel) hvalidate hnoise hplan' (hlabels hrecords)
    (E := fun _ => False)).run ht
  obtain ⟨e, -, hnever⟩ | ⟨g, hg, hhistogram, -⟩ := hsecond
  · exact hnever.elim
  refine ⟨start, Codec.toBytes (PeerMessage.keyHalves [half]), half, record, g, hfresh, ?_⟩
  dsimp only
  rw [hserve]
  have hmem : (5 : UInt64) ∈ (⟨1, 1, #[0, 1], 3⟩ : PointFunction.Plan).buckets.toList := by decide
  refine ⟨rfl, hkept.2.1 ▸ hhalf, hg, (hhistogram.totals.mem 5).mpr hmem, ?_⟩
  rw [hhistogram.totals.share 5 hmem, hhistogram.totals.bucketBits, hrecords]
  decide

end PrivateHistogram.Helper
