import PrivateHistogram.Proofs.Aggregation.Partitions
import PrivateHistogram.Proofs.Helper.Retries
import PrivateHistogram.Proofs.Helper.SeparateRuns

/-! Key halves that overtake a message of the join. A call of the join does not look at the key halves that are held, and
    adds its own behind them (`step_behind`), so halves that come before it and halves that come after it leave the same
    halves, in another order (`serve_keyHalves_swap`). A first round adds all halves up, so only the order of their labels
    could matter to it, and the halves of a peer have none. -/

namespace PrivateHistogram.Helper

variable {S : Suite}

/-! ### Steps that do not look at the key halves -/

/-- The helper with some key halves held before its own. -/
def behind (front : List SealedKey) (h : Helper S) : Helper S := { h with sealedKeys := front ++ h.sealedKeys }

def resultBehind {α : Type} (front : List SealedKey) (result : (Except Failure α × Helper S) × RandomTape) :
    (Except Failure α × Helper S) × RandomTape :=
  ((result.1.1, result.1.2.behind front), result.2)

/-- A step does the same whatever key halves are held, and leaves them where they are. -/
def Overlooks {α : Type} (x : HelperStep S α) (front : List SealedKey) : Prop :=
  ∀ h tape, x.run.run (h.behind front) tape = resultBehind front (x.run.run h tape)

namespace Overlooks
variable {α β : Type} {front : List SealedKey} {x : HelperStep S α} {f : α → HelperStep S β}

theorem pure (a : α) : Overlooks (Pure.pure a : HelperStep S α) front := fun _ _ => rfl

theorem bind (hx : Overlooks x front) (hf : ∀ a, Overlooks (f a) front) : Overlooks (x >>= f) front := by
  intro h tape
  rw [run_bind, run_bind, hx h tape]
  rcases x.run.run h tape with ⟨⟨e | a, h'⟩, rest⟩
  · rfl
  · exact hf a h' rest

theorem mapM {γ : Type} {g : γ → HelperStep S α} (hg : ∀ c, Overlooks (g c) front) (cs : List γ) :
    Overlooks (cs.mapM g) front := by
  induction cs with
  | nil => exact pure []
  | cons c cs ih =>
    rw [List.mapM_cons]
    exact bind (hg c) fun a => bind ih fun as => pure (a :: as)

end Overlooks

section Join
variable (front : List SealedKey)

theorem receiveReport_overlooks (r : PartialReport) : Overlooks (receiveReport r : HelperStep S _) front := by
  intro h tape
  have hjoins : (h.behind front).joins = h.joins := rfl
  have hkeys : (h.behind front).keys = h.keys := rfl
  have hpeer : (h.behind front).peer = h.peer := rfl
  rw [receiveReport_run, receiveReport_run, hjoins, hkeys, hpeer]
  split
  · rfl
  · rcases Report.decrypt S r h.keys.transport with e | opened
    · rfl
    · dsimp only
      rcases Join.exponentiate S opened h.keys.secret h.peer.elGamal tape with ⟨e | message, rest⟩ <;> rfl

theorem receiveExponentiatedKeys_overlooks (message : Bytes) :
    Overlooks (receiveExponentiatedKeys message : HelperStep S _) front := by
  intro h tape
  have hstage : stageKey (h.behind front) = stageKey h := rfl
  have hmissing : (h.behind front).missing? = h.missing? := rfl
  have hcommit : ∀ staged, (h.behind front).commit staged = (h.commit staged).behind front := fun staged => by
    rw [commit, commit, behind, behind, List.append_assoc]
  rw [receiveExponentiatedKeys_run, receiveExponentiatedKeys_run]
  cases (PeerMessage.ofBytes message).bind PeerMessage.toExponentiatedKeys with
  | error e => rfl
  | ok ks =>
    simp only [hstage, hmissing, hcommit]
    rcases ks.foldlM (stageKey h) ⟨∅, [], []⟩ tape with ⟨e | staged, rest⟩
    · rfl
    · dsimp only
      cases h.missing? staged <;> rfl

/-- A call of the join does not look at the key halves that are held. -/
theorem step_overlooks {call : Call} (hcall : call.isJoin = true) : Overlooks (call.step : HelperStep S Answer) front := by
  cases call with
  | reports list => exact .bind (.bind (.mapM (receiveReport_overlooks front) list) fun _ => .pure _) fun _ => .pure _
  | exponentiatedKeys message => exact .bind (receiveExponentiatedKeys_overlooks front message) fun _ => .pure _
  | keyHalves | round => cases hcall

end Join

/-! ### Two orders -/

theorem exists_step_keyHalves (message : Bytes) : ∃ answer, ∀ (h : Helper S) (tape : RandomTape),
    (Call.keyHalves message).step.run.run h tape =
      ((answer, { h with sealedKeys := h.sealedKeys ++ halvesIn message }), tape) := by
  cases hread : (PeerMessage.ofBytes message).bind PeerMessage.toKeyHalves with
  | error e =>
    refine ⟨.error (.ofMessage e), fun h tape => ?_⟩
    rw [Call.step, run_bind_pure, receiveKeyHalves_run, halvesIn, hread]
    simp only [List.append_nil]
    rfl
  | ok keys =>
    refine ⟨.ok .taken, fun h tape => ?_⟩
    rw [Call.step, run_bind_pure, receiveKeyHalves_run, halvesIn, hread]
    rfl

/-- Whatever key halves are held, a call of the join puts the same ones behind them. -/
theorem step_behind {call : Call} (hcall : call.isJoin = true) (h : Helper S) (tape : RandomTape) :
    ∃ answer joins own rest, ∀ held, call.step.run.run { h with sealedKeys := held } tape =
      ((answer, { h with joins, sealedKeys := held ++ own }), rest) := by
  -- Started without any halves, the call leaves the ones that it adds.
  let bare : Helper S := { h with sealedKeys := [] }
  have hreceipt : call.isReceipt = true := by cases call <;> first | rfl | cases hcall
  obtain ⟨joins, own, htakes⟩ := (receives_of_isReceipt hreceipt bare none tape).1
  refine ⟨(call.step.run.run bare tape).1.1, joins, own, (call.step.run.run bare tape).2, fun held => ?_⟩
  have hheld : { h with sealedKeys := held } = bare.behind held := by rw [behind, List.append_nil]
  rw [hheld, step_overlooks held hcall bare tape, resultBehind, htakes]
  rfl

/-- Each of the two is answered as it is without the other, and both orders leave the same helper but for the order of its
    key halves. -/
theorem serve_keyHalves_swap (message : Bytes) {call : Call} (hcall : call.isJoin = true) (h : Helper S)
    (tape : RandomTape) :
    ∃ first second joins own rest,
      serve [.keyHalves message, call] h tape =
        (([first, second], { h with joins, sealedKeys := h.sealedKeys ++ halvesIn message ++ own }), rest) ∧
      serve [call, .keyHalves message] h tape =
        (([second, first], { h with joins, sealedKeys := h.sealedKeys ++ own ++ halvesIn message }), rest) := by
  obtain ⟨first, hfirst⟩ := exists_step_keyHalves (S := S) message
  obtain ⟨second, joins, own, rest, hsecond⟩ := step_behind hcall h tape
  refine ⟨first, second, joins, own, rest, ?_, ?_⟩
  · simp only [serve_cons, hfirst, hsecond]
    rfl
  · simp only [serve_cons, hsecond h.sealedKeys, hfirst]
    rfl

/-! ### The first round -/

/-- The label of the report that a key half is for, if the half opens and has one. -/
def labelIn (S : Suite) (keys : KeyMaterial) (half : SealedKey) : Option BucketLabel :=
  (half.toRecord S.transport keys.transport).toOption.bind KeyRecord.label

theorem filterMap_label {keys : KeyMaterial} {halves : List SealedKey} {records : List KeyRecord}
    (hopened : List.Forall₂ (fun s r => s.toRecord S.transport keys.transport = .ok r) halves records) :
    records.filterMap KeyRecord.label = halves.filterMap (labelIn S keys) := by
  induction hopened with
  | nil => rfl
  | cons hopen _ ih => rw [List.filterMap_cons, List.filterMap_cons, ih, labelIn, hopen, Except.toOption, Option.bind_some]

theorem ofSealed_of_perm {keys : KeyMaterial} {halves halves' : List SealedKey} (hperm : halves.Perm halves')
    (hlabels : halves'.filterMap (labelIn S keys) = halves.filterMap (labelIn S keys)) {context : EvaluationContext}
    (hopen : EvaluationContext.ofSealed S.transport keys.transport halves = .ok context) :
    ∃ records records', context = .ofRecords records ∧
      EvaluationContext.ofSealed S.transport keys.transport halves' = .ok (.ofRecords records') ∧
      records.Perm records' ∧ records'.filterMap KeyRecord.label = records.filterMap KeyRecord.label := by
  obtain ⟨records, hrecords, hcontext⟩ := bind_eq_ok.mp hopen
  cases hcontext
  have hopened := forall₂_of_mapM hrecords
  obtain ⟨records', hopened', hrecords'⟩ := List.perm_comp_forall₂ hperm.symm hopened
  refine ⟨records, records', rfl, ?_, hrecords'.symm, ?_⟩
  · rw [EvaluationContext.ofSealed, mapM_eq_ok hopened']
    rfl
  · rw [filterMap_label hopened, filterMap_label hopened', hlabels]

/-- The first round goes by which key halves are held and by the order of those with labels, so it makes no difference where
    others stand among them. -/
theorem aggregate_of_perm {h : Helper S} (hnone : h.context = none) {halves : List SealedKey}
    (hperm : h.sealedKeys.Perm halves)
    (hlabels : halves.filterMap (labelIn S h.keys) = h.sealedKeys.filterMap (labelIn S h.keys)) {p : RoundParams}
    (hnoise : p.isNoised = false) {tape : RandomTape} {histogram : PartialHistogram}
    (hok : ((aggregate p).run.run h tape).1.1 = .ok histogram) (tape' : RandomTape) :
    ((aggregate p).run.run { h with sealedKeys := halves } tape').1.1 = .ok histogram := by
  rw [aggregate_of_not_noised hnoise _ tape' tape]
  rcases current_or_refused h with ⟨context, hcurrent⟩ | ⟨-, e, hopen⟩
  · obtain ⟨-, hopen⟩ := hcurrent.resolve_left (by simp [hnone])
    obtain ⟨records, records', rfl, hopen', hrecords, hrecords'⟩ := ofSealed_of_perm hperm hlabels hopen
    have hcurrent' : Current { h with sealedKeys := halves } (.ofRecords records') := .inr ⟨hnone, hopen'⟩
    rw [run_aggregate hcurrent, round_run] at hok
    rw [run_aggregate hcurrent', round_run]
    cases hchoose : Noise.choose p.combine.privacy p.ignorePrivacy with
    | error e =>
      rw [hchoose] at hok
      cases hok
    | ok noise =>
      obtain rfl := noise_eq_none hnoise hchoose
      rw [hchoose] at hok
      exact mapError_eq_ok.mpr (Aggregation.aggregate_of_perm hrecords hrecords' (mapError_eq_ok.mp hok))
  · rw [run_aggregate_of_refused hnone hopen] at hok
    cases hok

theorem aggregate_swap {h : Helper S} (hnone : h.context = none) {held came own : List SealedKey}
    (hheld : h.sealedKeys = held ++ came ++ own) (hunlabelled : came.filterMap (labelIn S h.keys) = []) {p : RoundParams}
    (hnoise : p.isNoised = false) (tape tape' : RandomTape) (histogram : PartialHistogram) :
    ((aggregate p).run.run h tape).1.1 = .ok histogram ↔
      ((aggregate p).run.run { h with sealedKeys := held ++ own ++ came } tape').1.1 = .ok histogram := by
  have hperm : h.sealedKeys.Perm (held ++ own ++ came) := by
    rw [hheld, List.append_assoc, List.append_assoc]
    exact List.perm_append_comm.append_left held
  have hlabels : (held ++ own ++ came).filterMap (labelIn S h.keys) = h.sealedKeys.filterMap (labelIn S h.keys) := by
    simp only [hheld, List.filterMap_append, hunlabelled, List.append_nil]
  constructor
  · exact fun hok => aggregate_of_perm hnone hperm hlabels hnoise hok tape'
  · exact fun hok => aggregate_of_perm (h := { h with sealedKeys := held ++ own ++ came }) hnone hperm.symm hlabels.symm
      hnoise hok tape

/-- A helper that has had no round yet is given any bytes for key halves, none of which opens to a half with a label, before
    or after a call of the join. Both orders give the same answers and draw the same random bytes, and leave the same helper
    but for the order of its key halves. So the first round without noise gives a histogram after one order if and only if
    it gives the same one after the other. -/
theorem keyHalves_in_any_order {id : HelperId} {keys : KeyMaterial} {peer : PublicInfo S}
    {hierarchy : PointFunction.Hierarchy} {start : Helper S} (hstart : fresh id keys peer hierarchy = .ok start)
    {before : List Call} (hbefore : ∀ call ∈ before, call.isReceipt = true) (tape₀ : RandomTape) {message : Bytes}
    (hunlabelled : ∀ s ∈ halvesIn message, ∀ r, s.toRecord S.transport keys.transport = .ok r → r.label = none)
    {call : Call} (hcall : call.isJoin = true) (tape : RandomTape) :
    let h := (serve before start tape₀).1.2
    let early := serve [.keyHalves message, call] h tape
    let late := serve [call, .keyHalves message] h tape
    (∃ first second, early.1.1 = [first, second] ∧ late.1.1 = [second, first]) ∧ late.2 = early.2 ∧
      early.1.2.joins = late.1.2.joins ∧ early.1.2.sealedKeys.Perm late.1.2.sealedKeys ∧
      late.1.2 = { early.1.2 with sealedKeys := late.1.2.sealedKeys } ∧
      ∀ p, p.isNoised = false → ∀ tape₁ tape₂ histogram,
        ((aggregate p).run.run early.1.2 tape₁).1.1 = .ok histogram ↔
          ((aggregate p).run.run late.1.2 tape₂).1.1 = .ok histogram := by
  intro h early late
  obtain ⟨-, hkeys, -, -⟩ := serve_constants before start tape₀
  obtain ⟨joins₀, held, htakes⟩ := takes_of_receipts hbefore start tape₀
  obtain ⟨d, rfl⟩ := fresh_eq hstart
  have hnone : h.context = none := congrArg Helper.context htakes
  have hlabels : (halvesIn message).filterMap (labelIn S h.keys) = [] := by
    refine List.filterMap_eq_nil_iff.mpr fun s hs => ?_
    rw [labelIn, hkeys]
    cases hopen : s.toRecord S.transport keys.transport with
    | error e => rfl
    | ok r => exact hunlabelled s hs r hopen
  obtain ⟨first, second, joins, own, rest, hearly, hlate⟩ := serve_keyHalves_swap message hcall h tape
  rw [show early = _ from hearly, show late = _ from hlate]
  refine ⟨⟨first, second, rfl, rfl⟩, rfl, rfl, ?_, rfl, fun p hnoise tape₁ tape₂ histogram => ?_⟩
  · rw [List.append_assoc, List.append_assoc]
    exact List.perm_append_comm.append_left h.sealedKeys
  · exact aggregate_swap (h := { h with joins, sealedKeys := h.sealedKeys ++ halvesIn message ++ own }) hnone rfl hlabels
      hnoise tape₁ tape₂ histogram

/-- A helper that has received nothing takes in a report, and with the keys that the peer blinds for it makes a half that
    has a label. -/
theorem exists_half_made (hG : S.group.Lawful) {id : HelperId} {own peer : KeyMaterial} {d : PointFunction.Domain}
    {start : Helper S} (hh : Holds id own peer d [] [] [] start) (hown : S.transport.Opens own.transport)
    (hpeer : S.transport.Opens peer.transport) (x : Report.Half S own peer) {k : ExponentiatedKey}
    (hk : Join.IsBlinded S own peer x.id x.key k) {tape : RandomTape} (ht : tape.fault = none) :
    let h := (serve [.reports [x.report]] start tape).1.2
    let blinded := Codec.toBytes (PeerMessage.exponentiatedKeys [k])
    h.sealedKeys = [] ∧ ∃ half record label,
      Holds id own peer d [half] [x] [] ((Call.exponentiatedKeys blinded).step.run.run h tape).1.2 ∧
      half.toRecord S.transport own.transport = .ok record ∧ record.label = some label ∧
      (Round.pointFunction S d).checkKey record.key = .ok () := by
  intro h blinded
  have hnodup : (([] ++ [x]).map Report.Half.id).Nodup := List.nodup_singleton _
  obtain ⟨e, -, hnever⟩ | ⟨_, -, hjoined, -⟩ := (hh.receiveReports (E := fun _ => False) hG hnodup).run ht
  · exact hnever.elim
  have hserve : ((receiveReports ([x].map Report.Half.report)).run.run start tape).1.2 = h := by
    simp only [h, serve_cons, Call.step, run_bind_pure]
    rfl
  rw [hserve] at hjoined
  obtain ⟨e, -, hnever⟩ | ⟨_, -, made, staged, hmade, hfinished, -⟩ :=
    (hjoined.receiveExponentiatedKeys (E := fun _ => False) hG hown hpeer hnodup (.cons hk .nil)).run ht
  · exact hnever.elim
  have hsealed := hmade.own
  cases hmade.generated with | @cons _ key _ _ hkey hnil => ?_
  cases hnil
  obtain ⟨_, _, hkey⟩ := hkey
  rw [Aggregation.generateKeys_eq _ rfl] at hkey
  generalize staged.own = list at hsealed hfinished
  cases hsealed with | @cons half _ _ _ hopen hnil => ?_
  cases hnil
  cases hkey
  refine ⟨hjoined.sealedKeys, half, _, _, ?_, hopen, rfl, (PointFunction.checkKey_keysFrom _ _ _ _ _).1⟩
  rw [Call.step, run_bind_pure]
  exact hfinished

/-- A half of the peer overtakes the keys that it has blinded for a report. The helper then holds the half and that of the
    key it makes in the other order, and its first round gives the same histogram. -/
theorem keyHalves_in_any_order_additive :
    let S := Suite.additive
    let tape : RandomTape := ⟨fun _ => 0, 0, none⟩
    let x := additiveHalf .additiveOne .additiveTwo
    ∃ (start : Helper S) (message blinded : Bytes) (half own : SealedKey) (histogram : PartialHistogram),
      fresh .one .additiveOne (KeyMaterial.additiveTwo.publicInfo S) ⟨[1, 3]⟩ = .ok start ∧
      let h := (serve [.reports [x.report]] start tape).1.2
      let early := (serve [.keyHalves message, .exponentiatedKeys blinded] h tape).1.2
      let late := (serve [.exponentiatedKeys blinded, .keyHalves message] h tape).1.2
      half ≠ own ∧ early.sealedKeys = [half, own] ∧ late.sealedKeys = [own, half] ∧
        ((aggregate firstLevel).run.run early tape).1.1 = .ok histogram ∧
        ((aggregate firstLevel).run.run late tape).1.1 = .ok histogram := by
  intro S tape x
  let F := Round.pointFunction S .oneThree
  let record : KeyRecord := ⟨⟨Octets.zero 16⟩, (F.keysFrom 5 ⟨.ofNat 7, 1⟩ (Octets.zero 16) (Octets.zero 16)).2, none⟩
  have hrecord : F.checkKey record.key = .ok () := (PointFunction.checkKey_keysFrom F 5 _ _ _).2
  have hone : S.transport.Opens KeyMaterial.additiveOne.transport := Transport.plain_lawful.opens _
  have htwo : S.transport.Opens KeyMaterial.additiveTwo.transport := Transport.plain_lawful.opens _
  have ht : tape.fault = none := rfl
  obtain ⟨half, -, -, -, hhalf⟩ := (ofRecord_yields hone record).run ht
  obtain ⟨start, hstart, hh⟩ := exists_fresh (S := S) .one .additiveOne .additiveTwo .oneThree
  clear_value x
  obtain ⟨k, hk⟩ : ∃ k, Join.IsBlinded S KeyMaterial.additiveOne KeyMaterial.additiveTwo x.id x.key k :=
    ⟨⟨x.id, _⟩, rfl, .ofNat 1, rfl⟩
  obtain ⟨hempty, own, record', label, hfinished, hown, hlabel, hrecord'⟩ :=
    exists_half_made KeyGroup.additive_lawful hh hone htwo x hk ht
  obtain ⟨message, hmessage⟩ : ∃ message, halvesIn message = [half] := ⟨_, halvesIn_keyHalves [half]⟩
  generalize Codec.toBytes (PeerMessage.exponentiatedKeys [k]) = blinded at hfinished
  generalize hreceived : (serve [.reports [x.report]] start tape).1.2 = h at hempty hfinished
  have hjoin : (Call.exponentiatedKeys blinded).isJoin = true := rfl
  -- What the helper holds after each of the orders.
  obtain ⟨answer, htake⟩ := exists_step_keyHalves (S := S) message
  generalize hafter : ((Call.exponentiatedKeys blinded).step.run.run h tape).1.2 = after at hfinished
  have hlate : (serve [.exponentiatedKeys blinded, .keyHalves message] h tape).1.2 =
      { after with sealedKeys := [own, half] } := by
    simp only [serve_cons, hafter, htake, hfinished.sealedKeys, hmessage]
    rfl
  have hearly : (serve [.keyHalves message, .exponentiatedKeys blinded] h tape).1.2.sealedKeys = [half, own] := by
    obtain ⟨_, _, joins, more, _, hearly, hswapped⟩ := serve_keyHalves_swap message hjoin h tape
    have hmore := congrArg (fun result => result.1.2.sealedKeys) hswapped
    simp only [hlate, hempty, hmessage, List.nil_append] at hmore
    obtain rfl : [own] = more := List.append_cancel_right hmore
    rw [hearly, hempty, hmessage]
    rfl
  -- The histogram after one of them.
  have hcurrent : Current { after with sealedKeys := [own, half] } (.ofRecords [record', record]) := by
    refine .inr ⟨hfinished.context, ?_⟩
    simp only [hfinished.keys, EvaluationContext.ofSealed, List.mapM_cons, List.mapM_nil, hown, hhalf]
    rfl
  have hlabels : (EvaluationContext.ofRecords [record', record]).labels = [label] := by
    simp [EvaluationContext.labels, EvaluationContext.ofRecords, hlabel, record]
  obtain ⟨e, -, hnever⟩ | ⟨histogram, hok, -⟩ := (aggregate_firstLevel_of_agree hcurrent hfinished.domain
    (List.forall_mem_cons.mpr ⟨hrecord', List.forall_mem_singleton.mpr hrecord⟩)
    (hlabels ▸ Aggregation.agree_planLabels (by simp) _)).run ht
  · exact hnever.elim
  rw [← hlate] at hok
  have hreports : ∀ call ∈ [Call.reports [x.report]], call.isReceipt = true := List.forall_mem_singleton.mpr rfl
  have hunlabelled : ∀ s ∈ halvesIn message, ∀ r,
      s.toRecord S.transport KeyMaterial.additiveOne.transport = .ok r → r.label = none := by
    rw [hmessage, List.forall_mem_singleton]
    intro r hr
    cases hhalf.symm.trans hr
    rfl
  obtain ⟨-, -, -, -, -, hround⟩ := keyHalves_in_any_order hstart hreports tape hunlabelled hjoin tape
  rw [hreceived] at hround
  subst hreceived
  refine ⟨start, message, blinded, half, own, histogram, hstart, ?_, hearly, by rw [hlate], ?_, hok⟩
  · rintro rfl
    cases hhalf.symm.trans hown
    cases hlabel
  · exact (hround firstLevel rfl tape tape histogram).mpr hok

end PrivateHistogram.Helper
