import PrivateHistogram.Proofs.Helper.Moves

/-! The table of joins over all calls. Every report is held under its identifier, and either waits for the peer or is
    finished (`Filed`). A message of the peer is taken in as a whole or not at all (`receiveExponentiatedKeys_iff`), a
    batch of reports up to the first that is refused (`receiveReports_outcome`). -/

namespace PrivateHistogram.Helper

variable {S : Suite} {h h' : Helper S}

/-! ### The table -/

/-- Every report is held under its identifier, and either waits for the peer or is finished. -/
def Filed (h : Helper S) : Prop :=
  ∀ (id : ReportId) (state : JoinState), h.joins[id]? = some state →
    state.id = id ∧ ((∃ r, state = .exponentiated r) ∨ ∃ share, state = .rekeyed share)

theorem Filed.awaiting (hfiled : h.Filed) {reports : List PartialReport} {opened : List DecryptedReport}
    (hopens : h.Opens reports opened) : (h.awaiting opened).Filed := by
  intro id state hstate
  rcases hopens.of_getElem?_awaiting hstate with ⟨o, -, rfl, rfl⟩ | ⟨-, hstate⟩
  · exact ⟨rfl, .inl ⟨o, rfl⟩⟩
  · exact hfiled id state hstate

theorem Filed.move (hfiled : h.Filed) {call : Call} {answer : Except Failure Answer} (hmoves : h.Moves call answer h') :
    h'.Filed := by
  cases hmoves with
  | refuse | take | round => exact hfiled
  | await hopens => exact hfiled.awaiting hopens
  | awaitSome _ hopens => exact hfiled.awaiting hopens
  | finish _ hstages =>
    intro id state hstate
    rcases hstages.of_getElem?_commit hstate with ⟨f, -, rfl, rfl⟩ | ⟨-, hstate⟩
    · exact ⟨rfl, .inr ⟨f.share, rfl⟩⟩
    · exact hfiled id state hstate

section Reachable
variable {id : HelperId} {keys : KeyMaterial} {peer : PublicInfo S} {hierarchy : PointFunction.Hierarchy} {start : Helper S}
  (hstart : fresh id keys peer hierarchy = .ok start)
include hstart

theorem fresh_eq : ∃ domain, start = ⟨id, keys, peer, domain, ∅, [], none⟩ := by
  obtain ⟨d, -, hd⟩ := bind_eq_ok.mp hstart
  cases hd
  exact ⟨d, rfl⟩

theorem filed_fresh : start.Filed := by
  obtain ⟨d, rfl⟩ := fresh_eq hstart
  intro id state hstate
  rw [Std.ExtTreeMap.getElem?_empty] at hstate
  cases hstate

theorem filed_serve (calls : List Call) (tape : RandomTape) : (serve calls start tape).1.2.Filed :=
  serve_induction (fun _ _ _ _ hmoves hfiled => hfiled.move hmoves) calls tape (filed_fresh hstart)

end Reachable

/-! ### Messages of the peer -/

/-- After any calls, if halves can be sealed, a helper finishes the reports of a message that it accepts. -/
theorem Accepts.step {id : HelperId} {keys : KeyMaterial} {peer : PublicInfo S} {hierarchy : PointFunction.Hierarchy}
    {start : Helper S} (hstart : fresh id keys peer hierarchy = .ok start)
    (hown : S.transport.Seals (S.transport.publicKeyOf keys.transport)) (hpeer : S.transport.Seals peer.transport)
    {calls : List Call} {tape : RandomTape} {ks : List ExponentiatedKey}
    (haccepts : (serve calls start tape).1.2.Accepts ks) (tape' : RandomTape) :
    let h := (serve calls start tape).1.2
    ∃ finished staged rest, h.Stages ks finished staged ∧
      (Call.exponentiatedKeys (Codec.toBytes (PeerMessage.exponentiatedKeys ks))).step.run.run h tape' =
        ((.ok (.message (Codec.toBytes (PeerMessage.keyHalves staged.peer))), h.commit staged), rest) := by
  obtain ⟨-, hkeys, hpublic, -⟩ := serve_constants calls start tape
  obtain ⟨d, hd⟩ := fresh_eq hstart
  obtain ⟨finished, staged, rest, hstages, hrun⟩ := haccepts.run (by rwa [hkeys, hd]) (by rwa [hpublic, hd])
    (fun id r hr => (filed_serve hstart calls tape id _ hr).1) (PeerMessage.ofBytes_toBytes _) tape'
  refine ⟨finished, staged, rest, hstages, ?_⟩
  rw [Call.step, run_bind_pure, hrun]
  rfl

/-- If halves can be sealed, a helper takes in a message exactly if it has one key that can be opened for every report that
    waits, and none for others. Then those reports are finished, the helper keeps one half for each, and its answer has one
    half for each, all in the order of the message. If the message is refused, nothing changes. -/
theorem receiveExponentiatedKeys_iff {id : HelperId} {keys : KeyMaterial} {peer : PublicInfo S}
    {hierarchy : PointFunction.Hierarchy} {start : Helper S} (hstart : fresh id keys peer hierarchy = .ok start)
    (hown : S.transport.Seals (S.transport.publicKeyOf keys.transport)) (hpeer : S.transport.Seals peer.transport)
    (calls : List Call) (message : Bytes) (tape tape' : RandomTape) :
    let h := (serve calls start tape).1.2
    let result := ((receiveExponentiatedKeys message).run.run h tape').1
    ((∃ answer, result.1 = .ok answer) ↔ ∃ ks, PeerMessage.ofBytes message = .ok (.exponentiatedKeys ks) ∧ h.Accepts ks) ∧
      (∀ answer, result.1 = .ok answer → ∃ ks finished,
        PeerMessage.ofBytes message = .ok (.exponentiatedKeys ks) ∧ List.Forall₂ h.Finishes ks finished ∧
        finished.map (fun f => f.share.id) = ks.map ExponentiatedKey.id ∧
        (∀ f ∈ finished, result.2.joins[f.share.id]? = some (.rekeyed f.share)) ∧
        (∀ id ∉ ks.map ExponentiatedKey.id, result.2.joins[id]? = h.joins[id]?) ∧
        result.2 = { h with joins := result.2.joins, sealedKeys := h.sealedKeys ++ finished.map Finished.own } ∧
        (finished.map Finished.own).map SealedKey.reportId = ks.map ExponentiatedKey.id ∧
        PeerMessage.ofBytes answer = .ok (.keyHalves (finished.map Finished.peer)) ∧
        (finished.map Finished.peer).map SealedKey.reportId = ks.map ExponentiatedKey.id) ∧
      ∀ e, result.1 = .error e → result.2 = h := by
  intro h result
  obtain ⟨-, hkeys, hpublic, -⟩ := serve_constants calls start tape
  obtain ⟨d, hd⟩ := fresh_eq hstart
  have hfiled : ∀ (id : ReportId) (r : DecryptedReport), h.joins[id]? = some (.exponentiated r) → r.id = id :=
    fun id r hr => (filed_serve hstart calls tape id _ hr).1
  have hiff := exists_receiveExponentiatedKeys_iff (h := h) (by rwa [hkeys, hd]) (by rwa [hpublic, hd]) hfiled message tape'
  refine ⟨hiff, ?_⟩
  rcases receiveExponentiatedKeys_cases message h tape' with
    ⟨e, rest, hrun⟩ | ⟨ks, finished, staged, rest, hread, hstages, -, hrun⟩
  · have hresult : result = (.error e, h) := congrArg Prod.fst hrun
    rw [hresult]
    exact ⟨fun answer hanswer => (nomatch hanswer), fun _ _ => rfl⟩
  · have hresult : result = (.ok (Codec.toBytes (PeerMessage.keyHalves staged.peer)), h.commit staged) :=
      congrArg Prod.fst hrun
    rw [hresult]
    refine ⟨fun answer hanswer => ?_, fun e he => (nomatch he)⟩
    obtain ⟨hrekeyed, hothers⟩ := hstages.getElem?_commit
    cases hanswer
    refine ⟨ks, finished, hread, hstages.finishes, hstages.ids, hrekeyed, hothers, ?_, ?_, ?_, ?_⟩
    · rw [commit, hstages.own]
    · rw [← hstages.own, hstages.own_ids]
    · rw [PeerMessage.ofBytes_toBytes, hstages.peer]
    · rw [← hstages.peer, hstages.peer_ids]

/-- A half of a report, sealed in the clear. -/
def additiveHalf (own peer : KeyMaterial) : Report.Half Suite.additive own peer :=
  let id : ReportId := ⟨Octets.zero 16⟩
  let payload : Report.Payload :=
    ⟨ElGamal.encryptWith .additive (peer.publicInfo Suite.additive).elGamal (.ofNat 7) (.ofNat 1), [], .ofNat 9⟩
  { report := ⟨id, ⟨own.transport.bytes.toBytes ++ Report.info id, Codec.toBytes payload⟩⟩
    id, key := .ofNat 7, keyShare := [], valueShare := .ofNat 9
    isHalf := ⟨rfl, .ofNat 1, Report.decrypt_of_open (Transport.openWith_plain _ _ (Codec.toBytes payload))⟩ }

/-- A helper that has received nothing takes in a report, blinds its key, and accepts the key that the peer blinds. -/
theorem step_report (hG : S.group.Lawful) {id : HelperId} {own peer : KeyMaterial} {hierarchy : PointFunction.Hierarchy}
    {start : Helper S} (hstart : fresh id own (peer.publicInfo S) hierarchy = .ok start) (x : Report.Half S own peer)
    (tape : RandomTape) (ht : tape.fault = none) :
    ∃ k h' rest, (Call.reports [x.report]).step.run.run start tape =
        ((.ok (.message (Codec.toBytes (PeerMessage.exponentiatedKeys [k]))), h'), rest) ∧
      Join.IsBlinded S peer own x.id x.key k ∧ ∀ k', Join.IsBlinded S own peer x.id x.key k' → h'.Accepts [k'] := by
  obtain ⟨hserves, hempty⟩ : start.Serves own peer ∧ start.joins = ∅ := by
    obtain ⟨d, rfl⟩ := fresh_eq hstart
    exact ⟨⟨rfl, rfl⟩, rfl⟩
  have hreports := (receiveReports_yields (E := fun _ => False) hG hserves [x] (List.nodup_singleton _) fun _ _ hmem =>
    Std.ExtTreeMap.not_mem_empty (hempty ▸ hmem)).run ht
  rcases hreports with ⟨_, -, hnever⟩ | ⟨message, hmessage, ks, joins, hks, rfl, hjoins, hwaits, hothers⟩
  · exact hnever.elim
  cases hks with | @cons _ k _ _ hk hnil => ?_
  cases hnil
  refine ⟨k, { start with joins }, ((receiveReports [x.report]).run.run start tape).2, ?_, hserves.keys ▸ hk,
    fun k' hk' => ?_⟩
  · rw [List.map_singleton] at hmessage hjoins
    rw [Call.step, run_bind_pure, hmessage, hjoins]
    rfl
  obtain ⟨r, -, hr⟩ := hwaits x (List.mem_singleton_self x)
  obtain ⟨hid, nonce, hcipher⟩ := hk'
  refine ⟨List.nodup_singleton _, ?_, fun id' r' hr' => ?_, ?_⟩
  · rw [List.forall_mem_singleton, hid]
    exact ⟨r, hr⟩
  · rw [List.map_singleton, List.mem_singleton, hid]
    by_contra hne
    have hnone := hothers id' (by simpa using hne)
    rw [hempty, Std.ExtTreeMap.getElem?_empty] at hnone
    cases hnone.symm.trans hr'
  · rw [List.forall_mem_singleton, hcipher]
    exact ⟨Option.isSome_of_eq_some (hG.decode_encode _), Option.isSome_of_eq_some (hG.decode_encode _)⟩

/-- The first helper waits for the peer to blind the key of a report, takes in the message that has it, and finishes the
    report. -/
theorem receiveExponentiatedKeys_iff_additive :
    let S := Suite.additive
    let tape : RandomTape := ⟨fun _ => 0, 0, none⟩
    let x := additiveHalf .additiveOne .additiveTwo
    ∃ (start : Helper S) (message : Bytes) (share : AggregationIdShare),
      fresh .one .additiveOne (KeyMaterial.additiveTwo.publicInfo S) ⟨[1, 3]⟩ = .ok start ∧
      let h := (serve [.reports [x.report]] start tape).1.2
      let result := ((receiveExponentiatedKeys message).run.run h tape).1
      (∃ answer, result.1 = .ok answer) ∧ result.2.joins[x.id]? = some (.rekeyed share) := by
  intro S tape x
  have hone : S.transport.Opens KeyMaterial.additiveOne.transport := Transport.plain_lawful.opens _
  have htwo : S.transport.Opens KeyMaterial.additiveTwo.transport := Transport.plain_lawful.opens _
  obtain ⟨start, hfresh, -⟩ := exists_fresh (S := S) .one .additiveOne .additiveTwo .oneThree
  clear_value x
  obtain ⟨k, hk⟩ : ∃ k, Join.IsBlinded S KeyMaterial.additiveOne KeyMaterial.additiveTwo x.id x.key k :=
    ⟨⟨x.id, _⟩, rfl, .ofNat 1, rfl⟩
  obtain ⟨_, h', _, hreport, -, haccepts⟩ := step_report KeyGroup.additive_lawful hfresh x tape rfl
  have hserve : (serve [.reports [x.report]] start tape).1.2 = h' := by
    rw [serve_cons, hreport]
    rfl
  obtain ⟨hiff, hok, -⟩ := receiveExponentiatedKeys_iff hfresh hone.seals htwo.seals [.reports [x.report]]
    (Codec.toBytes (PeerMessage.exponentiatedKeys [k])) tape tape
  obtain ⟨answer, hanswer⟩ := hiff.mpr ⟨[k], PeerMessage.ofBytes_toBytes _, hserve ▸ haccepts k hk⟩
  obtain ⟨ks, finished, hks, -, hids, hrekeyed, -⟩ := hok answer hanswer
  obtain rfl : ks = [k] :=
    (PeerMessage.exponentiatedKeys.inj (Except.ok.inj ((PeerMessage.ofBytes_toBytes _).symm.trans hks))).symm
  have hmem : x.id ∈ finished.map fun f => f.share.id := by
    rw [hids, List.map_singleton, hk.1]
    exact List.mem_singleton_self _
  obtain ⟨f, hf, hid⟩ := List.mem_map.mp hmem
  exact ⟨start, _, f.share, hfresh, ⟨answer, hanswer⟩, hid ▸ hrekeyed f hf⟩

/-! ### Batches of reports -/

/-- A batch is taken in report by report. If none is refused, the answer has one blinded key for each, in order. If one is
    refused, those before it stay taken in and wait for the peer; unless it is the first, the helper has changed, and no
    later batch with a report that was taken in is accepted. -/
theorem receiveReports_outcome (h : Helper S) (reports : List PartialReport) (tape : RandomTape) :
    let result := ((receiveReports reports).run.run h tape).1
    ∃ taken others opened, reports = taken ++ others ∧ h.Opens taken opened ∧ result.2 = h.awaiting opened ∧
      (∀ o ∈ opened, result.2.joins[o.id]? = some (.exponentiated o)) ∧
      (∀ id ∉ taken.map PartialReport.id, result.2.joins[id]? = h.joins[id]?) ∧
      (∀ message, result.1 = .ok message → others = [] ∧ ∃ keys,
        PeerMessage.ofBytes message = .ok (.exponentiatedKeys keys) ∧
        keys.map ExponentiatedKey.id = reports.map PartialReport.id) ∧
      ∀ e, result.1 = .error e → (∃ r ∈ others.head?, result.2.Refuses r e) ∧ (result.2 = h ↔ taken = []) ∧
        ∀ later tape₁ batch tape₂, (∃ r ∈ batch, r.id ∈ taken.map PartialReport.id) →
          ∃ e', ((receiveReports batch).run.run (serve later result.2 tape₁).1.2 tape₂).1.1 = .error e' := by
  intro result
  obtain ⟨taken, others, opened, answer, rest, hrun, hsplit, hopens, hanswer⟩ := receiveReports_run reports h tape
  have hresult : result = (answer, h.awaiting opened) := congrArg Prod.fst hrun
  rw [hresult]
  obtain ⟨hnew, hothers⟩ := hopens.getElem?_awaiting
  refine ⟨taken, others, opened, hsplit, hopens, rfl, hnew, hothers, fun message hok => ?_, fun e herror => ?_⟩
  · obtain rfl : answer = .ok message := hok
    obtain ⟨hall, keys, rfl, hids⟩ := hanswer
    exact ⟨hall, keys, PeerMessage.ofBytes_toBytes _, hids⟩
  · obtain rfl : answer = .error e := herror
    refine ⟨hanswer, ⟨fun hsame => ?_, ?_⟩, ?_⟩
    · cases taken with
      | nil => rfl
      | cons r taken =>
        have hmem : r.id ∈ (h.awaiting opened).joins := hopens.mem_awaiting.mpr (.inr List.mem_cons_self)
        exact absurd (hsame ▸ hmem) (hopens.fresh r List.mem_cons_self)
    · rintro rfl
      cases hopens.decrypt
      exact awaiting_nil
    · rintro later tape₁ batch tape₂ ⟨r, hr, hid⟩
      have hmem := mem_serve later tape₁ (hopens.mem_awaiting.mpr (.inr hid))
      obtain ⟨taken', others', _, answer', _, hrun', hsplit', hopens', hanswer'⟩ :=
        receiveReports_run batch (serve later (h.awaiting opened) tape₁).1.2 tape₂
      rw [hrun']
      cases answer' with
      | error e' => exact ⟨e', rfl⟩
      | ok message =>
        rw [hsplit', hanswer'.1, List.append_nil] at hr
        exact absurd hmem (hopens'.fresh r hr)

/-- A batch with a report twice is refused, and the report stays taken in: the batch without the repetition is refused now,
    though it would have been accepted before. -/
theorem failed_batch_keeps_reports :
    let S := Suite.additive
    let tape : RandomTape := ⟨fun _ => 0, 0, none⟩
    let x := additiveHalf .additiveOne .additiveTwo
    ∃ (h failed : Helper S) (rest : RandomTape) (message : Bytes),
      fresh .one .additiveOne (KeyMaterial.additiveTwo.publicInfo S) ⟨[1, 3]⟩ = .ok h ∧
      (receiveReports [x.report, x.report]).run.run h tape =
        ((.error (.input (.duplicateReport x.report.id)), failed), rest) ∧
      x.report.id ∉ h.joins ∧ x.report.id ∈ failed.joins ∧
      ((receiveReports [x.report]).run.run h tape).1.1 = .ok message ∧
      (receiveReports [x.report]).run.run failed tape =
        ((.error (.input (.duplicateReport x.report.id)), failed), tape) := by
  intro S tape x
  obtain ⟨h, hfresh, hh⟩ := exists_fresh (S := S) .one .additiveOne .additiveTwo .oneThree
  clear_value x
  have hnew : x.id ∉ h.joins := fun hmem => List.not_mem_nil (hh.mem _ hmem)
  obtain ⟨e, -, hnever⟩ | ⟨key, hkey, -, r, -, hafter⟩ :=
    (receiveReport_yields (E := fun _ => False) KeyGroup.additive_lawful hh.toServes x hnew).run
      (show tape.fault = none from rfl)
  · exact hnever.elim
  let failed : Helper S := { h with joins := h.joins.insert x.id (.exponentiated r) }
  let rest := ((receiveReport x.report).run.run h tape).2
  have hmem : x.report.id ∈ failed.joins := x.report_id ▸ mem_insert.mpr (.inl rfl)
  have hfirst : (receiveReport x.report).run.run h tape = ((.ok key, failed), rest) := Prod.ext (Prod.ext hkey hafter) rfl
  have hsecond : ∀ tape, (receiveReport x.report).run.run failed tape =
      ((.error (.input (.duplicateReport x.report.id)), failed), tape) := fun tape => by
    rw [receiveReport_run, if_pos hmem]
  refine ⟨h, failed, rest, Codec.toBytes (PeerMessage.exponentiatedKeys [key]), hfresh, ?_, x.report_id ▸ hnew,
    hmem, ?_, ?_⟩
  · rw [receiveReports, run_bind, List.mapM_cons, run_bind, hfirst]
    dsimp only
    rw [run_bind, List.mapM_cons, run_bind, hsecond]
  · rw [receiveReports, run_bind, List.mapM_cons, run_bind, hfirst]
    rfl
  · rw [receiveReports, run_bind, List.mapM_cons, run_bind, hsecond]

end PrivateHistogram.Helper
