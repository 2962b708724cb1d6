import PrivateHistogram.Proofs.Helper.Joins

/-! Joins that a helper finishes. The keys of the peer's message are worked through beside the table of joins
    (`Stages.step`), so a key for a report that has been done already is refused, and the table changes only at the end
    and if every report that waits has been done (`receiveExponentiatedKeys_cases`). -/

namespace PrivateHistogram

section Parts
variable {S : Suite}

theorem Join.exists_rekey_iff {k : ExponentiatedKey} {r : DecryptedReport} {key : ElGamal.PrivateKey}
    {own : ElGamal.Secret} :
    (∃ found, rekey S k r key own = .ok found) ↔
      k.id = r.id ∧ (S.group.decode? k.ciphertext.c1).isSome ∧ (S.group.decode? k.ciphertext.c2).isSome := by
  rw [rekey]
  by_cases hid : k.id = r.id
  · rw [if_neg (not_not_intro hid)]
    simp only [ElGamal.decrypt, ElGamal.Ciphertext.points, ElGamal.decodePoint, hid, true_and]
    cases S.group.decode? k.ciphertext.c1 <;> cases S.group.decode? k.ciphertext.c2 <;>
      simp [Except.mapError, bind, Except.bind, pure, Except.pure]
  · rw [if_pos hid]
    constructor
    · rintro ⟨_, h⟩
      cases h
    · exact fun h => absurd h.1 hid

theorem Join.share_id_of_rekey {k : ExponentiatedKey} {r : DecryptedReport} {key : ElGamal.PrivateKey}
    {own : ElGamal.Secret}
    {share : AggregationIdShare} {payload : AggregationPayload} (h : rekey S k r key own = .ok (share, payload)) :
    share.id = r.id ∧ payload.id = r.id := by
  rw [rekey] at h
  split at h
  · cases h
  · obtain ⟨blinded, -, h⟩ := bind_eq_ok.mp h
    cases h
    exact ⟨rfl, rfl⟩

theorem JoinState.receivePeer_eq_ok {k : ExponentiatedKey} {state state' : JoinState} :
    state.receivePeer k = .ok state' ↔ ∃ r, state = .exponentiated r ∧ k.id = r.id ∧ state' = .received r k := by
  cases state with
  | exponentiated r =>
    rw [receivePeer]
    by_cases hid : k.id = r.id
    · rw [if_neg (not_not_intro hid)]
      constructor
      · exact fun h => ⟨r, rfl, hid, (Except.ok.inj h).symm⟩
      · rintro ⟨_, hr, -, rfl⟩
        cases hr
        rfl
    · rw [if_pos hid]
      constructor
      · intro h
        cases h
      · rintro ⟨_, hr, h, -⟩
        cases hr
        exact absurd h hid
  | decrypted | received | rekeyed =>
    constructor
    · intro h
      cases h
    · rintro ⟨_, h, -⟩
      cases h

theorem JoinState.rekey_received {k : ExponentiatedKey} {r : DecryptedReport} {key : ElGamal.PrivateKey}
    {own : ElGamal.Secret} {found : JoinState × AggregationIdShare × AggregationPayload} :
    (JoinState.received r k).rekey S key own = .ok found ↔
      Join.rekey S k r key own = .ok found.2 ∧ found.1 = .rekeyed found.2.1 := by
  obtain ⟨state, share, payload⟩ := found
  rw [rekey, bind_eq_ok]
  constructor
  · rintro ⟨_, hrekey, h⟩
    cases h
    exact ⟨hrekey, rfl⟩
  · rintro ⟨hrekey, hstate⟩
    obtain rfl : state = .rekeyed share := hstate
    exact ⟨_, hrekey, rfl⟩

theorem SealedKey.reportId_of_ofRecord {T : Transport} {r : KeyRecord} {k : Transport.PublicKey} {s : SealedKey}
    {tape rest : RandomTape} (h : ofRecord T r k tape = (.ok s, rest)) : s.reportId = r.reportId := by
  obtain ⟨sealed, _, -, h⟩ := Attempt.bind_eq_ok.mp h
  cases h
  rfl

theorem SealedKey.ofRecord_of_seals {T : Transport} {k : Transport.PublicKey} (hk : T.Seals k) (r : KeyRecord)
    (tape : RandomTape) : ∃ s rest, ofRecord T r k tape = (.ok s, rest) := by
  obtain ⟨sealed, rest, hseal⟩ := hk.sealTo (info r.reportId) (Codec.toBytes r) tape
  exact ⟨⟨r.reportId, sealed⟩, rest, Attempt.bind_of_ok hseal⟩

/-- A key half that is sealed to a helper opens again. -/
theorem SealedKey.toRecord_of_ofRecord {T : Transport} {k : Transport.PrivateKey} (hk : T.Opens k) {r : KeyRecord}
    {s : SealedKey} {tape rest : RandomTape} (h : ofRecord T r (T.publicKeyOf k) tape = (.ok s, rest)) :
    s.toRecord T k = .ok r := by
  obtain ⟨sealed, _, hseal, h⟩ := Attempt.bind_eq_ok.mp h
  cases h
  exact toRecord_of_open (hk.undoes.openWith hseal)

end Parts

namespace Helper

variable {S : Suite} {h : Helper S}

/-! ### One key -/

/-- What a helper makes of a report when the peer's key for it comes. -/
structure Finished where
  report : DecryptedReport
  share : AggregationIdShare
  payload : AggregationPayload
  /-- The helper's own half of the key for the report, and the peer's. -/
  records : KeyRecord × KeyRecord
  own : SealedKey
  peer : SealedKey

/-- A report that waits for its key is finished with it. -/
structure Finishes (h : Helper S) (k : ExponentiatedKey) (f : Finished) : Prop where
  awaited : h.joins[k.id]? = some (.exponentiated f.report)
  rekey : Join.rekey S k f.report h.keys.elGamal h.keys.secret = .ok (f.share, f.payload)
  generated : ∃ tape rest, Aggregation.generateKeys (Round.pointFunction S h.domain) f.share f.payload (h.id = .one) tape =
    (.ok f.records, rest)
  own : ∃ tape rest, SealedKey.ofRecord S.transport f.records.1 (S.transport.publicKeyOf h.keys.transport) tape =
    (.ok f.own, rest)
  peer : ∃ tape rest, SealedKey.ofRecord S.transport f.records.2 h.peer.transport tape = (.ok f.peer, rest)

namespace Finishes
variable {k : ExponentiatedKey} {f : Finished} (hf : h.Finishes k f)
include hf

theorem report_id : f.report.id = k.id := (Join.exists_rekey_iff.mp ⟨_, hf.rekey⟩).1.symm

theorem share_id : f.share.id = k.id := (Join.share_id_of_rekey hf.rekey).1.trans hf.report_id

theorem records_eq : ∃ seedA seedB, f.records = KeyRecord.ofKeys (h.domain.bucketOf f.share.value) f.share f.payload
    ((Round.pointFunction S h.domain).keysFrom (h.domain.bucketOf f.share.value)
      (KeyRecord.contribution f.payload (h.id = .one)) seedA seedB) := by
  obtain ⟨tape, rest, hrun⟩ := hf.generated
  obtain ⟨hshare, hpayload⟩ := Join.share_id_of_rekey hf.rekey
  rw [Aggregation.generateKeys_eq _ (hshare.trans hpayload.symm), Prod.mk.injEq, Except.ok.injEq] at hrun
  exact ⟨_, _, hrun.1.symm⟩

theorem own_id : f.own.reportId = k.id := by
  obtain ⟨seedA, seedB, hrecords⟩ := hf.records_eq
  obtain ⟨_, _, hseal⟩ := hf.own
  rw [SealedKey.reportId_of_ofRecord hseal, hrecords]
  exact hf.share_id

theorem peer_id : f.peer.reportId = k.id := by
  obtain ⟨seedA, seedB, hrecords⟩ := hf.records_eq
  obtain ⟨_, _, hseal⟩ := hf.peer
  rw [SealedKey.reportId_of_ofRecord hseal, hrecords]
  exact hf.share_id

end Finishes

/-- One more report is done. -/
def Staged.add (staged : Staged) (f : Finished) : Staged :=
  ⟨staged.joins.insert f.share.id (.rekeyed f.share), staged.own ++ [f.own], staged.peer ++ [f.peer]⟩

section Key
variable {staged : Staged} {k : ExponentiatedKey}

theorem stageKey_of_new (hnew : k.id ∉ staged.joins) {tape rest : RandomTape} {staged' : Staged}
    (hrun : stageKey h staged k tape = (.ok staged', rest)) : ∃ f, h.Finishes k f ∧ staged' = staged.add f := by
  rw [stageKey, Std.ExtTreeMap.getElem?_eq_none hnew, Option.none_or] at hrun
  cases hstate : h.joins[k.id]? with
  | none =>
    rw [hstate] at hrun
    cases congrArg Prod.fst hrun
  | some state =>
    rw [hstate] at hrun
    obtain ⟨received, hreceive, hrun⟩ := Attempt.liftM_bind_eq_ok.mp hrun
    obtain ⟨⟨rekeyed, share, payload⟩, hrekey, hrun⟩ := Attempt.liftM_bind_eq_ok.mp hrun
    obtain ⟨records, _, hgenerated, hrun⟩ := Attempt.bind_eq_ok.mp hrun
    obtain ⟨own, _, hown, hrun⟩ := Attempt.bind_eq_ok.mp hrun
    obtain ⟨peer, _, hpeer, hrun⟩ := Attempt.bind_eq_ok.mp hrun
    obtain ⟨report, rfl, hid, rfl⟩ := JoinState.receivePeer_eq_ok.mp (mapError_eq_ok.mp hreceive)
    obtain ⟨hrekey, hrekeyed⟩ := JoinState.rekey_received.mp (mapError_eq_ok.mp hrekey)
    obtain rfl : rekeyed = .rekeyed share := hrekeyed
    have hf : h.Finishes k ⟨report, share, payload, records, own, peer⟩ := ⟨hstate, hrekey,
      ⟨_, _, Attempt.adapt_eq_ok.mp hgenerated⟩, ⟨_, _, Attempt.adapt_eq_ok.mp hown⟩, ⟨_, _, Attempt.adapt_eq_ok.mp hpeer⟩⟩
    refine ⟨_, hf, ?_⟩
    rw [Staged.add, hf.share_id]
    cases hrun
    rfl

theorem stageKey_of_rekeyed {share : AggregationIdShare} (hdone : staged.joins[k.id]? = some (.rekeyed share))
    (tape : RandomTape) : ∃ e, stageKey h staged k tape = (.error e, tape) := by
  rw [stageKey, hdone, Option.some_or]
  exact ⟨_, rfl⟩

/-- If halves can be sealed, a report that waits is done with a key that can be opened. -/
theorem stageKey_of_awaited (hown : S.transport.Seals (S.transport.publicKeyOf h.keys.transport))
    (hpeer : S.transport.Seals h.peer.transport) (hnew : k.id ∉ staged.joins) {report : DecryptedReport}
    (hawaited : h.joins[k.id]? = some (.exponentiated report))
    (hrekey : ∃ found, Join.rekey S k report h.keys.elGamal h.keys.secret = .ok found) (tape : RandomTape) :
    ∃ staged' rest, stageKey h staged k tape = (.ok staged', rest) := by
  obtain ⟨⟨share, payload⟩, hrekey⟩ := hrekey
  have hid : k.id = report.id := (Join.exists_rekey_iff.mp ⟨_, hrekey⟩).1
  obtain ⟨hshare, hpayload⟩ := Join.share_id_of_rekey hrekey
  have hreceive : (JoinState.exponentiated report).receivePeer k = .ok (.received report k) :=
    JoinState.receivePeer_eq_ok.mpr ⟨report, rfl, hid, rfl⟩
  have hrekeyed : (JoinState.received report k).rekey S h.keys.elGamal h.keys.secret =
      .ok (.rekeyed share, share, payload) := JoinState.rekey_received.mpr ⟨hrekey, rfl⟩
  obtain ⟨records, rest, hgenerated⟩ : ∃ records rest, Aggregation.generateKeys (Round.pointFunction S h.domain) share
      payload (h.id = .one) tape = (.ok records, rest) :=
    ⟨_, _, Aggregation.generateKeys_eq _ (hshare.trans hpayload.symm) _ tape⟩
  obtain ⟨own, rest₁, hownHalf⟩ := SealedKey.ofRecord_of_seals hown records.1 rest
  obtain ⟨peer, rest₂, hpeerHalf⟩ := SealedKey.ofRecord_of_seals hpeer records.2 rest₁
  refine ⟨⟨staged.joins.insert k.id (.rekeyed share), staged.own ++ [own], staged.peer ++ [peer]⟩, rest₂, ?_⟩
  rw [stageKey, Std.ExtTreeMap.getElem?_eq_none hnew, Option.none_or, hawaited]
  refine Attempt.liftM_bind_eq_ok.mpr ⟨_, mapError_eq_ok.mpr hreceive, ?_⟩
  refine Attempt.liftM_bind_eq_ok.mpr ⟨_, mapError_eq_ok.mpr hrekeyed, ?_⟩
  refine Attempt.bind_eq_ok.mpr ⟨_, _, Attempt.adapt_of_ok hgenerated, ?_⟩
  refine Attempt.bind_eq_ok.mpr ⟨_, _, Attempt.adapt_of_ok hownHalf, ?_⟩
  exact Attempt.bind_eq_ok.mpr ⟨_, _, Attempt.adapt_of_ok hpeerHalf, rfl⟩

end Key

/-! ### All keys of a message -/

/-- What has been staged for some keys of the peer: each has finished another report. -/
structure Stages (h : Helper S) (ks : List ExponentiatedKey) (finished : List Finished) (staged : Staged) : Prop where
  nodup : (ks.map ExponentiatedKey.id).Nodup
  finishes : List.Forall₂ h.Finishes ks finished
  mem_joins : ∀ id, id ∈ staged.joins ↔ id ∈ ks.map ExponentiatedKey.id
  rekeyed : ∀ f ∈ finished, staged.joins[f.share.id]? = some (.rekeyed f.share)
  own : staged.own = finished.map Finished.own
  peer : staged.peer = finished.map Finished.peer

theorem stages_nil : h.Stages [] [] ⟨∅, [], []⟩ := ⟨.nil, .nil, fun id => by simp, fun f hf => (nomatch hf), rfl, rfl⟩

namespace Stages
variable {ks : List ExponentiatedKey} {finished : List Finished} {staged : Staged} (hstages : h.Stages ks finished staged)
include hstages

theorem ids : finished.map (fun f => f.share.id) = ks.map ExponentiatedKey.id :=
  map_eq_map_of_forall₂ (hstages.finishes.flip.imp fun _ _ => Finishes.share_id)

theorem own_ids : staged.own.map SealedKey.reportId = ks.map ExponentiatedKey.id := by
  rw [hstages.own, List.map_map]
  exact map_eq_map_of_forall₂ (hstages.finishes.flip.imp fun _ _ => Finishes.own_id)

theorem peer_ids : staged.peer.map SealedKey.reportId = ks.map ExponentiatedKey.id := by
  rw [hstages.peer, List.map_map]
  exact map_eq_map_of_forall₂ (hstages.finishes.flip.imp fun _ _ => Finishes.peer_id)

theorem new_of_run {k : ExponentiatedKey} {tape rest : RandomTape} {staged' : Staged}
    (hrun : stageKey h staged k tape = (.ok staged', rest)) : k.id ∉ staged.joins := by
  intro hmem
  rw [hstages.mem_joins, ← hstages.ids, List.mem_map] at hmem
  obtain ⟨f, hf, hid⟩ := hmem
  obtain ⟨e, hrefuse⟩ := stageKey_of_rekeyed (h := h) (hid ▸ hstages.rekeyed f hf) tape
  rw [hrefuse] at hrun
  cases hrun

theorem step {k : ExponentiatedKey} {tape rest : RandomTape} {staged' : Staged}
    (hrun : stageKey h staged k tape = (.ok staged', rest)) : ∃ f, h.Stages (ks ++ [k]) (finished ++ [f]) staged' := by
  have hnew := hstages.new_of_run hrun
  obtain ⟨f, hf, rfl⟩ := stageKey_of_new hnew hrun
  have hfresh : k.id ∉ ks.map ExponentiatedKey.id := fun hmem => hnew ((hstages.mem_joins _).mpr hmem)
  refine ⟨f, ?_, List.rel_append hstages.finishes (.cons hf .nil), fun id => ?_, fun g hg => ?_, ?_, ?_⟩
  · rw [List.map_append, List.map_singleton]
    exact List.nodup_append.mpr ⟨hstages.nodup, List.nodup_singleton _, fun id hid id' hid' heq => by
      rw [List.mem_singleton.mp hid'] at heq
      exact hfresh (heq ▸ hid)⟩
  · rw [Staged.add, mem_insert, hstages.mem_joins, hf.share_id, List.map_append, List.mem_append, List.map_singleton,
      List.mem_singleton, or_comm, eq_comm]
  · rw [Staged.add, getElem?_insert]
    rcases List.mem_append.mp hg with hg | hg
    · have hother : f.share.id ≠ g.share.id := fun heq => hfresh (by
        rw [← hf.share_id, heq, ← hstages.ids]
        exact List.mem_map.mpr ⟨g, hg, rfl⟩)
      rw [if_neg hother]
      exact hstages.rekeyed g hg
    · obtain rfl := List.mem_singleton.mp hg
      rw [if_pos rfl]
  · rw [Staged.add, hstages.own, List.map_append, List.map_singleton]
  · rw [Staged.add, hstages.peer, List.map_append, List.map_singleton]

theorem run {more : List ExponentiatedKey} {tape rest : RandomTape} {staged' : Staged}
    (hrun : more.foldlM (stageKey h) staged tape = (.ok staged', rest)) :
    ∃ finished', h.Stages (ks ++ more) finished' staged' := by
  induction more generalizing ks finished staged tape with
  | nil =>
    cases hrun
    exact ⟨finished, by rwa [List.append_nil]⟩
  | cons k more ih =>
    rw [List.foldlM_cons] at hrun
    obtain ⟨next, tape', hkey, hrun⟩ := Attempt.bind_eq_ok.mp hrun
    obtain ⟨f, hnext⟩ := hstages.step hkey
    obtain ⟨finished', hlast⟩ := ih hnext hrun
    rw [List.append_assoc, List.singleton_append] at hlast
    exact ⟨finished', hlast⟩

/-- If halves can be sealed, further keys are done that are for other reports that wait, and can be opened. -/
theorem exists_run (hown : S.transport.Seals (S.transport.publicKeyOf h.keys.transport))
    (hpeer : S.transport.Seals h.peer.transport) {more : List ExponentiatedKey}
    (hawaited : ∀ k ∈ more, ∃ r, h.joins[k.id]? = some (.exponentiated r) ∧
      ∃ found, Join.rekey S k r h.keys.elGamal h.keys.secret = .ok found)
    (hnodup : ((ks ++ more).map ExponentiatedKey.id).Nodup) (tape : RandomTape) :
    ∃ staged' rest, more.foldlM (stageKey h) staged tape = (.ok staged', rest) := by
  induction more generalizing ks finished staged tape with
  | nil => exact ⟨staged, tape, rfl⟩
  | cons k more ih =>
    obtain ⟨⟨r, hwaits, hrekey⟩, hawaited⟩ := List.forall_mem_cons.mp hawaited
    have hnew : k.id ∉ staged.joins := fun hmem => by
      rw [List.map_append, List.map_cons] at hnodup
      exact (List.nodup_append.mp hnodup).2.2 _ ((hstages.mem_joins _).mp hmem) _ List.mem_cons_self rfl
    obtain ⟨next, tape', hkey⟩ := stageKey_of_awaited hown hpeer hnew hwaits hrekey tape
    obtain ⟨f, hnext⟩ := hstages.step hkey
    obtain ⟨staged', rest, hrun⟩ := ih hnext hawaited (by rwa [List.append_assoc, List.singleton_append]) tape'
    rw [List.foldlM_cons]
    exact ⟨staged', rest, Attempt.bind_eq_ok.mpr ⟨next, tape', hkey, hrun⟩⟩

end Stages

/-! ### The message -/

/-- The keys of a message are for all reports that wait, one each, and can be opened. -/
structure Accepts (h : Helper S) (ks : List ExponentiatedKey) : Prop where
  nodup : (ks.map ExponentiatedKey.id).Nodup
  awaited : ∀ k ∈ ks, ∃ r, h.joins[k.id]? = some (.exponentiated r)
  covers : ∀ id r, h.joins[id]? = some (.exponentiated r) → id ∈ ks.map ExponentiatedKey.id
  valid : ∀ k ∈ ks, (S.group.decode? k.ciphertext.c1).isSome ∧ (S.group.decode? k.ciphertext.c2).isSome

/-- What has been staged becomes part of the helper. -/
def commit (h : Helper S) (staged : Staged) : Helper S :=
  { h with joins := h.joins.insertMany staged.joins.toList, sealedKeys := h.sealedKeys ++ staged.own }

theorem missing?_eq_none {staged : Staged} :
    h.missing? staged = none ↔ ∀ id r, h.joins[id]? = some (.exponentiated r) → id ∈ staged.joins := by
  rw [missing?, Option.map_eq_none_iff, List.find?_eq_none]
  constructor
  · intro hnone id r hid
    by_contra hnot
    refine hnone (id, .exponentiated r) (Std.ExtTreeMap.mem_toList_iff_getElem?_eq_some.mpr hid) ?_
    rw [Std.ExtTreeMap.mem_iff_contains, Bool.not_eq_true] at hnot
    simp only [JoinState.awaitsPeer, hnot]
    rfl
  · rintro hcovers ⟨id, state⟩ hmem hfound
    obtain ⟨hawaits, hnot⟩ := Bool.and_eq_true_iff.mp hfound
    have hid := Std.ExtTreeMap.mem_toList_iff_getElem?_eq_some.mp hmem
    cases state with
    | exponentiated r =>
      have hcontains := Std.ExtTreeMap.mem_iff_contains.mp (hcovers id r hid)
      rw [hcontains] at hnot
      cases hnot
    | decrypted | received | rekeyed => cases hawaits

theorem receiveExponentiatedKeys_run (message : Bytes) (h : Helper S) (tape : RandomTape) :
    (receiveExponentiatedKeys message).run.run h tape =
      match (PeerMessage.ofBytes message).bind PeerMessage.toExponentiatedKeys with
      | .error e => ((.error (.ofMessage e), h), tape)
      | .ok ks =>
        match ks.foldlM (stageKey h) ⟨∅, [], []⟩ tape with
        | (.error e, rest) => ((.error e, h), rest)
        | (.ok staged, rest) =>
          match h.missing? staged with
          | some id => ((.error (.input (.missingPeerMessage id)), h), rest)
          | none => ((.ok (Codec.toBytes (PeerMessage.keyHalves staged.peer)), h.commit staged), rest) := by
  rw [receiveExponentiatedKeys, run_liftM_bind]
  cases PeerMessage.ofBytes message with
  | error e => rfl
  | ok m =>
    simp only [Except.mapError, Except.bind]
    rw [run_liftM_bind]
    cases m.toExponentiatedKeys with
    | error e => rfl
    | ok ks =>
      simp only
      rw [run_get_bind, run_drawing_bind]
      rcases ks.foldlM (stageKey h) ⟨∅, [], []⟩ tape with ⟨e | staged, rest⟩
      · rfl
      · dsimp only
        cases h.missing? staged <;> rfl

theorem bind_toExponentiatedKeys {message : Bytes} {ks : List ExponentiatedKey} :
    (PeerMessage.ofBytes message).bind PeerMessage.toExponentiatedKeys = .ok ks ↔
      PeerMessage.ofBytes message = .ok (.exponentiatedKeys ks) := by
  refine bind_eq_ok.trans ⟨?_, fun h => ⟨_, h, rfl⟩⟩
  rintro ⟨m, hm, hks⟩
  cases m <;> cases hks
  exact hm

/-- A message is refused and nothing changes, or it has the keys for all reports that wait, and what has been staged for
    them becomes part of the helper. -/
theorem receiveExponentiatedKeys_cases (message : Bytes) (h : Helper S) (tape : RandomTape) :
    (∃ e rest, (receiveExponentiatedKeys message).run.run h tape = ((.error e, h), rest)) ∨
      ∃ ks finished staged rest, PeerMessage.ofBytes message = .ok (.exponentiatedKeys ks) ∧ h.Stages ks finished staged ∧
        (∀ id r, h.joins[id]? = some (.exponentiated r) → id ∈ ks.map ExponentiatedKey.id) ∧
        (receiveExponentiatedKeys message).run.run h tape =
          ((.ok (Codec.toBytes (PeerMessage.keyHalves staged.peer)), h.commit staged), rest) := by
  rw [receiveExponentiatedKeys_run]
  cases hread : (PeerMessage.ofBytes message).bind PeerMessage.toExponentiatedKeys with
  | error e => exact .inl ⟨_, _, rfl⟩
  | ok ks =>
    rcases hrun : ks.foldlM (stageKey h) ⟨∅, [], []⟩ tape with ⟨e | staged, rest⟩
    · exact .inl ⟨e, rest, by simp only [hrun]⟩
    · obtain ⟨finished, hstages⟩ := stages_nil.run hrun
      rw [List.nil_append] at hstages
      cases hmissing : h.missing? staged with
      | some id => exact .inl ⟨.input (.missingPeerMessage id), rest, by simp only [hrun, hmissing]⟩
      | none =>
        refine .inr ⟨ks, finished, staged, rest, bind_toExponentiatedKeys.mp hread, hstages, fun id r hwaits => ?_, ?_⟩
        · exact (hstages.mem_joins id).mp (missing?_eq_none.mp hmissing id r hwaits)
        · simp only [hrun, hmissing]

namespace Stages
variable {ks : List ExponentiatedKey} {finished : List Finished} {staged : Staged} (hstages : h.Stages ks finished staged)
include hstages

/-- The reports of the keys are finished, and nothing else has changed. -/
theorem getElem?_commit :
    (∀ f ∈ finished, (h.commit staged).joins[f.share.id]? = some (.rekeyed f.share)) ∧
      ∀ id ∉ ks.map ExponentiatedKey.id, (h.commit staged).joins[id]? = h.joins[id]? := by
  refine ⟨fun f hf => ?_, fun id hid => ?_⟩
  · rw [commit, getElem?_insertMany, hstages.rekeyed f hf, Option.some_or]
  · rw [commit, getElem?_insertMany, Std.ExtTreeMap.getElem?_eq_none (mt (hstages.mem_joins id).mp hid), Option.none_or]

theorem of_getElem?_commit {id : ReportId} {state : JoinState} (hstate : (h.commit staged).joins[id]? = some state) :
    (∃ f ∈ finished, f.share.id = id ∧ state = .rekeyed f.share) ∨
      id ∉ ks.map ExponentiatedKey.id ∧ h.joins[id]? = some state := by
  obtain ⟨hnew, hothers⟩ := hstages.getElem?_commit
  by_cases hid : id ∈ ks.map ExponentiatedKey.id
  · rw [← hstages.ids, List.mem_map] at hid
    obtain ⟨f, hf, rfl⟩ := hid
    exact .inl ⟨f, hf, rfl, Option.some.inj (hstate.symm.trans (hnew f hf))⟩
  · exact .inr ⟨hid, (hothers id hid).symm.trans hstate⟩

/-- The keys are for reports that wait, so those that are finished already are none of theirs. -/
theorem not_mem_of_rekeyed {id : ReportId} {share : AggregationIdShare} (hid : h.joins[id]? = some (.rekeyed share)) :
    id ∉ ks.map ExponentiatedKey.id := by
  intro hmem
  obtain ⟨k, hk, rfl⟩ := List.mem_map.mp hmem
  obtain ⟨f, -, hf⟩ := exists_of_mem_forall₂ hstages.finishes hk
  cases hid.symm.trans hf.awaited

theorem accepts (hcovers : ∀ id r, h.joins[id]? = some (.exponentiated r) → id ∈ ks.map ExponentiatedKey.id) :
    h.Accepts ks where
  nodup := hstages.nodup
  awaited k hk := by
    obtain ⟨f, -, hf⟩ := exists_of_mem_forall₂ hstages.finishes hk
    exact ⟨_, hf.awaited⟩
  covers := hcovers
  valid k hk := by
    obtain ⟨f, -, hf⟩ := exists_of_mem_forall₂ hstages.finishes hk
    exact (Join.exists_rekey_iff.mp ⟨_, hf.rekey⟩).2

end Stages

theorem Stages.commit_nil {finished : List Finished} {staged : Staged} (hstages : h.Stages [] finished staged) :
    h.commit staged = h := by
  have hempty : staged.joins = ∅ :=
    Std.ExtTreeMap.eq_empty_iff_forall_not_mem.mpr fun id hid => List.not_mem_nil ((hstages.mem_joins id).mp hid)
  have hjoins : staged.joins.toList = [] :=
    List.isEmpty_iff.mp (Std.ExtTreeMap.isEmpty_toList.trans (Std.ExtTreeMap.isEmpty_iff.mpr hempty))
  have hfinished : finished = [] := List.forall₂_nil_left_iff.mp hstages.finishes
  rw [commit, hstages.own, hjoins, hfinished, List.map_nil, List.append_nil, Std.ExtTreeMap.insertMany_nil]

section Message
variable (hown : S.transport.Seals (S.transport.publicKeyOf h.keys.transport)) (hpeer : S.transport.Seals h.peer.transport)
  (hfiled : ∀ (id : ReportId) (r : DecryptedReport), h.joins[id]? = some (.exponentiated r) → r.id = id)
include hown hpeer hfiled

theorem Accepts.run {ks : List ExponentiatedKey} (haccepts : h.Accepts ks) {message : Bytes}
    (hread : PeerMessage.ofBytes message = .ok (.exponentiatedKeys ks)) (tape : RandomTape) :
    ∃ finished staged rest, h.Stages ks finished staged ∧ (receiveExponentiatedKeys message).run.run h tape =
      ((.ok (Codec.toBytes (PeerMessage.keyHalves staged.peer)), h.commit staged), rest) := by
  have hawaited : ∀ k ∈ ks, ∃ r, h.joins[k.id]? = some (.exponentiated r) ∧
      ∃ found, Join.rekey S k r h.keys.elGamal h.keys.secret = .ok found := fun k hk => by
    obtain ⟨r, hr⟩ := haccepts.awaited k hk
    exact ⟨r, hr, Join.exists_rekey_iff.mpr ⟨(hfiled _ _ hr).symm, haccepts.valid k hk⟩⟩
  obtain ⟨staged, rest, hrun⟩ := stages_nil.exists_run hown hpeer hawaited haccepts.nodup tape
  obtain ⟨finished, hstages⟩ := stages_nil.run hrun
  have hmissing : h.missing? staged = none := missing?_eq_none.mpr fun id r hr =>
    (hstages.mem_joins id).mpr (haccepts.covers id r hr)
  refine ⟨finished, staged, rest, hstages, ?_⟩
  rw [receiveExponentiatedKeys_run, bind_toExponentiatedKeys.mpr hread]
  simp only [hrun, hmissing]

/-- If halves can be sealed, a message is taken in exactly if it has a key that can be opened for every report that
    waits. -/
theorem exists_receiveExponentiatedKeys_iff (message : Bytes) (tape : RandomTape) :
    (∃ answer, ((receiveExponentiatedKeys message).run.run h tape).1.1 = .ok answer) ↔
      ∃ ks, PeerMessage.ofBytes message = .ok (.exponentiatedKeys ks) ∧ h.Accepts ks := by
  constructor
  · rintro ⟨answer, hanswer⟩
    rcases receiveExponentiatedKeys_cases message h tape with
      ⟨e, rest, hrun⟩ | ⟨ks, finished, staged, rest, hread, hstages, hcovers, -⟩
    · rw [hrun] at hanswer
      cases hanswer
    · exact ⟨ks, hread, hstages.accepts hcovers⟩
  · rintro ⟨ks, hread, haccepts⟩
    obtain ⟨-, staged, _, -, hrun⟩ := haccepts.run hown hpeer hfiled hread tape
    rw [hrun]
    exact ⟨_, rfl⟩

end Message

end Helper

end PrivateHistogram
