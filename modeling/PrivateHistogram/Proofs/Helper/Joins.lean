import PrivateHistogram.Proofs.Helper.Halves
import PrivateHistogram.Proofs.Helper.Steps

/-! What a helper does with the messages of one batch. It opens its halves and waits for the peer
    (`receiveReports_yields`), finishes the joins and makes the keys when the peer's message comes
    (`receiveExponentiatedKeys_yields`), and takes in the halves of the peer's keys (`receiveKeyHalves_yields`). -/

namespace PrivateHistogram

theorem SealedKey.toRecord_of_open {T : Transport} {k : Transport.PrivateKey} {r : KeyRecord} {sealed : Sealed}
    (h : T.openWith k (info r.reportId) sealed = .ok (Codec.toBytes r)) :
    (⟨r.reportId, sealed⟩ : SealedKey).toRecord T k = .ok r := by
  rw [toRecord, h]
  simp only [Except.mapError, bind, Except.bind, Codec.ofBytes?_toBytes]
  rw [if_neg (not_not_intro rfl)]
  rfl

namespace Helper

open Report (Half)

variable {S : Suite}

/-- The helper of some keys, with the public keys of its peer. -/
structure Serves (own peer : KeyMaterial) (h : Helper S) : Prop where
  keys : h.keys = own
  peer : h.peer = peer.publicInfo S

variable {own peer : KeyMaterial} {h : Helper S} {E : Failure → Prop}

theorem getElem?_insert (joins : Joins) (id : ReportId) (state : JoinState) (id' : ReportId) :
    (joins.insert id state)[id']? = if id = id' then some state else joins[id']? := by
  rw [Std.ExtTreeMap.getElem?_insert]
  simp

theorem mem_insert {joins : Joins} {id : ReportId} {state : JoinState} {id' : ReportId} :
    id' ∈ joins.insert id state ↔ id = id' ∨ id' ∈ joins := by
  rw [Std.ExtTreeMap.mem_insert, Std.LawfulEqCmp.compare_eq_iff_eq]

/-! ### Taking in reports -/

theorem receiveReport_yields (hG : S.group.Lawful) (hserves : h.Serves own peer) (x : Half S own peer)
    (hnew : x.id ∉ h.joins) :
    StepYields (receiveReport x.report) h E fun message h' => Join.IsBlinded S peer own x.id x.key message ∧
      ∃ r, x.IsOpened r ∧ h' = { h with joins := h.joins.insert x.id (.exponentiated r) } := by
  obtain ⟨hid, nonce, hopen⟩ := x.isHalf
  have hcontains : ¬h.joins.contains x.report.id = true := by rwa [hid, ← Std.ExtTreeMap.mem_iff_contains]
  refine StepYields.get_bind ?_
  simp only [if_neg hcontains]
  rw [hserves.keys, hserves.peer]
  refine StepYields.mapError_bind hopen ?_
  refine StepYields.bind (drawing_yields (P := fun result => Join.IsBlinded S peer own x.id x.key result.2 ∧
    ∃ r, x.IsOpened r ∧ result.1 = .exponentiated r) ?_) ?_
  · exact .bind (Join.exponentiate_yields hG own peer rfl) fun message hmessage =>
      .pure ⟨hmessage, _, ⟨rfl, rfl, rfl⟩, rfl⟩
  · rintro ⟨state, message⟩ _ ⟨⟨hmessage, r, hr, rfl⟩, rfl⟩
    refine StepYields.set_bind (.pure ⟨hmessage, r, hr, ?_⟩)
    rw [hid]

/-- After its halves of a batch the helper waits for the peer to blind them. -/
theorem receiveReports_yields (hG : S.group.Lawful) (hserves : h.Serves own peer) (xs : List (Half S own peer))
    (hnodup : (xs.map Half.id).Nodup) (hnew : ∀ x ∈ xs, x.id ∉ h.joins) :
    StepYields (receiveReports (xs.map Half.report)) h E fun message h' =>
      ∃ keys joins, List.Forall₂ (fun x k => Join.IsBlinded S peer own x.id x.key k) xs keys ∧
        message = Codec.toBytes (PeerMessage.exponentiatedKeys keys) ∧ h' = { h with joins } ∧
        (∀ x ∈ xs, ∃ r, x.IsOpened r ∧ joins[x.id]? = some (.exponentiated r)) ∧
        ∀ id, id ∉ xs.map Half.id → joins[id]? = h.joins[id]? := by
  refine StepYields.bind (P := fun keys h' => ∃ joins,
    List.Forall₂ (fun x k => Join.IsBlinded S peer own x.id x.key k) xs keys ∧ h' = { h with joins } ∧
      (∀ x ∈ xs, ∃ r, x.IsOpened r ∧ joins[x.id]? = some (.exponentiated r)) ∧
      ∀ id, id ∉ xs.map Half.id → joins[id]? = h.joins[id]?) ?_
    fun keys h' ⟨joins, hkeys, hh', hwaiting, hothers⟩ => .pure ⟨keys, joins, hkeys, rfl, hh', hwaiting, hothers⟩
  induction xs generalizing h with
  | nil => exact .pure ⟨h.joins, .nil, rfl, fun x hx => (nomatch hx), fun _ _ => rfl⟩
  | cons x xs ih =>
    rw [List.map_cons, List.mapM_cons]
    obtain ⟨hx, hnodup⟩ := List.nodup_cons.mp hnodup
    obtain ⟨hxnew, hnew⟩ := List.forall_mem_cons.mp hnew
    refine .bind (receiveReport_yields hG hserves x hxnew) ?_
    rintro key _ ⟨hkey, r, hr, rfl⟩
    refine .bind (ih (h := { h with joins := h.joins.insert x.id (.exponentiated r) }) ⟨hserves.keys, hserves.peer⟩ hnodup
      fun y hy hmem => ?_) ?_
    · rcases mem_insert.mp hmem with heq | hmem
      · exact hx (List.mem_map.mpr ⟨y, hy, heq.symm⟩)
      · exact hnew y hy hmem
    · rintro keys _ ⟨joins, hkeys, rfl, hwaiting, hothers⟩
      refine .pure ⟨joins, .cons hkey hkeys, rfl, List.forall_mem_cons.mpr ⟨⟨r, hr, ?_⟩, hwaiting⟩, fun id hid => ?_⟩
      · rw [hothers x.id hx, getElem?_insert, if_pos rfl]
      · rw [List.map_cons, List.mem_cons, not_or] at hid
        rw [hothers id hid.2, getElem?_insert, if_neg (Ne.symm hid.1)]

/-! ### Finishing the joins -/

/-- A key half that is sealed to a helper opens again. -/
theorem ofRecord_yields {T : Transport} {k : Transport.PrivateKey} (hk : T.Opens k) (r : KeyRecord) :
    TryDraw.Yields (SealedKey.ofRecord T r (T.publicKeyOf k)) fun s => s.toRecord T k = .ok r :=
  .bind (Transport.sealTo_yields hk _ _) fun _ hsealed => .pure (SealedKey.toRecord_of_open hsealed)

/-- The keys made for some joined halves, and the sealed halves of them. -/
structure Made (own peer : KeyMaterial) (d : PointFunction.Domain) (leader : Bool) (xs : List (Half S own peer))
    (keys : List (KeyRecord × KeyRecord)) (staged : Staged) : Prop where
  mem_joins : ∀ id, id ∈ staged.joins ↔ id ∈ xs.map Half.id
  settled : ∀ (id : ReportId) (state : JoinState), staged.joins[id]? = some state → state.awaitsPeer = false
  generated : List.Forall₂ (fun x keys => ∃ tape rest,
    Aggregation.generateKeys (Round.pointFunction S d) x.share x.payload leader tape = (.ok keys, rest)) xs keys
  own : List.Forall₂ (fun s r => s.toRecord S.transport own.transport = .ok r) staged.own (keys.map Prod.fst)
  peer : List.Forall₂ (fun s r => s.toRecord S.transport peer.transport = .ok r) staged.peer (keys.map Prod.snd)

/-- One more join is finished, and its key made. -/
theorem Made.step (hG : S.group.Lawful) (hown : S.transport.Opens own.transport) (hpeer : S.transport.Opens peer.transport)
    (hserves : h.Serves own peer) {done : List (Half S own peer)} {keys : List (KeyRecord × KeyRecord)} {staged : Staged}
    (hmade : Made own peer h.domain (h.id = .one) done keys staged) {x : Half S own peer} (hnew : x.id ∉ done.map Half.id)
    {r : DecryptedReport} (hr : x.IsOpened r) (hwaits : h.joins[x.id]? = some (.exponentiated r))
    {k : ExponentiatedKey} (hk : Join.IsBlinded S own peer x.id x.key k) :
    TryDraw.Yields (stageKey h staged k) fun staged' =>
      ∃ key, Made own peer h.domain (h.id = .one) (done ++ [x]) (keys ++ [key]) staged' := by
  obtain ⟨hid, hvalue, hshare⟩ := hr
  have hkid : k.id = x.id := hk.1
  have hnone : staged.joins[x.id]? = none :=
    Std.ExtTreeMap.getElem?_eq_none fun hmem => hnew ((hmade.mem_joins x.id).mp hmem)
  have hreceive : (JoinState.exponentiated r).receivePeer k = .ok (.received r k) := by
    rw [JoinState.receivePeer, if_neg (not_not_intro (hkid.trans hid.symm))]
  have hrekey : (JoinState.received r k).rekey S own.elGamal own.secret = .ok (.rekeyed x.share, x.share, x.payload) := by
    rw [JoinState.rekey, Join.rekey_eq hG (hid ▸ hk), hid, hvalue, hshare]
    rfl
  rw [stageKey, hkid, hnone, hwaits, hserves.keys, hserves.peer]
  refine .mapError_bind hreceive (.mapError_bind hrekey ?_)
  refine .bind (.adapt (P := fun key => ∃ tape rest,
    Aggregation.generateKeys (Round.pointFunction S h.domain) x.share x.payload (h.id = .one) tape = (.ok key, rest))
    (.of_run fun tape ht => ⟨_, _, Aggregation.generateKeys_eq _ rfl _ tape, ht, tape, _,
      Aggregation.generateKeys_eq _ rfl _ tape⟩)) ?_
  rintro ⟨ownKey, peerKey⟩ hkey
  refine .bind (.adapt (ofRecord_yields hown ownKey)) fun s hs => ?_
  refine .bind (.adapt (ofRecord_yields hpeer peerKey)) fun s' hs' => .pure ⟨(ownKey, peerKey), ?_⟩
  refine ⟨fun id => ?_, fun id state hstate => ?_, List.rel_append hmade.generated (.cons hkey .nil), ?_, ?_⟩
  · rw [mem_insert, hmade.mem_joins, List.map_append, List.mem_append, List.map_singleton, List.mem_singleton, or_comm,
      eq_comm]
  · rw [getElem?_insert] at hstate
    split at hstate
    · cases hstate
      rfl
    · exact hmade.settled id state hstate
  · rw [List.map_append]
    exact List.rel_append hmade.own (.cons hs .nil)
  · rw [List.map_append]
    exact List.rel_append hmade.peer (.cons hs' .nil)

theorem Made.run (hG : S.group.Lawful) (hown : S.transport.Opens own.transport) (hpeer : S.transport.Opens peer.transport)
    (hserves : h.Serves own peer) {rest : List (Half S own peer)} {ks : List ExponentiatedKey}
    (hks : List.Forall₂ (fun x k => Join.IsBlinded S own peer x.id x.key k) rest ks)
    (hwaits : ∀ x ∈ rest, ∃ r, x.IsOpened r ∧ h.joins[x.id]? = some (.exponentiated r))
    {done : List (Half S own peer)} {keys : List (KeyRecord × KeyRecord)} {staged : Staged}
    (hmade : Made own peer h.domain (h.id = .one) done keys staged) (hnodup : ((done ++ rest).map Half.id).Nodup) :
    TryDraw.Yields (ks.foldlM (stageKey h) staged) fun staged' =>
      ∃ keys', Made own peer h.domain (h.id = .one) (done ++ rest) (keys ++ keys') staged' := by
  induction hks generalizing done keys staged with
  | nil =>
    refine .pure ⟨[], ?_⟩
    rwa [List.append_nil, List.append_nil]
  | @cons x k rest ks hk hks ih =>
    obtain ⟨⟨r, hr, hx⟩, hwaits⟩ := List.forall_mem_cons.mp hwaits
    have hsplit : done ++ x :: rest = done ++ [x] ++ rest := by simp
    have hnew : x.id ∉ done.map Half.id := by
      rw [List.map_append, List.map_cons] at hnodup
      exact fun hmem => (List.nodup_append.mp hnodup).2.2 _ hmem _ List.mem_cons_self rfl
    rw [List.foldlM_cons]
    refine .bind (hmade.step hG hown hpeer hserves hnew hr hx hk) fun staged' ⟨key, hmade'⟩ => ?_
    rw [hsplit] at hnodup ⊢
    refine .mono (ih hwaits hmade' hnodup) fun staged'' ⟨keys', hmade''⟩ => ⟨key :: keys', ?_⟩
    rwa [List.append_assoc keys] at hmade''

theorem getElem?_insertMany (joins staged : Joins) (id : ReportId) :
    (joins.insertMany staged.toList)[id]? = staged[id]?.or joins[id]? := by
  cases hid : staged[id]? with
  | none =>
    refine Std.ExtTreeMap.getElem?_insertMany_list_of_contains_eq_false (Bool.eq_false_iff.mpr fun hmem => ?_)
    rw [List.contains_iff_mem, Std.ExtTreeMap.map_fst_toList_eq_keys, Std.ExtTreeMap.mem_keys] at hmem
    rw [Std.ExtTreeMap.getElem?_eq_some_getElem hmem] at hid
    cases hid
  | some state =>
    exact Std.ExtTreeMap.getElem?_insertMany_list_of_mem Std.ReflCmp.compare_self Std.ExtTreeMap.distinct_keys_toList
      (Std.ExtTreeMap.mem_toList_iff_getElem?_eq_some.mpr hid)

/-- When the peer's keys for a batch come, the joins of the batch are finished, and the keys made. -/
theorem receiveExponentiatedKeys_yields (hG : S.group.Lawful) (hown : S.transport.Opens own.transport)
    (hpeer : S.transport.Opens peer.transport) (hserves : h.Serves own peer) {xs : List (Half S own peer)}
    (hnodup : (xs.map Half.id).Nodup) {ks : List ExponentiatedKey}
    (hks : List.Forall₂ (fun x k => Join.IsBlinded S own peer x.id x.key k) xs ks)
    (hwaits : ∀ x ∈ xs, ∃ r, x.IsOpened r ∧ h.joins[x.id]? = some (.exponentiated r))
    (hothers : ∀ (id : ReportId) (state : JoinState), h.joins[id]? = some state → state.awaitsPeer = true →
      id ∈ xs.map Half.id) :
    StepYields (receiveExponentiatedKeys (Codec.toBytes (PeerMessage.exponentiatedKeys ks))) h E fun message h' =>
      ∃ keys staged, Made own peer h.domain (h.id = .one) xs keys staged ∧
        message = Codec.toBytes (PeerMessage.keyHalves staged.peer) ∧
        h' = { h with joins := h.joins.insertMany staged.joins.toList, sealedKeys := h.sealedKeys ++ staged.own } := by
  have hempty : Made (S := S) own peer h.domain (h.id = .one) [] [] (⟨∅, [], []⟩ : Staged) :=
    ⟨fun id => by simp, fun id state hstate => by simp at hstate, .nil, .nil, .nil⟩
  refine .mapError_bind (PeerMessage.ofBytes_toBytes _) (.mapError_bind (a := ks) rfl (.get_bind (.bind
    (drawing_yields (Made.run hG hown hpeer hserves hks hwaits hempty hnodup)) ?_)))
  rintro staged h' ⟨⟨keys, hmade⟩, hsame⟩
  rw [hsame]
  have hmissing : missing? h staged = none := by
    rw [missing?, Option.map_eq_none_iff, List.find?_eq_none]
    rintro ⟨id, state⟩ hmem hfound
    obtain ⟨hawaits, hnot⟩ := Bool.and_eq_true_iff.mp hfound
    have hid := hothers id state (Std.ExtTreeMap.mem_toList_iff_getElem?_eq_some.mp hmem) hawaits
    have hcontains := Std.ExtTreeMap.mem_iff_contains.mp ((hmade.mem_joins id).mpr hid)
    rw [hcontains] at hnot
    cases hnot
  simp only [hmissing]
  exact .set_bind (.pure ⟨keys, staged, hmade, rfl, rfl⟩)

theorem receiveKeyHalves_yields (keys : List SealedKey) :
    StepYields (receiveKeyHalves (Codec.toBytes (PeerMessage.keyHalves keys))) h E fun _ h' =>
      h' = { h with sealedKeys := h.sealedKeys ++ keys } :=
  .mapError_bind (PeerMessage.ofBytes_toBytes _) (.mapError_bind (a := keys) rfl (.modify rfl))

end Helper

end PrivateHistogram
