import PrivateHistogram.Proofs.Helper.Joins

/-! Batches of reports. Between two batches each helper has finished all joins and holds its own halves of the keys
    it has made and those that its peer has made for it (`Ingested`); the messages of one more batch keep this
    (`deliver_yields`), so after any number of batches both hold the halves of all reports (`deliverAll_yields`). -/

namespace PrivateHistogram.Helper

open Report (Half Posted)

variable {S : Suite}

/-- The messages of one batch, from the reports to the key halves. -/
def deliver (reports : List (PartialReport × PartialReport)) : JointStep S Unit := do
  let blindedOne ← asFirst (receiveReports (reports.map Prod.fst))
  let blindedTwo ← asSecond (receiveReports (reports.map Prod.snd))
  let halvesForTwo ← asFirst (receiveExponentiatedKeys blindedTwo)
  let halvesForOne ← asSecond (receiveExponentiatedKeys blindedOne)
  asFirst (receiveKeyHalves halvesForOne)
  asSecond (receiveKeyHalves halvesForTwo)

/-! ### One helper -/

/-- A helper that has finished the joins of the reports `done` and waits for the peer to blind the keys of those of
    `waiting`. -/
structure Holds (id : HelperId) (own peer : KeyMaterial) (d : PointFunction.Domain) (sealedKeys : List SealedKey)
    (done waiting : List (Half S own peer)) (h : Helper S) : Prop extends Serves own peer h where
  id : h.id = id
  domain : h.domain = d
  sealedKeys : h.sealedKeys = sealedKeys
  context : h.context = none
  mem : ∀ id ∈ h.joins, id ∈ (done ++ waiting).map Half.id
  waits : ∀ x ∈ waiting, ∃ r, x.IsOpened r ∧ h.joins[x.id]? = some (.exponentiated r)
  awaited : ∀ (id : ReportId) (state : JoinState), h.joins[id]? = some state → state.awaitsPeer = true →
    id ∈ waiting.map Half.id

namespace Holds
variable {id : HelperId} {own peer : KeyMaterial} {d : PointFunction.Domain} {sealedKeys : List SealedKey}
  {done batch : List (Half S own peer)} {h : Helper S} {E : Failure → Prop}

theorem receiveReports (hG : S.group.Lawful) (hh : Holds id own peer d sealedKeys done [] h)
    (hnodup : ((done ++ batch).map Half.id).Nodup) :
    StepYields (Helper.receiveReports (batch.map Half.report)) h E fun message h' =>
      Holds id own peer d sealedKeys done batch h' ∧
        ∃ keys, List.Forall₂ (fun x k => Join.IsBlinded S peer own x.id x.key k) batch keys ∧
          message = Codec.toBytes (PeerMessage.exponentiatedKeys keys) := by
  rw [List.map_append, List.nodup_append] at hnodup
  obtain ⟨-, hbatch, hapart⟩ := hnodup
  have hmem := hh.mem
  rw [List.append_nil] at hmem
  refine .mono (receiveReports_yields hG hh.toServes batch hbatch fun x hx hjoined =>
    hapart _ (hmem x.id hjoined) _ (List.mem_map.mpr ⟨x, hx, rfl⟩) rfl) ?_
  rintro message _ ⟨keys, joins, hkeys, rfl, rfl, hwaits, hothers⟩
  refine ⟨⟨⟨hh.keys, hh.peer⟩, hh.id, hh.domain, hh.sealedKeys, hh.context, fun id hid => ?_, hwaits,
    fun id state hstate hawaits => ?_⟩, keys, hkeys, rfl⟩
  · rw [List.map_append, List.mem_append, or_iff_not_imp_right]
    intro hnot
    refine hmem id ?_
    rw [Std.ExtTreeMap.mem_iff_isSome_getElem?] at hid ⊢
    rwa [← hothers id hnot]
  · by_contra hnot
    rw [hothers id hnot] at hstate
    exact List.not_mem_nil (hh.awaited id state hstate hawaits)

theorem receiveExponentiatedKeys (hG : S.group.Lawful) (hown : S.transport.Opens own.transport)
    (hpeer : S.transport.Opens peer.transport) (hh : Holds id own peer d sealedKeys done batch h)
    (hnodup : ((done ++ batch).map Half.id).Nodup) {keys : List ExponentiatedKey}
    (hkeys : List.Forall₂ (fun x k => Join.IsBlinded S own peer x.id x.key k) batch keys) :
    StepYields (Helper.receiveExponentiatedKeys (Codec.toBytes (PeerMessage.exponentiatedKeys keys))) h E
      fun message h' => ∃ made staged, Made own peer d (id = .one) batch made staged ∧
        Holds id own peer d (sealedKeys ++ staged.own) (done ++ batch) [] h' ∧
        message = Codec.toBytes (PeerMessage.keyHalves staged.peer) := by
  rw [List.map_append, List.nodup_append] at hnodup
  refine .mono (receiveExponentiatedKeys_yields hG hown hpeer hh.toServes hnodup.2.1 hkeys hh.waits hh.awaited) ?_
  rintro message _ ⟨made, staged, hmade, rfl, rfl⟩
  rw [hh.domain, hh.id] at hmade
  refine ⟨made, staged, hmade, ⟨⟨hh.keys, hh.peer⟩, hh.id, hh.domain, by simp only [hh.sealedKeys], hh.context,
    fun id hid => ?_, fun x hx => (nomatch hx), fun id state hstate hawaits => ?_⟩, rfl⟩
  · rw [List.append_nil]
    rw [Std.ExtTreeMap.mem_iff_isSome_getElem?, getElem?_insertMany, Option.isSome_or, Bool.or_eq_true,
      ← Std.ExtTreeMap.mem_iff_isSome_getElem?, ← Std.ExtTreeMap.mem_iff_isSome_getElem?] at hid
    rcases hid with hid | hid
    · rw [List.map_append, List.mem_append]
      exact .inr ((hmade.mem_joins id).mp hid)
    · exact hh.mem id hid
  · rw [getElem?_insertMany] at hstate
    cases hstaged : staged.joins[id]? with
    | some state' =>
      rw [hstaged] at hstate
      cases hstate
      rw [hmade.settled id _ hstaged] at hawaits
      cases hawaits
    | none =>
      rw [hstaged] at hstate
      have hid := (hmade.mem_joins id).mpr (hh.awaited id state hstate hawaits)
      rw [Std.ExtTreeMap.mem_iff_isSome_getElem?, hstaged] at hid
      cases hid

theorem receiveKeyHalves (hh : Holds id own peer d sealedKeys done [] h) (keys : List SealedKey) :
    StepYields (Helper.receiveKeyHalves (Codec.toBytes (PeerMessage.keyHalves keys))) h E fun _ h' =>
      Holds id own peer d (sealedKeys ++ keys) done [] h' := by
  refine .mono (receiveKeyHalves_yields keys) ?_
  rintro _ _ rfl
  exact ⟨⟨hh.keys, hh.peer⟩, hh.id, hh.domain, by simp only [hh.sealedKeys], hh.context, hh.mem, hh.waits, hh.awaited⟩

end Holds

/-! ### Both helpers -/

/-- Both helpers between two batches: all reports are joined, and the keys of both are shared out. -/
structure Ingested (S : Suite) (one two : KeyMaterial) (d : PointFunction.Domain) (posted : List (Posted S one two))
    (state : Helper S × Helper S) : Prop where
  holds : ∃ sealedOne sealedTwo, Holds .one one two d sealedOne (posted.map Posted.first) [] state.1 ∧
    Holds .two two one d sealedTwo (posted.map Posted.second) [] state.2 ∧
    ∃ keysOne keysTwo recordsOne recordsTwo,
      Aggregation.Generated (Round.pointFunction S d) JoinedReport.payloadOne true (posted.map Posted.joined) keysOne ∧
      Aggregation.Generated (Round.pointFunction S d) JoinedReport.payloadTwo false (posted.map Posted.joined) keysTwo ∧
      List.Forall₂ (fun s r => s.toRecord S.transport one.transport = .ok r) sealedOne recordsOne ∧
      List.Forall₂ (fun s r => s.toRecord S.transport two.transport = .ok r) sealedTwo recordsTwo ∧
      recordsOne.Perm (keysOne.map Prod.fst ++ keysTwo.map Prod.snd) ∧
      recordsTwo.Perm (keysTwo.map Prod.fst ++ keysOne.map Prod.snd)

variable {one two : KeyMaterial} {d : PointFunction.Domain} {E : Failure → Prop}

theorem ids_second (posted : List (Posted S one two)) :
    (posted.map Posted.second).map Half.id = (posted.map Posted.first).map Half.id := by
  rw [List.map_map, List.map_map]
  exact List.map_congr_left fun x _ => x.id_eq

theorem generated_first {batch : List (Posted S one two)} {made : List (KeyRecord × KeyRecord)} {staged : Staged}
    (h : Made one two d true (batch.map Posted.first) made staged) :
    Aggregation.Generated (Round.pointFunction S d) JoinedReport.payloadOne true (batch.map Posted.joined) made := by
  refine List.forall₂_map_left_iff.mpr ((List.forall₂_map_left_iff.mp h.generated).imp fun x keys hkeys => ?_)
  rwa [x.share_first] at hkeys

theorem generated_second {batch : List (Posted S one two)} {made : List (KeyRecord × KeyRecord)} {staged : Staged}
    (h : Made two one d false (batch.map Posted.second) made staged) :
    Aggregation.Generated (Round.pointFunction S d) JoinedReport.payloadTwo false (batch.map Posted.joined) made := by
  refine List.forall₂_map_left_iff.mpr ((List.forall₂_map_left_iff.mp h.generated).imp fun x keys hkeys => ?_)
  rwa [x.share_second, x.payload_second] at hkeys

/-- The halves of one more batch at the end, beside those of the batches before. -/
theorem perm_append_batch {α : Type} {records before before' new new' : List α} (h : records.Perm (before ++ before')) :
    (records ++ new ++ new').Perm (before ++ new ++ (before' ++ new')) := by
  rw [List.append_assoc, List.append_assoc]
  refine (h.append_right _).trans ?_
  rw [List.append_assoc]
  exact (List.perm_append_comm_assoc ..).append_left _

/-- The messages of a batch go through, and both helpers hold the halves of its keys as well. -/
theorem deliver_yields (hG : S.group.Lawful) (hone : S.transport.Opens one.transport)
    (htwo : S.transport.Opens two.transport) {posted batch : List (Posted S one two)} {state : Helper S × Helper S}
    (h : Ingested S one two d posted state) (hnodup : ((posted ++ batch).map fun x => x.first.id).Nodup) :
    StepYields (deliver (batch.map Posted.halves)) state E fun _ state' =>
      Ingested S one two d (posted ++ batch) state' := by
  obtain ⟨a, b⟩ := state
  obtain ⟨sealedOne, sealedTwo, ha, hb, keysOne, keysTwo, recordsOne, recordsTwo, hkeysOne, hkeysTwo, hopenOne, hopenTwo,
    hpermOne, hpermTwo⟩ := h
  have hnodupOne : ((posted.map Posted.first ++ batch.map Posted.first).map Half.id).Nodup := by
    rwa [← List.map_append, List.map_map]
  have hnodupTwo : ((posted.map Posted.second ++ batch.map Posted.second).map Half.id).Nodup := by
    rwa [← List.map_append, ids_second, List.map_append]
  have hfirst : (batch.map Posted.halves).map Prod.fst = (batch.map Posted.first).map Half.report := by simp [Posted.halves]
  have hsecond : (batch.map Posted.halves).map Prod.snd = (batch.map Posted.second).map Half.report := by
    simp [Posted.halves]
  rw [deliver, hfirst, hsecond]
  refine .bind (asFirst_yields (ha.receiveReports hG hnodupOne)) ?_
  rintro _ ⟨a₁, b₁⟩ ⟨⟨ha₁, blindedOne, hblindedOne, rfl⟩, hsame⟩
  obtain rfl : b₁ = b := hsame
  refine .bind (asSecond_yields (hb.receiveReports hG hnodupTwo)) ?_
  rintro _ ⟨a₂, b₂⟩ ⟨⟨hb₂, blindedTwo, hblindedTwo, rfl⟩, hsame⟩
  obtain rfl : a₂ = a₁ := hsame
  -- What one helper has blinded is what the other waits for.
  replace hblindedTwo : List.Forall₂ (fun (x : Half S one two) k => Join.IsBlinded S one two x.id x.key k)
      (batch.map Posted.first) blindedTwo :=
    List.forall₂_map_left_iff.mpr ((List.forall₂_map_left_iff.mp hblindedTwo).imp fun x k hk => by
      rwa [x.id_eq, x.key_second, ← x.key_first] at hk)
  replace hblindedOne : List.Forall₂ (fun (x : Half S two one) k => Join.IsBlinded S two one x.id x.key k)
      (batch.map Posted.second) blindedOne :=
    List.forall₂_map_left_iff.mpr ((List.forall₂_map_left_iff.mp hblindedOne).imp fun x k hk => by
      rwa [← x.id_eq, x.key_first, ← x.key_second] at hk)
  refine .bind (asFirst_yields (ha₁.receiveExponentiatedKeys hG hone htwo hnodupOne hblindedTwo)) ?_
  rintro _ ⟨a₃, b₃⟩ ⟨⟨madeOne, stagedOne, hmadeOne, ha₃, rfl⟩, hsame⟩
  obtain rfl : b₃ = b₂ := hsame
  refine .bind (asSecond_yields (hb₂.receiveExponentiatedKeys hG htwo hone hnodupTwo hblindedOne)) ?_
  rintro _ ⟨a₄, b₄⟩ ⟨⟨madeTwo, stagedTwo, hmadeTwo, hb₄, rfl⟩, hsame⟩
  obtain rfl : a₄ = a₃ := hsame
  refine .bind (asFirst_yields (ha₃.receiveKeyHalves stagedTwo.peer)) ?_
  rintro _ ⟨a₅, b₅⟩ ⟨ha₅, hsame⟩
  obtain rfl : b₅ = b₄ := hsame
  refine .mono (asSecond_yields (hb₄.receiveKeyHalves stagedOne.peer)) ?_
  rintro _ ⟨a₆, b₆⟩ ⟨hb₆, hsame⟩
  obtain rfl : a₆ = a₅ := hsame
  refine ⟨_, _, by rwa [List.map_append], by rwa [List.map_append], keysOne ++ madeOne, keysTwo ++ madeTwo,
    recordsOne ++ madeOne.map Prod.fst ++ madeTwo.map Prod.snd, recordsTwo ++ madeTwo.map Prod.fst ++ madeOne.map Prod.snd,
    ?_, ?_, ?_, ?_, ?_, ?_⟩
  · rw [List.map_append]
    exact List.rel_append hkeysOne (generated_first hmadeOne)
  · rw [List.map_append]
    exact List.rel_append hkeysTwo (generated_second hmadeTwo)
  · exact List.rel_append (List.rel_append hopenOne hmadeOne.own) hmadeTwo.peer
  · exact List.rel_append (List.rel_append hopenTwo hmadeTwo.own) hmadeOne.peer
  · rw [List.map_append, List.map_append]
    exact perm_append_batch hpermOne
  · rw [List.map_append, List.map_append]
    exact perm_append_batch hpermTwo

/-- After any number of batches both helpers hold the halves of all reports. -/
theorem deliverAll_yields (hG : S.group.Lawful) (hone : S.transport.Opens one.transport)
    (htwo : S.transport.Opens two.transport) {posted : List (Posted S one two)} {state : Helper S × Helper S}
    (h : Ingested S one two d posted state) (batches : List (List (Posted S one two)))
    (hnodup : ((posted ++ batches.flatten).map fun x => x.first.id).Nodup) :
    StepYields ((batches.map (List.map Posted.halves)).forM deliver) state E fun _ state' =>
      Ingested S one two d (posted ++ batches.flatten) state' := by
  induction batches generalizing posted state with
  | nil =>
    refine .pure ?_
    rwa [List.flatten_nil, List.append_nil]
  | cons batch batches ih =>
    rw [List.flatten_cons, ← List.append_assoc] at hnodup ⊢
    have hbatch : ((posted ++ batch).map fun x => x.first.id).Nodup := by
      rw [List.map_append] at hnodup
      exact (List.nodup_append.mp hnodup).1
    exact .bind (f := fun _ => (batches.map (List.map Posted.halves)).forM deliver)
      (deliver_yields hG hone htwo h hbatch) fun _ state' h' => ih h' hnodup

/-- A helper starts with any domain. -/
theorem exists_fresh (id : HelperId) (own peer : KeyMaterial) (d : PointFunction.Domain) :
    ∃ h : Helper S, fresh id own (peer.publicInfo S) d.hierarchy = .ok h ∧ Holds id own peer d [] [] [] h := by
  refine ⟨{ id, keys := own, peer := peer.publicInfo S, domain := d, joins := ∅, sealedKeys := [], context := none }, ?_,
    ⟨rfl, rfl⟩, rfl, rfl, rfl, rfl, fun id hid => absurd hid Std.ExtTreeMap.not_mem_empty, fun x hx => (nomatch hx),
    fun id state hstate => by simp at hstate⟩
  rw [fresh, d.ofHierarchy_eq]
  rfl

theorem ingested_nil {a b : Helper S} (ha : Holds .one one two d [] [] [] a) (hb : Holds .two two one d [] [] [] b) :
    Ingested S one two d [] (a, b) :=
  ⟨[], [], ha, hb, [], [], [], [], .nil, .nil, .nil, .nil, .refl _, .refl _⟩

end PrivateHistogram.Helper
