import PrivateHistogram.Proofs.Helper.Books
import PrivateHistogram.Proofs.Helper.Tables

/-! The table of joins beside the key halves that finishing them has left. Only a message that finishes joins adds halves of
    the helper's own (`Call.ownHalves`), one for each report it finishes (`Moves.countP_ownHalves`), and a finished report
    stays as it is. So after any calls, the own halves of a report tell whether it is finished (`ownHalves_of_serve`). -/

namespace PrivateHistogram.Helper

variable {S : Suite} {h h' : Helper S}

/-! ### Own halves -/

/-- The key halves that a call has added by finishing joins. -/
def Call.ownHalves (call : Call) (before after : Helper S) : List SealedKey :=
  match call with
  | .exponentiatedKeys _ => after.sealedKeys.drop before.sealedKeys.length
  | _ => []

/-- The key halves that some calls, one after the other, have added by finishing joins. -/
def ownHalves : List Call → Helper S → RandomTape → List SealedKey
  | [], _, _ => []
  | call :: calls, h, tape =>
    let ((_, next), rest) := call.step.run.run h tape
    call.ownHalves h next ++ ownHalves calls next rest

theorem ownHalves_cons (call : Call) (calls : List Call) (h : Helper S) (tape : RandomTape) :
    ownHalves (call :: calls) h tape =
      call.ownHalves h (call.step.run.run h tape).1.2 ++
        ownHalves calls (call.step.run.run h tape).1.2 (call.step.run.run h tape).2 := rfl

/-- The own halves of a report: one if it is finished. -/
def ownCount (h : Helper S) (id : ReportId) : ℕ :=
  if (h.shareOf? id).isSome then 1 else 0

theorem ownCount_congr {id : ReportId}
    (hsame : ∀ share, h'.joins[id]? = some (.rekeyed share) ↔ h.joins[id]? = some (.rekeyed share)) :
    h'.ownCount id = h.ownCount id := by
  have hshare : h'.shareOf? id = h.shareOf? id := Option.ext fun share => by
    rw [shareOf?_eq_some, shareOf?_eq_some, hsame]
  rw [ownCount, ownCount, hshare]

/-! ### What a call adds -/

theorem Call.ownHalves_of_same (call : Call) (hsame : h'.sealedKeys = h.sealedKeys) : call.ownHalves h h' = [] := by
  cases call with
  | exponentiatedKeys message => rw [ownHalves, hsame, List.drop_length]
  | reports | keyHalves | round => rfl

/-- The reports of a message have not been finished before, and now each is. -/
theorem Stages.ownCount_commit {ks : List ExponentiatedKey} {finished : List Finished} {staged : Staged}
    (hstages : h.Stages ks finished staged) (id : ReportId) :
    (h.commit staged).ownCount id = h.ownCount id + (ks.map ExponentiatedKey.id).count id := by
  by_cases hid : id ∈ ks.map ExponentiatedKey.id
  · have hbefore : h.shareOf? id = none := by
      rw [Option.eq_none_iff_forall_ne_some]
      intro share hshare
      exact hstages.not_mem_of_rekeyed (shareOf?_eq_some.mp hshare) hid
    have hafter : ∃ share, (h.commit staged).shareOf? id = some share := by
      rw [← hstages.ids] at hid
      obtain ⟨f, hf, rfl⟩ := List.mem_map.mp hid
      exact ⟨f.share, shareOf?_eq_some.mpr (hstages.getElem?_commit.1 f hf)⟩
    rw [ownCount, ownCount, hbefore, if_pos (Option.isSome_iff_exists.mpr hafter), hstages.nodup.count, if_pos hid]
    rfl
  · rw [List.count_eq_zero_of_not_mem hid, add_zero]
    refine ownCount_congr fun share => ?_
    rw [hstages.getElem?_commit.2 id hid]

theorem Stages.ownHalves_commit {ks : List ExponentiatedKey} {finished : List Finished} {staged : Staged}
    (hstages : h.Stages ks finished staged) (message : Bytes) (id : ReportId) :
    ((Call.exponentiatedKeys message).ownHalves h (h.commit staged)).countP (fun s => s.reportId = id) =
      (ks.map ExponentiatedKey.id).count id := by
  have hown : (Call.exponentiatedKeys message).ownHalves h (h.commit staged) = staged.own := List.drop_left
  rw [hown, ← hstages.own_ids, List.count_eq_countP, List.countP_map]
  exact List.countP_congr fun s _ => by simp

section Move
variable {call : Call} {answer : Except Failure Answer} (hmoves : h.Moves call answer h')
include hmoves

/-- What a call adds comes after the halves held before, of which none is lost. -/
theorem Moves.sublist_ownHalves : (h.sealedKeys ++ call.ownHalves h h').Sublist h'.sealedKeys := by
  have hsame (h' : Helper S) (hsame : h'.sealedKeys = h.sealedKeys) :
      (h.sealedKeys ++ call.ownHalves h h').Sublist h'.sealedKeys := by
    rw [call.ownHalves_of_same hsame, List.append_nil, hsame]
  cases hmoves with
  | refuse | awaitSome | await | round => exact hsame _ rfl
  | take message =>
    rw [show (Call.keyHalves message).ownHalves h _ = [] from rfl, List.append_nil]
    exact List.sublist_append_left _ _
  | finish hread hstages =>
    rw [Call.ownHalves, commit, List.drop_left]

/-- A call adds own halves of exactly the reports that it finishes, one each. -/
theorem Moves.ownCount_eq (id : ReportId) :
    h'.ownCount id = h.ownCount id + (call.ownHalves h h').countP fun s => s.reportId = id := by
  have hnone (h' : Helper S) (hkeys : call.ownHalves h h' = [])
      (hjoins : ∀ share, h'.joins[id]? = some (.rekeyed share) ↔ h.joins[id]? = some (.rekeyed share)) :
      h'.ownCount id = h.ownCount id + (call.ownHalves h h').countP fun s => s.reportId = id := by
    rw [hkeys, List.countP_nil, add_zero, ownCount_congr hjoins]
  cases hmoves with
  | refuse => exact hnone h (call.ownHalves_of_same rfl) fun _ => .rfl
  | awaitSome _ hopens => exact hnone _ rfl fun _ => hopens.rekeyed_awaiting
  | await hopens => exact hnone _ rfl fun _ => hopens.rekeyed_awaiting
  | take | round => exact hnone _ rfl fun _ => .rfl
  | finish _ hstages => rw [hstages.ownCount_commit, hstages.ownHalves_commit]

end Move

/-! ### All calls -/

theorem sublist_ownHalves_serve (calls : List Call) (h : Helper S) (tape : RandomTape) :
    (h.sealedKeys ++ ownHalves calls h tape).Sublist (serve calls h tape).1.2.sealedKeys := by
  induction calls generalizing h tape with
  | nil => exact (List.append_nil h.sealedKeys).symm ▸ List.Sublist.refl h.sealedKeys
  | cons call calls ih =>
    rw [ownHalves_cons, ← List.append_assoc, serve_cons]
    exact ((moves_of_step call h tape).sublist_ownHalves.append_right _).trans (ih _ _)

theorem ownCount_serve (calls : List Call) (h : Helper S) (tape : RandomTape) (id : ReportId) :
    (serve calls h tape).1.2.ownCount id = h.ownCount id + (ownHalves calls h tape).countP fun s => s.reportId = id := by
  induction calls generalizing h tape with
  | nil => rfl
  | cons call calls ih =>
    rw [ownHalves_cons, List.countP_append, ← add_assoc, ← (moves_of_step call h tape).ownCount_eq, serve_cons]
    exact ih _ _

/-- After any calls, served or refused, every report is held under its identifier and either waits for the peer or is
    finished, and a finished one stays as it is. The helper holds what it has added by finishing joins, one half for
    each report that is finished, and none for others. -/
theorem ownHalves_of_serve {who : HelperId} {keys : KeyMaterial} {peer : PublicInfo S} {hierarchy : PointFunction.Hierarchy}
    {start : Helper S} (hstart : fresh who keys peer hierarchy = .ok start) (calls : List Call) (tape : RandomTape) :
    let h := (serve calls start tape).1.2
    let own := ownHalves calls start tape
    (∀ (id : ReportId) (state : JoinState), h.joins[id]? = some state →
      state.id = id ∧ ((∃ r, state = .exponentiated r) ∨ ∃ share, state = .rekeyed share)) ∧
    (∀ (id : ReportId) (share : AggregationIdShare), h.joins[id]? = some (.rekeyed share) → ∀ later tape',
      (serve later h tape').1.2.joins[id]? = some (.rekeyed share)) ∧
    own.Sublist h.sealedKeys ∧
    ∀ id, ((∃ share, h.joins[id]? = some (.rekeyed share)) → own.countP (fun s => s.reportId = id) = 1) ∧
      ((∀ share, h.joins[id]? ≠ some (.rekeyed share)) → own.countP (fun s => s.reportId = id) = 0) := by
  intro h own
  have hcount (id : ReportId) : h.ownCount id = own.countP fun s => s.reportId = id := by
    refine (ownCount_serve calls start tape id).trans ?_
    have hnone : start.ownCount id = 0 := by
      obtain ⟨d, rfl⟩ := fresh_eq hstart
      rw [ownCount, shareOf?, Std.ExtTreeMap.getElem?_empty]
      rfl
    rw [hnone, zero_add]
  refine ⟨filed_serve hstart calls tape, fun id share hid later tape' => ?_, ?_, fun id => ⟨?_, fun hnot => ?_⟩⟩
  · exact serve_induction (P := fun h' => h'.joins[id]? = some (.rekeyed share)) (fun _ _ _ _ hmoves => hmoves.rekeyed)
      later tape' hid
  · exact (List.sublist_append_right _ _).trans (sublist_ownHalves_serve calls start tape)
  · rintro ⟨share, hid⟩
    rw [← hcount, ownCount, shareOf?_eq_some.mpr hid]
    rfl
  · rw [← hcount, ownCount, if_neg]
    rintro hsome
    obtain ⟨share, hshare⟩ := Option.isSome_iff_exists.mp hsome
    exact hnot share (shareOf?_eq_some.mp hshare)

/-- A helper that has received nothing takes in a report, and finishes it with the key that the peer blinds. -/
theorem rekeyed_of_serve (hG : S.group.Lawful) {who : HelperId} {own peer : KeyMaterial}
    {hierarchy : PointFunction.Hierarchy}
    {start : Helper S} (hstart : fresh who own (peer.publicInfo S) hierarchy = .ok start)
    (hown : S.transport.Opens own.transport)
    (hpeer : S.transport.Opens peer.transport) (x : Report.Half S own peer) {k : ExponentiatedKey}
    (hk : Join.IsBlinded S own peer x.id x.key k) (tape : RandomTape) (ht : tape.fault = none) :
    ∃ share, (serve [.reports [x.report], .exponentiatedKeys (Codec.toBytes (PeerMessage.exponentiatedKeys [k]))] start
      tape).1.2.joins[x.id]? = some (.rekeyed share) := by
  obtain ⟨_, h, rest, hreport, -, haccepts⟩ := step_report hG hstart x tape ht
  have hserve : (serve [.reports [x.report]] start tape).1.2 = h := by
    rw [serve_cons, hreport]
    rfl
  subst hserve
  obtain ⟨finished, staged, _, hstages, hstep⟩ := (haccepts k hk).step hstart hown.seals hpeer.seals rest
  have hmem : x.id ∈ finished.map fun f => f.share.id := by
    rw [hstages.ids, List.map_singleton, hk.1]
    exact List.mem_singleton_self _
  obtain ⟨f, hf, hid⟩ := List.mem_map.mp hmem
  refine ⟨f.share, ?_⟩
  rw [serve_cons, hreport]
  dsimp only
  rw [serve_cons, hstep, ← hid]
  exact hstages.getElem?_commit.1 f hf

/-- The first helper takes in a report and finishes it, and has added one half for it. -/
theorem ownHalves_of_serve_additive :
    let S := Suite.additive
    let x := additiveHalf .additiveOne .additiveTwo
    let tape : RandomTape := ⟨fun _ => 0, 0, none⟩
    ∃ (start : Helper S) (message : Bytes),
      fresh .one .additiveOne (KeyMaterial.additiveTwo.publicInfo S) ⟨[1, 3]⟩ = .ok start ∧
      (ownHalves [.reports [x.report], .exponentiatedKeys message] start tape).countP (fun s => s.reportId = x.id) = 1 := by
  intro S x tape
  obtain ⟨start, hstart, -⟩ := exists_fresh (S := S) .one .additiveOne .additiveTwo .oneThree
  clear_value x
  obtain ⟨k, hk⟩ : ∃ k, Join.IsBlinded S KeyMaterial.additiveOne KeyMaterial.additiveTwo x.id x.key k :=
    ⟨⟨x.id, _⟩, rfl, .ofNat 1, rfl⟩
  have hone : S.transport.Opens KeyMaterial.additiveOne.transport := Transport.plain_lawful.opens _
  have htwo : S.transport.Opens KeyMaterial.additiveTwo.transport := Transport.plain_lawful.opens _
  have hfinished := rekeyed_of_serve KeyGroup.additive_lawful hstart hone htwo x hk tape rfl
  obtain ⟨message, hmessage⟩ : ∃ message, Codec.toBytes (PeerMessage.exponentiatedKeys [k]) = message := ⟨_, rfl⟩
  rw [hmessage] at hfinished
  obtain ⟨-, -, -, hcount⟩ := ownHalves_of_serve hstart [.reports [x.report], .exponentiatedKeys message] tape
  exact ⟨start, message, hstart, (hcount x.id).1 hfinished⟩

end PrivateHistogram.Helper
