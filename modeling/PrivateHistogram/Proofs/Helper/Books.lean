import PrivateHistogram.Proofs.Helper.Moves

/-! The key halves that a helper holds, and where each is from. A helper makes the key for a report once, when it finishes
    the report, and keeps one half; all other halves have come with messages (`Books`). Every move keeps the books
    (`Books.move`), so the halves can be counted (`Books.halfCount_own`, `Books.halfCount_peer`). -/

namespace PrivateHistogram

theorem HelperId.other_ne (w : HelperId) : w.other ≠ w := by
  cases w <;> nofun

theorem HelperId.eq_or_eq_other (v w : HelperId) : v = w ∨ v = w.other := by
  cases v <;> cases w <;> simp [other]

theorem HelperId.other_other (w : HelperId) : w.other.other = w := by
  cases w <;> rfl

namespace Helper

variable {S : Suite} {h h' : Helper S}

/-! ### Halves of a report -/

/-- The aggregation identifier of a report, if the helper has finished it. -/
def shareOf? (h : Helper S) (id : ReportId) : Option AggregationIdShare :=
  match h.joins[id]? with
  | some (.rekeyed share) => some share
  | _ => none

theorem shareOf?_eq_some {id : ReportId} {share : AggregationIdShare} :
    h.shareOf? id = some share ↔ h.joins[id]? = some (.rekeyed share) := by
  rw [shareOf?]
  rcases h.joins[id]? with _ | (_ | _ | _ | _) <;> simp

/-- The helper that has made a key half: only the halves that a helper has made itself have a label. -/
def makerOf (h : Helper S) (s : SealedKey) : Option HelperId :=
  match s.toRecord S.transport h.keys.transport with
  | .ok r => some (if r.label.isSome then h.id else h.id.other)
  | .error _ => none

/-- The number of key halves of a report that a helper holds and `maker` has made. -/
def halfCount (h : Helper S) (maker : HelperId) (id : ReportId) : ℕ :=
  h.sealedKeys.countP fun s => s.reportId = id ∧ h.makerOf s = some maker

/-! ### Keys that have been made -/

/-- Both halves of the key of a finished report open at the helpers that they are for. -/
structure IsMade (S : Suite) (d : PointFunction.Domain) (own peer : KeyMaterial) (leader : Bool) (f : Finished) : Prop where
  records : ∃ seedA seedB, f.records = KeyRecord.ofKeys (d.bucketOf f.share.value) f.share f.payload
    ((Round.pointFunction S d).keysFrom (d.bucketOf f.share.value) (KeyRecord.contribution f.payload leader) seedA seedB)
  own : f.own.toRecord S.transport own.transport = .ok f.records.1
  peer : f.peer.toRecord S.transport peer.transport = .ok f.records.2
  own_id : f.own.reportId = f.share.id
  peer_id : f.peer.reportId = f.share.id

namespace IsMade
variable {d : PointFunction.Domain} {own peer : KeyMaterial} {leader : Bool} {f : Finished}
  (hmade : IsMade S d own peer leader f)
include hmade

theorem label_own : f.records.1.label.isSome := by
  obtain ⟨seedA, seedB, hrecords⟩ := hmade.records
  rw [hrecords]
  rfl

theorem label_peer : f.records.2.label = none := by
  obtain ⟨seedA, seedB, hrecords⟩ := hmade.records
  rw [hrecords]
  rfl

theorem makerOf_own (hkeys : h.keys = own) : h.makerOf f.own = some h.id := by
  rw [makerOf, hkeys, hmade.own]
  exact congrArg some (if_pos hmade.label_own)

theorem makerOf_peer (hkeys : h.keys = peer) : h.makerOf f.peer = some h.id.other := by
  simp only [makerOf, hkeys, hmade.peer, hmade.label_peer]
  rfl

end IsMade

theorem Finishes.isMade {k : ExponentiatedKey} {f : Finished} (hf : h.Finishes k f) {own peer : KeyMaterial}
    (hkeys : h.keys = own) (hpeer : h.peer = peer.publicInfo S) (hown : S.transport.Opens own.transport)
    (hother : S.transport.Opens peer.transport) : IsMade S h.domain own peer (h.id = .one) f where
  records := hf.records_eq
  own := by
    obtain ⟨tape, rest, hseal⟩ := hf.own
    exact SealedKey.toRecord_of_ofRecord hown (hkeys ▸ hseal)
  peer := by
    obtain ⟨tape, rest, hseal⟩ := hf.peer
    rw [hpeer] at hseal
    exact SealedKey.toRecord_of_ofRecord hother hseal
  own_id := hf.own_id.trans hf.share_id.symm
  peer_id := hf.peer_id.trans hf.share_id.symm

/-! ### The books -/

/-- What a helper holds after it has made some keys, and received some key halves. -/
structure Books (keys : HelperId → KeyMaterial) (d : PointFunction.Domain) (w : HelperId) (made : List Finished)
    (received : List SealedKey) (h : Helper S) : Prop where
  id_eq : h.id = w
  keys_eq : h.keys = keys w
  peer_eq : h.peer = (keys w.other).publicInfo S
  domain_eq : h.domain = d
  isMade : ∀ f ∈ made, IsMade S d (keys w) (keys w.other) (w = .one) f
  nodup : (made.map fun f => f.share.id).Nodup
  rekeyed : ∀ (id : ReportId) (share : AggregationIdShare),
    h.joins[id]? = some (.rekeyed share) ↔ ∃ f ∈ made, f.share = share ∧ share.id = id
  sealedKeys : h.sealedKeys.Perm (made.map Finished.own ++ received)

namespace Books
variable {keys : HelperId → KeyMaterial} {d : PointFunction.Domain} {w : HelperId} {made : List Finished}
  {received : List SealedKey}

theorem of_fresh {hierarchy : PointFunction.Hierarchy}
    (hstart : fresh w (keys w) ((keys w.other).publicInfo S) hierarchy = .ok h) : Books keys h.domain w [] [] h := by
  obtain ⟨d, -, hd⟩ := bind_eq_ok.mp hstart
  cases hd
  refine ⟨rfl, rfl, rfl, rfl, fun f hf => (nomatch hf), .nil, fun id share => ?_, .refl _⟩
  rw [Std.ExtTreeMap.getElem?_empty]
  exact ⟨nofun, nofun⟩

variable (hbooks : Books keys d w made received h)
include hbooks

theorem rekeyed_of_mem {f : Finished} (hf : f ∈ made) : h.joins[f.share.id]? = some (.rekeyed f.share) :=
  (hbooks.rekeyed _ _).mpr ⟨f, hf, rfl, rfl⟩

theorem shareOf?_eq_some {id : ReportId} {share : AggregationIdShare} :
    h.shareOf? id = some share ↔ ∃ f ∈ made, f.share = share ∧ share.id = id :=
  Helper.shareOf?_eq_some.trans (hbooks.rekeyed id share)

/-! #### Moves -/

theorem awaiting {reports : List PartialReport} {opened : List DecryptedReport} (hopens : h.Opens reports opened) :
    Books keys d w made received (h.awaiting opened) where
  __ := hbooks
  rekeyed id share := hopens.rekeyed_awaiting.trans (hbooks.rekeyed id share)

/-- The keys made for a message are for reports for which none has been made before. -/
theorem finish (hopens : ∀ w, S.transport.Opens (keys w).transport) {ks : List ExponentiatedKey} {finished : List Finished}
    {staged : Staged} (hstages : h.Stages ks finished staged) :
    Books keys d w (made ++ finished) received (h.commit staged) where
  __ := hbooks
  isMade f hf := by
    rcases List.mem_append.mp hf with hf | hf
    · exact hbooks.isMade f hf
    · obtain ⟨k, -, hk⟩ := exists_of_mem_forall₂ hstages.finishes.flip hf
      have hmade := hk.isMade hbooks.keys_eq hbooks.peer_eq (hopens w) (hopens w.other)
      rwa [hbooks.domain_eq, hbooks.id_eq] at hmade
  nodup := by
    rw [List.map_append, hstages.ids]
    refine List.nodup_append.mpr ⟨hbooks.nodup, hstages.nodup, ?_⟩
    rintro _ hid _ hid' rfl
    obtain ⟨f, hf, rfl⟩ := List.mem_map.mp hid
    exact hstages.not_mem_of_rekeyed (hbooks.rekeyed_of_mem hf) hid'
  rekeyed id share := by
    constructor
    · intro hid
      rcases hstages.of_getElem?_commit hid with ⟨f, hf, rfl, hstate⟩ | ⟨-, hid⟩
      · cases hstate
        exact ⟨f, List.mem_append_right _ hf, rfl, rfl⟩
      · obtain ⟨f, hf, hshare⟩ := (hbooks.rekeyed id share).mp hid
        exact ⟨f, List.mem_append_left _ hf, hshare⟩
    · rintro ⟨f, hf, rfl, rfl⟩
      rcases List.mem_append.mp hf with hf | hf
      · have hrekeyed := hbooks.rekeyed_of_mem hf
        exact (hstages.getElem?_commit.2 _ (hstages.not_mem_of_rekeyed hrekeyed)).trans hrekeyed
      · exact hstages.getElem?_commit.1 f hf
  sealedKeys := by
    rw [commit, hstages.own, List.map_append, List.append_assoc]
    refine (hbooks.sealedKeys.append_right _).trans ?_
    rw [List.append_assoc]
    exact List.perm_append_comm.append_left _

theorem take (more : List SealedKey) :
    Books keys d w made (received ++ more) { h with sealedKeys := h.sealedKeys ++ more } where
  __ := hbooks
  sealedKeys := by
    rw [← List.append_assoc]
    exact hbooks.sealedKeys.append_right _

/-- Every call makes some keys, and the key halves that come with it are received. The answer is a message if there are
    such keys, and the key halves in it are theirs. -/
theorem move (hopens : ∀ w, S.transport.Opens (keys w).transport) {call : Call} {answer : Except Failure Answer}
    (hmoves : h.Moves call answer h') :
    ∃ more, Books keys d w (made ++ more) (received ++ call.halves) h' ∧
      (more = [] ∨ ∃ message, answer = .ok (.message message)) ∧
      ∀ message, answer = .ok (.message message) → halvesIn message = more.map Finished.peer := by
  have hnone {call : Call} {h' : Helper S} (hcall : call.halves = []) (hsame : Books keys d w made received h') :
      Books keys d w (made ++ []) (received ++ call.halves) h' := by
    rwa [hcall, List.append_nil, List.append_nil]
  cases hmoves with
  | refuse hcall => exact ⟨[], hnone hcall hbooks, .inl rfl, nofun⟩
  | awaitSome _ hreports => exact ⟨[], hnone rfl (hbooks.awaiting hreports), .inl rfl, nofun⟩
  | await hreports =>
    refine ⟨[], hnone rfl (hbooks.awaiting hreports), .inl rfl, fun message hmessage => ?_⟩
    cases hmessage
    exact halvesIn_exponentiatedKeys _
  | @finish _ _ finished _ _ hstages =>
    refine ⟨finished, ?_, .inr ⟨_, rfl⟩, fun message hmessage => ?_⟩
    · have hafter := hbooks.finish hopens hstages
      rwa [← List.append_nil received] at hafter
    · cases hmessage
      rw [halvesIn_keyHalves, hstages.peer]
  | take message => exact ⟨[], by rw [List.append_nil]; exact hbooks.take _, .inl rfl, nofun⟩
  | round result context =>
    refine ⟨[], hnone rfl { hbooks with }, .inl rfl, fun message hmessage => ?_⟩
    cases result <;> cases hmessage

/-! #### Counts -/

theorem countP_made (id : ReportId) :
    made.countP (fun f => f.share.id = id) = if (h.shareOf? id).isSome then 1 else 0 := by
  have hcount : made.countP (fun f => f.share.id = id) = (made.map fun f => f.share.id).count id := by
    rw [List.count_eq_countP, List.countP_map]
    exact List.countP_congr fun f _ => by simp
  rw [hcount, hbooks.nodup.count]
  refine if_congr ?_ rfl rfl
  rw [Option.isSome_iff_exists, List.mem_map]
  constructor
  · rintro ⟨f, hf, rfl⟩
    exact ⟨f.share, hbooks.shareOf?_eq_some.mpr ⟨f, hf, rfl, rfl⟩⟩
  · rintro ⟨share, hshare⟩
    obtain ⟨f, hf, rfl, rfl⟩ := hbooks.shareOf?_eq_some.mp hshare
    exact ⟨f, hf, rfl⟩

theorem makerOf_own {s : SealedKey} (hs : s ∈ made.map Finished.own) : h.makerOf s = some w := by
  obtain ⟨f, hf, rfl⟩ := List.mem_map.mp hs
  rw [(hbooks.isMade f hf).makerOf_own hbooks.keys_eq, hbooks.id_eq]

section Count
variable (hreceived : ∀ s ∈ received, h.makerOf s = some w.other)
include hreceived

theorem halfCount_own (id : ReportId) : h.halfCount w id = if (h.shareOf? id).isSome then 1 else 0 := by
  have hown : (made.map Finished.own).countP (fun s => s.reportId = id ∧ h.makerOf s = some w) =
      made.countP fun f => f.share.id = id := by
    rw [List.countP_map]
    refine List.countP_congr fun f hf => ?_
    have hmaker := hbooks.makerOf_own (List.mem_map_of_mem hf)
    simp [hmaker, (hbooks.isMade f hf).own_id]
  have hother : received.countP (fun s => s.reportId = id ∧ h.makerOf s = some w) = 0 := by
    refine List.countP_eq_zero.mpr fun s hs => ?_
    rw [hreceived s hs]
    simp [w.other_ne]
  rw [halfCount, hbooks.sealedKeys.countP_eq, List.countP_append, hown, hother, add_zero, hbooks.countP_made]

theorem halfCount_peer (id : ReportId) : h.halfCount w.other id = received.countP fun s => s.reportId = id := by
  have hown : (made.map Finished.own).countP (fun s => s.reportId = id ∧ h.makerOf s = some w.other) = 0 := by
    refine List.countP_eq_zero.mpr fun s hs => ?_
    rw [hbooks.makerOf_own hs]
    simp [w.other_ne.symm]
  rw [halfCount, hbooks.sealedKeys.countP_eq, List.countP_append, hown, zero_add]
  refine List.countP_congr fun s hs => ?_
  simp [hreceived s hs]

end Count

end Books

end Helper

end PrivateHistogram
