import PrivateHistogram.Proofs.Aggregation.Merges
import PrivateHistogram.Proofs.Helper.Coverage
import PrivateHistogram.Proofs.Helper.Exchanges

/-! The count of a bucket. If each half that a helper makes for its peer has come to it exactly once, the halves that both
    helpers hold are both halves of each key that has been made, so the rounds of both give every bucket a count of at
    most the reports in it that the leader has finished (`Run.count_le`). -/

namespace PrivateHistogram

namespace Helper

open PointFunction (ancestor)
open Aggregation (IsHistogram totalShare totalShare_append totalShare_keysFrom totalShare_perm)

variable {S : Suite}

/-- The reports that a helper has finished whose buckets start with the given bits. -/
def finishedIn (h : Helper S) (bits : ℕ) (b : UInt64) : List ReportId :=
  h.joins.keys.filter fun id =>
    (h.shareOf? id).any fun share => ancestor h.domain.bitLength.toNat (h.domain.bucketOf share.value) bits = b

/-- The keys that have been made for reports whose buckets start with the given bits. -/
def madeIn (d : PointFunction.Domain) (made : List Finished) (bits : ℕ) (b : UInt64) : List Finished :=
  made.filter fun f => ancestor d.bitLength.toNat (d.bucketOf f.share.value) bits = b

section Books
variable {keys : HelperId → KeyMaterial} {d : PointFunction.Domain} {w : HelperId} {made : List Finished}
  {received : List SealedKey} {h : Helper S} (hbooks : Books keys d w made received h)
include hbooks

theorem Books.length_madeIn_le (bits : ℕ) (b : UInt64) : (madeIn d made bits b).length ≤ (h.finishedIn bits b).length := by
  have hnodup : ((madeIn d made bits b).map fun f => f.share.id).Nodup :=
    hbooks.nodup.sublist (List.filter_sublist.map _)
  have hsub : (madeIn d made bits b).map (fun f => f.share.id) ⊆ h.finishedIn bits b := by
    intro id hid
    obtain ⟨f, hf, rfl⟩ := List.mem_map.mp hid
    obtain ⟨hf, hb⟩ := List.mem_filter.mp hf
    have hshare := hbooks.shareOf?_eq_some.mpr ⟨f, hf, rfl, rfl⟩
    refine List.mem_filter.mpr ⟨Std.ExtTreeMap.mem_keys.mpr ?_, ?_⟩
    · exact Std.ExtTreeMap.mem_iff_isSome_getElem?.mpr (Option.isSome_of_eq_some (hbooks.rekeyed_of_mem hf))
    · rw [hshare, hbooks.domain_eq]
      exact hb
  have hle := (List.subperm_of_subset hnodup hsub).length_le
  rwa [List.length_map] at hle

theorem Books.totalShare_made {bits : ℕ} (hpos : 0 < bits) (hle : bits ≤ d.bitLength.toNat) {b : UInt64}
    (hb : b.toNat < 2 ^ bits) :
    totalShare (Round.pointFunction S d) ((made.map fun f => f.records.1) ++ made.map fun f => f.records.2) bits b =
      ((madeIn d made bits b).map fun f => KeyRecord.contribution f.payload (w = .one)).sum := by
  have hrecords : List.Forall₂ (fun f k => ∃ seedA seedB, (k.1.key, k.2.key) = (Round.pointFunction S d).keysFrom
      (d.bucketOf f.share.value) (KeyRecord.contribution f.payload (w = .one)) seedA seedB) made
      (made.map Finished.records) := by
    rw [List.forall₂_map_right_iff]
    refine List.forall₂_same.mpr fun f hf => ?_
    obtain ⟨seedA, seedB, hrecords⟩ := (hbooks.isMade f hf).records
    exact ⟨seedA, seedB, by rw [hrecords]; rfl⟩
  have hkeys := totalShare_keysFrom (fun f : Finished => f.share.value)
    (fun f => KeyRecord.contribution f.payload (w = .one)) hrecords hpos hle hb
  rwa [List.map_map, List.map_map] at hkeys

/-- A helper that has received the other halves of some keys finds in all halves it holds the records of both. -/
theorem Books.perm_of_unseals {others : List Finished}
    (hothers : ∀ f ∈ others, f.peer.toRecord S.transport (keys w).transport = .ok f.records.2)
    (hreceived : received.Perm (others.map Finished.peer)) {records : List KeyRecord}
    (hunseals : h.Unseals h.sealedKeys records) :
    records.Perm ((made.map fun f => f.records.1) ++ others.map fun f => f.records.2) := by
  let opened := SealedKey.toRecord S.transport (keys w).transport
  have hrecords : h.sealedKeys.map opened = records.map .ok := by
    rw [Unseals, hbooks.keys_eq] at hunseals
    exact map_eq_map_of_forall₂ hunseals
  have hown : (made.map Finished.own).map opened = (made.map fun f => f.records.1).map .ok := by
    rw [List.map_map, List.map_map]
    exact List.map_congr_left fun f hf => (hbooks.isMade f hf).own
  have hpeer : (others.map Finished.peer).map opened = (others.map fun f => f.records.2).map .ok := by
    rw [List.map_map, List.map_map]
    exact List.map_congr_left hothers
  have hheld := (hbooks.sealedKeys.trans (hreceived.append_left _)).map opened
  rw [hrecords, List.map_append, hown, hpeer, ← List.map_append] at hheld
  exact (List.map_perm_map_iff fun _ _ heq => Except.ok.inj heq).mp hheld

end Books

namespace Run
variable {keys : HelperId → KeyMaterial} {start helpers : HelperId → Helper S} {events : List Event}
  {d : PointFunction.Domain} {made : HelperId → List Finished} (hrun : Run start events helpers)
  (haccount : ∀ w, Account keys d w events (made w) (helpers w))
  (hmatched : ∀ w id, (helpers w.other).halfCount w id = (helpers w).halfCount w id)
include hrun haccount hmatched

/-- What has come to a helper are the other halves of all keys that its peer has made, each once. -/
theorem perm_received (w : HelperId) : (received w events).Perm ((made w.other).map Finished.peer) := by
  have hbooks := (haccount w.other).toBooks
  -- Among such halves a report has only one.
  have hcount {l : List SealedKey} (hl : ∀ s ∈ l, ∃ f ∈ made w.other, f.peer = s) {f : Finished} (hf : f ∈ made w.other) :
      l.count f.peer = l.countP fun s => s.reportId = f.share.id := by
    rw [List.count_eq_countP]
    refine List.countP_congr fun s hs => ?_
    obtain ⟨g, hg, rfl⟩ := hl s hs
    rw [beq_iff_eq, decide_eq_true_iff, (hbooks.isMade g hg).peer_id]
    constructor
    · intro heq
      rw [← (hbooks.isMade g hg).peer_id, heq, (hbooks.isMade f hf).peer_id]
    · intro hid
      rw [List.inj_on_of_nodup_map hbooks.nodup hg hf hid]
  have hpeer : ∀ s ∈ (made w.other).map Finished.peer, ∃ f ∈ made w.other, f.peer = s := fun s => List.mem_map.mp
  have hreceived : ∀ s ∈ received w events, ∃ f ∈ made w.other, f.peer = s := fun s => hrun.peer_of_received haccount
  refine List.perm_iff_count.mpr fun s => ?_
  by_cases hs : s ∈ (made w.other).map Finished.peer
  · obtain ⟨f, hf, rfl⟩ := List.mem_map.mp hs
    have hcame := (haccount w).halfCount_peer (fun _ => hrun.makerOf_received haccount) f.share.id
    have hmade := hrun.halfCount_own haccount w.other f.share.id
    have hfew : ((made w.other).map Finished.peer).countP (fun s => s.reportId = f.share.id) =
        (made w.other).countP fun g => g.share.id = f.share.id := by
      rw [List.countP_map]
      refine List.countP_congr fun g hg => ?_
      rw [Function.comp_apply, (hbooks.isMade g hg).peer_id]
    rw [hcount hreceived hf, hcount hpeer hf, hfew, hbooks.countP_made, ← hmade, ← hcame, ← hmatched, w.other_other]
  · rw [List.count_eq_zero_of_not_mem hs, List.count_eq_zero_of_not_mem fun hmem =>
      hs (List.mem_map.mpr (hreceived s hmem))]

/-- The halves that both helpers hold add up, at a bucket, to what both have put into it. -/
theorem totalShare_add {recordsOne recordsTwo : List KeyRecord}
    (hone : (helpers .one).Unseals (helpers .one).sealedKeys recordsOne)
    (htwo : (helpers .two).Unseals (helpers .two).sealedKeys recordsTwo) {bits : ℕ} (hpos : 0 < bits)
    (hle : bits ≤ d.bitLength.toNat) {b : UInt64} (hb : b.toNat < 2 ^ bits) :
    totalShare (Round.pointFunction S d) recordsOne bits b + totalShare (Round.pointFunction S d) recordsTwo bits b =
      ((madeIn d (made .one) bits b).map fun f => KeyRecord.contribution f.payload true).sum +
        ((madeIn d (made .two) bits b).map fun f => KeyRecord.contribution f.payload false).sum := by
  have hpermOne := (haccount .one).perm_of_unseals (fun f hf => ((haccount .two).isMade f hf).peer)
    (hrun.perm_received haccount hmatched .one) hone
  have hpermTwo := (haccount .two).perm_of_unseals (fun f hf => ((haccount .one).isMade f hf).peer)
    (hrun.perm_received haccount hmatched .two) htwo
  have hmadeOne := (haccount .one).totalShare_made hpos hle hb
  have hmadeTwo := (haccount .two).totalShare_made hpos hle hb
  rw [totalShare_append] at hmadeOne hmadeTwo
  rw [totalShare_perm _ hpermOne, totalShare_perm _ hpermTwo, totalShare_append, totalShare_append]
  refine Eq.trans ?_ (congrArg₂ (· + ·) hmadeOne hmadeTwo)
  abel

/-- The rounds of both helpers over all halves they hold give a bucket a count of at most its reports. -/
theorem count_le (hcovers : ∀ w, (helpers w).Covers (helpers w).sealedKeys)
    (hprevious : (helpers .one).context.bind EvaluationContext.previous =
      (helpers .two).context.bind EvaluationContext.previous)
    {p : RoundParams} (hnoise : p.isNoised = false) {tape : HelperId → RandomTape} {g : HelperId → PartialHistogram}
    (hok : ∀ w, ((aggregate p).run.run (helpers w) (tape w)).1.1 = .ok (g w)) (b : UInt64) :
    (Release.bucketResult (g .one) (g .two) b).count ≤
      ((helpers .one).finishedIn (g .one).bucketBits.toNat b).length := by
  obtain ⟨recordsOne, plan, hunsealsOne, hplan, hfits, hone, -⟩ := (hcovers .one).isHistogram hnoise (hok .one)
  obtain ⟨recordsTwo, plan', hunsealsTwo, hplan', -, htwo, -⟩ := (hcovers .two).isHistogram hnoise (hok .two)
  rw [(haccount .one).domain_eq] at hplan hfits hone
  rw [(haccount .two).domain_eq] at hplan' htwo
  rw [← hprevious] at hplan'
  cases hplan.symm.trans hplan'
  rw [Release.bucketResult, hone.bucketBits]
  by_cases hb : b ∈ plan.buckets.toList
  · obtain ⟨hpos, hle, hlt⟩ := hfits.inDomain hb
    have hshares := hrun.totalShare_add haccount hmatched hunsealsOne hunsealsTwo hpos hle hlt
    have hcount : ((g .one).share b + (g .two).share b).count.val =
        (madeIn d (made .one) plan.targetBits.toNat b).length % Goldilocks.modulus := by
      rw [hone.share _ hb, htwo.share _ hb, hshares, KeyRecord.sum_contribution, KeyRecord.sum_contribution,
        BucketShare.count_add, if_pos rfl, if_neg Bool.false_ne_true, Goldilocks.add_zero]
      exact Goldilocks.val_sum_one _
    rw [hcount]
    exact (Nat.mod_le _ _).trans ((haccount .one).length_madeIn_le _ _)
  · rw [hone.share_eq_zero hb, htwo.share_eq_zero hb]
    exact Nat.zero_le _

end Run

end Helper

end PrivateHistogram
