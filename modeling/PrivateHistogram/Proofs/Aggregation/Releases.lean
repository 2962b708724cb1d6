import PrivateHistogram.Proofs.Aggregation.Merges
import PrivateHistogram.Proofs.Aggregation.Rounds

/-! The release of the last level. Both helpers label a bucket with the smallest report in it, so the shares of the
    bucket key that they have put into their labels are of one report and make up its key (`complete_eq`). -/

namespace PrivateHistogram

namespace Aggregation

open PointFunction

variable {F : PointFunction BucketShare} {reports : List JoinedReport}

/-! ### Labels -/

section Labels
variable {keyShare : JoinedReport → Bytes} {held : List BucketLabel}
  (hheld : held.Perm (reports.map (JoinedReport.label F.domain keyShare))) {p : Plan} (hp : p.Fits F.domain)
include hheld hp

theorem mem_planLabels_reports {b : UInt64} {l : BucketLabel} :
    (b, l) ∈ planLabels F p held ↔ ∃ r ∈ reports, F.domain.bucketOf r.aggregationId = b ∧
      PartialHistogram.bucketOf (F.domain.bitLength - p.targetBits) b ∈ p.buckets.toList ∧
      l = r.label F.domain keyShare := by
  rw [mem_planLabels hp, hheld.mem_iff, List.mem_map]
  constructor
  · rintro ⟨⟨r, hr, rfl⟩, rfl, hb⟩
    exact ⟨r, hr, rfl, hb, rfl⟩
  · rintro ⟨r, hr, rfl, hb, rfl⟩
    exact ⟨⟨r, hr, rfl⟩, rfl, hb⟩

/-- The label that stays in a bucket is that of its smallest report. -/
theorem report_of_smallest {labels : Labels} (hlabels : Labels.Smallest (planLabels F p held) labels) {b : UInt64}
    {l : BucketLabel} (hl : labels[b]? = some l) :
    ∃ r ∈ reports, F.domain.bucketOf r.aggregationId = b ∧ l = r.label F.domain keyShare ∧
      ∀ r' ∈ reports, F.domain.bucketOf r'.aggregationId = b → (compare r.id r'.id).isLE = true := by
  obtain ⟨r, hr, hb, hmem, rfl⟩ := (mem_planLabels_reports hheld hp).mp (hlabels.mem b l hl)
  exact ⟨r, hr, hb, rfl, fun r' hr' hb' =>
    hlabels.isLE b _ _ hl ((mem_planLabels_reports hheld hp).mpr ⟨r', hr', hb', hmem, rfl⟩)⟩

theorem getElem?_of_least {labels : Labels} (hlabels : Labels.Smallest (planLabels F p held) labels)
    (hnodup : (reports.map JoinedReport.id).Nodup) {x : JoinedReport} (hx : x ∈ reports)
    (hmem : PartialHistogram.bucketOf (F.domain.bitLength - p.targetBits) (F.domain.bucketOf x.aggregationId) ∈
      p.buckets.toList)
    (hle : ∀ y ∈ reports, F.domain.bucketOf y.aggregationId = F.domain.bucketOf x.aggregationId →
      (compare x.id y.id).isLE = true) :
    labels[F.domain.bucketOf x.aggregationId]? = some (x.label F.domain keyShare) := by
  obtain ⟨l, hl⟩ := hlabels.complete _ _ ((mem_planLabels_reports hheld hp).mpr ⟨x, hx, rfl, hmem, rfl⟩)
  obtain ⟨y, hy, hbucket, rfl, hyle⟩ := report_of_smallest hheld hp hlabels hl
  obtain rfl : x = y := List.inj_on_of_nodup_map hnodup hx hy (reportId_eq (hle y hy hbucket) (hyle x hx rfl))
  exact hl

theorem mem_labels_iff {labels : Labels} (hlabels : Labels.Smallest (planLabels F p held) labels) {b : UInt64} :
    b ∈ labels ↔ PartialHistogram.bucketOf (F.domain.bitLength - p.targetBits) b ∈ p.buckets.toList ∧
      ∃ r ∈ reports, F.domain.bucketOf r.aggregationId = b := by
  rw [Std.ExtTreeMap.mem_iff_isSome_getElem?, Option.isSome_iff_exists]
  constructor
  · rintro ⟨l, hl⟩
    obtain ⟨r, hr, hb, hmem, -⟩ := (mem_planLabels_reports hheld hp).mp (hlabels.mem b l hl)
    exact ⟨hmem, r, hr, hb⟩
  · rintro ⟨hmem, r, hr, hb⟩
    exact hlabels.complete b _ ((mem_planLabels_reports hheld hp).mpr ⟨r, hr, hb, hmem, rfl⟩)

end Labels

/-! ### The release -/

def bucketOfResult (d : Domain) (r : CompleteResult) : UInt64 := d.bucketOf r.aggregationId

/-- A released bucket has the key and the aggregation identifier of a report in it, and the sum and the number of
    its reports. -/
structure IsReleased (d : Domain) (reports : List JoinedReport) (r : CompleteResult) : Prop where
  key : ∃ x ∈ reports, r.aggregationId = x.aggregationId ∧ r.bucketKey = x.keyOne.xor x.keyTwo
  exact : IsExact d reports d.bitLength.toNat ⟨bucketOfResult d r, r.sum, r.count⟩

/-- A release of all buckets of reports that have some property, in the order of the buckets. -/
structure IsRelease (d : Domain) (reports : List JoinedReport) (kept : UInt64 → Prop) (results : List CompleteResult) :
    Prop where
  released : ∀ r ∈ results, IsReleased d reports r
  order : (results.map (bucketOfResult d)).Pairwise (· < ·)
  mem : ∀ b, b ∈ results.map (bucketOfResult d) ↔ kept b ∧ ∃ r ∈ reports, d.bucketOf r.aggregationId = b

theorem IsRelease.congr {d : Domain} {kept kept' : UInt64 → Prop} {results : List CompleteResult}
    (h : IsRelease d reports kept results)
    (hkept : ∀ r ∈ reports, kept (d.bucketOf r.aggregationId) ↔ kept' (d.bucketOf r.aggregationId)) :
    IsRelease d reports kept' results := by
  refine ⟨h.released, h.order, fun b => (h.mem b).trans (and_congr_left ?_)⟩
  rintro ⟨r, hr, rfl⟩
  exact hkept r hr

theorem bucketOf_last {d : Domain} {bits : UInt32} (hlast : bits = d.bitLength) (b : UInt64) :
    PartialHistogram.bucketOf (d.bitLength - bits) b = b := by
  rw [hlast, UInt32.sub_self]
  exact UInt64.shiftRight_zero

theorem IsHistogram.isLast {p : Plan} {records records' : List KeyRecord} {labels labels' : Labels} {a b : PartialHistogram}
    (ha : IsHistogram F p records labels a) (hb : IsHistogram F p records' labels' b)
    (hlast : p.targetBits = F.domain.bitLength) :
    Release.IsLast a b :=
  ⟨ha.bucketBits.trans hb.bucketBits.symm, ha.bitLength.trans hb.bitLength.symm,
    ha.bucketBits.trans (hlast.trans ha.bitLength.symm)⟩

variable {one two : List KeyRecord} (h : Exchanged F reports one two) {p : Plan} (hp : p.Fits F.domain)
  (hlast : p.targetBits = F.domain.bitLength) {labelsA labelsB : Labels} {a b : PartialHistogram}
  (ha : IsHistogram F p one labelsA a) (hb : IsHistogram F p two labelsB b)
  (hlabelsA : Labels.Smallest (planLabels F p (one.filterMap KeyRecord.label)) labelsA)
  (hlabelsB : Labels.Smallest (planLabels F p (two.filterMap KeyRecord.label)) labelsB)
  (hnodup : (reports.map JoinedReport.id).Nodup)
  (hlength : ∀ r ∈ reports, r.keyOne.length = r.keyTwo.length)
include h hp hlast ha hb hlabelsA hlabelsB hnodup hlength

theorem completeResult_eq {bucket : UInt64} (hbucket : bucket ∈ p.buckets.toList)
    (hreport : ∃ r ∈ reports, F.domain.bucketOf r.aggregationId = bucket) :
    ∃ r, Release.completeResult a b bucket = .ok r ∧ bucketOfResult F.domain r = bucket ∧
      IsReleased F.domain reports r := by
  obtain ⟨hheldOne, hheldTwo⟩ := h.labels
  have hwhole : PartialHistogram.bucketOf (F.domain.bitLength - p.targetBits) bucket ∈ p.buckets.toList := by
    rwa [bucketOf_last hlast]
  have hla := Std.ExtTreeMap.getElem?_eq_some_getElem ((mem_labels_iff hheldOne hp hlabelsA).mpr ⟨hwhole, hreport⟩)
  obtain ⟨x, hx, rfl, hxlabel, hxle⟩ := report_of_smallest hheldOne hp hlabelsA hla
  rw [hxlabel] at hla
  -- The smallest report of a bucket is the same for both helpers.
  have hlb := getElem?_of_least hheldTwo hp hlabelsB hnodup hx hwhole hxle
  have hmatched : Release.Matched a b (F.domain.bucketOf x.aggregationId) (x.label F.domain JoinedReport.keyOne)
      (x.label F.domain JoinedReport.keyTwo) := ⟨by rw [ha.labels, hla], by rw [hb.labels, hlb], rfl, rfl⟩
  have hexact := isExact_of_exchanged h hp hbucket
  rw [totalShare_append, ← ha.share _ hbucket, ← hb.share _ hbucket, hlast] at hexact
  refine ⟨_, Release.completeResult_eq_ok.mpr ⟨_, _, hmatched, hlength x hx, rfl⟩, rfl, ⟨x, hx, rfl, rfl⟩, ?_⟩
  rw [Release.releasedSum, ha.privacy, hb.privacy]
  exact hexact

/-- The release of the last level has a result for every bucket of a report that is in the plan, in the order of the
    buckets. -/
theorem complete_eq :
    ∃ results, Release.complete a b = .ok results ∧ IsRelease F.domain reports (· ∈ p.buckets.toList) results := by
  have hmem : ∀ bucket, bucket ∈ Release.labelled a b ↔
      bucket ∈ p.buckets.toList ∧ ∃ r ∈ reports, F.domain.bucketOf r.aggregationId = bucket := fun bucket => by
    rw [Release.mem_labelled, ha.labels, hb.labels, mem_labels_iff h.labels.1 hp hlabelsA,
      mem_labels_iff h.labels.2 hp hlabelsB, or_self, bucketOf_last hlast]
  obtain ⟨results, hcomplete, hbuckets, hreleased⟩ := exists_mapM_eq_ok fun bucket hbucket =>
    completeResult_eq h hp hlast ha hb hlabelsA hlabelsB hnodup hlength ((hmem bucket).mp hbucket).1
      ((hmem bucket).mp hbucket).2
  refine ⟨results, ?_, hreleased, ?_, fun bucket => ?_⟩
  · rw [Release.complete_of_isLast (ha.isLast hb hlast)]
    exact hcomplete
  · rw [hbuckets]
    exact pairwise_increasing _
  · rw [hbuckets, hmem]

end Aggregation

end PrivateHistogram
