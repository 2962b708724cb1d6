import PrivateHistogram.Proofs.Aggregation.Releases
import PrivateHistogram.Proofs.Aggregation.Runs

/-! Reports for which only one of the helpers has made its key. The helpers compare one label for each bucket, that of the
    smallest report, so the release accepts a bucket with such reports if a report smaller than them has been joined by both
    (`exists_complete_iff`). What it puts out then has in it the share of each such report that one helper holds
    (`blended_of_completeResult`), and is exact only where there are none (`complete_of_swapped`). -/

namespace PrivateHistogram.Aggregation

open PointFunction

variable {F : PointFunction BucketShare} {leader : Bool} {joined onlyOne onlyTwo : List JoinedReport}
  {one two : List KeyRecord}

/-! ### Rounds of both -/

theorem InStep.reached {a b : EvaluationContext} (h : InStep F (.ofRecords one) (.ofRecords two) a b) :
    (∃ last, Reached F one last a) ∧ ∃ last, Reached F two last b := by
  induction h with
  | start => exact ⟨⟨none, reached_ofRecords F one⟩, none, reached_ofRecords F two⟩
  | round _ first second ih =>
    obtain ⟨⟨_, hone⟩, _, htwo⟩ := ih
    exact ⟨⟨_, hone.of_aggregate first⟩, _, htwo.of_aggregate second⟩

/-! ### Labels -/

/-- The smallest report of a bucket, if both helpers have joined it. -/
structure IsLeast (d : Domain) (joined others : List JoinedReport) (b : UInt64) (x : JoinedReport) : Prop where
  mem : x ∈ joined
  bucket : d.bucketOf x.aggregationId = b
  isLE : ∀ y ∈ joined ++ others, d.bucketOf y.aggregationId = b → (compare x.id y.id).isLE = true

/-- Both helpers have joined a smaller report of the same bucket. -/
def IsHidden (d : Domain) (joined : List JoinedReport) (x : JoinedReport) : Prop :=
  ∃ r ∈ joined, d.bucketOf r.aggregationId = d.bucketOf x.aggregationId ∧ compare r.id x.id = .lt

/-- Histograms of the last level of two helpers. Each has made the keys of the reports that both have joined, and of some
    that the other has not. -/
structure HalfJoined (F : PointFunction BucketShare) (leader : Bool) (joined onlyOne onlyTwo : List JoinedReport) (p : Plan)
    (one two : List KeyRecord) (ha hb : PartialHistogram) : Prop where
  swapped : Swapped F leader (joined ++ onlyOne) (joined ++ onlyTwo) one two
  nodup : ((joined ++ (onlyOne ++ onlyTwo)).map JoinedReport.id).Nodup
  plan : p.Fits F.domain
  last : p.targetBits = F.domain.bitLength
  first : IsHistogram F p one ha.labels ha
  second : IsHistogram F p two hb.labels hb
  smallest_first : Labels.Smallest (planLabels F p (one.filterMap KeyRecord.label)) ha.labels
  smallest_second : Labels.Smallest (planLabels F p (two.filterMap KeyRecord.label)) hb.labels

namespace HalfJoined
variable {p : Plan} {ha hb : PartialHistogram} (h : HalfJoined F leader joined onlyOne onlyTwo p one two ha hb) {b : UInt64}
include h

theorem not_mem_joined {x : JoinedReport} (hx : x ∈ onlyOne ++ onlyTwo) : x ∉ joined := by
  have hnodup := h.nodup
  rw [List.map_append, List.nodup_append] at hnodup
  exact fun hjoined => hnodup.2.2 _ (List.mem_map_of_mem hjoined) _ (List.mem_map_of_mem hx) rfl

theorem mem_joined {x : JoinedReport} (hone : x ∈ joined ++ onlyOne) (htwo : x ∈ joined ++ onlyTwo) : x ∈ joined := by
  rcases List.mem_append.mp hone with hx | hone
  · exact hx
  rcases List.mem_append.mp htwo with hx | htwo
  · exact hx
  have hnodup := h.nodup
  rw [List.map_append, List.map_append, List.nodup_append, List.nodup_append] at hnodup
  exact absurd rfl (hnodup.2.1.2.2 _ (List.mem_map_of_mem hone) _ (List.mem_map_of_mem htwo))

theorem mem_labels_first : b ∈ ha.labels ↔ b ∈ p.buckets.toList ∧
    ∃ r ∈ joined ++ onlyOne, F.domain.bucketOf r.aggregationId = b := by
  rw [mem_labels_iff h.swapped.labels.1 h.plan h.smallest_first, bucketOf_last h.last]

theorem mem_labels_second : b ∈ hb.labels ↔ b ∈ p.buckets.toList ∧
    ∃ r ∈ joined ++ onlyTwo, F.domain.bucketOf r.aggregationId = b := by
  rw [mem_labels_iff h.swapped.labels.2 h.plan h.smallest_second, bucketOf_last h.last]

/-- Labels of one report are of the smallest in the bucket, and both helpers have joined it. -/
theorem isLeast_of_matched {la lb : BucketLabel} (hmatched : Release.Matched ha hb b la lb) :
    ∃ x, IsLeast F.domain joined (onlyOne ++ onlyTwo) b x ∧ la = x.label F.domain JoinedReport.keyOne ∧
      lb = x.label F.domain JoinedReport.keyTwo := by
  obtain ⟨x, hx, hbucket, hla, hxle⟩ := report_of_smallest h.swapped.labels.1 h.plan h.smallest_first hmatched.first
  obtain ⟨y, hy, -, hlb, hyle⟩ := report_of_smallest h.swapped.labels.2 h.plan h.smallest_second hmatched.second
  have hid : x.id = y.id := by
    have hreport := hmatched.reportId
    rwa [hla, hlb] at hreport
  have hxall : x ∈ joined ++ (onlyOne ++ onlyTwo) := (List.Sublist.append_left (List.sublist_append_left _ _) _).subset hx
  have hyall : y ∈ joined ++ (onlyOne ++ onlyTwo) := (List.Sublist.append_left (List.sublist_append_right _ _) _).subset hy
  obtain rfl : x = y := List.inj_on_of_nodup_map h.nodup hxall hyall hid
  refine ⟨x, ⟨h.mem_joined hx hy, hbucket, fun z hz hzbucket => ?_⟩, hla, hlb⟩
  rw [← List.append_assoc, List.mem_append] at hz
  rcases hz with hz | hz
  · exact hxle z hz hzbucket
  · exact hyle z (List.mem_append_right _ hz) hzbucket

theorem matched_of_isLeast (hb' : b ∈ p.buckets.toList) {x : JoinedReport}
    (hx : IsLeast F.domain joined (onlyOne ++ onlyTwo) b x) :
    Release.Matched ha hb b (x.label F.domain JoinedReport.keyOne) (x.label F.domain JoinedReport.keyTwo) := by
  obtain ⟨hx, rfl, hle⟩ := hx
  have hwhole : PartialHistogram.bucketOf (F.domain.bitLength - p.targetBits) (F.domain.bucketOf x.aggregationId) ∈
      p.buckets.toList := by rwa [bucketOf_last h.last]
  -- The report is also the smallest of those that one helper has labelled.
  have hheld {others : List JoinedReport} (hothers : others.Sublist (onlyOne ++ onlyTwo)) :
      ((joined ++ others).map JoinedReport.id).Nodup ∧
        ∀ y ∈ joined ++ others, F.domain.bucketOf y.aggregationId = F.domain.bucketOf x.aggregationId →
          (compare x.id y.id).isLE = true :=
    have hsublist : (joined ++ others).Sublist (joined ++ (onlyOne ++ onlyTwo)) := List.Sublist.append_left hothers _
    ⟨h.nodup.sublist (hsublist.map _), fun y hy => hle y (hsublist.subset hy)⟩
  obtain ⟨hnodupOne, hleOne⟩ := hheld (List.sublist_append_left onlyOne onlyTwo)
  obtain ⟨hnodupTwo, hleTwo⟩ := hheld (List.sublist_append_right onlyOne onlyTwo)
  exact ⟨getElem?_of_least h.swapped.labels.1 h.plan h.smallest_first hnodupOne (List.mem_append_left _ hx) hwhole hleOne,
    getElem?_of_least h.swapped.labels.2 h.plan h.smallest_second hnodupTwo (List.mem_append_left _ hx) hwhole hleTwo,
    rfl, rfl⟩

/-- The shares of a bucket have in them what either helper has put into it. -/
theorem share_add (hb' : b ∈ p.buckets.toList) :
    let inside (reports : List JoinedReport) := reports.filter (JoinedReport.IsIn F.domain F.domain.bitLength.toNat b)
    ha.share b + hb.share b =
      ⟨((inside joined).map JoinedReport.value).sum + ((inside onlyOne).map JoinedReport.valueOne).sum +
          ((inside onlyTwo).map JoinedReport.valueTwo).sum,
        ((inside joined ++ inside (if leader then onlyOne else onlyTwo)).map fun _ => (1 : Goldilocks)).sum⟩ := by
  intro inside
  obtain ⟨hpos, hle, hlt⟩ := h.plan.inDomain hb'
  rw [h.first.share b hb', h.second.share b hb', ← totalShare_append, h.swapped.totalShare_eq hpos hle hlt, h.last]
  simp only [List.filter_append, List.map_append, List.sum_append]
  rw [add_add_add_comm, sum_contributions, KeyRecord.sum_contribution, KeyRecord.sum_contribution]
  cases leader
  · exact BucketShare.ext (add_assoc _ _ _).symm (congrArg (HAdd.hAdd _) (Goldilocks.zero_add _))
  · exact BucketShare.ext (add_assoc _ _ _).symm (congrArg (HAdd.hAdd _) (Goldilocks.add_zero _))

end HalfJoined

/-! ### The release -/

theorem isIn_last {d : Domain} {b : UInt64} {r : JoinedReport} :
    r.IsIn d d.bitLength.toNat b ↔ d.bucketOf r.aggregationId = b := by
  rw [JoinedReport.IsIn, ancestor_self]

/-- A released bucket with the key of a report in it that both helpers have joined. Its sum and its count have in them what
    either helper has put into the bucket, so of a report that only one has joined that helper's share of the value, and
    one if it is the leader. -/
structure IsBlended (d : Domain) (leader : Bool) (joined onlyOne onlyTwo : List JoinedReport)
    (r : CompleteResult) : Prop where
  key : ∃ x ∈ joined, r.aggregationId = x.aggregationId ∧ r.bucketKey = x.keyOne.xor x.keyTwo
  sum : let inside := JoinedReport.IsIn d d.bitLength.toNat (bucketOfResult d r)
    r.sum = Goldilocks.toInt (((joined.filter inside).map JoinedReport.value).sum +
      ((onlyOne.filter inside).map JoinedReport.valueOne).sum + ((onlyTwo.filter inside).map JoinedReport.valueTwo).sum)
  count : let inside := JoinedReport.IsIn d d.bitLength.toNat (bucketOfResult d r)
    r.count = ((joined.filter inside).length + ((if leader then onlyOne else onlyTwo).filter inside).length) %
      Goldilocks.modulus

/-- Without reports that only one helper has joined, a released bucket is exact. -/
theorem IsBlended.isReleased {d : Domain} {r : CompleteResult} (h : IsBlended d leader joined onlyOne onlyTwo r)
    (hnone : ∀ x ∈ onlyOne ++ onlyTwo, d.bucketOf x.aggregationId ≠ bucketOfResult d r) : IsReleased d joined r := by
  have hempty {reports : List JoinedReport} (hreports : reports ⊆ onlyOne ++ onlyTwo) :
      reports.filter (JoinedReport.IsIn d d.bitLength.toNat (bucketOfResult d r)) = [] := by
    refine List.filter_eq_nil_iff.mpr fun x hx hinside => ?_
    exact hnone x (hreports hx) (isIn_last.mp (of_decide_eq_true hinside))
  have hone := hempty (List.subset_append_left onlyOne onlyTwo)
  have htwo := hempty (List.subset_append_right onlyOne onlyTwo)
  have hother : (if leader then onlyOne else onlyTwo).filter
      (JoinedReport.IsIn d d.bitLength.toNat (bucketOfResult d r)) = [] := by
    cases leader
    · exact htwo
    · exact hone
  have hexact := isExact_of_inside d joined d.bitLength.toNat (bucketOfResult d r)
  refine ⟨h.key, ?_⟩
  rw [h.sum, h.count, hone, htwo, hother, List.map_nil, List.map_nil, List.sum_nil, List.length_nil, add_zero, add_zero,
    add_zero, ← Goldilocks.val_sum_one]
  exact hexact

namespace HalfJoined
variable {p : Plan} {ha hb : PartialHistogram} (h : HalfJoined F leader joined onlyOne onlyTwo p one two ha hb) {b : UInt64}
include h

theorem isLast : Release.IsLast ha hb := h.first.isLast h.second h.last

theorem mem_labelled : b ∈ Release.labelled ha hb ↔
    b ∈ p.buckets.toList ∧ ∃ r ∈ joined ++ (onlyOne ++ onlyTwo), F.domain.bucketOf r.aggregationId = b := by
  rw [Release.mem_labelled, h.mem_labels_first, h.mem_labels_second, ← and_or_left]
  simp only [List.mem_append, or_and_right, exists_or]
  exact and_congr_right' or_or_distrib_left.symm

theorem blended_of_completeResult (hb' : b ∈ p.buckets.toList) {r : CompleteResult}
    (hr : Release.completeResult ha hb b = .ok r) :
    bucketOfResult F.domain r = b ∧ IsBlended F.domain leader joined onlyOne onlyTwo r := by
  obtain ⟨la, lb, hmatched, -, rfl⟩ := Release.completeResult_eq_ok.mp hr
  obtain ⟨x, ⟨hx, rfl, -⟩, rfl, rfl⟩ := h.isLeast_of_matched hmatched
  refine ⟨rfl, ⟨x, hx, rfl, rfl⟩, ?_, ?_⟩
  · rw [Release.releasedSum, h.first.privacy, h.second.privacy, h.share_add hb']
    rfl
  · rw [h.share_add hb', Goldilocks.val_sum_one, List.length_append]
    rfl

theorem exists_completeResult_iff (hlength : ∀ r ∈ joined, r.keyOne.length = r.keyTwo.length) (hb' : b ∈ p.buckets.toList) :
    (∃ r, Release.completeResult ha hb b = .ok r) ↔ ∃ x, IsLeast F.domain joined (onlyOne ++ onlyTwo) b x := by
  constructor
  · rintro ⟨r, hr⟩
    obtain ⟨la, lb, hmatched, -⟩ := Release.completeResult_eq_ok.mp hr
    obtain ⟨x, hx, -⟩ := h.isLeast_of_matched hmatched
    exact ⟨x, hx⟩
  · rintro ⟨x, hx⟩
    exact ⟨_, Release.completeResult_eq_ok.mpr ⟨_, _, h.matched_of_isLeast hb' hx, hlength x hx.mem, rfl⟩⟩

/-- The smallest report of a bucket has been joined by both helpers if it is smaller than any that only one has joined. -/
theorem exists_isLeast (hb' : b ∈ p.buckets.toList)
    (hhidden : ∀ y ∈ onlyOne ++ onlyTwo, F.domain.bucketOf y.aggregationId = b → IsHidden F.domain joined y)
    (hreport : ∃ r ∈ joined ++ (onlyOne ++ onlyTwo), F.domain.bucketOf r.aggregationId = b) :
    ∃ x, IsLeast F.domain joined (onlyOne ++ onlyTwo) b x := by
  have hjoined : ∃ r ∈ joined, F.domain.bucketOf r.aggregationId = b := by
    obtain ⟨r, hr, hbucket⟩ := hreport
    rcases List.mem_append.mp hr with hr | hr
    · exact ⟨r, hr, hbucket⟩
    · obtain ⟨r', hr', hbucket', -⟩ := hhidden r hr hbucket
      exact ⟨r', hr', hbucket'.trans hbucket⟩
  obtain ⟨r, hr, hrbucket⟩ := hjoined
  have hmem := h.mem_labels_first.mpr ⟨hb', r, List.mem_append_left _ hr, hrbucket⟩
  obtain ⟨x, hx, hbucket, -, hle⟩ := report_of_smallest h.swapped.labels.1 h.plan h.smallest_first
    (Std.ExtTreeMap.getElem?_eq_some_getElem hmem)
  -- What is hidden is larger than a joined report, and that is not smaller than `x`.
  have hlt {y : JoinedReport} (hy : y ∈ onlyOne ++ onlyTwo) (hybucket : F.domain.bucketOf y.aggregationId = b) :
      compare x.id y.id = .lt := by
    obtain ⟨r', hr', hbucket', hlt⟩ := hhidden y hy hybucket
    exact Std.TransCmp.lt_of_isLE_of_lt (hle r' (List.mem_append_left _ hr') (hbucket'.trans hybucket)) hlt
  refine ⟨x, ?_, hbucket, fun y hy hybucket => ?_⟩
  · rcases List.mem_append.mp hx with hx | hx
    · exact hx
    · have hself := hlt (List.mem_append_left _ hx) hbucket
      cases Std.ReflCmp.compare_self.symm.trans hself
  · rcases List.mem_append.mp hy with hy | hy
    · exact hle y (List.mem_append_left _ hy) hybucket
    · rw [hlt hy hybucket]
      rfl

theorem exists_complete_iff (hlength : ∀ r ∈ joined, r.keyOne.length = r.keyTwo.length) :
    (∃ results, Release.complete ha hb = .ok results) ↔
      ∀ x ∈ onlyOne ++ onlyTwo, F.domain.bucketOf x.aggregationId ∈ p.buckets.toList → IsHidden F.domain joined x := by
  constructor
  · rintro ⟨results, hresults⟩ x hx hbucket
    have hmem := h.mem_labelled.mpr ⟨hbucket, x, List.mem_append_right _ hx, rfl⟩
    obtain ⟨r, -, hr⟩ := exists_of_mem_forall₂ ((Release.complete_eq_ok h.isLast).mp hresults) hmem
    obtain ⟨z, hz, hzbucket, hle⟩ := (h.exists_completeResult_iff hlength hbucket).mp ⟨r, hr⟩
    refine ⟨z, hz, hzbucket, ?_⟩
    have hzx := hle x (List.mem_append_right _ hx) rfl
    cases hcompare : compare z.id x.id with
    | lt => rfl
    | gt =>
      rw [hcompare] at hzx
      cases hzx
    | eq =>
      have hsame := List.inj_on_of_nodup_map h.nodup (List.mem_append_left _ hz) (List.mem_append_right _ hx)
        (Std.LawfulEqCmp.eq_of_compare hcompare)
      exact absurd (hsame ▸ hz) (h.not_mem_joined hx)
  · intro hhidden
    rw [Release.complete_of_isLast h.isLast]
    obtain ⟨results, hresults, -⟩ := exists_mapM_eq_ok (g := bucketOfResult F.domain) (P := fun _ => True) fun b hb' => by
      obtain ⟨hcovered, hreport⟩ := h.mem_labelled.mp hb'
      have hleast := h.exists_isLeast hcovered (fun y hy hy' => hhidden y hy (hy' ▸ hcovered)) hreport
      obtain ⟨r, hr⟩ := (h.exists_completeResult_iff hlength hcovered).mpr hleast
      exact ⟨r, hr, (h.blended_of_completeResult hcovered hr).1, trivial⟩
    exact ⟨results, hresults⟩

theorem blended_of_complete (hlength : ∀ r ∈ joined, r.keyOne.length = r.keyTwo.length) {results : List CompleteResult}
    (hresults : Release.complete ha hb = .ok results) :
    (∀ bucket, bucket ∈ results.map (bucketOfResult F.domain) ↔
      bucket ∈ p.buckets.toList ∧ ∃ r ∈ joined, F.domain.bucketOf r.aggregationId = bucket) ∧
    ∀ r ∈ results, IsBlended F.domain leader joined onlyOne onlyTwo r := by
  have hhidden := (h.exists_complete_iff hlength).mp ⟨results, hresults⟩
  have hforall := (Release.complete_eq_ok h.isLast).mp hresults
  have hblended {bucket : UInt64} (hbucket : bucket ∈ Release.labelled ha hb) {r : CompleteResult}
      (hr : Release.completeResult ha hb bucket = .ok r) := h.blended_of_completeResult (h.mem_labelled.mp hbucket).1 hr
  refine ⟨fun bucket => ?_, fun r hr => ?_⟩
  · rw [List.mem_map]
    constructor
    · rintro ⟨r, hr, rfl⟩
      obtain ⟨bucket, hbucket, hrun⟩ := exists_of_mem_forall₂ hforall.flip hr
      obtain ⟨hsame, ⟨x, hx, hvalue, -⟩, -, -⟩ := hblended hbucket hrun
      exact ⟨hsame ▸ (h.mem_labelled.mp hbucket).1, x, hx, congrArg F.domain.bucketOf hvalue.symm⟩
    · rintro ⟨hcovered, x, hx, rfl⟩
      have hbucket := h.mem_labelled.mpr ⟨hcovered, x, List.mem_append_left _ hx, rfl⟩
      obtain ⟨r, hr, hrun⟩ := exists_of_mem_forall₂ hforall hbucket
      exact ⟨r, hr, (hblended hbucket hrun).1⟩
  · obtain ⟨bucket, hbucket, hrun⟩ := exists_of_mem_forall₂ hforall.flip hr
    exact (hblended hbucket hrun).2

end HalfJoined

/-! ### Any rounds -/

theorem InStep.halfJoined (hswapped : Swapped F leader (joined ++ onlyOne) (joined ++ onlyTwo) one two)
    (hnodup : ((joined ++ (onlyOne ++ onlyTwo)).map JoinedReport.id).Nodup) {a b a' b' : EvaluationContext}
    (hstep : InStep F (.ofRecords one) (.ofRecords two) a b) {e : Expansion} {ca cb : CombineParams}
    {ha hb : PartialHistogram}
    {tapeA tapeB restA restB : RandomTape} (hfirst : aggregate F e ca .none a tapeA = ((.ok ha, a'), restA))
    (hsecond : aggregate F e cb .none b tapeB = ((.ok hb, b'), restB)) (hlast : ha.bucketBits = ha.bitLength) :
    ∃ p, HalfJoined F leader joined onlyOne onlyTwo p one two ha hb := by
  obtain ⟨⟨_, hone⟩, _, htwo⟩ := hstep.reached
  obtain ⟨p, hplan, hp, hhistogram, hsmallest⟩ := hone.isHistogram hfirst
  obtain ⟨q, hplan', -, hhistogram', hsmallest'⟩ := htwo.isHistogram hsecond
  have hpaired := hstep.paired (paired_ofRecords hswapped.checkKey.1 hswapped.checkKey.2)
  rw [← hpaired.previous] at hplan'
  cases hplan.symm.trans hplan'
  refine ⟨p, hswapped, hnodup, hp, ?_, hhistogram, hhistogram', hsmallest, hsmallest'⟩
  rw [← hhistogram.bucketBits, hlast, hhistogram.bitLength]

/-- Each helper has made the keys of the reports that both have joined, and of some that the other has not. After any rounds
    that both accept, the release of the last level is accepted exactly if each of the latter is hidden by a smaller
    report of its bucket that both have joined. What is released are the buckets of the reports that both have joined,
    with all that either helper has put into them; so only those without hidden reports are exact. -/
theorem complete_of_swapped (hswapped : Swapped F leader (joined ++ onlyOne) (joined ++ onlyTwo) one two)
    (hnodup : ((joined ++ (onlyOne ++ onlyTwo)).map JoinedReport.id).Nodup)
    (hlength : ∀ r ∈ joined, r.keyOne.length = r.keyTwo.length) {a b a' b' : EvaluationContext}
    (hstep : InStep F (.ofRecords one) (.ofRecords two) a b) {e : Expansion} {ca cb : CombineParams}
    {ha hb : PartialHistogram}
    {tapeA tapeB restA restB : RandomTape} (hfirst : aggregate F e ca .none a tapeA = ((.ok ha, a'), restA))
    (hsecond : aggregate F e cb .none b tapeB = ((.ok hb, b'), restB)) (hlast : ha.bucketBits = ha.bitLength) :
    ((∃ results, Release.complete ha hb = .ok results) ↔
      ∀ x ∈ onlyOne ++ onlyTwo, F.domain.bucketOf x.aggregationId ∈ ha.buckets → IsHidden F.domain joined x) ∧
    ∀ results, Release.complete ha hb = .ok results →
      (∀ bucket, bucket ∈ results.map (bucketOfResult F.domain) ↔
        bucket ∈ ha.buckets ∧ ∃ r ∈ joined, F.domain.bucketOf r.aggregationId = bucket) ∧
      ∀ r ∈ results, IsBlended F.domain leader joined onlyOne onlyTwo r ∧
        ((∀ x ∈ onlyOne ++ onlyTwo, F.domain.bucketOf x.aggregationId ≠ bucketOfResult F.domain r) →
          IsReleased F.domain joined r) := by
  obtain ⟨p, h⟩ := hstep.halfJoined hswapped hnodup hfirst hsecond hlast
  simp only [h.first.mem]
  refine ⟨h.exists_complete_iff hlength, fun results hresults => ?_⟩
  obtain ⟨hbuckets, hblended⟩ := h.blended_of_complete hlength hresults
  exact ⟨hbuckets, fun r hr => ⟨hblended r hr, (hblended r hr).isReleased⟩⟩

/-- A report of the same bucket key as `reportSeven`, with a larger identifier. -/
def reportNine : JoinedReport := ⟨⟨Octets.ofNatLittle 16 1⟩, Octets.zero 32, .ofNat 4, .ofNat 5, [3], [4]⟩

theorem reportNine_isHidden : ∀ x ∈ [reportNine] ++ [], IsHidden .oneThree [reportSeven] x := by
  intro x hx
  obtain rfl : x = reportNine := List.mem_singleton.mp hx
  exact ⟨reportSeven, List.mem_cons_self, rfl, by decide +kernel⟩

theorem exists_rounds_nine :
    let F : PointFunction BucketShare := ⟨.oneThree, .standard BucketShare⟩
    let e : Expansion := ⟨[1], [[]], none⟩
    let tape : RandomTape := ⟨fun _ => 0, 0, none⟩
    ∃ one two ha hb a b, Swapped F true ([reportSeven] ++ [reportNine]) ([reportSeven] ++ []) one two ∧
      aggregate F e .default .none (.ofRecords one) tape = ((.ok ha, a), tape) ∧
      aggregate F e .default .none (.ofRecords two) tape = ((.ok hb, b), tape) ∧ ha.bucketBits = ha.bitLength ∧
      ∀ bucket, bucket ∈ ha.buckets ↔ bucket ∈ [0, 1, 2, 3, 4, 5, 6, 7] := by
  intro F e tape
  obtain ⟨one, two, hswapped⟩ := exists_swapped F true ([reportSeven] ++ [reportNine]) ([reportSeven] ++ [])
  have hplan : e.plan F.domain.hierarchy none = .ok ⟨1, 0, #[0], 3⟩ := rfl
  have hvalidate : CombineParams.default.validate = .ok () := rfl
  have hpaired := paired_ofRecords hswapped.checkKey.1 hswapped.checkKey.2
  have hagree {reports : List JoinedReport} {keyShare : JoinedReport → Bytes} {held : List BucketLabel}
      (hheld : held.Perm (reports.map (JoinedReport.label F.domain keyShare)))
      (hvalue : ∀ r ∈ reports, r.aggregationId = Octets.zero 32) : Labels.Agree (planLabels F ⟨1, 0, #[0], 3⟩ held) :=
    agree_of_reports hheld (fun r hr r' hr' _ => (hvalue r hr).trans (hvalue r' hr').symm) _
  obtain ⟨ha, labelsA, cachesA, hfirst, hhistogram, -⟩ := aggregate_of_agree hpaired.first
    ((planRound_eq_ok hpaired.first).mpr ⟨hvalidate, hplan⟩) (hagree hswapped.labels.1 (by decide)) tape
  obtain ⟨hb, labelsB, cachesB, hsecond, -, -⟩ := aggregate_of_agree hpaired.second
    ((planRound_eq_ok hpaired.second).mpr ⟨hvalidate, hplan⟩) (hagree hswapped.labels.2 (by decide)) tape
  refine ⟨one, two, ha, hb, _, _, hswapped, hfirst, hsecond, ?_, hhistogram.mem⟩
  rw [hhistogram.bucketBits, hhistogram.bitLength]
  rfl

/-- The report that only the first helper has joined is hidden by the other, so the release is accepted. -/
theorem complete_of_swapped_nine :
    let F : PointFunction BucketShare := ⟨.oneThree, .standard BucketShare⟩
    let e : Expansion := ⟨[1], [[]], none⟩
    let tape : RandomTape := ⟨fun _ => 0, 0, none⟩
    ∃ one two ha hb a b, Swapped F true ([reportSeven] ++ [reportNine]) ([reportSeven] ++ []) one two ∧
      aggregate F e .default .none (.ofRecords one) tape = ((.ok ha, a), tape) ∧
      aggregate F e .default .none (.ofRecords two) tape = ((.ok hb, b), tape) ∧
      ∃ results, Release.complete ha hb = .ok results := by
  intro F e tape
  obtain ⟨one, two, ha, hb, a, b, hswapped, hfirst, hsecond, hlast, -⟩ := exists_rounds_nine
  have haccepted := (complete_of_swapped hswapped (by decide) (by decide) .start hfirst hsecond hlast).1
  exact ⟨one, two, ha, hb, a, b, hswapped, hfirst, hsecond, haccepted.mpr fun x hx _ => reportNine_isHidden x hx⟩

/-- The released bucket has in it the share 4 of the value 9 of the report that only the first helper has joined, and counts
    that report: it should have the sum 7 of one report. -/
theorem hidden_report_released :
    let F : PointFunction BucketShare := ⟨.oneThree, .standard BucketShare⟩
    let e : Expansion := ⟨[1], [[]], none⟩
    let tape : RandomTape := ⟨fun _ => 0, 0, none⟩
    ∃ one two ha hb a b, Swapped F true ([reportSeven] ++ [reportNine]) ([reportSeven] ++ []) one two ∧
      aggregate F e .default .none (.ofRecords one) tape = ((.ok ha, a), tape) ∧
      aggregate F e .default .none (.ofRecords two) tape = ((.ok hb, b), tape) ∧ ha.bucketBits = ha.bitLength ∧
      ∃ results, Release.complete ha hb = .ok results ∧
        ∃ r ∈ results, bucketOfResult F.domain r = F.domain.bucketOf reportNine.aggregationId ∧
          r.sum = 11 ∧ r.count = 2 := by
  intro F e tape
  obtain ⟨one, two, ha, hb, a, b, hswapped, hfirst, hsecond, hlast, hbuckets⟩ := exists_rounds_nine
  obtain ⟨p, h⟩ := InStep.start.halfJoined hswapped (by decide) hfirst hsecond hlast
  have hlength : ∀ r ∈ [reportSeven], r.keyOne.length = r.keyTwo.length := by decide
  obtain ⟨results, hresults⟩ := (h.exists_complete_iff hlength).mpr fun x hx _ => reportNine_isHidden x hx
  obtain ⟨hmem, hblended⟩ := h.blended_of_complete hlength hresults
  have hcovered : F.domain.bucketOf reportNine.aggregationId ∈ p.buckets.toList :=
    (h.first.mem _).mp ((hbuckets _).mpr (by decide))
  obtain ⟨r, hr, hbucket⟩ := List.mem_map.mp ((hmem _).mpr ⟨hcovered, reportSeven, List.mem_cons_self, rfl⟩)
  have hsum := (hblended r hr).sum
  have hcount := (hblended r hr).count
  rw [hbucket] at hsum hcount
  exact ⟨one, two, ha, hb, a, b, hswapped, hfirst, hsecond, hlast, results, hresults, r, hr, hbucket,
    hsum.trans (by decide), hcount.trans (by decide)⟩

end PrivateHistogram.Aggregation
