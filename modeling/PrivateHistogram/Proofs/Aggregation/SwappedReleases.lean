import PrivateHistogram.Proofs.Aggregation.ExactReleases
import PrivateHistogram.Proofs.Sharing

/-! Which helper is named first in a release. A level in between does not tell, and the last level is released in both
    orders or in neither, with the same bucket keys and the same numbers of reports. But where both helpers have put noise
    on the sums, these are brought under the bound of the helper that is named first, so they may differ
    (`Release.results_of_swap`). -/

namespace PrivateHistogram.Release

variable {a b : PartialHistogram} {bucket : UInt64}

/-! ### One bucket -/

theorem share_swap (a b : PartialHistogram) (bucket : UInt64) :
    b.share bucket + a.share bucket = a.share bucket + b.share bucket :=
  LawfulPayload.add_comm _ _

theorem bucketResult_swap (a b : PartialHistogram) (bucket : UInt64) :
    bucketResult b a bucket = bucketResult a b bucket := by
  rw [bucketResult, bucketResult, share_swap a b]

theorem Matched.swap {la lb : BucketLabel} (h : Matched a b bucket la lb) : Matched b a bucket lb la :=
  ⟨h.second, h.first, h.reportId.symm, h.aggregationId.symm⟩

/-- Only the sum depends on the order. -/
theorem completeResult_swap {r : CompleteResult} (h : completeResult a b bucket = .ok r) :
    completeResult b a bucket = .ok { r with sum := releasedSum b a bucket } := by
  obtain ⟨la, lb, hmatched, hlength, rfl⟩ := completeResult_eq_ok.mp h
  refine completeResult_eq_ok.mpr ⟨lb, la, hmatched.swap, hlength.symm, ?_⟩
  rw [Bytes.xor_comm lb.keyShare, share_swap a b, hmatched.aggregationId]

/-! ### Bounds -/

/-- The most that so many reports can add up to where a report contributes at most `p.sensitivity`. -/
def bound (p : PrivacyParams) (count : ℕ) : ℤ := (count * p.sensitivity.toNat : ℕ)

/-- The bounds of the helpers make no difference to the sum of a bucket: they are one, or the sum is under both. -/
def BoundAlike (a b : PartialHistogram) (bucket : UInt64) : Prop :=
  ∀ p q, a.privacy = some p → b.privacy = some q →
    let total := a.share bucket + b.share bucket
    bound p total.count.val = bound q total.count.val ∨
      total.sum.toInt ≤ bound p total.count.val ∧ total.sum.toInt ≤ bound q total.count.val

theorem clip_eq_clip_iff (p q : PrivacyParams) (total : BucketShare) :
    clip p.sensitivity total.count.val total.sum.toInt = clip q.sensitivity total.count.val total.sum.toInt ↔
      bound p total.count.val = bound q total.count.val ∨
        total.sum.toInt ≤ bound p total.count.val ∧ total.sum.toInt ≤ bound q total.count.val := by
  have hword : total.sum.toInt ≤ 0x7fffffffffffffff :=
    (le_abs_self _).trans (total.sum.abs_toInt_le.trans (by decide))
  have hp : 0 ≤ bound p total.count.val := Int.natCast_nonneg _
  have hq : 0 ≤ bound q total.count.val := Int.natCast_nonneg _
  change max 0 (min _ (min _ (bound p _))) = max 0 (min _ (min _ (bound q _))) ↔ _
  omega

theorem releasedSum_swap_iff : releasedSum b a bucket = releasedSum a b bucket ↔ BoundAlike a b bucket := by
  rw [releasedSum, releasedSum, share_swap a b, BoundAlike]
  cases ha : a.privacy with
  | none =>
    rw [Option.none_or, Option.or_none]
    refine iff_of_true rfl ?_
    rintro p q ⟨⟩
  | some p =>
    cases hb : b.privacy with
    | none =>
      refine iff_of_true rfl ?_
      rintro p q - ⟨⟩
    | some q =>
      refine eq_comm.trans ((clip_eq_clip_iff p q _).trans ⟨?_, fun h => h p q rfl rfl⟩)
      rintro h _ _ ⟨⟩ ⟨⟩
      exact h

/-- With noise in the histogram that is named first, a sum is under the bound of that noise. -/
theorem sum_le_bound {p : PrivacyParams} (hp : a.privacy = some p) {r : CompleteResult}
    (h : completeResult a b bucket = .ok r) : 0 ≤ r.sum ∧ r.sum ≤ bound p r.count := by
  obtain ⟨la, lb, -, -, rfl⟩ := completeResult_eq_ok.mp h
  rw [releasedSum, hp]
  have hbound : 0 ≤ bound p (a.share bucket + b.share bucket).count.val := Int.natCast_nonneg _
  exact ⟨le_max_left _ _, max_le hbound ((min_le_right _ _).trans (min_le_right _ _))⟩

/-! ### All buckets -/

theorem labelled_swap (a b : PartialHistogram) : labelled b a = labelled a b := increasing_append_comm _ _

theorem checkCompatible_swap (h : a.checkCompatible b = .ok ()) : b.checkCompatible a = .ok () := by
  obtain ⟨hbits, hlength⟩ := checkCompatible_eq_ok.mp h
  exact checkCompatible_eq_ok.mpr ⟨hbits.symm, hlength.symm⟩

theorem IsLast.swap (h : IsLast a b) : IsLast b a :=
  ⟨h.bucketBits.symm, h.bitLength.symm, h.bucketBits.symm.trans (h.last.trans h.bitLength)⟩

/-- The results for some buckets with the sums of the other order. -/
def resum (a b : PartialHistogram) (buckets : List UInt64) (results : List CompleteResult) : List CompleteResult :=
  buckets.zipWith (fun bucket r => { r with sum := releasedSum b a bucket }) results

theorem complete_swap {results : List CompleteResult} (h : complete a b = .ok results) :
    complete b a = .ok (resum a b (labelled a b) results) := by
  have hlast := isLast_of_complete h
  rw [complete_of_isLast hlast] at h
  rw [complete_of_isLast hlast.swap, labelled_swap a b]
  have hresult : ∀ bucket ∈ labelled a b, completeResult b a bucket =
      (completeResult a b bucket).map fun r => { r with sum := releasedSum b a bucket } := fun bucket hbucket => by
    obtain ⟨r, hr⟩ := exists_mapM_iff.mp ⟨results, h⟩ bucket hbucket
    rw [completeResult_swap hr, hr]
    rfl
  rw [mapM_congr hresult, mapM_map_eq, h]
  rfl

theorem intermediate_swap {results : List BucketResult} (h : intermediate a b = .ok results) :
    intermediate b a = .ok results := by
  obtain ⟨⟨⟩, hcompatible, hresults⟩ := bind_eq_ok.mp h
  rw [intermediate, checkCompatible_swap hcompatible, increasing_append_comm, funext (bucketResult_swap a b)]
  exact hresults

/-- Results that differ at most in their sums. -/
def SameButSum (r r' : CompleteResult) : Prop :=
  r'.bucketKey = r.bucketKey ∧ r'.aggregationId = r.aggregationId ∧ r'.count = r.count

theorem sameButSum_resum {buckets : List UInt64} {results : List CompleteResult}
    (h : List.Forall₂ (fun bucket r => completeResult a b bucket = .ok r) buckets results) :
    List.Forall₂ SameButSum results (resum a b buckets results) := by
  induction h with
  | nil => exact .nil
  | cons _ _ ih => exact .cons ⟨rfl, rfl, rfl⟩ ih

theorem resum_eq_iff {buckets : List UInt64} {results : List CompleteResult}
    (h : List.Forall₂ (fun bucket r => completeResult a b bucket = .ok r) buckets results) :
    resum a b buckets results = results ↔ ∀ bucket ∈ buckets, BoundAlike a b bucket := by
  induction h with
  | nil => exact iff_of_true rfl fun bucket hbucket => nomatch hbucket
  | @cons bucket r buckets results hr _ ih =>
    obtain ⟨la, lb, -, -, rfl⟩ := completeResult_eq_ok.mp hr
    rw [resum, List.zipWith_cons_cons, ← resum, List.cons.injEq, List.forall_mem_cons, ih, ← releasedSum_swap_iff,
      CompleteResult.mk.injEq]
    simp

/-- A level in between is the same whichever helper is named first. The last level is released in both orders or in neither,
    with the same buckets, bucket keys and numbers of reports. The sums are under the bound of the helper that is named
    first, if there is noise in its histogram, so the release is the same exactly if no sum tells the bounds of the
    helpers apart: where only one of them has one, or they are the same, or no sum exceeds any of the two. -/
theorem results_of_swap (a b : PartialHistogram) :
    (∀ results, intermediate a b = .ok results → intermediate b a = .ok results) ∧
    ∀ results, complete a b = .ok results → ∃ swapped, complete b a = .ok swapped ∧
      List.Forall₂ SameButSum results swapped ∧
      (∀ p, a.privacy = some p → ∀ r ∈ results, 0 ≤ r.sum ∧ r.sum ≤ bound p r.count) ∧
      (swapped = results ↔ ∀ bucket ∈ a.labels, BoundAlike a b bucket) := by
  refine ⟨fun results => intermediate_swap, fun results h => ?_⟩
  have hresults := (complete_eq_ok (isLast_of_complete h)).mp h
  refine ⟨resum a b (labelled a b) results, complete_swap h, sameButSum_resum hresults, fun p hp r hr => ?_, ?_⟩
  · obtain ⟨bucket, -, hbucket⟩ := exists_of_mem_forall₂ hresults.flip hr
    exact sum_le_bound hp hbucket
  · rw [resum_eq_iff hresults]
    refine forall_congr' fun bucket => imp_congr_left ?_
    rw [mem_labelled, ← (releasable_of_complete h).labels, or_self]

theorem results_of_swap_two :
    let label (id : UInt64) (share : UInt8) : BucketLabel := ⟨id, Octets.zero 32, ⟨Octets.zero 16⟩, [share]⟩
    let histogram (sensitivity : UInt64) (buckets : List (UInt64 × BucketShare)) (labels : List (UInt64 × BucketLabel)) :
        PartialHistogram := ⟨2, 2, .ofList buckets, .ofList labels, [0], some ⟨1.0, sensitivity⟩⟩
    let a := histogram 2 [(1, ⟨.ofNat 9, 1⟩), (2, ⟨.ofNat 4, .ofNat 2⟩)] [(1, label 1 3), (2, label 2 5)]
    let b := histogram 3 [(2, ⟨.ofNat 1, 1⟩), (3, 0)] [(1, label 1 7), (2, label 2 8)]
    ∃ results swapped, complete a b = .ok results ∧ complete b a = .ok swapped ∧ List.Forall₂ SameButSum results swapped ∧
      (∀ r ∈ results, 0 ≤ r.sum ∧ r.sum ≤ bound ⟨1.0, 2⟩ r.count) ∧
      (swapped = results ↔ ∀ bucket ∈ a.labels, BoundAlike a b bucket) := by
  intro label histogram a b
  have hlabelled : labelled a b = [1, 2] := by cbv
  have hresults : complete a b = .ok [⟨[4], Octets.zero 32, 2, 1⟩, ⟨[13], Octets.zero 32, 5, 3⟩] := by
    rw [complete_of_isLast (show IsLast a b from ⟨rfl, rfl, rfl⟩), hlabelled]
    decide +kernel
  obtain ⟨swapped, hswapped, hsame, hbound, hiff⟩ := (results_of_swap a b).2 _ hresults
  exact ⟨_, swapped, hresults, hswapped, hsame, hbound _ rfl, hiff⟩

/-- Two histograms of one bucket with the sum 5 of one report, one of them with noise for contributions of at most 1, the
    other for at most 2: the sum that is released is 1 or 2, by the order in which they are named. -/
theorem bounds_told_apart :
    let label (share : UInt8) : BucketLabel := ⟨1, Octets.zero 32, ⟨Octets.zero 16⟩, [share]⟩
    let histogram (sensitivity : UInt64) (share : BucketShare) (label : BucketLabel) : PartialHistogram :=
      ⟨8, 8, .insert ∅ 1 share, .insert ∅ 1 label, [0], some ⟨1.0, sensitivity⟩⟩
    let a := histogram 1 ⟨.ofNat 3, 1⟩ (label 1)
    let b := histogram 2 ⟨.ofNat 2, 0⟩ (label 2)
    complete a b = .ok [⟨[3], Octets.zero 32, 1, 1⟩] ∧ complete b a = .ok [⟨[3], Octets.zero 32, 2, 1⟩] ∧
      complete b a ≠ complete a b := by
  intro label histogram a b
  have hlabelled : labelled a b = [1] := by cbv
  have hlast : IsLast a b := ⟨rfl, rfl, rfl⟩
  have hfirst : complete a b = .ok [⟨[3], Octets.zero 32, 1, 1⟩] := by
    rw [complete_of_isLast hlast, hlabelled]
    decide +kernel
  have hsecond : complete b a = .ok [⟨[3], Octets.zero 32, 2, 1⟩] := by
    rw [complete_of_isLast hlast.swap, labelled_swap a b, hlabelled]
    decide +kernel
  refine ⟨hfirst, hsecond, ?_⟩
  rw [hfirst, hsecond]
  decide

end PrivateHistogram.Release
