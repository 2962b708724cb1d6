import PrivateHistogram.Release
import PrivateHistogram.Proofs.Draws
import PrivateHistogram.Proofs.Increasing

/-! What the release makes of any two histograms. A bucket is released if both helpers have labelled it with one report
    (`Release.completeResult_of_matched`), and only then (`Release.completeResult_of_not_matched`); the last level is
    released bucket by bucket (`Release.complete_eq_ok`, `Release.complete_eq_error`). -/

namespace PrivateHistogram

namespace Release

open Aggregation (Error)

variable {a b : PartialHistogram} {bucket : UInt64} {la lb : BucketLabel}

/-! ### One bucket -/

/-- Both helpers have labelled a bucket, and with one report. -/
structure Matched (a b : PartialHistogram) (bucket : UInt64) (la lb : BucketLabel) : Prop where
  first : a.labels[bucket]? = some la
  second : b.labels[bucket]? = some lb
  reportId : la.reportId = lb.reportId
  aggregationId : la.aggregationId = lb.aggregationId

/-- The sum of a released bucket. -/
def releasedSum (a b : PartialHistogram) (bucket : UInt64) : Int :=
  let total := a.share bucket + b.share bucket
  match a.privacy.or b.privacy with
  | some p => clip p.sensitivity total.count.val total.sum.toInt
  | none => total.sum.toInt

theorem completeResult_of_matched (h : Matched a b bucket la lb) :
    completeResult a b bucket = ((SecretSharing.combineBytes la.keyShare lb.keyShare).mapError Error.secretShare).map
      fun bucketKey => { bucketKey, aggregationId := la.aggregationId, sum := releasedSum a b bucket,
                         count := (a.share bucket + b.share bucket).count.val } := by
  have hsame : ¬(la.reportId ≠ lb.reportId ∨ la.aggregationId ≠ lb.aggregationId) :=
    not_or.mpr ⟨not_not_intro h.reportId, not_not_intro h.aggregationId⟩
  simp only [completeResult, h.first, h.second, if_neg hsame]
  cases SecretSharing.combineBytes la.keyShare lb.keyShare <;> rfl

/-- A bucket with labels of one report is refused only if the shares of its key are of different lengths. -/
theorem secretShare_of_matched (h : Matched a b bucket la lb) {e : Error} (hrun : completeResult a b bucket = .error e) :
    ∃ cause, e = .secretShare cause := by
  rw [completeResult_of_matched h] at hrun
  cases hcombine : SecretSharing.combineBytes la.keyShare lb.keyShare with
  | error cause =>
    rw [hcombine] at hrun
    exact ⟨cause, (Except.error.inj hrun).symm⟩
  | ok key =>
    rw [hcombine] at hrun
    cases hrun

theorem completeResult_of_not_matched (h : ∀ la lb, ¬Matched a b bucket la lb) :
    completeResult a b bucket = .error (.missingLabel bucket) ∨
    completeResult a b bucket = .error (.labelMismatch bucket) := by
  rw [completeResult]
  cases hla : a.labels[bucket]? with
  | none => exact .inl rfl
  | some la =>
    cases hlb : b.labels[bucket]? with
    | none => exact .inl rfl
    | some lb =>
      have hother : la.reportId ≠ lb.reportId ∨ la.aggregationId ≠ lb.aggregationId := by
        by_contra hsame
        obtain ⟨hid, hagg⟩ := not_or.mp hsame
        exact h la lb ⟨hla, hlb, not_not.mp hid, not_not.mp hagg⟩
      exact .inr (by simp only [if_pos hother]; rfl)

theorem completeResult_eq_ok {r : CompleteResult} :
    completeResult a b bucket = .ok r ↔ ∃ la lb, Matched a b bucket la lb ∧ la.keyShare.length = lb.keyShare.length ∧
      r = { bucketKey := la.keyShare.xor lb.keyShare, aggregationId := la.aggregationId, sum := releasedSum a b bucket,
            count := (a.share bucket + b.share bucket).count.val } := by
  by_cases hmatched : ∃ la lb, Matched a b bucket la lb
  · obtain ⟨la, lb, hmatched⟩ := hmatched
    have hlabels {la' lb' : BucketLabel} (h : Matched a b bucket la' lb') : la' = la ∧ lb' = lb :=
      ⟨Option.some.inj (h.first.symm.trans hmatched.first), Option.some.inj (h.second.symm.trans hmatched.second)⟩
    rw [completeResult_of_matched hmatched, SecretSharing.combineBytes]
    by_cases hlength : la.keyShare.length = lb.keyShare.length
    · rw [if_pos hlength]
      constructor
      · intro h
        exact ⟨la, lb, hmatched, hlength, (Except.ok.inj h).symm⟩
      · rintro ⟨la', lb', hmatched', -, rfl⟩
        obtain ⟨rfl, rfl⟩ := hlabels hmatched'
        rfl
    · rw [if_neg hlength]
      constructor
      · intro h
        cases h
      · rintro ⟨la', lb', hmatched', hlength', -⟩
        obtain ⟨rfl, rfl⟩ := hlabels hmatched'
        exact absurd hlength' hlength
  · have hnone : ∀ la lb, ¬Matched a b bucket la lb := fun la lb h => hmatched ⟨la, lb, h⟩
    constructor
    · intro h
      rcases completeResult_of_not_matched hnone with herror | herror <;> cases h.symm.trans herror
    · rintro ⟨la, lb, h, -⟩
      exact absurd h (hnone la lb)

theorem count_of_completeResult {r : CompleteResult} (h : completeResult a b bucket = .ok r) :
    r.count = (bucketResult a b bucket).count := by
  obtain ⟨la, lb, -, -, rfl⟩ := completeResult_eq_ok.mp h
  rfl

/-! ### All buckets -/

theorem checkCompatible_eq_ok :
    a.checkCompatible b = .ok () ↔ a.bucketBits = b.bucketBits ∧ a.bitLength = b.bitLength := by
  rw [PartialHistogram.checkCompatible]
  split
  · rename_i hdiffer
    exact ⟨nofun, fun ⟨hbits, hlength⟩ => absurd hdiffer (not_or.mpr ⟨not_not_intro hbits, not_not_intro hlength⟩)⟩
  · rename_i hsame
    obtain ⟨hbits, hlength⟩ := not_or.mp hsame
    exact ⟨fun _ => ⟨not_not.mp hbits, not_not.mp hlength⟩, fun _ => rfl⟩

/-- The buckets that one of the helpers has labelled, in order. -/
abbrev labelled (a b : PartialHistogram) : List UInt64 := increasing (a.labels.keys ++ b.labels.keys)

theorem mem_labelled : bucket ∈ labelled a b ↔ bucket ∈ a.labels ∨ bucket ∈ b.labels := by
  rw [mem_increasing, List.mem_append, Std.ExtTreeMap.mem_keys, Std.ExtTreeMap.mem_keys]

/-- Two histograms of the last level that fit together. -/
structure IsLast (a b : PartialHistogram) : Prop where
  bucketBits : a.bucketBits = b.bucketBits
  bitLength : a.bitLength = b.bitLength
  last : a.bucketBits = a.bitLength

theorem complete_of_isLast (h : IsLast a b) : complete a b = (labelled a b).mapM (completeResult a b) := by
  rw [complete, checkCompatible_eq_ok.mpr ⟨h.bucketBits, h.bitLength⟩]
  simp only [if_neg (not_not_intro h.last)]
  rfl

theorem isLast_of_complete {results : List CompleteResult} (h : complete a b = .ok results) : IsLast a b := by
  obtain ⟨⟨⟩, hcompatible, hlast⟩ := bind_eq_ok.mp h
  obtain ⟨hbits, hlength⟩ := checkCompatible_eq_ok.mp hcompatible
  refine ⟨hbits, hlength, ?_⟩
  by_contra hne
  simp only [ne_eq, hne, not_false_eq_true, if_true] at hlast
  cases hlast

theorem complete_eq_ok {results : List CompleteResult} (h : IsLast a b) :
    complete a b = .ok results ↔
      List.Forall₂ (fun bucket r => completeResult a b bucket = .ok r) (labelled a b) results := by
  rw [complete_of_isLast h]
  exact ⟨forall₂_of_mapM, mapM_eq_ok⟩

theorem complete_eq_error {e : Error} (h : IsLast a b) (hrun : complete a b = .error e) :
    ∃ bucket ∈ labelled a b, completeResult a b bucket = .error e := by
  rw [complete_of_isLast h] at hrun
  exact exists_of_mapM_error hrun

end Release

end PrivateHistogram
