import PrivateHistogram.Proofs.Aggregation.Merges
import PrivateHistogram.Proofs.Goldilocks
import PrivateHistogram.Proofs.Words

/-! Exactly when the last level of two histograms is released, and what is released then, whatever the two histograms are
    (`Release.complete_iff`). Sums are computed in words of 64 bits. No step of that leaves the words, and what comes out is
    what the integers give (`Release.releasedWord_eq`). -/

namespace PrivateHistogram

/-! ### Elements as signed numbers -/

namespace Goldilocks

theorem toInt_modEq (a : Goldilocks) : a.toInt ≡ a.val [ZMOD modulus] := by
  rw [toInt]
  split
  · exact Int.sub_modulus_modEq_iff.mpr rfl
  · exact Int.ModEq.refl _

theorem abs_toInt_le (a : Goldilocks) : |a.toInt| ≤ (modulus - 1) / 2 := by
  have hlt := a.isLt
  have hmodulus : modulus = 18446744069414584321 := rfl
  rw [abs_le, toInt, hmodulus]
  split <;> omega

/-- The word that stands for an element. -/
def word (a : Goldilocks) : UInt64 := .ofNat a.val

/-- An element as a signed word, from the word that stands for it. -/
def wordToSigned? (a : UInt64) : Option Int64 :=
  if 0xffffffff00000001 / 2 < a then do
    let magnitude ← sub? 0xffffffff00000001 a
    Word.negate? magnitude.toInt64
  else some a.toInt64

theorem toNat_word (a : Goldilocks) : a.word.toNat = a.val :=
  UInt64.toNat_ofNat_of_lt' (Nat.lt_trans a.isLt (by decide))

theorem wordToSigned_eq (a : Goldilocks) : ∃ w, wordToSigned? a.word = some w ∧ w.toInt = a.toInt := by
  have hlt := a.isLt
  have hword := a.toNat_word
  have hhalf : (0xffffffff00000001 / 2 : UInt64) < a.word ↔ modulus / 2 < a.val := by
    rw [UInt64.lt_iff_toNat_lt, hword]
    rfl
  have hmodulus : modulus = 18446744069414584321 := rfl
  rw [wordToSigned?, toInt]
  by_cases h : modulus / 2 < a.val
  · obtain ⟨magnitude, hsub, hmagnitude⟩ := Word.exists_sub (a := 0xffffffff00000001) (b := a.word) (hword.trans_le hlt.le)
    have hvalue : magnitude.toNat = modulus - a.val := by rw [hmagnitude, hword]; rfl
    have hsigned : magnitude.toInt64.toInt = magnitude.toNat := Word.toInt_toInt64 (by omega)
    obtain ⟨w, hnegate, hw⟩ := Word.negate_eq (a := magnitude.toInt64) (by omega)
    rw [if_pos (hhalf.mpr h), if_pos h, hsub]
    exact ⟨w, hnegate, by omega⟩
  · rw [if_neg (mt hhalf.mp h), if_neg h]
    exact ⟨_, rfl, by rw [Word.toInt_toInt64 (by omega), hword]⟩

end Goldilocks

namespace Release

variable {a b : PartialHistogram} {bucket : UInt64}

/-! ### Sums in words -/

/-- The sum of a released bucket from the words that stand for its number of reports and its sum. -/
def releasedWord? (privacy : Option PrivacyParams) (count sum : UInt64) : Option Int64 := do
  let total ← Goldilocks.wordToSigned? sum
  match privacy with
  | none => some total
  | some p => Word.clamp? total 0 (Word.toSigned (Word.saturatingMul count p.sensitivity))

theorem releasedWord_eq (a b : PartialHistogram) (bucket : UInt64) :
    let total := a.share bucket + b.share bucket
    ∃ w, releasedWord? (a.privacy.or b.privacy) total.count.word total.sum.word = some w ∧
      w.toInt = releasedSum a b bucket := by
  intro total
  obtain ⟨signed, hsigned, hvalue⟩ := total.sum.wordToSigned_eq
  rw [releasedWord?, hsigned, releasedSum]
  cases a.privacy.or b.privacy with
  | none => exact ⟨signed, rfl, hvalue⟩
  | some p =>
    have hbound : (Word.toSigned (Word.saturatingMul total.count.word p.sensitivity)).toInt =
        min 0x7fffffffffffffff ((total.count.val * p.sensitivity.toNat : ℕ) : ℤ) := by
      rw [Word.toInt_toSigned, Word.toNat_saturatingMul, total.count.toNat_word]
      omega
    have hpos : (0 : Int64).toInt ≤ (Word.toSigned (Word.saturatingMul total.count.word p.sensitivity)).toInt := by
      rw [hbound]
      exact le_min (by decide) (Int.natCast_nonneg _)
    obtain ⟨w, hclamp, hw⟩ := Word.clamp_eq signed hpos
    refine ⟨w, hclamp, ?_⟩
    rw [hw, hvalue, hbound]
    rfl

/-! ### Releases -/

/-- Two histograms of which each labelled bucket can be released. -/
structure Releasable (a b : PartialHistogram) : Prop where
  bucketBits : a.bucketBits = b.bucketBits
  bitLength : a.bitLength = b.bitLength
  last : a.bucketBits = a.bitLength ∧ b.bucketBits = b.bitLength
  labels : ∀ bucket, bucket ∈ a.labels ↔ bucket ∈ b.labels
  same : ∀ (bucket : UInt64) (la lb : BucketLabel), a.labels[bucket]? = some la → b.labels[bucket]? = some lb →
    la.reportId = lb.reportId ∧ la.aggregationId = lb.aggregationId ∧ la.keyShare.length = lb.keyShare.length

/-- One of the histograms has noise in it, and every one that has is for contributions of at most `s`. -/
def Carries (a b : PartialHistogram) (s : UInt64) : Prop :=
  (∃ p, a.privacy = some p ∨ b.privacy = some p) ∧ ∀ p, a.privacy = some p ∨ b.privacy = some p → p.sensitivity = s

/-- What is released of a labelled bucket. -/
structure IsExactResult (a b : PartialHistogram) (bucket : UInt64) (r : CompleteResult) : Prop where
  key : ∃ la lb, Matched a b bucket la lb ∧ r.aggregationId = la.aggregationId ∧
    r.bucketKey = List.zipWith (· ^^^ ·) la.keyShare lb.keyShare
  count : r.count = ((a.share bucket).count.val + (b.share bucket).count.val) % Goldilocks.modulus
  /-- The sum is the number nearest to zero that stands for the sum of the shares. With noise it is brought into the range
      that so many reports can have. -/
  sum : ∃ total : ℤ, total ≡ (a.share bucket).sum.val + (b.share bucket).sum.val [ZMOD Goldilocks.modulus] ∧
    |total| ≤ (Goldilocks.modulus - 1) / 2 ∧
    (a.privacy = none → b.privacy = none → r.sum = total) ∧
    ∀ s, Carries a b s → r.sum = max 0 (min total (min (r.count * s.toNat) (2 ^ 63 - 1)))
  /-- The same sum comes out in words, of which none overflows. -/
  words : let total := a.share bucket + b.share bucket
    total.count.word.toNat = r.count ∧
      ∃ w, releasedWord? (a.privacy.or b.privacy) total.count.word total.sum.word = some w ∧ w.toInt = r.sum

theorem Carries.exists_or {s : UInt64} (h : Carries a b s) : ∃ p, a.privacy.or b.privacy = some p ∧ p.sensitivity = s := by
  obtain ⟨⟨p, hp⟩, hall⟩ := h
  cases ha : a.privacy with
  | some q => exact ⟨q, rfl, hall q (.inl ha)⟩
  | none =>
    rcases hp with hp | hp
    · cases ha.symm.trans hp
    · exact ⟨p, hp, hall p (.inr hp)⟩

theorem isExactResult_of_ok {r : CompleteResult} (h : completeResult a b bucket = .ok r) : IsExactResult a b bucket r := by
  obtain ⟨la, lb, hmatched, -, rfl⟩ := completeResult_eq_ok.mp h
  let total := a.share bucket + b.share bucket
  refine ⟨⟨la, lb, hmatched, rfl, rfl⟩, rfl, ⟨total.sum.toInt, ?_, total.sum.abs_toInt_le, ?_, ?_⟩, ?_, ?_⟩
  · refine total.sum.toInt_modEq.trans ?_
    rw [show total.sum.val = _ from Goldilocks.val_add _ _, Int.natCast_mod, Nat.cast_add]
    exact Int.mod_modEq _ _
  · intro ha hb
    rw [releasedSum, ha, hb]
    rfl
  · intro s hs
    obtain ⟨p, hp, rfl⟩ := hs.exists_or
    rw [releasedSum, hp]
    change clip p.sensitivity _ _ = _
    rw [clip, min_comm (0x7fffffffffffffff : ℤ), Nat.cast_mul]
    rfl
  · exact total.count.toNat_word
  · exact releasedWord_eq a b bucket

theorem Releasable.isLast (h : Releasable a b) : IsLast a b := ⟨h.bucketBits, h.bitLength, h.last.1⟩

theorem Releasable.exists_result (h : Releasable a b) (hbucket : bucket ∈ labelled a b) :
    ∃ r, completeResult a b bucket = .ok r := by
  have ha : bucket ∈ a.labels := (mem_labelled.mp hbucket).elim id (h.labels bucket).mpr
  have hla := Std.ExtTreeMap.getElem?_eq_some_getElem ha
  have hlb := Std.ExtTreeMap.getElem?_eq_some_getElem ((h.labels bucket).mp ha)
  obtain ⟨hid, hagg, hlength⟩ := h.same bucket _ _ hla hlb
  exact ⟨_, completeResult_eq_ok.mpr ⟨_, _, ⟨hla, hlb, hid, hagg⟩, hlength, rfl⟩⟩

theorem releasable_of_complete {results : List CompleteResult} (h : complete a b = .ok results) : Releasable a b := by
  have hlast := isLast_of_complete h
  have hresults := (complete_eq_ok hlast).mp h
  have hmatched {bucket : UInt64} (hbucket : bucket ∈ labelled a b) :
      ∃ la lb, Matched a b bucket la lb ∧ la.keyShare.length = lb.keyShare.length := by
    obtain ⟨r, -, hr⟩ := exists_of_mem_forall₂ hresults hbucket
    obtain ⟨la, lb, hmatched, hlength, -⟩ := completeResult_eq_ok.mp hr
    exact ⟨la, lb, hmatched, hlength⟩
  refine ⟨hlast.bucketBits, hlast.bitLength, ⟨hlast.last, ?_⟩, fun bucket => ⟨fun ha => ?_, fun hb => ?_⟩, ?_⟩
  · rw [← hlast.bucketBits, hlast.last, hlast.bitLength]
  · obtain ⟨la, lb, hm, -⟩ := hmatched (mem_labelled.mpr (.inl ha))
    exact Std.ExtTreeMap.mem_iff_isSome_getElem?.mpr (hm.second ▸ rfl)
  · obtain ⟨la, lb, hm, -⟩ := hmatched (mem_labelled.mpr (.inr hb))
    exact Std.ExtTreeMap.mem_iff_isSome_getElem?.mpr (hm.first ▸ rfl)
  · intro bucket la lb ha hb
    have hin : bucket ∈ a.labels := Std.ExtTreeMap.mem_iff_isSome_getElem?.mpr (ha ▸ rfl)
    obtain ⟨la', lb', hm, hlength⟩ := hmatched (mem_labelled.mpr (.inl hin))
    cases ha.symm.trans hm.first
    cases hb.symm.trans hm.second
    exact ⟨hm.reportId, hm.aggregationId, hlength⟩

/-- The last level of two histograms is released exactly if they are of the same bits, cover full bucket identifiers, and
    label the same buckets, each with one report and one bucket key and with key shares of one length. Then each labelled
    bucket is released, in the order of the buckets, with the bucket key that the key shares make up, and with the number
    and the sum of the reports, computed exactly. -/
theorem complete_iff (a b : PartialHistogram) :
    ((∃ results, complete a b = .ok results) ↔ Releasable a b) ∧
    ∀ results, complete a b = .ok results → ∃ buckets : List UInt64, buckets.Pairwise (· < ·) ∧
      (∀ bucket, bucket ∈ buckets ↔ bucket ∈ a.labels ∧ bucket ∈ b.labels) ∧
      List.Forall₂ (IsExactResult a b) buckets results := by
  refine ⟨⟨fun ⟨results, h⟩ => releasable_of_complete h, fun h => ?_⟩, fun results h => ?_⟩
  · obtain ⟨results, hresults⟩ := exists_mapM_iff.mpr fun bucket hbucket => h.exists_result hbucket
    exact ⟨results, (complete_of_isLast h.isLast).trans hresults⟩
  · refine ⟨labelled a b, pairwise_increasing _, fun bucket => ?_, ?_⟩
    · rw [mem_labelled, (releasable_of_complete h).labels, or_self, and_self]
    · exact ((complete_eq_ok (isLast_of_complete h)).mp h).imp fun bucket r hr => isExactResult_of_ok hr

end Release

end PrivateHistogram
