import PrivateHistogram.Proofs.Aggregation.Totals
import PrivateHistogram.Proofs.Goldilocks

/-! The keys of joined reports. Making the key of a report succeeds (`generateKeys_eq`), and the halves of the keys
    that both helpers make add up, at any bucket, to the values and the number of the reports in the bucket
    (`Exchanged.totalShare_eq`). -/

namespace PrivateHistogram

theorem Bytes.toNatBig_lt (bytes : Bytes) : bytes.toNatBig < 256 ^ bytes.length := by
  suffices hfold : ∀ (bytes : Bytes) (n : ℕ),
      bytes.foldl (fun n b => 256 * n + b.toNat) n < (n + 1) * 256 ^ bytes.length by
    simpa [toNatBig] using hfold bytes 0
  intro bytes
  induction bytes with
  | nil => exact fun n => by simp
  | cons b bytes ih =>
    intro n
    have hb := b.toNat_lt
    calc _ < (256 * n + b.toNat + 1) * 256 ^ bytes.length := ih _
      _ ≤ (n + 1) * 256 * 256 ^ bytes.length := Nat.mul_le_mul_right _ (by omega)
      _ = _ := by rw [List.length_cons, pow_succ']; ring

section Bucket
variable (d : PointFunction.Domain) (value : Octets 32)

/-- The bucket of an aggregation identifier in a domain. -/
def PointFunction.Domain.bucketOf : UInt64 :=
  UInt64.ofNat (Bytes.toNatBig (value.toBytes.take 8) >>> (64 - d.bitLength.toNat))

theorem Join.bucketId_eq : bucketId value d.bitLength = .ok (d.bucketOf value) := by
  have hbits : ¬(d.bitLength < 1 ∨ 64 < d.bitLength) := by
    refine not_or.mpr ⟨fun hlt => ?_, UInt32.not_lt.mpr d.valid.last_le⟩
    have hpos := UInt32.lt_iff_toNat_lt.mp d.bitLength_pos
    have hone := UInt32.lt_iff_toNat_lt.mp hlt
    exact absurd hone (Nat.not_lt.mpr hpos)
  rw [bucketId, if_neg hbits]
  rfl

theorem PointFunction.Domain.bucketOf_lt : (d.bucketOf value).toNat < 2 ^ d.bitLength.toNat := by
  have hlt := Bytes.toNatBig_lt (value.toBytes.take 8)
  rw [List.length_take, Octets.length_toBytes] at hlt
  have hle := d.bitLength_le
  have hshift : Bytes.toNatBig (value.toBytes.take 8) >>> (64 - d.bitLength.toNat) < 2 ^ d.bitLength.toNat := by
    rw [Nat.shiftRight_eq_div_pow, Nat.div_lt_iff_lt_mul (by positivity), ← pow_add, Nat.add_sub_cancel' hle]
    exact hlt
  have hroom : 2 ^ d.bitLength.toNat ≤ 2 ^ 64 := Nat.pow_le_pow_right (by decide) hle
  rwa [bucketOf, UInt64.toNat_ofNat_of_lt' (hshift.trans_le hroom)]

end Bucket

/-! ### The keys of one helper -/

/-- A report that both helpers have joined: its aggregation identifier, and what each of them holds of it. -/
structure JoinedReport where
  id : ReportId
  aggregationId : Octets 32
  valueOne : Goldilocks
  valueTwo : Goldilocks
  keyOne : Bytes
  keyTwo : Bytes

namespace JoinedReport

def share (r : JoinedReport) : AggregationIdShare := ⟨r.id, r.aggregationId⟩

def payloadOne (r : JoinedReport) : AggregationPayload := ⟨r.id, r.valueOne, r.keyOne⟩

def payloadTwo (r : JoinedReport) : AggregationPayload := ⟨r.id, r.valueTwo, r.keyTwo⟩

def value (r : JoinedReport) : Goldilocks := r.valueOne + r.valueTwo

/-- Whether the bucket of a report starts with the given bits. -/
def IsIn (d : PointFunction.Domain) (bits : ℕ) (b : UInt64) (r : JoinedReport) : Prop :=
  PointFunction.ancestor d.bitLength.toNat (d.bucketOf r.aggregationId) bits = b

instance (d : PointFunction.Domain) (bits : ℕ) (b : UInt64) : DecidablePred (IsIn d bits b) :=
  fun _ => inferInstanceAs (Decidable (_ = b))

/-- The label that a helper gives to the key of a report, with its share of the bucket key. -/
def label (d : PointFunction.Domain) (keyShare : JoinedReport → Bytes) (r : JoinedReport) : BucketLabel :=
  ⟨d.bucketOf r.aggregationId, r.aggregationId, r.id, keyShare r⟩

end JoinedReport

/-- What one helper puts into a bucket: its shares of the values, and one for each report if it is the leader. -/
theorem KeyRecord.sum_contribution {α : Type} (leader : Bool) (payload : α → AggregationPayload) (l : List α) :
    (l.map fun a => contribution (payload a) leader).sum =
      ⟨(l.map fun a => (payload a).valueShare).sum, if leader then (l.map fun _ => (1 : Goldilocks)).sum else 0⟩ := by
  induction l with
  | nil => cases leader <;> rfl
  | cons a l ih =>
    simp only [List.map_cons, List.sum_cons]
    rw [ih]
    cases leader
    · exact BucketShare.ext rfl (Goldilocks.zero_add 0)
    · rfl

namespace Aggregation

open PointFunction

variable {F : PointFunction BucketShare}

/-- Making the key of a joined report succeeds, with two seeds read from the tape. -/
theorem generateKeys_eq (F : PointFunction BucketShare) {share : AggregationIdShare} {payload : AggregationPayload}
    (hid : share.id = payload.id) (leader : Bool) (tape : RandomTape) :
    generateKeys F share payload leader tape =
      (.ok (KeyRecord.ofKeys (F.domain.bucketOf share.value) share payload
        (F.keysFrom (F.domain.bucketOf share.value) (KeyRecord.contribution payload leader) (tape.octets 16).1
          ((tape.octets 16).2.octets 16).1)), ((tape.octets 16).2.octets 16).2) := by
  have hgenerate := generate_eq F (KeyRecord.contribution payload leader) (F.domain.bucketOf_lt share.value) tape
  rw [generateKeys, if_neg (not_not_intro hid), Join.bucketId_eq]
  exact (Attempt.bind_of_ok rfl).trans ((Attempt.bind_of_ok (Attempt.adapt_of_ok hgenerate)).trans rfl)

/-- Two halves of each of some keys add up, at a bucket, to what the keys with their buckets in it hold. -/
theorem totalShare_keysFrom {α : Type} (value : α → Octets 32) (contribution : α → BucketShare) {items : List α}
    {keys : List (KeyRecord × KeyRecord)} (h : List.Forall₂ (fun a k => ∃ seedA seedB,
      (k.1.key, k.2.key) = F.keysFrom (F.domain.bucketOf (value a)) (contribution a) seedA seedB) items keys)
    {bits : ℕ} (hpos : 0 < bits) (hle : bits ≤ F.domain.bitLength.toNat) {b : UInt64} (hb : b.toNat < 2 ^ bits) :
    totalShare F (keys.map Prod.fst ++ keys.map Prod.snd) bits b =
      ((items.filter fun a => ancestor F.domain.bitLength.toNat (F.domain.bucketOf (value a)) bits = b).map
        contribution).sum := by
  rw [totalShare_append]
  induction h with
  | nil => exact add_zero _
  | @cons a k items keys hk hrest ih =>
    obtain ⟨seedA, seedB, hk⟩ := hk
    have hsum := share_add_share F (contribution a) seedA seedB (F.domain.bucketOf_lt (value a)) hpos hle hb
    rw [← hk] at hsum
    rw [List.map_cons, List.map_cons, totalShare_cons, totalShare_cons, add_add_add_comm, ih, hsum, List.filter_cons]
    by_cases hin : ancestor F.domain.bitLength.toNat (F.domain.bucketOf (value a)) bits = b
    · rw [if_pos hin.symm, if_pos (decide_eq_true hin), List.map_cons, List.sum_cons]
    · rw [if_neg fun heq => hin heq.symm, if_neg (by simpa using hin), zero_add]

/-- The keys that one helper makes of the reports, each with whatever is drawn for it. -/
def Generated (F : PointFunction BucketShare) (payload : JoinedReport → AggregationPayload) (leader : Bool) :
    List JoinedReport → List (KeyRecord × KeyRecord) → Prop :=
  List.Forall₂ fun r keys => ∃ tape rest, generateKeys F r.share (payload r) leader tape = (.ok keys, rest)

section Generated
variable {payload : JoinedReport → AggregationPayload} (hpayload : ∀ r, (payload r).id = r.id) {leader : Bool}
include hpayload

theorem keys_of_generated {r : JoinedReport} {keys : KeyRecord × KeyRecord}
    (h : ∃ tape rest, generateKeys F r.share (payload r) leader tape = (.ok keys, rest)) :
    ∃ seedA seedB, keys = KeyRecord.ofKeys (F.domain.bucketOf r.aggregationId) r.share (payload r)
      (F.keysFrom (F.domain.bucketOf r.aggregationId) (KeyRecord.contribution (payload r) leader) seedA seedB) := by
  obtain ⟨tape, rest, hrun⟩ := h
  rw [generateKeys_eq F (hpayload r).symm] at hrun
  cases hrun
  exact ⟨_, _, rfl⟩

theorem checkKey_of_generated {reports : List JoinedReport} {keys : List (KeyRecord × KeyRecord)}
    (h : Generated F payload leader reports keys) :
    ∀ k ∈ keys, F.checkKey k.1.key = .ok () ∧ F.checkKey k.2.key = .ok () := by
  induction h with
  | nil => exact fun k hk => nomatch hk
  | cons hk hrest ih =>
    obtain ⟨seedA, seedB, rfl⟩ := keys_of_generated hpayload hk
    exact List.forall_mem_cons.mpr ⟨checkKey_keysFrom _ _ _ _ _, ih⟩

theorem totalShare_keys {reports : List JoinedReport} {keys : List (KeyRecord × KeyRecord)}
    (h : Generated F payload leader reports keys) {bits : ℕ} (hpos : 0 < bits) (hle : bits ≤ F.domain.bitLength.toNat)
    {b : UInt64} (hb : b.toNat < 2 ^ bits) :
    totalShare F (keys.map Prod.fst ++ keys.map Prod.snd) bits b =
      ((reports.filter (JoinedReport.IsIn F.domain bits b)).map fun r =>
        KeyRecord.contribution (payload r) leader).sum := by
  refine totalShare_keysFrom JoinedReport.aggregationId _ (h.imp fun r k hk => ?_) hpos hle hb
  obtain ⟨seedA, seedB, rfl⟩ := keys_of_generated hpayload hk
  exact ⟨seedA, seedB, rfl⟩

/-- A helper labels the first halves of the keys it makes, and no others. -/
theorem labels_of_generated {reports : List JoinedReport} {keys : List (KeyRecord × KeyRecord)}
    (h : Generated F payload leader reports keys) :
    (keys.map Prod.fst).filterMap KeyRecord.label =
        reports.map (JoinedReport.label F.domain fun r => (payload r).keyShare) ∧
      (keys.map Prod.snd).filterMap KeyRecord.label = [] := by
  induction h with
  | nil => exact ⟨rfl, rfl⟩
  | @cons r k reports keys hk _ ih =>
    obtain ⟨seedA, seedB, rfl⟩ := keys_of_generated hpayload hk
    exact ⟨congrArg (JoinedReport.label F.domain (fun r => (payload r).keyShare) r :: ·) ih.1, ih.2⟩

end Generated

/-! ### The keys of both helpers -/

/-- What both helpers put into a bucket: the values of its reports, and one for each. -/
theorem sum_contributions (leader : Bool) (inside : List JoinedReport) :
    (inside.map fun r => KeyRecord.contribution r.payloadOne leader).sum +
        (inside.map fun r => KeyRecord.contribution r.payloadTwo !leader).sum =
      ⟨(inside.map JoinedReport.value).sum, (inside.map fun _ => (1 : Goldilocks)).sum⟩ := by
  have hvalue : (inside.map fun r => r.payloadOne.valueShare).sum + (inside.map fun r => r.payloadTwo.valueShare).sum =
      (inside.map JoinedReport.value).sum := (List.sum_map_add).symm
  rw [KeyRecord.sum_contribution, KeyRecord.sum_contribution]
  cases leader
  · exact BucketShare.ext hvalue (Goldilocks.zero_add _)
  · exact BucketShare.ext hvalue (Goldilocks.add_zero _)

/-- Each helper has made the keys of some reports, one of them as the leader, and each holds the first halves of its own
    and the second halves of its peer's, in any order. -/
def Swapped (F : PointFunction BucketShare) (leader : Bool) (reportsOne reportsTwo : List JoinedReport)
    (one two : List KeyRecord) : Prop :=
  ∃ keysOne keysTwo, Generated F JoinedReport.payloadOne leader reportsOne keysOne ∧
    Generated F JoinedReport.payloadTwo (!leader) reportsTwo keysTwo ∧
    one.Perm (keysOne.map Prod.fst ++ keysTwo.map Prod.snd) ∧ two.Perm (keysTwo.map Prod.fst ++ keysOne.map Prod.snd)

theorem exists_generated (F : PointFunction BucketShare) (payload : JoinedReport → AggregationPayload)
    (hpayload : ∀ r, (payload r).id = r.id) (leader : Bool) (reports : List JoinedReport) :
    ∃ keys, Generated F payload leader reports keys := by
  induction reports with
  | nil => exact ⟨[], .nil⟩
  | cons r reports ih =>
    obtain ⟨keys, hkeys⟩ := ih
    exact ⟨_ :: keys, .cons ⟨⟨fun _ => 0, 0, none⟩, _, generateKeys_eq F (hpayload r).symm leader _⟩ hkeys⟩

theorem exists_swapped (F : PointFunction BucketShare) (leader : Bool) (reportsOne reportsTwo : List JoinedReport) :
    ∃ one two, Swapped F leader reportsOne reportsTwo one two := by
  obtain ⟨keysOne, hone⟩ := exists_generated F JoinedReport.payloadOne (fun _ => rfl) leader reportsOne
  obtain ⟨keysTwo, htwo⟩ := exists_generated F JoinedReport.payloadTwo (fun _ => rfl) (!leader) reportsTwo
  exact ⟨_, _, keysOne, keysTwo, hone, htwo, .refl _, .refl _⟩

namespace Swapped
variable {leader : Bool} {reportsOne reportsTwo : List JoinedReport} {one two : List KeyRecord}
  (h : Swapped F leader reportsOne reportsTwo one two)
include h

theorem checkKey : (∀ r ∈ one, F.checkKey r.key = .ok ()) ∧ ∀ r ∈ two, F.checkKey r.key = .ok () := by
  obtain ⟨keysOne, keysTwo, hone, htwo, hpermOne, hpermTwo⟩ := h
  have hkeysOne := checkKey_of_generated (fun _ => rfl) hone
  have hkeysTwo := checkKey_of_generated (fun _ => rfl) htwo
  refine ⟨fun r hr => ?_, fun r hr => ?_⟩
  · rw [hpermOne.mem_iff, List.mem_append, List.mem_map, List.mem_map] at hr
    rcases hr with ⟨k, hk, rfl⟩ | ⟨k, hk, rfl⟩
    · exact (hkeysOne k hk).1
    · exact (hkeysTwo k hk).2
  · rw [hpermTwo.mem_iff, List.mem_append, List.mem_map, List.mem_map] at hr
    rcases hr with ⟨k, hk, rfl⟩ | ⟨k, hk, rfl⟩
    · exact (hkeysTwo k hk).1
    · exact (hkeysOne k hk).2

/-- The halves that both helpers hold add up, at every bucket, to what each of them has put into it. -/
theorem totalShare_eq {bits : ℕ} (hpos : 0 < bits) (hle : bits ≤ F.domain.bitLength.toNat) {b : UInt64}
    (hb : b.toNat < 2 ^ bits) :
    totalShare F (one ++ two) bits b =
      ((reportsOne.filter (JoinedReport.IsIn F.domain bits b)).map fun r =>
        KeyRecord.contribution r.payloadOne leader).sum +
        ((reportsTwo.filter (JoinedReport.IsIn F.domain bits b)).map fun r =>
          KeyRecord.contribution r.payloadTwo !leader).sum := by
  obtain ⟨keysOne, keysTwo, hone, htwo, hpermOne, hpermTwo⟩ := h
  rw [← totalShare_keys (fun _ => rfl) hone hpos hle hb, ← totalShare_keys (fun _ => rfl) htwo hpos hle hb,
    totalShare_append, totalShare_perm F hpermOne, totalShare_perm F hpermTwo]
  simp only [totalShare_append]
  abel

theorem labels : (one.filterMap KeyRecord.label).Perm (reportsOne.map (JoinedReport.label F.domain JoinedReport.keyOne)) ∧
    (two.filterMap KeyRecord.label).Perm (reportsTwo.map (JoinedReport.label F.domain JoinedReport.keyTwo)) := by
  obtain ⟨keysOne, keysTwo, hone, htwo, hpermOne, hpermTwo⟩ := h
  have hlabelsOne := labels_of_generated (fun _ => rfl) hone
  have hlabelsTwo := labels_of_generated (fun _ => rfl) htwo
  have hfirst := hpermOne.filterMap KeyRecord.label
  have hsecond := hpermTwo.filterMap KeyRecord.label
  rw [List.filterMap_append, hlabelsOne.1, hlabelsTwo.2, List.append_nil] at hfirst
  rw [List.filterMap_append, hlabelsTwo.1, hlabelsOne.2, List.append_nil] at hsecond
  exact ⟨hfirst, hsecond⟩

end Swapped

/-- Both helpers have made the keys of all reports, one of them as the leader, and each holds the first halves of
    its own and the second halves of its peer's, in any order. -/
def Exchanged (F : PointFunction BucketShare) (reports : List JoinedReport) (one two : List KeyRecord) : Prop :=
  ∃ leader keysOne keysTwo, Generated F JoinedReport.payloadOne leader reports keysOne ∧
    Generated F JoinedReport.payloadTwo (!leader) reports keysTwo ∧
    one.Perm (keysOne.map Prod.fst ++ keysTwo.map Prod.snd) ∧ two.Perm (keysTwo.map Prod.fst ++ keysOne.map Prod.snd)

theorem exchanged_iff {reports : List JoinedReport} {one two : List KeyRecord} :
    Exchanged F reports one two ↔ ∃ leader, Swapped F leader reports reports one two := .rfl

theorem exists_exchanged (F : PointFunction BucketShare) (reports : List JoinedReport) :
    ∃ one two, Exchanged F reports one two := by
  obtain ⟨one, two, h⟩ := exists_swapped F true reports reports
  exact ⟨one, two, exchanged_iff.mpr ⟨true, h⟩⟩

namespace Exchanged
variable {reports : List JoinedReport} {one two : List KeyRecord} (h : Exchanged F reports one two)
include h

theorem checkKey : (∀ r ∈ one, F.checkKey r.key = .ok ()) ∧ ∀ r ∈ two, F.checkKey r.key = .ok () := by
  obtain ⟨leader, h⟩ := exchanged_iff.mp h
  exact h.checkKey

theorem labels : (one.filterMap KeyRecord.label).Perm (reports.map (JoinedReport.label F.domain JoinedReport.keyOne)) ∧
    (two.filterMap KeyRecord.label).Perm (reports.map (JoinedReport.label F.domain JoinedReport.keyTwo)) := by
  obtain ⟨leader, h⟩ := exchanged_iff.mp h
  exact h.labels

/-- The halves that both helpers hold add up, at every bucket, to the values and the number of its reports. -/
theorem totalShare_eq {bits : ℕ} (hpos : 0 < bits) (hle : bits ≤ F.domain.bitLength.toNat) {b : UInt64}
    (hb : b.toNat < 2 ^ bits) :
    totalShare F (one ++ two) bits b =
      let inside := reports.filter (JoinedReport.IsIn F.domain bits b)
      ⟨(inside.map JoinedReport.value).sum, (inside.map fun _ => (1 : Goldilocks)).sum⟩ := by
  obtain ⟨leader, h⟩ := exchanged_iff.mp h
  rw [h.totalShare_eq hpos hle hb]
  exact sum_contributions leader _

end Exchanged

end Aggregation

end PrivateHistogram
