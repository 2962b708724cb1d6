import PrivateHistogram.Proofs.Aggregation.Merges
import PrivateHistogram.Proofs.Aggregation.Releases
import PrivateHistogram.Proofs.Aggregation.Runs

/-! Bucket keys that share a bucket. A round fails exactly if two labels under its buckets are of one bucket but of
    different bucket keys (`outcome_of_settled`), whatever has come before and whatever the order of the key halves. So
    helpers that have labelled the same reports fail together, and if they do not, they label the same buckets with the
    same reports (`collisions_of_sameLabels`). -/

namespace PrivateHistogram.Aggregation

open PointFunction

variable {F : PointFunction BucketShare} {e : Expansion} {c : CombineParams} {p : Plan} {context : EvaluationContext}

/-! ### The outcome of a round -/

/-- Whether a full identifier starts with the bits of a bucket of a plan. -/
def Below (d : Domain) (p : Plan) (id : UInt64) : Prop :=
  ∃ b ∈ p.buckets.toList, id.toNat / 2 ^ (d.bitLength.toNat - p.targetBits.toNat) = b.toNat

instance (d : Domain) (p : Plan) : DecidablePred (Below d p) := fun _ => inferInstanceAs (Decidable (∃ b ∈ _, _))

theorem mem_planLabels_iff_below (hp : p.Fits F.domain) {labels : List BucketLabel} {b : UInt64} {l : BucketLabel} :
    (b, l) ∈ planLabels F p labels ↔ l ∈ labels ∧ l.bucketId = b ∧ Below F.domain p l.bucketId := by
  have hbelow : PartialHistogram.bucketOf (F.domain.bitLength - p.targetBits) l.bucketId ∈ p.buckets.toList ↔
      Below F.domain p l.bucketId := by
    rw [Below, ← toNat_bucketOf hp.toSized]
    simp only [UInt64.toNat_inj, exists_eq_right']
  rw [mem_planLabels hp, hbelow]

/-- Two labels are of one bucket below a plan, but of different bucket keys. -/
def Collide (d : Domain) (p : Plan) (labels : List BucketLabel) : Prop :=
  ∃ l ∈ labels, ∃ l' ∈ labels, l.bucketId = l'.bucketId ∧ Below d p l.bucketId ∧ l.aggregationId ≠ l'.aggregationId

theorem agree_planLabels_iff (hp : p.Fits F.domain) {labels : List BucketLabel} :
    Labels.Agree (planLabels F p labels) ↔ ¬Collide F.domain p labels := by
  constructor
  · rintro hagree ⟨l, hl, l', hl', hbucket, hbelow, hne⟩
    refine hne (hagree l.bucketId l l' ((mem_planLabels_iff_below hp).mpr ⟨hl, rfl, hbelow⟩) ?_)
    exact (mem_planLabels_iff_below hp).mpr ⟨hl', hbucket.symm, hbucket ▸ hbelow⟩
  · intro hnone b l l' hl hl'
    obtain ⟨hmem, rfl, hbelow⟩ := (mem_planLabels_iff_below hp).mp hl
    obtain ⟨hmem', hbucket, -⟩ := (mem_planLabels_iff_below hp).mp hl'
    by_contra hne
    exact hnone ⟨l, hmem, l', hmem', hbucket.symm, hbelow, hne⟩

/-- A histogram over the buckets of a plan has labelled each bucket below the plan that has a label with the smallest report
    in it, and all labels of the bucket are of one bucket key. -/
structure Labelled (d : Domain) (p : Plan) (labels : List BucketLabel) (h : PartialHistogram) : Prop where
  bucketBits : h.bucketBits = p.targetBits
  bitLength : h.bitLength = d.bitLength
  mem : ∀ b, b ∈ h.labels ↔ Below d p b ∧ ∃ l ∈ labels, l.bucketId = b
  held : ∀ b l, h.labels[b]? = some l → l ∈ labels ∧ l.bucketId = b
  smallest : ∀ b l, h.labels[b]? = some l → ∀ l' ∈ labels, l'.bucketId = b →
    l'.aggregationId = l.aggregationId ∧ (compare l.reportId l'.reportId).isLE = true

theorem labelled_of_smallest (hp : p.Fits F.domain) {labels : List BucketLabel} {h : PartialHistogram}
    (hbits : h.bucketBits = p.targetBits) (hlength : h.bitLength = F.domain.bitLength)
    (hsmallest : Labels.Smallest (planLabels F p labels) h.labels) (hagree : Labels.Agree (planLabels F p labels)) :
    Labelled F.domain p labels h := by
  have hmem {b : UInt64} {l : BucketLabel} (hl : h.labels[b]? = some l) :=
    (mem_planLabels_iff_below hp).mp (hsmallest.mem b l hl)
  refine ⟨hbits, hlength, fun b => ?_, fun b l hl => ⟨(hmem hl).1, (hmem hl).2.1⟩, fun b l hl l' hl' hbucket => ?_⟩
  · rw [Std.ExtTreeMap.mem_iff_isSome_getElem?, Option.isSome_iff_exists]
    constructor
    · rintro ⟨l, hl⟩
      obtain ⟨hlabel, rfl, hbelow⟩ := hmem hl
      exact ⟨hbelow, l, hlabel, rfl⟩
    · rintro ⟨hbelow, l, hl, rfl⟩
      exact hsmallest.complete _ l ((mem_planLabels_iff_below hp).mpr ⟨hl, rfl, hbelow⟩)
  · obtain ⟨-, rfl, hbelow⟩ := hmem hl
    have hl' := (mem_planLabels_iff_below hp).mpr ⟨hl', hbucket, hbucket ▸ hbelow⟩
    exact ⟨hagree _ l' l hl' (hsmallest.mem _ l hl), hsmallest.isLE _ l l' hl hl'⟩

/-- Whatever noise is put on the sums, a round with a plan fails if labels collide, and is accepted if not. Either way the
    context is in order again, and after a failure it has stopped where it had before. -/
theorem outcome_of_settled (hcontext : Settled F context) (hplan : planRound F context e c = .ok p) (n : Noise)
    (tape : RandomTape) :
    let round := (aggregate F e c n context tape).1
    Settled F round.2 ∧
      ((∃ bucket, round.1 = .error (.bucketCollision bucket) ∧ Collide F.domain p context.labels ∧
          round.2.previous = context.previous) ∨
        ∃ h, round.1 = .ok h ∧ ¬Collide F.domain p context.labels ∧ round.2.previous = some (p.level, p.buckets) ∧
          Labelled F.domain p context.labels h) := by
  obtain ⟨hvalidate, hexpansion⟩ := (planRound_eq_ok hcontext).mp hplan
  have hp := fits_of_plan hcontext.previous hexpansion
  obtain ⟨result, boundaries, caches, htotals, horder, -⟩ :=
    totals_eq hp (segmentLength_of_validate hvalidate) hcontext.order
  rw [aggregate_run]
  simp only [hplan, htotals, histogram_run]
  rcases Labels.addAll_cases (planLabels F p context.labels) with
    ⟨labels, hadd, hsmallest, hagree⟩ | ⟨b, labels, hadd, hnot⟩
  · generalize n.addTo (result.toList.map BucketShare.sum) tape = drawn
    obtain ⟨sums, rest⟩ := drawn
    simp only [hadd]
    refine ⟨⟨horder, fun found hfound => ?_⟩, .inr ⟨_, rfl, (agree_planLabels_iff hp).mp hagree, rfl, ?_⟩⟩
    · cases hfound
      exact ⟨p, hp, rfl⟩
    · exact labelled_of_smallest hp rfl rfl hsmallest hagree
  · simp only [hadd]
    exact ⟨⟨horder, hcontext.previous⟩, .inl ⟨b, rfl, not_not.mp (mt (agree_planLabels_iff hp).mpr hnot), rfl⟩⟩

/-! ### Labels of the same reports -/

/-- A label that has been made with a key for a joined report. -/
def IsMadeLabel (F : PointFunction BucketShare) (l : BucketLabel) : Prop :=
  ∃ share payload leader tape keys rest, generateKeys F share payload leader tape = (.ok keys, rest) ∧ keys.1.label = some l

theorem IsMadeLabel.bucketId_eq {l : BucketLabel} (h : IsMadeLabel F l) :
    l.bucketId = F.domain.bucketOf l.aggregationId := by
  obtain ⟨share, payload, leader, tape, keys, rest, hrun, hlabel⟩ := h
  by_cases hid : share.id = payload.id
  · rw [generateKeys_eq F hid] at hrun
    cases hrun
    cases hlabel
    rfl
  · rw [generateKeys, if_pos hid] at hrun
    cases congrArg Prod.fst hrun

/-- Two helpers hold halves of keys of the domain, with labels that have been made with keys for the same reports, in any
    order. -/
structure SameLabels (F : PointFunction BucketShare) (one two : List KeyRecord) : Prop where
  keys_first : ∀ r ∈ one, F.checkKey r.key = .ok ()
  keys_second : ∀ r ∈ two, F.checkKey r.key = .ok ()
  made_first : ∀ l ∈ one.filterMap KeyRecord.label, IsMadeLabel F l
  made_second : ∀ l ∈ two.filterMap KeyRecord.label, IsMadeLabel F l
  reports : ∀ id value, (∃ l ∈ one.filterMap KeyRecord.label, l.reportId = id ∧ l.aggregationId = value) ↔
    ∃ l ∈ two.filterMap KeyRecord.label, l.reportId = id ∧ l.aggregationId = value

namespace SameLabels
variable {one two : List KeyRecord}

theorem symm (h : SameLabels F one two) : SameLabels F two one :=
  ⟨h.keys_second, h.keys_first, h.made_second, h.made_first, fun id value => (h.reports id value).symm⟩

variable (h : SameLabels F one two)
include h

theorem exists_same {l : BucketLabel} (hl : l ∈ one.filterMap KeyRecord.label) :
    ∃ l' ∈ two.filterMap KeyRecord.label, l'.reportId = l.reportId ∧ l'.aggregationId = l.aggregationId ∧
      l'.bucketId = l.bucketId := by
  obtain ⟨l', hl', hid, hvalue⟩ := (h.reports l.reportId l.aggregationId).mp ⟨l, hl, rfl, rfl⟩
  refine ⟨l', hl', hid, hvalue, ?_⟩
  rw [(h.made_second l' hl').bucketId_eq, (h.made_first l hl).bucketId_eq, hvalue]

theorem collide (hcollide : Collide F.domain p (one.filterMap KeyRecord.label)) :
    Collide F.domain p (two.filterMap KeyRecord.label) := by
  obtain ⟨l, hl, l', hl', hbucket, hbelow, hne⟩ := hcollide
  obtain ⟨m, hm, -, hvalue, hmbucket⟩ := h.exists_same hl
  obtain ⟨m', hm', -, hvalue', hmbucket'⟩ := h.exists_same hl'
  refine ⟨m, hm, m', hm', ?_, ?_, ?_⟩
  · rw [hmbucket, hmbucket', hbucket]
  · rwa [hmbucket]
  · rwa [hvalue, hvalue']

theorem collide_iff : Collide F.domain p (two.filterMap KeyRecord.label) ↔
    Collide F.domain p (one.filterMap KeyRecord.label) :=
  ⟨h.symm.collide, h.collide⟩

/-- Histograms of both helpers have labelled a bucket with one report. -/
theorem matched {ha hb : PartialHistogram} (hlabelsA : Labelled F.domain p (one.filterMap KeyRecord.label) ha)
    (hlabelsB : Labelled F.domain p (two.filterMap KeyRecord.label) hb) {b : UInt64} (hb' : b ∈ ha.labels) :
    ∃ la lb, Release.Matched ha hb b la lb := by
  have hla := Std.ExtTreeMap.getElem?_eq_some_getElem hb'
  obtain ⟨hmemA, hbucketA⟩ := hlabelsA.held b _ hla
  obtain ⟨m, hm, hmid, hmvalue, hmbucket⟩ := h.exists_same hmemA
  have hmemB : b ∈ hb.labels :=
    (hlabelsB.mem b).mpr ⟨((hlabelsA.mem b).mp hb').1, m, hm, hmbucket.trans hbucketA⟩
  have hlb := Std.ExtTreeMap.getElem?_eq_some_getElem hmemB
  obtain ⟨hheldB, hbucketB⟩ := hlabelsB.held b _ hlb
  obtain ⟨k, hk, hkid, -, hkbucket⟩ := h.symm.exists_same hheldB
  -- Each label is of a report not larger than that of the other.
  obtain ⟨hvalue, hle⟩ := hlabelsB.smallest b _ hlb m hm (hmbucket.trans hbucketA)
  obtain ⟨-, hge⟩ := hlabelsA.smallest b _ hla k hk (hkbucket.trans hbucketB)
  rw [hmid] at hle
  rw [hkid] at hge
  exact ⟨_, _, hla, hlb, reportId_eq hge hle, hmvalue.symm.trans hvalue⟩

theorem mem_iff {ha hb : PartialHistogram} (hlabelsA : Labelled F.domain p (one.filterMap KeyRecord.label) ha)
    (hlabelsB : Labelled F.domain p (two.filterMap KeyRecord.label) hb) {b : UInt64} : b ∈ ha.labels ↔ b ∈ hb.labels := by
  constructor
  · intro hmem
    obtain ⟨la, lb, hmatched⟩ := h.matched hlabelsA hlabelsB hmem
    exact Std.ExtTreeMap.mem_iff_isSome_getElem?.mpr (Option.isSome_of_eq_some hmatched.second)
  · intro hmem
    obtain ⟨lb, la, hmatched⟩ := h.symm.matched hlabelsB hlabelsA hmem
    exact Std.ExtTreeMap.mem_iff_isSome_getElem?.mpr (Option.isSome_of_eq_some hmatched.second)

end SameLabels

theorem Exchanged.sameLabels {reports : List JoinedReport} {one two : List KeyRecord} (h : Exchanged F reports one two) :
    SameLabels F one two := by
  obtain ⟨hheldOne, hheldTwo⟩ := h.labels
  have hmade (keyShare : JoinedReport → Bytes) (payload : JoinedReport → AggregationPayload)
      (hpayload : ∀ r, (payload r).id = r.id ∧ (payload r).keyShare = keyShare r) :
      ∀ l ∈ reports.map (JoinedReport.label F.domain keyShare), IsMadeLabel F l := by
    intro l hl
    obtain ⟨r, -, rfl⟩ := List.mem_map.mp hl
    refine ⟨r.share, payload r, true, ⟨fun _ => 0, 0, none⟩, _, _, generateKeys_eq F (hpayload r).1.symm true _, ?_⟩
    rw [JoinedReport.label, ← (hpayload r).2]
    rfl
  refine ⟨h.checkKey.1, h.checkKey.2, fun l hl => ?_, fun l hl => ?_, fun id value => ?_⟩
  · exact hmade JoinedReport.keyOne JoinedReport.payloadOne (fun _ => ⟨rfl, rfl⟩) l (hheldOne.mem_iff.mp hl)
  · exact hmade JoinedReport.keyTwo JoinedReport.payloadTwo (fun _ => ⟨rfl, rfl⟩) l (hheldTwo.mem_iff.mp hl)
  · simp only [hheldOne.mem_iff, hheldTwo.mem_iff, List.mem_map, exists_exists_and_eq_and]
    rfl

/-! ### Rounds -/

section Rounds
variable {one two a b : EvaluationContext}

/-- Two contexts whose labels collide below the same plans stay in step, whether a round is accepted or not. -/
theorem Paired.call (hpaired : Paired F one two a b)
    (hcollide : ∀ p, Collide F.domain p b.labels ↔ Collide F.domain p a.labels) (call : Call) (tapeA tapeB : RandomTape) :
    Paired F one two (aggregate F call.expansion call.combine call.noise a tapeA).1.2
      (aggregate F call.expansion call.combine call.noise b tapeB).1.2 := by
  have hplans := hpaired.planRound_eq call.expansion call.combine
  cases hplan : planRound F a call.expansion call.combine with
  | error error =>
    rw [aggregate_run, aggregate_run, hplans, hplan]
    exact hpaired
  | ok p =>
    obtain ⟨hsettledA, houtcomeA⟩ := outcome_of_settled hpaired.first hplan call.noise tapeA
    obtain ⟨hsettledB, houtcomeB⟩ := outcome_of_settled hpaired.second (hplans.trans hplan) call.noise tapeB
    refine ⟨hsettledA, hsettledB, aggregate_records.trans hpaired.records_first,
      aggregate_records.trans hpaired.records_second, ?_⟩
    rcases houtcomeA with ⟨_, -, hyes, hpreviousA⟩ | ⟨_, -, hno, hpreviousA, -⟩ <;>
      rcases houtcomeB with ⟨_, -, hyes', hpreviousB⟩ | ⟨_, -, hno', hpreviousB, -⟩
    · rw [hpreviousA, hpreviousB, hpaired.previous]
    · exact absurd ((hcollide p).mpr hyes) hno'
    · exact absurd ((hcollide p).mp hyes') hno
    · rw [hpreviousA, hpreviousB]

theorem Paired.rounds (hpaired : Paired F one two a b)
    (hcollide : ∀ p, Collide F.domain p two.labels ↔ Collide F.domain p one.labels) (calls : List Call)
    (tapeA tapeB : RandomTape) :
    Paired F one two (Aggregation.rounds F calls a tapeA).1.2 (Aggregation.rounds F calls b tapeB).1.2 := by
  induction calls generalizing a b tapeA tapeB with
  | nil => exact hpaired
  | cons call calls ih =>
    rw [rounds_cons, rounds_cons]
    refine ih (hpaired.call (fun p => ?_) call tapeA tapeB) _ _
    rw [EvaluationContext.labels, EvaluationContext.labels, hpaired.records_first, hpaired.records_second]
    exact hcollide p

end Rounds

/-! ### The release -/

/-- The release of two histograms of the last level refuses no bucket for its labels, and each result is made of one bucket,
    whose labels are all of the bucket key that is released. -/
structure KeepsApart (d : Domain) (labels : List BucketLabel) (ha hb : PartialHistogram) : Prop where
  accepted : ∀ bucket, Release.complete ha hb ≠ .error (.missingLabel bucket) ∧
    Release.complete ha hb ≠ .error (.labelMismatch bucket)
  results : ∀ results, Release.complete ha hb = .ok results → results.map (bucketOfResult d) = ha.labels.keys ∧
    ∀ r ∈ results, Release.completeResult ha hb (bucketOfResult d r) = .ok r ∧
      ∀ l ∈ labels, l.bucketId = bucketOfResult d r → l.aggregationId = r.aggregationId

theorem SameLabels.keepsApart {one two : List KeyRecord} (h : SameLabels F one two)
    (hlast : p.targetBits = F.domain.bitLength)
    {ha hb : PartialHistogram} (hlabelsA : Labelled F.domain p (one.filterMap KeyRecord.label) ha)
    (hlabelsB : Labelled F.domain p (two.filterMap KeyRecord.label) hb) :
    KeepsApart F.domain (one.filterMap KeyRecord.label ++ two.filterMap KeyRecord.label) ha hb := by
  have hIsLast : Release.IsLast ha hb :=
    ⟨hlabelsA.bucketBits.trans hlabelsB.bucketBits.symm, hlabelsA.bitLength.trans hlabelsB.bitLength.symm,
      hlabelsA.bucketBits.trans (hlast.trans hlabelsA.bitLength.symm)⟩
  have hmem {bucket : UInt64} : bucket ∈ Release.labelled ha hb ↔ bucket ∈ ha.labels := by
    rw [Release.mem_labelled, ← h.mem_iff hlabelsA hlabelsB, or_self]
  refine ⟨fun bucket => ?_, fun results hresults => ?_⟩
  · have hcause {error : Error} (herror : Release.complete ha hb = .error error) : ∃ cause, error = .secretShare cause := by
      obtain ⟨bucket', hbucket', hrun⟩ := Release.complete_eq_error hIsLast herror
      obtain ⟨la, lb, hmatched⟩ := h.matched hlabelsA hlabelsB (hmem.mp hbucket')
      exact Release.secretShare_of_matched hmatched hrun
    refine ⟨fun herror => ?_, fun herror => ?_⟩ <;> obtain ⟨cause, hcause⟩ := hcause herror <;> cases hcause
  · have hresults := (Release.complete_eq_ok hIsLast).mp hresults
    have hbucket {bucket : UInt64} {r : CompleteResult} (hr : Release.completeResult ha hb bucket = .ok r) :
        bucketOfResult F.domain r = bucket := by
      obtain ⟨la, lb, hmatched, -, rfl⟩ := Release.completeResult_eq_ok.mp hr
      obtain ⟨hheld, hbucket⟩ := hlabelsA.held bucket la hmatched.first
      exact (h.made_first la hheld).bucketId_eq.symm.trans hbucket
    have hkeys : Release.labelled ha hb = ha.labels.keys :=
      increasing_eq (Std.ExtTreeMap.ordered_keys.imp Std.compare_eq_lt.mp) fun bucket => by
        rw [← mem_increasing, hmem, Std.ExtTreeMap.mem_keys]
    rw [← hkeys]
    refine ⟨?_, fun r hr => ?_⟩
    · refine (map_eq_map_of_forall₂ (f := id) (hresults.imp fun bucket r hr => ?_)).symm.trans (List.map_id _)
      exact (hbucket hr).symm
    · obtain ⟨bucket, hmemBucket, hr⟩ := exists_of_mem_forall₂ hresults.flip hr
      obtain rfl := hbucket hr
      refine ⟨hr, fun l hl hlbucket => ?_⟩
      obtain ⟨la, lb, hmatched, -, hresult⟩ := Release.completeResult_eq_ok.mp hr
      have hvalue : r.aggregationId = la.aggregationId := congrArg CompleteResult.aggregationId hresult
      rw [hvalue]
      rcases List.mem_append.mp hl with hl | hl
      · exact (hlabelsA.smallest _ la hmatched.first l hl hlbucket).1
      · exact (hlabelsB.smallest _ lb hmatched.second l hl hlbucket).1.trans hmatched.aggregationId.symm

/-! ### Both helpers -/

/-- Two helpers whose labels are of the same reports go through the same rounds, each with the noise that it draws. Then the
    next round with a plan fails for both with a collision or for neither: for both exactly if two labels of a bucket below
    the plan are of different bucket keys. If not, both label the same buckets, each with the smallest report in it; and
    at the last level, the release refuses no bucket for its labels and puts no two bucket keys into one result. -/
theorem collisions_of_sameLabels {one two : List KeyRecord} (hsame : SameLabels F one two) (calls : List Call)
    (tapeOne tapeTwo : RandomTape) {cb : CombineParams} (na nb : Noise)
    (hplan : planRound F (rounds F calls (.ofRecords one) tapeOne).1.2 e c = .ok p) (hcombine : cb.validate = .ok ())
    (tapeA tapeB : RandomTape) :
    let a := (rounds F calls (.ofRecords one) tapeOne).1.2
    let b := (rounds F calls (.ofRecords two) tapeTwo).1.2
    let labelsA := one.filterMap KeyRecord.label
    let labelsB := two.filterMap KeyRecord.label
    let first := (aggregate F e c na a tapeA).1.1
    let second := (aggregate F e cb nb b tapeB).1.1
    planRound F b e cb = .ok p ∧
    ((∃ bucket, first = .error (.bucketCollision bucket)) ↔ Collide F.domain p labelsA) ∧
    ((∃ bucket, second = .error (.bucketCollision bucket)) ↔ Collide F.domain p labelsA) ∧
    (Collide F.domain p labelsA ↔ Collide F.domain p labelsB) ∧
    (¬Collide F.domain p labelsA → ∃ ha hb, first = .ok ha ∧ second = .ok hb ∧
      Labelled F.domain p labelsA ha ∧ Labelled F.domain p labelsB hb ∧
      (∀ bucket, bucket ∈ ha.labels ↔ bucket ∈ hb.labels) ∧
      (∀ bucket ∈ ha.labels, ∃ la lb, Release.Matched ha hb bucket la lb) ∧
      (p.targetBits = F.domain.bitLength → KeepsApart F.domain (labelsA ++ labelsB) ha hb)) := by
  intro a b labelsA labelsB first second
  have hpaired : Paired F (.ofRecords one) (.ofRecords two) a b :=
    (paired_ofRecords hsame.keys_first hsame.keys_second).rounds (fun _ => hsame.collide_iff) calls tapeOne tapeTwo
  have hplanB : planRound F b e cb = .ok p := by
    rw [planRound_eq_ok hpaired.second, ← hpaired.previous]
    exact ⟨hcombine, ((planRound_eq_ok hpaired.first).mp hplan).2⟩
  have hfirst := (outcome_of_settled hpaired.first hplan na tapeA).2
  have hsecond := (outcome_of_settled hpaired.second hplanB nb tapeB).2
  rw [show a.labels = labelsA from congrArg (List.filterMap KeyRecord.label) hpaired.records_first] at hfirst
  rw [show b.labels = labelsB from congrArg (List.filterMap KeyRecord.label) hpaired.records_second] at hsecond
  have hcollide : Collide F.domain p labelsB ↔ Collide F.domain p labelsA := hsame.collide_iff
  refine ⟨hplanB, ?_, ?_, hcollide.symm, fun hno => ?_⟩
  · rcases hfirst with ⟨bucket, herror, hyes, -⟩ | ⟨ha, hok, hno, -⟩
    · exact ⟨fun _ => hyes, fun _ => ⟨bucket, herror⟩⟩
    · refine ⟨fun ⟨_, herror⟩ => ?_, fun hyes => absurd hyes hno⟩
      cases hok.symm.trans herror
  · rcases hsecond with ⟨bucket, herror, hyes, -⟩ | ⟨hb, hok, hno, -⟩
    · exact ⟨fun _ => hcollide.mp hyes, fun _ => ⟨bucket, herror⟩⟩
    · refine ⟨fun ⟨_, herror⟩ => ?_, fun hyes => absurd (hcollide.mpr hyes) hno⟩
      cases hok.symm.trans herror
  · rcases hfirst with ⟨_, -, hyes, -⟩ | ⟨ha, hokA, -, -, hlabelsA⟩
    · exact absurd hyes hno
    rcases hsecond with ⟨_, -, hyes, -⟩ | ⟨hb, hokB, -, -, hlabelsB⟩
    · exact absurd (hcollide.mp hyes) hno
    exact ⟨ha, hb, hokA, hokB, hlabelsA, hlabelsB, fun bucket => hsame.mem_iff hlabelsA hlabelsB,
      fun bucket hbucket => hsame.matched hlabelsA hlabelsB hbucket, fun hlast => hsame.keepsApart hlast hlabelsA hlabelsB⟩

/-- A report in the bucket of zeros, whose bucket key is not that of the other report there. -/
def reportStranger : JoinedReport :=
  ⟨⟨Octets.ofNatLittle 16 1⟩, Octets.ofNatLittle 32 (2 ^ 248), .ofNat 4, .ofNat 5, [3], [4]⟩

/-- Where two bucket keys share the bucket of zeros, both helpers refuse the first round. Where each has a bucket of its
    own, both label the two buckets and the release keeps them apart. -/
theorem collisions_of_sameLabels_stranger :
    let F : PointFunction BucketShare := ⟨.oneThree, .standard BucketShare⟩
    let tape : RandomTape := ⟨fun _ => 0, 0, none⟩
    let outcome (level : UInt64) (records : List KeyRecord) :=
      (aggregate F ⟨[level], [[]], none⟩ .default .none (.ofRecords records) tape).1.1
    (∃ one two, Exchanged F [reportSeven, reportStranger] one two ∧
      (∃ bucket, outcome 0 one = .error (.bucketCollision bucket)) ∧
      ∃ bucket, outcome 0 two = .error (.bucketCollision bucket)) ∧
    ∃ one two ha hb, Exchanged F [reportSeven, reportFive] one two ∧ outcome 1 one = .ok ha ∧ outcome 1 two = .ok hb ∧
      (∀ bucket, bucket ∈ ha.labels ↔ bucket ∈ hb.labels) ∧
      (∀ bucket ∈ ha.labels, ∃ la lb, Release.Matched ha hb bucket la lb) ∧
      0 ∈ ha.labels ∧ 3 ∈ ha.labels ∧
      KeepsApart F.domain (one.filterMap KeyRecord.label ++ two.filterMap KeyRecord.label) ha hb := by
  intro F tape outcome
  have hcombine : CombineParams.default.validate = .ok () := rfl
  have hmem {reports : List JoinedReport} {one two : List KeyRecord} (h : Exchanged F reports one two) {l : BucketLabel} :
      l ∈ one.filterMap KeyRecord.label ↔ ∃ r ∈ reports, r.label F.domain JoinedReport.keyOne = l :=
    h.labels.1.mem_iff.trans List.mem_map
  constructor
  · obtain ⟨one, two, hexchanged⟩ := exists_exchanged F [reportSeven, reportStranger]
    have hsame := hexchanged.sameLabels
    have hplan : planRound F (rounds F [] (.ofRecords one) tape).1.2 ⟨[0], [[]], none⟩ .default = .ok ⟨0, 0, #[0], 1⟩ :=
      (planRound_eq_ok (settled_ofRecords hsame.keys_first)).mpr ⟨hcombine, rfl⟩
    have hcollide : Collide F.domain ⟨0, 0, #[0], 1⟩ (one.filterMap KeyRecord.label) :=
      ⟨_, (hmem hexchanged).mpr ⟨reportSeven, by simp, rfl⟩, _, (hmem hexchanged).mpr ⟨reportStranger, by simp, rfl⟩,
        by decide, by decide, by decide⟩
    obtain ⟨-, hfirst, hsecond, -⟩ := collisions_of_sameLabels hsame [] tape tape .none .none hplan hcombine tape tape
    exact ⟨one, two, hexchanged, hfirst.mpr hcollide, hsecond.mpr hcollide⟩
  · obtain ⟨one, two, hexchanged⟩ := exists_exchanged F [reportSeven, reportFive]
    have hsame := hexchanged.sameLabels
    have hplan : planRound F (rounds F [] (.ofRecords one) tape).1.2 ⟨[1], [[]], none⟩ .default = .ok ⟨1, 0, #[0], 3⟩ :=
      (planRound_eq_ok (settled_ofRecords hsame.keys_first)).mpr ⟨hcombine, rfl⟩
    have hapart : ∀ r ∈ [reportSeven, reportFive], ∀ r' ∈ [reportSeven, reportFive],
        F.domain.bucketOf r.aggregationId = F.domain.bucketOf r'.aggregationId → r.aggregationId = r'.aggregationId := by
      decide
    have hno : ¬Collide F.domain ⟨1, 0, #[0], 3⟩ (one.filterMap KeyRecord.label) := by
      rintro ⟨l, hl, l', hl', hbucket, -, hne⟩
      obtain ⟨r, hr, rfl⟩ := (hmem hexchanged).mp hl
      obtain ⟨r', hr', rfl⟩ := (hmem hexchanged).mp hl'
      exact hne (hapart r hr r' hr' hbucket)
    obtain ⟨-, -, -, -, hrest⟩ := collisions_of_sameLabels hsame [] tape tape .none .none hplan hcombine tape tape
    obtain ⟨ha, hb, hokA, hokB, hlabelsA, -, hiff, hmatched, hkeeps⟩ := hrest hno
    refine ⟨one, two, ha, hb, hexchanged, hokA, hokB, hiff, hmatched, ?_, ?_, hkeeps rfl⟩
    · exact (hlabelsA.mem 0).mpr ⟨by decide, _, (hmem hexchanged).mpr ⟨reportSeven, by simp, rfl⟩, by decide⟩
    · exact (hlabelsA.mem 3).mpr ⟨by decide, _, (hmem hexchanged).mpr ⟨reportFive, by simp, rfl⟩, by decide⟩

end PrivateHistogram.Aggregation
