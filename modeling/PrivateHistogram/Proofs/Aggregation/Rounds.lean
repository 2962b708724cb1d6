import PrivateHistogram.Proofs.Aggregation.Histograms
import PrivateHistogram.Proofs.Aggregation.Keys

/-! Rounds of both helpers. As long as both accept the same expansions their contexts stay in step
    (`InStep.paired`), however each of them adds up, so the release of any round lists the buckets of one plan, with
    the sum and the number of the reports in each (`intermediate_of_inStep`). -/

namespace PrivateHistogram.Aggregation

open PointFunction

variable {F : PointFunction BucketShare} {one two a b a' b' : EvaluationContext}

/-- The contexts of two helpers after any number of rounds that both have accepted, without noise. -/
inductive InStep (F : PointFunction BucketShare) (one two : EvaluationContext) :
    EvaluationContext → EvaluationContext → Prop
  | start : InStep F one two one two
  | round {a b a' b' : EvaluationContext} {e : Expansion} {ca cb : CombineParams} {ha hb : PartialHistogram}
      {tapeA tapeB restA restB : RandomTape} (before : InStep F one two a b)
      (first : aggregate F e ca .none a tapeA = ((.ok ha, a'), restA))
      (second : aggregate F e cb .none b tapeB = ((.ok hb, b'), restB)) : InStep F one two a' b'

/-- Two contexts that have stopped at the same buckets, with the key halves they started with. -/
structure Paired (F : PointFunction BucketShare) (one two a b : EvaluationContext) : Prop where
  first : Settled F a
  second : Settled F b
  records_first : a.records = one.records
  records_second : b.records = two.records
  previous : a.previous = b.previous

theorem Paired.round (h : Paired F one two a b) {e : Expansion} {ca cb : CombineParams} {ha hb : PartialHistogram}
    {tapeA tapeB restA restB : RandomTape} (hfirst : aggregate F e ca .none a tapeA = ((.ok ha, a'), restA))
    (hsecond : aggregate F e cb .none b tapeB = ((.ok hb, b'), restB)) :
    Paired F one two a' b' ∧ ∃ p labelsA labelsB, planRound F a e ca = .ok p ∧ planRound F b e cb = .ok p ∧
      p.Fits F.domain ∧ IsHistogram F p one.records labelsA ha ∧ IsHistogram F p two.records labelsB hb := by
  obtain ⟨p, labelsA, hplanA, hp, hha, hsettledA, hrecordsA, hpreviousA⟩ := settled_of_aggregate h.first hfirst
  obtain ⟨q, labelsB, hplanB, -, hhb, hsettledB, hrecordsB, hpreviousB⟩ := settled_of_aggregate h.second hsecond
  have hplan := ((planRound_eq_ok h.first).mp hplanA).2
  rw [h.previous, ((planRound_eq_ok h.second).mp hplanB).2] at hplan
  cases hplan
  refine ⟨⟨hsettledA, hsettledB, ?_, ?_, hpreviousA.trans hpreviousB.symm⟩, p, labelsA, labelsB, hplanA, hplanB, hp, ?_, ?_⟩
  · rw [hrecordsA, h.records_first]
  · rw [hrecordsB, h.records_second]
  · rwa [← h.records_first]
  · rwa [← h.records_second]

/-- Whatever rounds both accept, their contexts stay in step. -/
theorem InStep.paired (h : InStep F one two a b) (hstart : Paired F one two one two) : Paired F one two a b := by
  induction h with
  | start => exact hstart
  | round _ first second ih => exact (ih.round first second).1

theorem paired_ofRecords {recordsOne recordsTwo : List KeyRecord} (hone : ∀ r ∈ recordsOne, F.checkKey r.key = .ok ())
    (htwo : ∀ r ∈ recordsTwo, F.checkKey r.key = .ok ()) :
    Paired F (.ofRecords recordsOne) (.ofRecords recordsTwo) (.ofRecords recordsOne) (.ofRecords recordsTwo) :=
  ⟨settled_ofRecords hone, settled_ofRecords htwo, rfl, rfl, rfl⟩

theorem Paired.planRound_eq (h : Paired F one two a b) (e : Expansion) (c : CombineParams) :
    planRound F b e c = planRound F a e c := by
  rw [Aggregation.planRound_eq h.second, Aggregation.planRound_eq h.first, h.previous]

/-- Both accept a round with a plan if the labels of neither disagree. -/
theorem Paired.exists_round (h : Paired F one two a b) {e : Expansion} {ca cb : CombineParams} {p : Plan}
    (hplanA : planRound F a e ca = .ok p) (hplanB : planRound F b e cb = .ok p)
    (hagreeA : Labels.Agree (planLabels F p one.labels)) (hagreeB : Labels.Agree (planLabels F p two.labels))
    (tape : RandomTape) :
    ∃ ha hb a' b', aggregate F e ca .none a tape = ((.ok ha, a'), tape) ∧
      aggregate F e cb .none b tape = ((.ok hb, b'), tape) ∧ a'.previous = some (p.level, p.buckets) := by
  have hlabelsA : a.labels = one.labels := congrArg (List.filterMap KeyRecord.label) h.records_first
  have hlabelsB : b.labels = two.labels := congrArg (List.filterMap KeyRecord.label) h.records_second
  rw [← hlabelsA] at hagreeA
  rw [← hlabelsB] at hagreeB
  obtain ⟨ha, _, _, hfirst, -⟩ := aggregate_of_agree h.first hplanA hagreeA tape
  obtain ⟨hb, _, _, hsecond, -⟩ := aggregate_of_agree h.second hplanB hagreeB tape
  exact ⟨ha, hb, _, _, hfirst, hsecond, rfl⟩

/-- Labels of reports disagree in no plan if the reports of one bucket are of one bucket key. -/
theorem agree_of_reports {reports : List JoinedReport} {keyShare : JoinedReport → Bytes} {held : List BucketLabel}
    (hheld : held.Perm (reports.map (JoinedReport.label F.domain keyShare)))
    (hbuckets : ∀ r ∈ reports, ∀ r' ∈ reports,
      F.domain.bucketOf r.aggregationId = F.domain.bucketOf r'.aggregationId → r.aggregationId = r'.aggregationId)
    (p : Plan) : Labels.Agree (planLabels F p held) := by
  refine agree_planLabels (fun l hl l' hl' hbucket => ?_) p
  obtain ⟨r, hr, rfl⟩ := List.mem_map.mp (hheld.mem_iff.mp hl)
  obtain ⟨r', hr', rfl⟩ := List.mem_map.mp (hheld.mem_iff.mp hl')
  exact hbuckets r hr r' hr' hbucket

/-- The result of a bucket is that of its reports: the signed value of the sum in the field, which is the sum of
    the values where that has at most half the modulus, and their number. -/
structure IsExact (d : Domain) (reports : List JoinedReport) (bits : ℕ) (r : BucketResult) : Prop where
  sum : r.sum = (Goldilocks.sum ((reports.filter (JoinedReport.IsIn d bits r.bucket)).map JoinedReport.value)).toInt
  count : r.count = (reports.filter (JoinedReport.IsIn d bits r.bucket)).length % Goldilocks.modulus
  count_of_lt : reports.length < Goldilocks.modulus → r.count = (reports.filter (JoinedReport.IsIn d bits r.bucket)).length
  sum_of_le : ∀ x : JoinedReport → ℤ, (∀ report ∈ reports, report.value = Goldilocks.ofInt (x report)) →
    |((reports.filter (JoinedReport.IsIn d bits r.bucket)).map x).sum| ≤ (Goldilocks.modulus - 1) / 2 →
    r.sum = ((reports.filter (JoinedReport.IsIn d bits r.bucket)).map x).sum

theorem isExact_of_inside (d : Domain) (reports : List JoinedReport) (bits : ℕ) (bucket : UInt64) :
    let inside := reports.filter (JoinedReport.IsIn d bits bucket)
    IsExact d reports bits ⟨bucket, Goldilocks.toInt (inside.map JoinedReport.value).sum,
      Goldilocks.val (inside.map fun _ => (1 : Goldilocks)).sum⟩ := by
  refine ⟨?_, Goldilocks.val_sum_one _, fun hlt => ?_, fun x hx hbound => ?_⟩
  · rw [Goldilocks.sum_eq]
  · have hfilter := List.length_filter_le (JoinedReport.IsIn d bits bucket) reports
    exact (Goldilocks.val_sum_one _).trans (Nat.mod_eq_of_lt (hfilter.trans_lt hlt))
  · have hvalues : (reports.filter (JoinedReport.IsIn d bits bucket)).map JoinedReport.value =
        ((reports.filter (JoinedReport.IsIn d bits bucket)).map x).map Goldilocks.ofInt := by
      rw [List.map_map]
      exact List.map_congr_left fun report hreport => hx report (List.mem_of_mem_filter hreport)
    change Goldilocks.toInt (List.sum _) = _
    rw [hvalues, Goldilocks.sum_ofInt, Goldilocks.toInt_ofInt hbound]

theorem isExact_of_exchanged {reports : List JoinedReport} {recordsOne recordsTwo : List KeyRecord}
    (h : Exchanged F reports recordsOne recordsTwo) {p : Plan} (hp : p.Fits F.domain) {bucket : UInt64}
    (hbucket : bucket ∈ p.buckets.toList) :
    let total := totalShare F (recordsOne ++ recordsTwo) p.targetBits.toNat bucket
    IsExact F.domain reports p.targetBits.toNat { bucket, sum := total.sum.toInt, count := total.count.val } := by
  obtain ⟨hpos, hle, hlt⟩ := hp.inDomain hbucket
  rw [h.totalShare_eq hpos hle hlt]
  exact isExact_of_inside _ _ _ _

/-- Both helpers make the keys of all reports and exchange their second halves, and go through any rounds that both
    accept, each adding up directly or by segments. Then the release of the next such round lists the buckets of
    the plan in increasing order, each with the exact sum and number of its reports. -/
theorem intermediate_of_inStep (F : PointFunction BucketShare) (reports : List JoinedReport) :
    (∀ r ∈ reports, ∀ leader tape, (∃ keys rest, generateKeys F r.share r.payloadOne leader tape = (.ok keys, rest)) ∧
      ∃ keys rest, generateKeys F r.share r.payloadTwo leader tape = (.ok keys, rest)) ∧
    ∀ recordsOne recordsTwo, Exchanged F reports recordsOne recordsTwo →
    ∀ a b, InStep F (.ofRecords recordsOne) (.ofRecords recordsTwo) a b →
    ∀ (e : Expansion) (ca cb : CombineParams) (ha hb : PartialHistogram) (a' b' : EvaluationContext)
      (tapeA tapeB restA restB : RandomTape), aggregate F e ca .none a tapeA = ((.ok ha, a'), restA) →
      aggregate F e cb .none b tapeB = ((.ok hb, b'), restB) →
      ∃ p results, planRound F a e ca = .ok p ∧ planRound F b e cb = .ok p ∧
        Release.intermediate ha hb = .ok results ∧ results.map BucketResult.bucket = p.buckets.toList ∧
        p.buckets.toList.Pairwise (· < ·) ∧ ∀ r ∈ results, IsExact F.domain reports p.targetBits.toNat r := by
  refine ⟨fun r _ leader tape => ⟨⟨_, _, generateKeys_eq F rfl leader tape⟩, _, _, generateKeys_eq F rfl leader tape⟩, ?_⟩
  intro recordsOne recordsTwo hexchanged a b hsteps e ca cb ha hb a' b' tapeA tapeB restA restB hfirst hsecond
  have hpaired := hsteps.paired (paired_ofRecords hexchanged.checkKey.1 hexchanged.checkKey.2)
  obtain ⟨-, p, labelsA, labelsB, hplanA, hplanB, hp, hha, hhb⟩ := hpaired.round hfirst hsecond
  refine ⟨p, _, hplanA, hplanB, intermediate_eq hp hha hhb, ?_, hp.pairwise_buckets, fun r hr => ?_⟩
  · rw [List.map_map]
    exact List.map_id _
  · obtain ⟨bucket, hbucket, rfl⟩ := List.mem_map.mp hr
    exact isExact_of_exchanged hexchanged hp hbucket

/-- The results of buckets that the values of the reports in them give. -/
def resultsOf (d : Domain) (reports : List JoinedReport) (bits : ℕ) (buckets : List UInt64) : List BucketResult :=
  buckets.map fun bucket =>
    let inside := reports.filter (JoinedReport.IsIn d bits bucket)
    ⟨bucket, (Goldilocks.sum (inside.map JoinedReport.value)).toInt, inside.length % Goldilocks.modulus⟩

theorem eq_resultsOf {d : Domain} {reports : List JoinedReport} {bits : ℕ} {results : List BucketResult}
    (h : ∀ r ∈ results, IsExact d reports bits r) :
    results = resultsOf d reports bits (results.map BucketResult.bucket) := by
  rw [resultsOf, List.map_map]
  refine (List.map_id results).symm.trans (List.map_congr_left fun r hr => ?_)
  obtain ⟨hsum, hcount, -⟩ := h r hr
  exact congrArg₂ (BucketResult.mk r.bucket) hsum hcount

/-- A report in the bucket of zeros, whose value 7 is shared as 3 and 4. -/
def reportSeven : JoinedReport := ⟨⟨Octets.zero 16⟩, Octets.zero 32, .ofNat 3, .ofNat 4, [1], [2]⟩

/-- A report in bucket 3 of 3 bits, whose value 5 is shared as 2 and 3. -/
def reportFive : JoinedReport := ⟨⟨Octets.ofNatLittle 16 1⟩, Octets.ofNatLittle 32 0x60, .ofNat 2, .ofNat 3, [5], [6]⟩

/-- The first round finds both reports in the first of two buckets, the second tells them apart below it. One helper adds up
    directly, the other by segments of three buckets. -/
theorem intermediate_of_inStep_seven :
    let F : PointFunction BucketShare := ⟨.oneThree, .standard BucketShare⟩
    let top : Expansion := ⟨[0], [[]], none⟩
    let below : Expansion := ⟨[1], [[0]], some 0⟩
    let segmented : CombineParams := { CombineParams.default with direct := false, segmentLength := 3 }
    let tape : RandomTape := ⟨fun _ => 0, 0, none⟩
    ∃ recordsOne recordsTwo ha hb ha' hb' a b a' b', Exchanged F [reportSeven, reportFive] recordsOne recordsTwo ∧
      aggregate F top .default .none (.ofRecords recordsOne) tape = ((.ok ha, a), tape) ∧
      aggregate F top segmented .none (.ofRecords recordsTwo) tape = ((.ok hb, b), tape) ∧
      aggregate F below .default .none a tape = ((.ok ha', a'), tape) ∧
      aggregate F below segmented .none b tape = ((.ok hb', b'), tape) ∧
      Release.intermediate ha hb = .ok [⟨0, 12, 2⟩, ⟨1, 0, 0⟩] ∧
      Release.intermediate ha' hb' = .ok [⟨0, 7, 1⟩, ⟨1, 0, 0⟩, ⟨2, 0, 0⟩, ⟨3, 5, 1⟩] := by
  intro F top below segmented tape
  obtain ⟨one, two, hexchanged⟩ := exists_exchanged F [reportSeven, reportFive]
  have hpaired := paired_ofRecords hexchanged.checkKey.1 hexchanged.checkKey.2
  have hagreeOne := agree_of_reports hexchanged.labels.1 (by decide)
  have hagreeTwo := agree_of_reports hexchanged.labels.2 (by decide)
  have hdefault : CombineParams.default.validate = .ok () := rfl
  have hsegmented : segmented.validate = CombineParams.default.validate := rfl
  rw [hdefault] at hsegmented
  obtain ⟨ha, hb, a, b, hfirst, hsecond, hprevious⟩ := hpaired.exists_round (e := top) (p := ⟨0, 0, #[0], 1⟩)
    ((planRound_eq_ok hpaired.first).mpr ⟨hdefault, rfl⟩) ((planRound_eq_ok hpaired.second).mpr ⟨hsegmented, rfl⟩)
    (hagreeOne _) (hagreeTwo _) tape
  have hnext := (hpaired.round hfirst hsecond).1
  have hplan : below.plan F.domain.hierarchy a.previous = .ok ⟨1, 1, #[0], 3⟩ := by
    rw [hprevious]
    decide +kernel
  have hplanA : planRound F a below .default = .ok ⟨1, 1, #[0], 3⟩ := (planRound_eq_ok hnext.first).mpr ⟨hdefault, hplan⟩
  obtain ⟨ha', hb', a', b', hfirst', hsecond', -⟩ := hnext.exists_round hplanA
    ((planRound_eq_ok hnext.second).mpr ⟨hsegmented, hnext.previous ▸ hplan⟩) (hagreeOne _) (hagreeTwo _) tape
  have hrelease {a b a' b' : EvaluationContext} (hstep : InStep F (.ofRecords one) (.ofRecords two) a b) {e : Expansion}
      {p : Plan} (hplan : planRound F a e .default = .ok p) {ha hb : PartialHistogram}
      (hfirst : aggregate F e .default .none a tape = ((.ok ha, a'), tape))
      (hsecond : aggregate F e segmented .none b tape = ((.ok hb, b'), tape)) : Release.intermediate ha hb =
        .ok (resultsOf F.domain [reportSeven, reportFive] p.targetBits.toNat p.buckets.toList) := by
    obtain ⟨q, results, hq, -, hresults, hbuckets, -, hexact⟩ :=
      (intermediate_of_inStep F [reportSeven, reportFive]).2 _ _ hexchanged _ _ hstep _ _ _ _ _ _ _ _ _ _ _ hfirst hsecond
    cases hq.symm.trans hplan
    rw [hresults, eq_resultsOf hexact, hbuckets]
  refine ⟨one, two, ha, hb, ha', hb', a, b, a', b', hexchanged, hfirst, hsecond, hfirst', hsecond', ?_, ?_⟩
  · refine (hrelease .start ((planRound_eq_ok hpaired.first).mpr ⟨hdefault, rfl⟩) hfirst hsecond).trans ?_
    decide +kernel
  · refine (hrelease (.round .start hfirst hsecond) hplanA hfirst' hsecond').trans ?_
    decide +kernel

end PrivateHistogram.Aggregation
