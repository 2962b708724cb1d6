import PrivateHistogram.Release
import PrivateHistogram.Proofs.Aggregation.Labels
import PrivateHistogram.Proofs.Aggregation.Totals

/-! One round without noise. Started from a context in order, a round gives the totals of the key halves at the
    buckets of its plan (`IsHistogram`) or finds two bucket keys in one bucket, and leaves a context in order
    (`aggregate_eq`, `settled_of_aggregate`). -/

namespace PrivateHistogram.Aggregation

open PointFunction

variable {F : PointFunction BucketShare}

/-! ### What a round starts from -/

/-- A context between two rounds: its caches hold only nodes that have been reached, and the last round has
    stopped at the buckets of a plan. -/
structure Settled (F : PointFunction BucketShare) (context : EvaluationContext) : Prop where
  order : InOrder F context.records context.caches
  previous : Stopped F.domain context.previous

theorem settled_ofRecords {records : List KeyRecord} (hkeys : ∀ r ∈ records, F.checkKey r.key = .ok ()) :
    Settled F (.ofRecords records) where
  order := ⟨hkeys, soundAll_empty F records⟩
  previous := stopped_none F.domain

theorem segmentLength_of_validate {c : CombineParams} (h : c.validate = .ok ()) (hdirect : c.direct = false) :
    c.segmentLength ≠ 0 := by
  intro hzero
  rw [CombineParams.validate, hdirect, hzero] at h
  simp at h

/-- A round has a plan exactly if its parameters are in order, there is a cache for each key half, and its expansion
    has a plan. -/
theorem planRound_iff {context : EvaluationContext} {e : Expansion} {c : CombineParams} {p : Plan} :
    planRound F context e c = .ok p ↔ c.validate = .ok () ∧ context.records.length = context.caches.length ∧
      e.plan F.domain.hierarchy context.previous = .ok p := by
  rw [planRound, bind_eq_ok]
  by_cases hlength : context.caches.length = context.records.length
  · simp only [if_neg (not_not_intro hlength)]
    exact ⟨fun ⟨_, hc, hp⟩ => ⟨hc, hlength.symm, mapError_eq_ok.mp hp⟩, fun ⟨hc, _, hp⟩ => ⟨(), hc, mapError_eq_ok.mpr hp⟩⟩
  · simp only [if_pos hlength]
    exact ⟨fun ⟨_, _, hp⟩ => (nomatch hp), fun ⟨_, hsame, _⟩ => absurd hsame.symm hlength⟩

theorem planRound_eq {context : EvaluationContext} (h : Settled F context) (e : Expansion) (c : CombineParams) :
    planRound F context e c = (c.validate >>= fun _ =>
      (e.plan F.domain.hierarchy context.previous).mapError Error.pointFunction) := by
  rw [planRound, if_neg (not_not_intro h.order.sound.length_eq.symm)]

theorem planRound_eq_ok {context : EvaluationContext} (h : Settled F context) {e : Expansion} {c : CombineParams}
    {p : Plan} : planRound F context e c = .ok p ↔
      c.validate = .ok () ∧ e.plan F.domain.hierarchy context.previous = .ok p :=
  planRound_iff.trans (and_congr_right' (and_iff_right h.order.sound.length_eq))

/-! ### The histogram -/

/-- The histogram of a plan without noise: the totals of all key halves at its buckets. -/
structure IsHistogram (F : PointFunction BucketShare) (p : Plan) (records : List KeyRecord) (labels : Labels)
    (h : PartialHistogram) : Prop where
  bucketBits : h.bucketBits = p.targetBits
  bitLength : h.bitLength = F.domain.bitLength
  mem : ∀ b, b ∈ h.buckets ↔ b ∈ p.buckets.toList
  share : ∀ b ∈ p.buckets.toList, h.share b = totalShare F records p.targetBits.toNat b
  labels : h.labels = labels
  privacy : h.privacy = none

theorem IsHistogram.share_eq_zero {F : PointFunction BucketShare} {p : Plan} {records : List KeyRecord} {labels : Labels}
    {h : PartialHistogram} (hh : IsHistogram F p records labels h) {b : UInt64} (hb : b ∉ p.buckets.toList) :
      h.share b = 0 := by
  rw [PartialHistogram.share, Std.ExtTreeMap.getElem?_eq_none (mt (hh.mem b).mp hb)]
  rfl

theorem getElem?_ofList_zip {α : Type} {buckets : List UInt64} (hbuckets : buckets.Pairwise (· < ·)) (value : UInt64 → α)
    {b : UInt64} (hb : b ∈ buckets) :
    (Std.ExtTreeMap.ofList (buckets.zip (buckets.map value)) compare)[b]? = some (value b) := by
  have hzip : buckets.zip (buckets.map value) = buckets.map fun b => (b, value b) := by
    simpa using List.zip_map' (f := id) (g := value) (l := buckets)
  rw [hzip]
  refine Std.ExtTreeMap.getElem?_ofList_of_mem Std.ReflCmp.compare_self ?_ (List.mem_map.mpr ⟨b, hb, rfl⟩)
  rw [List.pairwise_map]
  exact hbuckets.imp fun hlt heq => UInt64.ne_of_lt hlt (Std.LawfulEqCmp.eq_of_compare heq)

theorem mem_ofList_zip {α : Type} {buckets : List UInt64} (value : UInt64 → α) {b : UInt64} :
    b ∈ Std.ExtTreeMap.ofList (buckets.zip (buckets.map value)) compare ↔ b ∈ buckets := by
  rw [Std.ExtTreeMap.mem_ofList, List.map_fst_zip (by simp), List.contains_iff_mem]

/-- The sums of shares, put into the shares. -/
theorem zipWith_sums_self (shares : List BucketShare) :
    shares.zipWith (fun share sum => { share with sum }) (shares.map BucketShare.sum) = shares := by
  rw [List.zipWith_map_right, List.zipWith_self]
  exact List.map_id _

/-- The run of a histogram: the labels are refused or not after the noise has been drawn. -/
theorem histogram_run (p : Plan) (n : Noise) (labels : List BucketLabel) (totals : Array BucketShare)
    (boundaries : List UInt64) (tape : RandomTape) :
    histogram F p n labels totals boundaries tape =
      match Labels.addAll (planLabels F p labels) ∅, n.addTo (totals.toList.map BucketShare.sum) tape with
      | (.error e, _), (_, rest) => (.error e, rest)
      | (.ok (), labels), (sums, rest) =>
        (.ok { bucketBits := p.targetBits, bitLength := F.domain.bitLength, labels, boundaries,
               buckets := .ofList (p.buckets.toList.zip (totals.toList.zipWith (fun share sum => { share with sum }) sums)),
               privacy := n.privacy }, rest) := by
  rcases hadd : Labels.addAll (planLabels F p labels) ∅ with ⟨e | u, labels'⟩ <;>
    rcases hsums : n.addTo (totals.toList.map BucketShare.sum) tape with ⟨sums, rest⟩ <;>
    simp only [histogram, hadd] <;>
    exact (Attempt.bind_of_ok (congrArg (Prod.map Except.ok id) hsums)).trans rfl

/-- A histogram that is accepted is that of the labels that have been taken and of the sums with their noise. -/
theorem histogram_of_ok {p : Plan} {n : Noise} {labels : List BucketLabel} {totals : Array BucketShare}
    {boundaries : List UInt64} {h : PartialHistogram} {tape rest : RandomTape}
    (hrun : histogram F p n labels totals boundaries tape = (.ok h, rest)) :
    ∃ labels', Labels.addAll (planLabels F p labels) ∅ = (.ok (), labels') ∧
      h = { bucketBits := p.targetBits, bitLength := F.domain.bitLength, labels := labels', boundaries,
            buckets := .ofList (p.buckets.toList.zip (totals.toList.zipWith (fun share sum => { share with sum })
              (n.addTo (totals.toList.map BucketShare.sum) tape).1)),
            privacy := n.privacy } := by
  rw [histogram_run] at hrun
  rcases hadd : Labels.addAll (planLabels F p labels) ∅ with ⟨e | u, labels'⟩
  · rw [hadd] at hrun
    cases hrun
  · rw [hadd] at hrun
    cases hrun
    exact ⟨labels', rfl, rfl⟩

theorem boundaries_of_histogram {p : Plan} {n : Noise} {labels : List BucketLabel} {totals : Array BucketShare}
    {boundaries : List UInt64} {h : PartialHistogram} {tape rest : RandomTape}
    (hrun : histogram F p n labels totals boundaries tape = (.ok h, rest)) : h.boundaries = boundaries := by
  obtain ⟨_, -, rfl⟩ := histogram_of_ok hrun
  rfl

theorem histogram_eq {p : Plan} (hp : p.Fits F.domain) {records : List KeyRecord} {totals : Array BucketShare}
    (htotals : totals.toList = p.buckets.toList.map (totalShare F records p.targetBits.toNat))
    (labels : List BucketLabel) (boundaries : List UInt64) (tape : RandomTape) :
    match Labels.addAll (planLabels F p labels) ∅ with
    | (.error e, _) => histogram F p .none labels totals boundaries tape = (.error e, tape)
    | (.ok (), labels') => ∃ h, IsHistogram F p records labels' h ∧
        histogram F p .none labels totals boundaries tape = (.ok h, tape) := by
  rw [histogram_run]
  rcases hadd : Labels.addAll (planLabels F p labels) ∅ with ⟨e | u, labels'⟩
  · rfl
  · refine ⟨_, ?_, rfl⟩
    rw [zipWith_sums_self, htotals]
    refine ⟨rfl, rfl, fun b => mem_ofList_zip _, fun b hb => ?_, rfl, rfl⟩
    rw [PartialHistogram.share, getElem?_ofList_zip hp.pairwise_buckets _ hb, Option.getD_some]

/-- A full identifier has more bits than the buckets of a plan by fewer than a word has. -/
theorem labelDepth_lt {p : Plan} (hp : p.Sized F.domain) : F.domain.bitLength - p.targetBits < 64 := by
  have hpos := UInt32.lt_iff_toNat_lt.mp hp.bits_lt
  have hle := F.domain.bitLength_le
  rw [UInt32.lt_iff_toNat_lt, UInt32.toNat_sub_of_le _ _ hp.bits_le]
  change _ < 64
  omega

theorem toNat_bucketOf {p : Plan} (hp : p.Sized F.domain) (id : UInt64) :
    (PartialHistogram.bucketOf (F.domain.bitLength - p.targetBits) id).toNat =
      id.toNat / 2 ^ (F.domain.bitLength.toNat - p.targetBits.toNat) := by
  have hlt := labelDepth_lt hp
  rw [PartialHistogram.bucketOf, if_pos hlt, UInt64.toNat_shiftRight, UInt32.toNat_toUInt64,
    Nat.mod_eq_of_lt (show _ < 64 from UInt32.lt_iff_toNat_lt.mp hlt), UInt32.toNat_sub_of_le _ _ hp.bits_le,
    Nat.shiftRight_eq_div_pow]

theorem mem_planLabels {p : Plan} (hp : p.Fits F.domain) {labels : List BucketLabel} {b : UInt64} {l : BucketLabel} :
    (b, l) ∈ planLabels F p labels ↔ l ∈ labels ∧ l.bucketId = b ∧
      PartialHistogram.bucketOf (F.domain.bitLength - p.targetBits) l.bucketId ∈ p.buckets.toList := by
  simp only [planLabels, List.mem_map, List.mem_filter, Prod.mk.injEq, hp.frontier.contains_iff, Plan.mem_buckets]
  constructor
  · rintro ⟨_, ⟨hl, hb⟩, rfl, rfl⟩
    exact ⟨hl, rfl, hb⟩
  · rintro ⟨hl, rfl, hb⟩
    exact ⟨l, ⟨hl, hb⟩, rfl, rfl⟩

/-- Labels disagree in no plan if those of one bucket are of one bucket key. -/
theorem agree_planLabels {labels : List BucketLabel} (h : ∀ l ∈ labels, ∀ l' ∈ labels, l.bucketId = l'.bucketId →
      l.aggregationId = l'.aggregationId) (p : Plan) : Labels.Agree (planLabels F p labels) := by
  have hmem {b : UInt64} {l : BucketLabel} (hl : (b, l) ∈ planLabels F p labels) : l ∈ labels ∧ l.bucketId = b := by
    obtain ⟨l, hmem, hpair⟩ := List.mem_map.mp hl
    cases hpair
    exact ⟨List.mem_of_mem_filter hmem, rfl⟩
  intro b l l' hl hl'
  exact h l (hmem hl).1 l' (hmem hl').1 ((hmem hl).2.trans (hmem hl').2.symm)

/-! ### One round -/

/-- A round in three parts: the plan, the totals and the histogram. -/
theorem aggregate_run (e : Expansion) (c : CombineParams) (n : Noise) (context : EvaluationContext) (tape : RandomTape) :
    aggregate F e c n context tape =
      match planRound F context e c with
      | .error e => ((.error e, context), tape)
      | .ok p =>
        match totals F p c context with
        | (.error e, caches) => ((.error (.pointFunction e), { context with caches }), tape)
        | (.ok (totals, boundaries), caches) =>
          match histogram F p n context.labels totals boundaries tape with
          | (.error e, rest) => ((.error e, { context with caches }), rest)
          | (.ok h, rest) =>
            ((.ok h, { context with caches, previousLevel := some p.level, expanded := p.buckets }), rest) := by
  rw [aggregate]
  cases planRound F context e c with
  | error e => rfl
  | ok p =>
    rcases htotals : totals F p c context with ⟨_ | ⟨result, boundaries⟩, caches⟩
    · simp only [htotals]
      rfl
    · rcases hrun : histogram F p n context.labels result boundaries tape with ⟨_ | h, rest⟩ <;>
        simp only [htotals, ExceptT.run, bind, StateT.bind, hrun] <;> rfl

/-- A round without noise over a context in order: only labels can still be refused, and either way the caches
    are kept in order. -/
theorem aggregate_eq {context : EvaluationContext} (hcontext : Settled F context) {e : Expansion} {c : CombineParams}
    {p : Plan} (hplan : planRound F context e c = .ok p) (tape : RandomTape) :
    ∃ caches, InOrder F context.records caches ∧
      match Labels.addAll (planLabels F p context.labels) ∅ with
      | (.error e', _) => aggregate F e c .none context tape = ((.error e', { context with caches }), tape)
      | (.ok (), labels) => ∃ h, IsHistogram F p context.records labels h ∧
          aggregate F e c .none context tape =
            ((.ok h, { context with caches, previousLevel := some p.level, expanded := p.buckets }), tape) := by
  obtain ⟨hvalidate, hexpansion⟩ := (planRound_eq_ok hcontext).mp hplan
  have hp := fits_of_plan hcontext.previous hexpansion
  obtain ⟨result, boundaries, caches, htotals, horder, hresult⟩ :=
    totals_eq hp (segmentLength_of_validate hvalidate) hcontext.order
  have hhistogram := histogram_eq hp hresult context.labels boundaries tape
  refine ⟨caches, horder, ?_⟩
  rcases hadd : Labels.addAll (planLabels F p context.labels) ∅ with ⟨e' | u, labels⟩
  · rw [hadd] at hhistogram
    simp only [aggregate_run, hplan, htotals, hhistogram]
  · rw [hadd] at hhistogram
    obtain ⟨h, hh, hrun⟩ := hhistogram
    refine ⟨h, hh, ?_⟩
    simp only [aggregate_run, hplan, htotals, hrun]

theorem aggregate_eq_error {context : EvaluationContext} {e : Expansion} {c : CombineParams} {error : Error}
    (hplan : planRound F context e c = .error error) (tape : RandomTape) :
    aggregate F e c .none context tape = ((.error error, context), tape) := by
  rw [aggregate_run, hplan]

theorem aggregate_of_agree {context : EvaluationContext} (hcontext : Settled F context) {e : Expansion} {c : CombineParams}
    {p : Plan} (hplan : planRound F context e c = .ok p) (hagree : Labels.Agree (planLabels F p context.labels))
    (tape : RandomTape) :
    ∃ h labels caches, aggregate F e c .none context tape =
        ((.ok h, { context with caches, previousLevel := some p.level, expanded := p.buckets }), tape) ∧
      IsHistogram F p context.records labels h ∧ Labels.Smallest (planLabels F p context.labels) labels := by
  obtain ⟨labels, hadd, hsmallest⟩ := Labels.addAll_smallest hagree
  obtain ⟨caches, -, houtcome⟩ := aggregate_eq hcontext hplan tape
  rw [hadd] at houtcome
  obtain ⟨h, hh, hrun⟩ := houtcome
  exact ⟨h, labels, caches, hrun, hh, hsmallest⟩

/-- After a round that is accepted the context is in order again, and has stopped at the buckets of the plan. -/
theorem settled_of_aggregate {context context' : EvaluationContext} (hcontext : Settled F context) {e : Expansion}
    {c : CombineParams} {h : PartialHistogram} {tape rest : RandomTape}
    (hrun : aggregate F e c .none context tape = ((.ok h, context'), rest)) :
    ∃ p labels, planRound F context e c = .ok p ∧ p.Fits F.domain ∧ IsHistogram F p context.records labels h ∧
      Settled F context' ∧ context'.records = context.records ∧ context'.previous = some (p.level, p.buckets) := by
  cases hplan : planRound F context e c with
  | error e' =>
    rw [aggregate_run, hplan] at hrun
    cases hrun
  | ok p =>
    have hp := fits_of_plan hcontext.previous ((planRound_eq_ok hcontext).mp hplan).2
    obtain ⟨caches, horder, houtcome⟩ := aggregate_eq hcontext hplan tape
    rcases hadd : Labels.addAll (planLabels F p context.labels) ∅ with ⟨e' | u, labels⟩
    · rw [hadd] at houtcome
      cases houtcome.symm.trans hrun
    · rw [hadd] at houtcome
      obtain ⟨h', hh, hrun'⟩ := houtcome
      cases hrun'.symm.trans hrun
      refine ⟨p, labels, rfl, hp, hh, ⟨horder, fun found hfound => ?_⟩, rfl, rfl⟩
      cases hfound
      exact ⟨p, hp, rfl⟩

theorem IsHistogram.checkCompatible_eq {p : Plan} {records records' : List KeyRecord} {labels labels' : Labels}
    {a b : PartialHistogram} (ha : IsHistogram F p records labels a) (hb : IsHistogram F p records' labels' b) :
    a.checkCompatible b = .ok () := by
  rw [PartialHistogram.checkCompatible, ha.bucketBits, hb.bucketBits, ha.bitLength, hb.bitLength]
  simp

/-- The release of two histograms of one plan lists its buckets in order, with the totals of both helpers. -/
theorem intermediate_eq {p : Plan} (hp : p.Fits F.domain) {records records' : List KeyRecord} {labels labels' : Labels}
    {a b : PartialHistogram} (ha : IsHistogram F p records labels a) (hb : IsHistogram F p records' labels' b) :
    Release.intermediate a b = .ok (p.buckets.toList.map fun bucket =>
      let total := totalShare F (records ++ records') p.targetBits.toNat bucket
      { bucket, sum := total.sum.toInt, count := total.count.val }) := by
  have hkeys : increasing (a.buckets.keys ++ b.buckets.keys) = p.buckets.toList :=
    increasing_eq hp.pairwise_buckets fun x => by
      rw [List.mem_append, Std.ExtTreeMap.mem_keys, Std.ExtTreeMap.mem_keys, ha.mem, hb.mem, or_self]
  rw [Release.intermediate, ha.checkCompatible_eq hb, hkeys]
  refine congrArg Except.ok (List.map_congr_left fun bucket hbucket => ?_)
  rw [Release.bucketResult, ha.share bucket hbucket, hb.share bucket hbucket, totalShare_append]

end PrivateHistogram.Aggregation
