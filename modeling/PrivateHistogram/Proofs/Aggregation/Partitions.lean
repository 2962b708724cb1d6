import PrivateHistogram.Proofs.Aggregation.Segments

/-! Key halves shared out among workers. Each worker makes a histogram of its part without noise, and the histograms are put
    together two at a time. However the halves are shared out, and in whatever order the histograms come, what is found is
    the histogram that one worker finds of all of them, or two bucket keys in one bucket where that worker finds them
    (`run_of_perm`). -/

namespace PrivateHistogram

/-! ### Sums of shares -/

theorem getElem?_foldl_alter {list : List (UInt64 × BucketShare)} (hlist : list.Pairwise fun x y => x.1 ≠ y.1)
    (sums : Std.ExtTreeMap UInt64 BucketShare) (b : UInt64) :
    let result := list.foldl (fun sums x => sums.alter x.1 fun held => some (held.getD 0 + x.2)) sums
    (∀ share, (b, share) ∈ list → result[b]? = some (sums[b]?.getD 0 + share)) ∧
      ((∀ share, (b, share) ∉ list) → result[b]? = sums[b]?) := by
  induction list generalizing sums with
  | nil => exact ⟨nofun, fun _ => rfl⟩
  | cons x list ih =>
    obtain ⟨hx, hlist⟩ := List.pairwise_cons.mp hlist
    obtain ⟨hmem, hnone⟩ := ih hlist (sums.alter x.1 fun held => some (held.getD 0 + x.2))
    rw [Std.ExtTreeMap.getElem?_alter] at hmem hnone
    refine ⟨fun share hshare => ?_, fun hshare => ?_⟩
    · rcases List.mem_cons.mp hshare with rfl | hshare
      · rw [List.foldl_cons, hnone fun share hshare => hx _ hshare rfl, if_pos Std.ReflCmp.compare_self]
      · rw [List.foldl_cons, hmem share hshare, if_neg fun heq => hx _ hshare (Std.LawfulEqCmp.eq_of_compare heq)]
    · rw [List.foldl_cons, hnone fun share hin => hshare share (List.mem_cons_of_mem x hin), if_neg fun heq => ?_]
      obtain rfl := Std.LawfulEqCmp.eq_of_compare heq
      exact hshare x.2 List.mem_cons_self

theorem PartialHistogram.getElem?_addBuckets (a b : Std.ExtTreeMap UInt64 BucketShare) (k : UInt64) :
    (addBuckets a b)[k]? = match b[k]? with
      | none => a[k]?
      | some share => some (a[k]?.getD 0 + share) := by
  have hdistinct : b.toList.Pairwise fun x y => x.1 ≠ y.1 :=
    Std.ExtTreeMap.distinct_keys_toList.imp fun hne heq => hne (Std.compare_eq_iff_eq.mpr heq)
  obtain ⟨hmem, hnone⟩ := getElem?_foldl_alter hdistinct a k
  rw [addBuckets, Std.ExtTreeMap.foldl_eq_foldl_toList]
  cases hk : b[k]? with
  | none =>
    refine hnone fun share hshare => ?_
    cases hk.symm.trans (Std.ExtTreeMap.mem_toList_iff_getElem?_eq_some.mp hshare)
  | some share => exact hmem share (Std.ExtTreeMap.mem_toList_iff_getElem?_eq_some.mpr hk)

namespace Aggregation

open PointFunction

variable {F : PointFunction BucketShare} {e : Expansion} {c : CombineParams} {p : Plan}

/-! ### The first round -/

/-- What a first round needs to get as far as the labels. No key half is looked at where there is no segment. -/
structure Ready (F : PointFunction BucketShare) (e : Expansion) (c : CombineParams) (p : Plan) (records : List KeyRecord) :
    Prop where
  validate : c.validate = .ok ()
  plan : e.plan F.domain.hierarchy none = .ok p
  keys : c.direct = false ∧ p.size = 0 ∨ ∀ r ∈ records, F.checkKey r.key = .ok ()

/-- The histogram that a first round without noise makes of key halves. -/
structure IsFirst (F : PointFunction BucketShare) (c : CombineParams) (p : Plan) (records : List KeyRecord)
    (h : PartialHistogram) : Prop where
  histogram : IsHistogram F p records h.labels h
  boundaries : h.boundaries = segmentBoundaries p c
  smallest : Labels.Smallest (planLabels F p (records.filterMap KeyRecord.label)) h.labels
  agree : Labels.Agree (planLabels F p (records.filterMap KeyRecord.label))

namespace Ready
variable {records : List KeyRecord} (h : Ready F e c p records)
include h

theorem fits : p.Fits F.domain := fits_of_plan (stopped_none F.domain) h.plan

theorem of_subset {records' : List KeyRecord} (hsubset : records' ⊆ records) : Ready F e c p records' :=
  ⟨h.validate, h.plan, h.keys.imp_right fun hkeys r hr => hkeys r (hsubset hr)⟩

theorem append {records' : List KeyRecord} (h' : Ready F e c p records') : Ready F e c p (records ++ records') := by
  refine ⟨h.validate, h.plan, ?_⟩
  rcases h.keys with hnone | hkeys
  · exact .inl hnone
  rcases h'.keys with hnone | hkeys'
  · exact .inl hnone
  · exact .inr (List.forall_mem_append.mpr ⟨hkeys, hkeys'⟩)

theorem totals_eq : ∃ result caches, totals F p c (.ofRecords records) = (.ok (result, segmentBoundaries p c), caches) ∧
    result.toList = p.buckets.toList.map (totalShare F records p.targetBits.toNat) := by
  have hc := segmentLength_of_validate h.validate
  have hsound : SoundAll F (EvaluationContext.ofRecords records).records (EvaluationContext.ofRecords records).caches :=
    soundAll_empty F records
  have hfst := totals_fst h.fits.toSized hc hsound.length_eq
  have hchecked : (if c.direct = false ∧ p.size = 0 then .ok () else checkKeys F records) = .ok () := by
    rcases h.keys with hnone | hkeys
    · rw [if_pos hnone]
    · rw [checkKeys_eq_ok.mpr hkeys, ite_self]
  rw [show (EvaluationContext.ofRecords records).records = records from rfl, hchecked] at hfst
  rcases htotals : totals F p c (.ofRecords records) with ⟨result, caches⟩
  rw [htotals] at hfst
  cases hfst
  exact ⟨_, _, rfl, toList_of_totals h.fits hc hsound htotals⟩

/-- A first round that gets as far as the labels is accepted exactly if they agree. -/
theorem aggregate_cases (tape : RandomTape) :
    (∃ histogram, (aggregate F e c .none (.ofRecords records) tape).1.1 = .ok histogram ∧ IsFirst F c p records histogram) ∨
    ∃ b, (aggregate F e c .none (.ofRecords records) tape).1.1 = .error (.bucketCollision b) ∧
      ¬Labels.Agree (planLabels F p (records.filterMap KeyRecord.label)) := by
  have hplan : planRound F (.ofRecords records) e c = .ok p :=
    planRound_iff.mpr ⟨h.validate, (soundAll_empty F records).length_eq, h.plan⟩
  obtain ⟨result, caches, htotals, hresult⟩ := h.totals_eq
  have hhistogram := histogram_eq h.fits hresult (records.filterMap KeyRecord.label) (segmentBoundaries p c) tape
  rw [aggregate_run]
  simp only [hplan, htotals, show (EvaluationContext.ofRecords records).labels = records.filterMap KeyRecord.label from rfl]
  rcases Labels.addAll_cases (planLabels F p (records.filterMap KeyRecord.label)) with
    ⟨labels, hadd, hsmallest, hagree⟩ | ⟨b, labels, hadd, hnot⟩
  · rw [hadd] at hhistogram
    obtain ⟨found, hfound, hrun⟩ := hhistogram
    rw [hrun]
    exact .inl ⟨found, rfl, hfound.labels.symm ▸ hfound, boundaries_of_histogram hrun,
      hfound.labels.symm ▸ hsmallest, hagree⟩
  · rw [hadd] at hhistogram
    rw [hhistogram]
    exact .inr ⟨b, rfl, hnot⟩

end Ready

theorem planRound_ne_collision {context : EvaluationContext} {error : Error} (h : planRound F context e c = .error error)
    (b : UInt64) :
    error ≠ .bucketCollision b := by
  rintro rfl
  rw [planRound, bind_eq_error] at h
  rcases h with hvalidate | ⟨-, -, h⟩
  · rw [CombineParams.validate] at hvalidate
    split at hvalidate
    · cases hvalidate
    · obtain ⟨_, -, hcause⟩ := mapError_eq_error.mp hvalidate
      cases hcause
  · by_cases hlength : context.caches.length = context.records.length
    · rw [if_neg (not_not_intro hlength)] at h
      obtain ⟨_, -, hcause⟩ := mapError_eq_error.mp h
      cases hcause
    · rw [if_pos hlength] at h
      cases h

/-- A first round that does not get as far as the labels finds no two bucket keys in one bucket. -/
theorem ready_or_error (F : PointFunction BucketShare) (e : Expansion) (c : CombineParams) (records : List KeyRecord)
    (tape : RandomTape) : (∃ p, Ready F e c p records) ∨
      ∃ error, (aggregate F e c .none (.ofRecords records) tape).1.1 = .error error ∧ ∀ b, error ≠ .bucketCollision b := by
  rw [aggregate_run]
  cases hplan : planRound F (.ofRecords records) e c with
  | error error => exact .inr ⟨error, rfl, planRound_ne_collision hplan⟩
  | ok p =>
    obtain ⟨hvalidate, hlength, hexpansion⟩ := planRound_iff.mp hplan
    by_cases hnone : c.direct = false ∧ p.size = 0
    · exact .inl ⟨p, hvalidate, hexpansion, .inl hnone⟩
    cases hcheck : checkKeys F records with
    | ok u => exact .inl ⟨p, hvalidate, hexpansion, .inr (checkKeys_eq_ok.mp hcheck)⟩
    | error cause =>
      have hfst := totals_fst (sized_of_plan hexpansion) (segmentLength_of_validate hvalidate) hlength
      rw [if_neg hnone, show (EvaluationContext.ofRecords records).records = records from rfl, hcheck] at hfst
      dsimp only
      generalize totals F p c (.ofRecords records) = found at hfst ⊢
      obtain ⟨_, caches⟩ := found
      subst hfst
      exact .inr ⟨.pointFunction cause, rfl, nofun⟩

/-- A first round without noise goes by which key halves there are and by the order of their labels. -/
theorem aggregate_of_perm {records records' : List KeyRecord} (hperm : records.Perm records')
    (hlabels : records'.filterMap KeyRecord.label = records.filterMap KeyRecord.label) {tape : RandomTape}
    {h : PartialHistogram} (hok : (aggregate F e c .none (.ofRecords records) tape).1.1 = .ok h) :
    (aggregate F e c .none (.ofRecords records') tape).1.1 = .ok h := by
  obtain ⟨p, hready⟩ | ⟨error, herror, -⟩ := ready_or_error F e c records tape
  · have hready' : Ready F e c p records' := hready.of_subset hperm.symm.subset
    have hplan (list : List KeyRecord) : planRound F (.ofRecords list) e c = .ok p :=
      planRound_iff.mpr ⟨hready.validate, (soundAll_empty F list).length_eq, hready.plan⟩
    obtain ⟨result, caches, htotals, hresult⟩ := hready.totals_eq
    obtain ⟨result', caches', htotals', hresult'⟩ := hready'.totals_eq
    have hsame : result' = result := by
      refine Array.toList_inj.mp (hresult'.trans (Eq.trans ?_ hresult.symm))
      exact List.map_congr_left fun b _ => (totalShare_perm F hperm _ b).symm
    have hlabels' : (EvaluationContext.ofRecords records').labels = (EvaluationContext.ofRecords records).labels := hlabels
    rw [aggregate_run] at hok ⊢
    simp only [hplan, htotals] at hok
    simp only [hplan, htotals', hlabels', hsame]
    rcases hrun : histogram F p .none (EvaluationContext.ofRecords records).labels result (segmentBoundaries p c) tape with
      ⟨error | found, rest⟩ <;> rw [hrun] at hok
    · cases hok
    · exact hok
  · cases herror.symm.trans hok

/-! ### Putting histograms together -/

section Histograms
variable {one two : List KeyRecord} {a b : PartialHistogram}

theorem IsHistogram.getElem?_buckets {labels : Labels} (ha : IsHistogram F p one labels a) (k : UInt64) :
    a.buckets[k]? = if k ∈ p.buckets.toList then some (totalShare F one p.targetBits.toNat k) else none := by
  split
  · rename_i hk
    have hheld := Std.ExtTreeMap.getElem?_eq_some_getElem ((ha.mem k).mpr hk)
    have hshare := ha.share k hk
    rw [PartialHistogram.share, hheld, Option.getD_some] at hshare
    rw [hheld, hshare]
  · rename_i hk
    exact Std.ExtTreeMap.getElem?_eq_none (mt (ha.mem k).mp hk)

theorem IsHistogram.add {labelsA labelsB : Labels} (ha : IsHistogram F p one labelsA a) (hb : IsHistogram F p two labelsB b)
    (labels : Labels) (boundaries : List UInt64) :
    IsHistogram F p (one ++ two) labels
      { a with buckets := PartialHistogram.addBuckets a.buckets b.buckets, labels, boundaries } := by
  have hget (k : UInt64) : (PartialHistogram.addBuckets a.buckets b.buckets)[k]? =
      if k ∈ p.buckets.toList then some (totalShare F (one ++ two) p.targetBits.toNat k) else none := by
    rw [PartialHistogram.getElem?_addBuckets, ha.getElem?_buckets, hb.getElem?_buckets]
    by_cases hk : k ∈ p.buckets.toList
    · simp only [if_pos hk, Option.getD_some, totalShare_append]
    · simp only [if_neg hk]
  refine ⟨ha.bucketBits, ha.bitLength, fun k => ?_, fun k hk => ?_, rfl, ha.privacy⟩
  · rw [Std.ExtTreeMap.mem_iff_isSome_getElem?, hget]
    split <;> simp_all
  · rw [PartialHistogram.share, hget, if_pos hk, Option.getD_some]

theorem planLabels_subset (hp : p.Fits F.domain) (hsubset : one ⊆ two) :
    planLabels F p (one.filterMap KeyRecord.label) ⊆ planLabels F p (two.filterMap KeyRecord.label) := by
  rintro ⟨b, l⟩ hl
  rw [mem_planLabels hp] at hl ⊢
  exact ⟨List.filterMap_subset KeyRecord.label hsubset hl.1, hl.2⟩

theorem planLabels_append (labels labels' : List BucketLabel) :
    planLabels F p (labels ++ labels') = planLabels F p labels ++ planLabels F p labels' := by
  rw [planLabels, List.filter_append, List.map_append]
  rfl

/-- Histograms of two parts are put together to that of both, exactly if the labels of both agree. -/
theorem IsFirst.accumulate_cases (hp : p.Fits F.domain) (hc : c.direct = false → c.segmentLength ≠ 0)
    (ha : IsFirst F c p one a) (hb : IsFirst F c p two b) :
    (∃ h, PartialHistogram.accumulate b a = (.ok (), h) ∧ IsFirst F c p (one ++ two) h) ∨
    ∃ bucket h, PartialHistogram.accumulate b a = (.error (.bucketCollision bucket), h) ∧
      ¬Labels.Agree (planLabels F p ((one ++ two).filterMap KeyRecord.label)) := by
  have hprivacy : (a.privacy != b.privacy) = false := by
    rw [ha.histogram.privacy, hb.histogram.privacy]
    rfl
  have hboundaries : increasing (a.boundaries ++ b.boundaries) = segmentBoundaries p c := by
    rw [ha.boundaries, hb.boundaries]
    exact increasing_eq (pairwise_segmentBoundaries hp.toSized hc) fun x => by rw [List.mem_append, or_self]
  have hlabels : planLabels F p ((one ++ two).filterMap KeyRecord.label) =
      planLabels F p (one.filterMap KeyRecord.label) ++ planLabels F p (two.filterMap KeyRecord.label) := by
    rw [List.filterMap_append, planLabels_append]
  rw [PartialHistogram.accumulate, ha.histogram.checkCompatible_eq hb.histogram]
  simp only [hprivacy, Bool.false_eq_true, if_false, hboundaries]
  rcases ha.smallest.addAll_toList_cases ha.agree hb.smallest hb.agree with
    ⟨labels, hadd, hsmallest, hagree⟩ | ⟨bucket, labels, hadd, hnot⟩
  · rw [hadd]
    exact .inl ⟨_, rfl, ha.histogram.add hb.histogram labels _, rfl, hlabels ▸ hsmallest, hlabels ▸ hagree⟩
  · rw [hadd]
    exact .inr ⟨bucket, _, rfl, hlabels ▸ hnot⟩

/-- Where no two labels are of one report, the order of the key halves makes no difference. -/
theorem IsFirst.unique (hp : p.Fits F.domain) (ha : IsFirst F c p one a) (hb : IsFirst F c p two b) (hperm : one.Perm two)
    (hids : ((one.filterMap KeyRecord.label).map BucketLabel.reportId).Nodup) : a = b := by
  have hbuckets : a.buckets = b.buckets := Std.ExtTreeMap.ext_getElem? fun k => by
    rw [ha.histogram.getElem?_buckets, hb.histogram.getElem?_buckets, totalShare_perm F hperm]
  have hlabels : a.labels = b.labels := by
    refine ha.smallest.unique hb.smallest (fun x => ?_) fun k l l' hl hl' => ?_
    · exact ⟨fun hx => planLabels_subset hp hperm.subset hx, fun hx => planLabels_subset hp hperm.symm.subset hx⟩
    · exact List.inj_on_of_nodup_map hids ((mem_planLabels hp).mp hl).1 ((mem_planLabels hp).mp hl').1
  have hbits : a.bucketBits = b.bucketBits := ha.histogram.bucketBits.trans hb.histogram.bucketBits.symm
  have hlength : a.bitLength = b.bitLength := ha.histogram.bitLength.trans hb.histogram.bitLength.symm
  have hboundaries : a.boundaries = b.boundaries := ha.boundaries.trans hb.boundaries.symm
  have hprivacy : a.privacy = b.privacy := ha.histogram.privacy.trans hb.histogram.privacy.symm
  cases a
  cases b
  cases hbits
  cases hlength
  cases hbuckets
  cases hlabels
  cases hboundaries
  cases hprivacy
  rfl

end Histograms

/-! ### Workers -/

/-- How key halves are shared out among workers, each with its own source of randomness, and in which order their histograms
    are put together. -/
inductive Partition
  | part (records : List KeyRecord) (tape : RandomTape)
  | join (left right : Partition)

namespace Partition

def parts : Partition → List (List KeyRecord × RandomTape)
  | part records tape => [(records, tape)]
  | join left right => left.parts ++ right.parts

def records (t : Partition) : List KeyRecord := t.parts.flatMap Prod.fst

/-- Each worker makes its histogram, and then histograms are added to others until there is only one. -/
def run (F : PointFunction BucketShare) (e : Expansion) (c : CombineParams) : Partition → Except Error PartialHistogram
  | part records tape => (aggregate F e c .none (.ofRecords records) tape).1.1
  | join left right => do
    let h ← left.run F e c
    let other ← right.run F e c
    let (result, h) := PartialHistogram.accumulate other h
    result.map fun () => h

theorem records_part (records : List KeyRecord) (tape : RandomTape) : (part records tape).records = records :=
  List.append_nil records

theorem records_join (left right : Partition) : (join left right).records = left.records ++ right.records :=
  List.flatMap_append

theorem run_join_eq_ok {left right : Partition} {h : PartialHistogram} :
    (join left right).run F e c = .ok h ↔ ∃ a b, left.run F e c = .ok a ∧ right.run F e c = .ok b ∧
      PartialHistogram.accumulate b a = (.ok (), h) := by
  rw [run, bind_eq_ok]
  simp only [bind_eq_ok]
  constructor
  · rintro ⟨a, ha, b, hb, hresult⟩
    refine ⟨a, b, ha, hb, ?_⟩
    rcases haccumulate : PartialHistogram.accumulate b a with ⟨_ | u, h'⟩
    · rw [haccumulate] at hresult
      cases hresult
    · rw [haccumulate] at hresult
      cases hresult
      rfl
  · rintro ⟨a, b, ha, hb, haccumulate⟩
    exact ⟨a, ha, b, hb, by rw [haccumulate]; rfl⟩

theorem exists_of_run {t : Partition} {h : PartialHistogram} (hrun : t.run F e c = .ok h) :
    ∀ part ∈ t.parts, ∃ h', (aggregate F e c .none (.ofRecords part.1) part.2).1.1 = .ok h' := by
  induction t generalizing h with
  | part records tape =>
    intro part hpart
    obtain rfl := List.mem_singleton.mp hpart
    exact ⟨h, hrun⟩
  | join left right ihl ihr =>
    obtain ⟨a, b, ha, hb, -⟩ := run_join_eq_ok.mp hrun
    exact List.forall_mem_append.mpr ⟨ihl ha, ihr hb⟩

theorem ready_of_run {t : Partition} {h : PartialHistogram} (hrun : t.run F e c = .ok h) :
    ∃ p, Ready F e c p t.records := by
  induction t generalizing h with
  | part records tape =>
    rw [records_part]
    rcases ready_or_error F e c records tape with hready | ⟨error, herror, -⟩
    · exact hready
    · cases hrun.symm.trans herror
  | join left right ihl ihr =>
    obtain ⟨a, b, ha, hb, -⟩ := run_join_eq_ok.mp hrun
    obtain ⟨p, hleft⟩ := ihl ha
    obtain ⟨q, hright⟩ := ihr hb
    cases hleft.plan.symm.trans hright.plan
    rw [records_join]
    exact ⟨p, hleft.append hright⟩

/-- Workers that get as far as the labels find the histogram of all key halves exactly if all labels agree. -/
theorem run_cases {t : Partition} (h : Ready F e c p t.records) :
    (∃ histogram, t.run F e c = .ok histogram ∧ IsFirst F c p t.records histogram) ∨
    ∃ b, t.run F e c = .error (.bucketCollision b) ∧
      ¬Labels.Agree (planLabels F p (t.records.filterMap KeyRecord.label)) := by
  induction t with
  | part records tape =>
    rw [records_part] at h ⊢
    exact h.aggregate_cases tape
  | join left right ihl ihr =>
    rw [records_join] at h ⊢
    have hleft : left.records ⊆ left.records ++ right.records := List.subset_append_left _ _
    have hright : right.records ⊆ left.records ++ right.records := List.subset_append_right _ _
    rcases ihl (h.of_subset hleft) with ⟨a, ha, hfirst⟩ | ⟨b, herror, hnot⟩
    · rcases ihr (h.of_subset hright) with ⟨b, hb, hsecond⟩ | ⟨b, herror, hnot⟩
      · rcases hfirst.accumulate_cases h.fits (segmentLength_of_validate h.validate) hsecond with
          ⟨found, hrun, hfound⟩ | ⟨bucket, found, hrun, hnot⟩
        · exact .inl ⟨found, run_join_eq_ok.mpr ⟨a, b, ha, hb, hrun⟩, hfound⟩
        · refine .inr ⟨bucket, ?_, hnot⟩
          simp only [run, ha, hb, bind, Except.bind, hrun]
          rfl
      · refine .inr ⟨b, ?_, fun hagree => hnot (hagree.of_subset (planLabels_subset h.fits hright))⟩
        simp only [run, ha, herror]
        rfl
    · refine .inr ⟨b, ?_, fun hagree => hnot (hagree.of_subset (planLabels_subset h.fits hleft))⟩
      simp only [run, herror]
      rfl

theorem run_eq_ok_of_perm {t t' : Partition} (hperm : t.records.Perm t'.records)
    (hids : ((t.records.filterMap KeyRecord.label).map BucketLabel.reportId).Nodup) {h : PartialHistogram}
    (hrun : t.run F e c = .ok h) : t'.run F e c = .ok h := by
  obtain ⟨p, hready⟩ := ready_of_run hrun
  rcases run_cases hready with ⟨found, hfound, hfirst⟩ | ⟨b, herror, -⟩
  · cases hrun.symm.trans hfound
    rcases run_cases (hready.of_subset hperm.symm.subset) with ⟨found, hfound, hsecond⟩ | ⟨b, -, hnot⟩
    · rw [hfound, hfirst.unique hready.fits hsecond hperm hids]
    · exact absurd (hfirst.agree.of_subset (planLabels_subset hready.fits hperm.symm.subset)) hnot
  · cases hrun.symm.trans herror

theorem run_eq_ok_iff {t t' : Partition} (hperm : t.records.Perm t'.records)
    (hids : ((t.records.filterMap KeyRecord.label).map BucketLabel.reportId).Nodup) {h : PartialHistogram} :
    t.run F e c = .ok h ↔ t'.run F e c = .ok h := by
  refine ⟨run_eq_ok_of_perm hperm hids, run_eq_ok_of_perm hperm.symm ?_⟩
  exact (((hperm.filterMap KeyRecord.label).map BucketLabel.reportId).nodup_iff).mp hids

theorem run_eq_error_of_perm {records : List KeyRecord} {tape : RandomTape} {bucket : UInt64}
    (hcollision : (aggregate F e c .none (.ofRecords records) tape).1.1 = .error (.bucketCollision bucket)) {t : Partition}
    (hperm : t.records.Perm records) : ∃ bucket', t.run F e c = .error (.bucketCollision bucket') := by
  rcases ready_or_error F e c records tape with ⟨p, hready⟩ | ⟨error, herror, hne⟩
  · rcases hready.aggregate_cases tape with ⟨found, hok, -⟩ | ⟨b, -, hnot⟩
    · cases hok.symm.trans hcollision
    · rcases run_cases (hready.of_subset hperm.subset) with ⟨found, -, hfirst⟩ | ⟨bucket', hrun, -⟩
      · exact absurd (hfirst.agree.of_subset (planLabels_subset hready.fits hperm.symm.subset)) hnot
      · exact ⟨bucket', hrun⟩
  · cases herror.symm.trans hcollision
    exact absurd rfl (hne bucket)

end Partition

/-- Key halves whose labels are of distinct reports are shared out among workers, and their histograms put together in any
    order. What is found is the histogram that a single worker finds of all of them: it is found if and only if the single
    worker finds it, and then each of the workers has found its own. If the single worker finds two bucket keys in one
    bucket, a worker finds them too, or they are found when histograms are put together. So the order of the key halves
    makes no difference either. -/
theorem run_of_perm {records : List KeyRecord}
    (hids : ((records.filterMap KeyRecord.label).map BucketLabel.reportId).Nodup) {t : Partition}
    (hparts : t.records.Perm records) (tape : RandomTape) :
    let whole := (aggregate F e c .none (.ofRecords records) tape).1.1
    (∀ h, whole = .ok h ↔ t.run F e c = .ok h) ∧
    (∀ h, whole = .ok h → ∀ part ∈ t.parts, ∃ h', (aggregate F e c .none (.ofRecords part.1) part.2).1.1 = .ok h') ∧
    (∀ bucket, whole = .error (.bucketCollision bucket) → ∃ bucket', t.run F e c = .error (.bucketCollision bucket')) ∧
    ∀ records', records'.Perm records → ∀ tape' h,
      whole = .ok h ↔ (aggregate F e c .none (.ofRecords records') tape').1.1 = .ok h := by
  intro whole
  have hiff {t : Partition} (hparts : t.records.Perm records) (h : PartialHistogram) :
      whole = .ok h ↔ t.run F e c = .ok h :=
    Partition.run_eq_ok_iff (t := .part records tape) (by rw [Partition.records_part]; exact hparts.symm)
      (by rwa [Partition.records_part])
  refine ⟨hiff hparts, fun h hok => Partition.exists_of_run ((hiff hparts h).mp hok), ?_, fun records' hperm tape' h => ?_⟩
  · exact fun bucket hcollision => Partition.run_eq_error_of_perm hcollision hparts
  · exact hiff (t := .part records' tape') (by rwa [Partition.records_part]) h

/-- Two reports of the bucket of zeros, labelled by two workers, and a third worker that has nothing to do. -/
theorem run_of_perm_two :
    let F : PointFunction BucketShare := ⟨.oneThree, .standard BucketShare⟩
    let e : Expansion := ⟨[0], [[]], none⟩
    let tape : RandomTape := ⟨fun _ => 0, 0, none⟩
    let key := (F.keysFrom 0 ⟨.ofNat 7, 1⟩ (Octets.zero 16) (Octets.zero 16)).1
    let first : KeyRecord := ⟨⟨Octets.zero 16⟩, key, some ⟨0, Octets.zero 32, ⟨Octets.zero 16⟩, [1]⟩⟩
    let second : KeyRecord := ⟨⟨Octets.ofNatLittle 16 1⟩, key, some ⟨0, Octets.zero 32, ⟨Octets.ofNatLittle 16 1⟩, [2]⟩⟩
    ∃ h, (aggregate F e .default .none (.ofRecords [first, second]) tape).1.1 = .ok h ∧
      (Partition.join (.part [second] tape) (.join (.part [] tape) (.part [first] tape))).run F e .default = .ok h := by
  intro F e tape key first second
  have hkey : F.checkKey key = .ok () := (checkKey_keysFrom F 0 _ _ _).1
  have hsettled : Settled F (.ofRecords [first, second]) :=
    settled_ofRecords (List.forall_mem_cons.mpr ⟨hkey, List.forall_mem_singleton.mpr hkey⟩)
  have hplan : planRound F (.ofRecords [first, second]) e .default = .ok ⟨0, 0, #[0], 1⟩ :=
    (planRound_eq_ok hsettled).mpr ⟨rfl, rfl⟩
  have hagree : Labels.Agree (planLabels F ⟨0, 0, #[0], 1⟩ (EvaluationContext.ofRecords [first, second]).labels) := by
    have hzero {l : BucketLabel} (hl : l ∈ (EvaluationContext.ofRecords [first, second]).labels) :
        l.aggregationId = Octets.zero 32 := by
      rcases List.mem_cons.mp hl with rfl | hl
      · rfl
      · rw [List.mem_singleton.mp hl]
    exact agree_planLabels (fun l hl l' hl' _ => (hzero hl).trans (hzero hl').symm) _
  obtain ⟨h, labels, caches, hrun, -, -⟩ := aggregate_of_agree hsettled hplan hagree tape
  have hok : (aggregate F e .default .none (.ofRecords [first, second]) tape).1.1 = .ok h := congrArg (·.1.1) hrun
  have hparts : (Partition.join (.part [second] tape) (.join (.part [] tape) (.part [first] tape))).records.Perm
      [first, second] := .swap first second []
  exact ⟨h, hok, ((run_of_perm (by decide) hparts tape).1 h).mp hok⟩

end Aggregation

end PrivateHistogram
