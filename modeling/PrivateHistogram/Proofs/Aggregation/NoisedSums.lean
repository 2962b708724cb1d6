import PrivateHistogram.Proofs.Aggregation.Merges
import PrivateHistogram.Proofs.Aggregation.Runs

/-! Noise touches sums only. A round with noise fails where the round without it does, or puts out the same histogram with
    a sample added to the sum of each bucket (`IsNoised`), and leaves the same context. What is released of two such
    histograms are the same buckets with the same counts (`aggregate_noised`). -/

namespace PrivateHistogram

/-! ### Samples -/

namespace Laplace

/-- The signed integer of 64 bits that is nearest to the difference of two numbers. -/
def clamped (a b : UInt64) : ℤ := max (-2 ^ 63) (min (2 ^ 63 - 1) ((a.toNat : ℤ) - b.toNat))

theorem signed?_of_lt {distance : UInt64} (h : distance.toNat < 2 ^ 63) : signed? distance = some (distance.toNat : ℤ) :=
  if_pos (UInt64.lt_iff_toNat_lt.mpr h)

theorem signed?_of_le {distance : UInt64} (h : 2 ^ 63 ≤ distance.toNat) : signed? distance = none :=
  if_neg fun hlt => h.not_gt (UInt64.lt_iff_toNat_lt.mp hlt)

theorem difference_eq (a b : UInt64) : difference a b = clamped a b := by
  rw [difference, clamped]
  by_cases hle : b ≤ a
  · have hsub := UInt64.toNat_sub_of_le _ _ hle
    have hnat := UInt64.le_iff_toNat_le.mp hle
    rw [if_pos hle]
    rcases Nat.lt_or_ge (a - b).toNat (2 ^ 63) with hlt | hge
    · rw [signed?_of_lt hlt, Option.getD_some]
      omega
    · rw [signed?_of_le hge, Option.getD_none]
      omega
  · have hlt := UInt64.not_le.mp hle
    have hsub := UInt64.toNat_sub_of_le _ _ (UInt64.le_of_lt hlt)
    have hnat := UInt64.lt_iff_toNat_lt.mp hlt
    rw [if_neg hle]
    rcases Nat.lt_or_ge (b - a).toNat (2 ^ 63) with hlt | hge
    · rw [signed?_of_lt hlt, Option.elim_some]
      omega
    · rw [signed?_of_le hge, Option.elim_none]
      omega

/-- The geometric numbers for so many samples, two for each, and the tape after them. -/
def draws (l : Laplace) : ℕ → RandomTape → List (UInt64 × UInt64) × RandomTape
  | 0, tape => ([], tape)
  | count + 1, tape =>
    let first := l.geometric.draw tape
    let second := l.geometric.draw first.2
    let others := draws l count second.2
    ((first.1, second.1) :: others.1, others.2)

/-- So many samples, each made of its two numbers. -/
def samples (l : Laplace) (count : ℕ) (tape : RandomTape) : List ℤ := (l.draws count tape).1.map fun x => clamped x.1 x.2

-- Stated for any draw, since a check that unfolds the geometric one does not come to an end.
theorem twice_eq {σ α β : Type} (draw : σ → α × σ) (f : α → α → β) (s : σ) :
    (let (a, s) := draw s
     let (b, s) := draw s
     (f a b, s)) = (f (draw s).1 (draw (draw s).2).1, (draw (draw s).2).2) := rfl

theorem draw_eq (l : Laplace) (tape : RandomTape) :
    l.draw tape = (clamped (l.geometric.draw tape).1 (l.geometric.draw (l.geometric.draw tape).2).1,
      (l.geometric.draw (l.geometric.draw tape).2).2) := by
  rw [← difference_eq]
  unfold draw
  exact twice_eq l.geometric.draw difference tape

theorem samples_succ (l : Laplace) (count : ℕ) (tape : RandomTape) :
    l.samples (count + 1) tape = (l.draw tape).1 :: l.samples count (l.draw tape).2 := by
  rw [samples, draws, draw_eq]
  exact List.map_cons

theorem draws_succ_snd (l : Laplace) (count : ℕ) (tape : RandomTape) :
    (l.draws (count + 1) tape).2 = (l.draws count (l.draw tape).2).2 := by
  rw [draws, draw_eq]

theorem length_samples (l : Laplace) (count : ℕ) (tape : RandomTape) : (l.samples count tape).length = count := by
  induction count generalizing tape with
  | zero => rfl
  | succ count ih => rw [samples_succ, List.length_cons, ih]

end Laplace

namespace Noise

theorem addTo_none (sums : List Goldilocks) (tape : RandomTape) : none.addTo sums tape = (sums, tape) := rfl

/-- Noise is a sample for each sum in turn. -/
theorem addTo_laplace (params : PrivacyParams) (l : Laplace) (sums : List Goldilocks) (tape : RandomTape) :
    (laplace params l).addTo sums tape =
      (sums.zipWith (fun sum x => sum + .ofInt x) (l.samples sums.length tape), (l.draws sums.length tape).2) := by
  rw [addTo]
  induction sums generalizing tape with
  | nil => rfl
  | cons sum sums ih =>
    have hrun : (do return sum + .ofInt (← l.draw) : Draw Goldilocks) tape =
        (sum + .ofInt (l.draw tape).1, (l.draw tape).2) := by
      generalize (l.draw : Draw ℤ) = x
      rfl
    rw [Draw.mapM_cons_run, hrun, ih, List.length_cons, Laplace.samples_succ, Laplace.draws_succ_snd,
      List.zipWith_cons_cons]

end Noise

/-! ### Histograms with noise -/

/-- A share with noise, which is on its sum and not on its count. -/
def BucketShare.noised (share : BucketShare) (x : ℤ) : BucketShare := { share with sum := share.sum + .ofInt x }

/-- `g` is `h` with noise: to the sum of the first bucket the first sample has been added, and so on through all buckets in
    increasing order. Nothing else is different but the parameters that the noise keeps to. -/
structure IsNoised (params : PrivacyParams) (samples : List ℤ) (h g : PartialHistogram) : Prop where
  length_eq : samples.length = h.buckets.size
  toList_eq : g.buckets.toList = h.buckets.toList.zipWith (fun x sample => (x.1, x.2.noised sample)) samples
  rest : g = { h with buckets := g.buckets, privacy := some params }

/-- The sample of a bucket, where samples stand in the order of the buckets. -/
def sampleOf (h : PartialHistogram) (samples : List ℤ) (bucket : UInt64) : ℤ :=
  samples.getD (h.buckets.keys.idxOf bucket) 0

theorem BucketShare.noised_zero (share : BucketShare) : share.noised 0 = share :=
  BucketShare.ext (Goldilocks.add_zero _) rfl

namespace IsNoised
variable {params : PrivacyParams} {xs : List ℤ} {h g : PartialHistogram} (hg : IsNoised params xs h g)
include hg

theorem keys_eq : g.buckets.keys = h.buckets.keys := by
  rw [← Std.ExtTreeMap.map_fst_toList_eq_keys, ← Std.ExtTreeMap.map_fst_toList_eq_keys, hg.toList_eq]
  refine List.ext_getElem ?_ fun i hi hi' => ?_
  · simp [hg.length_eq]
  · rw [List.getElem_map, List.getElem_map, List.getElem_zipWith]

theorem labels_eq : g.labels = h.labels := by rw [hg.rest]

/-- A bucket stands at the same index as its sample. -/
theorem exists_index {bucket : UInt64} (hbucket : bucket ∈ h.buckets) :
    ∃ (i : ℕ) (share : BucketShare), h.buckets.toList[i]? = some (bucket, share) ∧
    xs[i]? = some (sampleOf h xs bucket) := by
  obtain ⟨i, hi, hshare⟩ := List.mem_iff_getElem.mp
    (Std.ExtTreeMap.mem_toList_iff_getElem?_eq_some.mpr (Std.ExtTreeMap.getElem?_eq_some_getElem hbucket))
  have hlength : i < xs.length := by rwa [hg.length_eq, ← Std.ExtTreeMap.length_toList]
  have hindex : h.buckets.keys.idxOf bucket = i := by
    have hkey : h.buckets.keys[i]? = some bucket := by
      rw [← Std.ExtTreeMap.map_fst_toList_eq_keys, List.getElem?_map, List.getElem?_eq_getElem hi, hshare]
      rfl
    obtain ⟨hi', rfl⟩ := List.getElem?_eq_some_iff.mp hkey
    exact Std.ExtTreeMap.nodup_keys.idxOf_getElem i hi'
  refine ⟨i, _, (List.getElem?_eq_getElem hi).trans (congrArg some hshare), ?_⟩
  rw [sampleOf, hindex, List.getD_eq_getElem _ _ hlength, List.getElem?_eq_getElem hlength]

theorem share_eq (bucket : UInt64) : g.share bucket = (h.share bucket).noised (sampleOf h xs bucket) := by
  by_cases hmem : bucket ∈ h.buckets
  · obtain ⟨i, share, hshare, hsample⟩ := hg.exists_index hmem
    have hnoised : g.buckets.toList[i]? = some (bucket, share.noised (sampleOf h xs bucket)) := by
      rw [hg.toList_eq, List.getElem?_zipWith, hshare, hsample]
    rw [PartialHistogram.share, PartialHistogram.share,
      Std.ExtTreeMap.mem_toList_iff_getElem?_eq_some.mp (List.mem_of_getElem? hshare),
      Std.ExtTreeMap.mem_toList_iff_getElem?_eq_some.mp (List.mem_of_getElem? hnoised)]
    rfl
  · have hsample : sampleOf h xs bucket = 0 := by
      rw [sampleOf, List.idxOf_eq_length (mt Std.ExtTreeMap.mem_keys.mp hmem), Std.ExtTreeMap.length_keys, ← hg.length_eq]
      simp
    have hnone : bucket ∉ g.buckets := by rwa [← Std.ExtTreeMap.mem_keys, hg.keys_eq, Std.ExtTreeMap.mem_keys]
    rw [hsample, BucketShare.noised_zero, PartialHistogram.share, PartialHistogram.share,
      Std.ExtTreeMap.getElem?_eq_none hmem, Std.ExtTreeMap.getElem?_eq_none hnone]

end IsNoised

/-! ### Rounds -/

namespace Aggregation

open PointFunction

variable {F : PointFunction BucketShare} {p : Plan}

theorem zip_zipWith {α β γ δ : Type} (f : β → γ → δ) (as : List α) (bs : List β) (cs : List γ) :
    as.zip (bs.zipWith f cs) = (as.zip bs).zipWith (fun x c => (x.1, f x.2 c)) cs := by
  induction as generalizing bs cs with
  | nil => rfl
  | cons a as ih => cases bs <;> cases cs <;> simp [ih]

/-- To put noise on the sums and then the sums into the shares is to put noise on the shares. -/
theorem zipWith_sums (shares : List BucketShare) (xs : List ℤ) :
    shares.zipWith (fun share sum => { share with sum })
        ((shares.map BucketShare.sum).zipWith (fun sum x => sum + .ofInt x) xs) = shares.zipWith BucketShare.noised xs := by
  induction shares generalizing xs with
  | nil => rfl
  | cons share shares ih =>
    cases xs with
    | nil => rfl
    | cons x xs => exact congrArg (_ :: ·) (ih xs)

/-- The histogram of a plan with noise and the one without: both are refused for a label, or neither. -/
theorem histogram_noised (hp : p.Fits F.domain) {totals : Array BucketShare} (hsize : totals.size = p.size)
    (labels : List BucketLabel) (boundaries : List UInt64) (params : PrivacyParams) (l : Laplace)
    (tape tape' : RandomTape) :
    match (histogram F p .none labels totals boundaries tape').1 with
    | .error error => (histogram F p (.laplace params l) labels totals boundaries tape).1 = .error error
    | .ok h => ∃ g, (histogram F p (.laplace params l) labels totals boundaries tape).1 = .ok g ∧
        IsNoised params (l.samples h.buckets.size tape) h g := by
  rw [histogram_run, histogram_run, Noise.addTo_none, Noise.addTo_laplace]
  rcases Labels.addAll (planLabels F p labels) ∅ with ⟨error | u, labels'⟩
  · rfl
  · have hlength : p.buckets.toList.length = totals.toList.length := by
      rw [Array.length_toList, p.size_buckets, ← hsize, Array.length_toList]
    have htoList {values : List BucketShare} (hvalues : p.buckets.toList.length = values.length) :
        (Std.ExtTreeMap.ofList (p.buckets.toList.zip values) compare).toList = p.buckets.toList.zip values :=
      toList_ofList (by rw [List.map_fst_zip hvalues.le]; exact hp.pairwise_buckets)
    have hcount : (Std.ExtTreeMap.ofList (p.buckets.toList.zip totals.toList) compare).size = totals.toList.length := by
      rw [← Std.ExtTreeMap.length_toList, htoList hlength, List.length_zip, hlength, Nat.min_self]
    dsimp only
    rw [zipWith_sums_self, hcount, List.length_map, zipWith_sums]
    refine ⟨_, rfl, ?_, ?_, rfl⟩
    · rw [Laplace.length_samples]
      exact hcount.symm
    · rw [htoList hlength, htoList (by rw [List.length_zipWith, Laplace.length_samples, Nat.min_self, hlength]),
        zip_zipWith]

variable {records : List KeyRecord} {last : Option PartialHistogram} {context : EvaluationContext}

/-- A round with noise beside the round without. -/
theorem Reached.noised_of_plain (hreached : Reached F records last context) (e : Expansion) (c : CombineParams)
    (params : PrivacyParams) (l : Laplace) (tape tape' : RandomTape) :
    let plain := (Aggregation.aggregate F e c .none context tape').1
    let noised := (Aggregation.aggregate F e c (.laplace params l) context tape).1
    noised.2 = plain.2 ∧
    match plain.1 with
    | .error error => noised.1 = .error error
    | .ok h => ∃ g, noised.1 = .ok g ∧ IsNoised params (l.samples h.buckets.size tape) h g := by
  rw [aggregate_run, aggregate_run]
  cases hplan : planRound F context e c with
  | error error => exact ⟨rfl, rfl⟩
  | ok p =>
    obtain ⟨hvalidate, hlength, hexpansion⟩ := planRound_iff.mp hplan
    have hp := fits_of_plan hreached.previous hexpansion
    rcases htotals : totals F p c context with ⟨error | ⟨result, boundaries⟩, caches⟩
    · simp only [htotals, and_self]
    · obtain ⟨hsize, -⟩ := totals_ok hp.toSized (segmentLength_of_validate hvalidate) hlength htotals
      have hhistogram := histogram_noised hp hsize context.labels boundaries params l tape tape'
      simp only [htotals]
      generalize histogram F p .none context.labels result boundaries tape' = plain at hhistogram ⊢
      generalize histogram F p (.laplace params l) context.labels result boundaries tape = noised at hhistogram ⊢
      obtain ⟨error | h, rest'⟩ := plain
      · obtain ⟨_, rest⟩ := noised
        subst hhistogram
        exact ⟨rfl, rfl⟩
      · obtain ⟨_, rest⟩ := noised
        obtain ⟨g, rfl, hg⟩ := hhistogram
        exact ⟨rfl, g, rfl, hg⟩

end Aggregation

/-! ### Releases -/

/-- The sum of a bucket in the field, with the samples of both helpers. -/
def noisedSum (a b : PartialHistogram) (xs ys : List ℤ) (bucket : UInt64) : Goldilocks :=
  (a.share bucket + b.share bucket).sum + .ofInt (sampleOf a xs bucket) + .ofInt (sampleOf b ys bucket)

namespace IsNoised
variable {paramsA paramsB : PrivacyParams} {xs ys : List ℤ} {a a' b b' : PartialHistogram}
  (ha : IsNoised paramsA xs a a') (hb : IsNoised paramsB ys b b')
include ha hb

theorem share_add (bucket : UInt64) :
    a'.share bucket + b'.share bucket =
      { sum := noisedSum a b xs ys bucket, count := (a.share bucket + b.share bucket).count } := by
  rw [ha.share_eq, hb.share_eq]
  refine BucketShare.ext ?_ rfl
  change _ + _ + (_ + _) = _ + _ + _ + _
  rw [add_add_add_comm, ← add_assoc]

theorem checkCompatible_eq : a'.checkCompatible b' = a.checkCompatible b := by
  rw [ha.rest, hb.rest]
  rfl

/-- In between, the merged release lists the same buckets with the same counts. -/
theorem intermediate_eq : Release.intermediate a' b' =
    (Release.intermediate a b).map (List.map fun r => { r with sum := (noisedSum a b xs ys r.bucket).toInt }) := by
  rw [Release.intermediate, Release.intermediate, ha.checkCompatible_eq hb, ha.keys_eq, hb.keys_eq]
  cases a.checkCompatible b with
  | error e => rfl
  | ok u =>
    refine congrArg Except.ok ?_
    rw [List.map_map]
    refine List.map_congr_left fun bucket _ => ?_
    simp only [Release.bucketResult, ha.share_add hb, Function.comp_apply]

theorem completeResult_eq (bucket : UInt64) : Release.completeResult a' b' bucket =
    (Release.completeResult a b bucket).map fun r =>
      { r with sum := Release.clip paramsA.sensitivity r.count (noisedSum a b xs ys bucket).toInt } := by
  have hprivacy : a'.privacy.or b'.privacy = some paramsA := by rw [ha.rest, Option.some_or]
  rw [Release.completeResult, Release.completeResult, ha.labels_eq, hb.labels_eq, ha.share_add hb, hprivacy]
  cases a.labels[bucket]? with
  | none => rfl
  | some la =>
    cases b.labels[bucket]? with
    | none => rfl
    | some lb =>
      dsimp only
      split
      · rfl
      · cases SecretSharing.combineBytes la.keyShare lb.keyShare <;> rfl

/-- At the last level the same buckets are released, with the same keys and counts. -/
theorem complete_eq : Release.complete a' b' =
    (Release.complete a b).map ((Release.labelled a b).zipWith fun bucket r =>
      { r with sum := Release.clip paramsA.sensitivity r.count (noisedSum a b xs ys bucket).toInt }) := by
  have hbits : a'.bucketBits = a.bucketBits := by rw [ha.rest]
  have hlength : a'.bitLength = a.bitLength := by rw [ha.rest]
  rw [Release.complete, Release.complete, ha.checkCompatible_eq hb, hbits, hlength, ha.labels_eq, hb.labels_eq,
    funext (ha.completeResult_eq hb), mapM_map_eq]
  cases a.checkCompatible b with
  | error e => rfl
  | ok u =>
    by_cases hlast : a.bucketBits ≠ a.bitLength
    · simp only [if_pos hlast]
      rfl
    · simp only [if_neg hlast]
      rfl

end IsNoised

theorem Release.nextBuckets_map (results : List BucketResult) (sum : BucketResult → ℤ) (threshold : ℕ) :
    nextBuckets (results.map fun r => { r with sum := sum r }) threshold = nextBuckets results threshold := by
  rw [nextBuckets, nextBuckets, List.filter_map, List.map_map]
  rfl

namespace Aggregation

open PointFunction

/-- A sample is the difference of two numbers, whatever words they are, or the nearest signed integer. After any rounds, a
    round with noise is refused for the same reason as the round without it, or puts out the same histogram with a sample of
    two geometric numbers added to the sum of each bucket, and either way leaves the same context. In the merged release of
    two such histograms the buckets and the counts, and so the buckets to go on with, are those without noise, and each sum
    is that of the field with the samples of both helpers. -/
theorem aggregate_noised (F : PointFunction BucketShare) :
    (∀ a b : UInt64, Laplace.difference a b = max (-2 ^ 63) (min (2 ^ 63 - 1) ((a.toNat : ℤ) - b.toNat))) ∧
    (∀ (records : List KeyRecord) (before : List Call) (start : RandomTape) (e : Expansion) (c : CombineParams)
      (params : PrivacyParams) (l : Laplace) (tape tape' : RandomTape),
      let context := (rounds F before (.ofRecords records) start).1.2
      let plain := (aggregate F e c .none context tape').1
      let noised := (aggregate F e c (.laplace params l) context tape).1
      noised.2 = plain.2 ∧
      match plain.1 with
      | .error error => noised.1 = .error error
      | .ok h => ∃ g, noised.1 = .ok g ∧ IsNoised params ((l.draws h.buckets.size tape).1.map fun x =>
          max (-2 ^ 63) (min (2 ^ 63 - 1) ((x.1.toNat : ℤ) - x.2.toNat))) h g) ∧
    ∀ (a a' b b' : PartialHistogram) (paramsA paramsB : PrivacyParams) (xs ys : List ℤ),
      IsNoised paramsA xs a a' → IsNoised paramsB ys b b' →
      Release.intermediate a' b' =
        (Release.intermediate a b).map (List.map fun r => { r with sum := (noisedSum a b xs ys r.bucket).toInt }) ∧
      (∀ threshold, (Release.intermediate a' b').map (Release.nextBuckets · threshold) =
        (Release.intermediate a b).map (Release.nextBuckets · threshold)) ∧
      Release.complete a' b' = (Release.complete a b).map ((Release.labelled a b).zipWith fun bucket r =>
        { r with sum := Release.clip paramsA.sensitivity r.count (noisedSum a b xs ys bucket).toInt }) := by
  refine ⟨Laplace.difference_eq, fun records before start e c params l tape tape' =>
    ((reached_ofRecords F records).rounds before start).noised_of_plain e c params l tape tape', ?_⟩
  intro a a' b b' paramsA paramsB xs ys ha hb
  refine ⟨ha.intermediate_eq hb, fun threshold => ?_, ha.complete_eq hb⟩
  rw [ha.intermediate_eq hb]
  cases Release.intermediate a b with
  | error error => rfl
  | ok results => exact congrArg Except.ok (Release.nextBuckets_map results _ threshold)

/-- One report of the value 7, below the bucket 1: with noise or without, that bucket is the one to go on with. -/
theorem aggregate_noised_seven :
    let F : PointFunction BucketShare := ⟨.oneThree, .standard BucketShare⟩
    let key := F.keysFrom 5 ⟨.ofNat 7, 1⟩ (Octets.zero 16) (Octets.zero 16)
    let one : KeyRecord := ⟨⟨Octets.zero 16⟩, key.1, none⟩
    let two : KeyRecord := ⟨⟨Octets.zero 16⟩, key.2, none⟩
    let e : Expansion := ⟨[0], [[]], none⟩
    let params : PrivacyParams := ⟨1.0, 7⟩
    let l : Laplace := ⟨7.0, .ofChance 0.125⟩
    let tape : RandomTape := ⟨fun _ => 0, 0, none⟩
    ∃ a a' b b', (aggregate F e .default .none (.ofRecords [one]) tape).1.1 = .ok a ∧
      (aggregate F e .default (.laplace params l) (.ofRecords [one]) tape).1.1 = .ok a' ∧
      (aggregate F e .default .none (.ofRecords [two]) tape).1.1 = .ok b ∧
      (aggregate F e .default (.laplace params l) (.ofRecords [two]) tape).1.1 = .ok b' ∧
      Release.intermediate a b = .ok [⟨0, 0, 0⟩, ⟨1, 7, 1⟩] ∧
      (let xs := l.samples a.buckets.size tape
       let ys := l.samples b.buckets.size tape
       Release.intermediate a' b' = .ok [⟨0, (noisedSum a b xs ys 0).toInt, 0⟩, ⟨1, (noisedSum a b xs ys 1).toInt, 1⟩]) ∧
      (Release.intermediate a' b').map (Release.nextBuckets · 0) = .ok [1] := by
  intro F key one two e params l tape
  have hplan : e.plan F.domain.hierarchy none = .ok ⟨0, 0, #[0], 1⟩ := rfl
  have hvalidate : CombineParams.default.validate = .ok () := rfl
  have hplain (record : KeyRecord) (hlabel : record.label = none) (hkey : F.checkKey record.key = .ok ()) :
      ∃ h labels, (aggregate F e .default .none (.ofRecords [record]) tape).1.1 = .ok h ∧
        IsHistogram F ⟨0, 0, #[0], 1⟩ [record] labels h := by
    have hsettled : Settled F (.ofRecords [record]) := settled_ofRecords (List.forall_mem_singleton.mpr hkey)
    have hlabels : (EvaluationContext.ofRecords [record]).labels = [] := by
      simp [EvaluationContext.labels, EvaluationContext.ofRecords, hlabel]
    obtain ⟨h, labels, caches, hrun, hh, -⟩ := aggregate_of_agree hsettled
      ((planRound_eq_ok hsettled).mpr ⟨hvalidate, hplan⟩) (by rw [hlabels]; exact Labels.agree_nil) tape
    exact ⟨h, labels, congrArg (·.1.1) hrun, hh⟩
  obtain ⟨hkeyA, hkeyB⟩ := checkKey_keysFrom F 5 ⟨.ofNat 7, 1⟩ (Octets.zero 16) (Octets.zero 16)
  obtain ⟨a, labelsA, ha, hhistA⟩ := hplain one rfl hkeyA
  obtain ⟨b, labelsB, hb, hhistB⟩ := hplain two rfl hkeyB
  have hstart (context : EvaluationContext) : (rounds F [] context tape).1.2 = context := rfl
  obtain ⟨-, hA⟩ := (aggregate_noised F).2.1 [one] [] tape e .default params l tape tape
  obtain ⟨-, hB⟩ := (aggregate_noised F).2.1 [two] [] tape e .default params l tape tape
  rw [hstart, ha] at hA
  rw [hstart, hb] at hB
  obtain ⟨a', ha', hnoisedA⟩ := hA
  obtain ⟨b', hb', hnoisedB⟩ := hB
  have hrelease : Release.intermediate a b = .ok [⟨0, 0, 0⟩, ⟨1, 7, 1⟩] := by
    have hfits : Plan.Fits F.domain ⟨0, 0, #[0], 1⟩ := fits_of_plan (stopped_none F.domain) hplan
    have hpoint : (5 : UInt64).toNat < 2 ^ F.domain.bitLength.toNat := by decide
    have hshare (bucket : UInt64) (hbucket : bucket.toNat < 2 ^ 1) :
        totalShare F ([one] ++ [two]) 1 bucket =
          if bucket = ancestor F.domain.bitLength.toNat 5 1 then ⟨.ofNat 7, 1⟩ else 0 := by
      have hnil : totalShare F [] 1 bucket = 0 := rfl
      have hadd := share_add_share F ⟨.ofNat 7, 1⟩ (Octets.zero 16) (Octets.zero 16) hpoint Nat.one_pos (by decide) hbucket
      rw [totalShare_append, totalShare_cons, totalShare_cons, hnil, add_zero, add_zero, hadd]
    have hbuckets : (Plan.buckets ⟨0, 0, #[0], 1⟩).toList = [0, 1] := rfl
    rw [intermediate_eq hfits hhistA hhistB, hbuckets, List.map_cons, List.map_cons, List.map_nil]
    change Except.ok [_, _] = _
    simp only [show (1 : UInt32).toNat = 1 from rfl, hshare 0 (by decide), hshare 1 (by decide)]
    decide
  obtain ⟨hintermediate, hnext, -⟩ := (aggregate_noised F).2.2 _ _ _ _ _ _ _ _ hnoisedA hnoisedB
  refine ⟨a, a', b, b', ha, ha', hb, hb', hrelease, ?_, ?_⟩
  · rw [hintermediate, hrelease]
    rfl
  · have hbuckets : Release.nextBuckets [⟨0, 0, 0⟩, ⟨1, 7, 1⟩] 0 = [1] := by decide +kernel
    rw [hnext, hrelease]
    exact congrArg Except.ok hbuckets

end Aggregation

end PrivateHistogram
