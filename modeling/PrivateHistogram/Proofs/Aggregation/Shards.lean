import PrivateHistogram.Proofs.Aggregation.Partitions

/-! Histograms split into shards. Each bucket goes to one shard, and each label to the shard of the bucket that it is in, so
    the shards are parts over different buckets (`part`). Two such parts are accumulated to the part over the buckets of
    both (`accumulate_part`), and in whatever order all shards are put together, they give back the histogram that has been
    split (`shards_of_aggregate`). -/

namespace PrivateHistogram

/-! ### Labels of other buckets -/

namespace Labels

theorem add_new {b : UInt64} {l : BucketLabel} {labels : Labels} (hb : labels[b]? = none) :
    add b l labels = (.ok (), labels.insert b l) := by
  rw [add, hb]

/-- Labels of different buckets, none of which has a label yet, are all taken. -/
theorem addAll_new {list : List (UInt64 × BucketLabel)} {labels : Labels} (hlist : list.Pairwise fun x y => x.1 ≠ y.1)
    (hnew : ∀ x ∈ list, labels[x.1]? = none) : addAll list labels = (.ok (), labels.insertMany list) := by
  induction list generalizing labels with
  | nil => rfl
  | cons x list ih =>
    obtain ⟨hx, hlist⟩ := List.pairwise_cons.mp hlist
    obtain ⟨hb, hnew⟩ := List.forall_mem_cons.mp hnew
    have hstep : addAll (x :: list) labels = addAll list (labels.insert x.1 x.2) :=
      Attempt.bind_of_ok (add_new hb)
    rw [hstep, ih hlist fun y hy => ?_, Std.ExtTreeMap.insertMany_cons]
    rw [Std.ExtTreeMap.getElem?_insert, if_neg fun heq => hx y hy (Std.LawfulEqCmp.eq_of_compare heq)]
    exact hnew y hy

theorem getElem?_insertMany_toList (labels other : Labels) (b : UInt64) :
    (labels.insertMany other.toList)[b]? = (other[b]?).or labels[b]? := by
  cases hb : other[b]? with
  | none =>
    refine Std.ExtTreeMap.getElem?_insertMany_list_of_contains_eq_false (Bool.eq_false_iff.mpr fun hcontains => ?_)
    rw [List.contains_iff_mem, Std.ExtTreeMap.map_fst_toList_eq_keys, Std.ExtTreeMap.mem_keys,
      Std.ExtTreeMap.mem_iff_isSome_getElem?, hb] at hcontains
    cases hcontains
  | some l =>
    exact Std.ExtTreeMap.getElem?_insertMany_list_of_mem Std.ReflCmp.compare_self Std.ExtTreeMap.distinct_keys_toList
      (Std.ExtTreeMap.mem_toList_iff_getElem?_eq_some.mpr hb)

end Labels

/-! ### Parts of a histogram -/

namespace PartialHistogram

variable {h : PartialHistogram} {p q : UInt64 → Bool}

/-- The part of a histogram over some of its buckets, with the labels that are in these. -/
def part (h : PartialHistogram) (p : UInt64 → Bool) : PartialHistogram :=
  { h with
    buckets := h.buckets.filter fun bucket _ => p bucket
    labels := h.labels.filter fun id _ => p (bucketOf (h.bitLength - h.bucketBits) id) }

theorem getElem?_part_buckets (bucket : UInt64) :
    (h.part p).buckets[bucket]? = if p bucket then h.buckets[bucket]? else none := by
  rw [part, Std.ExtTreeMap.getElem?_filter']
  cases h.buckets[bucket]? <;> simp [Option.filter]

theorem getElem?_part_labels (id : UInt64) :
    (h.part p).labels[id]? = if p (bucketOf (h.bitLength - h.bucketBits) id) then h.labels[id]? else none := by
  rw [part, Std.ExtTreeMap.getElem?_filter']
  cases h.labels[id]? <;> simp [Option.filter]

theorem part_true (h : PartialHistogram) : (h.part fun _ => true) = h := by
  have hbuckets : (h.part fun _ => true).buckets = h.buckets :=
    Std.ExtTreeMap.ext_getElem? fun bucket => by rw [getElem?_part_buckets, if_pos rfl]
  have hlabels : (h.part fun _ => true).labels = h.labels :=
    Std.ExtTreeMap.ext_getElem? fun id => by rw [getElem?_part_labels, if_pos rfl]
  calc (h.part fun _ => true)
      = { h with buckets := (h.part fun _ => true).buckets, labels := (h.part fun _ => true).labels } := rfl
    _ = h := by rw [hbuckets, hlabels]

/-- A histogram as rounds make them: its parts can be put together again. -/
structure Splittable (h : PartialHistogram) : Prop where
  bits_le : h.bucketBits ≤ h.bitLength
  boundaries : h.boundaries.Pairwise (· < ·)
  privacy : (h.privacy == h.privacy) = true
  covered : ∀ id ∈ h.labels, bucketOf (h.bitLength - h.bucketBits) id ∈ h.buckets

/-- Two parts over different buckets are accumulated to the part over the buckets of both. -/
theorem Splittable.accumulate_part (hh : Splittable h) (hdisjoint : ∀ bucket, p bucket = true → q bucket = false) :
    accumulate (h.part q) (h.part p) = (.ok (), h.part fun bucket => p bucket || q bucket) := by
  have hcompatible : (h.part p).checkCompatible (h.part q) = .ok () := by simp [checkCompatible, part]
  have hprivacy : ((h.part p).privacy != (h.part q).privacy) = false := by
    rw [bne, show (h.part p).privacy = h.privacy from rfl, show (h.part q).privacy = h.privacy from rfl, hh.privacy]
    rfl
  have hboundaries : increasing ((h.part p).boundaries ++ (h.part q).boundaries) = h.boundaries :=
    increasing_eq hh.boundaries fun x => List.mem_append.trans or_self_iff
  have hbuckets : addBuckets (h.part p).buckets (h.part q).buckets =
      (h.part fun bucket => p bucket || q bucket).buckets := by
    refine Std.ExtTreeMap.ext_getElem? fun bucket => ?_
    rw [getElem?_addBuckets, getElem?_part_buckets, getElem?_part_buckets, getElem?_part_buckets]
    cases hp : p bucket with
    | true => simp [hdisjoint bucket hp]
    | false => cases hq : q bucket <;> cases h.buckets[bucket]? <;> simp
  have hnew : ∀ x ∈ (h.part q).labels.toList, (h.part p).labels[x.1]? = none := by
    rintro ⟨id, l⟩ hl
    rw [Std.ExtTreeMap.mem_toList_iff_getElem?_eq_some, getElem?_part_labels] at hl
    rw [getElem?_part_labels]
    cases hp : p (bucketOf (h.bitLength - h.bucketBits) id) with
    | true =>
      rw [hdisjoint _ hp] at hl
      cases hl
    | false => rfl
  have hlabels : (h.part p).labels.insertMany (h.part q).labels.toList =
      (h.part fun bucket => p bucket || q bucket).labels := by
    refine Std.ExtTreeMap.ext_getElem? fun id => ?_
    rw [Labels.getElem?_insertMany_toList, getElem?_part_labels, getElem?_part_labels, getElem?_part_labels]
    cases hp : p (bucketOf (h.bitLength - h.bucketBits) id) with
    | true => simp [hdisjoint _ hp]
    | false => cases hq : q (bucketOf (h.bitLength - h.bucketBits) id) <;> simp
  have hdistinct : (h.part q).labels.toList.Pairwise fun x y => x.1 ≠ y.1 :=
    Std.ExtTreeMap.distinct_keys_toList.imp fun hne heq => hne (Std.compare_eq_iff_eq.mpr heq)
  rw [accumulate, hcompatible]
  simp only [hprivacy, Bool.false_eq_true, if_false, hboundaries, Labels.addAll_new hdistinct hnew, hbuckets, hlabels]
  rfl

/-! ### Shards -/

/-- Puts histograms together, one after the other. -/
def accumulateAll (others : List PartialHistogram) : Attempt PartialHistogram Aggregation.Error Unit :=
  others.forM accumulate

/-- The shard with a number. -/
def shard (h : PartialHistogram) (count : UInt64) (i : ℕ) : PartialHistogram :=
  h.part fun bucket => (shardOf count bucket).toNat = i

theorem holds_iff {count : UInt64} : Room.holds count.toNat size = true ↔ count.toNat * 104 < 2 ^ 63 :=
  decide_eq_true_iff.trans Nat.lt_succ_iff.symm

theorem shards_eq_ok {count : UInt64} (hbits : h.bucketBits ≤ h.bitLength) (hpos : 0 < count)
    (hroom : count.toNat * 104 < 2 ^ 63) : h.shards count = .ok ((List.range count.toNat).map (h.shard count)) := by
  rw [shards, if_neg (UInt64.ne_of_lt hpos).symm, if_neg (UInt32.not_lt.mpr hbits), holds_iff.mpr hroom]
  rfl

theorem shards_eq_overflow {count : UInt64} (hbits : h.bucketBits ≤ h.bitLength) (hlarge : 2 ^ 63 ≤ count.toNat * 104) :
    h.shards count = .error (.capacityOverflow count) := by
  have hne : count ≠ 0 := by
    rintro rfl
    exact absurd hlarge (by decide)
  have hroom : Room.holds count.toNat size = false := Bool.not_eq_true _ ▸ mt holds_iff.mp (Nat.not_lt.mpr hlarge)
  rw [shards, if_neg hne, if_neg (UInt32.not_lt.mpr hbits), hroom]
  rfl

theorem toNat_shardOf_lt {count : UInt64} (hpos : 0 < count) (bucket : UInt64) :
    (shardOf count bucket).toNat < count.toNat := by
  rw [shardOf, UInt64.toNat_mod]
  exact Nat.mod_lt _ (UInt64.lt_iff_toNat_lt.mp hpos)

namespace Splittable
variable (hh : Splittable h) (count : UInt64)
include hh

/-- Shards are accumulated to the part over the buckets of all of them. -/
theorem accumulateAll_shards (done : List ℕ) {others : List ℕ} (hnodup : (done ++ others).Nodup) :
    accumulateAll (others.map (h.shard count)) (h.part fun bucket => (shardOf count bucket).toNat ∈ done) =
      (.ok (), h.part fun bucket => (shardOf count bucket).toNat ∈ done ++ others) := by
  induction others generalizing done with
  | nil =>
    rw [List.append_nil]
    rfl
  | cons i others ih =>
    have happend : done ++ i :: others = done ++ [i] ++ others := by simp
    rw [happend] at hnodup ⊢
    have hi : i ∉ done := fun hi => (List.nodup_append.mp (List.nodup_append.mp hnodup).1).2.2 i hi i List.mem_cons_self rfl
    have hstep : accumulate (h.shard count i) (h.part fun bucket => (shardOf count bucket).toNat ∈ done) =
        (.ok (), h.part fun bucket => (shardOf count bucket).toNat ∈ done ++ [i]) := by
      refine (hh.accumulate_part fun bucket hdone => decide_eq_false fun heq => hi ?_).trans ?_
      · rw [← heq]
        exact of_decide_eq_true hdone
      · simp only [List.mem_append, List.mem_singleton, Bool.decide_or]
    exact (Attempt.bind_of_ok hstep).trans (ih _ hnodup)

/-- All shards together give back the histogram, whichever is taken first and in whatever order the others are added. -/
theorem accumulateAll_of_perm (hpos : 0 < count) {first : PartialHistogram} {others : List PartialHistogram}
    (hperm : (first :: others).Perm ((List.range count.toNat).map (h.shard count))) :
    accumulateAll others first = (.ok (), h) := by
  obtain ⟨indices, hshards, hindices⟩ := List.perm_comp_forall₂ hperm
    (List.forall₂_map_left_iff.mpr (List.forall₂_same.mpr fun i _ => rfl) :
      List.Forall₂ (fun x i => x = h.shard count i) _ _)
  cases hshards with
  | @cons _ i _ indices hfirst hothers =>
    obtain rfl : others = indices.map (h.shard count) := by
      simpa using map_eq_map_of_forall₂ (f := id) hothers
    have hrun := hh.accumulateAll_shards count [i] (hindices.nodup_iff.mpr List.nodup_range)
    have hall : (fun bucket => decide ((shardOf count bucket).toNat ∈ i :: indices)) = fun _ => true := by
      funext bucket
      exact decide_eq_true (hindices.mem_iff.mpr (List.mem_range.mpr (toNat_shardOf_lt hpos bucket)))
    rw [List.singleton_append, hall, part_true] at hrun
    rw [hfirst, ← hrun]
    simp only [List.mem_singleton]
    rfl

end Splittable

/-- A histogram in parts: each bucket is in one of them, each label is in one of them, which is that of the bucket it is in,
    and put together in any order they give back the histogram. -/
structure IsSplit (h : PartialHistogram) (parts : List PartialHistogram) : Prop where
  bucket : ∀ b ∈ h.buckets, ∃ (i : ℕ) (part : PartialHistogram), parts[i]? = some part ∧ part.buckets[b]? = h.buckets[b]? ∧
    ∀ (j : ℕ) (other : PartialHistogram), parts[j]? = some other → b ∈ other.buckets → j = i
  label : ∀ id ∈ h.labels, ∃ (i : ℕ) (part : PartialHistogram), parts[i]? = some part ∧ part.labels[id]? = h.labels[id]? ∧
    bucketOf (h.bitLength - h.bucketBits) id ∈ part.buckets ∧
    ∀ (j : ℕ) (other : PartialHistogram), parts[j]? = some other → id ∈ other.labels → j = i
  accumulate : ∀ first others, (first :: others).Perm parts → accumulateAll others first = (.ok (), h)

theorem mem_shard_buckets {count : UInt64} {i : ℕ} {b : UInt64} :
    b ∈ (h.shard count i).buckets ↔ b ∈ h.buckets ∧ (shardOf count b).toNat = i := by
  rw [Std.ExtTreeMap.mem_iff_isSome_getElem?, shard, getElem?_part_buckets, Std.ExtTreeMap.mem_iff_isSome_getElem?]
  simp only [decide_eq_true_eq]
  split <;> simp_all

theorem mem_shard_labels {count : UInt64} {i : ℕ} {id : UInt64} :
    id ∈ (h.shard count i).labels ↔
      id ∈ h.labels ∧ (shardOf count (bucketOf (h.bitLength - h.bucketBits) id)).toNat = i := by
  rw [Std.ExtTreeMap.mem_iff_isSome_getElem?, shard, getElem?_part_labels, Std.ExtTreeMap.mem_iff_isSome_getElem?]
  simp only [decide_eq_true_eq]
  split <;> simp_all

theorem Splittable.isSplit (hh : Splittable h) {count : UInt64} (hpos : 0 < count) :
    IsSplit h ((List.range count.toNat).map (h.shard count)) := by
  have hshard {j : ℕ} {other : PartialHistogram}
      (hother : ((List.range count.toNat).map (h.shard count))[j]? = some other) :
      other = h.shard count j := by
    rw [List.getElem?_map, Option.map_eq_some_iff] at hother
    obtain ⟨k, hk, rfl⟩ := hother
    rw [(List.getElem?_eq_some_iff.mp hk).2.symm, List.getElem_range]
  have hhas (bucket : UInt64) : ((List.range count.toNat).map (h.shard count))[(shardOf count bucket).toNat]? =
      some (h.shard count (shardOf count bucket).toNat) := by
    rw [List.getElem?_map, List.getElem?_range (toNat_shardOf_lt hpos bucket), Option.map_some]
  refine ⟨fun b hb => ⟨_, _, hhas b, ?_, fun j other hother hmem => ?_⟩,
    fun id hid => ⟨_, _, hhas (bucketOf (h.bitLength - h.bucketBits) id), ?_, ?_, fun j other hother hmem => ?_⟩,
    fun first others => hh.accumulateAll_of_perm count hpos⟩
  · rw [shard, getElem?_part_buckets, if_pos (decide_eq_true rfl)]
  · rw [hshard hother, mem_shard_buckets] at hmem
    exact hmem.2.symm
  · rw [shard, getElem?_part_labels, if_pos (decide_eq_true rfl)]
  · exact mem_shard_buckets.mpr ⟨hh.covered id hid, rfl⟩
  · rw [hshard hother, mem_shard_labels] at hmem
    exact hmem.2.symm

end PartialHistogram

/-! ### Rounds -/

theorem beq_of_isFinite {x : Float} (h : x.isFinite = true) : (x == x) = true := by
  have hnumber : x.toModel.unpack ≠ .notANumber := by
    intro heq
    have hfinite : x.toModel.unpack.isFinite = true := h
    rw [heq] at hfinite
    cases hfinite
  exact (Float.Model.UnpackedFloat.beq_iff_ne_notANumber_and_eq _ _).mpr ⟨hnumber, hnumber, .inl rfl⟩

/-- The noise that there is for a round: none, or noise that has been made for privacy parameters. -/
def Noise.IsMade (n : Noise) : Prop := n = .none ∨ ∃ p, Noise.ofParams p = .ok n

/-- The budget of noise is a finite number, so its parameters are the same as themselves. -/
theorem Noise.IsMade.privacy_beq {n : Noise} (hn : n.IsMade) : (n.privacy == n.privacy) = true := by
  rcases hn with rfl | ⟨p, hp⟩
  · rfl
  · rw [ofParams] at hp
    obtain ⟨_, hvalidate, hp⟩ := bind_eq_ok.mp hp
    obtain ⟨budget, -, hp⟩ := bind_eq_ok.mp hp
    obtain ⟨l, -, hp⟩ := bind_eq_ok.mp hp
    cases hp
    have hfinite : p.epsilon.isFinite = true := by
      rw [PrivacyParams.validate] at hvalidate
      by_contra hnot
      rw [if_pos (by simp [hnot])] at hvalidate
      cases hvalidate
    change (p.epsilon == p.epsilon && p.sensitivity == p.sensitivity) = true
    rw [beq_of_isFinite hfinite, beq_self_eq_true]
    rfl

namespace Aggregation

open PointFunction PartialHistogram

variable {F : PointFunction BucketShare} {e : Expansion} {c : CombineParams} {n : Noise}
  {context context' : EvaluationContext} {h : PartialHistogram} {tape rest : RandomTape}

theorem splittable_of_aggregate (hn : n.IsMade) (hrun : aggregate F e c n context tape = ((.ok h, context'), rest)) :
    h.Splittable := by
  obtain ⟨p, result, boundaries, caches, hplan, htotals, hhistogram, -⟩ := aggregate_ok hrun
  obtain ⟨hvalidate, hlength, hplan⟩ := planRound_iff.mp hplan
  have hp := sized_of_plan hplan
  have hc := segmentLength_of_validate hvalidate
  obtain ⟨hsize, rfl⟩ := totals_ok hp hc hlength htotals
  obtain ⟨labels, hadd, rfl⟩ := histogram_of_ok hhistogram
  refine ⟨hp.bits_le, pairwise_segmentBoundaries hp hc, hn.privacy_beq, fun id hid => ?_⟩
  rw [Std.ExtTreeMap.mem_iff_isSome_getElem?, Option.isSome_iff_exists] at hid
  obtain ⟨l, hl⟩ := hid
  have hmem := (Labels.smallest_of_addAll hadd).mem id l hl
  obtain ⟨l, hfound, heq⟩ := List.mem_map.mp hmem
  cases heq
  obtain ⟨i, hi, hbucket⟩ := Frontier.exists_of_contains (List.mem_filter.mp hfound).2
  rw [Std.ExtTreeMap.mem_ofList, map_fst_zip_noised n hsize tape, List.contains_iff_mem, ← hbucket]
  exact Plan.mem_buckets.mpr ⟨i, hi, rfl⟩

/-- Whatever context it has been made of, and with what noise, a histogram can be split into any number of shards that a
    list holds, and nothing is lost: each bucket and each label is in one shard, and put together in any order they give
    back the histogram. More shards are refused, and so is it to split the histogram into none. -/
theorem shards_of_aggregate (hn : n.IsMade) (hrun : aggregate F e c n context tape = ((.ok h, context'), rest)) :
    (∀ count : UInt64, 0 < count → count.toNat * 104 < 2 ^ 63 →
      ∃ parts, h.shards count = .ok parts ∧ parts.length = count.toNat ∧ IsSplit h parts) ∧
    (∀ count : UInt64, 2 ^ 63 ≤ count.toNat * 104 → h.shards count = .error (.capacityOverflow count)) ∧
    h.shards 0 = .error .invalidShardCount := by
  have hh := splittable_of_aggregate hn hrun
  refine ⟨fun count hpos hroom => ⟨_, shards_eq_ok hh.bits_le hpos hroom, ?_, hh.isSplit hpos⟩, fun count hlarge => ?_, rfl⟩
  · rw [List.length_map, List.length_range]
  · exact shards_eq_overflow hh.bits_le hlarge

/-- One report below the bucket 1 of two, split into two shards. -/
theorem shards_of_aggregate_two :
    let F : PointFunction BucketShare := ⟨.oneThree, .standard BucketShare⟩
    let key := (F.keysFrom 5 ⟨.ofNat 7, 1⟩ (Octets.zero 16) (Octets.zero 16)).1
    let label : BucketLabel := ⟨5, Octets.zero 32, ⟨Octets.zero 16⟩, [1]⟩
    let records : List KeyRecord := [⟨⟨Octets.zero 16⟩, key, some label⟩]
    let tape : RandomTape := ⟨fun _ => 0, 0, none⟩
    ∃ h context' parts, aggregate F ⟨[0], [[]], none⟩ .default .none (.ofRecords records) tape = ((.ok h, context'), tape) ∧
      (∀ b, b ∈ h.buckets ↔ b = 0 ∨ b = 1) ∧ 5 ∈ h.labels ∧ h.shards 2 = .ok parts ∧ parts.length = 2 ∧
      IsSplit h parts := by
  intro F key label records tape
  have hvalidate : CombineParams.default.validate = .ok () := rfl
  have hplan : (⟨[0], [[]], none⟩ : Expansion).plan F.domain.hierarchy none = .ok ⟨0, 0, #[0], 1⟩ := rfl
  have hfits : Plan.Fits F.domain ⟨0, 0, #[0], 1⟩ := fits_of_plan (stopped_none F.domain) hplan
  have hbuckets : (Plan.buckets ⟨0, 0, #[0], 1⟩).toList = [0, 1] := rfl
  have hsettled : Settled F (.ofRecords records) :=
    settled_ofRecords (List.forall_mem_singleton.mpr (checkKey_keysFrom F 5 _ _ _).1)
  have hagree : Labels.Agree (planLabels F ⟨0, 0, #[0], 1⟩ [label]) := agree_planLabels (by simp) _
  obtain ⟨h, labels, caches, hrun, hh, hsmallest⟩ := aggregate_of_agree hsettled
    ((planRound_eq_ok hsettled).mpr ⟨hvalidate, hplan⟩) hagree tape
  obtain ⟨parts, hshards, hlength, hsplit⟩ := (shards_of_aggregate (.inl rfl) hrun).1 2 (by decide) (by decide)
  refine ⟨h, _, parts, hrun, fun b => ?_, ?_, hshards, hlength, hsplit⟩
  · rw [hh.mem, hbuckets, List.mem_pair]
  · obtain ⟨l, hl⟩ := hsmallest.complete 5 label
      ((mem_planLabels hfits).mpr ⟨List.mem_cons_self, rfl, by rw [hbuckets]; decide⟩)
    rw [hh.labels, Std.ExtTreeMap.mem_iff_isSome_getElem?, hl, Option.isSome_some]

/-- No list holds as many shards as there are words with the highest bit clear. -/
theorem capacity_overflow_of_shards :
    let F : PointFunction BucketShare := ⟨.oneThree, .standard BucketShare⟩
    let tape : RandomTape := ⟨fun _ => 0, 0, none⟩
    ∃ h context', aggregate F ⟨[0], [[]], none⟩ .default .none (.ofRecords []) tape = ((.ok h, context'), tape) ∧
      h.shards 0x8000000000000000 = .error (.capacityOverflow 0x8000000000000000) := by
  intro F tape
  have hvalidate : CombineParams.default.validate = .ok () := rfl
  have hplan : (⟨[0], [[]], none⟩ : Expansion).plan F.domain.hierarchy none = .ok ⟨0, 0, #[0], 1⟩ := rfl
  have hsettled : Settled F (.ofRecords []) := settled_ofRecords (fun r hr => nomatch hr)
  obtain ⟨h, labels, caches, hrun, hh, -⟩ := aggregate_of_agree hsettled
    ((planRound_eq_ok hsettled).mpr ⟨hvalidate, hplan⟩) Labels.agree_nil tape
  refine ⟨h, _, hrun, ?_⟩
  rw [shards, hh.bitLength, hh.bucketBits]
  rfl

end Aggregation

end PrivateHistogram
