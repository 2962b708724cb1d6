import PrivateHistogram.Proofs.Aggregation.Merges
import PrivateHistogram.Proofs.Aggregation.Shards

/-! The release shard by shard. Both helpers send a bucket, and the label of a bucket, to the shard with the same number, so
    what the release makes of a bucket is what it makes of it in its shard (`bucketResult_shard`, `completeResult_shard`),
    and the shards of both are released to what the whole is released to, in another order (`release_of_shards`). -/

namespace PrivateHistogram

namespace PartialHistogram
variable {h : PartialHistogram} {count : UInt64} {parts : List PartialHistogram}

theorem shards_eq_ok_iff :
    h.shards count = .ok parts ↔ (0 < count ∧ count.toNat * 104 < 2 ^ 63 ∧ h.bucketBits ≤ h.bitLength) ∧
      parts = (List.range count.toNat).map (h.shard count) := by
  constructor
  · intro hparts
    rw [shards] at hparts
    split at hparts
    · cases hparts
    · rename_i hpos
      split at hparts
      · cases hparts
      · rename_i hbits
        split at hparts
        · cases hparts
        · rename_i hroom
          have hholds : Room.holds count.toNat size = true := by simpa using hroom
          exact ⟨⟨UInt64.pos_iff_ne_zero.mpr hpos, holds_iff.mp hholds, UInt32.not_lt.mp hbits⟩,
            (Except.ok.inj hparts).symm⟩
  · rintro ⟨⟨hpos, hroom, hbits⟩, rfl⟩
    exact shards_eq_ok hbits hpos hroom

theorem share_shard (b : UInt64) : (h.shard count (shardOf count b).toNat).share b = h.share b := by
  rw [share, shard, getElem?_part_buckets, if_pos (decide_eq_true rfl), share]

end PartialHistogram

namespace Release

open Aggregation (Error)
open PartialHistogram

variable {a b : PartialHistogram} {count : UInt64}

theorem checkCompatible_shard (i : ℕ) : (a.shard count i).checkCompatible (b.shard count i) = a.checkCompatible b := rfl

/-! ### Levels in between -/

theorem bucketResult_shard (bucket : UInt64) :
    bucketResult (a.shard count (shardOf count bucket).toNat) (b.shard count (shardOf count bucket).toNat) bucket =
      bucketResult a b bucket := by
  rw [bucketResult, share_shard, share_shard, bucketResult]

theorem intermediate_shard (h : a.checkCompatible b = .ok ()) (i : ℕ) :
    intermediate (a.shard count i) (b.shard count i) =
      .ok (((increasing (a.buckets.keys ++ b.buckets.keys)).filter fun x => (shardOf count x).toNat = i).map
        (bucketResult a b)) := by
  have hkeys : increasing ((a.shard count i).buckets.keys ++ (b.shard count i).buckets.keys) =
      (increasing (a.buckets.keys ++ b.buckets.keys)).filter fun x => (shardOf count x).toNat = i :=
    filter_increasing fun x => by
      simp only [List.mem_append, Std.ExtTreeMap.mem_keys, mem_shard_buckets, decide_eq_true_eq, or_and_right]
  rw [intermediate, checkCompatible_shard, h, hkeys]
  refine congrArg Except.ok (List.map_congr_left fun x hx => ?_)
  rw [List.mem_filter, decide_eq_true_eq] at hx
  rw [← hx.2, bucketResult_shard]

/-! ### The last level -/

/-- What the shards are released to, put in order, is what the whole is released to. -/
theorem intermediate_of_shards (hpos : 0 < count) :
    intermediate a b =
      ((List.range count.toNat).mapM fun i => intermediate (a.shard count i) (b.shard count i)).map fun results =>
        results.flatten.mergeSort fun x y => x.bucket ≤ y.bucket := by
  cases hcompatible : a.checkCompatible b with
  | error e =>
    -- The first shard is refused as the whole is.
    obtain ⟨n, hn⟩ := Nat.exists_eq_succ_of_ne_zero (UInt64.lt_iff_toNat_lt.mp hpos).ne'
    rw [hn, List.range_succ_eq_map, List.mapM_cons, intermediate, intermediate, checkCompatible_shard, hcompatible]
    rfl
  | ok =>
    have hshards : (List.range count.toNat).mapM (fun i => intermediate (a.shard count i) (b.shard count i)) = .ok
        ((List.range count.toNat).map fun i =>
          ((increasing (a.buckets.keys ++ b.buckets.keys)).filter fun x => (shardOf count x).toNat = i).map
            (bucketResult a b)) :=
      mapM_eq_ok (List.forall₂_map_right_iff.mpr (List.forall₂_same.mpr fun i _ => intermediate_shard hcompatible i))
    have hsorted := mergeSort_of_perm (pairwise_increasing (a.buckets.keys ++ b.buckets.keys))
      (perm_flatMap_filter (pairwise_increasing _) (toNat_shardOf_lt hpos))
    rw [hshards, intermediate, hcompatible]
    refine congrArg Except.ok ?_
    calc (increasing (a.buckets.keys ++ b.buckets.keys)).map (bucketResult a b)
        = _ := (congrArg (List.map (bucketResult a b)) hsorted).symm
      _ = _ := List.map_mergeSort fun _ _ _ _ => rfl
      _ = _ := by rw [List.map_flatMap, List.flatMap_def]

theorem bucketOf_zero (id : UInt64) : bucketOf 0 id = id := UInt64.shiftRight_zero

theorem IsLast.shard (h : IsLast a b) (i : ℕ) : IsLast (a.shard count i) (b.shard count i) := ⟨h.1, h.2, h.3⟩

theorem isLast_of_shard {i : ℕ} (h : IsLast (a.shard count i) (b.shard count i)) : IsLast a b := ⟨h.1, h.2, h.3⟩

/-- At the last level the label of a bucket goes to the shard of the bucket. -/
theorem getElem?_labels_shard {h : PartialHistogram} (hlast : h.bucketBits = h.bitLength) (i : ℕ) (id : UInt64) :
    (h.shard count i).labels[id]? = if (shardOf count id).toNat = i then h.labels[id]? else none := by
  have hdepth : h.bitLength - h.bucketBits = 0 := by rw [hlast, UInt32.sub_self]
  rw [shard, getElem?_part_labels, hdepth, bucketOf_zero]
  simp only [decide_eq_true_eq]

theorem completeResult_shard (h : IsLast a b) (id : UInt64) :
    completeResult (a.shard count (shardOf count id).toNat) (b.shard count (shardOf count id).toNat) id =
      completeResult a b id := by
  have hlast : b.bucketBits = b.bitLength := h.bucketBits ▸ h.bitLength ▸ h.last
  rw [completeResult, getElem?_labels_shard h.last, getElem?_labels_shard hlast, if_pos rfl, if_pos rfl, share_shard,
    share_shard, completeResult]
  rfl

theorem labelled_shard (h : IsLast a b) (i : ℕ) :
    labelled (a.shard count i) (b.shard count i) = (labelled a b).filter fun id => (shardOf count id).toNat = i := by
  have hlast : b.bucketBits = b.bitLength := h.bucketBits ▸ h.bitLength ▸ h.last
  refine filter_increasing fun id => ?_
  simp only [List.mem_append, Std.ExtTreeMap.mem_keys, Std.ExtTreeMap.mem_iff_isSome_getElem?,
    getElem?_labels_shard h.last, getElem?_labels_shard hlast, decide_eq_true_eq]
  split <;> simp_all

theorem complete_shard (h : IsLast a b) (i : ℕ) :
    complete (a.shard count i) (b.shard count i) =
      ((labelled a b).filter fun id => (shardOf count id).toNat = i).mapM (completeResult a b) := by
  rw [complete_of_isLast (h.shard i), labelled_shard h]
  refine mapM_congr fun id hid => ?_
  rw [List.mem_filter, decide_eq_true_eq] at hid
  rw [← hid.2, completeResult_shard h]

/-- The last level is released if it is in each shard. -/
theorem exists_complete_iff (hpos : 0 < count) :
    (∃ results, complete a b = .ok results) ↔
      ∀ i < count.toNat, ∃ results, complete (a.shard count i) (b.shard count i) = .ok results := by
  constructor
  · rintro ⟨results, hresults⟩ i -
    have hlast := isLast_of_complete hresults
    rw [complete_of_isLast hlast] at hresults
    simp only [complete_shard hlast]
    have hall := exists_mapM_iff.mp ⟨results, hresults⟩
    exact exists_mapM_iff.mpr fun id hid => hall id (List.mem_filter.mp hid).1
  · intro hshards
    obtain ⟨first, hfirst⟩ := hshards 0 (UInt64.lt_iff_toNat_lt.mp hpos)
    have hlast := isLast_of_shard (isLast_of_complete hfirst)
    simp only [complete_shard hlast] at hshards
    simp only [complete_of_isLast hlast]
    refine exists_mapM_iff.mpr fun id hid => ?_
    have hshard := exists_mapM_iff.mp (hshards _ (toNat_shardOf_lt hpos id))
    exact hshard id (List.mem_filter.mpr ⟨hid, decide_eq_true rfl⟩)

/-- What is released in the shards is what is released of the whole, in another order. -/
theorem perm_of_complete (hpos : 0 < count) {results : List CompleteResult} {parts : List (List CompleteResult)}
    (hresults : complete a b = .ok results)
    (hparts : (List.range count.toNat).mapM (fun i => complete (a.shard count i) (b.shard count i)) = .ok parts) :
    results.Perm parts.flatten := by
  have hlast := isLast_of_complete hresults
  rw [complete_eq_ok hlast] at hresults
  have hshards : List.Forall₂ (List.Forall₂ fun id r => completeResult a b id = .ok r)
      ((List.range count.toNat).map fun i => (labelled a b).filter fun id => (shardOf count id).toNat = i) parts := by
    refine List.forall₂_map_left_iff.mpr ((forall₂_of_mapM hparts).imp fun i part hpart => ?_)
    rw [complete_shard hlast] at hpart
    exact forall₂_of_mapM hpart
  have hperm := perm_flatMap_filter (pairwise_increasing (a.labels.keys ++ b.labels.keys)) (toNat_shardOf_lt hpos)
  obtain ⟨results', hresults', hperm'⟩ := List.perm_comp_forall₂ hperm.symm (List.rel_flatten hshards)
  rwa [Except.ok.inj ((mapM_eq_ok hresults).symm.trans (mapM_eq_ok hresults'))]

/-- Two histograms that can be split into so many shards are released shard by shard as they are released whole. At a
    level in between the results of the shards, put in order, are the results of the whole, and it is refused if the
    shards are. The last level is released exactly if it is in every shard, with the results of all shards in another
    order. -/
theorem release_of_shards {as bs : List PartialHistogram} (ha : a.shards count = .ok as) (hb : b.shards count = .ok bs) :
    as.length = count.toNat ∧ bs.length = count.toNat ∧
    intermediate a b = ((as.zip bs).mapM fun p => intermediate p.1 p.2).map (fun results =>
      results.flatten.mergeSort fun x y => x.bucket ≤ y.bucket) ∧
    ((∃ results, complete a b = .ok results) ↔ ∀ p ∈ as.zip bs, ∃ results, complete p.1 p.2 = .ok results) ∧
    ∀ results, complete a b = .ok results →
      ∃ parts, (as.zip bs).mapM (fun p => complete p.1 p.2) = .ok parts ∧ results.Perm parts.flatten := by
  obtain ⟨⟨hpos, -, -⟩, rfl⟩ := shards_eq_ok_iff.mp ha
  obtain ⟨-, rfl⟩ := shards_eq_ok_iff.mp hb
  rw [List.zip_map', List.mapM_map, List.mapM_map, List.forall_mem_map]
  refine ⟨by simp, by simp, intermediate_of_shards hpos, ?_, fun results hresults => ?_⟩
  · simp only [List.mem_range]
    exact exists_complete_iff hpos
  · have hshards := (exists_complete_iff hpos).mp ⟨results, hresults⟩
    obtain ⟨parts, hparts⟩ := exists_mapM_iff.mpr fun i hi => hshards i (List.mem_range.mp hi)
    exact ⟨parts, hparts, perm_of_complete hpos hresults hparts⟩

/-- Two labelled buckets, each in a shard of its own, and beside them a bucket of one helper only. -/
theorem release_of_shards_two :
    let label (id : UInt64) (share : UInt8) : BucketLabel := ⟨id, Octets.zero 32, ⟨Octets.zero 16⟩, [share]⟩
    let histogram (buckets : List (UInt64 × BucketShare)) (labels : List (UInt64 × BucketLabel)) : PartialHistogram :=
      ⟨2, 2, .ofList buckets, .ofList labels, [0], none⟩
    let a := histogram [(0, 0), (1, ⟨.ofNat 9, 1⟩), (2, ⟨.ofNat 4, .ofNat 2⟩)] [(1, label 1 3), (2, label 2 5)]
    let b := histogram [(1, ⟨.ofNat 1, 0⟩), (2, ⟨.ofNat 6, 1⟩), (3, 0)] [(1, label 1 7), (2, label 2 8)]
    ∃ as bs results parts, a.shards 2 = .ok as ∧ b.shards 2 = .ok bs ∧ as.length = 2 ∧ bs.length = 2 ∧
      intermediate a b = ((as.zip bs).mapM fun p => intermediate p.1 p.2).map (fun results =>
        results.flatten.mergeSort fun x y => x.bucket ≤ y.bucket) ∧
      complete a b = .ok results ∧ results.length = 2 ∧ (∀ p ∈ as.zip bs, ∃ results, complete p.1 p.2 = .ok results) ∧
      (as.zip bs).mapM (fun p => complete p.1 p.2) = .ok parts ∧ results.Perm parts.flatten := by
  intro label histogram a b
  have ha : a.shards 2 = .ok ((List.range 2).map (a.shard 2)) := shards_eq_ok (by decide) (by decide) (by decide)
  have hb : b.shards 2 = .ok ((List.range 2).map (b.shard 2)) := shards_eq_ok (by decide) (by decide) (by decide)
  have hresults : complete a b = .ok [⟨[4], Octets.zero 32, 10, 1⟩, ⟨[13], Octets.zero 32, 10, 3⟩] := by
    cbv
  obtain ⟨hlengthA, hlengthB, hbetween, hlast, hperm⟩ := release_of_shards ha hb
  obtain ⟨parts, hparts, hperm⟩ := hperm _ hresults
  exact ⟨_, _, _, parts, ha, hb, hlengthA, hlengthB, hbetween, hresults, rfl, hlast.mp ⟨_, hresults⟩, hparts, hperm⟩

end Release

end PrivateHistogram
