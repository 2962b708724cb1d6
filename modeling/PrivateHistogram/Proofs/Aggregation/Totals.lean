import PrivateHistogram.Aggregation
import PrivateHistogram.Proofs.PointFunction.Covers
import PrivateHistogram.Proofs.PointFunction.Expansions
import PrivateHistogram.Proofs.PointFunction.Shares

/-! The totals of a round: for each bucket of the plan, in order, the sum of the values of all key halves. All at once
    or segment by segment makes no difference, neither for the totals nor for the nodes that are kept
    (`totals_of_keys`), except that no half is looked at where there is no segment (`totals_fst`). Only nodes that are
    reached with a half are kept for it (`totals_sound`), so the values are the shares of the halves (`totals_eq`). -/

namespace PrivateHistogram.Aggregation

open PointFunction

variable (F : PointFunction BucketShare)

/-- The sum of the shares that some key halves have of a bucket. -/
def totalShare (records : List KeyRecord) (bits : ℕ) (b : UInt64) : BucketShare :=
  (records.map fun r => F.share r.key bits b).sum

theorem totalShare_cons (record : KeyRecord) (records : List KeyRecord) (bits : ℕ) (b : UInt64) :
    totalShare F (record :: records) bits b = F.share record.key bits b + totalShare F records bits b := rfl

theorem totalShare_append (records records' : List KeyRecord) (bits : ℕ) (b : UInt64) :
    totalShare F (records ++ records') bits b = totalShare F records bits b + totalShare F records' bits b := by
  rw [totalShare, List.map_append, List.sum_append]
  rfl

theorem totalShare_perm {records records' : List KeyRecord} (h : records.Perm records') (bits : ℕ) (b : UInt64) :
    totalShare F records bits b = totalShare F records' bits b :=
  (h.map _).sum_eq

/-- Key halves of the domain, each with a cache that holds only nodes it has reached. -/
structure InOrder (records : List KeyRecord) (caches : List NodeCache) : Prop where
  keys : ∀ r ∈ records, F.checkKey r.key = .ok ()
  sound : List.Forall₂ (fun r c => F.Sound r.key c) records caches

/-! ### Values found with caches -/

/-- The sum of the values that some key halves have at the bucket of a plan with the given number. -/
def totalValue (p : Plan) (records : List KeyRecord) (caches : List NodeCache) (i : ℕ) : BucketShare :=
  (records.zipWith (fun r c => F.valueOf r.key p c i) caches).sum

/-- The caches of some key halves after the same parents of a plan have been kept in each of them. -/
def keepAll (p : Plan) (parents : List UInt64) (records : List KeyRecord) (caches : List NodeCache) : List NodeCache :=
  records.zipWith (fun r c => F.keep r.key p.parentBits c parents) caches

/-- Refuses key halves of which one is of another hierarchy. -/
def checkKeys (records : List KeyRecord) : Except PointFunction.Error Unit := records.forM fun r => F.checkKey r.key

/-- Caches that hold only nodes that are reached with their key halves. -/
abbrev SoundAll (records : List KeyRecord) (caches : List NodeCache) : Prop :=
  List.Forall₂ (fun r c => F.Sound r.key c) records caches

variable {F} {p : Plan} {records : List KeyRecord} {caches : List NodeCache}

theorem checkKeys_cons (record : KeyRecord) :
    checkKeys F (record :: records) = (F.checkKey record.key >>= fun _ => checkKeys F records) := rfl

theorem checkKeys_eq_ok : checkKeys F records = .ok () ↔ ∀ r ∈ records, F.checkKey r.key = .ok () := by
  induction records with
  | nil => exact ⟨fun _ _ hr => (nomatch hr), fun _ => rfl⟩
  | cons record records ih =>
    rw [List.forall_mem_cons, ← ih, checkKeys_cons, bind_eq_ok]
    exact ⟨fun ⟨_, hrecord, hrecords⟩ => ⟨hrecord, hrecords⟩, fun ⟨hrecord, hrecords⟩ => ⟨(), hrecord, hrecords⟩⟩

theorem totalValue_keepAll (parents : List UInt64) :
    totalValue F p records (keepAll F p parents records caches) = totalValue F p records caches := by
  funext i
  induction records generalizing caches with
  | nil => rfl
  | cons record records ih =>
    cases caches with
    | nil => rfl
    | cons cache caches =>
      have ih := @ih caches
      simp only [totalValue, keepAll, List.zipWith_cons_cons, List.sum_cons, valueOf_keep] at ih ⊢
      rw [ih]

theorem length_keepAll (hlength : records.length = caches.length) (parents : List UInt64) :
    records.length = (keepAll F p parents records caches).length := by
  rw [keepAll, List.length_zipWith, ← hlength, Nat.min_self]

theorem keepAll_nil (hlength : records.length = caches.length) : keepAll F p [] records caches = caches := by
  simp only [keepAll, keep_nil]
  exact List.ext_getElem (by simp [hlength]) fun i hi hi' => by rw [List.getElem_zipWith]

theorem keepAll_take {parents : List UInt64} {first done last : ℕ} (hfirst : first ≤ done) (hdone : done ≤ last) :
    keepAll F p ((parents.take last).drop first) records (keepAll F p (parents.take done) records caches) =
      keepAll F p (parents.take last) records caches := by
  induction records generalizing caches with
  | nil => rfl
  | cons record records ih =>
    cases caches with
    | nil => rfl
    | cons cache caches =>
      have ih := @ih caches
      simp only [keepAll, List.zipWith_cons_cons, keep_take hfirst hdone] at ih ⊢
      rw [ih]

/-- The parents of a segment, after those of the buckets before it. -/
theorem keepAll_segment (hlength : records.length = caches.length) (start length : ℕ) :
    keepAll F p ((p.parents.toList.take (p.parentsCovering start (min p.size (start + length))).2).drop
        (p.parentsCovering start (min p.size (start + length))).1) records
        (keepAll F p (p.parentsUpTo (min p.size start)) records caches) =
      keepAll F p (p.parentsUpTo (min p.size (start + length))) records caches := by
  rcases Nat.lt_or_ge start (min p.size (start + length)) with hlt | hge
  · obtain ⟨hfirst, hdone, hlast⟩ := Plan.parentsCovering_next (p := p) hlt
    rw [Nat.min_eq_right (by omega : start ≤ p.size), Plan.parentsUpTo, keepAll_take hfirst hdone, hlast,
      ← Plan.parentsUpTo]
  · have hsame : min p.size start = min p.size (start + length) := by omega
    rw [Plan.parentsCovering_of_le hge, hsame]
    exact keepAll_nil (length_keepAll hlength _)

/-! ### Segments -/

/-- The buckets up to the end of a segment are those up to its start and those in it. -/
theorem range_segment (size length k : ℕ) :
    List.range (min size (k * length)) ++ List.range' (k * length) (min size (k * length + length) - k * length) =
      List.range (min size ((k + 1) * length)) := by
  rw [Nat.succ_mul]
  rcases Nat.le_total size (k * length) with hle | hle
  · rw [Nat.min_eq_left hle, Nat.min_eq_left (by omega), Nat.sub_eq_zero_of_le hle, List.range'_zero, List.append_nil]
  · have hsum : k * length + (min size (k * length + length) - k * length) = min size (k * length + length) := by omega
    have happend := List.range'_append_1 (s := 0) (m := k * length) (n := min size (k * length + length) - k * length)
    rw [Nat.min_eq_right hle]
    rwa [Nat.zero_add, hsum, ← List.range_eq_range', ← List.range_eq_range'] at happend

theorem size_le_segments (size : ℕ) {length : ℕ} (hlength : 0 < length) :
    size ≤ (size + length - 1) / length * length := by
  have hdiv := Nat.lt_div_mul_add (a := size + length - 1) hlength
  omega

/-! ### Adding up -/

section Sized
variable (hp : p.Sized F.domain) (hlength : records.length = caches.length)
include hp hlength

/-- Every key half adds its values at the buckets of the run, and keeps the parents that cover them. -/
theorem addRange_eq (hkeys : ∀ r ∈ records, F.checkKey r.key = .ok ()) (start : ℕ) {stop : ℕ} (hstop : stop ≤ p.size)
    (value : ℕ → BucketShare) :
    addRange F p start stop records caches ((List.range' start (stop - start)).map value).toArray =
      (.ok ((List.range' start (stop - start)).map fun i => value i + totalValue F p records caches i).toArray,
        keepAll F p ((p.parents.toList.take (p.parentsCovering start stop).2).drop (p.parentsCovering start stop).1)
          records caches) := by
  induction records generalizing caches value with
  | nil =>
    obtain rfl := List.eq_nil_of_length_eq_zero hlength.symm
    simp only [addRange, totalValue, keepAll, List.zipWith_nil_left, List.sum_nil, add_zero]
  | cons record records ih =>
    obtain ⟨cache, caches, rfl⟩ := List.exists_cons_of_length_eq_add_one hlength.symm
    obtain ⟨hkey, hkeys⟩ := List.forall_mem_cons.mp hkeys
    obtain ⟨hle, hlast⟩ := Plan.parentsCovering_le start hstop
    have hcover (hlt : start < stop) : (p.parentsCovering start stop).1 * 2 ^ p.subtreeBits.toNat ≤ start ∧
        stop ≤ (p.parentsCovering start stop).1 * 2 ^ p.subtreeBits.toNat +
          ((p.parentsCovering start stop).2 - (p.parentsCovering start stop).1) * 2 ^ p.subtreeBits.toNat := by
      rw [← Nat.add_mul, Nat.add_sub_cancel' hle]
      exact Plan.parentsCovering_covers hlt
    have hwindow := toList_window (F.valueOf record.key p cache) (List.toArray _) rfl hcover
    have hsums {window : Array BucketShare}
        (hwindow : window.toList = (List.range' start (stop - start)).map (F.valueOf record.key p cache)) :
        ((List.range' start (stop - start)).map value).toArray.zipWith (· + ·) window =
          ((List.range' start (stop - start)).map fun i => value i + F.valueOf record.key p cache i).toArray := by
      refine Array.toList_inj.mp ?_
      rw [Array.toList_zipWith, hwindow, List.zipWith_map, List.zipWith_self]
    rw [addRange]
    simp only [expandParents_eq hp hkey hle hlast]
    rw [show Nat.pow 2 p.subtreeBits.toNat = 2 ^ p.subtreeBits.toNat from rfl, hsums hwindow,
      ih (Nat.succ_inj.mp hlength) hkeys]
    simp only [totalValue, keepAll, List.zipWith_cons_cons, List.sum_cons, add_assoc]

theorem addRange_of_refused {e : PointFunction.Error} (hrefused : checkKeys F records = .error e) (start : ℕ) {stop : ℕ}
    (hstop : stop ≤ p.size) (totals : Array BucketShare) :
    (addRange F p start stop records caches totals).1 = .error e := by
  induction records generalizing caches totals with
  | nil => cases hrefused
  | cons record records ih =>
    obtain ⟨cache, caches, rfl⟩ := List.exists_cons_of_length_eq_add_one hlength.symm
    rw [checkKeys_cons] at hrefused
    rw [addRange]
    cases hkey : F.checkKey record.key with
    | error e' =>
      rw [hkey] at hrefused
      cases hrefused
      simp only [expandParents_of_refused hkey]
    | ok u =>
      rw [hkey] at hrefused
      obtain ⟨hle, hlast⟩ := Plan.parentsCovering_le start hstop
      simp only [expandParents_eq hp hkey hle hlast]
      exact ih (Nat.succ_inj.mp hlength) hrefused _

/-- Segment after segment, after those before number `k`, gives the totals of all buckets up to the end of the last
    segment, and keeps the parents up to there. -/
theorem addSegments_eq (hkeys : ∀ r ∈ records, F.checkKey r.key = .ok ()) (length k count : ℕ) :
    addSegments F p length records ((List.range' k count).map (· * length))
        (keepAll F p (p.parentsUpTo (min p.size (k * length))) records caches)
        ((List.range (min p.size (k * length))).map (totalValue F p records caches)).toArray =
      (.ok ((List.range (min p.size ((k + count) * length))).map (totalValue F p records caches)).toArray,
        keepAll F p (p.parentsUpTo (min p.size ((k + count) * length))) records caches) := by
  induction count generalizing k with
  | zero => rfl
  | succ count ih =>
    have hzero : Array.replicate (min p.size (k * length + length) - k * length) (0 : BucketShare) =
        ((List.range' (k * length) (min p.size (k * length + length) - k * length)).map fun _ => 0).toArray := by
      refine Array.toList_inj.mp ?_
      rw [Array.toList_replicate, List.map_const', List.length_range']
    have hadd := addRange_eq hp (length_keepAll (F := F) (p := p) hlength (p.parentsUpTo (min p.size (k * length)))) hkeys
      (k * length) (Nat.min_le_left p.size (k * length + length)) fun _ => 0
    rw [keepAll_segment hlength, totalValue_keepAll] at hadd
    rw [List.range'_succ, List.map_cons, addSegments]
    simp only [hzero, hadd, zero_add]
    rw [List.append_toArray, ← List.map_append, range_segment, ← Nat.succ_mul, ih, Nat.succ_add_eq_add_succ]

theorem addSegments_of_refused {e : PointFunction.Error} (hrefused : checkKeys F records = .error e) (length : ℕ)
    {starts : List ℕ} (hstarts : starts ≠ []) (totals : Array BucketShare) :
    (addSegments F p length records starts caches totals).1 = .error e := by
  obtain ⟨start, starts, rfl⟩ := List.exists_cons_of_ne_nil hstarts
  have hadd := addRange_of_refused hp hlength hrefused start (Nat.min_le_left p.size (start + length))
    (Array.replicate (min p.size (start + length) - start) 0)
  rw [addSegments]
  generalize addRange F p start _ records caches _ = result at hadd ⊢
  obtain ⟨_, caches'⟩ := result
  subst hadd
  rfl

end Sized

/-! ### All buckets -/

/-- The starts of the segments in which the buckets of a plan are added up, one segment for all if they are added up
    at once. -/
def segmentBoundaries (p : Plan) (c : CombineParams) : List UInt64 :=
  if c.direct then [0] else (segmentStarts p.size c.segmentLength.toNat).map UInt64.ofNat

section Totals
variable {c : CombineParams} {context : EvaluationContext} (hp : p.Sized F.domain)
  (hc : c.direct = false → c.segmentLength ≠ 0) (hlength : context.records.length = context.caches.length)
include hp hc hlength

/-- Where all key halves are of the domain, both ways of adding up give the same totals and keep the same nodes. -/
theorem totals_of_keys (hkeys : ∀ r ∈ context.records, F.checkKey r.key = .ok ()) :
    totals F p c context =
      (.ok (((List.range p.size).map (totalValue F p context.records context.caches)).toArray, segmentBoundaries p c),
        keepAll F p p.parents.toList context.records context.caches) := by
  cases hdirect : c.direct with
  | true =>
    have hzero : Array.replicate p.size (0 : BucketShare) = ((List.range' 0 (p.size - 0)).map fun _ => 0).toArray := by
      refine Array.toList_inj.mp ?_
      rw [Array.toList_replicate, List.map_const', List.length_range', Nat.sub_zero]
    have hadd := addRange_eq hp hlength hkeys 0 (le_refl p.size) fun _ => 0
    rw [← hzero, Plan.parentsCovering_zero, List.drop_zero, ← Plan.parentsUpTo, Plan.parentsUpTo_size] at hadd
    simp only [totals, segmentBoundaries, hdirect, if_true, hadd, zero_add, Nat.sub_zero, ← List.range_eq_range']
    rfl
  | false =>
    have hpos : 0 < c.segmentLength.toNat :=
      Nat.pos_of_ne_zero fun hzero => hc hdirect (UInt64.toNat_inj.mp hzero)
    have hadd := addSegments_eq hp hlength hkeys c.segmentLength.toNat 0
      ((p.size + c.segmentLength.toNat - 1) / c.segmentLength.toNat)
    rw [Nat.zero_mul, Nat.min_zero, Plan.parentsUpTo_zero, keepAll_nil hlength, Nat.zero_add,
      Nat.min_eq_left (size_le_segments p.size hpos), Plan.parentsUpTo_size, ← List.range_eq_range'] at hadd
    have hstart : ((List.range 0).map (totalValue F p context.records context.caches)).toArray = #[] := rfl
    rw [hstart] at hadd
    simp only [totals, segmentBoundaries, hdirect, segmentStarts, hadd]
    rfl

/-- A round fails with the first key half that is refused, but where there are no segments none is looked at. -/
theorem totals_fst : (totals F p c context).1 =
      (if c.direct = false ∧ p.size = 0 then .ok () else checkKeys F context.records).map fun _ =>
        (((List.range p.size).map (totalValue F p context.records context.caches)).toArray, segmentBoundaries p c) := by
  have hpos (hdirect : c.direct = false) : 0 < c.segmentLength.toNat :=
    Nat.pos_of_ne_zero fun hzero => hc hdirect (UInt64.toNat_inj.mp hzero)
  by_cases hnone : c.direct = false ∧ p.size = 0
  · obtain ⟨hdirect, hsize⟩ := hnone
    have hstarts : segmentStarts 0 c.segmentLength.toNat = [] := by
      rw [segmentStarts, Nat.zero_add, Nat.div_eq_of_lt (Nat.sub_lt (hpos hdirect) Nat.one_pos)]
      rfl
    simp only [totals, segmentBoundaries, hdirect, hsize, hstarts, addSegments]
    rfl
  rw [if_neg hnone]
  cases hcheck : checkKeys F context.records with
  | ok u => rw [totals_of_keys hp hc hlength (checkKeys_eq_ok.mp hcheck)]; rfl
  | error e =>
    cases hdirect : c.direct with
    | true =>
      have hadd := addRange_of_refused hp hlength hcheck 0 (le_refl p.size) (Array.replicate p.size 0)
      simp only [totals, hdirect, if_true, hadd]
      rfl
    | false =>
      have hstarts : segmentStarts p.size c.segmentLength.toNat ≠ [] := by
        have hsize : 0 < p.size := Nat.pos_of_ne_zero fun hzero => hnone ⟨hdirect, hzero⟩
        have hle := size_le_segments p.size (hpos hdirect)
        rw [segmentStarts, ne_eq, List.map_eq_nil_iff, List.range_eq_nil]
        intro hzero
        rw [hzero, Nat.zero_mul] at hle
        omega
      simp only [totals, hdirect, addSegments_of_refused hp hlength hcheck _ hstarts]
      rfl

/-- Totals that are found have one share for each bucket, and the boundaries are those of the segments. -/
theorem totals_ok {result : Array BucketShare} {boundaries : List UInt64} {caches' : List NodeCache}
    (htotals : totals F p c context = (.ok (result, boundaries), caches')) :
    result.size = p.size ∧ boundaries = segmentBoundaries p c := by
  have hfst := totals_fst hp hc hlength
  rw [htotals] at hfst
  generalize (if c.direct = false ∧ p.size = 0 then Except.ok () else checkKeys F context.records) = checked at hfst
  cases checked with
  | error e => cases hfst
  | ok u =>
    cases hfst
    exact ⟨by rw [List.size_toArray, List.length_map, List.length_range], rfl⟩

end Totals

/-! ### Sound caches -/

theorem soundAll_empty (F : PointFunction BucketShare) (records : List KeyRecord) :
    SoundAll F records (records.map fun _ => .empty) := by
  rw [SoundAll, List.forall₂_map_right_iff]
  exact List.forall₂_same.mpr fun r _ => sound_empty F r.key

/-- Whatever comes of it, only nodes that are reached with a key half are kept for it. -/
theorem addRange_sound (hsound : SoundAll F records caches) (start stop : ℕ) (totals : Array BucketShare) :
    SoundAll F records (addRange F p start stop records caches totals).2 := by
  induction hsound generalizing totals with
  | nil => exact .nil
  | @cons record cache records caches hcache hcaches ih =>
    rw [addRange]
    cases hexpand : F.expandParents record.key p (p.parentsCovering start stop).1
      (p.parentsCovering start stop).2 cache with
    | error e => simp only [hexpand]; exact .cons hcache hcaches
    | ok found =>
      obtain ⟨values, cache'⟩ := found
      obtain ⟨-, hlt, hle, -, rfl⟩ := expandParents_ok hexpand
      have hbits : p.parentBits.toNat ≤ 64 := by
        have := UInt32.lt_iff_toNat_lt.mp hlt
        have := UInt32.le_iff_toNat_le.mp hle
        have := F.domain.bitLength_le
        omega
      simp only [hexpand]
      exact .cons (hcache.keep hbits _) (ih _)

theorem addSegments_sound (hsound : SoundAll F records caches) (length : ℕ) (starts : List ℕ) (totals : Array BucketShare) :
    SoundAll F records (addSegments F p length records starts caches totals).2 := by
  induction starts generalizing caches totals with
  | nil => exact hsound
  | cons start starts ih =>
    have hadd := addRange_sound (p := p) hsound start (min p.size (start + length))
      (Array.replicate (min p.size (start + length) - start) 0)
    rw [addSegments]
    generalize addRange F p start _ records caches _ = result at hadd ⊢
    obtain ⟨_ | segment, caches'⟩ := result
    · exact hadd
    · exact ih hadd _

theorem totals_sound {context : EvaluationContext} (hsound : SoundAll F context.records context.caches)
    (c : CombineParams) :
    SoundAll F context.records (totals F p c context).2 := by
  rw [totals]
  split
  · exact addRange_sound hsound _ _ _
  · exact addSegments_sound hsound _ _ _

theorem totalValue_eq_empty (hsound : SoundAll F records caches) (hbits : p.parentBits.toNat ≤ 64) :
    totalValue F p records caches = totalValue F p records (records.map fun _ => .empty) := by
  funext i
  induction hsound with
  | nil => rfl
  | cons hcache _ ih =>
    simp only [totalValue, List.map_cons, List.zipWith_cons_cons, List.sum_cons, valueOf_eq_empty hcache hbits] at ih ⊢
    rw [ih]

theorem totalValue_eq_totalShare (hp : p.Fits F.domain) (horder : InOrder F records caches) {i : ℕ} (hi : i < p.size) :
    totalValue F p records caches i = totalShare F records p.targetBits.toNat (p.bucket i) := by
  obtain ⟨hkeys, hsound⟩ := horder
  induction hsound with
  | nil => rfl
  | cons hcache _ ih =>
    obtain ⟨hkey, hkeys⟩ := List.forall_mem_cons.mp hkeys
    rw [totalShare_cons, ← ih hkeys, ← valueOf_eq_share hp.toSized hkey hcache hi]
    rfl

theorem buckets_eq_map_bucket : p.buckets.toList = (List.range p.size).map p.bucket := by
  rw [Plan.buckets, Array.toList_ofFn]
  exact List.ext_getElem (by simp) (by simp)

/-- The totals of a round over a context in order are the sums of all shares, bucket after bucket. -/
theorem totals_eq (hp : p.Fits F.domain) {c : CombineParams} (hc : c.direct = false → c.segmentLength ≠ 0)
    {context : EvaluationContext} (horder : InOrder F context.records context.caches) :
    ∃ result boundaries caches', totals F p c context = (.ok (result, boundaries), caches') ∧
      InOrder F context.records caches' ∧
      result.toList = p.buckets.toList.map (totalShare F context.records p.targetBits.toNat) := by
  have htotals := totals_of_keys hp.toSized hc horder.sound.length_eq horder.keys
  refine ⟨_, _, _, htotals, ⟨horder.keys, ?_⟩, ?_⟩
  · have hsound := totals_sound (p := p) horder.sound c
    rwa [htotals] at hsound
  · rw [buckets_eq_map_bucket, List.map_map]
    exact List.map_congr_left fun i hi => totalValue_eq_totalShare hp horder (List.mem_range.mp hi)

/-- Totals that are found at all are the sums of all shares, whether or not every key half has been looked at. -/
theorem toList_of_totals (hp : p.Fits F.domain) {c : CombineParams} (hc : c.direct = false → c.segmentLength ≠ 0)
    {context : EvaluationContext} (hsound : SoundAll F context.records context.caches) {result : Array BucketShare}
    {boundaries : List UInt64} {caches' : List NodeCache}
    (htotals : totals F p c context = (.ok (result, boundaries), caches')) :
    result.toList = p.buckets.toList.map (totalShare F context.records p.targetBits.toNat) := by
  have hfst := totals_fst hp.toSized hc hsound.length_eq
  rw [htotals] at hfst
  by_cases hnone : c.direct = false ∧ p.size = 0
  · rw [if_pos hnone] at hfst
    cases hfst
    rw [buckets_eq_map_bucket, hnone.2]
    rfl
  · rw [if_neg hnone] at hfst
    cases hcheck : checkKeys F context.records with
    | error e =>
      rw [hcheck] at hfst
      cases hfst
    | ok u =>
      obtain ⟨result', _, _, htotals', -, hresult⟩ := totals_eq hp hc ⟨checkKeys_eq_ok.mp hcheck, hsound⟩
      cases htotals.symm.trans htotals'
      exact hresult

end PrivateHistogram.Aggregation
