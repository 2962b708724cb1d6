import PrivateHistogram.Proofs.Aggregation.Merges
import PrivateHistogram.Proofs.Aggregation.Partitions

/-! Any histogram added to any other. A histogram of other bits or other noise is refused and leaves nothing behind. One
    that labels a bucket with another bucket key is refused too, but its shares stay, and its labels of the buckets before
    (`PartialHistogram.accumulate_outcome`). Where nothing is refused, the order and the grouping in which histograms are
    put together make no difference (`Accumulation.run_of_leaves`). -/

namespace PrivateHistogram

/-! ### Labels of different buckets -/

namespace Labels

/-- Labels after others of different buckets have come. -/
structure Takes (labels : Labels) (list : List (UInt64 × BucketLabel)) (labels' : Labels) : Prop where
  mem : ∀ b l, (b, l) ∈ list → labels'[b]? = some (chosen labels[b]? l)
  rest : ∀ b, (∀ l, (b, l) ∉ list) → labels'[b]? = labels[b]?

theorem Takes.cons {labels next labels' : Labels} {b : UInt64} {l : BucketLabel} {list : List (UInt64 × BucketLabel)}
    (hb : next[b]? = some (chosen labels[b]? l)) (hrest : ∀ b', b' ≠ b → next[b']? = labels[b']?)
    (hne : ∀ x ∈ list, x.1 ≠ b) (h : next.Takes list labels') : labels.Takes ((b, l) :: list) labels' := by
  refine ⟨fun b' l' hl' => ?_, fun b' hb' => ?_⟩
  · rcases List.mem_cons.mp hl' with heq | hl'
    · cases heq
      rw [h.rest b fun l' hl' => hne _ hl' rfl, hb]
    · rw [h.mem b' l' hl', hrest b' (hne _ hl')]
  · rw [h.rest b' fun l' hl' => hb' l' (List.mem_cons_of_mem _ hl'), hrest b' ?_]
    rintro rfl
    exact hb' l List.mem_cons_self

/-- Labels of different buckets are taken one after the other up to the first that its bucket refuses. -/
theorem addAll_outcome {list : List (UInt64 × BucketLabel)} (hlist : list.Pairwise fun x y => x.1 ≠ y.1) (labels : Labels) :
    (∃ labels', addAll list labels = (.ok (), labels') ∧ (∀ x ∈ list, ¬labels.Refuses x.1 x.2) ∧
      labels.Takes list labels') ∨
    ∃ done b l rest labels', list = done ++ (b, l) :: rest ∧ (∀ x ∈ done, ¬labels.Refuses x.1 x.2) ∧ labels.Refuses b l ∧
      addAll list labels = (.error (.bucketCollision b), labels') ∧ labels.Takes done labels' := by
  induction list generalizing labels with
  | nil => exact .inl ⟨labels, rfl, nofun, nofun, fun _ _ => rfl⟩
  | cons x list ih =>
    obtain ⟨b, l⟩ := x
    obtain ⟨hne, hlist⟩ := List.pairwise_cons.mp hlist
    rcases add_outcome b l labels with ⟨hrefuses, hadd⟩ | ⟨htaken, next, hadd, hb, hrest⟩
    · exact .inr ⟨[], b, l, list, labels, rfl, nofun, hrefuses, Attempt.bind_of_error hadd, nofun, fun _ _ => rfl⟩
    have hrun : addAll ((b, l) :: list) labels = addAll list next := Attempt.bind_of_ok hadd
    -- The label that has been taken makes no difference to those of other buckets.
    have hsame {b' : UInt64} (l' : BucketLabel) (hb' : b ≠ b') : next.Refuses b' l' ↔ labels.Refuses b' l' := by
      rw [Refuses, Refuses, hrest b' hb'.symm]
    rcases ih hlist next with
      ⟨labels', hok, hall, htakes⟩ | ⟨done, b', l', rest, labels', rfl, hall, hrefuses, herror, htakes⟩
    · refine .inl ⟨labels', hrun.trans hok, List.forall_mem_cons.mpr ⟨htaken, fun x hx => ?_⟩,
        htakes.cons hb hrest fun x hx => (hne x hx).symm⟩
      exact mt (hsame x.2 (hne x hx)).mpr (hall x hx)
    · have hdone {x : UInt64 × BucketLabel} (hx : x ∈ done) : b ≠ x.1 := hne x (List.mem_append_left _ hx)
      refine .inr ⟨(b, l) :: done, b', l', rest, labels', rfl, List.forall_mem_cons.mpr ⟨htaken, fun x hx => ?_⟩, ?_,
        hrun.trans herror, htakes.cons hb hrest fun x hx => (hdone hx).symm⟩
      · exact mt (hsame x.2 (hdone hx)).mpr (hall x hx)
      · exact (hsame l' (hne (b', l') (List.mem_append_right _ List.mem_cons_self))).mp hrefuses

/-- A bucket that is labelled twice, and with different bucket keys. -/
def Clash (labels other : Labels) (bucket : UInt64) : Prop :=
  ∃ label, other[bucket]? = some label ∧ labels.Refuses bucket label

/-- Labels with those that others have for some of the buckets. -/
structure Merged (labels other : Labels) (reached : UInt64 → Prop) (labels' : Labels) : Prop where
  taken : ∀ b, reached b → labels'[b]? = other[b]?.elim labels[b]? fun l => some (chosen labels[b]? l)
  kept : ∀ b, ¬reached b → labels'[b]? = labels[b]?

theorem Takes.merged {labels other labels' : Labels} {list : List (UInt64 × BucketLabel)} {reached : UInt64 → Prop}
    (h : labels.Takes list labels') (hmem : ∀ b l, (b, l) ∈ list ↔ reached b ∧ other[b]? = some l) :
    Merged labels other reached labels' := by
  refine ⟨fun b hb => ?_, fun b hb => h.rest b fun l hl => hb ((hmem b l).mp hl).1⟩
  cases hother : other[b]? with
  | none =>
    refine h.rest b fun l hl => ?_
    cases hother.symm.trans ((hmem b l).mp hl).2
  | some l => exact h.mem b l ((hmem b l).mpr ⟨hb, hother⟩)

/-- The labels of a histogram are taken in the order of their buckets, up to the first bucket in which two bucket keys
    meet. -/
theorem addAll_toList_outcome (labels other : Labels) :
    (∃ labels', addAll other.toList labels = (.ok (), labels') ∧ (∀ b, ¬Clash labels other b) ∧
      Merged labels other (fun _ => True) labels') ∨
    ∃ b labels', addAll other.toList labels = (.error (.bucketCollision b), labels') ∧ Clash labels other b ∧
      (∀ b' < b, ¬Clash labels other b') ∧ Merged labels other (· < b) labels' := by
  have hmem (b : UInt64) (l : BucketLabel) : (b, l) ∈ other.toList ↔ other[b]? = some l :=
    Std.ExtTreeMap.mem_toList_iff_getElem?_eq_some
  have hordered : other.toList.Pairwise fun x y => x.1 < y.1 :=
    Std.ExtTreeMap.ordered_keys_toList.imp fun h => Std.compare_eq_lt.mp h
  rcases addAll_outcome (hordered.imp UInt64.ne_of_lt) labels with
    ⟨labels', hok, hall, htakes⟩ | ⟨done, b, l, rest, labels', hsplit, hall, hrefuses, herror, htakes⟩
  · refine .inl ⟨labels', hok, ?_, htakes.merged fun b l => by rw [hmem, true_and]⟩
    rintro b ⟨l, hl, hrefuses⟩
    exact hall (b, l) ((hmem b l).mpr hl) hrefuses
  · rw [hsplit] at hordered
    obtain ⟨-, hrest, hdone⟩ := List.pairwise_append.mp hordered
    have hbefore (b' : UInt64) (l' : BucketLabel) : (b', l') ∈ done ↔ b' < b ∧ other[b']? = some l' := by
      rw [← hmem, hsplit, List.mem_append, List.mem_cons]
      constructor
      · intro hl'
        exact ⟨hdone _ hl' _ List.mem_cons_self, .inl hl'⟩
      · rintro ⟨hlt, hl' | heq | hl'⟩
        · exact hl'
        · cases heq
          exact absurd hlt (UInt64.lt_irrefl b)
        · exact absurd hlt (UInt64.lt_asymm ((List.pairwise_cons.mp hrest).1 _ hl'))
    refine .inr ⟨b, labels', herror, ⟨l, (hmem b l).mp ?_, hrefuses⟩, ?_, htakes.merged hbefore⟩
    · rw [hsplit]
      exact List.mem_append_right _ List.mem_cons_self
    · rintro b' hlt ⟨l', hl', hrefuses'⟩
      exact hall (b', l') ((hbefore b' l').mpr ⟨hlt, hl'⟩) hrefuses'

end Labels

/-! ### One histogram added to another -/

namespace PartialHistogram

open Aggregation (Error)

variable {a b h h' other : PartialHistogram}

theorem ext (bucketBits : a.bucketBits = b.bucketBits) (bitLength : a.bitLength = b.bitLength)
    (buckets : ∀ k : UInt64, a.buckets[k]? = b.buckets[k]?) (labels : a.labels = b.labels)
    (boundaries : a.boundaries = b.boundaries) (privacy : a.privacy = b.privacy) : a = b := by
  have hbuckets : a.buckets = b.buckets := Std.ExtTreeMap.ext_getElem? fun k => buckets k
  cases a
  cases b
  congr

/-- Histograms of the same bits, and with the same noise in them. -/
structure Compatible (h other : PartialHistogram) : Prop where
  bucketBits : h.bucketBits = other.bucketBits
  bitLength : h.bitLength = other.bitLength
  privacy : (h.privacy == other.privacy) = true

/-- A histogram with the shares of another, and with those of its labels that were reached. -/
structure Receives (h other : PartialHistogram) (reached : UInt64 → Prop) (h' : PartialHistogram) : Prop where
  bucketBits : h'.bucketBits = h.bucketBits
  bitLength : h'.bitLength = h.bitLength
  privacy : h'.privacy = h.privacy
  buckets : ∀ k, h'.buckets[k]? = other.buckets[k]?.elim h.buckets[k]? fun share => some (h.share k + share)
  labels : Labels.Merged h.labels other.labels reached h'.labels

theorem accumulate_of_not_compatible (hnot : ¬Compatible h other) :
    ∃ detail, accumulate other h = (.error (.incompatible detail), h) := by
  rw [accumulate]
  rcases hcheck : h.checkCompatible other with e | u
  · rw [checkCompatible] at hcheck
    split at hcheck
    · cases hcheck
      exact ⟨_, rfl⟩
    · cases hcheck
  · obtain ⟨hbits, hlength⟩ := Release.checkCompatible_eq_ok.mp hcheck
    have hprivacy : (h.privacy != other.privacy) = true := by
      rw [bne, Bool.not_eq_true', ← Bool.not_eq_true]
      exact fun heq => hnot ⟨hbits, hlength, heq⟩
    exact ⟨_, if_pos hprivacy⟩

theorem accumulate_of_compatible (hcompatible : Compatible h other) :
    accumulate other h = match Labels.addAll other.labels.toList h.labels with
      | (.error e, labels) => (.error e, { h with buckets := addBuckets h.buckets other.buckets, labels })
      | (.ok (), labels) => (.ok (), { h with
          buckets := addBuckets h.buckets other.buckets, labels
          boundaries := increasing (h.boundaries ++ other.boundaries) }) := by
  have hprivacy : ¬(h.privacy != other.privacy) = true := by
    rw [bne, hcompatible.privacy]
    exact nofun
  rw [accumulate, Release.checkCompatible_eq_ok.mpr ⟨hcompatible.bucketBits, hcompatible.bitLength⟩]
  exact if_neg hprivacy

theorem receives_of_merged {reached : UInt64 → Prop} {labels : Labels} (boundaries : List UInt64)
    (hlabels : Labels.Merged h.labels other.labels reached labels) :
    Receives h other reached { h with buckets := addBuckets h.buckets other.buckets, labels, boundaries } := by
  refine ⟨rfl, rfl, rfl, fun k => ?_, hlabels⟩
  rw [getElem?_addBuckets]
  cases other.buckets[k]? <;> rfl

/-- What has been added leaves a histogram as it was exactly if its shares are all zero and of buckets that were there
    already, and its labels are not of smaller reports than those that were there. -/
theorem Receives.eq_iff {bucket : UInt64} (hreceives : Receives h other (· < bucket) h')
    (hboundaries : h'.boundaries = h.boundaries) :
    h' = h ↔ (∀ k share, other.buckets[k]? = some share → k ∈ h.buckets ∧ share = 0) ∧
      ∀ k < bucket, ∀ l', other.labels[k]? = some l' →
        ∃ l, h.labels[k]? = some l ∧ (compare l.reportId l'.reportId).isLE = true := by
  constructor
  · rintro rfl
    refine ⟨fun k share hshare => ?_, fun k hk l' hl' => ?_⟩
    · have hheld := hreceives.buckets k
      rw [hshare, Option.elim_some] at hheld
      refine ⟨Std.ExtTreeMap.mem_iff_isSome_getElem?.mpr (hheld ▸ rfl), ?_⟩
      have hsum : h'.share k = h'.share k + share := by
        conv_lhs => rw [PartialHistogram.share, hheld]
        rfl
      exact left_eq_add.mp hsum
    · have hheld := hreceives.labels.taken k hk
      rw [hl', Option.elim_some] at hheld
      refine ⟨_, hheld, ?_⟩
      cases hl : h'.labels[k]? with
      | none => cases hl.symm.trans hheld
      | some l =>
        rw [Labels.chosen]
        split
        · assumption
        · exact Std.ReflCmp.isLE_rfl
  · rintro ⟨hshares, hlabels⟩
    refine ext hreceives.bucketBits hreceives.bitLength (fun k => ?_) (Std.ExtTreeMap.ext_getElem? fun k => ?_) hboundaries
      hreceives.privacy
    · rw [hreceives.buckets]
      cases hshare : other.buckets[k]? with
      | none => rfl
      | some share =>
        obtain ⟨hmem, rfl⟩ := hshares k share hshare
        have hheld := Std.ExtTreeMap.getElem?_eq_some_getElem hmem
        rw [Option.elim_some, add_zero, PartialHistogram.share, hheld, Option.getD_some]
    · by_cases hk : k < bucket
      · rw [hreceives.labels.taken k hk]
        cases hl' : other.labels[k]? with
        | none => rfl
        | some l' =>
          obtain ⟨l, hl, hle⟩ := hlabels k hk l' hl'
          rw [Option.elim_some, hl, Labels.chosen, if_pos hle]
      · exact hreceives.labels.kept k hk

/-- What comes of adding a histogram to another. One that is of other bits or of other noise is refused, and nothing
    changes. If the two label a bucket with different bucket keys, the smallest such bucket is reported, but the shares of
    all buckets have been added by then, and the labels of the buckets before. The histogram is as before only if there
    was nothing to add. Otherwise all of the other is added. -/
theorem accumulate_outcome (h other : PartialHistogram) :
    (¬Compatible h other ∧ ∃ detail, accumulate other h = (.error (.incompatible detail), h)) ∨
    (Compatible h other ∧ ∃ bucket h', accumulate other h = (.error (.bucketCollision bucket), h') ∧
      Labels.Clash h.labels other.labels bucket ∧ (∀ k < bucket, ¬Labels.Clash h.labels other.labels k) ∧
      Receives h other (· < bucket) h' ∧ h'.boundaries = h.boundaries ∧
      (h' = h ↔ (∀ k share, other.buckets[k]? = some share → k ∈ h.buckets ∧ share = 0) ∧
        ∀ k < bucket, ∀ l', other.labels[k]? = some l' →
          ∃ l, h.labels[k]? = some l ∧ (compare l.reportId l'.reportId).isLE = true)) ∨
    (Compatible h other ∧ ∃ h', accumulate other h = (.ok (), h') ∧ (∀ k, ¬Labels.Clash h.labels other.labels k) ∧
      Receives h other (fun _ => True) h' ∧ h'.boundaries = increasing (h.boundaries ++ other.boundaries)) := by
  by_cases hcompatible : Compatible h other
  · rw [accumulate_of_compatible hcompatible]
    rcases Labels.addAll_toList_outcome h.labels other.labels with
      ⟨labels, hadd, hnone, hmerged⟩ | ⟨bucket, labels, hadd, hclash, hbefore, hmerged⟩
    · rw [hadd]
      exact .inr (.inr ⟨hcompatible, _, rfl, hnone, receives_of_merged _ hmerged, rfl⟩)
    · rw [hadd]
      have hreceives := receives_of_merged h.boundaries hmerged
      exact .inr (.inl ⟨hcompatible, bucket, _, rfl, hclash, hbefore, hreceives, rfl, hreceives.eq_iff rfl⟩)
  · exact .inl ⟨hcompatible, accumulate_of_not_compatible hcompatible⟩

/-- Two histograms of one bucket each, labelled with different bucket keys: adding one to the other is refused, but the
    share stays. -/
theorem refused_shares_stay :
    let bucket (aggregationId : Octets 32) (share : BucketShare) : PartialHistogram :=
      ⟨1, 1, Std.ExtTreeMap.insert ∅ 0 share, Std.ExtTreeMap.insert ∅ 0 ⟨0, aggregationId, ⟨Octets.zero 16⟩, []⟩, [0], none⟩
    let h := bucket (Octets.zero 32) ⟨.ofNat 1, 1⟩
    let other := bucket (Octets.ofNatLittle 32 1) ⟨.ofNat 2, 1⟩
    (accumulate other h).1 = .error (.bucketCollision 0) ∧ (accumulate other h).2 ≠ h ∧
      (accumulate other h).2.share 0 = ⟨.ofNat 3, .ofNat 2⟩ := by
  intro bucket h other
  have herror : (accumulate other h).1 = .error (.bucketCollision 0) := by decide +kernel
  have hshare : (accumulate other h).2.share 0 = ⟨.ofNat 3, .ofNat 2⟩ := by decide +kernel
  refine ⟨herror, fun heq => ?_, hshare⟩
  rw [heq] at hshare
  exact absurd hshare (by decide +kernel)

/-! ### Sums of shares -/

theorem getD_addBuckets (one two : Std.ExtTreeMap UInt64 BucketShare) (k : UInt64) :
    (addBuckets one two)[k]?.getD 0 = one[k]?.getD 0 + two[k]?.getD 0 := by
  rw [getElem?_addBuckets]
  cases two[k]? with
  | none => exact (add_zero _).symm
  | some share => rfl

theorem mem_addBuckets (one two : Std.ExtTreeMap UInt64 BucketShare) (k : UInt64) :
    k ∈ addBuckets one two ↔ k ∈ one ∨ k ∈ two := by
  simp only [Std.ExtTreeMap.mem_iff_isSome_getElem?, getElem?_addBuckets]
  cases two[k]? <;> simp

theorem getElem?_eq_of_share (hmem : ∀ k, k ∈ a.buckets ↔ k ∈ b.buckets) (hshare : ∀ k, a.share k = b.share k)
    (k : UInt64) :
    a.buckets[k]? = b.buckets[k]? := by
  have hmem := hmem k
  have hshare := hshare k
  rw [Std.ExtTreeMap.mem_iff_isSome_getElem?, Std.ExtTreeMap.mem_iff_isSome_getElem?] at hmem
  rw [share, share] at hshare
  cases ha : a.buckets[k]? <;> cases hb : b.buckets[k]? <;> simp_all

end PartialHistogram

/-! ### Many histograms -/

/-- Histograms put together two at a time: the right one is added to the left one. -/
inductive Accumulation
  | single (h : PartialHistogram)
  | join (left right : Accumulation)

namespace Accumulation

open Aggregation (Error)

def histograms : Accumulation → List PartialHistogram
  | single h => [h]
  | join left right => left.histograms ++ right.histograms

def run : Accumulation → Except Error PartialHistogram
  | single h => .ok h
  | join left right => do
    let h ← left.run
    let other ← right.run
    let (result, h) := PartialHistogram.accumulate other h
    result.map fun () => h

theorem histograms_ne_nil (t : Accumulation) : t.histograms ≠ [] := by
  induction t with
  | single h => exact List.cons_ne_nil h []
  | join left right ihl _ => exact List.append_ne_nil_of_left_ne_nil ihl _

/-- Histograms that are of the same bits, have the same noise in them, and have one label only for the same report in the
    same bucket. Noise of a budget that is no number is not even the same as itself. -/
structure Alike (list : List PartialHistogram) : Prop where
  compatible : ∀ a ∈ list, ∀ b ∈ list, PartialHistogram.Compatible a b
  labels : ∀ a ∈ list, ∀ b ∈ list, ∀ (k : UInt64) (la lb : BucketLabel), a.labels[k]? = some la → b.labels[k]? = some lb →
    la.reportId = lb.reportId → la = lb

theorem Alike.of_subset {list list' : List PartialHistogram} (h : Alike list) (hsubset : list' ⊆ list) : Alike list' :=
  ⟨fun a ha b hb => h.compatible a (hsubset ha) b (hsubset hb), fun a ha b hb => h.labels a (hsubset ha) b (hsubset hb)⟩

/-- Two of the histograms label a bucket with different bucket keys. -/
def Clashing (list : List PartialHistogram) : Prop := ∃ a ∈ list, ∃ b ∈ list, ∃ k, Labels.Clash a.labels b.labels k

def labelsOf (list : List PartialHistogram) : List (UInt64 × BucketLabel) := list.flatMap fun h => h.labels.toList

theorem mem_labelsOf {list : List PartialHistogram} {k : UInt64} {l : BucketLabel} :
    (k, l) ∈ labelsOf list ↔ ∃ h ∈ list, h.labels[k]? = some l := by
  rw [labelsOf, List.mem_flatMap]
  simp only [Std.ExtTreeMap.mem_toList_iff_getElem?_eq_some]

theorem labelsOf_subset {list list' : List PartialHistogram} (hsubset : list' ⊆ list) : labelsOf list' ⊆ labelsOf list := by
  rintro ⟨k, l⟩ hl
  obtain ⟨h, hh, hl⟩ := mem_labelsOf.mp hl
  exact mem_labelsOf.mpr ⟨h, hsubset hh, hl⟩

theorem agree_labelsOf {list : List PartialHistogram} : Labels.Agree (labelsOf list) ↔ ¬Clashing list := by
  constructor
  · rintro hagree ⟨a, ha, b, hb, k, lb, hlb, la, hla, hne⟩
    exact hne (hagree k la lb (mem_labelsOf.mpr ⟨a, ha, hla⟩) (mem_labelsOf.mpr ⟨b, hb, hlb⟩))
  · intro hnot k la lb hla hlb
    obtain ⟨a, ha, hla⟩ := mem_labelsOf.mp hla
    obtain ⟨b, hb, hlb⟩ := mem_labelsOf.mp hlb
    by_contra hne
    exact hnot ⟨a, ha, b, hb, k, lb, hlb, la, hla, hne⟩

/-- The boundaries of histograms that have been put together. Those of a single one are as they are. -/
def boundariesOf (list : List PartialHistogram) : List UInt64 :=
  let all := list.flatMap PartialHistogram.boundaries
  if list.length = 1 then all else increasing all

theorem mem_boundariesOf {list : List PartialHistogram} {x : UInt64} :
    x ∈ boundariesOf list ↔ x ∈ list.flatMap PartialHistogram.boundaries := by
  rw [boundariesOf]
  split
  · rfl
  · exact mem_increasing

theorem boundariesOf_append {one two : List PartialHistogram} (hone : one ≠ []) (htwo : two ≠ []) :
    boundariesOf (one ++ two) = increasing (boundariesOf one ++ boundariesOf two) := by
  have hlength : (one ++ two).length ≠ 1 := by
    have := List.length_pos_iff.mpr hone
    have := List.length_pos_iff.mpr htwo
    rw [List.length_append]
    omega
  rw [boundariesOf, if_neg hlength]
  refine increasing_congr fun x => ?_
  rw [List.mem_append, mem_boundariesOf, mem_boundariesOf, List.flatMap_append, List.mem_append]

theorem boundariesOf_perm {list list' : List PartialHistogram} (hperm : list.Perm list') :
    boundariesOf list = boundariesOf list' := by
  rw [boundariesOf, boundariesOf, hperm.length_eq]
  split
  · rename_i hlength
    obtain ⟨h, rfl⟩ := List.length_eq_one_iff.mp hlength
    rw [List.perm_singleton.mp hperm]
  · exact increasing_congr fun x => (hperm.flatMap_right PartialHistogram.boundaries).mem_iff

/-- What histograms make together. -/
structure IsTotal (list : List PartialHistogram) (h : PartialHistogram) : Prop where
  /-- The bits and the noise are those of one of them. -/
  first : ∃ a ∈ list, h.bucketBits = a.bucketBits ∧ h.bitLength = a.bitLength ∧ h.privacy = a.privacy
  mem : ∀ k, k ∈ h.buckets ↔ ∃ a ∈ list, k ∈ a.buckets
  share : ∀ k, h.share k = (list.map fun a => a.share k).sum
  smallest : Labels.Smallest (labelsOf list) h.labels
  agree : Labels.Agree (labelsOf list)
  boundaries : h.boundaries = boundariesOf list

theorem isTotal_singleton (h : PartialHistogram) : IsTotal [h] h := by
  have hmem {k : UInt64} {l : BucketLabel} : (k, l) ∈ labelsOf [h] ↔ h.labels[k]? = some l := by
    rw [mem_labelsOf]
    simp
  refine ⟨⟨h, List.mem_singleton_self h, rfl, rfl, rfl⟩, fun k => by simp, fun k => (List.sum_singleton).symm,
    ⟨fun k l hl => hmem.mpr hl, fun k l l' hl hl' => ?_, fun k l hl => ⟨l, hmem.mp hl⟩⟩, fun k l l' hl hl' => ?_,
    (List.flatMap_singleton ..).symm⟩
  · cases hl.symm.trans (hmem.mp hl')
    exact Std.ReflCmp.isLE_rfl
  · cases (hmem.mp hl).symm.trans (hmem.mp hl')
    rfl

theorem IsTotal.compatible {one two : List PartialHistogram} {a b : PartialHistogram} (ha : IsTotal one a)
    (hb : IsTotal two b) (h : ∀ x ∈ one, ∀ y ∈ two, PartialHistogram.Compatible x y) : PartialHistogram.Compatible a b := by
  obtain ⟨x, hx, hbits, hlength, hprivacy⟩ := ha.first
  obtain ⟨y, hy, hbits', hlength', hprivacy'⟩ := hb.first
  obtain ⟨hxbits, hxlength, hxprivacy⟩ := h x hx y hy
  exact ⟨by rw [hbits, hbits', hxbits], by rw [hlength, hlength', hxlength], by rw [hprivacy, hprivacy', hxprivacy]⟩

/-- Two that have been put together are put together to what all of them make, exactly if all labels agree. -/
theorem IsTotal.accumulate_cases {one two : List PartialHistogram} {a b : PartialHistogram} (halike : Alike (one ++ two))
    (ha : IsTotal one a) (hb : IsTotal two b) (hone : one ≠ []) (htwo : two ≠ []) :
    (∃ h, PartialHistogram.accumulate b a = (.ok (), h) ∧ IsTotal (one ++ two) h) ∨
    ∃ k h, PartialHistogram.accumulate b a = (.error (.bucketCollision k), h) ∧ ¬Labels.Agree (labelsOf (one ++ two)) := by
  have hcompatible : PartialHistogram.Compatible a b := ha.compatible hb fun x hx y hy =>
    halike.compatible x (List.mem_append_left _ hx) y (List.mem_append_right _ hy)
  have hlabels : labelsOf (one ++ two) = labelsOf one ++ labelsOf two := List.flatMap_append
  rw [PartialHistogram.accumulate_of_compatible hcompatible]
  rcases ha.smallest.addAll_toList_cases ha.agree hb.smallest hb.agree with
    ⟨labels, hadd, hsmallest, hagree⟩ | ⟨k, labels, hadd, hnot⟩
  · rw [hadd]
    obtain ⟨x, hx, hfirst⟩ := ha.first
    refine .inl ⟨_, rfl, ⟨x, List.mem_append_left _ hx, hfirst⟩, fun k => ?_, fun k => ?_, hlabels ▸ hsmallest,
      hlabels ▸ hagree, ?_⟩
    · simp only [PartialHistogram.mem_addBuckets, ha.mem, hb.mem, List.mem_append, or_and_right, exists_or]
    · rw [List.map_append, List.sum_append, ← ha.share, ← hb.share]
      exact PartialHistogram.getD_addBuckets a.buckets b.buckets k
    · rw [boundariesOf_append hone htwo, ha.boundaries, hb.boundaries]
  · rw [hadd]
    exact .inr ⟨k, _, rfl, hlabels ▸ hnot⟩

theorem run_join_of_ok {left right : Accumulation} {a b : PartialHistogram} (ha : left.run = .ok a)
    (hb : right.run = .ok b) :
    (join left right).run = (PartialHistogram.accumulate b a).1.map fun () => (PartialHistogram.accumulate b a).2 := by
  rw [run, ha, hb]
  rfl

/-- Alike histograms are put together to what they all make, exactly if all their labels agree. -/
theorem run_outcome {t : Accumulation} (halike : Alike t.histograms) :
    (∃ h, t.run = .ok h ∧ IsTotal t.histograms h) ∨
    ∃ k, t.run = .error (.bucketCollision k) ∧ ¬Labels.Agree (labelsOf t.histograms) := by
  induction t with
  | single h => exact .inl ⟨h, rfl, isTotal_singleton h⟩
  | join left right ihl ihr =>
    have hleft : left.histograms ⊆ (join left right).histograms := List.subset_append_left _ _
    have hright : right.histograms ⊆ (join left right).histograms := List.subset_append_right _ _
    rcases ihl (halike.of_subset hleft) with ⟨a, ha, htotal⟩ | ⟨k, herror, hnot⟩
    · rcases ihr (halike.of_subset hright) with ⟨b, hb, htotal'⟩ | ⟨k, herror, hnot⟩
      · rcases htotal.accumulate_cases halike htotal' left.histograms_ne_nil right.histograms_ne_nil with
          ⟨h, hrun, hall⟩ | ⟨k, h, hrun, hnot⟩
        · exact .inl ⟨h, by rw [run_join_of_ok ha hb, hrun]; rfl, hall⟩
        · exact .inr ⟨k, by rw [run_join_of_ok ha hb, hrun]; rfl, hnot⟩
      · refine .inr ⟨k, by rw [run, ha, herror]; rfl, fun hagree => hnot (hagree.of_subset (labelsOf_subset hright))⟩
    · refine .inr ⟨k, by rw [run, herror]; rfl, fun hagree => hnot (hagree.of_subset (labelsOf_subset hleft))⟩

/-- The same histograms make the same, but for the noise, which is that of one of them. -/
structure Same (h h' : PartialHistogram) : Prop where
  bucketBits : h.bucketBits = h'.bucketBits
  bitLength : h.bitLength = h'.bitLength
  buckets : h.buckets = h'.buckets
  labels : h.labels = h'.labels
  boundaries : h.boundaries = h'.boundaries
  privacy : (h.privacy == h'.privacy) = true

theorem IsTotal.same {one two : List PartialHistogram} {h h' : PartialHistogram} (halike : Alike one) (ha : IsTotal one h)
    (hb : IsTotal two h') (hperm : one.Perm two) : Same h h' := by
  obtain ⟨hbits, hlength, hprivacy⟩ := ha.compatible hb fun x hx y hy => halike.compatible x hx y (hperm.mem_iff.mpr hy)
  refine ⟨hbits, hlength, Std.ExtTreeMap.ext_getElem? fun k => PartialHistogram.getElem?_eq_of_share (fun k => ?_)
    (fun k => ?_) k, ha.smallest.unique hb.smallest (fun x => (hperm.flatMap_right _).mem_iff) ?_, ?_, hprivacy⟩
  · rw [ha.mem, hb.mem]
    simp only [hperm.mem_iff]
  · rw [ha.share, hb.share]
    exact (hperm.map _).sum_eq
  · intro k l l' hl hl'
    obtain ⟨a, ha, hla⟩ := mem_labelsOf.mp hl
    obtain ⟨b, hb, hlb⟩ := mem_labelsOf.mp hl'
    exact halike.labels a ha b hb k l l' hla hlb
  · rw [ha.boundaries, hb.boundaries, boundariesOf_perm hperm]

/-- Alike histograms are put together in any order and any grouping with one outcome. If two of them label a bucket with
    different bucket keys, that is found every time, and nothing else is. If no two do, what is found is always the same. -/
theorem run_of_leaves {list : List PartialHistogram} (halike : Alike list) {t t' : Accumulation}
    (ht : t.histograms.Perm list) (ht' : t'.histograms.Perm list) :
    (Clashing list ∧ (∃ k, t.run = .error (.bucketCollision k)) ∧ ∃ k, t'.run = .error (.bucketCollision k)) ∨
    (¬Clashing list ∧ ∃ h h', t.run = .ok h ∧ t'.run = .ok h' ∧ Same h h') := by
  have hagree {t : Accumulation} (ht : t.histograms.Perm list) : Labels.Agree (labelsOf t.histograms) ↔ ¬Clashing list := by
    rw [← agree_labelsOf]
    exact ⟨fun h => h.of_subset (labelsOf_subset ht.symm.subset),
      fun h => h.of_subset (labelsOf_subset ht.subset)⟩
  rcases run_outcome (halike.of_subset ht.subset) with ⟨h, hrun, htotal⟩ | ⟨k, hrun, hnot⟩ <;>
    rcases run_outcome (halike.of_subset ht'.subset) with ⟨h', hrun', htotal'⟩ | ⟨k', hrun', hnot'⟩
  · exact .inr ⟨(hagree ht).mp htotal.agree, h, h', hrun, hrun',
      htotal.same (halike.of_subset ht.subset) htotal' (ht.trans ht'.symm)⟩
  · exact absurd ((hagree ht').mpr ((hagree ht).mp htotal.agree)) hnot'
  · exact absurd ((hagree ht).mpr ((hagree ht').mp htotal'.agree)) hnot
  · exact .inl ⟨not_not.mp (mt (hagree ht).mpr hnot), ⟨k, hrun⟩, k', hrun'⟩

/-- Three histograms of one bucket, which are labelled with three reports of one bucket key. -/
theorem run_of_leaves_three :
    let one (report : Fin 3) : PartialHistogram := ⟨1, 1, Std.ExtTreeMap.insert ∅ 0 ⟨.ofNat report, 1⟩,
      Std.ExtTreeMap.insert ∅ 0 ⟨0, Octets.zero 32, ⟨Octets.ofNatLittle 16 report⟩, [.ofNat report]⟩, [1, 0], none⟩
    let t : Accumulation := .join (.join (.single (one 2)) (.single (one 0))) (.single (one 1))
    let t' : Accumulation := .join (.single (one 0)) (.join (.single (one 1)) (.single (one 2)))
    Alike (List.map one [0, 1, 2]) ∧ ∃ h h', t.run = .ok h ∧ t'.run = .ok h' ∧ Same h h' := by
  intro one t t'
  have hlabel {report : Fin 3} {k : UInt64} {l : BucketLabel} (hl : (one report).labels[k]? = some l) :
      l = ⟨0, Octets.zero 32, ⟨Octets.ofNatLittle 16 report⟩, [.ofNat report]⟩ := by
    rw [Std.ExtTreeMap.getElem?_insert] at hl
    split at hl
    · exact (Option.some.inj hl).symm
    · simp at hl
  have hid : ∀ i j : Fin 3, Octets.ofNatLittle 16 i = Octets.ofNatLittle 16 j → i = j := by decide
  have halike : Alike (List.map one [0, 1, 2]) := by
    refine ⟨fun a ha b hb => ?_, fun a ha b hb k la lb hla hlb hsame => ?_⟩
    · obtain ⟨i, -, rfl⟩ := List.mem_map.mp ha
      obtain ⟨j, -, rfl⟩ := List.mem_map.mp hb
      exact ⟨rfl, rfl, rfl⟩
    · obtain ⟨i, -, rfl⟩ := List.mem_map.mp ha
      obtain ⟨j, -, rfl⟩ := List.mem_map.mp hb
      obtain rfl := hlabel hla
      obtain rfl := hlabel hlb
      rw [hid i j (ReportId.mk.inj hsame)]
  have hperm : t.histograms.Perm (List.map one [0, 1, 2]) :=
    ((List.Perm.swap 2 0 [1]).symm.trans ((List.Perm.swap 1 2 []).cons 0)).map one
  refine ⟨halike, ?_⟩
  rcases run_of_leaves halike hperm (show t'.histograms.Perm _ from .refl _) with ⟨-, ⟨k, hrun⟩, -⟩ | ⟨-, h⟩
  · have hok : t.run.toBool = true := by decide +kernel
    rw [hrun] at hok
    cases hok
  · exact h

end Accumulation

end PrivateHistogram
