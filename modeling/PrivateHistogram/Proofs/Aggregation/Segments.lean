import PrivateHistogram.Proofs.Aggregation.Outcomes

/-! Rounds that add up segment by segment. Such a round does what the same round does that adds up all buckets at once,
    but for the boundaries that it reports (`aggregate_segmented`). Its segments start at the multiples of their length,
    and though the length can be as large as a word, nothing that is computed for a segment is too large for one
    (`SegmentInRange`). -/

namespace PrivateHistogram.Aggregation

open PointFunction

theorem segmentStarts_eq (size : ℕ) {length : ℕ} (hlength : 0 < length) :
    segmentStarts size length = (List.range size).filter (length ∣ ·) := by
  have hincreasing : (segmentStarts size length).Pairwise (· < ·) := by
    rw [segmentStarts, List.pairwise_map]
    exact List.pairwise_lt_range.imp fun hlt => Nat.mul_lt_mul_of_pos_right hlt hlength
  refine hincreasing.eq_of_mem_iff (List.pairwise_lt_range.filter _) fun start => ?_
  have hcount (k : ℕ) : k < (size + length - 1) / length ↔ k * length < size := by
    rw [Nat.lt_iff_add_one_le, Nat.le_div_iff_mul_le hlength, Nat.succ_mul]
    omega
  simp only [segmentStarts, List.mem_map, List.mem_range, List.mem_filter, decide_eq_true_eq, hcount]
  constructor
  · rintro ⟨k, hk, rfl⟩
    exact ⟨hk, Nat.dvd_mul_left length k⟩
  · rintro ⟨hlt, k, rfl⟩
    exact ⟨k, by rwa [Nat.mul_comm], Nat.mul_comm k length⟩

/-- Nothing goes out of range in the segment of a plan that starts at a bucket: neither the ends of the segment, nor the
    parents that cover it and the bucket that the first of them starts with, nor what is cut out of the values below
    them. -/
structure SegmentInRange (F : PointFunction BucketShare) (p : Plan) (start stop : ℕ) : Prop where
  start_lt : start < stop
  stop_le : stop ≤ p.size
  bits_le : p.parentBits ≤ p.targetBits
  depth_lt : p.subtreeBits < 64
  first_le : (p.parentsCovering start stop).1 ≤ (p.parentsCovering start stop).2
  last_le : (p.parentsCovering start stop).2 ≤ p.parents.size
  offset_lt : (p.parentsCovering start stop).1 * 2 ^ p.subtreeBits.toNat < 2 ^ 64
  offset_le : (p.parentsCovering start stop).1 * 2 ^ p.subtreeBits.toNat ≤ start
  window_le : ∀ k values c c',
    F.expandParents k p (p.parentsCovering start stop).1 (p.parentsCovering start stop).2 c = .ok (values, c') →
      stop - (p.parentsCovering start stop).1 * 2 ^ p.subtreeBits.toNat ≤ values.size

variable {F : PointFunction BucketShare} {p : Plan}

theorem segmentInRange_of_sized (hp : p.Sized F.domain) {start stop : ℕ} (hstart : start < stop) (hstop : stop ≤ p.size) :
    SegmentInRange F p start stop := by
  obtain ⟨hfirst, hlast⟩ := Plan.parentsCovering_le start hstop
  obtain ⟨hoffset, hcover⟩ := Plan.parentsCovering_covers (p := p) hstart
  refine ⟨hstart, hstop, UInt32.le_of_lt hp.bits_lt, UInt32.lt_iff_toNat_lt.mpr hp.depth_lt, hfirst, hlast, ?_, hoffset, ?_⟩
  · calc _ ≤ p.size := hoffset.trans (hstart.le.trans hstop)
      _ ≤ 2 ^ 24 := hp.size_le
      _ < 2 ^ 64 := by decide
  · intro k values c c' hexpand
    rw [expandParents_eq hp (expandParents_ok hexpand).1 hfirst hlast] at hexpand
    cases hexpand
    rw [List.size_toArray, List.length_map, List.length_range', Nat.sub_mul]
    omega

/-- The end of a segment is found without going beyond the largest word, however large its length is. -/
theorem segment_lt {size : ℕ} (hsize : size ≤ 2 ^ 24) {length : UInt64} {start : ℕ}
    (hstart : start ∈ segmentStarts size length.toNat) (hlength : 0 < length.toNat) :
    start < size ∧ start + length.toNat < 2 ^ 64 := by
  rw [segmentStarts_eq size hlength, List.mem_filter, List.mem_range, decide_eq_true_eq] at hstart
  obtain ⟨hlt, k, rfl⟩ := hstart
  refine ⟨hlt, ?_⟩
  rcases Nat.eq_zero_or_pos k with rfl | hk
  · simpa using UInt64.toNat_lt length
  · -- A second segment starts below the number of buckets, so its length is below it too.
    have hle : length.toNat ≤ length.toNat * k := Nat.le_mul_of_pos_right _ hk
    omega

theorem pairwise_segmentBoundaries {d : Domain} (hp : p.Sized d) {c : CombineParams}
    (hc : c.direct = false → c.segmentLength ≠ 0) : (segmentBoundaries p c).Pairwise (· < ·) := by
  rw [segmentBoundaries]
  split
  · exact List.pairwise_singleton _ _
  · rename_i hdirect
    have hlength : 0 < c.segmentLength.toNat :=
      Nat.pos_of_ne_zero fun hzero => hc (Bool.eq_false_of_not_eq_true hdirect) (UInt64.toNat_inj.mp hzero)
    rw [segmentStarts_eq p.size hlength, List.pairwise_map]
    refine (List.pairwise_lt_range.filter _).imp_of_mem fun hstart hstart' hlt => ?_
    have hsmall {start : ℕ} (hstart : start ∈ (List.range p.size).filter (c.segmentLength.toNat ∣ ·)) : start < 2 ^ 64 :=
      (List.mem_range.mp (List.mem_of_mem_filter hstart)).trans_le (hp.size_le.trans (by decide))
    rwa [UInt64.lt_iff_toNat_lt, UInt64.toNat_ofNat_of_lt' (hsmall hstart), UInt64.toNat_ofNat_of_lt' (hsmall hstart')]

/-! ### Segment by segment or all at once -/

section Round
variable {e : Expansion} {c : CombineParams} {context : EvaluationContext}

theorem planRound_direct (hlength : c.segmentLength ≠ 0) (direct : Bool) :
    planRound F context e { c with direct } = planRound F context e { c with direct := true } := by
  have hvalidate : CombineParams.validate { c with direct } = CombineParams.validate { c with direct := true } := by
    simp [CombineParams.validate, hlength, CombineParams.privacy]
  rw [planRound, planRound, hvalidate]

theorem histogram_boundaries (n : Noise) (labels : List BucketLabel) (totals : Array BucketShare)
    (boundaries : List UInt64) (tape : RandomTape) :
    histogram F p n labels totals boundaries tape =
      ((histogram F p n labels totals [0] tape).1.map fun h => { h with boundaries },
        (histogram F p n labels totals [0] tape).2) := by
  rw [histogram_run, histogram_run]
  rcases Labels.addAll (planLabels F p labels) ∅ with ⟨_ | _, _⟩ <;> rfl

/-- Either way of adding up refuses the same key half, or finds the same totals and keeps the same nodes. -/
theorem totals_segmented (hp : p.Sized F.domain) (hsize : 0 < p.size) (hlength : c.segmentLength ≠ 0)
    (hcaches : context.records.length = context.caches.length) :
    (∃ error, (totals F p { c with direct := true } context).1 = .error error ∧
      (totals F p { c with direct := false } context).1 = .error error) ∨
    ∃ result caches, totals F p { c with direct := true } context = (.ok (result, [0]), caches) ∧
      totals F p { c with direct := false } context =
        (.ok (result, (segmentStarts p.size c.segmentLength.toNat).map UInt64.ofNat), caches) := by
  have hsome (direct : Bool) : ¬(direct = false ∧ p.size = 0) := fun h => hsize.ne' h.2
  cases hcheck : checkKeys F context.records with
  | error error =>
    have hrefused (direct : Bool) : (totals F p { c with direct } context).1 = .error error := by
      rw [totals_fst (c := { c with direct }) hp (fun _ => hlength) hcaches, if_neg (hsome direct), hcheck]
      rfl
    exact .inl ⟨error, hrefused true, hrefused false⟩
  | ok u =>
    have htotals (direct : Bool) :=
      totals_of_keys (c := { c with direct }) hp (fun _ => hlength) hcaches (checkKeys_eq_ok.mp hcheck)
    exact .inr ⟨_, _, htotals true, htotals false⟩

theorem aggregate_cases_segmented (n : Noise) (tape : RandomTape) (hlength : c.segmentLength ≠ 0)
    (hsize : ∀ p, e.plan F.domain.hierarchy context.previous = .ok p → 0 < p.size) :
    (∃ error, (aggregate F e { c with direct := true } n context tape).1.1 = .error error ∧
      (aggregate F e { c with direct := false } n context tape).1.1 = .error error) ∨
    ∃ p h context' rest, e.plan F.domain.hierarchy context.previous = .ok p ∧
      aggregate F e { c with direct := true } n context tape = ((.ok h, context'), rest) ∧
      aggregate F e { c with direct := false } n context tape =
        ((.ok { h with boundaries := (segmentStarts p.size c.segmentLength.toNat).map UInt64.ofNat }, context'), rest) := by
  rw [aggregate_run, aggregate_run, planRound_direct hlength false]
  cases hplan : planRound F context e { c with direct := true } with
  | error error => exact .inl ⟨error, rfl, rfl⟩
  | ok p =>
    obtain ⟨-, hcaches, hplan⟩ := planRound_iff.mp hplan
    rcases totals_segmented (c := c) (sized_of_plan hplan) (hsize p hplan) hlength hcaches with
      ⟨error, hdirect, hsegmented⟩ | ⟨result, caches, hdirect, hsegmented⟩
    · left
      dsimp only
      generalize totals F p { c with direct := true } context = direct at hdirect ⊢
      generalize totals F p { c with direct := false } context = segmented at hsegmented ⊢
      obtain ⟨_, _⟩ := direct
      obtain ⟨_, _⟩ := segmented
      subst hdirect hsegmented
      exact ⟨_, rfl, rfl⟩
    · simp only [hdirect, hsegmented]
      rw [histogram_boundaries n _ _ (List.map _ _)]
      rcases histogram F p n context.labels result [0] tape with ⟨error | h, rest⟩
      · exact .inl ⟨error, rfl, rfl⟩
      · exact .inr ⟨p, h, _, rest, hplan, rfl, rfl⟩

end Round

/-- A round that adds up segment by segment fails exactly if the same round fails that adds up all buckets at once, with
    the same error; else it gives the same histogram but for the boundaries, which are the multiples of the length of a
    segment, and leaves the same context and tape. -/
theorem aggregate_segmented (F : PointFunction BucketShare) (e : Expansion) (c : CombineParams) (n : Noise)
    (context : EvaluationContext) (tape : RandomTape) (hlength : c.segmentLength ≠ 0)
    (hsize : ∀ p, e.plan F.domain.hierarchy context.previous = .ok p → 0 < p.size) :
    let direct := aggregate F e { c with direct := true } n context tape
    let segmented := aggregate F e { c with direct := false } n context tape
    (∀ error, segmented.1.1 = .error error ↔ direct.1.1 = .error error) ∧
    (∀ h, direct.1.1 = .ok h → ∃ p boundaries, e.plan F.domain.hierarchy context.previous = .ok p ∧
      segmented = ((.ok { h with boundaries }, direct.1.2), direct.2) ∧
      boundaries.map UInt64.toNat = (List.range p.size).filter (c.segmentLength.toNat ∣ ·)) ∧
    ∀ p, e.plan F.domain.hierarchy context.previous = .ok p → ∀ start ∈ segmentStarts p.size c.segmentLength.toNat,
      start + c.segmentLength.toNat < 2 ^ 64 ∧ SegmentInRange F p start (min p.size (start + c.segmentLength.toNat)) := by
  intro direct segmented
  have hpos : 0 < c.segmentLength.toNat := Nat.pos_of_ne_zero fun hzero => hlength (UInt64.toNat_inj.mp hzero)
  have hrange : ∀ p, e.plan F.domain.hierarchy context.previous = .ok p →
      ∀ start ∈ segmentStarts p.size c.segmentLength.toNat, start + c.segmentLength.toNat < 2 ^ 64 ∧
        SegmentInRange F p start (min p.size (start + c.segmentLength.toNat)) := by
    intro p hplan start hstart
    have hp := sized_of_plan hplan
    obtain ⟨hlt, hend⟩ := segment_lt hp.size_le hstart hpos
    exact ⟨hend, segmentInRange_of_sized hp (by omega) (Nat.min_le_left _ _)⟩
  rcases aggregate_cases_segmented n tape hlength hsize with
    ⟨error, hdirect, hsegmented⟩ | ⟨p, h, context', rest, hplan, hdirect, hsegmented⟩
  · refine ⟨fun error' => ?_, fun h hok => ?_, hrange⟩
    · exact iff_of_eq (congrArg (· = .error error') (hsegmented.trans hdirect.symm))
    · exact nomatch hdirect.symm.trans hok
  · have hfst : direct.1.1 = .ok h := congrArg (·.1.1) hdirect
    have hfst' := congrArg (·.1.1) hsegmented
    refine ⟨fun error => ⟨fun herror => ?_, fun herror => ?_⟩, fun h' hok => ?_, hrange⟩
    · exact nomatch hfst'.symm.trans herror
    · exact nomatch hfst.symm.trans herror
    · cases hfst.symm.trans hok
      refine ⟨p, (segmentStarts p.size c.segmentLength.toNat).map UInt64.ofNat, hplan, ?_, ?_⟩
      · rw [show direct = _ from hdirect]
        exact hsegmented
      · rw [segmentStarts_eq p.size hpos, List.map_map]
        refine (List.map_congr_left fun start hstart => ?_).trans (List.map_id _)
        have hlt := List.mem_range.mp (List.mem_of_mem_filter hstart)
        have hsmall : start < 2 ^ 64 := (hlt.trans_le (sized_of_plan hplan).size_le).trans (by decide)
        exact UInt64.toNat_ofNat_of_lt' hsmall

/-- One key half over eight buckets, four below each of two parents: the second segment of three takes from both. -/
theorem aggregate_segmented_three :
    let F : PointFunction BucketShare := ⟨.oneThree, .standard BucketShare⟩
    let e : Expansion := ⟨[0, 1], [[], []], none⟩
    let c : CombineParams := { CombineParams.default with segmentLength := 3 }
    let key := (F.keysFrom 5 ⟨.ofNat 7, 1⟩ (Octets.zero 16) (Octets.zero 16)).1
    let context := EvaluationContext.ofRecords [⟨⟨Octets.zero 16⟩, key, none⟩]
    let tape : RandomTape := ⟨fun _ => 0, 0, none⟩
    ∃ h context', aggregate F e { c with direct := true } .none context tape = ((.ok h, context'), tape) ∧
      aggregate F e { c with direct := false } .none context tape =
        ((.ok { h with boundaries := [0, 3, 6] }, context'), tape) := by
  intro F e c key context tape
  have hsettled : Settled F context := settled_ofRecords (List.forall_mem_singleton.mpr (checkKey_keysFrom F 5 _ _ _).1)
  have hplan : e.plan F.domain.hierarchy context.previous = .ok ⟨1, 1, #[0, 1], 3⟩ := rfl
  have hvalidate : CombineParams.default.validate = .ok () := rfl
  have hagree : Labels.Agree (planLabels F ⟨1, 1, #[0, 1], 3⟩ context.labels) := fun b l l' hl => nomatch hl
  obtain ⟨h, labels, caches, hdirect, -, -⟩ := aggregate_of_agree (c := { c with direct := true }) hsettled
    ((planRound_eq_ok hsettled).mpr ⟨hvalidate, hplan⟩) hagree tape
  obtain ⟨-, hsegmented, -⟩ := aggregate_segmented F e c .none context tape (by decide) fun p hp => by
    cases hplan.symm.trans hp
    decide
  obtain ⟨p, boundaries, hp, hrun, hboundaries⟩ := hsegmented h (congrArg (·.1.1) hdirect)
  cases hplan.symm.trans hp
  have hthree : boundaries = [0, 3, 6] :=
    List.map_injective_iff.mpr (fun _ _ => UInt64.toNat_inj.mp) (hboundaries.trans (by decide))
  rw [hthree, hdirect] at hrun
  exact ⟨h, _, hdirect, hrun⟩

end PrivateHistogram.Aggregation
