import PrivateHistogram.Proofs.Aggregation.Histograms

/-! What a round can do, whatever noise it puts on the sums. It is accepted with the histogram of its plan
    (`aggregate_ok`) or leaves the context as it was but for the nodes that have been reached (`aggregate_error`). What
    has been kept before makes no difference (`Alike.aggregate`). -/

namespace PrivateHistogram.Aggregation

open PointFunction

variable {F : PointFunction BucketShare} {e : Expansion} {c : CombineParams} {n : Noise} {p : Plan}
  {context context' : EvaluationContext} {h : PartialHistogram} {tape rest : RandomTape}

/-! ### The histogram of a plan -/

theorem length_addTo (n : Noise) (sums : List Goldilocks) (tape : RandomTape) :
    (n.addTo sums tape).1.length = sums.length := by
  cases n with
  | none => rfl
  | laplace params distribution => exact Draw.length_mapM _ sums tape

/-- There is a share for each bucket, also after noise has been put on the sums. -/
theorem map_fst_zip_noised (n : Noise) {totals : Array BucketShare} (htotals : totals.size = p.size) (tape : RandomTape) :
    (p.buckets.toList.zip (totals.toList.zipWith (fun share sum => { share with sum })
      (n.addTo (totals.toList.map BucketShare.sum) tape).1)).map Prod.fst = p.buckets.toList := by
  refine List.map_fst_zip ?_
  rw [List.length_zipWith, length_addTo, List.length_map, Nat.min_self, Array.length_toList, Array.length_toList,
    p.size_buckets, htotals]

theorem toList_ofList {α : Type} {l : List (UInt64 × α)} (hl : (l.map Prod.fst).Pairwise (· < ·)) :
    (Std.ExtTreeMap.ofList l compare).toList = l := by
  have hordered : (Std.ExtTreeMap.ofList l compare).toList.Pairwise fun x y => x.1 < y.1 :=
    Std.ExtTreeMap.ordered_keys_toList.imp Std.compare_eq_lt.mp
  have hl := List.pairwise_map.mp hl
  have hne {x y : UInt64 × α} (hlt : x.1 < y.1) : x ≠ y := fun heq => UInt64.ne_of_lt hlt (congrArg Prod.fst heq)
  have hvalue {k : UInt64} {v : α} (hmem : (k, v) ∈ l) : (Std.ExtTreeMap.ofList l compare)[k]? = some v :=
    Std.ExtTreeMap.getElem?_ofList_of_mem Std.ReflCmp.compare_self
      (hl.imp fun hlt heq => UInt64.ne_of_lt hlt (Std.LawfulEqCmp.eq_of_compare heq)) hmem
  refine List.Perm.eq_of_pairwise (fun x y _ _ hxy hyx => absurd hyx (UInt64.lt_asymm hxy)) hordered hl
    ((List.perm_ext_iff_of_nodup (hordered.imp hne) (hl.imp hne)).mpr fun ⟨k, v⟩ => ?_)
  rw [Std.ExtTreeMap.mem_toList_iff_getElem?_eq_some]
  refine ⟨fun hv => ?_, hvalue⟩
  have hk : k ∈ Std.ExtTreeMap.ofList l compare := by rw [Std.ExtTreeMap.mem_iff_isSome_getElem?, hv, Option.isSome_some]
  rw [Std.ExtTreeMap.mem_ofList, List.contains_iff_mem] at hk
  obtain ⟨⟨k, v'⟩, hmem, rfl⟩ := List.mem_map.mp hk
  cases hv.symm.trans (hvalue hmem)
  exact hmem

theorem keys_ofList {α : Type} {l : List (UInt64 × α)} (hl : (l.map Prod.fst).Pairwise (· < ·)) :
    (Std.ExtTreeMap.ofList l compare).keys = l.map Prod.fst := by
  rw [← Std.ExtTreeMap.map_fst_toList_eq_keys, toList_ofList hl]

/-- The buckets of a histogram are those of the plan, in order, whatever noise is in their sums. -/
theorem histogram_ok (hp : p.Fits F.domain) {labels : List BucketLabel} {totals : Array BucketShare}
    {boundaries : List UInt64} (htotals : totals.size = p.size)
    (hrun : histogram F p n labels totals boundaries tape = (.ok h, rest)) :
    h.bucketBits = p.targetBits ∧ h.buckets.keys = p.buckets.toList := by
  obtain ⟨labels', -, rfl⟩ := histogram_of_ok hrun
  have hfst := map_fst_zip_noised n htotals tape
  exact ⟨rfl, (keys_ofList (hfst.symm ▸ hp.pairwise_buckets)).trans hfst⟩

/-! ### Runs of a round -/

/-- All that a round can do if it is accepted. -/
theorem aggregate_ok (hrun : aggregate F e c n context tape = ((.ok h, context'), rest)) :
    ∃ p result boundaries caches, planRound F context e c = .ok p ∧
      totals F p c context = (.ok (result, boundaries), caches) ∧
      histogram F p n context.labels result boundaries tape = (.ok h, rest) ∧
      context' = { context with caches, previousLevel := some p.level, expanded := p.buckets } := by
  rw [aggregate_run] at hrun
  cases hplan : planRound F context e c with
  | error error =>
    rw [hplan] at hrun
    cases hrun
  | ok p =>
    rcases htotals : totals F p c context with ⟨error | ⟨result, boundaries⟩, caches⟩
    · simp only [hplan, htotals] at hrun
      cases hrun
    · rcases hhistogram : histogram F p n context.labels result boundaries tape with ⟨error | h', rest'⟩
      · simp only [hplan, htotals, hhistogram] at hrun
        cases hrun
      · simp only [hplan, htotals, hhistogram] at hrun
        cases hrun
        exact ⟨p, result, boundaries, caches, rfl, htotals, hhistogram, rfl⟩

/-- The buckets of a round that is accepted are no longer than those of the domain, whatever context it started from. -/
theorem bucketBits_le_of_aggregate (hrun : aggregate F e c n context tape = ((.ok h, context'), rest)) :
    h.bucketBits ≤ h.bitLength := by
  obtain ⟨p, _, _, _, hplan, -, hhistogram, -⟩ := aggregate_ok hrun
  obtain ⟨_, -, rfl⟩ := histogram_of_ok hhistogram
  exact (sized_of_plan (planRound_iff.mp hplan).2.2).bits_le

/-- Where the round before has stopped at the buckets of a plan, or there was none, a round that is accepted puts out the
    buckets of its plan and stops there. -/
theorem exists_plan_of_aggregate (hprevious : Stopped F.domain context.previous)
    (hrun : aggregate F e c n context tape = ((.ok h, context'), rest)) :
    ∃ p, e.plan F.domain.hierarchy context.previous = .ok p ∧ p.Fits F.domain ∧ context'.previousLevel = some p.level ∧
      context'.expanded = p.buckets ∧ h.bucketBits = p.targetBits ∧ h.bitLength = F.domain.bitLength ∧
      h.buckets.keys = p.buckets.toList := by
  obtain ⟨p, result, boundaries, caches, hplan, htotals, hhistogram, rfl⟩ := aggregate_ok hrun
  obtain ⟨hvalidate, hlength, hplan⟩ := planRound_iff.mp hplan
  have hp := fits_of_plan hprevious hplan
  obtain ⟨hsize, -⟩ := totals_ok hp.toSized (segmentLength_of_validate hvalidate) hlength htotals
  obtain ⟨hbits, hkeys⟩ := histogram_ok hp hsize hhistogram
  obtain ⟨_, -, rfl⟩ := histogram_of_ok hhistogram
  exact ⟨p, hplan, hp, rfl, rfl, hbits, rfl, hkeys⟩

/-- All that a round can do if it fails: some nodes have been reached, and nothing else has changed. -/
theorem aggregate_error {error : Error} (hrun : aggregate F e c n context tape = ((.error error, context'), rest)) :
    ∃ caches, context' = { context with caches } := by
  rw [aggregate_run] at hrun
  cases hplan : planRound F context e c with
  | error error' =>
    rw [hplan] at hrun
    cases hrun
    exact ⟨context.caches, rfl⟩
  | ok p =>
    rcases htotals : totals F p c context with ⟨error' | ⟨result, boundaries⟩, caches⟩
    · simp only [hplan, htotals] at hrun
      cases hrun
      exact ⟨caches, rfl⟩
    · rcases hhistogram : histogram F p n context.labels result boundaries tape with ⟨error' | h', rest'⟩
      · simp only [hplan, htotals, hhistogram] at hrun
        cases hrun
        exact ⟨caches, rfl⟩
      · simp only [hplan, htotals, hhistogram] at hrun
        cases hrun

theorem aggregate_records : (aggregate F e c n context tape).1.2.records = context.records := by
  rcases hrun : aggregate F e c n context tape with ⟨⟨error | h, context'⟩, rest⟩
  · obtain ⟨caches, rfl⟩ := aggregate_error hrun
    rfl
  · obtain ⟨p, result, boundaries, caches, -, -, -, rfl⟩ := aggregate_ok hrun
    rfl

/-! ### Contexts that differ in what has been kept -/

/-- Two contexts that differ at most in which of the nodes that are reached with their key halves are kept. -/
structure Alike (F : PointFunction BucketShare) (a b : EvaluationContext) : Prop where
  records : b.records = a.records
  previousLevel : b.previousLevel = a.previousLevel
  expanded : b.expanded = a.expanded
  first : SoundAll F a.records a.caches
  second : SoundAll F a.records b.caches

namespace Alike
variable {a b : EvaluationContext}

theorem trans {d : EvaluationContext} (hab : Alike F a b) (hbd : Alike F b d) : Alike F a d :=
  ⟨hbd.records.trans hab.records, hbd.previousLevel.trans hab.previousLevel, hbd.expanded.trans hab.expanded, hab.first,
    hab.records ▸ hbd.second⟩

theorem planRound (hab : Alike F a b) : planRound F b e c = planRound F a e c := by
  have hprevious : b.previous = a.previous := by
    rw [EvaluationContext.previous, hab.previousLevel, hab.expanded, EvaluationContext.previous]
  rw [Aggregation.planRound, Aggregation.planRound, hprevious, hab.records,
    if_neg (not_not_intro hab.first.length_eq.symm), if_neg (not_not_intro hab.second.length_eq.symm)]

/-- The totals are the same, though some nodes may be reached that are kept already in the other context. -/
theorem totals_fst (hab : Alike F a b) (hplan : Aggregation.planRound F a e c = .ok p) :
    (totals F p c b).1 = (totals F p c a).1 := by
  obtain ⟨hc, -, hplan⟩ := planRound_iff.mp hplan
  have hp := sized_of_plan hplan
  have hbits : p.parentBits.toNat ≤ 64 := by
    have := hp.toNat_subtreeBits
    have := hp.targetBits_le
    omega
  have hb := hab.records ▸ hab.second
  rw [Aggregation.totals_fst hp (segmentLength_of_validate hc) hab.first.length_eq,
    Aggregation.totals_fst hp (segmentLength_of_validate hc) hb.length_eq, totalValue_eq_empty hab.first hbits,
    totalValue_eq_empty hb hbits, hab.records]

/-- A round gives the same in both contexts, and they differ afterwards at most in what has been kept. -/
theorem aggregate (hab : Alike F a b) (e : Expansion) (c : CombineParams) (n : Noise) (tape : RandomTape) :
    (Aggregation.aggregate F e c n b tape).1.1 = (Aggregation.aggregate F e c n a tape).1.1 ∧
      (Aggregation.aggregate F e c n b tape).2 = (Aggregation.aggregate F e c n a tape).2 ∧
      Alike F (Aggregation.aggregate F e c n a tape).1.2 (Aggregation.aggregate F e c n b tape).1.2 := by
  rw [aggregate_run, aggregate_run, hab.planRound]
  cases hplan : Aggregation.planRound F a e c with
  | error error => exact ⟨rfl, rfl, hab⟩
  | ok p =>
    have hlabels : b.labels = a.labels := by rw [EvaluationContext.labels, hab.records, EvaluationContext.labels]
    have htotals := hab.totals_fst hplan
    have hfirst := totals_sound (p := p) hab.first c
    have hsecond := totals_sound (p := p) (hab.records ▸ hab.second) c
    rw [hab.records] at hsecond
    have hkept : Alike F { a with caches := (totals F p c a).2 } { b with caches := (totals F p c b).2 } :=
      ⟨hab.records, hab.previousLevel, hab.expanded, hfirst, hsecond⟩
    dsimp only
    generalize totals F p c a = foundA at htotals hfirst hsecond hkept ⊢
    generalize totals F p c b = foundB at htotals hfirst hsecond hkept ⊢
    obtain ⟨_, cachesA⟩ := foundA
    obtain ⟨result, cachesB⟩ := foundB
    subst htotals
    cases result with
    | error error => exact ⟨rfl, rfl, hkept⟩
    | ok found =>
      simp only [hlabels]
      rcases histogram F p n a.labels found.1 found.2 tape with ⟨error | h, rest⟩
      · exact ⟨rfl, rfl, hkept⟩
      · exact ⟨rfl, rfl, hab.records, rfl, rfl, hfirst, hsecond⟩

end Alike

theorem alike_refl (hsound : SoundAll F context.records context.caches) : Alike F context context :=
  ⟨rfl, rfl, rfl, hsound, hsound⟩

end PrivateHistogram.Aggregation
