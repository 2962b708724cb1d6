import PrivateHistogram.Proofs.Helper.Rounds

/-! The rounds down a hierarchy. What is selected after a round are the buckets of its plan with enough reports, so a
    bucket of the last level is put out exactly if at every level before it was selected (`Survives`), and the
    release has its key, its sum and its number (`driveFrom_yields`). -/

namespace PrivateHistogram.Helper

open Aggregation PointFunction

variable {S : Suite} {d : Domain} {reports : List JoinedReport} {one two : List KeyRecord}

/-- At each of some levels the bucket of a point has more than `threshold` reports. -/
def Survives (d : Domain) (reports : List JoinedReport) (threshold : ℕ) (levels : List UInt64) (x : UInt64) : Prop :=
  ∀ level ∈ levels, ∃ bits, d.hierarchy.levelBits level = .ok bits ∧
    threshold < (reports.filter
      (JoinedReport.IsIn d bits.toNat (ancestor d.bitLength.toNat x bits.toNat))).length

/-- The key halves of reports that can be told apart by their buckets. -/
structure Tallied (F : PointFunction BucketShare) (reports : List JoinedReport) (one two : List KeyRecord) : Prop where
  exchanged : Exchanged F reports one two
  nodup : (reports.map JoinedReport.id).Nodup
  length : ∀ r ∈ reports, r.keyOne.length = r.keyTwo.length
  apart : ∀ r ∈ reports, ∀ r' ∈ reports,
    F.domain.bucketOf r.aggregationId = F.domain.bucketOf r'.aggregationId → r.aggregationId = r'.aggregationId
  count : reports.length < Goldilocks.modulus

/-! ### Selections -/

theorem mem_nextBuckets {results : List BucketResult} {threshold : ℕ} {b : UInt64} :
    b ∈ Release.nextBuckets results threshold ↔ ∃ r ∈ results, threshold < r.count ∧ r.bucket = b := by
  rw [Release.nextBuckets, List.mem_mergeSort, List.mem_map]
  refine exists_congr fun r => ?_
  rw [List.mem_filter, decide_eq_true_eq, and_assoc]

/-- The buckets selected after a round are those of its plan with enough reports. -/
theorem exists_selected {F : PointFunction BucketShare} (ht : Tallied F reports one two) {plan : Plan}
    (hp : plan.Fits F.domain) {a b : PartialHistogram} (ha : IsLabelled F plan one a) (hb : IsLabelled F plan two b)
    (threshold : ℕ) :
    ∃ results, Release.intermediate a b = .ok results ∧ ∀ q, q ∈ Release.nextBuckets results threshold ↔
      q ∈ plan.buckets.toList ∧
        threshold < (reports.filter (JoinedReport.IsIn F.domain plan.targetBits.toNat q)).length := by
  refine ⟨_, intermediate_eq hp ha.totals hb.totals, fun q => ?_⟩
  have hcount : ∀ bucket ∈ plan.buckets.toList,
      (totalShare F (one ++ two) plan.targetBits.toNat bucket).count.val =
        (reports.filter (JoinedReport.IsIn F.domain plan.targetBits.toNat bucket)).length := fun bucket hbucket =>
    (isExact_of_exchanged ht.exchanged hp hbucket).count_of_lt ht.count
  rw [mem_nextBuckets]
  constructor
  · rintro ⟨r, hr, hlt, rfl⟩
    obtain ⟨bucket, hbucket, rfl⟩ := List.mem_map.mp hr
    exact ⟨hbucket, by rwa [← hcount bucket hbucket]⟩
  · rintro ⟨hq, hlt⟩
    exact ⟨_, List.mem_map.mpr ⟨q, hq, rfl⟩, lt_of_lt_of_eq hlt (hcount q hq).symm, rfl⟩

/-! ### The rounds -/

section Rounds
variable (ht : Tallied (Round.pointFunction S d) reports one two) {p : DriveParams} (hvalid : p.combine.validate = .ok ())
  (hnoise : Noise.choose p.combine.privacy p.ignorePrivacy = .ok .none)
include ht hvalid hnoise

/-- The last round is refused as too large, or its release has all buckets that it refines. -/
theorem driveLast_yields {a b : EvaluationContext} {state : Helper S × Helper S} (hunder : Underway d one two a b state)
    {last : UInt64} (hlast : d.hierarchy.levelBits last = .ok d.bitLength)
    (hnext : ∀ current ∈ a.previous.map Prod.fst, current < last) {selected : List UInt64}
    (hselected : CanRefine a.previous selected) :
    StepYields (driveFrom p last [] (a.previous.map Prod.fst) selected) state (TooLarge d) fun results _ =>
      IsRelease d reports (d.IsRefined (a.previous.map Prod.fst) selected) results := by
  refine .bind (aggregateBoth_yields ht.exchanged ht.apart hunder hvalid hnoise hlast hnext hselected) ?_
  rintro ⟨histogramA, histogramB⟩ state' ⟨plan, a', b', -, -, hrefines, hA, hB⟩
  obtain ⟨results, hcomplete, hrelease⟩ := complete_eq ht.exchanged hrefines.fits hrefines.targetBits hA.totals hB.totals
    hA.labels hB.labels ht.nodup ht.length
  dsimp only
  rw [hcomplete]
  refine .pure (hrelease.congr fun r _ => ?_)
  have hself := hrefines.mem _ (d.bucketOf_lt r.aggregationId)
  rwa [ancestor_self] at hself

/-- From any round on: the rounds are refused as too large, or the release has all buckets that are refined in this
    round and survive those that are left. -/
theorem driveFrom_yields {levels : List UInt64} {last : UInt64} (hlast : d.hierarchy.levelBits last = .ok d.bitLength)
    (hlevels : ∀ level ∈ levels, ∃ bits, d.hierarchy.levelBits level = .ok bits)
    (horder : (levels ++ [last]).Pairwise (· < ·))
    {a b : EvaluationContext} {state : Helper S × Helper S} (hunder : Underway d one two a b state)
    (hnext : ∀ current ∈ a.previous.map Prod.fst, ∀ level ∈ levels ++ [last], current < level) {selected : List UInt64}
    (hselected : CanRefine a.previous selected) :
    StepYields (driveFrom p last levels (a.previous.map Prod.fst) selected) state (TooLarge d) fun results _ =>
      IsRelease d reports (fun x => d.IsRefined (a.previous.map Prod.fst) selected x ∧
        Survives d reports p.threshold levels x) results := by
  induction levels generalizing a b state selected with
  | nil =>
    refine .mono (driveLast_yields ht hvalid hnoise hunder hlast
      (fun current hc => hnext current hc last List.mem_cons_self)
      hselected) fun results _ hresults => hresults.congr fun r _ => ?_
    exact ⟨fun hr => ⟨hr, fun _ hlevel => (nomatch hlevel)⟩, And.left⟩
  | cons level levels ih =>
    obtain ⟨⟨bits, hbits⟩, hlevels⟩ := List.forall_mem_cons.mp hlevels
    obtain ⟨hlevel, horder⟩ := List.pairwise_cons.mp horder
    refine .bind (aggregateBoth_yields ht.exchanged ht.apart hunder hvalid hnoise hbits
      (fun current hc => hnext current hc level List.mem_cons_self) hselected) ?_
    rintro ⟨histogramA, histogramB⟩ state' ⟨plan, a', b', hunder', hprevious, hrefines, hA, hB⟩
    obtain ⟨results, hintermediate, hmem⟩ := exists_selected ht hrefines.fits hA hB p.threshold
    rw [hrefines.targetBits] at hmem
    rw [hrefines.level] at hprevious
    refine .mapError_bind hintermediate ?_
    -- A point is selected in this round exactly if it was refined and its bucket has enough reports.
    have hselect : ∀ r ∈ reports, (d.IsRefined (a.previous.map Prod.fst) selected (d.bucketOf r.aggregationId) ∧
        Survives d reports p.threshold (level :: levels) (d.bucketOf r.aggregationId)) ↔
          d.IsRefined (some level) (Release.nextBuckets results p.threshold) (d.bucketOf r.aggregationId) ∧
            Survives d reports p.threshold levels (d.bucketOf r.aggregationId) := by
      intro r hr
      have hrefined := hrefines.mem _ (d.bucketOf_lt r.aggregationId)
      constructor
      · rintro ⟨hbefore, hsurvives⟩
        obtain ⟨⟨bits', hbits', hlt⟩, hsurvives⟩ := List.forall_mem_cons.mp hsurvives
        cases hbits.symm.trans hbits'
        exact ⟨⟨bits, hbits, (hmem _).mpr ⟨hrefined.mpr hbefore, hlt⟩⟩, hsurvives⟩
      · rintro ⟨⟨bits', hbits', hnow⟩, hsurvives⟩
        cases hbits.symm.trans hbits'
        obtain ⟨hplan, hlt⟩ := (hmem _).mp hnow
        exact ⟨hrefined.mp hplan, List.forall_mem_cons.mpr ⟨⟨bits, hbits, hlt⟩, hsurvives⟩⟩
    cases hnextBuckets : Release.nextBuckets results p.threshold with
    | nil =>
      refine .pure ⟨fun r hr => (nomatch hr), .nil, fun bucket => ⟨fun hb => (nomatch hb), ?_⟩⟩
      rintro ⟨hkept, r, hr, rfl⟩
      obtain ⟨⟨_, -, hrefined⟩, -⟩ := (hselect r hr).mp hkept
      rw [hnextBuckets] at hrefined
      exact absurd hrefined List.not_mem_nil
    | cons q rest =>
      rw [hnextBuckets] at hselect hmem
      have hselected' : CanRefine a'.previous (q :: rest) := by
        rw [hprevious]
        exact ⟨List.cons_ne_nil _ _, fun q' hq' => ((hmem q').mp hq').1⟩
      have hlevel' : a'.previous.map Prod.fst = some level := congrArg (Option.map Prod.fst) hprevious
      have hrest := ih hlevels horder hunder' (by
        intro current hcurrent
        cases hlevel'.symm.trans hcurrent
        exact hlevel) hselected'
      rw [hlevel'] at hrest
      exact .mono hrest fun results _ hresults => hresults.congr fun r hr => (hselect r hr).symm

/-- All rounds, the last of them at the last level: they are refused as too large, or the release has all buckets that
    survive the levels before. -/
theorem drive_yields {levels : List UInt64} (horder : levels.Pairwise (· < ·)) {last : UInt64}
    (hlast : levels.getLast? = some last) (hlevels : last.toNat + 1 = d.hierarchy.levels) {state : Helper S × Helper S}
    (hunder : Underway d one two (.ofRecords one) (.ofRecords two) state) :
    StepYields (drive p levels) state (TooLarge d) fun results _ =>
      IsRelease d reports (Survives d reports p.threshold levels.dropLast) results := by
  have hsplit : levels.dropLast ++ [last] = levels := List.dropLast_append_getLast? last hlast
  rw [← hsplit] at horder
  have hbits : d.hierarchy.levelBits last = .ok d.bitLength := by
    have hlength : last.toNat < d.hierarchy.sizes.length := Nat.lt_of_succ_le hlevels.le
    rw [d.levelBits_eq_ok, Domain.bitLength, Hierarchy.bitLength, List.getLast?_eq_getElem?,
      show d.hierarchy.sizes.length - 1 = last.toNat from Nat.sub_eq_of_eq_add hlevels.symm,
      List.getElem?_eq_getElem hlength]
    rfl
  have hbefore : ∀ level ∈ levels.dropLast, ∃ bits, d.hierarchy.levelBits level = .ok bits := fun level hlevel => by
    have hlt := UInt64.lt_iff_toNat_lt.mp ((List.pairwise_append.mp horder).2.2 level hlevel last List.mem_cons_self)
    have hlength : level.toNat < d.hierarchy.sizes.length := hlt.trans (Nat.lt_of_succ_le hlevels.le)
    exact ⟨_, d.levelBits_eq_ok.mpr (List.getElem?_eq_getElem hlength)⟩
  rw [drive, hlast]
  refine .mono (driveFrom_yields ht hvalid hnoise hbits hbefore horder hunder
    (fun current hc => absurd hc (Option.not_mem_none current)) rfl)
    fun results _ hresults => hresults.congr fun _ _ => ?_
  exact and_iff_right trivial

end Rounds

end PrivateHistogram.Helper
