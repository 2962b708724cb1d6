import PrivateHistogram.Proofs.Helper.Batches
import PrivateHistogram.Proofs.Helper.Drive

/-! A whole run is exact (`run_exact`). Clients split conversions, both helpers take in the halves in any number of
    batches and go down the levels of a hierarchy; the release has one result for every bucket key whose buckets had
    enough conversions at the levels before, with the exact sum and number of its conversions. -/

namespace PrivateHistogram

open PointFunction (Domain ancestor)

/-! ### What a release should be -/

section Expected
variable (S : Suite) (one two : KeyMaterial)

/-- The bucket of a conversion under the secrets of two helpers. -/
def Conversion.bucket (d : Domain) (c : Conversion) : UInt64 :=
  d.bucketOf (Join.identifier S one two (S.group.ofBytes c.bucketKey))

/-- The conversions with the bucket key of `c`, added up. -/
def Conversion.expected (conversions : List Conversion) (c : Conversion) : CompleteResult :=
  let same := conversions.filter fun c' => c'.bucketKey = c.bucketKey
  { bucketKey := c.bucketKey, aggregationId := Join.identifier S one two (S.group.ofBytes c.bucketKey),
    sum := (same.map fun c' => (c'.value.toNat : ℤ)).sum, count := same.length }

/-- At each of some levels more than `threshold` conversions share the bucket of `c`. -/
def Conversion.IsFrequent (d : Domain) (conversions : List Conversion) (threshold : ℕ) (levels : List UInt64)
    (c : Conversion) : Prop :=
  ∀ level ∈ levels, ∃ bits, d.hierarchy.levelBits level = .ok bits ∧
    threshold < (conversions.filter fun c' => ancestor d.bitLength.toNat (c'.bucket S one two d) bits.toNat =
      ancestor d.bitLength.toNat (c.bucket S one two d) bits.toNat).length

/-- A release with one result for each bucket key of frequent conversions, in the order of the buckets. -/
structure ExactRelease (d : Domain) (conversions : List Conversion) (threshold : ℕ) (levels : List UInt64)
    (results : List CompleteResult) : Prop where
  mem : ∀ r, r ∈ results ↔ ∃ c ∈ conversions, c.IsFrequent S one two d conversions threshold levels ∧
    r = c.expected S one two conversions
  nodup : (results.map CompleteResult.bucketKey).Nodup
  order : (results.map fun r => d.bucketOf r.aggregationId).Pairwise (· < ·)

end Expected

namespace Helper

open Report (Half Posted)
open Aggregation

variable {S : Suite} {one two : KeyMaterial} {d : Domain}

/-! ### Reports and conversions -/

section Posted
variable {posted : List (Posted S one two)}
  (hapart : ∀ c ∈ posted.map Posted.conversion, ∀ c' ∈ posted.map Posted.conversion,
    c.bucket S one two d = c'.bucket S one two d → c.bucketKey = c'.bucketKey)

theorem length_filter_joined (bits : ℕ) (b : UInt64) :
    ((posted.map Posted.joined).filter (JoinedReport.IsIn d bits b)).length =
      ((posted.map Posted.conversion).filter fun c =>
        ancestor d.bitLength.toNat (c.bucket S one two d) bits = b).length := by
  rw [List.filter_map, List.filter_map, List.length_map, List.length_map]
  rfl

theorem survives_iff (threshold : ℕ) (levels : List UInt64) (c : Conversion) :
    Survives d (posted.map Posted.joined) threshold levels (c.bucket S one two d) ↔
      c.IsFrequent S one two d (posted.map Posted.conversion) threshold levels := by
  simp only [Survives, length_filter_joined]
  rfl

include hapart

/-- The reports in the bucket of a conversion are those with its key. -/
theorem filter_isIn {x : Posted S one two} (hx : x ∈ posted) :
    (posted.map Posted.joined).filter (JoinedReport.IsIn d d.bitLength.toNat (x.conversion.bucket S one two d)) =
      (posted.filter fun y => y.conversion.bucketKey = x.conversion.bucketKey).map Posted.joined := by
  rw [List.filter_map]
  refine congrArg (List.map Posted.joined) (List.filter_congr fun y hy => decide_eq_decide.mpr ?_)
  change ancestor d.bitLength.toNat (y.conversion.bucket S one two d) d.bitLength.toNat = _ ↔ _
  rw [PointFunction.ancestor_self]
  constructor
  · exact hapart _ (List.mem_map.mpr ⟨y, hy, rfl⟩) _ (List.mem_map.mpr ⟨x, hx, rfl⟩)
  · intro hkey
    rw [Conversion.bucket, hkey]
    rfl

/-- What is released for the bucket of a conversion is what it should be. -/
theorem eq_expected {x : Posted S one two} (hx : x ∈ posted) (hcount : posted.length < 2 ^ 47) {r : CompleteResult}
    (hr : IsReleased d (posted.map Posted.joined) r) (hbucket : bucketOfResult d r = x.conversion.bucket S one two d) :
    r = x.conversion.expected S one two (posted.map Posted.conversion) := by
  obtain ⟨⟨_, hreport, hid, hkey⟩, hexact⟩ := hr
  obtain ⟨y, hy, rfl⟩ := List.mem_map.mp hreport
  rw [hbucket] at hexact
  rw [bucketOfResult, hid] at hbucket
  have hsame : y.conversion.bucketKey = x.conversion.bucketKey :=
    hapart _ (List.mem_map.mpr ⟨y, hy, rfl⟩) _ (List.mem_map.mpr ⟨x, hx, rfl⟩) hbucket
  have hfilter := filter_isIn hapart hx
  have hconversions : (posted.map Posted.conversion).filter (fun c => c.bucketKey = x.conversion.bucketKey) =
      (posted.filter fun y => y.conversion.bucketKey = x.conversion.bucketKey).map Posted.conversion := by
    rw [List.filter_map]
    rfl
  have hinside : (posted.filter fun y => y.conversion.bucketKey = x.conversion.bucketKey).length < 2 ^ 47 :=
    (List.length_filter_le _ _).trans_lt hcount
  have hlength := hexact.count_of_lt (by
    rw [List.length_map]
    exact hcount.trans (by decide))
  have hsum := hexact.sum_of_le (fun r => r.value.toInt) (fun report hreport => by
    obtain ⟨z, -, rfl⟩ := List.mem_map.mp hreport
    rw [z.toInt_value]
    exact z.value_joined) (by
    rw [hfilter, List.map_map, List.map_congr_left fun z _ => z.toInt_value]
    exact Goldilocks.abs_sum_le hinside fun z => z.conversion.value)
  rw [hfilter] at hlength hsum
  obtain ⟨bucketKey, aggregationId, sum, count⟩ := r
  obtain rfl : bucketKey = y.first.keyShare.xor y.second.keyShare := hkey
  obtain rfl : aggregationId = Join.identifier S one two (S.group.ofBytes y.conversion.bucketKey) := hid
  rw [Conversion.expected, hconversions, y.xor_eq, hsame, List.map_map, List.length_map]
  rw [List.map_map, List.map_congr_left fun z _ => z.toInt_value] at hsum
  rw [List.length_map] at hlength
  congr

/-- The release of all buckets that survive some levels is the one that should be. -/
theorem exactRelease_of_isRelease (hcount : posted.length < 2 ^ 47) {threshold : ℕ} {levels : List UInt64}
    {results : List CompleteResult}
    (h : IsRelease d (posted.map Posted.joined) (Survives d (posted.map Posted.joined) threshold levels) results) :
    ExactRelease S one two d (posted.map Posted.conversion) threshold levels results := by
  have hkept : ∀ x ∈ posted, x.conversion.bucket S one two d ∈ results.map (bucketOfResult d) ↔
      x.conversion.IsFrequent S one two d (posted.map Posted.conversion) threshold levels := fun x hx => by
    rw [h.mem, survives_iff]
    exact and_iff_left ⟨x.joined, List.mem_map.mpr ⟨x, hx, rfl⟩, rfl⟩
  have hexpected : ∀ r ∈ results, ∃ x ∈ posted, bucketOfResult d r = x.conversion.bucket S one two d ∧
      r = x.conversion.expected S one two (posted.map Posted.conversion) := fun r hr => by
    obtain ⟨-, report, hreport, hbucket⟩ := (h.mem (bucketOfResult d r)).mp (List.mem_map.mpr ⟨r, hr, rfl⟩)
    obtain ⟨x, hx, rfl⟩ := List.mem_map.mp hreport
    exact ⟨x, hx, hbucket.symm, eq_expected hapart hx hcount (h.released r hr) hbucket.symm⟩
  refine ⟨fun r => ⟨fun hr => ?_, ?_⟩, ?_, h.order⟩
  · obtain ⟨x, hx, hbucket, hr'⟩ := hexpected r hr
    refine ⟨x.conversion, List.mem_map.mpr ⟨x, hx, rfl⟩, (hkept x hx).mp ?_, hr'⟩
    exact hbucket ▸ List.mem_map.mpr ⟨r, hr, rfl⟩
  · rintro ⟨_, hc, hfrequent, rfl⟩
    obtain ⟨x, hx, rfl⟩ := List.mem_map.mp hc
    obtain ⟨r, hr, hbucket⟩ := List.mem_map.mp ((hkept x hx).mpr hfrequent)
    rwa [← eq_expected hapart hx hcount (h.released r hr) hbucket]
  · refine List.Nodup.of_map (fun key => d.bucketOf (Join.identifier S one two (S.group.ofBytes key))) ?_
    have hbuckets : (results.map CompleteResult.bucketKey).map
        (fun key => d.bucketOf (Join.identifier S one two (S.group.ofBytes key))) = results.map (bucketOfResult d) := by
      rw [List.map_map]
      refine List.map_congr_left fun r hr => ?_
      obtain ⟨x, -, -, rfl⟩ := hexpected r hr
      rfl
    rw [hbuckets]
    exact h.order.imp UInt64.ne_of_lt

end Posted

/-! ### The run -/

/-- All batches of reports, and then the rounds. -/
def run (p : DriveParams) (levels : List UInt64) (batches : List (List (PartialReport × PartialReport))) :
    JointStep S (List CompleteResult) := do
  batches.forM deliver
  drive p levels

/-- After the batches both helpers can start the rounds. -/
theorem underway_of_ingested {posted : List (Posted S one two)} {state : Helper S × Helper S}
    (h : Ingested S one two d posted state) :
    ∃ recordsOne recordsTwo,
      Exchanged (Round.pointFunction S d) (posted.map Posted.joined) recordsOne recordsTwo ∧
      Underway d recordsOne recordsTwo (.ofRecords recordsOne) (.ofRecords recordsTwo) state := by
  obtain ⟨sealedOne, sealedTwo, ha, hb, keysOne, keysTwo, recordsOne, recordsTwo, hkeysOne, hkeysTwo, hopenOne, hopenTwo,
    hpermOne, hpermTwo⟩ := h
  have hexchanged : Exchanged (Round.pointFunction S d) (posted.map Posted.joined) recordsOne recordsTwo :=
    ⟨true, keysOne, keysTwo, hkeysOne, hkeysTwo, hpermOne, hpermTwo⟩
  have hcurrent : ∀ {id : HelperId} {own peer : KeyMaterial} {sealedKeys : List SealedKey} {done : List (Half S own peer)}
      {h : Helper S} {records : List KeyRecord}, Holds id own peer d sealedKeys done [] h →
      List.Forall₂ (fun s r => s.toRecord S.transport own.transport = .ok r) sealedKeys records →
      h.Current (.ofRecords records) := fun {_ _ _ _ _ _ _} hh hopen => by
    refine .inr ⟨hh.context, ?_⟩
    rw [EvaluationContext.ofSealed, hh.keys, hh.sealedKeys, mapM_eq_ok hopen]
    rfl
  exact ⟨recordsOne, recordsTwo, hexchanged, paired_ofRecords hexchanged.checkKey.1 hexchanged.checkKey.2,
    hcurrent ha hopenOne, hcurrent hb hopenTwo, ha.domain, hb.domain⟩

theorem tallied_of_posted {posted : List (Posted S one two)} {recordsOne recordsTwo : List KeyRecord}
    (hexchanged : Exchanged (Round.pointFunction S d) (posted.map Posted.joined) recordsOne recordsTwo)
    (hnodup : (posted.map fun x => x.first.id).Nodup) (hcount : posted.length < 2 ^ 47)
    (hapart : ∀ c ∈ posted.map Posted.conversion, ∀ c' ∈ posted.map Posted.conversion,
      c.bucket S one two d = c'.bucket S one two d → c.bucketKey = c'.bucketKey) :
    Tallied (Round.pointFunction S d) (posted.map Posted.joined) recordsOne recordsTwo where
  exchanged := hexchanged
  nodup := by rwa [List.map_map]
  length r hr := by
    obtain ⟨x, -, rfl⟩ := List.mem_map.mp hr
    exact x.length_eq
  apart r hr r' hr' hbucket := by
    obtain ⟨x, hx, rfl⟩ := List.mem_map.mp hr
    obtain ⟨y, hy, rfl⟩ := List.mem_map.mp hr'
    have hkey := hapart _ (List.mem_map.mpr ⟨x, hx, rfl⟩) _ (List.mem_map.mpr ⟨y, hy, rfl⟩) hbucket
    exact congrArg (fun key => Join.identifier S one two (S.group.ofBytes key)) hkey
  count := by
    rw [List.length_map]
    exact hcount.trans (by decide)

theorem run_yields (hG : S.group.Lawful) (hone : S.transport.Opens one.transport)
    (htwo : S.transport.Opens two.transport) {posted : List (List (Posted S one two))}
    (hnodup : (posted.flatten.map fun x => x.first.id).Nodup) (hcount : posted.flatten.length < 2 ^ 47)
    (hapart : ∀ c ∈ posted.flatten.map Posted.conversion, ∀ c' ∈ posted.flatten.map Posted.conversion,
      c.bucket S one two d = c'.bucket S one two d → c.bucketKey = c'.bucketKey)
    {p : DriveParams} (hvalid : p.combine.validate = .ok ())
    (hnoise : p.ignorePrivacy = true ∨ p.combine.privacy.isEnabled = false) {levels : List UInt64}
    (horder : levels.Pairwise (· < ·)) {last : UInt64} (hlast : levels.getLast? = some last)
    (hlevels : last.toNat + 1 = d.hierarchy.levels) {state : Helper S × Helper S} (hstate : Ingested S one two d [] state) :
    StepYields (run p levels (posted.map (List.map Posted.halves))) state (TooLarge d) fun results _ =>
      ExactRelease S one two d (posted.flatten.map Posted.conversion) p.threshold levels.dropLast results := by
  refine .bind (deliverAll_yields hG hone htwo hstate posted (by rwa [List.nil_append])) fun _ state' hingested => ?_
  rw [List.nil_append] at hingested
  obtain ⟨recordsOne, recordsTwo, hexchanged, hunder⟩ := underway_of_ingested hingested
  have htallied := tallied_of_posted hexchanged hnodup hcount hapart
  exact .mono (drive_yields htallied hvalid (choose_eq hvalid hnoise) horder hlast hlevels hunder) fun results _ hresults =>
    exactRelease_of_isRelease hapart hcount hresults

/-- Whatever is drawn, both helpers start, every conversion can be split, and a run without noise over any batches of
    split conversions is refused as too large for a round or gives the exact release. -/
theorem run_exact (hG : S.group.Lawful) (hone : S.transport.Opens one.transport) (htwo : S.transport.Opens two.transport)
    (d : Domain) :
    ∃ a b : Helper S, fresh .one one (two.publicInfo S) d.hierarchy = .ok a ∧
      fresh .two two (one.publicInfo S) d.hierarchy = .ok b ∧
      (∀ (c : Conversion) (tape : RandomTape), tape.fault = none → ∃ halves rest,
        Report.split S c (one.publicInfo S) (two.publicInfo S) tape = (.ok halves, rest)) ∧
      ∀ (batches : List (List Conversion)) (reports : List (List (PartialReport × PartialReport))),
        List.Forall₂ (List.Forall₂ (Report.IsSplit S one two)) batches reports →
        (reports.flatten.map fun r => r.1.id).Nodup → batches.flatten.length < 2 ^ 47 →
        (∀ c ∈ batches.flatten, ∀ c' ∈ batches.flatten,
          c.bucketKey ≠ c'.bucketKey → c.bucket S one two d ≠ c'.bucket S one two d) →
        ∀ (p : DriveParams) (levels : List UInt64) (last : UInt64), p.combine.validate = .ok () →
          (p.ignorePrivacy = true ∨ p.combine.privacy.isEnabled = false) → levels.Pairwise (· < ·) →
          levels.getLast? = some last → last.toNat + 1 = d.hierarchy.levels →
          ∀ tape : RandomTape, tape.fault = none →
            (∃ e, ((run p levels reports).run.run (a, b) tape).1.1 = .error e ∧ TooLarge d e) ∨
              ∃ results, ((run p levels reports).run.run (a, b) tape).1.1 = .ok results ∧
                ExactRelease S one two d batches.flatten p.threshold levels.dropLast results := by
  obtain ⟨a, hfreshA, ha⟩ := exists_fresh (S := S) .one one two d
  obtain ⟨b, hfreshB, hb⟩ := exists_fresh (S := S) .two two one d
  refine ⟨a, b, hfreshA, hfreshB, fun c tape ht => ?_, ?_⟩
  · obtain ⟨halves, rest, hrun, -⟩ := (Report.split_yields c hone htwo).run ht
    exact ⟨halves, rest, hrun⟩
  intro batches reports hsplit hnodup hcount hapart p levels last hvalid hnoise horder hlast hlevels tape ht
  obtain ⟨posted, rfl, rfl⟩ := Report.posted_of_batches hone htwo hsplit
  rw [← List.map_flatten] at hnodup hcount hapart ⊢
  rw [List.map_map] at hnodup
  rw [List.length_map] at hcount
  have hids : (posted.flatten.map fun x => x.first.id) = posted.flatten.map ((fun r => r.1.id) ∘ Posted.halves) :=
    List.map_congr_left fun x _ => x.first.report_id.symm
  rw [← hids] at hnodup
  have hapart' : ∀ c ∈ posted.flatten.map Posted.conversion, ∀ c' ∈ posted.flatten.map Posted.conversion,
      c.bucket S one two d = c'.bucket S one two d → c.bucketKey = c'.bucketKey := fun c hc c' hc' =>
    not_imp_not.mp (hapart c hc c' hc')
  have hyields := run_yields hG hone htwo hnodup hcount hapart' hvalid hnoise horder hlast hlevels (ingested_nil ha hb)
  exact hyields.run ht

/-- Two conversions of one key in two batches, aggregated at both levels of a hierarchy with a threshold of one. -/
theorem run_exact_additive :
    let S := Suite.additive
    let one := KeyMaterial.additiveOne
    let two := KeyMaterial.additiveTwo
    ∃ (a b : Helper S) (reports : List (List (PartialReport × PartialReport))),
      fresh .one one (two.publicInfo S) ⟨[1, 3]⟩ = .ok a ∧ fresh .two two (one.publicInfo S) ⟨[1, 3]⟩ = .ok b ∧
      List.Forall₂ (List.Forall₂ (Report.IsSplit S one two)) [[⟨[7], 5⟩], [⟨[7], 6⟩]] reports ∧
      ((run ⟨.default, false, 1⟩ [0, 1] reports).run.run (a, b) ⟨fun _ => 0, 0, none⟩).1.1 =
        .ok [⟨[7], Join.identifier S one two (.ofNat 7), 11, 2⟩] := by
  intro S one two
  have hone := Transport.plain_lawful.opens one.transport.bytes
  have htwo := Transport.plain_lawful.opens two.transport.bytes
  obtain ⟨a, b, ha, hb, hsplit, hrun⟩ := run_exact (S := S) KeyGroup.additive_lawful hone htwo .oneThree
  obtain ⟨first, rest, hfirst⟩ := hsplit ⟨[7], 5⟩ ⟨fun _ => 0, 0, none⟩ rfl
  obtain ⟨second, rest', hsecond⟩ := hsplit ⟨[7], 6⟩ ⟨fun _ => 1, 0, none⟩ rfl
  have hreports : List.Forall₂ (List.Forall₂ (Report.IsSplit S one two)) [[⟨[7], 5⟩], [⟨[7], 6⟩]] [[first], [second]] :=
    .cons (.cons ⟨_, _, rfl, hfirst⟩ .nil) (.cons (.cons ⟨_, _, rfl, hsecond⟩ .nil) .nil)
  have hids : first.1.id ≠ second.1.id := by
    rw [(Report.id_of_split hone htwo rfl hfirst).1, (Report.id_of_split hone htwo rfl hsecond).1]
    decide
  have hsame : ∀ c ∈ [(⟨[7], 5⟩ : Conversion), ⟨[7], 6⟩], c.bucketKey = [7] := by decide
  refine ⟨a, b, [[first], [second]], ha, hb, hreports, ?_⟩
  rcases hrun [[⟨[7], 5⟩], [⟨[7], 6⟩]] [[first], [second]] hreports (by simpa using hids) (by decide)
      (fun c hc c' hc' hne => absurd ((hsame c hc).trans (hsame c' hc').symm) hne) ⟨.default, false, 1⟩ [0, 1] 1 rfl
      (.inr rfl) (by decide) rfl rfl ⟨fun _ => 0, 0, none⟩ rfl with ⟨e, -, -, -, -, -, hlarge⟩ | ⟨results, hresults, hexact⟩
  · exact absurd hlarge (by decide)
  · have hfrequent : Conversion.IsFrequent S one two .oneThree [⟨[7], 5⟩, ⟨[7], 6⟩] 1 [0] ⟨[7], 5⟩ := by
      intro level hlevel
      obtain rfl := List.mem_singleton.mp hlevel
      refine ⟨1, rfl, ?_⟩
      rw [List.filter_eq_self.mpr fun c hc => decide_eq_true (by rw [Conversion.bucket, hsame c hc]; rfl)]
      decide
    have hexpected : ∀ r ∈ results, r = ⟨[7], Join.identifier S one two (.ofNat 7), 11, 2⟩ := fun r hr => by
      obtain ⟨c, hc, -, rfl⟩ := (hexact.mem r).mp hr
      rw [Conversion.expected, hsame c hc]
      rfl
    have hmem := (hexact.mem _).mpr ⟨⟨[7], 5⟩, List.mem_cons_self, hfrequent, rfl⟩
    have hnodup := hexact.nodup
    rw [hresults]
    match results, hexpected, hmem, hnodup with
    | [r], hexpected, _, _ => rw [hexpected r List.mem_cons_self]
    | r :: r' :: rest, hexpected, _, hnodup =>
      rw [hexpected r List.mem_cons_self, List.map_cons, List.map_cons,
        hexpected r' (List.mem_cons_of_mem _ List.mem_cons_self)] at hnodup
      exact absurd List.mem_cons_self (List.nodup_cons.mp hnodup).1

end Helper

end PrivateHistogram
