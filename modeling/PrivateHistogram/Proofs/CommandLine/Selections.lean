import PrivateHistogram.Proofs.CommandLine.Writes
import PrivateHistogram.Proofs.PointFunction.Selections

/-! Runs that are given selections in place of an expansion. The command reads them against a level for every length up to
    that of the keys, and not against the hierarchy that they come with, so the buckets it puts out have as many bits as
    there are selections (`histogram_of_selections`). -/

namespace PrivateHistogram.CommandLine

open PointFunction

variable {σ : Type} {files : Files (StateM σ)} {s s' : σ}

theorem loadExpansion_of_selections (hfiles : files.Readable) {o : Options} (hexpand : o.expand = none)
    {hierarchyPath selectionsPath : String} (hhierarchy : o.hierarchy = some hierarchyPath)
    (hselections : o.selections = some selectionsPath) {e : Expansion} (hload : loadExpansion files o s = (.ok e, s')) :
    ∃ (h : Hierarchy) (selections : Selections), files.Holds s hierarchyPath h ∧ files.Holds s selectionsPath selections ∧
      Expansion.ofSelections h selections = .ok e := by
  rw [loadExpansion, hexpand, hhierarchy, hselections] at hload
  obtain ⟨h, s₁, hloadHierarchy, hrest⟩ := Attempt.bind_eq_ok.mp hload
  obtain rfl : s₁ = s := (reads_load hfiles _ _).of_ok hloadHierarchy
  obtain ⟨selections, s₂, hloadSelections, hconvert⟩ := Attempt.bind_eq_ok.mp hrest
  exact ⟨h, selections, load_eq_ok hloadHierarchy, load_eq_ok hloadSelections, (orStop_eq_ok.mp hconvert).1⟩

/-- A round that names no earlier one puts out the buckets of its plan in a fresh context. -/
theorem plan_of_fresh_round {S : Suite} {d : Domain} {keys : KeyMaterial} {p : RoundParams} {input : Round.Input}
    {histogram : PartialHistogram} {context : EvaluationContext} {tape rest : RandomTape}
    (hfresh : p.expand.previousLevel = none)
    (hround : (Round.run S d.hierarchy keys p input).run tape = (.ok (histogram, context), rest)) :
    ∃ plan, p.expand.plan d.hierarchy none = .ok plan ∧ histogram.bucketBits = plan.targetBits ∧
      histogram.bitLength = d.bitLength ∧ histogram.buckets.keys = plan.buckets.toList := by
  obtain ⟨start, noise, -, -, haggregate⟩ := Round.run_ok hround
  obtain ⟨_, _, _, _, hplan, -⟩ := Aggregation.aggregate_ok haggregate
  -- A context in which something has been expanded would have been refused.
  have hprevious := Expansion.previousLevel_of_plan (Aggregation.planRound_iff.mp hplan).2.2
  rw [hfresh, eq_comm, Option.map_eq_none_iff] at hprevious
  obtain ⟨plan, hplan, -, -, -, hbits, hlength, hkeys⟩ :=
    Aggregation.exists_plan_of_aggregate (hprevious ▸ stopped_none d) haggregate
  rw [hprevious] at hplan
  exact ⟨plan, hplan, hbits, hlength, hkeys⟩

/-- A run over selections that succeeds writes the shards of a histogram that has as many bits as there are selections, with
    the buckets of their plan against a level for every length. Those are the buckets of the plan against the hierarchy that
    they come with exactly if the last level of it that is gone through has as many bits as there are selections. -/
theorem histogram_of_selections (hfiles : files.Readable) {tape : RandomTape} {arguments : List String} {o : Options}
    (hoptions : Options.ofArguments arguments = .ok o) (hexpand : o.expand = none) {hierarchyPath selectionsPath : String}
    (hhierarchy : o.hierarchy = some hierarchyPath) (hselections : o.selections = some selectionsPath)
    (hrun : run files tape arguments s = (.ok (), s')) :
    ∃ (h : Hierarchy) (selections : Selections) (e : Expansion) (d : Domain) (p : Plan) (histogram : PartialHistogram)
        (context : EvaluationContext) (parts : List PartialHistogram),
      files.Holds s hierarchyPath h ∧ files.Holds s selectionsPath selections ∧
      Expansion.ofSelections h selections = .ok e ∧ Domain.perBit o.keyBits = .ok d ∧ e.plan d.hierarchy none = .ok p ∧
      histogram.bucketBits.toNat = selections.lists.length ∧ histogram.bitLength = o.keyBits ∧
      histogram.buckets.keys = p.buckets.toList ∧ histogram.shards o.shards = .ok parts ∧
      s' = files.writeAll (o.contextFile context ++ o.shardFiles parts) s ∧
      ((∃ q, e.plan h none = .ok q ∧ histogram.bucketBits = q.targetBits ∧ histogram.buckets.keys = q.buckets.toList) ↔
        h.sizes[selections.lists.length - 1]? = some (UInt32.ofNat selections.lists.length)) := by
  obtain ⟨_, histogram, context, parts, hoptions', hprepare, hparts, hwritten⟩ := run_ok hfiles hrun
  cases hoptions.symm.trans hoptions'
  obtain ⟨keys, e, d, input, rest, -, hload, hd, -, hround⟩ := prepare_ok hfiles hprepare
  obtain ⟨h, selections, hholds, hholds', he⟩ := loadExpansion_of_selections hfiles hexpand hhierarchy hselections hload
  obtain ⟨accepted, -, -, hle, rfl⟩ := Expansion.ofSelections_ok he
  obtain ⟨p, hplan, hbits, hlength, hkeys⟩ := plan_of_fresh_round rfl hround
  refine ⟨h, selections, _, d, p, histogram, context, parts, hholds, hholds', he, hd, hplan, ?_,
    hlength.trans (Domain.bitLength_perBit hd), hkeys, hparts, hwritten, ?_⟩
  · rw [hbits, Expansion.targetBits_of_selections he hd hplan]
  · rw [hbits, hkeys]
    exact Expansion.plan_of_selections_iff he hd hplan

/-- One selection for a hierarchy of 2 and 4 bits. -/
theorem histogram_of_selections_one :
    let directory := Directory.ofFiles (idleFiles ++ [("hierarchy.json", Codec.toBytes (⟨[2, 4]⟩ : Hierarchy)),
      ("selections.json", Codec.toBytes (⟨[[]]⟩ : Selections))])
    let arguments := idleArguments ++
      ["--sum_parameters_uri=hierarchy.json", "--prefixes_uri=selections.json", "--key_bit_size=4"]
    let tape : RandomTape := ⟨fun _ => 0, 0, none⟩
    ∃ (o : Options) (after : Directory) (selections : Selections) (histogram : PartialHistogram)
      (context : EvaluationContext)
        (parts : List PartialHistogram),
      Options.ofArguments arguments = .ok o ∧ o.expand = none ∧ o.hierarchy = some "hierarchy.json" ∧
      o.selections = some "selections.json" ∧ run Directory.files tape arguments directory = (.ok (), after) ∧
      Directory.files.Holds directory "selections.json" selections ∧
      histogram.bucketBits.toNat = selections.lists.length ∧ histogram.shards o.shards = .ok parts ∧
      after = Directory.files.writeAll (o.contextFile context ++ o.shardFiles parts) directory := by
  intro directory arguments tape
  have hpaths : (Options.ofArguments arguments).toOption.map (fun o => (o.expand, o.hierarchy, o.selections)) =
      some (none, some "hierarchy.json", some "selections.json") := by decide +kernel
  have hok : (run Directory.files tape arguments directory).1.toBool = true := by decide +kernel
  rcases hoptions : Options.ofArguments arguments with refusal | o <;> rw [hoptions] at hpaths
  · cases hpaths
  obtain ⟨hexpand, hhierarchy, hselections⟩ : o.expand = none ∧ o.hierarchy = some "hierarchy.json" ∧
      o.selections = some "selections.json" := by simpa using Option.some_inj.mp hpaths
  rcases hrun : run Directory.files tape arguments directory with ⟨problem | ⟨⟩, after⟩ <;> rw [hrun] at hok
  · cases hok
  obtain ⟨_, selections, _, _, _, histogram, context, parts, -, hholds, -, -, -, hbits, -, -, hparts, hafter, -⟩ :=
    histogram_of_selections Directory.readable hoptions hexpand hhierarchy hselections hrun
  exact ⟨o, after, selections, histogram, context, parts, rfl, hexpand, hhierarchy, hselections, rfl, hholds, hbits, hparts,
    hafter⟩

/-- The run puts out two buckets of 1 bit, where the hierarchy of the selections has four buckets of 2 bits. -/
theorem selections_of_another_level :
    let files := idleFiles ++ [("hierarchy.json", Codec.toBytes (⟨[2, 4]⟩ : Hierarchy)),
      ("selections.json", Codec.toBytes (⟨[[]]⟩ : Selections))]
    let arguments := idleArguments ++
      ["--sum_parameters_uri=hierarchy.json", "--prefixes_uri=selections.json", "--key_bit_size=4"]
    let histogram : PartialHistogram :=
      { bucketBits := 1, bitLength := 4, buckets := .ofList [((0 : UInt64), (0 : BucketShare)), (1, 0)], labels := ∅,
        boundaries := [0], privacy := none }
    Directory.run files ⟨fun _ => 0, 0, none⟩ arguments = (0, [("histogram.json", Codec.toBytes histogram)]) ∧
      ∃ e q, Expansion.ofSelections ⟨[2, 4]⟩ ⟨[[]]⟩ = .ok e ∧ e.plan ⟨[2, 4]⟩ none = .ok q ∧ q.targetBits = 2 ∧
        q.buckets.toList = [0, 1, 2, 3] := by
  refine ⟨by decide +kernel, ⟨[0], [[]], none⟩, ⟨0, 0, #[0], 2⟩, rfl, rfl, rfl, rfl⟩

end PrivateHistogram.CommandLine
