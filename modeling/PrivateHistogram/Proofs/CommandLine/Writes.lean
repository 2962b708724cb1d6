import PrivateHistogram.CommandLine.Directory
import PrivateHistogram.Proofs.Aggregation.ShardReleases
import PrivateHistogram.Proofs.Helper.SeparateRuns

/-! What a run of the command does to files. All that can be refused is refused before the first write (`Reads`), but for
    the number of shards, which is looked at after the context has been written: a run that fails for it leaves the
    context behind and no histogram, and a run that fails for anything else leaves the files as they were
    (`files_of_run`). -/

namespace PrivateHistogram.CommandLine

variable {σ α β : Type}

/-! ### Files -/

/-- Reading leaves the files as they are. -/
def Files.Readable (files : Files (StateM σ)) : Prop := ∀ path s, (files.read? path s).2 = s

def Files.Holds [Codec α] (files : Files (StateM σ)) (s : σ) (path : String) (a : α) : Prop :=
  ∃ content, (files.read? path s).1 = some content ∧ Codec.ofBytes? content = some a

/-- The files after contents have been written one after the other. -/
def Files.writeAll (files : Files (StateM σ)) (contents : List (String × Bytes)) (s : σ) : σ :=
  contents.foldl (fun s (path, content) => (files.write path content s).2) s

theorem Directory.readable : Directory.files.Readable := fun _ _ => rfl

variable {files : Files (StateM σ)} {s s' : σ}

theorem Files.writeAll_append (first rest : List (String × Bytes)) (s : σ) :
    files.writeAll (first ++ rest) s = files.writeAll rest (files.writeAll first s) := List.foldl_append

/-! ### Steps that only read -/

/-- A step that leaves the files as they are, whether or not it fails. -/
def Reads (x : Command (StateM σ) α) : Prop := ∀ s, (x s).2 = s

theorem reads_pure (a : α) : Reads (σ := σ) (pure a) := fun _ => rfl

theorem reads_throw (problem : Problem) : Reads (σ := σ) (α := α) (throw problem) := fun _ => rfl

theorem reads_orStop {ε : Type} (problem : ε → Problem) (x : Except ε α) : Reads (σ := σ) (orStop problem x) := fun _ => rfl

theorem Reads.bind {x : Command (StateM σ) α} {f : α → Command (StateM σ) β} (hx : Reads x) (hf : ∀ a, Reads (f a)) :
    Reads (x >>= f) := by
  intro s
  have hs := hx s
  rw [Attempt.bind_run]
  rcases hrun : x s with ⟨e | a, s'⟩ <;> rw [hrun] at hs
  · exact hs
  · exact (hf a s').trans hs

theorem Reads.of_ok {x : Command (StateM σ) α} (hx : Reads x) {a : α} (h : x s = (.ok a, s')) : s' = s :=
  (congrArg Prod.snd h).symm.trans (hx s)

theorem orStop_eq_ok {ε : Type} {problem : ε → Problem} {x : Except ε α} {a : α} :
    (orStop problem x : Command (StateM σ) α) s = (.ok a, s') ↔ x = .ok a ∧ s' = s := by
  change (x.mapError problem, s) = (.ok a, s') ↔ _
  rw [Prod.mk.injEq, mapError_eq_ok, eq_comm (a := s)]

theorem orStop_of_error {ε : Type} (problem : ε → Problem) {x : Except ε α} {e : ε} (h : x = .error e) (s : σ) :
    (orStop problem x : Command (StateM σ) α) s = (.error (problem e), s) := by
  subst h
  rfl

theorem load_eq_ok [Codec α] {what path : String} {a : α} (h : load files α what path s = (.ok a, s')) :
    files.Holds s path a := by
  obtain ⟨content, s₁, hread, h⟩ := Attempt.bind_eq_ok.mp h
  have hcontent : (files.read? path s).1 = content := Except.ok.inj (congrArg Prod.fst hread)
  cases content with
  | none => cases h
  | some content =>
    refine ⟨content, hcontent, ?_⟩
    dsimp only at h
    cases hdecode : (Codec.ofBytes? content : Option α) with
    | none =>
      rw [hdecode] at h
      cases h
    | some a' =>
      rw [hdecode] at h
      cases h
      rfl

section Readable
variable (hfiles : files.Readable)
include hfiles

theorem Files.Readable.reads (path : String) : Reads (files.read? path : Command (StateM σ) (Option Bytes)) :=
  fun s => hfiles path s

theorem reads_load [Codec α] (what path : String) : Reads (load files α what path) := by
  refine .bind (hfiles.reads path) fun content => ?_
  cases content with
  | none => exact reads_throw _
  | some content =>
    dsimp only
    cases (Codec.ofBytes? content : Option α) with
    | none => exact reads_throw _
    | some a => exact reads_pure a

theorem reads_loadExpansion (o : Options) : Reads (loadExpansion files o) := by
  rw [loadExpansion]
  split
  · exact reads_load hfiles _ _
  · exact .bind (reads_load hfiles _ _) fun _ => .bind (reads_load hfiles _ _) fun _ => reads_orStop _ _
  · exact reads_throw _

end Readable

/-! ### Steps that write -/

/-- A step that writes some contents one after the other, if it is not stopped by a file that cannot be written. -/
def Writes (files : Files (StateM σ)) (x : Command (StateM σ) Unit) (contents : List (String × Bytes)) : Prop :=
  ∀ s, x s = (.ok (), files.writeAll contents s) ∨ ∃ what path, (x s).1 = .error (.unwritable what path)

theorem writes_pure : Writes files (pure ()) [] := fun _ => .inl rfl

theorem writes_store [Codec α] (what path : String) (a : α) :
    Writes files (store files what path a) [(path, Codec.toBytes a)] := by
  intro s
  have hwrite : (files.write path (Codec.toBytes a) : Command (StateM σ) Bool) s =
      (.ok (files.write path (Codec.toBytes a) s).1, (files.write path (Codec.toBytes a) s).2) := rfl
  rw [store, Attempt.bind_of_ok hwrite]
  -- Whatever a write that fails has done to the files is left open.
  cases (files.write path (Codec.toBytes a) s).1 with
  | false => exact .inr ⟨what, path, rfl⟩
  | true => exact .inl rfl

theorem Writes.bind {x : Command (StateM σ) Unit} {f : Unit → Command (StateM σ) Unit} {first rest : List (String × Bytes)}
    (hx : Writes files x first) (hf : Writes files (f ()) rest) : Writes files (x >>= f) (first ++ rest) := by
  intro s
  rcases hx s with hwritten | ⟨what, path, hstop⟩
  · rw [Attempt.bind_of_ok hwritten, Files.writeAll_append]
    exact hf _
  · refine .inr ⟨what, path, ?_⟩
    rw [Attempt.bind_of_error (Prod.ext hstop rfl)]

theorem writes_forM {f : α → Command (StateM σ) Unit} {content : α → String × Bytes}
    (hf : ∀ a, Writes files (f a) [content a]) (as : List α) : Writes files (as.forM f) (as.map content) := by
  induction as with
  | nil => exact writes_pure
  | cons a as ih => exact (hf a).bind ih

/-! ### A run in two parts -/

/-- What a run does before it writes: it reads its inputs and goes through the round. -/
def prepare (files : Files (StateM σ)) (tape : RandomTape) (o : Options) :
    Command (StateM σ) (PartialHistogram × EvaluationContext) := do
  let keys ← load files KeyMaterial "private keys" o.privateKeys
  let expand ← loadExpansion files o
  let domain ← orStop .invalidKeyBits (PointFunction.Domain.perBit o.keyBits)
  let input ← load files Round.Input "partial reports" o.partialReport
  let params : RoundParams := { expand, combine := o.combine, ignorePrivacy := false }
  orStop .failedRound (Round.run .standard domain.hierarchy keys params input tape).1

def storeContext (files : Files (StateM σ)) (o : Options) (context : EvaluationContext) : Command (StateM σ) Unit := do
  if let some path := o.context then store files "evaluation context" path context

def storeShards (files : Files (StateM σ)) (o : Options) (histogram : PartialHistogram) : Command (StateM σ) Unit := do
  let shards ← orStop .invalidShards (histogram.shards o.shards)
  shards.zipIdx.forM fun (shard, index) =>
    store files "partial histogram" (shardPath o.histogram index shards.length) shard

def publish (files : Files (StateM σ)) (o : Options) (histogram : PartialHistogram) (context : EvaluationContext) :
    Command (StateM σ) Unit := do
  storeContext files o context
  storeShards files o histogram

theorem perform_eq (tape : RandomTape) (o : Options) :
    perform files tape o = (prepare files tape o >>= fun outcome => publish files o outcome.1 outcome.2) := by
  simp only [perform, prepare, publish, bind_assoc]
  cases hcontext : o.context <;> simp only [storeContext, hcontext] <;> rfl

def Options.contextFile (o : Options) (context : EvaluationContext) : List (String × Bytes) :=
  o.context.toList.map fun path => (path, Codec.toBytes context)

def Options.shardFiles (o : Options) (parts : List PartialHistogram) : List (String × Bytes) :=
  parts.zipIdx.map fun (part, index) => (shardPath o.histogram index parts.length, Codec.toBytes part)

/-! ### The parts -/

theorem reads_prepare (hfiles : files.Readable) (tape : RandomTape) (o : Options) : Reads (prepare files tape o) :=
  .bind (reads_load hfiles _ _) fun _ => .bind (reads_loadExpansion hfiles o) fun _ => .bind (reads_orStop _ _) fun _ =>
    .bind (reads_load hfiles _ _) fun _ => reads_orStop _ _

theorem writes_contextFile (o : Options) (context : EvaluationContext) :
    Writes files (storeContext files o context) (o.contextFile context) := by
  rw [storeContext, Options.contextFile]
  cases o.context with
  | none => exact writes_pure
  | some path => exact writes_store _ _ _

theorem storeShards_of_ok {o : Options} {histogram : PartialHistogram} {parts : List PartialHistogram}
    (hparts : histogram.shards o.shards = .ok parts) :
    Writes files (storeShards files o histogram) (o.shardFiles parts) := by
  intro s
  rw [storeShards, Attempt.bind_of_ok (orStop_eq_ok.mpr ⟨hparts, rfl⟩)]
  exact writes_forM (fun (part, index) => writes_store _ _ _) _ s

theorem storeShards_of_error {o : Options} {histogram : PartialHistogram} {cause : Aggregation.Error}
    (hparts : histogram.shards o.shards = .error cause) (s : σ) :
    storeShards files o histogram s = (.error (.invalidShards cause), s) := by
  rw [storeShards, Attempt.bind_of_error (orStop_of_error _ hparts s)]

/-- All that can come of what a round has given: everything is written, or the context alone since there are no such
    shards, or some file cannot be written. -/
theorem publish_cases (o : Options) (histogram : PartialHistogram) (context : EvaluationContext) (s : σ) :
    (∃ parts, histogram.shards o.shards = .ok parts ∧
      publish files o histogram context s = (.ok (), files.writeAll (o.contextFile context ++ o.shardFiles parts) s)) ∨
    (∃ cause, histogram.shards o.shards = .error cause ∧
      publish files o histogram context s = (.error (.invalidShards cause), files.writeAll (o.contextFile context) s)) ∨
    ∃ what path, (publish files o histogram context s).1 = .error (.unwritable what path) := by
  have hcontext : Writes files (storeContext files o context) (o.contextFile context) := writes_contextFile o context
  cases hparts : histogram.shards o.shards with
  | ok parts =>
    rcases hcontext.bind (f := fun _ => storeShards files o histogram) (storeShards_of_ok hparts) s with hwritten | hstop
    · exact .inl ⟨parts, rfl, hwritten⟩
    · exact .inr (.inr hstop)
  | error cause =>
    rcases hcontext s with hwritten | ⟨what, path, hstop⟩
    · refine .inr (.inl ⟨cause, rfl, ?_⟩)
      rw [publish, Attempt.bind_of_ok hwritten, storeShards_of_error hparts]
    · refine .inr (.inr ⟨what, path, ?_⟩)
      rw [publish, Attempt.bind_of_error (Prod.ext hstop rfl)]

/-- What a run has to be given for its round to go through. -/
theorem prepare_ok (hfiles : files.Readable) {tape : RandomTape} {o : Options} {histogram : PartialHistogram}
    {context : EvaluationContext} (hprepare : prepare files tape o s = (.ok (histogram, context), s')) :
    ∃ keys expand domain input rest, files.Holds s o.privateKeys keys ∧ loadExpansion files o s = (.ok expand, s) ∧
      PointFunction.Domain.perBit o.keyBits = .ok domain ∧ files.Holds s o.partialReport input ∧
      (Round.run .standard domain.hierarchy keys { expand, combine := o.combine, ignorePrivacy := false } input).run tape =
        (.ok (histogram, context), rest) := by
  obtain ⟨keys, s₁, hkeys, hexpand⟩ := Attempt.bind_eq_ok.mp hprepare
  obtain rfl : s₁ = s := (reads_load hfiles _ _).of_ok hkeys
  obtain ⟨expand, s₂, hexpand, hdomain⟩ := Attempt.bind_eq_ok.mp hexpand
  obtain rfl : s₂ = s₁ := (reads_loadExpansion hfiles o).of_ok hexpand
  obtain ⟨domain, s₃, hdomain, hinput⟩ := Attempt.bind_eq_ok.mp hdomain
  obtain ⟨hperBit, rfl⟩ := orStop_eq_ok.mp hdomain
  obtain ⟨input, s₄, hinput, hround⟩ := Attempt.bind_eq_ok.mp hinput
  exact ⟨keys, expand, domain, input, _, load_eq_ok hkeys, hexpand, hperBit, load_eq_ok hinput,
    Prod.ext (orStop_eq_ok.mp hround).1 rfl⟩

/-- The histogram of a round can be split into any number of shards that a list holds. -/
theorem outOfRange_of_prepare (hfiles : files.Readable) {tape : RandomTape} {o : Options} {histogram : PartialHistogram}
    {context : EvaluationContext} (hprepare : prepare files tape o s = (.ok (histogram, context), s'))
    {cause : Aggregation.Error} (hparts : histogram.shards o.shards = .error cause) :
    o.shards = 0 ∨ 2 ^ 63 ≤ o.shards.toNat * 104 := by
  obtain ⟨keys, expand, domain, input, rest, -, -, -, -, hround⟩ := prepare_ok hfiles hprepare
  obtain ⟨start, noise, -, -, haggregate⟩ := Round.run_ok hround
  have hbits := Aggregation.bucketBits_le_of_aggregate haggregate
  by_contra hcount
  obtain ⟨hpos, hroom⟩ := not_or.mp hcount
  have hok := PartialHistogram.shards_eq_ok hbits (UInt64.pos_iff_ne_zero.mpr hpos) (Nat.lt_of_not_le hroom)
  cases hok.symm.trans hparts

/-! ### Runs -/

section Run
variable (hfiles : files.Readable) {tape : RandomTape} {arguments : List String}
include hfiles

/-- A run fails before it writes, or its round goes through and the rest is writing. -/
theorem run_cases :
    (∃ problem, run files tape arguments s = (.error problem, s)) ∨
    ∃ o histogram context, Options.ofArguments arguments = .ok o ∧ prepare files tape o s = (.ok (histogram, context), s) ∧
      run files tape arguments s = publish files o histogram context s := by
  cases hoptions : Options.ofArguments arguments with
  | error refusal => exact .inl ⟨.refusal refusal, Attempt.bind_of_error (orStop_of_error _ hoptions s)⟩
  | ok o =>
    have hrun : run files tape arguments s = perform files tape o s := Attempt.bind_of_ok (orStop_eq_ok.mpr ⟨hoptions, rfl⟩)
    rw [hrun, perform_eq]
    have hreads := reads_prepare hfiles tape o s
    rcases hprepare : prepare files tape o s with ⟨problem | ⟨histogram, context⟩, s₁⟩ <;> rw [hprepare] at hreads <;>
      obtain rfl : s₁ = s := hreads
    · exact .inl ⟨problem, Attempt.bind_of_error hprepare⟩
    · refine .inr ⟨o, histogram, context, rfl, hprepare, ?_⟩
      rw [Attempt.bind_of_ok hprepare]

/-- All that a run has done if it succeeds. -/
theorem run_ok (hrun : run files tape arguments s = (.ok (), s')) :
    ∃ o histogram context parts, Options.ofArguments arguments = .ok o ∧
      prepare files tape o s = (.ok (histogram, context), s) ∧ histogram.shards o.shards = .ok parts ∧
      s' = files.writeAll (o.contextFile context ++ o.shardFiles parts) s := by
  rcases run_cases hfiles with ⟨problem, hfailed⟩ | ⟨o, histogram, context, hoptions, hprepare, hpublish⟩
  · cases hfailed.symm.trans hrun
  · rw [hpublish] at hrun
    rcases publish_cases o histogram context s with ⟨parts, hparts, hwritten⟩ | ⟨cause, -, hstop⟩ | ⟨what, path, hstop⟩
    · cases hwritten.symm.trans hrun
      exact ⟨o, histogram, context, parts, hoptions, hprepare, hparts, rfl⟩
    · cases hstop.symm.trans hrun
    · rw [hrun] at hstop
      cases hstop

/-- If no file turns out not to be writable, a run that succeeds has written the context, if it is asked for, and the
    shards of the histogram. One that fails has written nothing, or a round has gone through, the number of shards is out
    of range, and the context has been written alone. -/
theorem files_of_run (hwritable : ∀ what path, (run files tape arguments s).1 ≠ .error (.unwritable what path)) :
    match run files tape arguments s with
    | (.ok (), s') => ∃ o histogram context parts, Options.ofArguments arguments = .ok o ∧
        prepare files tape o s = (.ok (histogram, context), s) ∧ histogram.shards o.shards = .ok parts ∧
        s' = files.writeAll (o.contextFile context ++ o.shardFiles parts) s
    | (.error problem, s') => s' = s ∨ ∃ o histogram context path cause, Options.ofArguments arguments = .ok o ∧
        prepare files tape o s = (.ok (histogram, context), s) ∧ o.context = some path ∧
        (o.shards = 0 ∨ 2 ^ 63 ≤ o.shards.toNat * 104) ∧ problem = .invalidShards cause ∧
        s' = files.writeAll [(path, Codec.toBytes context)] s := by
  rcases hrun : run files tape arguments s with ⟨problem | ⟨⟩, s'⟩
  · rcases run_cases hfiles with ⟨_, hfailed⟩ | ⟨o, histogram, context, hoptions, hprepare, hpublish⟩
    · exact .inl (congrArg Prod.snd (hrun.symm.trans hfailed))
    · rw [hpublish] at hrun hwritable
      rcases publish_cases o histogram context s with ⟨parts, -, hwritten⟩ | ⟨cause, hparts, hstop⟩ | ⟨what, path, hstop⟩
      · cases hwritten.symm.trans hrun
      · cases hstop.symm.trans hrun
        cases hcontext : o.context with
        -- A context that is not asked for is not left behind either.
        | none => exact .inl (by rw [Options.contextFile, hcontext]; rfl)
        | some path =>
          exact .inr ⟨o, histogram, context, path, cause, hoptions, hprepare, hcontext,
            outOfRange_of_prepare hfiles hprepare hparts, rfl, by rw [Options.contextFile, hcontext]; rfl⟩
      · exact absurd hstop (hwritable what path)
  · exact run_ok hfiles hrun

end Run

/-- The files of a helper without key halves. -/
def idleFiles : List (String × Bytes) :=
  [("keys.json", Codec.toBytes KeyMaterial.additiveOne), ("halves.json", Codec.toBytes (Round.Input.sealedKeys []))]

def idleArguments : List String :=
  ["--private_key_params_uri=keys.json", "--partial_report_uri=halves.json", "--partial_histogram_uri=histogram.json"]

/-- A run for the first level that is asked for its context and for no shards. -/
theorem files_of_run_no_shards :
    let directory := Directory.ofFiles
      (idleFiles ++ [("expand.json", Codec.toBytes (⟨[0], [[]], none⟩ : PointFunction.Expansion))])
    let arguments := idleArguments ++
      ["--expand_parameters_uri=expand.json", "--decrypted_report_uri=context.json", "--file_shards=0"]
    let tape : RandomTape := ⟨fun _ => 0, 0, none⟩
    ∃ problem after, run Directory.files tape arguments directory = (.error problem, after) ∧
      (∀ what path, problem ≠ .unwritable what path) ∧
      (after = directory ∨ ∃ o histogram context path cause, Options.ofArguments arguments = .ok o ∧
        prepare Directory.files tape o directory = (.ok (histogram, context), directory) ∧ o.context = some path ∧
        (o.shards = 0 ∨ 2 ^ 63 ≤ o.shards.toNat * 104) ∧ problem = .invalidShards cause ∧
        after = Directory.files.writeAll [(path, Codec.toBytes context)] directory) := by
  intro directory arguments tape
  -- Problems cannot be compared, so the run is asked for the kind of its problem.
  have hstop : (match (run Directory.files tape arguments directory).1 with
      | .error (.invalidShards _) => true
      | _ => false) = true := by decide +kernel
  have hwritable : ∀ what path, (run Directory.files tape arguments directory).1 ≠ .error (.unwritable what path) := by
    intro what path heq
    rw [heq] at hstop
    cases hstop
  have houtcome := files_of_run Directory.readable hwritable
  rcases hrun : run Directory.files tape arguments directory with ⟨problem | ⟨⟩, after⟩
  · rw [hrun] at houtcome hwritable
    exact ⟨problem, after, rfl, fun what path heq => hwritable what path (congrArg _ heq), houtcome⟩
  · rw [hrun] at hstop
    cases hstop

/-- The run leaves the context of its round behind, and no histogram. -/
theorem context_without_histogram :
    let files := idleFiles ++ [("expand.json", Codec.toBytes (⟨[0], [[]], none⟩ : PointFunction.Expansion))]
    let arguments := idleArguments ++
      ["--expand_parameters_uri=expand.json", "--decrypted_report_uri=context.json", "--file_shards=0"]
    Directory.run files ⟨fun _ => 0, 0, none⟩ arguments =
      (1, [("context.json", Codec.toBytes (⟨[], [], some 0, #[0, 1]⟩ : EvaluationContext))]) := by decide +kernel

end PrivateHistogram.CommandLine
