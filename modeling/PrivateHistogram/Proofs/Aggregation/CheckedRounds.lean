import PrivateHistogram.Proofs.Aggregation.Segments
import PrivateHistogram.Proofs.PointFunction.CheckedExpansions

/-! Rounds with everything checked that could go out of range: besides what a plan and the expansions of the halves
    compute, the ends of the segments, what is cut out of the values below the covering parents, the part of the totals
    it is added to, and the shifts of the labels. A context may hold anything, as one that has been read from a file does,
    and still nothing is out of range: the round ends as it does without the checks, with a histogram or with an error
    (`Checked.aggregate_in_range`). -/

namespace PrivateHistogram.Aggregation.Checked

open PointFunction Guarded

variable (F : PointFunction BucketShare)

/-! ### Rounds with checks -/

/-- Adds values to totals, as far as there are both. -/
def addInto : List BucketShare → List BucketShare → List BucketShare
  | total :: totals, value :: values => (total + value) :: addInto totals values
  | totals, _ => totals

/-- Adds to the totals of all buckets what is found below all parents. -/
def addValues (totals : List BucketShare) (values : Array BucketShare) : Option (List BucketShare) :=
  some (addInto totals values.toList)

/-- Adds to the totals of the buckets with the numbers `start` up to `stop` what is found below the covering parents, of
    which the first starts with the bucket number `offset`. -/
def addWindow (start stop offset : ℕ) (totals : List BucketShare) (values : Array BucketShare) :
    Option (List BucketShare) := do
  let window ← Size.slice? values.toList (← sub? start offset) (← sub? stop offset)
  let segment ← Size.slice? totals start stop
  return totals.take start ++ addInto segment window ++ totals.drop stop

/-- Adds to totals, in a way that is given, the values of all key halves below the parents with the numbers `first` up to
    `last`. -/
def addAll (p : Plan) (first last : ℕ) (add : List BucketShare → Array BucketShare → Option (List BucketShare)) :
    List KeyRecord → List NodeCache → List BucketShare →
      Option (Except PointFunction.Error (List BucketShare) × List NodeCache)
  | record :: records, cache :: caches, totals => do
    match ← (PointFunction.Checked.expandParents F record.key p first last cache).run with
    | .error e => return (.error e, cache :: caches)
    | .ok (values, cache) =>
      let (result, caches) ← addAll p first last add records caches (← add totals values)
      return (result, cache :: caches)
  | _, caches, totals => some (.ok totals, caches)

/-- Adds up the segments that start at the given buckets. -/
def addSegments (p : Plan) (size : ℕ) (depth : UInt32) (length : ℕ) (records : List KeyRecord) :
    List ℕ → List NodeCache → List BucketShare → Option (Except PointFunction.Error (List BucketShare) × List NodeCache)
  | [], caches, totals => some (.ok totals, caches)
  | start :: rest, caches, totals => do
    let stop := min size (← Size.add? start length)
    let (first, last) ← PointFunction.Checked.parentsCovering p start stop
    let offset ← Size.shiftLeft? first depth
    match ← addAll F p first last (addWindow start stop offset) records caches totals with
    | (.error e, caches) => return (.error e, caches)
    | (.ok totals, caches) => addSegments p size depth length records rest caches totals

/-- The starts of segments, which must have a length. -/
def segmentStarts (size length : ℕ) : Option (List ℕ) :=
  if length = 0 then none else some (Aggregation.segmentStarts size length)

/-- The totals of the buckets of a plan, so many of them, with the starts of the segments, and the caches afterwards. -/
def totals (p : Plan) (size : ℕ) (c : CombineParams) (context : EvaluationContext) :
    Option (Except PointFunction.Error (List BucketShare × List UInt64) × List NodeCache) :=
  let zeros := List.replicate size 0
  if c.direct then do
    let (result, caches) ← addAll F p 0 p.parents.size addValues context.records context.caches zeros
    return (result.map fun totals => (totals, [0]), caches)
  else do
    let depth ← sub? p.targetBits p.parentBits
    let starts ← segmentStarts size c.segmentLength.toNat
    let (result, caches) ← addSegments F p size depth c.segmentLength.toNat context.records starts context.caches zeros
    return (result.map fun totals => (totals, starts.map .ofNat), caches)

/-- Adds the labels whose buckets are listed. -/
def addLabels (depth : UInt32) (buckets : Array UInt64) : List BucketLabel → Labels → Option (Except Error Unit × Labels)
  | [], labels => some (.ok (), labels)
  | l :: rest, labels => do
    if ← PointFunction.Checked.contains buckets (← Word.shiftRight? l.bucketId depth) then
      match Labels.add l.bucketId l labels with
      | (.error e, labels) => return (.error e, labels)
      | (.ok (), labels) => addLabels depth buckets rest labels
    else addLabels depth buckets rest labels

/-- The plan of a round and the list of its buckets, if the parameters and the context are in order. -/
def planRound (context : EvaluationContext) (e : Expansion) (c : CombineParams) : Guarded Error (Plan × Array UInt64) := do
  c.validate
  if context.caches.length ≠ context.records.length then
    throw (.invalidContext s!"{context.caches.length} caches for {context.records.length} key halves")
  ExceptT.adapt Error.pointFunction (PointFunction.Checked.plan e F.domain.hierarchy context.previous)

def histogram (p : Plan) (buckets : Array UInt64) (n : Noise) (labels : List BucketLabel) (totals : List BucketShare)
    (boundaries : List UInt64) (tape : RandomTape) : Option (Except Error PartialHistogram × RandomTape) := do
  let (sums, tape) := n.addTo (totals.map BucketShare.sum) tape
  let shares := totals.zipWith (fun share sum => { share with sum }) sums
  let depth ← sub? F.domain.bitLength p.targetBits
  match ← addLabels depth buckets labels ∅ with
  | (.error e, _) => return (.error e, tape)
  | (.ok (), labels) =>
    return (.ok { bucketBits := p.targetBits, bitLength := F.domain.bitLength, labels, boundaries,
                  buckets := .ofList (buckets.toList.zip shares), privacy := n.privacy }, tape)

/-- One round: the histogram over the buckets of an expansion, and the context afterwards. -/
def aggregate (e : Expansion) (c : CombineParams) (n : Noise) (context : EvaluationContext) (tape : RandomTape) :
    Option ((Except Error PartialHistogram × EvaluationContext) × RandomTape) := do
  match ← (planRound F context e c).run with
  | .error e => return ((.error e, context), tape)
  | .ok (p, buckets) =>
    match ← totals F p buckets.size c context with
    | (.error e, caches) => return ((.error (.pointFunction e), { context with caches }), tape)
    | (.ok (totals, boundaries), caches) =>
      match ← histogram F p buckets n context.labels totals boundaries tape with
      | (.error e, tape) => return ((.error e, { context with caches }), tape)
      | (.ok h, tape) =>
        return ((.ok h, { context with caches, previousLevel := some p.level, expanded := buckets }), tape)

/-! ### Adding up -/

theorem addInto_eq {totals values : List BucketShare} (h : totals.length ≤ values.length) :
    addInto totals values = totals.zipWith (· + ·) values := by
  induction totals generalizing values with
  | nil => cases values <;> rfl
  | cons total totals ih =>
    obtain ⟨value, values, rfl⟩ := List.exists_cons_of_length_pos (Nat.zero_lt_of_lt h)
    rw [addInto, ih (Nat.le_of_succ_le_succ h), List.zipWith_cons_cons]

/-- Totals of the first buckets, and zeros for the others. -/
def padded (size : ℕ) (totals : Array BucketShare) : List BucketShare :=
  totals.toList ++ List.replicate (size - totals.size) 0

theorem padded_of_size {size : ℕ} {totals : Array BucketShare} (h : totals.size = size) :
    padded size totals = totals.toList := by
  rw [padded, h, Nat.sub_self, List.replicate_zero, List.append_nil]

theorem padded_zeros {size count : ℕ} {totals : Array BucketShare} (h : totals.size + count ≤ size) :
    padded size (totals ++ Array.replicate count 0) = padded size totals := by
  rw [padded, padded, Array.toList_append, Array.toList_replicate, List.append_assoc, List.replicate_append_replicate,
    Array.size_append, Array.size_replicate]
  congr 3
  omega

variable {F} {p : Plan}

/-- What is cut out of the values is added to the totals of the segment, which follow those found so far. -/
theorem addWindow_eq {size start stop offset : ℕ} {done segment values : Array BucketShare} (hdone : done.size = start)
    (hsegment : start + segment.size = stop) (hstop : stop ≤ size) (hoffset : offset ≤ start)
    (hvalues : stop - offset ≤ values.size) :
    addWindow start stop offset (padded size (done ++ segment)) values =
      some (padded size (done ++ segment.zipWith (· + ·) (values.extract (start - offset) (stop - offset)))) := by
  have hwindow : Size.slice? values.toList (start - offset) (stop - offset) =
      some (values.extract (start - offset) (stop - offset)).toList := by
    rw [Size.slice_eq (by omega) hvalues, Array.toList_extract, List.extract_eq_take_drop, List.drop_take]
  have hsize : (values.extract (start - offset) (stop - offset)).size = segment.size := by simp; omega
  have hpadded (segment' : Array BucketShare) (hsize : segment'.size = segment.size) : padded size (done ++ segment') =
      done.toList ++ (segment'.toList ++ List.replicate (size - stop) 0) := by
    rw [padded, Array.toList_append, List.append_assoc, Array.size_append, hsize, hdone, hsegment]
  rw [addWindow, sub_of_le hoffset, sub_of_le (by omega), hpadded segment rfl]
  simp only [Option.bind_eq_bind, Option.bind_some, hwindow]
  generalize values.extract (start - offset) (stop - offset) = window at hsize
  rw [hpadded (segment.zipWith (· + ·) window) (by rw [Array.size_zipWith, hsize, Nat.min_self]), Array.toList_zipWith,
    ← addInto_eq (by rw [Array.length_toList, Array.length_toList, hsize])]
  subst hdone hsegment
  have hslice := Size.slice_append done.toList segment.toList (List.replicate (size - (done.size + segment.size)) 0)
  rw [Array.length_toList, Array.length_toList] at hslice
  rw [hslice, Option.bind_some, List.append_assoc, List.take_left' Array.length_toList, ← List.drop_drop,
    List.drop_left' Array.length_toList, List.drop_left' Array.length_toList]
  rfl

section AddAll
variable {start stop first last : ℕ} (hp : p.Sized F.domain) (hcover : p.parentsCovering start stop = (first, last))
  (hoffset : first * 2 ^ p.subtreeBits.toNat ≤ start)
  (hvalues : ∀ k values c c', F.expandParents k p first last c = .ok (values, c') →
    stop - first * 2 ^ p.subtreeBits.toNat ≤ values.size)
include hp hcover hoffset hvalues

/-- There is a total for each bucket of a run, and where a way of adding the values of one key half agrees with what is
    added to them, all key halves are added the same. -/
theorem addAll_eq {add : List BucketShare → Array BucketShare → Option (List BucketShare)}
    (form : Array BucketShare → List BucketShare)
    (hadd : ∀ segment values : Array BucketShare, segment.size = stop - start →
      stop - first * 2 ^ p.subtreeBits.toNat ≤ values.size → add (form segment) values = some (form (segment.zipWith (· + ·)
        (values.extract (start - first * 2 ^ p.subtreeBits.toNat) (stop - first * 2 ^ p.subtreeBits.toNat)))))
    (records : List KeyRecord) (caches : List NodeCache) (segment : Array BucketShare)
    (hsegment : segment.size = stop - start) :
    addAll F p first last add records caches (form segment) =
        some (Prod.map (Except.map form) id (addRange F p start stop records caches segment)) ∧
      ∀ found, (addRange F p start stop records caches segment).1 = .ok found → found.size = stop - start := by
  induction records generalizing caches segment with
  | nil => exact ⟨rfl, by rintro _ ⟨⟩; exact hsegment⟩
  | cons record records ih =>
    cases caches with
    | nil => exact ⟨rfl, by rintro _ ⟨⟩; exact hsegment⟩
    | cons cache caches =>
      have hgives : (PointFunction.Checked.expandParents F record.key p first last cache).run =
        some (F.expandParents record.key p first last cache) :=
          PointFunction.Checked.expandParents_gives hp first last cache
      rw [addAll, hgives, addRange, hcover]
      dsimp only
      rcases hexpand : F.expandParents record.key p first last cache with e | ⟨values, cache'⟩
      · exact ⟨rfl, by rintro _ ⟨⟩⟩
      · have hwindow := hvalues _ _ _ _ hexpand
        obtain ⟨hall, hsize⟩ := ih caches (segment.zipWith (· + ·) (values.extract
          (start - first * 2 ^ p.subtreeBits.toNat) (stop - first * 2 ^ p.subtreeBits.toNat))) (by simp; omega)
        refine ⟨?_, hsize⟩
        simp only [Option.bind_eq_bind, Option.bind_some, hadd segment values hsegment hwindow, hall]
        rfl

end AddAll

/-! ### Segments -/

section Sized
variable (hp : p.Sized F.domain)
include hp

/-- Segment after segment is added up, after those before number `k`, as without the checks. -/
theorem addSegments_eq (records : List KeyRecord) {length k count : ℕ} (hlength : 0 < length)
    (hstarts : ∀ j < k + count, j * length < p.size ∧ j * length + length < 2 ^ 64) (caches : List NodeCache)
    (done : Array BucketShare) (hdone : done.size = min p.size (k * length)) :
    addSegments F p p.size p.subtreeBits length records ((List.range' k count).map (· * length)) caches
        (padded p.size done) =
      some (Prod.map (Except.map (padded p.size)) id
        (Aggregation.addSegments F p length records ((List.range' k count).map (· * length)) caches done)) := by
  induction count generalizing k caches done with
  | zero => rfl
  | succ count ih =>
    obtain ⟨hstart, hroom⟩ := hstarts k (by omega)
    rw [Nat.min_eq_right hstart.le] at hdone
    obtain ⟨stop, hstop⟩ : ∃ stop, min p.size (k * length + length) = stop := ⟨_, rfl⟩
    have hrange := segmentInRange_of_sized hp (show k * length < stop by omega) (show stop ≤ p.size by omega)
    obtain ⟨hall, hsize⟩ := addAll_eq hp Prod.mk.eta.symm hrange.offset_le hrange.window_le
      (fun segment => padded p.size (done ++ segment))
      (fun _ _ hsegment hvalues => addWindow_eq hdone (by omega) hrange.stop_le hrange.offset_le hvalues) records caches
      (Array.replicate (stop - k * length) 0) Array.size_replicate
    have hzeros : padded p.size (done ++ Array.replicate (stop - k * length) 0) = padded p.size done :=
      padded_zeros (by omega)
    rw [hzeros] at hall
    rw [List.range'_succ, List.map_cons, addSegments, Aggregation.addSegments, Size.add_eq hroom]
    simp only [Option.bind_eq_bind, Option.bind_some, hstop, PointFunction.Checked.parentsCovering_eq hp,
      Size.shiftLeft_eq hrange.depth_lt hrange.offset_lt, hall]
    rcases haddRange : addRange F p (k * length) stop records caches (Array.replicate (stop - k * length) 0) with
      ⟨e | segment, caches'⟩
    · rfl
    · have hsegment : segment.size = stop - k * length := hsize segment (by rw [haddRange])
      exact ih (fun j hj => hstarts j (by omega)) caches' (done ++ segment)
        (by rw [Array.size_append, Nat.succ_mul]; omega)

/-- All key halves are added up at once as without the checks. -/
theorem addAll_direct (records : List KeyRecord) (caches : List NodeCache) :
    addAll F p 0 p.parents.size addValues records caches (List.replicate p.size 0) =
      some (Prod.map (Except.map Array.toList) id (addRange F p 0 p.size records caches (Array.replicate p.size 0))) := by
  have hvalues (k : KeyHalf BucketShare) (values : Array BucketShare) (c c' : NodeCache)
      (hexpand : F.expandParents k p 0 p.parents.size c = .ok (values, c')) :
      p.size - 0 * 2 ^ p.subtreeBits.toNat ≤ values.size := by
    rw [expandParents_eq hp (expandParents_ok hexpand).1 (Nat.zero_le _) (le_refl _)] at hexpand
    cases hexpand
    simp [Plan.size]
  have hadd (segment values : Array BucketShare) (hsegment : segment.size = p.size - 0)
      (hvalues : p.size - 0 * 2 ^ p.subtreeBits.toNat ≤ values.size) :
      addValues segment.toList values = some (segment.zipWith (· + ·)
        (values.extract (0 - 0 * 2 ^ p.subtreeBits.toNat) (p.size - 0 * 2 ^ p.subtreeBits.toNat))).toList := by
    rw [Nat.zero_mul] at hvalues ⊢
    have hmin : min segment.toList.length values.toList.length = p.size := by
      rw [Array.length_toList, Array.length_toList]
      omega
    have htake : segment.toList.take p.size = segment.toList := List.take_of_length_le (by rw [Array.length_toList]; omega)
    rw [addValues, addInto_eq (by rw [Array.length_toList, Array.length_toList]; omega), List.zipWith_eq_zipWith_take_min,
      hmin, htake, Array.toList_zipWith, Array.toList_extract, List.extract_eq_take_drop]
    rfl
  have hall := addAll_eq hp Plan.parentsCovering_size (Nat.zero_mul _).le hvalues Array.toList hadd records caches
    (Array.replicate p.size 0) Array.size_replicate
  rw [← Array.toList_replicate]
  exact hall.1

/-- Totals are found as without the checks, in a context in which there is a cache for each key half. -/
theorem totals_eq {c : CombineParams} (hc : c.direct = false → c.segmentLength ≠ 0) {context : EvaluationContext}
    (hlength : context.records.length = context.caches.length) :
    totals F p p.size c context =
      some (Prod.map (Except.map (Prod.map Array.toList id)) id (Aggregation.totals F p c context)) := by
  rw [totals]
  cases hdirect : c.direct with
  | true =>
    rw [if_pos rfl, addAll_direct hp, Aggregation.totals, hdirect, if_pos rfl]
    generalize addRange F p 0 p.size context.records context.caches (Array.replicate p.size 0) = found
    obtain ⟨_ | _, _⟩ := found <;> rfl
  | false =>
    have hpos : 0 < c.segmentLength.toNat :=
      Nat.pos_of_ne_zero fun hzero => hc hdirect (UInt64.toNat_inj.mp hzero)
    have hstarts (j : ℕ) (hj : j < 0 + (p.size + c.segmentLength.toNat - 1) / c.segmentLength.toNat) :
        j * c.segmentLength.toNat < p.size ∧ j * c.segmentLength.toNat + c.segmentLength.toNat < 2 ^ 64 := by
      rw [Nat.zero_add] at hj
      exact segment_lt hp.size_le (List.mem_map_of_mem (List.mem_range.mpr hj)) hpos
    have hall := addSegments_eq hp context.records hpos hstarts context.caches #[] (by simp)
    have hzeros : padded p.size #[] = List.replicate p.size 0 := rfl
    have hsize := @totals_ok F p c context hp hc hlength
    rw [hzeros, ← List.range_eq_range', ← Aggregation.segmentStarts] at hall
    rw [if_neg Bool.false_ne_true, PointFunction.Checked.sub_parentBits hp, segmentStarts, if_neg hpos.ne']
    simp only [Aggregation.totals, hdirect, Bool.false_eq_true, if_false, Option.bind_eq_bind, Option.bind_some,
      hall] at hsize ⊢
    generalize Aggregation.addSegments F p _ context.records _ context.caches #[] = found at hsize ⊢
    obtain ⟨e | result, caches⟩ := found
    · rfl
    · have hpadded : padded p.size result = result.toList := padded_of_size (hsize rfl).1
      simp only [Prod.map_apply, Except.map, hpadded]
      rfl

/-! ### Labels -/

/-- Labels are added as without the checks, one after the other. -/
theorem addLabels_eq (labels : List BucketLabel) (held : Labels) :
    addLabels (F.domain.bitLength - p.targetBits) p.buckets labels held =
      some (Labels.addAll (planLabels F p labels) held) := by
  have hlt := labelDepth_lt hp
  induction labels generalizing held with
  | nil => rfl
  | cons l rest ih =>
    have hcontains :
        PointFunction.Checked.contains p.buckets (l.bucketId >>> (F.domain.bitLength - p.targetBits).toUInt64) =
        some ((Frontier.ofPlan p).contains (PartialHistogram.bucketOf (F.domain.bitLength - p.targetBits) l.bucketId)) := by
      rw [PartialHistogram.bucketOf, if_pos hlt]
      exact PointFunction.Checked.contains_eq (Frontier.ofPlan p) _
    rw [addLabels, Word.shiftRight_eq hlt]
    simp only [Option.bind_eq_bind, Option.bind_some, hcontains, planLabels, List.filter_cons]
    split
    · rcases hadd : Labels.add l.bucketId l held with ⟨e | u, held'⟩
      · exact congrArg some (Attempt.bind_of_error hadd).symm
      · have hnext : Labels.addAll ((l.bucketId, l) :: planLabels F p rest) held =
          Labels.addAll (planLabels F p rest) held' := Attempt.bind_of_ok hadd
        exact (ih held').trans (congrArg some hnext.symm)
    · exact ih held

/-! ### Rounds -/

theorem histogram_eq (n : Noise) (labels : List BucketLabel) (totals : Array BucketShare) (boundaries : List UInt64)
    (tape : RandomTape) : histogram F p p.buckets n labels totals.toList boundaries tape =
      some (Aggregation.histogram F p n labels totals boundaries tape) := by
  rw [histogram, histogram_run, sub_of_le hp.bits_le]
  simp only [Option.bind_eq_bind, Option.bind_some, addLabels_eq hp]
  rcases Labels.addAll (planLabels F p labels) ∅ with ⟨e | u, labels'⟩ <;> rfl

end Sized

variable (F)

theorem planRound_gives (context : EvaluationContext) (e : Expansion) (c : CombineParams) :
    (planRound F context e c).Gives ((fun p => (p, p.buckets)) <$> Aggregation.planRound F context e c) := by
  rw [planRound, Aggregation.planRound, map_bind]
  refine Gives.bind (Gives.lift _) fun _ _ => ?_
  by_cases hlength : context.caches.length ≠ context.records.length
  · rw [if_pos hlength, if_pos hlength]
    exact Gives.throw _
  · rw [if_neg hlength, if_neg hlength]
    have hplan := (PointFunction.Checked.plan_gives e F.domain context.previous).adapt Error.pointFunction
    cases hmodel : e.plan F.domain.hierarchy context.previous <;> rwa [hmodel] at hplan

/-- A round never goes out of range, whatever is in the context, whatever expansion is asked for and however it is added
    up: it ends with a histogram or an error, as without the checks. -/
theorem aggregate_in_range (e : Expansion) (c : CombineParams) (n : Noise) (context : EvaluationContext)
    (tape : RandomTape) : aggregate F e c n context tape = some (Aggregation.aggregate F e c n context tape) := by
  have hround : (planRound F context e c).run = some ((fun p => (p, p.buckets)) <$> Aggregation.planRound F context e c) :=
    planRound_gives F context e c
  rw [aggregate, hround, aggregate_run]
  cases hplan : Aggregation.planRound F context e c with
  | error error => rfl
  | ok p =>
    obtain ⟨hvalidate, hlength, hexpansion⟩ := planRound_iff.mp hplan
    have hp := sized_of_plan hexpansion
    have htotals := totals_eq hp (segmentLength_of_validate hvalidate) hlength
    simp only [Option.bind_eq_bind, Option.bind_some, Except.map_ok, p.size_buckets, htotals]
    rcases Aggregation.totals F p c context with ⟨error | ⟨totals, boundaries⟩, caches⟩
    · rfl
    · simp only [Prod.map_apply, Except.map, id, Option.bind_some, histogram_eq hp]
      rcases Aggregation.histogram F p n context.labels totals boundaries tape with ⟨error | h, rest⟩ <;> rfl

end PrivateHistogram.Aggregation.Checked
