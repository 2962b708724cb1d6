import PrivateHistogram.Proofs.Aggregation.Runs

/-! A round that fails leaves nothing behind that a later round could tell. It may have reached nodes, of some of the key
    halves or of all, but rounds over contexts that differ in what has been kept give the same results, one after the
    other (`Alike.rounds`). -/

namespace PrivateHistogram.Aggregation

open PointFunction

variable {F : PointFunction BucketShare} {a b context : EvaluationContext}

theorem Alike.rounds (hab : Alike F a b) (calls : List Call) (tape : RandomTape) :
    (rounds F calls b tape).1.1 = (rounds F calls a tape).1.1 ∧
      Alike F (Aggregation.rounds F calls a tape).1.2 (Aggregation.rounds F calls b tape).1.2 := by
  induction calls generalizing a b tape with
  | nil => exact ⟨rfl, hab⟩
  | cons call calls ih =>
    obtain ⟨hresult, htape, hafter⟩ := hab.aggregate call.expansion call.combine call.noise tape
    rw [rounds_cons, rounds_cons]
    obtain ⟨hresults, hafter⟩ := ih hafter (Aggregation.aggregate F call.expansion call.combine call.noise a tape).2
    simp only [hresult, htape, hresults]
    exact ⟨trivial, hafter⟩

/-- A round that fails changes at most what is kept. -/
theorem alike_of_error {e : Expansion} {c : CombineParams} {n : Noise} {tape : RandomTape} {error : Error}
    (hsound : SoundAll F context.records context.caches)
    (hfail : (aggregate F e c n context tape).1.1 = .error error) :
    Alike F context (aggregate F e c n context tape).1.2 := by
  have hafter := ((alike_refl hsound).aggregate e c n tape).2.2.first
  rcases hrun : aggregate F e c n context tape with ⟨⟨result, context'⟩, rest⟩
  rw [hrun] at hfail hafter
  obtain rfl : result = .error error := hfail
  obtain ⟨caches, rfl⟩ := aggregate_error hrun
  exact ⟨rfl, rfl, rfl, hsound, hafter⟩

/-! ### Rounds without noise -/

theorem aggregate_none (e : Expansion) (c : CombineParams) (context : EvaluationContext) (tape tape' : RandomTape) :
    (aggregate F e c .none context tape).1 = (aggregate F e c .none context tape').1 := by
  rw [aggregate_run, aggregate_run]
  cases planRound F context e c with
  | error error => rfl
  | ok p =>
    dsimp only
    rcases totals F p c context with ⟨error | ⟨result, boundaries⟩, caches⟩
    · rfl
    · simp only [histogram_run]
      rcases Labels.addAll (planLabels F p context.labels) ∅ with ⟨error | u, labels⟩ <;> rfl

theorem rounds_none {calls : List Call} (hcalls : ∀ call ∈ calls, call.noise = .none) (context : EvaluationContext)
    (tape tape' : RandomTape) : (rounds F calls context tape).1 = (rounds F calls context tape').1 := by
  induction calls generalizing context tape tape' with
  | nil => rfl
  | cons call calls ih =>
    obtain ⟨hcall, hcalls⟩ := List.forall_mem_cons.mp hcalls
    simp only [rounds_cons, hcall, aggregate_none call.expansion call.combine context tape tape']
    rw [ih hcalls _ (aggregate F call.expansion call.combine .none context tape).2]

/-! ### Failed rounds -/

/-- A round that fails after any rounds leaves the key halves, the level and the buckets of its context as they were. All
    rounds after it give what they would have given without it: from the same random numbers, and from any where there
    is no noise. -/
theorem rounds_of_failed (F : PointFunction BucketShare) (records : List KeyRecord) (before : List Call) (call : Call)
    (tape tape' : RandomTape) (error : Error)
    (hfail : (aggregate F call.expansion call.combine call.noise
      (rounds F before (.ofRecords records) tape).1.2 tape').1.1 = .error error) :
    let context := (rounds F before (.ofRecords records) tape).1.2
    let failed := (aggregate F call.expansion call.combine call.noise context tape').1.2
    failed.records = context.records ∧ failed.previousLevel = context.previousLevel ∧ failed.expanded = context.expanded ∧
      ∀ later,
        (∀ tape, (rounds F later failed tape).1.1 = (rounds F later context tape).1.1) ∧
        ((∀ call ∈ later, call.noise = .none) →
          ∀ tape₁ tape₂, (rounds F later failed tape₁).1.1 = (rounds F later context tape₂).1.1) := by
  intro context failed
  have hsound := ((reached_ofRecords F records).rounds before tape).soundAll
  have halike : Alike F context failed := alike_of_error hsound hfail
  refine ⟨halike.records, halike.previousLevel, halike.expanded, fun later => ?_⟩
  have hsame := fun tape => (halike.rounds later tape).1
  exact ⟨hsame, fun hnone tape₁ tape₂ => (hsame tape₁).trans (congrArg Prod.fst (rounds_none hnone context tape₁ tape₂))⟩

/-- Nodes of the first key half are reached before the second is refused, which has no correction words at all. -/
theorem rounds_of_failed_second :
    let F : PointFunction BucketShare := ⟨.oneThree, .standard BucketShare⟩
    let call : Call := ⟨⟨[0, 1], [[], []], none⟩, .default, .none⟩
    let key := (F.keysFrom 5 ⟨.ofNat 7, 1⟩ (Octets.zero 16) (Octets.zero 16)).1
    let context := EvaluationContext.ofRecords
      [⟨⟨Octets.zero 16⟩, key, none⟩, ⟨⟨Octets.zero 16⟩, { key with corrections := [] }, none⟩]
    let tape : RandomTape := ⟨fun _ => 0, 0, none⟩
    ∃ error failed, aggregate F call.expansion call.combine call.noise context tape = ((.error error, failed), tape) ∧
      failed ≠ context ∧ (rounds F [call] failed tape).1.1 = (rounds F [call] context tape).1.1 := by
  intro F call key context tape
  have hvalidate : CombineParams.default.validate = .ok () := rfl
  have hplan : planRound F context call.expansion call.combine = .ok ⟨1, 1, #[0, 1], 3⟩ :=
    planRound_iff.mpr ⟨hvalidate, rfl, rfl⟩
  have hp := sized_of_plan (planRound_iff.mp hplan).2.2
  have hkey : F.checkKey key = .ok () := (checkKey_keysFrom F 5 _ _ _).1
  obtain ⟨error, hrefused⟩ : ∃ error, F.checkKey { key with corrections := [] } = .error error :=
    ⟨_, by rw [checkKey, if_pos (by decide)]⟩
  have htotals : totals F ⟨1, 1, #[0, 1], 3⟩ call.combine context =
      (.error error, [F.keep key 1 .empty [0, 1], .empty]) := by
    have hexpand := expandParents_eq (c := .empty) hp hkey (show 0 ≤ 2 by decide) (show 2 ≤ 2 by decide)
    have hrest := expandParents_of_refused (c := .empty) (p := ⟨1, 1, #[0, 1], 3⟩) hrefused 0 2
    have hcover : Plan.parentsCovering ⟨1, 1, #[0, 1], 3⟩ 0 (Plan.size ⟨1, 1, #[0, 1], 3⟩) = (0, 2) := by decide
    have hdirect : call.combine.direct = true := rfl
    simp only [totals, hdirect, if_true, context, EvaluationContext.ofRecords, List.map_cons, List.map_nil, addRange,
      hcover, hexpand, hrest]
    rfl
  have hrun : aggregate F call.expansion call.combine call.noise context tape =
      ((.error (.pointFunction error), { context with caches := [F.keep key 1 .empty [0, 1], .empty] }), tape) := by
    rw [aggregate_run, hplan]
    simp only [htotals]
  have hsame := rounds_of_failed F context.records [] call tape tape (.pointFunction error) (congrArg (·.1.1) hrun)
  refine ⟨_, _, hrun, fun hunchanged => ?_, ?_⟩
  · -- The bucket 0 of the first level has been reached with the first key half.
    have hcache : F.keep key 1 .empty [0, 1] = .empty := (List.cons.inj (congrArg EvaluationContext.caches hunchanged)).1
    have hkept := NodeCache.get?_foldl_insert .empty 1
      (fun q => F.nodeAt key (1 : UInt32).toNat q .empty) [0, 1] 1 0
    rw [if_pos (by decide)] at hkept
    rw [keep, if_pos (by decide)] at hcache
    rw [hcache] at hkept
    simp [NodeCache.get?, NodeCache.empty] at hkept
  · have hagain : (rounds F [call] (aggregate F call.expansion call.combine call.noise context tape).1.2 tape).1.1 =
        (rounds F [call] context tape).1.1 := (hsame.2.2.2 [call]).1 tape
    rwa [hrun] at hagain

end PrivateHistogram.Aggregation
