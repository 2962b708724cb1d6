import PrivateHistogram.Proofs.PointFunction.Plans

/-! Refining buckets level by level. A bucket is put out exactly if the bucket above it at the parents' length is
    refined (`mem_buckets_iff`), so through however many levels a round goes, what it puts out is below what the round
    before has (`follows_of_plan`). A round that refines buckets of the round before at a level that follows has a
    plan, unless it is too large (`plan_refine`). -/

namespace PrivateHistogram.PointFunction

namespace Plan
variable {d : Domain} {p : Plan} (hp : p.Fits d)
include hp

theorem mem_buckets_iff {b : UInt64} :
    b ∈ p.buckets.toList ↔ ∃ q ∈ p.parents.toList, q.toNat = b.toNat / 2 ^ p.subtreeBits.toNat := by
  rw [mem_buckets]
  have hwidth : 0 < 2 ^ p.subtreeBits.toNat := by positivity
  constructor
  · rintro ⟨i, hi, rfl⟩
    obtain ⟨hlt, hbucket⟩ := hp.toNat_bucket hi
    refine ⟨_, List.getElem_mem hlt, ?_⟩
    rw [hbucket, mul_add_div_of_lt (Nat.mod_lt _ hwidth)]
  · rintro ⟨q, hq, hdiv⟩
    obtain ⟨k, hk, rfl⟩ := List.getElem_of_mem hq
    have hmod := Nat.mod_lt b.toNat hwidth
    have hi : k * 2 ^ p.subtreeBits.toNat + b.toNat % 2 ^ p.subtreeBits.toNat < p.size := mul_add_lt_mul hk hmod
    obtain ⟨hlt, hbucket⟩ := hp.toNat_bucket hi
    refine ⟨_, hi, UInt64.toNat_inj.mp ?_⟩
    rw [hbucket, Nat.mul_add_mod_of_lt hmod]
    simp only [mul_add_div_of_lt hmod, hdiv]
    rw [Nat.mul_comm, Nat.div_add_mod]

/-- The bucket of a point is put out exactly if the bucket that it has at the parents' length is refined. -/
theorem ancestor_mem_buckets_iff (x : UInt64) :
    ancestor d.bitLength.toNat x p.targetBits.toNat ∈ p.buckets.toList ↔
      ∃ q ∈ p.parents.toList, q.toNat = x.toNat / 2 ^ (d.bitLength.toNat - p.parentBits.toNat) := by
  have hsum := hp.toNat_subtreeBits
  have hle := UInt32.le_iff_toNat_le.mp hp.bits_le
  have hlt := UInt32.lt_iff_toNat_lt.mp hp.bits_lt
  have hbits := d.bitLength_le
  have hexponent : d.bitLength.toNat - p.targetBits.toNat + p.subtreeBits.toNat =
      d.bitLength.toNat - p.parentBits.toNat := by omega
  rw [mem_buckets_iff hp, toNat_ancestor x (by omega), Nat.div_div_eq_div_mul, ← pow_add, hexponent]

end Plan

/-! ### Buckets below those of the round before -/

/-- A plan goes on from a frontier: its level follows, and above each of its buckets is one of the frontier. -/
structure Plan.Follows (f : Frontier) (p : Plan) : Prop where
  level_lt : ∀ current ∈ f.level, current < p.level
  bits_lt : f.bits < p.targetBits
  above : ∀ b ∈ p.buckets.toList, ∃ i < f.size,
    (f.bucket i).toNat = b.toNat / 2 ^ (p.targetBits.toNat - f.bits.toNat)

namespace Plan
variable {d : Domain} {f : Frontier} {p q : Plan}

theorem follows_of_step (hf : f.Fits d) {level : UInt64} {selection : List UInt64}
    (hstep : step d.hierarchy f level selection = .ok p) : p.Follows f := by
  have hp := fits_of_step hf hstep
  have hdepth := hp.toNat_subtreeBits
  obtain ⟨targetBits, parents, htarget, hnext, hchosen, -, rfl⟩ := step_ok hstep
  refine ⟨hnext, hp.bits_lt, fun b hb => ?_⟩
  obtain ⟨parent, hparent, habove⟩ := (mem_buckets_iff hp).mp hb
  obtain ⟨i, hi, rfl⟩ := (chosen_ok hf hchosen).2 parent hparent
  refine ⟨i, hi, habove.trans ?_⟩
  rw [← Nat.sub_eq_of_eq_add' hdepth.symm]

theorem Follows.trans (hp : p.Follows f) (hq : q.Follows (.ofPlan p)) : q.Follows f where
  level_lt current hcurrent := UInt64.lt_trans (hp.level_lt current hcurrent) (hq.level_lt p.level rfl)
  bits_lt := UInt32.lt_trans hp.bits_lt hq.bits_lt
  above b hb := by
    obtain ⟨i, hi, habove⟩ := hq.above b hb
    obtain ⟨j, hj, htop⟩ := hp.above (p.bucket i) (mem_buckets.mpr ⟨i, hi, rfl⟩)
    have hbits := UInt32.lt_iff_toNat_lt.mp hp.bits_lt
    have hbits' : p.targetBits.toNat < q.targetBits.toNat := UInt32.lt_iff_toNat_lt.mp hq.bits_lt
    have hsum : q.targetBits.toNat - p.targetBits.toNat + (p.targetBits.toNat - f.bits.toNat) =
        q.targetBits.toNat - f.bits.toNat := by omega
    replace habove : (p.bucket i).toNat = b.toNat / 2 ^ (q.targetBits.toNat - p.targetBits.toNat) := habove
    exact ⟨j, hj, by rw [htop, habove, Nat.div_div_eq_div_mul, ← pow_add, hsum]⟩

theorem follows_of_descend {first : UInt64 × List UInt64} {rest : List (UInt64 × List UInt64)} (hf : f.Fits d)
    (h : descend d.hierarchy f first rest = .ok p) : p.Follows f := by
  suffices hboth : p.Fits d ∧ p.Follows f from hboth.2
  refine descend_induction (P := fun q => q.Fits d ∧ q.Follows f) h
    (fun q hstep => ⟨fits_of_step hf hstep, follows_of_step hf hstep⟩) ?_
  rintro q q' level selection ⟨hq, hfollows⟩ hstep
  exact ⟨fits_of_step hq.frontier hstep, hfollows.trans (follows_of_step hq.frontier hstep)⟩

/-- A round goes to a level that follows that of the round before, and its buckets are below those of that round. -/
theorem follows_of_plan {e : Expansion} {before : Plan} (hbefore : before.Fits d)
    (h : e.plan d.hierarchy (some (before.level, before.buckets)) = .ok p) :
    before.level < p.level ∧ before.targetBits < p.targetBits ∧
      ∀ b ∈ p.buckets.toList, ancestor p.targetBits.toNat b before.targetBits.toNat ∈ before.buckets.toList := by
  obtain ⟨f, first, rest, -, -, hf, hdescend⟩ := descend_of_plan h
  rw [Frontier.ofPrevious, hbefore.level] at hf
  cases hf
  have hfollows := follows_of_descend (frontier_ofList hbefore) hdescend
  have hp := fits_of_descend (frontier_ofList hbefore) hdescend
  refine ⟨hfollows.level_lt _ rfl, hfollows.bits_lt, fun b hb => ?_⟩
  obtain ⟨i, hi, habove⟩ := hfollows.above b hb
  replace hi : i < before.buckets.size := hi
  have hbits : p.targetBits.toNat - before.targetBits.toNat < 64 := by
    have hle := hp.targetBits_le
    have hpos := UInt32.lt_iff_toNat_lt.mp (d.levelBits_pos hbefore.level)
    rw [UInt32.toNat_zero] at hpos
    omega
  have hancestor : ancestor p.targetBits.toNat b before.targetBits.toNat = before.buckets.toList[i] := by
    refine UInt64.toNat_inj.mp ?_
    rw [toNat_ancestor b hbits]
    refine Eq.trans (Eq.symm habove) ?_
    simp [Frontier.ofList, hi]
  rw [hancestor]
  exact List.getElem_mem _

end Plan

/-! ### Rounds that refine -/

/-- Whether the bucket that a point has at a level is among those that are refined. Before any level the whole
    domain is. -/
def Domain.IsRefined (d : Domain) (previousLevel : Option UInt64) (buckets : List UInt64) (x : UInt64) : Prop :=
  match previousLevel with
  | none => True
  | some level => ∃ bits, d.hierarchy.levelBits level = .ok bits ∧ ancestor d.bitLength.toNat x bits.toNat ∈ buckets

/-- What may be refined after a round: the whole domain before the first, buckets of it after any other. -/
def CanRefine (previous : Option (UInt64 × Array UInt64)) (buckets : List UInt64) : Prop :=
  match previous with
  | none => buckets = []
  | some found => buckets ≠ [] ∧ ∀ q ∈ buckets, q ∈ found.2.toList

namespace Plan
variable {d : Domain}

/-- A round is refused that goes down more than 24 bits or puts out more than `2 ^ 24` buckets. -/
theorem checkSize_eq (parents : ℕ) {parentBits targetBits : UInt32} (h : parentBits ≤ targetBits) :
    checkSize parents parentBits targetBits = .ok () ∨
      checkSize parents parentBits targetBits = .error (.expansionTooLarge parents (targetBits - parentBits)) ∧
        (maxBucketBits < targetBits - parentBits ∨ 2 ^ 24 < parents * 2 ^ (targetBits - parentBits).toNat) := by
  rw [checkSize, if_neg (UInt32.not_lt.mpr h)]
  split
  · rename_i hdepth
    exact .inr ⟨rfl, .inl hdepth⟩
  · split
    · rename_i hsize
      exact .inr ⟨rfl, .inr hsize⟩
    · exact .inl rfl

theorem length_le_of_pairwise {l : List UInt64} {bits : ℕ} (hl : l.Pairwise (· < ·)) (hlt : ∀ q ∈ l, q.toNat < 2 ^ bits) :
    l.length ≤ 2 ^ bits := by
  have hnodup : (l.map UInt64.toNat).Nodup :=
    List.Nodup.map (fun _ _ => UInt64.toNat_inj.mp) (hl.imp UInt64.ne_of_lt)
  have hsubset : l.map UInt64.toNat ⊆ List.range (2 ^ bits) := fun n hn => by
    obtain ⟨q, hq, rfl⟩ := List.mem_map.mp hn
    exact List.mem_range.mpr (hlt q hq)
  simpa using (hnodup.subperm hsubset).length_le

theorem lt_bitLength_of_tooLarge {parents : ℕ} {parentBits targetBits : UInt32} (hbits : parentBits ≤ targetBits)
    (htarget : targetBits ≤ d.bitLength) (hparents : parents ≤ 2 ^ parentBits.toNat)
    (h : maxBucketBits < targetBits - parentBits ∨ 2 ^ 24 < parents * 2 ^ (targetBits - parentBits).toNat) :
    24 < d.bitLength.toNat := by
  have hle := UInt32.le_iff_toNat_le.mp htarget
  have hsub := UInt32.toNat_sub_of_le _ _ hbits
  have hparentBits := UInt32.le_iff_toNat_le.mp hbits
  rcases h with hdepth | hsize
  · have hdepth := UInt32.lt_iff_toNat_lt.mp hdepth
    rw [hsub] at hdepth
    change 24 < _ at hdepth
    omega
  · by_contra hsmall
    refine absurd hsize (Nat.not_lt.mpr ?_)
    calc parents * 2 ^ (targetBits - parentBits).toNat
        ≤ 2 ^ parentBits.toNat * 2 ^ (targetBits - parentBits).toNat := Nat.mul_le_mul_right _ hparents
      _ = 2 ^ targetBits.toNat := by rw [hsub, ← pow_add, Nat.add_sub_cancel' hparentBits]
      _ ≤ 2 ^ 24 := Nat.pow_le_pow_right (by decide) (by omega)

theorem plan_single {h : Hierarchy} (previous : Option (UInt64 × Array UInt64)) (level : UInt64) (buckets : List UInt64) :
    Expansion.plan ⟨[level], [buckets], previous.map Prod.fst⟩ h previous =
      match previous with
      | none => step h .fresh level buckets
      | some (current, found) => h.levelBits current >>= fun bits => step h (.ofList current bits found) level buckets := by
  have hstep : ∀ f, descend h f (level, buckets) [] = step h f level buckets := fun f => bind_pure _
  cases previous with
  | none => exact hstep _
  | some found =>
    simp only [Expansion.plan, Expansion.steps, List.length_nil, List.zip_nil_left, Option.map_some, ne_eq,
      not_true_eq_false, if_false, if_true]
    exact congrArg (h.levelBits found.1 >>= ·) (funext fun bits => hstep _)

/-- Where the round before stopped there is a frontier, and the buckets to refine are found in it. -/
theorem frontier_of_stopped {previous : Option (UInt64 × Array UInt64)} (hprevious : Stopped d previous)
    {buckets : List UInt64} (hbuckets : CanRefine previous buckets) :
    ∃ f parents, f.Fits d ∧ f.level = previous.map Prod.fst ∧ chosen f buckets = .ok parents ∧
      (∀ level, Expansion.plan ⟨[level], [buckets], previous.map Prod.fst⟩ d.hierarchy previous =
        step d.hierarchy f level buckets) ∧
      ∀ x, x.toNat < 2 ^ d.bitLength.toNat →
        ((∃ q ∈ parents.toList, q.toNat = x.toNat / 2 ^ (d.bitLength.toNat - f.bits.toNat)) ↔
          d.IsRefined (previous.map Prod.fst) buckets x) := by
  cases previous with
  | none =>
    obtain rfl : buckets = [] := hbuckets
    refine ⟨.fresh, _, Frontier.fresh_fits d, rfl, rfl, fun level => plan_single none level [], fun x hx => ?_⟩
    have hzero : x.toNat / 2 ^ (d.bitLength.toNat - Frontier.fresh.bits.toNat) = 0 := Nat.div_eq_of_lt hx
    rw [hzero]
    exact ⟨fun _ => trivial, fun _ => ⟨0, by simp [Frontier.fresh], rfl⟩⟩
  | some found =>
    obtain ⟨p, hp, rfl⟩ := hprevious found rfl
    obtain ⟨hne, hmem⟩ := hbuckets
    have hf := frontier_ofList hp
    have hselect := hf.select_eq (fun h => nomatch h) fun q hq => by
      obtain ⟨i, hi, rfl⟩ := List.getElem_of_mem (hmem q hq)
      exact ⟨i, hi, by simp [Frontier.ofList, show i < p.buckets.size from hi]⟩
    refine ⟨_, (increasing buckets).toArray, hf, rfl, by rw [chosen, if_neg hne, hselect], fun level => ?_, fun x hx => ?_⟩
    · refine (plan_single _ level buckets).trans ?_
      simp only [hp.level]
      rfl
    · have hbits : d.bitLength.toNat - p.targetBits.toNat < 64 := by
        have hpos := UInt32.lt_iff_toNat_lt.mp (d.levelBits_pos hp.level)
        have hle := d.bitLength_le
        rw [UInt32.toNat_zero] at hpos
        omega
      have htoNat := toNat_ancestor x hbits
      change (∃ q ∈ increasing buckets, q.toNat = x.toNat / 2 ^ (d.bitLength.toNat - p.targetBits.toNat)) ↔ _
      rw [← htoNat]
      constructor
      · rintro ⟨q, hq, heq⟩
        exact ⟨p.targetBits, hp.level, UInt64.toNat_inj.mp heq ▸ mem_increasing.mp hq⟩
      · rintro ⟨bits, hbits, hx⟩
        cases hp.level.symm.trans hbits
        exact ⟨_, mem_increasing.mpr hx, rfl⟩

/-- A round that refines buckets of the round before at a level that follows has a plan for the points in them,
    unless it is too large. -/
theorem plan_refine {previous : Option (UInt64 × Array UInt64)} (hprevious : Stopped d previous) {level : UInt64}
    {targetBits : UInt32} (htarget : d.hierarchy.levelBits level = .ok targetBits)
    (hnext : ∀ current ∈ previous.map Prod.fst, current < level) {buckets : List UInt64}
    (hbuckets : CanRefine previous buckets) :
    let plan := Expansion.plan ⟨[level], [buckets], previous.map Prod.fst⟩ d.hierarchy previous
    (∃ parents depth, plan = .error (.expansionTooLarge parents depth) ∧
        (maxBucketBits < depth ∨ 2 ^ 24 < parents * 2 ^ depth.toNat) ∧ 24 < d.bitLength.toNat) ∨
      ∃ p, plan = .ok p ∧ p.Fits d ∧ p.level = level ∧ p.targetBits = targetBits ∧
        ∀ x, x.toNat < 2 ^ d.bitLength.toNat →
          (ancestor d.bitLength.toNat x targetBits.toNat ∈ p.buckets.toList ↔
            d.IsRefined (previous.map Prod.fst) buckets x) := by
  obtain ⟨f, parents, hf, hlevel, hchosen, hplan, hrefined⟩ := frontier_of_stopped hprevious hbuckets
  rw [← hlevel] at hnext
  have hstep := step_eq (f := f) htarget hnext buckets
  rw [hchosen] at hstep
  simp only [hplan, hstep, bind, Except.bind]
  have hbits := UInt32.le_of_lt (bits_lt_of_level hf.toPlaced htarget hnext)
  rcases checkSize_eq _ hbits with hsize | ⟨hsize, hlarge⟩
  · have hfits := fits_of_parents hf htarget hnext hchosen hsize
    exact .inr ⟨_, by rw [hsize], hfits, rfl, rfl, fun x hx => (ancestor_mem_buckets_iff hfits x).trans (hrefined x hx)⟩
  · obtain ⟨hparents, hmem⟩ := chosen_ok hf hchosen
    have hlt : ∀ q ∈ parents.toList, q.toNat < 2 ^ f.bits.toNat := fun q hq => by
      obtain ⟨i, hi, rfl⟩ := hmem q hq
      exact hf.bucket_lt i hi
    exact .inl ⟨_, _, by rw [hsize], hlarge, lt_bitLength_of_tooLarge hbits (d.levelBits_le htarget)
      (length_le_of_pairwise hparents hlt) hlarge⟩

end Plan

end PrivateHistogram.PointFunction
