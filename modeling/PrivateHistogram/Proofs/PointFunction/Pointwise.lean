import PrivateHistogram.Proofs.PointFunction.Expansions
import PrivateHistogram.Proofs.PointFunction.Shares

/-! Expansion against evaluation. Expanding a half over some parents of a plan gives, bucket by bucket, what evaluation
    gives without a cache, and adds to a sound cache only the parents, with their nodes (`expandParents_pointwise`).

    A walk reads as many low bits of a bucket as it has steps, so this is so even of a plan that goes on from buckets
    too large for their level: its values are those at the low bits of its buckets. Evaluation itself refuses such a
    bucket (`beyond_level`). Where a round goes on from buckets that fit in their level, those of the plan fit too
    (`Plan.bucket_lt_of_plan`). -/

namespace PrivateHistogram.PointFunction

/-! ### Low bits -/

/-- The low bits of a bucket, which alone decide where a walk of so many steps ends. -/
def lowBits (bits : ℕ) (b : UInt64) : UInt64 := UInt64.ofNat (b.toNat % 2 ^ bits)

theorem toNat_lowBits (bits : ℕ) (b : UInt64) : (lowBits bits b).toNat = b.toNat % 2 ^ bits :=
  UInt64.toNat_ofNat_of_lt' ((Nat.mod_le _ _).trans_lt b.toNat_lt)

theorem lowBits_lt (bits : ℕ) (b : UInt64) : (lowBits bits b).toNat < 2 ^ bits := by
  rw [toNat_lowBits]
  exact Nat.mod_lt _ (by positivity)

theorem lowBits_of_lt {bits : ℕ} {b : UInt64} (h : b.toNat < 2 ^ bits) : lowBits bits b = b :=
  UInt64.toNat_inj.mp ((toNat_lowBits bits b).trans (Nat.mod_eq_of_lt h))

theorem path_lowBits (bits : ℕ) (b : UInt64) : path bits (lowBits bits b) = path bits b := path_congr fun i hi => by
  rw [toNat_lowBits, Nat.testBit_mod_two_pow, decide_eq_true hi, Bool.true_and]

/-! ### Buckets that fit in their level -/

namespace Plan
variable {d : Domain} {f : Frontier} {p : Plan}

theorem parents_lt_of_step (hf : ∀ i < f.size, (f.bucket i).toNat < 2 ^ f.bits.toNat) {h : Hierarchy} {level : UInt64}
    {selection : List UInt64} (hstep : step h f level selection = .ok p) :
    ∀ q ∈ p.parents.toList, q.toNat < 2 ^ p.parentBits.toNat := by
  obtain ⟨targetBits, parents, -, -, hchosen, -, rfl⟩ := step_ok hstep
  intro q hq
  obtain ⟨i, hi, rfl⟩ := exists_of_chosen hchosen hq
  exact hf i hi

theorem parents_lt_of_descend (hf : f.Placed d) (hbuckets : ∀ i < f.size, (f.bucket i).toNat < 2 ^ f.bits.toNat)
    {first : UInt64 × List UInt64} {rest : List (UInt64 × List UInt64)}
    (h : descend d.hierarchy f first rest = .ok p) : ∀ q ∈ p.parents.toList, q.toNat < 2 ^ p.parentBits.toNat := by
  suffices hboth : p.Sized d ∧ ∀ q ∈ p.parents.toList, q.toNat < 2 ^ p.parentBits.toNat from hboth.2
  refine descend_induction (P := fun p => p.Sized d ∧ ∀ q ∈ p.parents.toList, q.toNat < 2 ^ p.parentBits.toNat) h
    (fun q hstep => ⟨sized_of_step hf hstep, parents_lt_of_step hbuckets hstep⟩) ?_
  rintro q q' level selection ⟨hq, hparents⟩ hstep
  exact ⟨sized_of_step hq.placed hstep, parents_lt_of_step (fun i => hq.toNat_bucket_lt hparents) hstep⟩

/-- A round that goes on from buckets that fit in their level has buckets that fit in theirs. -/
theorem bucket_lt_of_plan {e : Expansion} {previous : Option (UInt64 × Array UInt64)}
    (hfits : FitsLevel d.hierarchy previous) (hplan : e.plan d.hierarchy previous = .ok p) :
    ∀ b ∈ p.buckets.toList, b.toNat < 2 ^ p.targetBits.toNat := by
  obtain ⟨f, first, rest, -, -, hf, hdescend⟩ := descend_of_plan hplan
  have hbuckets : ∀ i < f.size, (f.bucket i).toNat < 2 ^ f.bits.toNat := by
    cases previous with
    | none =>
      cases hf
      exact (Frontier.fresh_fits d).bucket_lt
    | some found =>
      obtain ⟨bits, hbits, hf⟩ := bind_eq_ok.mp hf
      cases hf
      intro i hi
      have hi : i < found.2.size := hi
      refine hfits found rfl bits hbits _ ?_
      simp [Frontier.ofList, hi]
  have hsized := sized_of_plan hplan
  have hparents := parents_lt_of_descend (Frontier.placed_ofPrevious hf) hbuckets hdescend
  intro b hb
  obtain ⟨i, hi, rfl⟩ := mem_buckets.mp hb
  exact hsized.toNat_bucket_lt hparents hi

end Plan

/-! ### Values and caches -/

variable {V : Type} [Payload V] {F : PointFunction V} {k : KeyHalf V} {c : NodeCache} {p : Plan}

omit [Payload V] in
theorem steps_lowBits (bits : ℕ) (b : UInt64) : steps k bits (lowBits bits b) = steps k bits b := by
  rw [steps, path_lowBits, steps]

/-- Evaluation at the low bits of any bucket gives the half's share of the bucket. -/
theorem evaluate_lowBits (hk : F.checkKey k = .ok ()) {bits : UInt32} (hpos : 0 < bits) (hle : bits ≤ F.domain.bitLength)
    (b : UInt64) : F.evaluate k bits (lowBits bits.toNat b) .empty = .ok (F.share k bits.toNat b) := by
  rw [evaluate_eq hk (sound_empty F k) hpos hle (lowBits_lt _ b), share, steps_lowBits, share]

/-- Evaluation refuses a bucket that is too large for its level. -/
theorem evaluate_of_le (hk : F.checkKey k = .ok ()) {bits : UInt32} (hpos : 0 < bits) (hle : bits ≤ F.domain.bitLength)
    {b : UInt64} (hb : 2 ^ bits.toNat ≤ b.toNat) : F.evaluate k bits b c = .error (.outsideDomain b bits) := by
  have hrange : ¬(bits.toNat = 0 ∨ F.domain.bitLength < bits) :=
    not_or.mpr ⟨(UInt32.lt_iff_toNat_lt.mp hpos).ne', UInt32.not_lt.mpr hle⟩
  rw [evaluate, hk]
  simp only [bind, Except.bind, if_neg hrange, if_pos (show Nat.pow 2 bits.toNat ≤ b.toNat from hb)]
  rfl

theorem get?_keep_of_get? {bits : UInt32} {paths : List UInt64} {bits' : UInt32} {q : UInt64} {s : NodeState}
    (h : c.get? bits' q = some s) : (F.keep k bits c paths).get? bits' q = some s := by
  rw [keep]
  split
  · rw [NodeCache.get?_foldl_insert]
    split
    · rename_i heq
      rw [heq.1, h]
      rfl
    · exact h
  · exact h

theorem isSome_get?_keep {bits : UInt32} (hbits : 0 < bits) {paths : List UInt64} {q : UInt64} (hq : q ∈ paths) :
    ((F.keep k bits c paths).get? bits q).isSome := by
  rw [keep, if_pos hbits, NodeCache.get?_foldl_insert, if_pos ⟨rfl, hq⟩]
  rfl

/-- What comes of expanding a half over the parents with the numbers `start` up to `stop` of a plan, from a cache: the
    values at the buckets below them, as evaluation finds them without a cache, and a cache to which the parents have
    been added. -/
structure Pointwise (F : PointFunction V) (k : KeyHalf V) (p : Plan) (start stop : ℕ) (c : NodeCache)
    (values : Array V) (c' : NodeCache) : Prop where
  size : values.size = (stop - start) * 2 ^ p.subtreeBits.toNat
  value : ∀ j (hj : j < values.size), ∃ hb : start * 2 ^ p.subtreeBits.toNat + j < p.buckets.size,
    F.evaluate k p.targetBits (lowBits p.targetBits.toNat p.buckets[start * 2 ^ p.subtreeBits.toNat + j]) .empty =
      .ok values[j]
  sound : F.Sound k c'
  parents : 0 < p.parentBits → ∀ q ∈ (p.parents.toList.take stop).drop start, (c'.get? p.parentBits q).isSome
  grows : ∀ bits q s, c.get? bits q = some s → c'.get? bits q = some s

/-- Whatever state a plan goes on from, expanding a half of the domain over a run of its parents succeeds, and gives the
    values at the buckets below them, as evaluation finds them at their low bits without a cache. These are the buckets
    themselves where the state fits in its level. A sound cache stays sound; it loses nothing, and all parents of the
    run are added. -/
theorem expandParents_pointwise (hk : F.checkKey k = .ok ()) {e : Expansion} {previous : Option (UInt64 × Array UInt64)}
    (hplan : e.plan F.domain.hierarchy previous = .ok p) {start stop : ℕ} (hle : start ≤ stop)
    (hstop : stop ≤ p.parents.size) (hc : F.Sound k c) :
    (∃ values c', F.expandParents k p start stop c = .ok (values, c') ∧ Pointwise F k p start stop c values c') ∧
      (FitsLevel F.domain.hierarchy previous → ∀ b ∈ p.buckets.toList, lowBits p.targetBits.toNat b = b) := by
  have hsized := sized_of_plan hplan
  have hpos : 0 < p.targetBits := UInt32.lt_of_le_of_lt (UInt32.zero_le) hsized.bits_lt
  have hroom : start * 2 ^ p.subtreeBits.toNat + (stop - start) * 2 ^ p.subtreeBits.toNat ≤ p.size := by
    rw [← Nat.add_mul, Nat.add_sub_cancel' hle]
    exact Nat.mul_le_mul_right _ hstop
  refine ⟨⟨_, _, expandParents_eq hsized hk hle hstop, ?_⟩, fun hfits b hb => ?_⟩
  swap
  · exact lowBits_of_lt (Plan.bucket_lt_of_plan hfits hplan b hb)
  constructor
  case size => simp
  case value =>
    intro j hj
    rw [List.size_toArray, List.length_map, List.length_range'] at hj
    have hi : start * 2 ^ p.subtreeBits.toNat + j < p.size := by omega
    refine ⟨(Plan.size_buckets p).symm ▸ hi, ?_⟩
    rw [evaluate_lowBits hk hpos hsized.bits_le]
    simp [Plan.buckets, valueOf_eq_share hsized hk hc hi]
  case sound => exact hc.keep (by have := hsized.toNat_subtreeBits; have := hsized.targetBits_le; omega) _
  case parents => exact fun hbits q hq => isSome_get?_keep hbits hq
  case grows => exact fun bits q s hs => get?_keep_of_get? hs

/-- The half of a key for the point 5, expanded below the bucket 1 of the first level. The node of that bucket has been
    kept before. -/
theorem expandParents_pointwise_five :
    let F : PointFunction Goldilocks := ⟨.oneThree, .standard Goldilocks⟩
    let k := (F.keysFrom 5 1 (Octets.zero 16) (Octets.zero 16)).1
    let c := NodeCache.empty.insert 1 1 (F.node k (1 : UInt32).toNat 1)
    let p : Plan := ⟨1, 1, #[1], 3⟩
    F.checkKey k = .ok () ∧ Expansion.plan ⟨[1], [[]], some 0⟩ F.domain.hierarchy (some (0, #[1])) = .ok p ∧
      1 ≤ p.parents.size ∧ F.Sound k c ∧ FitsLevel F.domain.hierarchy (some (0, #[1])) ∧
      (∃ values c', F.expandParents k p 0 1 c = .ok (values, c') ∧ Pointwise F k p 0 1 c values c') ∧
      ∀ b ∈ p.buckets.toList, lowBits p.targetBits.toNat b = b := by
  intro F k c p
  have hk := (checkKey_keysFrom F 5 1 (Octets.zero 16) (Octets.zero 16)).1
  have hplan : Expansion.plan ⟨[1], [[]], some 0⟩ F.domain.hierarchy (some (0, #[1])) = .ok p := rfl
  have hc : F.Sound k c := (sound_empty F k).insert
  have hfits : FitsLevel F.domain.hierarchy (some (0, #[1])) := by
    rintro found ⟨⟩ bits ⟨⟩ q hq
    obtain rfl := List.mem_singleton.mp hq
    decide
  obtain ⟨hexpand, hlow⟩ := expandParents_pointwise hk hplan (Nat.zero_le 1) (le_refl 1) hc
  exact ⟨hk, hplan, le_refl 1, hc, hfits, hexpand, hlow hfits⟩

/-- A state whose bucket 7 is too large for its level of one bit. The half expands below it, but evaluation refuses the
    buckets there. -/
theorem beyond_level :
    let F : PointFunction Goldilocks := ⟨.oneThree, .standard Goldilocks⟩
    let k := (F.keysFrom 5 1 (Octets.zero 16) (Octets.zero 16)).1
    let p : Plan := ⟨1, 1, #[7], 3⟩
    F.checkKey k = .ok () ∧ Expansion.plan ⟨[1], [[]], some 0⟩ F.domain.hierarchy (some (0, #[7])) = .ok p ∧
      (∃ values c', F.expandParents k p 0 1 .empty = .ok (values, c') ∧ values.size = 4) ∧
      p.buckets = #[28, 29, 30, 31] ∧
      ∀ b ∈ p.buckets, F.evaluate k p.targetBits b .empty = .error (.outsideDomain b 3) := by
  intro F k p
  have hk := (checkKey_keysFrom F 5 1 (Octets.zero 16) (Octets.zero 16)).1
  have hplan : Expansion.plan ⟨[1], [[]], some 0⟩ F.domain.hierarchy (some (0, #[7])) = .ok p := rfl
  have hbuckets : p.buckets = #[28, 29, 30, 31] := by decide
  have hvalues := expandParents_eq (c := .empty) (sized_of_plan hplan) hk (Nat.zero_le 1) (le_refl 1)
  have hdepth : p.subtreeBits.toNat = 2 := by decide
  refine ⟨hk, hplan, ⟨_, _, hvalues, by simp [hdepth]⟩, hbuckets, fun b hb => ?_⟩
  refine evaluate_of_le hk (by decide) (by decide) ?_
  simp only [hbuckets, List.mem_toArray, List.mem_cons, List.not_mem_nil, or_false] at hb
  rcases hb with rfl | rfl | rfl | rfl <;> decide

end PrivateHistogram.PointFunction
