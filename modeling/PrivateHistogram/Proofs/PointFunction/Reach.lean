import PrivateHistogram.Proofs.PointFunction.Refinement
import PrivateHistogram.Proofs.PointFunction.Shares

/-! Which buckets an expansion reaches. A bucket is reached after some steps if what lies above it was left by the round
    before and was selected by each of the steps (`Expansion.Reaches`); whether a step can be gone is said by these
    buckets alone (`Expansion.Admits`). What a step refines are the buckets that were reached before it, so one step
    reaches the buckets that are to be reached after it (`Reached.step`), and there is a plan exactly if each step can
    be gone (`plan_iff`). -/

namespace PrivateHistogram.PointFunction

/-- The length of the buckets of a level. Before any level there is one bucket, without bits. -/
def Domain.bitsAt (d : Domain) (level : Option UInt64) : ℕ :=
  (level.bind fun level => d.hierarchy.sizes[level.toNat]?).elim 0 UInt32.toNat

theorem Domain.bitsAt_of_levelBits {d : Domain} {level : UInt64} {bits : UInt32}
    (h : d.hierarchy.levelBits level = .ok bits) : d.bitsAt (some level) = bits.toNat := by
  rw [bitsAt, Option.bind_some, d.levelBits_eq_ok.mp h]
  rfl

/-- There is a level, if one is named. -/
def Domain.HasLevel (d : Domain) (level : Option UInt64) : Prop := ∀ l ∈ level, l.toNat < d.hierarchy.levels

theorem Domain.levelBits_of_hasLevel {d : Domain} {level : UInt64} (h : d.HasLevel (some level)) :
    ∃ bits, d.hierarchy.levelBits level = .ok bits :=
  ⟨_, d.levelBits_eq_ok.mpr (List.getElem?_eq_getElem (h level rfl))⟩

theorem Domain.hasLevel_of_levelBits {d : Domain} {level : UInt64} {bits : UInt32}
    (h : d.hierarchy.levelBits level = .ok bits) : d.HasLevel (some level) := by
  rintro _ ⟨⟩
  exact (List.getElem?_eq_some_iff.mp (d.levelBits_eq_ok.mp h)).1

namespace Expansion

/-- The level from which a step goes on: that of the round before, or of the step before. -/
def levelBefore (e : Expansion) : ℕ → Option UInt64
  | 0 => e.previousLevel
  | i + 1 => e.levels[i]?

/-- The length of the buckets from which a step goes on. -/
def bitsBefore (e : Expansion) (d : Domain) (i : ℕ) : ℕ := d.bitsAt (e.levelBefore i)

/-- A bucket is reached after `n` steps: the round before has left the bucket above it, if there was a round before, and
    each step that selects any buckets has selected the one above it. -/
structure Reaches (e : Expansion) (d : Domain) (previous : Option (UInt64 × Array UInt64)) (n : ℕ) (b : UInt64) : Prop where
  lt : b.toNat < 2 ^ e.bitsBefore d n
  left : ∀ found ∈ previous, ∃ q ∈ found.2.toList, q.toNat = b.toNat / 2 ^ (e.bitsBefore d n - e.bitsBefore d 0)
  selected : ∀ i < n, ∀ selection ∈ e.selections[i]?, selection ≠ [] →
    ∃ q ∈ selection, q.toNat = b.toNat / 2 ^ (e.bitsBefore d n - e.bitsBefore d i)

/-- A step can be gone: its level is there and follows, it selects only what is reached before it, nothing at the first
    level of all, and it goes down at most 24 bits, to at most `2 ^ 24` buckets. -/
structure Admits (e : Expansion) (d : Domain) (previous : Option (UInt64 × Array UInt64)) (i : ℕ) : Prop where
  hasLevel : d.HasLevel e.levels[i]?
  follows : ∀ current ∈ e.levelBefore i, ∀ level ∈ e.levels[i]?, current < level
  fresh : e.levelBefore i = none → ∀ selection ∈ e.selections[i]?, selection = []
  reached : ∀ selection ∈ e.selections[i]?, ∀ q ∈ selection, e.Reaches d previous i q
  depth_le : e.bitsBefore d (i + 1) - e.bitsBefore d i ≤ 24
  count_le : {b | e.Reaches d previous (i + 1) b}.ncard ≤ 2 ^ 24

end Expansion

/-! ### Buckets below others -/

/-- Below each of some buckets there are equally many. -/
theorem ncard_below {l : List UInt64} {bits depth : ℕ} (hl : l.Nodup) (hlt : ∀ q ∈ l, q.toNat < 2 ^ bits)
    (hbits : bits + depth ≤ 64) :
    {b : UInt64 | ∃ q ∈ l, q.toNat = b.toNat / 2 ^ depth}.ncard = l.length * 2 ^ depth := by
  have hinjective : Function.Injective UInt64.toNat := fun _ _ => UInt64.toNat_inj.mp
  have hwidth : 0 < 2 ^ depth := by positivity
  -- A bucket below is the number of its parent, followed by any `depth` bits.
  let numbers := (l.map UInt64.toNat).toFinset ×ˢ Finset.range (2 ^ depth)
  have himage : UInt64.toNat '' {b | ∃ q ∈ l, q.toNat = b.toNat / 2 ^ depth} =
      numbers.image fun x => x.1 * 2 ^ depth + x.2 := by
    ext n
    simp only [Set.mem_image, Set.mem_ofPred_eq, Finset.coe_image, Finset.mem_coe, numbers, Finset.mem_product,
      List.mem_toFinset, List.mem_map, Finset.mem_range, Prod.exists]
    constructor
    · rintro ⟨b, ⟨q, hq, hdiv⟩, rfl⟩
      exact ⟨q.toNat, b.toNat % 2 ^ depth, ⟨⟨q, hq, rfl⟩, Nat.mod_lt _ hwidth⟩, by rw [hdiv, Nat.div_add_mod']⟩
    · rintro ⟨a, j, ⟨⟨q, hq, rfl⟩, hj⟩, rfl⟩
      have hroom : q.toNat * 2 ^ depth + j < 2 ^ 64 :=
        calc q.toNat * 2 ^ depth + j < 2 ^ bits * 2 ^ depth := mul_add_lt_mul (hlt q hq) hj
          _ = 2 ^ (bits + depth) := (pow_add 2 bits depth).symm
          _ ≤ 2 ^ 64 := Nat.pow_le_pow_right (by decide) hbits
      have htoNat := UInt64.toNat_ofNat_of_lt' hroom
      exact ⟨_, ⟨q, hq, by rw [htoNat, mul_add_div_of_lt hj]⟩, htoNat⟩
  have hcard : (numbers.image fun x => x.1 * 2 ^ depth + x.2).card = numbers.card := by
    refine Finset.card_image_of_injOn fun x hx y hy hxy => ?_
    have hx := Finset.mem_range.mp (Finset.mem_product.mp hx).2
    have hy := Finset.mem_range.mp (Finset.mem_product.mp hy).2
    have hfirst : x.1 = y.1 := by rw [← mul_add_div_of_lt (a := x.1) hx, hxy, mul_add_div_of_lt hy]
    refine Prod.ext hfirst ?_
    rw [hfirst] at hxy
    exact Nat.add_left_cancel hxy
  rw [← Set.ncard_image_of_injective _ hinjective, himage, Set.ncard_coe_finset, hcard, Finset.card_product,
    Finset.card_range, List.toFinset_card_of_nodup (hl.map hinjective), List.length_map]

/-! ### One step -/

/-- The frontier before a step: its buckets are those that are reached. -/
structure Reached (e : Expansion) (d : Domain) (previous : Option (UInt64 × Array UInt64)) (n : ℕ) (f : Frontier) : Prop
    extends f.Fits d where
  before : f.level = e.levelBefore n
  mem_iff : ∀ b, (∃ i < f.size, f.bucket i = b) ↔ e.Reaches d previous n b
  bits_mono : ∀ i ≤ n, e.bitsBefore d i ≤ e.bitsBefore d n

namespace Reached
variable {e : Expansion} {d : Domain} {previous : Option (UInt64 × Array UInt64)} {n : ℕ} {f : Frontier}
  (h : Reached e d previous n f)
include h

theorem toNat_bits : f.bits.toNat = e.bitsBefore d n := by
  have hlevel := h.level
  rw [Expansion.bitsBefore, ← h.before]
  cases hf : f.level with
  | none =>
    rw [hf] at hlevel
    simp only [hlevel]
    rfl
  | some level =>
    rw [hf] at hlevel
    exact (Domain.bitsAt_of_levelBits hlevel).symm

section Step
variable {level : UInt64} {selection : List UInt64} (hselection : e.selections[n]? = some selection)
  {targetBits : UInt32} (htarget : d.bitsAt e.levels[n]? = targetBits.toNat) (hbits : f.bits ≤ targetBits)
include hselection htarget hbits

omit hselection in
theorem bits_mono_succ : ∀ i ≤ n + 1, e.bitsBefore d i ≤ e.bitsBefore d (n + 1) := by
  intro i hi
  have hlast : e.bitsBefore d n ≤ e.bitsBefore d (n + 1) := by
    rw [← h.toNat_bits]
    exact (UInt32.le_iff_toNat_le.mp hbits).trans htarget.ge
  rcases hi.eq_or_lt with rfl | hlt
  · exact le_refl _
  · exact (h.bits_mono i (Nat.le_of_lt_succ hlt)).trans hlast

/-- What is reached after a step lies below what is reached before it, and below what the step selects if it selects
    anything. -/
theorem reaches_succ {b : UInt64} : e.Reaches d previous (n + 1) b ↔ ∃ q, (e.Reaches d previous n q ∧
    (selection ≠ [] → q ∈ selection)) ∧ q.toNat = b.toNat / 2 ^ (targetBits.toNat - f.bits.toNat) := by
  have hmono := h.bits_mono_succ htarget hbits
  have hnext : e.bitsBefore d (n + 1) = targetBits.toNat := htarget
  have hdiv : ∀ {q : UInt64}, q.toNat = b.toNat / 2 ^ (targetBits.toNat - f.bits.toNat) → ∀ {i}, i ≤ n →
      q.toNat / 2 ^ (e.bitsBefore d n - e.bitsBefore d i) =
        b.toNat / 2 ^ (e.bitsBefore d (n + 1) - e.bitsBefore d i) := by
    intro q hq i hi
    have hle := h.bits_mono i hi
    have hle' := hmono n (Nat.le_succ n)
    rw [hq, Nat.div_div_eq_div_mul, ← pow_add, h.toNat_bits, ← hnext]
    congr 2
    omega
  have hsplit : 2 ^ targetBits.toNat = 2 ^ f.bits.toNat * 2 ^ (targetBits.toNat - f.bits.toNat) := by
    rw [← pow_add, Nat.add_sub_cancel' (UInt32.le_iff_toNat_le.mp hbits)]
  constructor
  · intro hb
    have habove : (UInt64.ofNat (b.toNat / 2 ^ (targetBits.toNat - f.bits.toNat))).toNat =
        b.toNat / 2 ^ (targetBits.toNat - f.bits.toNat) :=
      UInt64.toNat_ofNat_of_lt' ((Nat.div_le_self _ _).trans_lt b.toNat_lt)
    refine ⟨_, ⟨⟨?_, fun found hfound => ?_, fun i hi chosen hchosen hne => ?_⟩, fun hne => ?_⟩, habove⟩
    · rw [habove, ← h.toNat_bits, Nat.div_lt_iff_lt_mul (by positivity), ← hsplit, ← hnext]
      exact hb.lt
    · rw [hdiv habove (Nat.zero_le n)]
      exact hb.left found hfound
    · rw [hdiv habove hi.le]
      exact hb.selected i (hi.trans (Nat.lt_succ_self n)) chosen hchosen hne
    · obtain ⟨q, hq, hdivides⟩ := hb.selected n (Nat.lt_succ_self n) selection hselection hne
      rw [← hdiv habove (le_refl n), Nat.sub_self, pow_zero, Nat.div_one] at hdivides
      exact UInt64.toNat_inj.mp hdivides ▸ hq
  · rintro ⟨q, ⟨hq, hmem⟩, habove⟩
    refine ⟨?_, fun found hfound => ?_, fun i hi chosen hchosen hne => ?_⟩
    · rw [hnext, hsplit, ← Nat.div_lt_iff_lt_mul (by positivity), ← habove, h.toNat_bits]
      exact hq.lt
    · rw [← hdiv habove (Nat.zero_le n)]
      exact hq.left found hfound
    · rw [← hdiv habove (Nat.le_of_lt_succ hi)]
      rcases (Nat.le_of_lt_succ hi).eq_or_lt with rfl | hlt
      · cases hselection.symm.trans hchosen
        exact ⟨q, hmem hne, by rw [Nat.sub_self, pow_zero, Nat.div_one]⟩
      · exact hq.selected i hlt chosen hchosen hne

end Step

/-! What a step does with the buckets that are reached before it. -/

section Chosen
variable {selection : List UInt64} {parents : Array UInt64}

theorem mem_chosen (hchosen : Plan.chosen f selection = .ok parents) {q : UInt64} :
    q ∈ parents.toList ↔ e.Reaches d previous n q ∧ (selection ≠ [] → q ∈ selection) := by
  rw [← h.mem_iff]
  refine ⟨fun hq => ⟨Plan.exists_of_chosen hchosen hq, fun hne => ?_⟩, ?_⟩
  · rw [Plan.chosen, if_neg hne] at hchosen
    rw [(Frontier.select_ok hchosen).1] at hq
    exact mem_increasing.mp hq
  · rintro ⟨hreached, hq⟩
    rw [Plan.chosen] at hchosen
    split at hchosen
    · cases hchosen
      obtain ⟨i, hi, rfl⟩ := hreached
      rw [Array.toList_ofFn]
      exact List.mem_ofFn.mpr ⟨⟨i, hi⟩, rfl⟩
    · rename_i hne
      rw [(Frontier.select_ok hchosen).1]
      exact mem_increasing.mpr (hq hne)

/-- A step finds what it selects if that is reached, and if it selects nothing at the first level of all. -/
theorem exists_chosen (hfresh : e.levelBefore n = none → selection = [])
    (hreached : ∀ q ∈ selection, e.Reaches d previous n q) : ∃ parents, Plan.chosen f selection = .ok parents := by
  rw [Plan.chosen]
  split
  · exact ⟨_, rfl⟩
  · rename_i hne
    have hlevel : f.level ≠ none := fun hnone => hne (hfresh (h.before ▸ hnone))
    exact ⟨_, h.select_eq hlevel fun q hq => (h.mem_iff q).mpr (hreached q hq)⟩

theorem selected_of_chosen (hchosen : Plan.chosen f selection = .ok parents) :
    (e.levelBefore n = none → selection = []) ∧ ∀ q ∈ selection, e.Reaches d previous n q := by
  by_cases hnil : selection = []
  · subst hnil
    exact ⟨fun _ => rfl, fun q hq => nomatch hq⟩
  · refine ⟨fun hnone => ?_, fun q hq => ?_⟩
    · rw [Plan.chosen, if_neg hnil, Frontier.select, if_pos (h.before.trans hnone)] at hchosen
      cases hchosen
    · refine ((h.mem_chosen hchosen).mp ?_).1
      rw [Plan.chosen, if_neg hnil] at hchosen
      rw [(Frontier.select_ok hchosen).1]
      exact mem_increasing.mpr hq

/-- After a step there are equally many buckets below each of those that it refines. -/
theorem ncard_reaches (hselection : e.selections[n]? = some selection) {targetBits : UInt32}
    (htarget : d.bitsAt e.levels[n]? = targetBits.toNat) (hbits : f.bits ≤ targetBits) (hle : targetBits ≤ d.bitLength)
    (hchosen : Plan.chosen f selection = .ok parents) :
    {b | e.Reaches d previous (n + 1) b}.ncard = parents.size * 2 ^ (targetBits - f.bits).toNat := by
  have hdepth := UInt32.toNat_sub_of_le _ _ hbits
  have hroom : f.bits.toNat + (targetBits - f.bits).toNat ≤ 64 := by
    have := UInt32.le_iff_toNat_le.mp hbits
    have := UInt32.le_iff_toNat_le.mp hle
    have := d.bitLength_le
    omega
  obtain ⟨hsorted, hmem⟩ := Plan.chosen_ok h.toFits hchosen
  have hlt : ∀ q ∈ parents.toList, q.toNat < 2 ^ f.bits.toNat := fun q hq => by
    obtain ⟨i, hi, rfl⟩ := hmem q hq
    exact h.bucket_lt i hi
  have hcount := ncard_below (hsorted.imp UInt64.ne_of_lt) hlt hroom
  rw [Array.length_toList] at hcount
  rw [← hcount]
  refine congrArg Set.ncard (Set.ext fun b => ?_)
  simp only [Set.mem_ofPred_eq, h.reaches_succ hselection htarget hbits, h.mem_chosen hchosen, hdepth]

end Chosen

section Step
variable {level : UInt64} {selection : List UInt64} (hlevel : e.levels[n]? = some level)
  (hselection : e.selections[n]? = some selection)
include hlevel hselection

omit h hselection in
theorem bitsAt_levels {targetBits : UInt32} (htarget : d.hierarchy.levelBits level = .ok targetBits) :
    d.bitsAt e.levels[n]? = targetBits.toNat := by
  rw [hlevel, Domain.bitsAt_of_levelBits htarget]

omit hselection in
theorem depth_eq {targetBits : UInt32} (htarget : d.hierarchy.levelBits level = .ok targetBits)
    (hbits : f.bits ≤ targetBits) :
    e.bitsBefore d (n + 1) - e.bitsBefore d n = (targetBits - f.bits).toNat := by
  rw [UInt32.toNat_sub_of_le _ _ hbits, h.toNat_bits, ← bitsAt_levels hlevel htarget]
  rfl

theorem admits_iff : (∃ p, Plan.step d.hierarchy f level selection = .ok p) ↔ e.Admits d previous n := by
  constructor
  · rintro ⟨p, hstep⟩
    obtain ⟨targetBits, parents, htarget, hnext, hchosen, hsize, -⟩ := Plan.step_ok hstep
    have hbits := UInt32.le_of_lt (Plan.bits_lt_of_level h.toPlaced htarget hnext)
    obtain ⟨hfresh, hreached⟩ := h.selected_of_chosen hchosen
    obtain ⟨hdepth, hcount⟩ := Plan.checkSize_ok hsize
    constructor
    case hasLevel => exact hlevel ▸ Domain.hasLevel_of_levelBits htarget
    case follows =>
      rintro current hcurrent _ hmem
      cases hlevel.symm.trans hmem
      exact hnext current (h.before ▸ hcurrent)
    case fresh =>
      rintro hnone _ hmem
      cases hselection.symm.trans hmem
      exact hfresh hnone
    case reached =>
      rintro _ hmem
      cases hselection.symm.trans hmem
      exact hreached
    case depth_le =>
      rw [h.depth_eq hlevel htarget hbits]
      exact UInt32.le_iff_toNat_le.mp hdepth
    case count_le =>
      rwa [h.ncard_reaches hselection (bitsAt_levels hlevel htarget) hbits (d.levelBits_le htarget) hchosen]
  · intro hadmits
    obtain ⟨targetBits, htarget⟩ := Domain.levelBits_of_hasLevel (hlevel ▸ hadmits.hasLevel)
    have hnext : ∀ current ∈ f.level, current < level := fun current hcurrent =>
      hadmits.follows current (h.before ▸ hcurrent) level hlevel
    have hbits := UInt32.le_of_lt (Plan.bits_lt_of_level h.toPlaced htarget hnext)
    obtain ⟨parents, hchosen⟩ := h.exists_chosen (fun hnone => hadmits.fresh hnone selection hselection)
      (hadmits.reached selection hselection)
    have hdepth := hadmits.depth_le
    rw [h.depth_eq hlevel htarget hbits] at hdepth
    have hcount := hadmits.count_le
    rw [h.ncard_reaches hselection (bitsAt_levels hlevel htarget) hbits (d.levelBits_le htarget) hchosen] at hcount
    have hsize : Plan.checkSize parents.size f.bits targetBits = .ok () := by
      rcases Plan.checkSize_eq parents.size hbits with hok | ⟨-, hdeep | hlarge⟩
      · exact hok
      · exact absurd (UInt32.lt_iff_toNat_lt.mp hdeep) (Nat.not_lt.mpr hdepth)
      · exact absurd hlarge (Nat.not_lt.mpr hcount)
    refine ⟨{ level, parentBits := f.bits, parents, targetBits }, ?_⟩
    rw [Plan.step_eq htarget hnext, hchosen]
    simp only [bind, Except.bind, hsize]

theorem step {p : Plan} (hstep : Plan.step d.hierarchy f level selection = .ok p) :
    Reached e d previous (n + 1) (.ofPlan p) := by
  have hp := Plan.fits_of_step h.toFits hstep
  have hsum := hp.toNat_subtreeBits
  obtain ⟨targetBits, parents, htarget, hnext, hchosen, -, rfl⟩ := Plan.step_ok hstep
  have hbits := UInt32.le_of_lt (Plan.bits_lt_of_level h.toPlaced htarget hnext)
  refine ⟨hp.frontier, hlevel.symm, fun b => ?_, h.bits_mono_succ (bitsAt_levels hlevel htarget) hbits⟩
  refine Plan.mem_buckets.symm.trans ((Plan.mem_buckets_iff hp).trans ?_)
  rw [h.reaches_succ hselection (bitsAt_levels hlevel htarget) hbits, ← Nat.sub_eq_of_eq_add' hsum.symm]
  exact exists_congr fun q => and_congr_left' (h.mem_chosen hchosen)

end Step

end Reached

/-! ### All steps -/

theorem Plan.descend_cons (h : Hierarchy) (f : Frontier) (first next : UInt64 × List UInt64)
    (rest : List (UInt64 × List UInt64)) :
    descend h f first (next :: rest) = (step h f first.1 first.2 >>= fun p => descend h (.ofPlan p) next rest) := by
  simp only [descend, List.foldlM_cons]

theorem Plan.descend_nil (h : Hierarchy) (f : Frontier) (first : UInt64 × List UInt64) :
    descend h f first [] = step h f first.1 first.2 := bind_pure _

/-- A plan of an expansion, from the buckets that are reached before its last step down to those reached after it. -/
structure Reached.Last (e : Expansion) (d : Domain) (previous : Option (UInt64 × Array UInt64)) (p : Plan) : Prop
    extends p.Fits d where
  reached : Reached e d previous e.levels.length (.ofPlan p)
  parentBits_eq : p.parentBits.toNat = e.bitsBefore d (e.levels.length - 1)

namespace Reached
variable {e : Expansion} {d : Domain} {previous : Option (UInt64 × Array UInt64)}

/-- What a round before has left is what is reached before the first step. -/
theorem start {f : Frontier} (hmatch : e.previousLevel = previous.map Prod.fst)
    (hsorted : ∀ found ∈ previous, found.2.toList.Pairwise (· < ·)) (hfits : FitsLevel d.hierarchy previous)
    (hf : Frontier.ofPrevious d.hierarchy previous = .ok f) : Reached e d previous 0 f := by
  have hmono : ∀ i ≤ 0, e.bitsBefore d i ≤ e.bitsBefore d 0 := fun i hi => by rw [Nat.le_zero.mp hi]
  cases previous with
  | none =>
    cases hf
    refine ⟨Frontier.fresh_fits d, hmatch.symm, fun b => ?_, hmono⟩
    have hbits : e.bitsBefore d 0 = 0 := congrArg d.bitsAt hmatch
    constructor
    · rintro ⟨i, hi, rfl⟩
      refine ⟨?_, (fun _ hfound => nomatch hfound), fun _ hi => nomatch hi⟩
      rw [hbits]
      exact Nat.one_pos
    · intro hb
      have hlt := hb.lt
      rw [hbits, pow_zero, Nat.lt_one_iff] at hlt
      exact ⟨0, Nat.one_pos, UInt64.toNat_inj.mp hlt.symm⟩
  | some found =>
    obtain ⟨bits, hbits, hf⟩ := bind_eq_ok.mp hf
    cases hf
    have hfits := hfits found rfl bits hbits
    refine ⟨Frontier.fits_ofList hbits (hsorted found rfl) hfits, hmatch.symm, fun b => ?_, hmono⟩
    have hlength : e.bitsBefore d 0 = bits.toNat := (congrArg d.bitsAt hmatch).trans (Domain.bitsAt_of_levelBits hbits)
    have hmem : (∃ i < found.2.size, found.2.getD i 0 = b) ↔ b ∈ found.2.toList := by
      rw [List.mem_iff_getElem]
      refine exists_congr fun i => ⟨fun ⟨hi, heq⟩ => ⟨hi, ?_⟩, fun ⟨hi, heq⟩ => ⟨hi, ?_⟩⟩
      · rwa [Array.getD_eq_getD_getElem?, Array.getElem?_eq_getElem hi] at heq
      · rwa [Array.getD_eq_getD_getElem?, Array.getElem?_eq_getElem hi]
    refine hmem.trans ⟨fun hb => ⟨?_, ?_, fun _ hi => nomatch hi⟩, fun hb => ?_⟩
    · rw [hlength]
      exact hfits b hb
    · rintro _ ⟨⟩
      exact ⟨b, hb, by rw [Nat.sub_self, pow_zero, Nat.div_one]⟩
    · obtain ⟨q, hq, heq⟩ := hb.left found rfl
      rw [Nat.sub_self, pow_zero, Nat.div_one] at heq
      exact UInt64.toNat_inj.mp heq ▸ hq

theorem drop_steps {n : ℕ} {first : UInt64 × List UInt64} {rest : List (UInt64 × List UInt64)}
    (hsteps : (e.levels.zip e.selections).drop n = first :: rest) :
    e.levels[n]? = some first.1 ∧ e.selections[n]? = some first.2 ∧ (e.levels.zip e.selections).drop (n + 1) = rest := by
  have hget : (e.levels.zip e.selections)[n]? = some first := by
    rw [← Nat.add_zero n, ← List.getElem?_drop, hsteps, List.getElem?_cons_zero]
  obtain ⟨hlevel, hselection⟩ := List.getElem?_zip_eq_some.mp hget
  exact ⟨hlevel, hselection, by rw [← List.drop_drop, hsteps, List.drop_one, List.tail_cons]⟩

/-- The steps that are left are taken exactly if each of them can be gone. By induction on them, where the frontier is
    what is reached before the first of them. -/
theorem descend_iff (hlength : e.selections.length = e.levels.length) {n : ℕ} {f : Frontier} (h : Reached e d previous n f)
    {first : UInt64 × List UInt64} {rest : List (UInt64 × List UInt64)}
    (hsteps : (e.levels.zip e.selections).drop n = first :: rest) :
    ((∃ p, Plan.descend d.hierarchy f first rest = .ok p) ↔ ∀ i, n ≤ i → i < e.levels.length → e.Admits d previous i) ∧
      ∀ p, Plan.descend d.hierarchy f first rest = .ok p → Last e d previous p := by
  induction rest generalizing n f first with
  | nil =>
    -- This is the last step, so its plan is that of the expansion.
    obtain ⟨hlevel, hselection, hrest⟩ := drop_steps hsteps
    have hend : e.levels.length = n + 1 := by
      have hle := List.drop_eq_nil_iff.mp hrest
      have hlt := (List.getElem?_eq_some_iff.mp hlevel).1
      rw [List.length_zip, hlength, Nat.min_self] at hle
      omega
    rw [Plan.descend_nil, h.admits_iff hlevel hselection]
    refine ⟨⟨fun hfirst i hi hlt => ?_, fun hall => hall n (le_refl n) (by omega)⟩, fun p hstep => ?_⟩
    · obtain rfl : i = n := by omega
      exact hfirst
    · have hp := Plan.fits_of_step h.toFits hstep
      have hreached := h.step hlevel hselection hstep
      obtain ⟨_, _, -, -, -, -, rfl⟩ := Plan.step_ok hstep
      refine ⟨hp, hend ▸ hreached, ?_⟩
      rw [hend, Nat.add_sub_cancel]
      exact h.toNat_bits
  | cons next rest ih =>
    obtain ⟨hlevel, hselection, hrest⟩ := drop_steps hsteps
    have hadmits := h.admits_iff hlevel hselection
    rw [Plan.descend_cons]
    refine ⟨⟨?_, fun hall => ?_⟩, fun p hdescend => ?_⟩
    · rintro ⟨p, hdescend⟩ i hi hlt
      obtain ⟨q, hstep, hdescend⟩ := bind_eq_ok.mp hdescend
      rcases hi.eq_or_lt with rfl | hi
      · exact hadmits.mp ⟨q, hstep⟩
      · exact (ih (h.step hlevel hselection hstep) hrest).1.mp ⟨p, hdescend⟩ i hi hlt
    · obtain ⟨q, hstep⟩ := hadmits.mpr (hall n (le_refl n) (List.getElem?_eq_some_iff.mp hlevel).1)
      obtain ⟨p, hdescend⟩ := (ih (h.step hlevel hselection hstep) hrest).1.mpr fun i hi => hall i (Nat.le_of_succ_le hi)
      exact ⟨p, bind_eq_ok.mpr ⟨q, hstep, hdescend⟩⟩
    · obtain ⟨q, hstep, hdescend⟩ := bind_eq_ok.mp hdescend
      exact (ih (h.step hlevel hselection hstep) hrest).2 p hdescend

end Reached

/-! ### Levels in order -/

namespace Plan
variable {d : Domain} {f : Frontier}

/-- In a domain no level has fewer bits than the one before it, so the difference of their lengths can be taken. -/
theorem step_ne_decreasingLevels (hf : f.Placed d) (level : UInt64) (selection : List UInt64) (before after : UInt32) :
    step d.hierarchy f level selection ≠ .error (.decreasingLevels before after) := by
  intro hstep
  cases htarget : d.hierarchy.levelBits level with
  | error error =>
    rw [Hierarchy.levelBits] at htarget
    rw [step, Hierarchy.levelBits] at hstep
    split at htarget
    · cases htarget
    · rename_i hnone
      simp [hnone, bind, Except.bind] at hstep
  | ok targetBits =>
    by_cases hnext : ∀ current ∈ f.level, current < level
    · rw [step_eq htarget hnext, bind_eq_error] at hstep
      rcases hstep with hchosen | ⟨parents, -, hstep⟩
      · rw [chosen, Frontier.select] at hchosen
        split at hchosen
        · cases hchosen
        · split at hchosen
          · cases hchosen
          · dsimp only at hchosen
            split at hchosen <;> cases hchosen
      · rcases checkSize_eq parents.size (UInt32.le_of_lt (bits_lt_of_level hf htarget hnext)) with
          hsize | ⟨hsize, -⟩ <;> simp [hsize, bind, Except.bind] at hstep
    · push Not at hnext
      obtain ⟨current, hcurrent, hle⟩ := hnext
      rw [step, htarget, Option.mem_def.mp hcurrent] at hstep
      simp [UInt64.not_lt.mp hle, bind, Except.bind, throw, throwThe, MonadExceptOf.throw] at hstep

theorem descend_ne_decreasingLevels (hf : f.Placed d) (first : UInt64 × List UInt64) (rest : List (UInt64 × List UInt64))
    (before after : UInt32) : descend d.hierarchy f first rest ≠ .error (.decreasingLevels before after) := by
  induction rest generalizing f first with
  | nil =>
    rw [descend_nil]
    exact step_ne_decreasingLevels hf _ _ _ _
  | cons next rest ih =>
    rw [descend_cons, ne_eq, bind_eq_error]
    rintro (hstep | ⟨p, hstep, hdescend⟩)
    · exact step_ne_decreasingLevels hf _ _ _ _ hstep
    · exact ih (sized_of_step hf hstep).placed _ hdescend

end Plan

/-! ### Plans of an expansion -/

namespace Expansion
variable {e : Expansion} {d : Domain} {previous : Option (UInt64 × Array UInt64)} {p : Plan}

theorem steps_eq_ok {first : UInt64 × List UInt64} {rest : List (UInt64 × List UInt64)} :
    e.steps = .ok (first, rest) ↔ e.selections.length = e.levels.length ∧ e.levels.zip e.selections = first :: rest := by
  rcases e with ⟨_ | ⟨level, levels⟩, _ | ⟨selection, selections⟩, previousLevel⟩
  · simp [steps]
  · simp [steps]
  · simp [steps]
  · by_cases hlength : levels.length = selections.length
    · simp [steps, hlength, eq_comm]
    · simp [steps, hlength, Ne.symm hlength]

theorem plan_eq_ok {h : Hierarchy} : e.plan h previous = .ok p ↔ ∃ f first rest, e.steps = .ok (first, rest) ∧
    e.previousLevel = previous.map Prod.fst ∧ Frontier.ofPrevious h previous = .ok f ∧
    Plan.descend h f first rest = .ok p := by
  refine ⟨descend_of_plan, ?_⟩
  rintro ⟨f, first, rest, hsteps, hmatch, hf, hdescend⟩
  rw [plan_of_steps hsteps hmatch, hf]
  exact hdescend

theorem exists_ofPrevious : (∃ f, Frontier.ofPrevious d.hierarchy previous = .ok f) ↔
    d.HasLevel (previous.map Prod.fst) := by
  cases previous with
  | none => exact ⟨fun _ _ hlevel => (nomatch hlevel), fun _ => ⟨_, rfl⟩⟩
  | some found =>
    refine ⟨fun ⟨f, hf⟩ => ?_, fun hlevel => ?_⟩
    · obtain ⟨bits, hbits, -⟩ := bind_eq_ok.mp hf
      exact Domain.hasLevel_of_levelBits hbits
    · obtain ⟨bits, hbits⟩ := Domain.levelBits_of_hasLevel hlevel
      exact ⟨_, bind_eq_ok.mpr ⟨bits, hbits, rfl⟩⟩

/-- The plan of an expansion lists what the last step reaches, in order, below what was reached before that step. Nothing
    is shifted out of a word. -/
structure Lists (e : Expansion) (d : Domain) (previous : Option (UInt64 × Array UInt64)) (p : Plan) : Prop where
  level : some p.level = e.levelBefore e.levels.length
  targetBits : p.targetBits.toNat = e.bitsBefore d e.levels.length
  parentBits : p.parentBits.toNat = e.bitsBefore d (e.levels.length - 1)
  buckets_increasing : p.buckets.toList.Pairwise (· < ·)
  mem_buckets : ∀ b, b ∈ p.buckets.toList ↔ e.Reaches d previous e.levels.length b
  parents_increasing : p.parents.toList.Pairwise (· < ·)
  size : p.buckets.size = p.parents.size * 2 ^ (p.targetBits.toNat - p.parentBits.toNat)
  bucket_shiftRight : ∀ i (hi : i < p.buckets.size),
    ∃ hparent : i >>> (p.targetBits.toNat - p.parentBits.toNat) < p.parents.size,
      p.buckets[i] >>> UInt64.ofNat (p.targetBits.toNat - p.parentBits.toNat) =
        p.parents[i >>> (p.targetBits.toNat - p.parentBits.toNat)]
  bits_lt : p.parentBits < p.targetBits
  depth_le : p.targetBits.toNat - p.parentBits.toNat ≤ 24
  parent_shiftLeft : ∀ q ∈ p.parents.toList,
    (q <<< UInt64.ofNat (p.targetBits.toNat - p.parentBits.toNat)).toNat =
      q.toNat * 2 ^ (p.targetBits.toNat - p.parentBits.toNat)

theorem lists_of_last (h : Reached.Last e d previous p) : e.Lists d previous p := by
  have hdepth := Nat.sub_eq_of_eq_add' h.toNat_subtreeBits.symm
  have hshift : (UInt64.ofNat p.subtreeBits.toNat).toNat % 64 = p.subtreeBits.toNat := by
    rw [UInt64.toNat_ofNat_of_lt' (h.depth_lt.trans (by decide)), Nat.mod_eq_of_lt h.depth_lt]
  constructor
  case level => exact h.reached.before
  case targetBits => exact h.reached.toNat_bits
  case parentBits => exact h.parentBits_eq
  case buckets_increasing => exact h.pairwise_buckets
  case mem_buckets => exact fun b => Plan.mem_buckets.trans (h.reached.mem_iff b)
  case parents_increasing => exact h.parents
  case size =>
    rw [hdepth]
    exact p.size_buckets
  case bucket_shiftRight =>
    intro i hi
    rw [Plan.size_buckets] at hi
    obtain ⟨hlt, hbucket⟩ := h.toNat_bucket hi
    simp only [hdepth, Nat.shiftRight_eq_div_pow]
    refine ⟨hlt, UInt64.toNat_inj.mp ?_⟩
    rw [UInt64.toNat_shiftRight, hshift, Nat.shiftRight_eq_div_pow]
    simp only [Plan.buckets, Array.getElem_ofFn, hbucket]
    rw [mul_add_div_of_lt (Nat.mod_lt _ (by positivity)), Array.getElem_toList]
  case bits_lt => exact h.bits_lt
  case depth_le =>
    rw [hdepth]
    exact UInt32.le_iff_toNat_le.mp h.depth_le
  case parent_shiftLeft =>
    intro q hq
    have hroom : p.parentBits.toNat + p.subtreeBits.toNat ≤ 64 := h.toNat_subtreeBits.le.trans h.targetBits_le
    have hbelow := toNat_below (h.parents_lt q hq) hroom h.depth_lt (show 0 < 2 ^ p.subtreeBits.toNat by positivity)
    rw [below, show UInt64.ofNat 0 = 0 from rfl, UInt64.or_zero, Nat.add_zero] at hbelow
    rw [hdepth, hbelow]

theorem plan_ne_decreasingLevels (before after : UInt32) :
    e.plan d.hierarchy previous ≠ .error (.decreasingLevels before after) := by
  intro hplan
  cases hsteps : e.steps with
  | error error =>
    rw [plan, hsteps] at hplan
    cases hplan
    rcases e with ⟨_ | ⟨level, levels⟩, _ | ⟨selection, selections⟩, previousLevel⟩
    · cases hsteps
    · cases hsteps
    · cases hsteps
    · simp only [steps] at hsteps
      split at hsteps <;> cases hsteps
  | ok found =>
    by_cases hmatch : e.previousLevel = previous.map Prod.fst
    · rw [plan_of_steps hsteps hmatch, bind_eq_error] at hplan
      rcases hplan with hf | ⟨f, hf, hdescend⟩
      · cases previous with
        | none => cases hf
        | some found =>
          rw [Frontier.ofPrevious, Hierarchy.levelBits] at hf
          split at hf <;> cases hf
      · exact Plan.descend_ne_decreasingLevels (Frontier.placed_ofPrevious hf) _ _ _ _ hdescend
    · rw [plan, hsteps] at hplan
      simp [hmatch, bind, Except.bind, throw, throwThe, MonadExceptOf.throw] at hplan

/-- An expansion that goes on from buckets in increasing order, which fit in their level, has a plan exactly if there are
    levels, each with a selection, it goes on from the level of these buckets, and each step can be gone. The plan lists
    what is reached. Whatever it goes on from, the lengths of its levels are never found to decrease. -/
theorem plan_iff (hsorted : ∀ found ∈ previous, found.2.toList.Pairwise (· < ·)) (hfits : FitsLevel d.hierarchy previous) :
    ((∃ p, e.plan d.hierarchy previous = .ok p) ↔ e.levels ≠ [] ∧ e.selections.length = e.levels.length ∧
      e.previousLevel = previous.map Prod.fst ∧ d.HasLevel e.previousLevel ∧ ∀ i < e.levels.length, e.Admits d previous i) ∧
    (∀ p, e.plan d.hierarchy previous = .ok p → e.Lists d previous p) ∧
    ∀ before after, e.plan d.hierarchy previous ≠ .error (.decreasingLevels before after) := by
  refine ⟨⟨?_, ?_⟩, fun p hplan => ?_, plan_ne_decreasingLevels⟩
  · rintro ⟨p, hplan⟩
    obtain ⟨f, first, rest, hsteps, hmatch, hf, hdescend⟩ := plan_eq_ok.mp hplan
    obtain ⟨hlength, hzip⟩ := steps_eq_ok.mp hsteps
    have hlevels : e.levels ≠ [] := fun hnil => by simp [hnil] at hzip
    obtain ⟨hiff, -⟩ := (Reached.start hmatch hsorted hfits hf).descend_iff hlength hzip
    exact ⟨hlevels, hlength, hmatch, hmatch ▸ exists_ofPrevious.mp ⟨f, hf⟩, fun i =>
      hiff.mp ⟨p, hdescend⟩ i (Nat.zero_le i)⟩
  · rintro ⟨hlevels, hlength, hmatch, hlevel, hadmits⟩
    obtain ⟨f, hf⟩ := exists_ofPrevious.mpr (hmatch ▸ hlevel)
    have hzip : e.levels.zip e.selections ≠ [] := by
      rw [← List.length_pos_iff, List.length_zip, hlength, Nat.min_self]
      exact List.length_pos_iff.mpr hlevels
    obtain ⟨first, rest, hzip⟩ := List.exists_cons_of_ne_nil hzip
    obtain ⟨hiff, -⟩ := (Reached.start hmatch hsorted hfits hf).descend_iff hlength hzip
    obtain ⟨p, hdescend⟩ := hiff.mpr fun i _ => hadmits i
    exact ⟨p, plan_eq_ok.mpr ⟨f, first, rest, steps_eq_ok.mpr ⟨hlength, hzip⟩, hmatch, hf, hdescend⟩⟩
  · obtain ⟨f, first, rest, hsteps, hmatch, hf, hdescend⟩ := plan_eq_ok.mp hplan
    obtain ⟨hlength, hzip⟩ := steps_eq_ok.mp hsteps
    exact lists_of_last (((Reached.start hmatch hsorted hfits hf).descend_iff hlength hzip).2 p hdescend)

/-- From both buckets of the first level to all of the second. -/
theorem plan_iff_two :
    let d := Domain.oneThree
    let e : Expansion := ⟨[1], [[]], some 0⟩
    let previous : Option (UInt64 × Array UInt64) := some (0, #[0, 1])
    (∀ found ∈ previous, found.2.toList.Pairwise (· < ·)) ∧ FitsLevel d.hierarchy previous ∧
      ∃ p, e.plan d.hierarchy previous = .ok p ∧ e.Lists d previous p ∧ ∀ i < e.levels.length, e.Admits d previous i := by
  intro d e previous
  have hsorted : ∀ found ∈ previous, found.2.toList.Pairwise (· < ·) := by
    intro found hfound
    obtain rfl := Option.some_inj.mp hfound
    decide
  have hfits : FitsLevel d.hierarchy previous := by
    intro found hfound bits hbits
    obtain rfl := Option.some_inj.mp hfound
    cases hbits
    exact List.forall_mem_cons.mpr ⟨by decide, List.forall_mem_singleton.mpr (by decide)⟩
  have hplan : e.plan d.hierarchy previous = .ok ⟨1, 1, #[0, 1], 3⟩ := rfl
  obtain ⟨hiff, hlists, -⟩ := plan_iff (e := e) hsorted hfits
  exact ⟨hsorted, hfits, _, hplan, hlists _ hplan, (hiff.mp ⟨_, hplan⟩).2.2.2.2⟩

end Expansion

end PrivateHistogram.PointFunction
