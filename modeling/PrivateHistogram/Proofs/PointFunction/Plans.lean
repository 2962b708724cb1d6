import PrivateHistogram.Proofs.Draws
import PrivateHistogram.Proofs.Increasing
import PrivateHistogram.Proofs.PointFunction.Walks

/-! Plans list their buckets in increasing order. A round starts from a frontier, buckets in increasing order at one
    level (`Frontier.Fits`); what it refines are some of them, so the buckets below are in increasing order again
    (`Plan.Fits`), and those are the frontier of the next step. How many buckets a plan has, and at which level, does
    not take a frontier in order (`Plan.Sized`), so it holds of any plan that is made (`sized_of_plan`). -/

namespace PrivateHistogram.PointFunction

/-! ### Levels -/

namespace Domain
variable (d : Domain) {level level' : UInt64} {bits bits' : UInt32}

theorem ofHierarchy_eq : ofHierarchy d.hierarchy = .ok d := by
  rw [ofHierarchy, Hierarchy.check, dif_neg d.valid.nonempty, dif_neg d.valid.first_pos, dif_pos d.valid.last_le,
    dif_pos d.valid.increasing]
  rfl

theorem levelBits_eq_ok : d.hierarchy.levelBits level = .ok bits ↔ d.hierarchy.sizes[level.toNat]? = some bits := by
  rw [Hierarchy.levelBits]
  cases d.hierarchy.sizes[level.toNat]? <;> simp

theorem size_pos (h : bits ∈ d.hierarchy.sizes) : 0 < bits := by
  obtain ⟨first, rest, hsizes⟩ := List.exists_cons_of_ne_nil d.valid.nonempty
  have hfirst : first ≠ 0 := fun hzero => d.valid.first_pos (by rw [hsizes, hzero]; rfl)
  have hincreasing := d.valid.increasing
  rw [hsizes] at h hincreasing
  rcases List.mem_cons.mp h with rfl | hrest
  · exact UInt32.pos_iff_ne_zero.mpr hfirst
  · exact UInt32.lt_trans (UInt32.pos_iff_ne_zero.mpr hfirst) ((List.pairwise_cons.mp hincreasing).1 _ hrest)

theorem levelBits_pos (h : d.hierarchy.levelBits level = .ok bits) : 0 < bits :=
  d.size_pos (List.mem_of_getElem? (d.levelBits_eq_ok.mp h))

theorem bitLength_mem : d.bitLength ∈ d.hierarchy.sizes := by
  rw [bitLength, Hierarchy.bitLength, List.getLast?_eq_some_getLast d.valid.nonempty]
  exact List.getLast_mem _

theorem bitLength_pos : 0 < d.bitLength := d.size_pos d.bitLength_mem

theorem levelBits_lt (h : d.hierarchy.levelBits level = .ok bits) (h' : d.hierarchy.levelBits level' = .ok bits')
    (hlt : level < level') : bits < bits' := by
  obtain ⟨hl, rfl⟩ := List.getElem?_eq_some_iff.mp (d.levelBits_eq_ok.mp h)
  obtain ⟨hl', rfl⟩ := List.getElem?_eq_some_iff.mp (d.levelBits_eq_ok.mp h')
  exact List.pairwise_iff_getElem.mp d.valid.increasing _ _ hl hl' (UInt64.lt_iff_toNat_lt.mp hlt)

theorem levelBits_le (h : d.hierarchy.levelBits level = .ok bits) : bits ≤ d.bitLength := by
  obtain ⟨hl, rfl⟩ := List.getElem?_eq_some_iff.mp (d.levelBits_eq_ok.mp h)
  have hlast : d.bitLength = d.hierarchy.sizes[d.hierarchy.sizes.length - 1] := by
    rw [bitLength, Hierarchy.bitLength, List.getLast?_eq_getElem?, List.getElem?_eq_getElem (by omega)]
    rfl
  rw [hlast]
  rcases (Nat.le_sub_one_of_lt hl).eq_or_lt with heq | hlt
  · simp only [heq]
    exact UInt32.le_refl _
  · exact UInt32.le_of_lt (List.pairwise_iff_getElem.mp d.valid.increasing _ _ hl _ hlt)

end Domain

/-! ### Buckets below a parent -/

/-- The bucket with the given number among those below a parent. -/
def below (depth : ℕ) (parent : UInt64) (j : ℕ) : UInt64 := (parent <<< UInt64.ofNat depth) ||| UInt64.ofNat j

theorem toNat_below {bits depth j : ℕ} {parent : UInt64} (hparent : parent.toNat < 2 ^ bits) (hbits : bits + depth ≤ 64)
    (hdepth : depth < 64) (hj : j < 2 ^ depth) : (below depth parent j).toNat = parent.toNat * 2 ^ depth + j := by
  have hj64 : j < 2 ^ 64 := hj.trans (Nat.pow_lt_pow_right (by decide) hdepth)
  have hshift : (UInt64.ofNat depth).toNat % 64 = depth := by
    rw [UInt64.toNat_ofNat_of_lt' (hdepth.trans (by decide)), Nat.mod_eq_of_lt hdepth]
  have hroom : parent.toNat <<< depth < 2 ^ 64 := by
    rw [Nat.shiftLeft_eq]
    calc parent.toNat * 2 ^ depth < 2 ^ bits * 2 ^ depth := Nat.mul_lt_mul_of_pos_right hparent (by positivity)
      _ = 2 ^ (bits + depth) := (pow_add 2 bits depth).symm
      _ ≤ 2 ^ 64 := Nat.pow_le_pow_right (by decide) hbits
  rw [below, UInt64.toNat_or, UInt64.toNat_shiftLeft, hshift, Nat.mod_eq_of_lt hroom, UInt64.toNat_ofNat_of_lt' hj64,
    ← Nat.shiftLeft_add_eq_or_of_lt hj, Nat.shiftLeft_eq]

theorem mul_add_lt_mul {a b width j : ℕ} (hab : a < b) (hj : j < width) : a * width + j < b * width :=
  calc a * width + j < a * width + width := Nat.add_lt_add_left hj _
    _ = (a + 1) * width := (Nat.succ_mul a width).symm
    _ ≤ b * width := Nat.mul_le_mul_right _ hab

theorem mul_add_div_of_lt {a width j : ℕ} (hj : j < width) : (a * width + j) / width = a := by
  rw [Nat.mul_comm, Nat.mul_add_div (Nat.zero_lt_of_lt hj), Nat.div_eq_of_lt hj, Nat.add_zero]

/-! ### Frontiers and plans in order -/

/-- A frontier is at a level of the domain, or is the whole of it. -/
structure Frontier.Placed (d : Domain) (f : Frontier) : Prop where
  bits_le : f.bits ≤ d.bitLength
  level : match f.level with
    | none => f.bits = 0
    | some level => d.hierarchy.levelBits level = .ok f.bits

/-- The buckets of a frontier are in increasing order, and in the domain at its level. -/
structure Frontier.Fits (d : Domain) (f : Frontier) : Prop extends Frontier.Placed d f where
  lt : ∀ i j, i < j → j < f.size → f.bucket i < f.bucket j
  bucket_lt : ∀ i < f.size, (f.bucket i).toNat < 2 ^ f.bits.toNat

/-- There are levels between the parents of a plan and its buckets, which are at a level of the domain, and no more
    than `2 ^ 24` buckets. -/
structure Plan.Sized (d : Domain) (p : Plan) : Prop where
  bits_lt : p.parentBits < p.targetBits
  bits_le : p.targetBits ≤ d.bitLength
  depth_le : p.subtreeBits ≤ Plan.maxBucketBits
  size_le : p.size ≤ 2 ^ 24
  level : d.hierarchy.levelBits p.level = .ok p.targetBits

/-- The parents of a plan are in increasing order, and in the domain at their length. -/
structure Plan.Fits (d : Domain) (p : Plan) : Prop extends Plan.Sized d p where
  parents : p.parents.toList.Pairwise (· < ·)
  parents_lt : ∀ q ∈ p.parents.toList, q.toNat < 2 ^ p.parentBits.toNat

namespace Plan

theorem bucket_eq (p : Plan) (i : ℕ) :
    p.bucket i = below p.subtreeBits.toNat (p.parents.getD (i / 2 ^ p.subtreeBits.toNat) 0)
      (i % 2 ^ p.subtreeBits.toNat) := by
  rw [bucket, Nat.shiftRight_eq_div_pow]
  rfl

namespace Sized
variable {d : Domain} {p : Plan} (h : p.Sized d)
include h

theorem toNat_subtreeBits : p.parentBits.toNat + p.subtreeBits.toNat = p.targetBits.toNat := by
  rw [subtreeBits, UInt32.toNat_sub_of_le _ _ (UInt32.le_of_lt h.bits_lt)]
  exact Nat.add_sub_cancel' (UInt32.le_iff_toNat_le.mp (UInt32.le_of_lt h.bits_lt))

theorem targetBits_le : p.targetBits.toNat ≤ 64 :=
  (UInt32.le_iff_toNat_le.mp h.bits_le).trans d.bitLength_le

theorem depth_lt : p.subtreeBits.toNat < 64 :=
  (UInt32.le_iff_toNat_le.mp h.depth_le).trans_lt (by decide)

theorem depth_pos : 0 < p.subtreeBits.toNat := by
  have hbits := h.toNat_subtreeBits
  have hlt := UInt32.lt_iff_toNat_lt.mp h.bits_lt
  omega

/-- The buckets below parents that fit in their length are numbered through below one parent after the other. -/
theorem toNat_bucket (hparents : ∀ q ∈ p.parents.toList, q.toNat < 2 ^ p.parentBits.toNat) {i : ℕ} (hi : i < p.size) :
    ∃ hlt : i / 2 ^ p.subtreeBits.toNat < p.parents.toList.length, (p.bucket i).toNat =
      p.parents.toList[i / 2 ^ p.subtreeBits.toNat].toNat * 2 ^ p.subtreeBits.toNat + i % 2 ^ p.subtreeBits.toNat := by
  have hlt : i / 2 ^ p.subtreeBits.toNat < p.parents.toList.length := by
    rw [Nat.div_lt_iff_lt_mul (by positivity)]
    exact hi
  refine ⟨hlt, ?_⟩
  have hget : p.parents.getD (i / 2 ^ p.subtreeBits.toNat) 0 = p.parents.toList[i / 2 ^ p.subtreeBits.toNat] := by
    rw [Array.getD]
    exact dif_pos hlt
  rw [bucket_eq, hget]
  refine toNat_below (hparents _ (List.getElem_mem hlt)) ?_ h.depth_lt (Nat.mod_lt _ (by positivity))
  rw [h.toNat_subtreeBits]
  exact h.targetBits_le

theorem toNat_bucket_lt (hparents : ∀ q ∈ p.parents.toList, q.toNat < 2 ^ p.parentBits.toNat) {i : ℕ} (hi : i < p.size) :
    (p.bucket i).toNat < 2 ^ p.targetBits.toNat := by
  obtain ⟨hlt, hbucket⟩ := h.toNat_bucket hparents hi
  rw [hbucket, ← h.toNat_subtreeBits, pow_add]
  exact mul_add_lt_mul (hparents _ (List.getElem_mem hlt)) (Nat.mod_lt i (by positivity))

end Sized

namespace Fits
variable {d : Domain} {p : Plan} (h : p.Fits d)
include h

/-- The buckets are numbered through below one parent after the other. -/
theorem toNat_bucket {i : ℕ} (hi : i < p.size) : ∃ hlt : i / 2 ^ p.subtreeBits.toNat < p.parents.toList.length,
    (p.bucket i).toNat =
      p.parents.toList[i / 2 ^ p.subtreeBits.toNat].toNat * 2 ^ p.subtreeBits.toNat + i % 2 ^ p.subtreeBits.toNat :=
  h.toSized.toNat_bucket h.parents_lt hi

theorem bucket_lt_bucket {i j : ℕ} (hij : i < j) (hj : j < p.size) : p.bucket i < p.bucket j := by
  obtain ⟨hi', hi⟩ := h.toNat_bucket (hij.trans hj)
  obtain ⟨hj', hj⟩ := h.toNat_bucket hj
  rw [UInt64.lt_iff_toNat_lt, hi, hj]
  generalize p.subtreeBits.toNat = depth at *
  have hmod := Nat.mod_lt i (show 0 < 2 ^ depth by positivity)
  rcases (Nat.div_le_div_right hij.le : i / 2 ^ depth ≤ j / 2 ^ depth).eq_or_lt with heq | hlt
  · have hlt : i % 2 ^ depth < j % 2 ^ depth := by
      rw [← Nat.div_add_mod i (2 ^ depth), ← Nat.div_add_mod j (2 ^ depth), heq] at hij
      exact Nat.lt_of_add_lt_add_left hij
    simp only [heq]
    omega
  · have hparents := UInt64.lt_iff_toNat_lt.mp (List.pairwise_iff_getElem.mp h.parents _ _ hi' hj' hlt)
    exact (mul_add_lt_mul hparents hmod).trans_le (Nat.le_add_right _ _)

theorem toNat_bucket_lt {i : ℕ} (hi : i < p.size) : (p.bucket i).toNat < 2 ^ p.targetBits.toNat :=
  h.toSized.toNat_bucket_lt h.parents_lt hi

/-- The buckets of a plan are a frontier for the next step. -/
theorem frontier : (Frontier.ofPlan p).Fits d where
  bits_le := h.bits_le
  level := h.level
  lt _ _ := h.bucket_lt_bucket
  bucket_lt _ := h.toNat_bucket_lt

theorem pairwise_buckets : p.buckets.toList.Pairwise (· < ·) := by
  rw [List.pairwise_iff_getElem]
  intro i j hi hj hij
  simp only [buckets, Array.toList_ofFn, List.length_ofFn] at hi hj
  simpa [buckets] using h.bucket_lt_bucket hij hj

end Fits

theorem size_buckets (p : Plan) : p.buckets.size = p.size := Array.size_ofFn

theorem getD_buckets {p : Plan} {i : ℕ} (hi : i < p.size) : p.buckets.getD i 0 = p.bucket i := by
  rw [Array.getD_eq_getD_getElem?, Array.getElem?_eq_getElem (by rwa [size_buckets])]
  simp [buckets]

theorem mem_buckets {p : Plan} {b : UInt64} : b ∈ p.buckets.toList ↔ ∃ i < p.size, p.bucket i = b := by
  simp only [buckets, Array.toList_ofFn, List.mem_ofFn]
  exact ⟨fun ⟨i, hi⟩ => ⟨i, i.isLt, hi⟩, fun ⟨i, hlt, hi⟩ => ⟨⟨i, hlt⟩, hi⟩⟩

theorem Fits.inDomain {d : Domain} {p : Plan} (h : p.Fits d) {b : UInt64} (hb : b ∈ p.buckets.toList) :
    0 < p.targetBits.toNat ∧ p.targetBits.toNat ≤ d.bitLength.toNat ∧ b.toNat < 2 ^ p.targetBits.toNat := by
  obtain ⟨i, hi, rfl⟩ := mem_buckets.mp hb
  exact ⟨(Nat.zero_le _).trans_lt (UInt32.lt_iff_toNat_lt.mp h.bits_lt), UInt32.le_iff_toNat_le.mp h.bits_le,
    h.toNat_bucket_lt hi⟩

end Plan

/-! ### Selections -/

namespace Frontier

theorem fresh_fits (d : Domain) : fresh.Fits d where
  bits_le := UInt32.le_iff_toNat_le.mpr (Nat.zero_le _)
  level := rfl
  lt i j hij hj := by
    have : j < 1 := hj
    omega
  bucket_lt _ _ := Nat.one_pos

/-- What search finds is one of the buckets looked at, in order or not. -/
theorem exists_of_search {f : Frontier} {wanted : UInt64} {first count : ℕ} (hcount : 0 < count)
    (hfound : f.search wanted first count = true) : ∃ i, first ≤ i ∧ i < first + count ∧ f.bucket i = wanted := by
  fun_induction f.search wanted first count with
  | case1 first count hone => exact ⟨first, le_refl _, by omega, of_decide_eq_true hfound⟩
  | case2 first count hone half ih =>
    obtain ⟨i, hfirst, hi, heq⟩ := ih (by omega) hfound
    refine ⟨i, ?_, ?_, heq⟩ <;> split at hfirst <;> split at hi <;> omega

theorem exists_of_contains {f : Frontier} {wanted : UInt64} (hfound : f.contains wanted = true) :
    ∃ i < f.size, f.bucket i = wanted := by
  rw [contains, Bool.and_eq_true, decide_eq_true_eq] at hfound
  obtain ⟨i, -, hi, heq⟩ := exists_of_search (Nat.pos_of_ne_zero hfound.1) hfound.2
  exact ⟨i, by omega, heq⟩

theorem select_ok {f : Frontier} {selection : List UInt64} {chosen : Array UInt64}
    (hselect : f.select selection = .ok chosen) :
    chosen.toList = increasing selection ∧ ∀ q ∈ chosen.toList, ∃ i < f.size, f.bucket i = q := by
  rw [select] at hselect
  split at hselect
  · cases hselect
  · cases hfind : (increasing selection).find? fun bucket => !f.contains bucket with
    | some missing => simp [hfind] at hselect
    | none =>
      simp only [hfind, Except.ok.injEq] at hselect
      subst hselect
      exact ⟨rfl, fun q hq => exists_of_contains (by simpa using List.find?_eq_none.mp hfind q hq)⟩

namespace Fits
variable {d : Domain} {f : Frontier} (h : f.Fits d)
include h

/-- Search finds each of the buckets looked at, since they are in order. -/
theorem search_of_bucket {i first count : ℕ} (hfirst : first ≤ i) (hi : i < first + count) (hle : first + count ≤ f.size) :
    f.search (f.bucket i) first count = true := by
  fun_induction f.search (f.bucket i) first count with
  | case1 first count hone =>
    obtain rfl : i = first := by omega
    exact decide_eq_true rfl
  | case2 first count hone half ih =>
    rcases Nat.lt_or_ge i (first + half) with hlt | hge
    · -- The middle is the start of the larger buckets.
      simp only [h.lt i (first + half) hlt (by omega), dite_true, if_true] at ih ⊢
      exact ih hfirst (by omega) (by omega)
    · have hnot : ¬f.bucket i < f.bucket (first + half) := by
        rcases hge.eq_or_lt with heq | hlt
        · rw [heq]
          exact UInt64.lt_irrefl _
        · exact UInt64.lt_asymm (h.lt _ i hlt (by omega))
      simp only [hnot, dite_false, if_false] at ih ⊢
      exact ih hge (by omega) (by omega)

theorem contains_iff {wanted : UInt64} : f.contains wanted = true ↔ ∃ i < f.size, f.bucket i = wanted := by
  refine ⟨exists_of_contains, ?_⟩
  rintro ⟨i, hi, rfl⟩
  rw [contains, Bool.and_eq_true, decide_eq_true_eq]
  exact ⟨(Nat.zero_lt_of_lt hi).ne', h.search_of_bucket (Nat.zero_le i) (by omega) (Nat.zero_add _).le⟩

theorem select_eq (hlevel : f.level ≠ none) {selection : List UInt64}
    (hmem : ∀ q ∈ selection, ∃ i < f.size, f.bucket i = q) :
    f.select selection = .ok (increasing selection).toArray := by
  have hfind : (increasing selection).find? (fun bucket => !f.contains bucket) = none := by
    refine List.find?_eq_none.mpr fun q hq => ?_
    rw [h.contains_iff.mpr (hmem q (mem_increasing.mp hq))]
    decide
  simp only [select, if_neg hlevel, hfind]

end Fits
end Frontier

/-! ### Steps -/

namespace Plan

theorem checkSize_ok {parents : ℕ} {parentBits targetBits : UInt32} (h : checkSize parents parentBits targetBits = .ok ()) :
    targetBits - parentBits ≤ maxBucketBits ∧ parents * 2 ^ (targetBits - parentBits).toNat ≤ 2 ^ 24 := by
  rw [checkSize] at h
  split at h
  · cases h
  · split at h
    · cases h
    · split at h
      · cases h
      · rename_i hdepth hsize
        exact ⟨UInt32.not_lt.mp hdepth, Nat.not_lt.mp hsize⟩

variable {d : Domain} {f : Frontier} {level : UInt64}

theorem bits_lt_of_level (hf : f.Placed d) {targetBits : UInt32} (htarget : d.hierarchy.levelBits level = .ok targetBits)
    (hnext : ∀ current ∈ f.level, current < level) : f.bits < targetBits := by
  have hlevel := hf.level
  cases hcurrent : f.level with
  | none =>
    rw [hcurrent] at hlevel
    simp only [hlevel]
    exact d.levelBits_pos htarget
  | some current =>
    rw [hcurrent] at hlevel
    exact d.levelBits_lt hlevel htarget (hnext current hcurrent)

theorem sized_of_parents (hf : f.Placed d) {targetBits : UInt32} (htarget : d.hierarchy.levelBits level = .ok targetBits)
    (hnext : ∀ current ∈ f.level, current < level) {parents : Array UInt64}
    (hsize : checkSize parents.size f.bits targetBits = .ok ()) :
    Sized d { level, parentBits := f.bits, parents, targetBits } where
  bits_lt := bits_lt_of_level hf htarget hnext
  bits_le := d.levelBits_le htarget
  depth_le := (checkSize_ok hsize).1
  size_le := (checkSize_ok hsize).2
  level := htarget

/-- The buckets that a step refines. -/
def chosen (f : Frontier) (selection : List UInt64) : Except Error (Array UInt64) :=
  if selection = [] then .ok (Array.ofFn fun i : Fin f.size => f.bucket i) else f.select selection

/-- What a step refines are buckets of the frontier. -/
theorem exists_of_chosen {selection : List UInt64} {parents : Array UInt64} (h : chosen f selection = .ok parents)
    {q : UInt64} (hq : q ∈ parents.toList) : ∃ i < f.size, f.bucket i = q := by
  rw [chosen] at h
  split at h
  · cases h
    rw [Array.toList_ofFn] at hq
    obtain ⟨i, rfl⟩ := List.mem_ofFn.mp hq
    exact ⟨i, i.isLt, rfl⟩
  · exact (Frontier.select_ok h).2 q hq

/-- What a step refines is in increasing order if the frontier is. -/
theorem chosen_ok (hf : f.Fits d) {selection : List UInt64} {parents : Array UInt64}
    (h : chosen f selection = .ok parents) :
    parents.toList.Pairwise (· < ·) ∧ ∀ q ∈ parents.toList, ∃ i < f.size, f.bucket i = q := by
  refine ⟨?_, fun q => exists_of_chosen h⟩
  rw [chosen] at h
  split at h
  · cases h
    rw [Array.toList_ofFn]
    refine List.pairwise_iff_getElem.mpr fun i j hi hj hij => ?_
    rw [List.length_ofFn] at hi hj
    simpa using hf.lt i j hij hj
  · exact (Frontier.select_ok h).1 ▸ pairwise_increasing selection

theorem fits_of_parents (hf : f.Fits d) {targetBits : UInt32} (htarget : d.hierarchy.levelBits level = .ok targetBits)
    (hnext : ∀ current ∈ f.level, current < level) {selection : List UInt64} {parents : Array UInt64}
    (hchosen : chosen f selection = .ok parents) (hsize : checkSize parents.size f.bits targetBits = .ok ()) :
    Fits d { level, parentBits := f.bits, parents, targetBits } where
  toSized := sized_of_parents hf.toPlaced htarget hnext hsize
  parents := (chosen_ok hf hchosen).1
  parents_lt q hq := by
    obtain ⟨i, hi, rfl⟩ := (chosen_ok hf hchosen).2 q hq
    exact hf.bucket_lt i hi

/-- A step to a level that follows refines the chosen buckets, if there is room. -/
theorem step_eq {h : Hierarchy} {targetBits : UInt32} (htarget : h.levelBits level = .ok targetBits)
    (hnext : ∀ current ∈ f.level, current < level) (selection : List UInt64) :
    step h f level selection = (chosen f selection >>= fun parents =>
      checkSize parents.size f.bits targetBits >>= fun _ =>
        .ok { level, parentBits := f.bits, parents, targetBits }) := by
  have hlevel : ∀ current, f.level = some current → ¬level ≤ current := fun current hcurrent =>
    UInt64.not_le.mpr (hnext current hcurrent)
  rw [step, htarget, chosen]
  split <;> cases hf : f.level <;>
    simp [hf, hlevel, bind, Except.bind, pure, Except.pure]

theorem level_of_step {h : Hierarchy} {selection : List UInt64} {p : Plan} (hstep : step h f level selection = .ok p) :
    ∃ targetBits, h.levelBits level = .ok targetBits ∧ ∀ current ∈ f.level, current < level := by
  rw [step, bind_eq_ok] at hstep
  obtain ⟨targetBits, htarget, hstep⟩ := hstep
  refine ⟨targetBits, htarget, fun current hcurrent => UInt64.not_le.mp fun hle => ?_⟩
  rw [Option.mem_def.mp hcurrent] at hstep
  simp [hle, bind, Except.bind, throw, throwThe, MonadExceptOf.throw] at hstep

/-- All that a step can do: it goes to a level that follows and refines the chosen buckets, for which there is room. -/
theorem step_ok {h : Hierarchy} {selection : List UInt64} {p : Plan} (hstep : step h f level selection = .ok p) :
    ∃ targetBits parents, h.levelBits level = .ok targetBits ∧ (∀ current ∈ f.level, current < level) ∧
      chosen f selection = .ok parents ∧ checkSize parents.size f.bits targetBits = .ok () ∧
      p = { level, parentBits := f.bits, parents, targetBits } := by
  obtain ⟨targetBits, htarget, hnext⟩ := level_of_step hstep
  rw [step_eq htarget hnext, bind_eq_ok] at hstep
  obtain ⟨parents, hchosen, hstep⟩ := hstep
  rw [bind_eq_ok] at hstep
  obtain ⟨⟨⟩, hsize, hplan⟩ := hstep
  cases hplan
  exact ⟨targetBits, parents, htarget, hnext, hchosen, hsize, rfl⟩

theorem sized_of_step {selection : List UInt64} {p : Plan} (hf : f.Placed d)
    (hstep : step d.hierarchy f level selection = .ok p) : p.Sized d := by
  obtain ⟨targetBits, parents, htarget, hnext, -, hsize, rfl⟩ := step_ok hstep
  exact sized_of_parents hf htarget hnext hsize

theorem fits_of_step {selection : List UInt64} {p : Plan} (hf : f.Fits d)
    (hstep : step d.hierarchy f level selection = .ok p) : p.Fits d := by
  obtain ⟨targetBits, parents, htarget, hnext, hchosen, hsize, rfl⟩ := step_ok hstep
  exact fits_of_parents hf htarget hnext hchosen hsize

/-- What the first step gives and each later step keeps holds of the plan. -/
theorem descend_induction {h : Hierarchy} {P : Plan → Prop} {first : UInt64 × List UInt64}
    {rest : List (UInt64 × List UInt64)} {p : Plan} (hdescend : descend h f first rest = .ok p)
    (hfirst : ∀ q, step h f first.1 first.2 = .ok q → P q)
    (hnext : ∀ q q' level selection, P q → step h (.ofPlan q) level selection = .ok q' → P q') : P p := by
  rw [descend, bind_eq_ok] at hdescend
  obtain ⟨q, hstep, hrest⟩ := hdescend
  have hq := hfirst q hstep
  clear hstep
  induction rest generalizing q with
  | nil =>
    cases hrest
    exact hq
  | cons next rest ih =>
    rw [List.foldlM_cons, bind_eq_ok] at hrest
    obtain ⟨q', hstep, hrest⟩ := hrest
    exact ih q' hrest (hnext q q' _ _ hq hstep)

theorem Sized.placed {p : Plan} (h : p.Sized d) : (Frontier.ofPlan p).Placed d := ⟨h.bits_le, h.level⟩

theorem sized_of_descend {first : UInt64 × List UInt64} {rest : List (UInt64 × List UInt64)} {p : Plan} (hf : f.Placed d)
    (h : descend d.hierarchy f first rest = .ok p) : p.Sized d :=
  descend_induction h (fun _ => sized_of_step hf) fun _ _ _ _ hq => sized_of_step hq.placed

theorem fits_of_descend {first : UInt64 × List UInt64} {rest : List (UInt64 × List UInt64)} {p : Plan} (hf : f.Fits d)
    (h : descend d.hierarchy f first rest = .ok p) : p.Fits d :=
  descend_induction h (fun _ => fits_of_step hf) fun _ _ _ _ hq => fits_of_step hq.frontier

end Plan

/-! ### Plans of an expansion -/

/-- The frontier that a round goes on from. -/
def Frontier.ofPrevious (h : Hierarchy) : Option (UInt64 × Array UInt64) → Except Error Frontier
  | none => .ok .fresh
  | some (level, buckets) => do return .ofList level (← h.levelBits level) buckets

/-- An expansion that goes on from the level of the round before goes down its steps, from the frontier at which that
    round has stopped. -/
theorem plan_of_steps {e : Expansion} {first : UInt64 × List UInt64} {rest : List (UInt64 × List UInt64)}
    (hsteps : e.steps = .ok (first, rest)) {previous : Option (UInt64 × Array UInt64)}
    (hmatch : e.previousLevel = previous.map Prod.fst) (h : Hierarchy) :
    e.plan h previous = (Frontier.ofPrevious h previous >>= fun f => Plan.descend h f first rest) := by
  rw [Expansion.plan, hsteps]
  cases previous with
  | none => simp [hmatch, Frontier.ofPrevious, bind, Except.bind]
  | some found =>
    rw [Frontier.ofPrevious, bind_assoc]
    simp [hmatch, bind, Except.bind]
    rfl

/-- All that there is to a plan: it goes down the steps of the expansion, from the frontier at which the round before has
    stopped. -/
theorem descend_of_plan {h : Hierarchy} {e : Expansion} {previous : Option (UInt64 × Array UInt64)} {p : Plan}
    (hplan : e.plan h previous = .ok p) :
    ∃ f first rest, e.steps = .ok (first, rest) ∧ e.previousLevel = previous.map Prod.fst ∧
      Frontier.ofPrevious h previous = .ok f ∧ Plan.descend h f first rest = .ok p := by
  have hunfold := hplan
  rw [Expansion.plan, bind_eq_ok] at hunfold
  obtain ⟨⟨first, rest⟩, hsteps, hunfold⟩ := hunfold
  by_cases hmatch : e.previousLevel = previous.map Prod.fst
  · rw [plan_of_steps hsteps hmatch, bind_eq_ok] at hplan
    obtain ⟨f, hf, hdescend⟩ := hplan
    exact ⟨f, first, rest, hsteps, hmatch, hf, hdescend⟩
  · simp [hmatch, bind, Except.bind, throw, throwThe, MonadExceptOf.throw] at hunfold

theorem Frontier.placed_ofPrevious {d : Domain} {previous : Option (UInt64 × Array UInt64)} {f : Frontier}
    (h : Frontier.ofPrevious d.hierarchy previous = .ok f) : f.Placed d := by
  cases previous with
  | none =>
    cases h
    exact (Frontier.fresh_fits d).toPlaced
  | some found =>
    obtain ⟨bits, hbits, h⟩ := bind_eq_ok.mp h
    cases h
    exact ⟨d.levelBits_le hbits, hbits⟩

/-- Whatever the round before has left behind, a plan is of a level that follows, and not too large. -/
theorem sized_of_plan {d : Domain} {e : Expansion} {previous : Option (UInt64 × Array UInt64)} {p : Plan}
    (h : e.plan d.hierarchy previous = .ok p) : p.Sized d := by
  obtain ⟨f, first, rest, -, -, hf, hdescend⟩ := descend_of_plan h
  exact Plan.sized_of_descend (Frontier.placed_ofPrevious hf) hdescend

/-- What a round before has left fits in its level, in order or not. -/
def FitsLevel (h : Hierarchy) (previous : Option (UInt64 × Array UInt64)) : Prop :=
  ∀ found ∈ previous, ∀ bits, h.levelBits found.1 = .ok bits → ∀ q ∈ found.2.toList, q.toNat < 2 ^ bits.toNat

/-- Where the round before stopped, if there was one: at the buckets of a plan in order. -/
def Stopped (d : Domain) (previous : Option (UInt64 × Array UInt64)) : Prop :=
  ∀ found ∈ previous, ∃ p : Plan, p.Fits d ∧ found = (p.level, p.buckets)

theorem stopped_none (d : Domain) : Stopped d none := fun _ hfound => nomatch hfound

/-- Buckets that are listed in increasing order, and fit in their level, are a frontier. -/
theorem Frontier.fits_ofList {d : Domain} {level : UInt64} {bits : UInt32} (hbits : d.hierarchy.levelBits level = .ok bits)
    {buckets : Array UInt64} (hsorted : buckets.toList.Pairwise (· < ·))
    (hlt : ∀ q ∈ buckets.toList, q.toNat < 2 ^ bits.toNat) : (Frontier.ofList level bits buckets).Fits d := by
  have hget : ∀ {i}, (hi : i < buckets.size) → (Frontier.ofList level bits buckets).bucket i = buckets.toList[i] :=
    fun hi => by simp [Frontier.ofList, hi]
  refine ⟨⟨d.levelBits_le hbits, hbits⟩, fun i j hij hj => ?_, fun i hi => ?_⟩
  · rw [hget (hij.trans hj), hget hj]
    exact List.pairwise_iff_getElem.mp hsorted i j _ _ hij
  · rw [hget hi]
    exact hlt _ (List.getElem_mem _)

theorem frontier_ofList {d : Domain} {p : Plan} (h : p.Fits d) : (Frontier.ofList p.level p.targetBits p.buckets).Fits d :=
  Frontier.fits_ofList h.level h.pairwise_buckets fun _ hq => (h.inDomain hq).2.2

theorem Frontier.fits_ofPrevious {d : Domain} {previous : Option (UInt64 × Array UInt64)} (hprevious : Stopped d previous)
    {f : Frontier} (h : Frontier.ofPrevious d.hierarchy previous = .ok f) : f.Fits d := by
  cases previous with
  | none =>
    cases h
    exact Frontier.fresh_fits d
  | some found =>
    obtain ⟨p, hp, rfl⟩ := hprevious found rfl
    rw [Frontier.ofPrevious, hp.level] at h
    cases h
    exact frontier_ofList hp

/-- An expansion that goes on from where the round before stopped gives a plan in order. -/
theorem fits_of_plan {d : Domain} {e : Expansion} {previous : Option (UInt64 × Array UInt64)} {p : Plan}
    (hprevious : Stopped d previous) (h : e.plan d.hierarchy previous = .ok p) : p.Fits d := by
  obtain ⟨f, first, rest, -, -, hf, hdescend⟩ := descend_of_plan h
  exact Plan.fits_of_descend (Frontier.fits_ofPrevious hprevious hf) hdescend

end PrivateHistogram.PointFunction
