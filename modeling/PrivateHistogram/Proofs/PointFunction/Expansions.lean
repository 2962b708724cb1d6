import PrivateHistogram.Proofs.PointFunction.Caches
import PrivateHistogram.Proofs.PointFunction.Plans

/-! Expanding a half over a plan gives a value for each bucket, in the order of the buckets, and keeps the parents in
    the cache (`expandParents_eq`). Which value does not depend on what has been kept before (`valueOf_keep`). The
    leaves below a parent are the values at the ends of the walks that go through the parent (`leaves_eq`,
    `share_below`), so with a sound cache the value is the half's share of the bucket (`valueOf_eq_share`). -/

namespace PrivateHistogram.PointFunction

/-! ### Paths through a parent -/

theorem path_cons (depth : ℕ) (p : UInt64) : path (depth + 1) p = p.toNat.testBit depth :: path depth p := by
  refine List.ext_getElem (by simp) fun i h h' => ?_
  rw [getElem_path]
  cases i with
  | zero => rfl
  | succ i =>
    rw [List.getElem_cons_succ, getElem_path]
    congr 1
    omega

theorem path_congr {depth : ℕ} {p q : UInt64} (h : ∀ i < depth, p.toNat.testBit i = q.toNat.testBit i) :
    path depth p = path depth q := by
  refine List.ext_getElem (by simp) fun i hi hi' => ?_
  rw [getElem_path, getElem_path]
  rw [length_path] at hi
  exact h _ (by omega)

theorem path_add {bits depth : ℕ} (p : UInt64) (h : depth < 64) :
    path (bits + depth) p = path bits (ancestor (bits + depth) p bits) ++ path depth p := by
  have hdrop : (path (bits + depth) p).drop bits = path depth p := by
    refine List.ext_getElem (by simp) fun i hi hi' => ?_
    rw [List.getElem_drop, getElem_path, getElem_path]
    rw [length_path] at hi'
    congr 1
    omega
  rw [path_ancestor p (Nat.le_add_right _ _) (by omega), ← hdrop, List.take_append_drop]

section Below
variable {bits depth j : ℕ} (parent : UInt64) (hbits : bits + depth ≤ 64) (hdepth : depth < 64) (hj : j < 2 ^ depth)
include hdepth hj

theorem testBit_below {i : ℕ} (hi : i < 64) :
    (below depth parent j).toNat.testBit i = if i < depth then j.testBit i else parent.toNat.testBit (i - depth) := by
  have hj64 : j < 2 ^ 64 := hj.trans (Nat.pow_lt_pow_right (by decide) hdepth)
  have hshift : (UInt64.ofNat depth).toNat % 64 = depth := by
    rw [UInt64.toNat_ofNat_of_lt' (hdepth.trans (by decide)), Nat.mod_eq_of_lt hdepth]
  rw [below, UInt64.toNat_or, UInt64.toNat_shiftLeft, hshift, UInt64.toNat_ofNat_of_lt' hj64, Nat.testBit_or,
    Nat.testBit_mod_two_pow, Nat.testBit_shiftLeft, decide_eq_true hi, Bool.true_and]
  split
  · rename_i hlow
    rw [decide_eq_false (Nat.not_le.mpr hlow), Bool.false_and, Bool.false_or]
  · rename_i hhigh
    have hout : j.testBit i = false :=
      Nat.testBit_lt_two_pow (hj.trans_le (Nat.pow_le_pow_right (by decide) (Nat.not_lt.mp hhigh)))
    rw [hout, Bool.or_false, decide_eq_true (Nat.not_lt.mp hhigh), Bool.true_and]

include hbits

/-- The path goes through the parent, or through its low bits if it is too large for its depth. -/
theorem path_below : path (bits + depth) (below depth parent j) = path bits parent ++ path depth (UInt64.ofNat j) := by
  have hj64 : j < 2 ^ 64 := hj.trans (Nat.pow_lt_pow_right (by decide) hdepth)
  have hlow : path depth (below depth parent j) = path depth (UInt64.ofNat j) := path_congr fun i hi => by
    rw [testBit_below parent hdepth hj (by omega), if_pos hi, UInt64.toNat_ofNat_of_lt' hj64]
  have hhigh : path bits (ancestor (bits + depth) (below depth parent j) bits) = path bits parent :=
    path_congr fun i hi => by
      rw [toNat_ancestor _ (by omega), Nat.add_sub_cancel_left, ← Nat.shiftRight_eq_div_pow, Nat.testBit_shiftRight,
        testBit_below parent hdepth hj (by omega), if_neg (by omega), Nat.add_sub_cancel_left]
  rw [path_add _ hdepth, hhigh, hlow]

end Below

/-! ### Leaves -/

/-- The correction words of the levels between two depths. -/
def wordsBetween {V : Type} (k : KeyHalf V) (bits depth : ℕ) : List (CorrectionWord V) :=
  (k.corrections.take (bits + depth)).drop bits

theorem length_wordsBetween {V : Type} {k : KeyHalf V} {bits depth : ℕ} (h : bits + depth ≤ k.bitLength) :
    (wordsBetween k bits depth).length = depth := by
  have hk : bits + depth ≤ k.corrections.length := h
  simp [wordsBetween, hk]

variable {V : Type} [Payload V]

theorem valueAt_append (g : Generator V) (s : NodeState) (l₁ : List (CorrectionWord V × Bool))
    {l₂ : List (CorrectionWord V × Bool)} (h : l₂ ≠ []) : valueAt g s (l₁ ++ l₂) = valueAt g (descend g s l₁) l₂ := by
  induction l₁ generalizing s with
  | nil => rfl
  | cons x l₁ ih =>
    rw [List.cons_append, valueAt_cons g s x.1 x.2 (List.append_ne_nil_of_right_ne_nil l₁ h), ih]
    rfl

/-- The paths of the lower half of the numbers turn left, those of the upper half right. -/
theorem path_cons_ofNat {depth j : ℕ} (hdepth : depth + 1 < 64) (hj : j < 2 ^ depth) :
    path (depth + 1) (UInt64.ofNat j) = false :: path depth (UInt64.ofNat j) ∧
      path (depth + 1) (UInt64.ofNat (2 ^ depth + j)) = true :: path depth (UInt64.ofNat j) := by
  have hroom : 2 ^ depth + j < 2 ^ 64 := by
    have hle : 2 ^ (depth + 1) ≤ 2 ^ 64 := Nat.pow_le_pow_right (by decide) hdepth.le
    rw [pow_succ] at hle
    omega
  have hsmall : (UInt64.ofNat j).toNat = j := UInt64.toNat_ofNat_of_lt' (show j < 2 ^ 64 by omega)
  have hlarge : (UInt64.ofNat (2 ^ depth + j)).toNat = 2 ^ depth + j := UInt64.toNat_ofNat_of_lt' hroom
  refine ⟨?_, ?_⟩
  · rw [path_cons, hsmall, Nat.testBit_lt_two_pow hj]
  · have hlow : path depth (UInt64.ofNat (2 ^ depth + j)) = path depth (UInt64.ofNat j) := path_congr fun i hi => by
      rw [hsmall, hlarge, Nat.testBit_two_pow_add_gt hi]
    rw [path_cons, hlarge, hlow, Nat.testBit_two_pow_add_eq, Nat.testBit_lt_two_pow hj]
    rfl

/-- The leaves below a node are the values at the ends of all walks down from it. -/
theorem leaves_eq (g : Generator V) {words : List (CorrectionWord V)} (hwords : words ≠ []) (hlength : words.length < 64)
    (s : NodeState) : leaves g words s = (List.range (2 ^ words.length)).map fun j =>
      valueAt g s (words.zip (path words.length (UInt64.ofNat j))) := by
  fun_induction leaves g words s with
  | case1 => exact absurd rfl hwords
  | case2 word s c =>
    have hleft : path 1 (UInt64.ofNat 0) = [false] := by decide
    have hright : path 1 (UInt64.ofNat 1) = [true] := by decide
    change _ = [valueAt g s ([word].zip (path 1 (UInt64.ofNat 0))), valueAt g s ([word].zip (path 1 (UInt64.ofNat 1)))]
    rw [hleft, hright]
    rfl
  | case3 word rest s hrest c ihl ihr =>
    have hne : rest ≠ [] := fun h => hrest h
    have hlt : rest.length + 1 < 64 := hlength
    have hzip : ∀ j, rest.zip (path rest.length (UInt64.ofNat j)) ≠ [] := fun j => by
      rw [← List.length_pos_iff, List.length_zip, length_path, Nat.min_self]
      exact List.length_pos_iff.mpr hne
    rw [ihl hne (by omega), ihr hne (by omega), List.length_cons, pow_succ, mul_two, List.range_add, List.map_append,
      List.map_map]
    refine congrArg₂ (· ++ ·) (List.map_congr_left fun j hj => ?_) (List.map_congr_left fun j hj => ?_) <;>
      have hpath := path_cons_ofNat hlt (List.mem_range.mp hj)
    · rw [hpath.1, List.zip_cons_cons, valueAt_cons g s word false (hzip j)]
    · rw [Function.comp_apply, hpath.2, List.zip_cons_cons, valueAt_cons g s word true (hzip j)]

/-! ### Expanding a half -/

variable {F : PointFunction V} {k : KeyHalf V} {c : NodeCache}

/-- A party's share at a bucket below a parent is what the leaves below the parent give. -/
theorem share_below {bits depth j : ℕ} (parent : UInt64) (hbits : bits + depth ≤ 64) (hdepth : depth < 64)
    (hpos : 0 < depth) (hk : bits + depth ≤ k.bitLength) (hj : j < 2 ^ depth) :
    F.share k (bits + depth) (below depth parent j) =
      k.party.output (valueAt F.generator (F.node k bits parent)
        ((wordsBetween k bits depth).zip (path depth (UInt64.ofNat j)))) := by
  have hlength := length_wordsBetween hk
  have hne : (wordsBetween k bits depth).zip (path depth (UInt64.ofNat j)) ≠ [] := by
    rw [← List.length_pos_iff, List.length_zip, hlength, length_path, Nat.min_self]
    exact hpos
  have hsplit : steps k (bits + depth) (below depth parent j) =
      steps k bits parent ++ (wordsBetween k bits depth).zip (path depth (UInt64.ofNat j)) := by
    have htake : k.corrections.take (bits + depth) = k.corrections.take bits ++ wordsBetween k bits depth := by
      have h := (List.take_append_drop bits (k.corrections.take (bits + depth))).symm
      rwa [List.take_take, Nat.min_eq_left (Nat.le_add_right _ _)] at h
    have hbits : (k.corrections.take bits).length = (path bits parent).length := by
      have hk : bits + depth ≤ k.corrections.length := hk
      rw [List.length_take, length_path]
      omega
    rw [steps, path_below parent ‹_› hdepth hj, htake, List.zip_append hbits]
    rfl
  rw [share, hsplit, valueAt_append _ _ _ hne]
  rfl

theorem leaves_node {bits depth : ℕ} (parent : UInt64) (hbits : bits + depth ≤ 64) (hdepth : depth < 64)
    (hpos : 0 < depth) (hk : bits + depth ≤ k.bitLength) :
    (leaves F.generator (wordsBetween k bits depth) (F.node k bits parent)).map k.party.output =
      (List.range (2 ^ depth)).map fun j => F.share k (bits + depth) (below depth parent j) := by
  have hlength := length_wordsBetween hk
  have hne : wordsBetween k bits depth ≠ [] := List.ne_nil_of_length_pos (hlength.symm ▸ hpos)
  rw [leaves_eq F.generator hne (hlength.symm ▸ hdepth), hlength, List.map_map]
  refine List.map_congr_left fun j hj => ?_
  rw [share_below parent hbits hdepth hpos hk (List.mem_range.mp hj)]
  rfl

/-- A party's values below a parent of a plan, from left to right, where the parent is found with a cache. -/
def valuesBelow (F : PointFunction V) (k : KeyHalf V) (p : Plan) (c : NodeCache) (parent : UInt64) : List V :=
  (leaves F.generator ((k.corrections.take p.targetBits.toNat).drop p.parentBits.toNat)
    (F.nodeAt k p.parentBits.toNat parent c)).map k.party.output

/-- A party's value at the bucket of a plan with the given number, where the parent is found with a cache. -/
def valueOf (F : PointFunction V) (k : KeyHalf V) (p : Plan) (c : NodeCache) (i : ℕ) : V :=
  (F.valuesBelow k p c (p.parents.toList.getD (i / 2 ^ p.subtreeBits.toNat) 0)).getD (i % 2 ^ p.subtreeBits.toNat) 0

section Plan
variable {p : Plan}

theorem valuesBelow_keep (paths : List UInt64) : F.valuesBelow k p (F.keep k p.parentBits c paths) = F.valuesBelow k p c :=
  funext fun parent => by rw [valuesBelow, nodeAt_keep, valuesBelow]

theorem valueOf_keep (paths : List UInt64) : F.valueOf k p (F.keep k p.parentBits c paths) = F.valueOf k p c :=
  funext fun i => by rw [valueOf, valuesBelow_keep, valueOf]

/-- One parent after others that have been kept. -/
theorem expandParent_keep (values : Array V) (done : List UInt64) (parent : UInt64) :
    F.expandParent k p (values, F.keep k p.parentBits c done) parent =
      (values ++ F.valuesBelow k p c parent, F.keep k p.parentBits c (done ++ [parent])) := by
  simp only [expandParent, nodeAt_keep, ← keep_keep]
  refine congrArg (Prod.mk _) ?_
  conv_rhs => rw [keep]
  simp only [List.foldl_cons, List.foldl_nil, nodeAt_keep]

theorem foldl_expandParent (values : Array V) (done parents : List UInt64) :
    parents.foldl (F.expandParent k p) (values, F.keep k p.parentBits c done) =
      (values ++ parents.flatMap (F.valuesBelow k p c), F.keep k p.parentBits c (done ++ parents)) := by
  induction parents generalizing values done with
  | nil => simp
  | cons parent parents ih =>
    rw [List.foldl_cons, expandParent_keep, ih, List.append_assoc, List.singleton_append, List.flatMap_cons]
    refine congrArg (Prod.mk · _) (Array.toList_inj.mp ?_)
    simp only [Array.toList_appendList, List.append_assoc]

theorem expandParents_of_refused {e : Error} (h : F.checkKey k = .error e) (first last : ℕ) :
    F.expandParents k p first last c = .error e := by
  rw [expandParents, h]
  rfl

/-- All that an expansion can do if it succeeds: the half is of the domain, the plan goes down from a parent to a level
    of the domain, and the parents are kept. -/
theorem expandParents_ok {first last : ℕ} {values : Array V} {c' : NodeCache}
    (h : F.expandParents k p first last c = .ok (values, c')) :
    F.checkKey k = .ok () ∧ p.parentBits < p.targetBits ∧ p.targetBits ≤ F.domain.bitLength ∧
      values = (((p.parents.toList.take last).drop first).flatMap (F.valuesBelow k p c)).toArray ∧
      c' = F.keep k p.parentBits c ((p.parents.toList.take last).drop first) := by
  have hfold := foldl_expandParent (F := F) (k := k) (c := c) (p := p) #[] [] ((p.parents.toList.take last).drop first)
  rw [keep_nil, List.nil_append] at hfold
  rw [expandParents, bind_eq_ok] at h
  obtain ⟨⟨⟩, hk, h⟩ := h
  by_cases hbits : F.domain.bitLength < p.targetBits ∨ p.targetBits ≤ p.parentBits
  · rw [if_pos hbits] at h
    cases h
  rw [if_neg hbits] at h
  by_cases hrange : last < first ∨ p.parents.size < last
  · rw [if_pos hrange] at h
    cases h
  rw [if_neg hrange] at h
  obtain ⟨⟨⟩, -, h⟩ := bind_eq_ok.mp h
  cases h.symm.trans (congrArg Except.ok hfold)
  obtain ⟨hle, hlt⟩ := not_or.mp hbits
  exact ⟨hk, UInt32.not_le.mp hlt, UInt32.not_lt.mp hle, by simp, rfl⟩

/-- Lists of one length, one after the other, give a value for each number. -/
theorem flatMap_take_drop {α β : Type} (l : List α) (f : α → List β) (a : α) (b : β) {width : ℕ}
    (hwidth : ∀ x ∈ l, (f x).length = width) {first count : ℕ} (hlast : first + count ≤ l.length) :
    ((l.take (first + count)).drop first).flatMap f = (List.range' (first * width) (count * width)).map fun i =>
      (f (l.getD (i / width) a)).getD (i % width) b := by
  induction count with
  | zero => simp
  | succ count ih =>
    have hlt : first + count < l.length := hlast
    have hsnoc : (l.take (first + (count + 1))).drop first = (l.take (first + count)).drop first ++ [l[first + count]] := by
      rw [← Nat.add_assoc, List.take_succ_eq_append_getElem hlt, List.drop_append_of_le_length (by simp; omega)]
    have hlength := hwidth _ (List.getElem_mem hlt)
    rw [hsnoc, List.flatMap_append, ih (Nat.le_of_succ_le hlast), Nat.succ_mul, ← List.range'_append_1, List.map_append,
      ← Nat.add_mul, List.flatMap_singleton]
    refine congrArg _ (List.ext_getElem (by simp [hlength]) fun j hj hj' => ?_)
    have hj : j < width := hlength ▸ hj
    have hget : l.getD (first + count) a = l[first + count] := (List.getElem_eq_getD a).symm
    rw [List.getElem_map, List.getElem_range'_1, mul_add_div_of_lt hj, Nat.mul_add_mod_of_lt hj, hget]
    exact List.getElem_eq_getD b

theorem Plan.Sized.values_le {d : Domain} (hp : p.Sized d) (first : ℕ) {last : ℕ} (hlast : last ≤ p.parents.size) :
    (last - first) * 2 ^ p.subtreeBits.toNat ≤ 2 ^ 24 :=
  (Nat.mul_le_mul_right _ ((Nat.sub_le _ _).trans hlast)).trans hp.size_le

/-- There is room for the values of all buckets of a plan, since no value is large. -/
theorem makeRoom_of_sized {d : Domain} (hp : p.Sized d) (first : ℕ) {last : ℕ} (hlast : last ≤ p.parents.size) :
    makeRoom (last - first) p.subtreeBits (Payload.size V) = .ok () := by
  have hvalues := hp.values_le first hlast
  have hmod : (last - first) * Nat.pow 2 p.subtreeBits.toNat % UInt64.size = (last - first) * 2 ^ p.subtreeBits.toNat :=
    Nat.mod_eq_of_lt (hvalues.trans_lt (by decide))
  have hroom : Room.holds ((last - first) * 2 ^ p.subtreeBits.toNat) (Payload.size V) = true :=
    decide_eq_true ((Nat.mul_le_mul hvalues (Payload.size_le (V := V))).trans (by decide))
  rw [makeRoom, if_neg (UInt32.not_le.mpr (UInt32.lt_iff_toNat_lt.mpr hp.depth_lt))]
  dsimp only
  rw [hmod, if_pos hroom]

section Sized
variable (hp : p.Sized F.domain) (hk : F.checkKey k = .ok ())
include hp hk

omit [Payload V] in
theorem length_wordsBelow : ((k.corrections.take p.targetBits.toNat).drop p.parentBits.toNat).length =
    p.subtreeBits.toNat := by
  rw [← hp.toNat_subtreeBits]
  refine length_wordsBetween ?_
  rw [hp.toNat_subtreeBits, (checkKey_iff.mp hk).1]
  exact UInt32.le_iff_toNat_le.mp hp.bits_le

theorem length_valuesBelow (parent : UInt64) : (F.valuesBelow k p c parent).length = 2 ^ p.subtreeBits.toNat := by
  have hlength := length_wordsBelow hp hk
  have hne := List.ne_nil_of_length_pos (hlength.symm ▸ hp.depth_pos)
  rw [valuesBelow, List.length_map, leaves_eq F.generator hne (hlength.symm ▸ hp.depth_lt), List.length_map,
    List.length_range, hlength]

/-- Expanding a half of the domain over the buckets below a run of parents succeeds, whatever the cache holds: it gives
    a value for each bucket, and keeps the parents. -/
theorem expandParents_eq {first last : ℕ} (hle : first ≤ last) (hlast : last ≤ p.parents.size) :
    F.expandParents k p first last c =
      .ok (((List.range' (first * 2 ^ p.subtreeBits.toNat) ((last - first) * 2 ^ p.subtreeBits.toNat)).map
          (F.valueOf k p c)).toArray, F.keep k p.parentBits c ((p.parents.toList.take last).drop first)) := by
  have hbits : ¬(F.domain.bitLength < p.targetBits ∨ p.targetBits ≤ p.parentBits) :=
    not_or.mpr ⟨UInt32.not_lt.mpr hp.bits_le, UInt32.not_le.mpr hp.bits_lt⟩
  have hrange : ¬(last < first ∨ p.parents.size < last) := by omega
  have hroom := makeRoom_of_sized (V := V) hp first hlast
  have hfold := foldl_expandParent (F := F) (k := k) (c := c) (p := p) #[] [] ((p.parents.toList.take last).drop first)
  have hvalues : ((p.parents.toList.take last).drop first).flatMap (F.valuesBelow k p c) = (List.range'
      (first * 2 ^ p.subtreeBits.toNat) ((last - first) * 2 ^ p.subtreeBits.toNat)).map (F.valueOf k p c) := by
    obtain ⟨count, rfl⟩ := Nat.exists_eq_add_of_le hle
    rw [flatMap_take_drop p.parents.toList _ 0 0 (fun parent _ => length_valuesBelow hp hk parent) hlast,
      Nat.add_sub_cancel_left]
    rfl
  rw [keep_nil, List.nil_append, hvalues] at hfold
  simp only [expandParents, hk, if_neg hbits, if_neg hrange, hroom, hfold, bind, Except.bind]
  exact congrArg (fun values => Except.ok (values, _)) (by simp)

end Sized

/-! ### Sound caches -/

theorem valueOf_eq_empty (hc : F.Sound k c) (hbits : p.parentBits.toNat ≤ 64) : F.valueOf k p c = F.valueOf k p .empty :=
  funext fun i => by simp only [valueOf, valuesBelow, nodeAt_eq hc hbits, nodeAt_empty]

/-- With a sound cache the value at a bucket is the half's share of it. -/
theorem valueOf_eq_share (hp : p.Sized F.domain) (hk : F.checkKey k = .ok ()) (hc : F.Sound k c) {i : ℕ} (hi : i < p.size) :
    F.valueOf k p c i = F.share k p.targetBits.toNat (p.bucket i) := by
  have hbits := hp.toNat_subtreeBits
  have hle := hp.targetBits_le
  have hkey : p.parentBits.toNat + p.subtreeBits.toNat ≤ k.bitLength := by
    rw [hbits, (checkKey_iff.mp hk).1]
    exact UInt32.le_iff_toNat_le.mp hp.bits_le
  have hlt : i / 2 ^ p.subtreeBits.toNat < p.parents.toList.length := by
    rw [Nat.div_lt_iff_lt_mul (by positivity)]
    exact hi
  have hget : p.parents.getD (i / 2 ^ p.subtreeBits.toNat) 0 = p.parents.toList[i / 2 ^ p.subtreeBits.toNat] := by
    rw [Array.getD]
    exact dif_pos hlt
  have hleaves := leaves_node (F := F) p.parents.toList[i / 2 ^ p.subtreeBits.toNat] (hbits.le.trans hle) hp.depth_lt
    hp.depth_pos hkey
  rw [wordsBetween, hbits] at hleaves
  have hmod : i % 2 ^ p.subtreeBits.toNat < 2 ^ p.subtreeBits.toNat := Nat.mod_lt _ (by positivity)
  rw [valueOf, valuesBelow, nodeAt_eq hc (show p.parentBits.toNat ≤ 64 by omega), ← List.getElem_eq_getD (h := hlt) 0,
    hleaves, Plan.bucket_eq, hget, List.getD_eq_getElem?_getD, List.getElem?_map, List.getElem?_range hmod]
  rfl

end Plan

end PrivateHistogram.PointFunction
