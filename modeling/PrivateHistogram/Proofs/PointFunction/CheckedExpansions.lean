import PrivateHistogram.Proofs.PointFunction.CheckedPlans
import PrivateHistogram.Proofs.PointFunction.Covers

/-! Expansions of key halves with everything checked that could go out of range: on the way down to a parent the amounts
    of the shifts and the number of each level, and below it the number of each level again. They are the expansions
    without the checks, for every plan that can be made and whatever is in the cache (`Checked.expandParents_gives`). -/

namespace PrivateHistogram.PointFunction.Checked

open Guarded

variable {V : Type}

/-! ### The way down to a parent -/

/-- The deepest ancestor that is kept, at most at the given depth, and its depth; or the root. -/
def deepestKept (k : KeyHalf V) (c : NodeCache) (bits : UInt32) (path : UInt64) : ℕ → Option (ℕ × NodeState)
  | 0 => some (0, k.root)
  | depth + 1 => do
    let ancestor ← Word.shiftRight? path (← sub? bits (.ofNat (depth + 1)))
    match c.get? (.ofNat (depth + 1)) ancestor with
    | some s => some (depth + 1, s)
    | none => deepestKept k c bits path depth

variable [Payload V]

/-- The node on the way to a path that follows one at the given depth. -/
def down (g : Generator V) (k : KeyHalf V) (bits : UInt32) (path : UInt64) (s : NodeState) (depth : ℕ) :
    Option NodeState := do
  let turn ← Word.shiftRight? path (← sub? (← sub? bits 1) (.ofNat depth))
  let word ← k.corrections[depth]?
  let bit ← [false, true][(turn &&& 1).toNat]?
  return (s.child g (g.extend s.seed) word bit).1

def nodeAt (F : PointFunction V) (k : KeyHalf V) (bits : UInt32) (path : UInt64) (c : NodeCache) : Option NodeState := do
  let (depth, s) ← deepestKept k c bits path bits.toNat
  (List.range' depth (bits.toNat - depth)).foldlM (down F.generator k bits path) s

section Node
variable {F : PointFunction V} {k : KeyHalf V} {c : NodeCache} {bits : UInt32} (hbits : bits.toNat ≤ 64) (path : UInt64)
include hbits

theorem sub_depth {depth : ℕ} (hdepth : depth ≤ bits.toNat) :
    ∃ amount, sub? bits (.ofNat depth) = some amount ∧ amount.toNat = bits.toNat - depth := by
  have hword : (UInt32.ofNat depth).toNat = depth := UInt32.toNat_ofNat_of_lt' ((hdepth.trans hbits).trans_lt (by decide))
  have hle : UInt32.ofNat depth ≤ bits := UInt32.le_iff_toNat_le.mpr (hword.symm ▸ hdepth)
  exact ⟨_, sub_of_le hle, by rw [UInt32.toNat_sub_of_le _ _ hle, hword]⟩

omit [Payload V] in
theorem deepestKept_eq {depth : ℕ} (hdepth : depth ≤ bits.toNat) :
    deepestKept k c bits path depth = some (PointFunction.deepestKept k c bits.toNat path depth) ∧
      (PointFunction.deepestKept k c bits.toNat path depth).1 ≤ depth := by
  induction depth with
  | zero => exact ⟨rfl, le_refl _⟩
  | succ depth ih =>
    obtain ⟨hsome, hle⟩ := ih (Nat.le_of_succ_le hdepth)
    obtain ⟨amount, hsub, hamount⟩ := sub_depth hbits hdepth
    have hlt : amount.toNat < 64 := by omega
    have hancestor : path >>> amount.toUInt64 = ancestor bits.toNat path (depth + 1) := by
      rw [ancestor, ← hamount, UInt64.ofNat_uInt32ToNat]
    simp only [deepestKept, PointFunction.deepestKept, hsub, Word.shiftRight_eq (UInt32.lt_iff_toNat_lt.mpr hlt), hancestor,
      Option.bind_eq_bind, Option.bind_some]
    cases c.get? (.ofNat (depth + 1)) (ancestor bits.toNat path (depth + 1)) with
    | some s => exact ⟨rfl, le_refl _⟩
    | none => exact ⟨hsome, Nat.le_succ_of_le hle⟩

theorem down_eq {depth : ℕ} (hdepth : depth < bits.toNat) {word : CorrectionWord V}
    (hword : k.corrections[depth]? = some word) (s : NodeState) : down F.generator k bits path s depth =
      some (s.child F.generator (F.generator.extend s.seed) word (path.toNat.testBit (bits.toNat - 1 - depth))).1 := by
  have hone : (1 : UInt32) ≤ bits := UInt32.le_iff_toNat_le.mpr (Nat.one_le_of_lt hdepth)
  have hpred : (bits - 1).toNat = bits.toNat - 1 := UInt32.toNat_sub_of_le _ _ hone
  obtain ⟨amount, hsub, hamount⟩ := sub_depth (show (bits - 1).toNat ≤ 64 by omega) (show depth ≤ (bits - 1).toNat by omega)
  have hlt : amount < 64 := UInt32.lt_iff_toNat_lt.mpr (show amount.toNat < 64 by omega)
  simp only [down, sub_of_le hone, hsub, Word.shiftRight_eq hlt, hword, Word.getElem?_bit hlt, hamount, hpred,
    Option.bind_eq_bind, Option.bind_some]
  rfl

theorem foldlM_down (hk : bits.toNat ≤ k.corrections.length) {depth count : ℕ} (hcount : depth + count = bits.toNat)
    (s : NodeState) : (List.range' depth count).foldlM (down F.generator k bits path) s =
      some (descend F.generator s ((steps k bits.toNat path).drop depth)) := by
  induction count generalizing depth s with
  | zero =>
    have hnil : (steps k bits.toNat path).drop depth = [] :=
      List.drop_eq_nil_of_le (by rw [steps, List.length_zip, length_path]; omega)
    rw [hnil]
    rfl
  | succ count ih =>
    have hlt : depth < k.corrections.length := by omega
    have hcons : (steps k bits.toNat path).drop depth =
        (k.corrections[depth], path.toNat.testBit (bits.toNat - 1 - depth)) ::
          (steps k bits.toNat path).drop (depth + 1) := by
      rw [List.drop_eq_getElem_cons (by rw [steps, List.length_zip, length_path, List.length_take]; omega)]
      simp only [steps, List.getElem_zip, List.getElem_take, getElem_path]
    rw [List.range'_succ, List.foldlM_cons, down_eq hbits path (by omega) (List.getElem?_eq_getElem hlt), hcons]
    exact ih (by omega) _

theorem nodeAt_eq (hk : bits.toNat ≤ k.corrections.length) :
    nodeAt F k bits path c = some (F.nodeAt k bits.toNat path c) := by
  obtain ⟨hkept, hle⟩ := deepestKept_eq (k := k) (c := c) hbits path (le_refl _)
  rw [nodeAt, PointFunction.nodeAt, hkept]
  exact foldlM_down hbits path hk (Nat.add_sub_cancel' hle) _

end Node

/-! ### The levels below a parent -/

/-- The children of the nodes of a level, from left to right, each with its value. -/
def children (g : Generator V) (word : CorrectionWord V) (nodes : List NodeState) : List (NodeState × V) :=
  nodes.flatMap fun s =>
    let c := g.extend s.seed
    [s.child g c word false, s.child g c word true]

/-- Goes on from the nodes of a level to their children, and puts out the values of the last level. -/
def level (g : Generator V) (k : KeyHalf V) (last : ℕ) (found : Array V × List NodeState) (depth : ℕ) :
    Option (Array V × List NodeState) := do
  let word ← k.corrections[depth]?
  let next := children g word found.2
  return if depth + 1 = last then (found.1 ++ next.map Prod.snd, []) else (found.1, next.map Prod.fst)

/-- The values below a node, after those found so far. -/
def subtree (g : Generator V) (k : KeyHalf V) (s : NodeState) (first last : ℕ) (out : Array V) : Option (Array V) := do
  let (out, _) ← (List.range' first (last - first)).foldlM (level g k last) (out, [s])
  return out

theorem flatMap_leaves_singleton (g : Generator V) (word : CorrectionWord V) (nodes : List NodeState) :
    nodes.flatMap (leaves g [word]) = (children g word nodes).map Prod.snd := by
  rw [children, List.map_flatMap]
  rfl

theorem flatMap_leaves_cons (g : Generator V) (word : CorrectionWord V) {rest : List (CorrectionWord V)} (hrest : rest ≠ [])
    (nodes : List NodeState) :
    nodes.flatMap (leaves g (word :: rest)) = ((children g word nodes).map Prod.fst).flatMap (leaves g rest) := by
  obtain ⟨next, rest, rfl⟩ := List.exists_cons_of_ne_nil hrest
  rw [children, List.map_flatMap, List.flatMap_assoc]
  simp only [leaves, List.map_cons, List.map_nil, List.flatMap_cons, List.flatMap_nil, List.append_nil]

omit [Payload V] in
/-- There is a correction word for each level above the last. -/
theorem exists_correction {k : KeyHalf V} {first last : ℕ} (hfirst : first < last) (hlast : last ≤ k.corrections.length) :
    ∃ word, k.corrections[first]? = some word ∧
      (k.corrections.take last).drop first = word :: (k.corrections.take last).drop (first + 1) := by
  have hlt : first < k.corrections.length := by omega
  refine ⟨k.corrections[first], List.getElem?_eq_getElem hlt, ?_⟩
  rw [List.drop_eq_getElem_cons (by rw [List.length_take]; omega), List.getElem_take]

/-- Level after level, the values of the leaves are put out from left to right. -/
theorem foldlM_level {g : Generator V} {k : KeyHalf V} {last : ℕ} (hlast : last ≤ k.corrections.length) (out : Array V)
    {first count : ℕ} (hcount : first + (count + 1) = last) (nodes : List NodeState) :
    (List.range' first (count + 1)).foldlM (level g k last) (out, nodes) =
      some (out ++ nodes.flatMap (leaves g ((k.corrections.take last).drop first)), []) := by
  obtain ⟨word, hword, hwords⟩ := exists_correction (show first < last by omega) hlast
  induction count generalizing first nodes word with
  | zero =>
    have hnil : (k.corrections.take last).drop (first + 1) = [] := List.drop_eq_nil_of_le (by rw [List.length_take]; omega)
    rw [List.range'_one, List.foldlM_cons, level, hword, hwords, hnil, flatMap_leaves_singleton]
    simp [hcount]
  | succ count ih =>
    obtain ⟨next, hnext, hrest⟩ := exists_correction (show first + 1 < last by omega) hlast
    rw [List.range'_succ, List.foldlM_cons, level, hword, hwords,
      flatMap_leaves_cons g word (hrest ▸ List.cons_ne_nil _ _), ← ih (by omega) _ next hnext hrest]
    simp only [Option.bind_eq_bind, Option.bind_some, if_neg (show ¬first + 1 = last by omega)]
    rfl

theorem subtree_eq {g : Generator V} {k : KeyHalf V} {first last : ℕ} (hfirst : first < last)
    (hlast : last ≤ k.corrections.length) (s : NodeState) (out : Array V) :
    subtree g k s first last out = some (out ++ leaves g ((k.corrections.take last).drop first) s) := by
  obtain ⟨count, hcount⟩ := Nat.exists_eq_add_one_of_ne_zero (Nat.sub_ne_zero_of_lt hfirst)
  rw [subtree, hcount, foldlM_level hlast out (by omega), List.flatMap_singleton]
  rfl

/-! ### All parents -/

/-- The values below one parent of a plan, after those found so far. The parent is kept, unless it is the root. -/
def expandParent (F : PointFunction V) (k : KeyHalf V) (p : Plan) (found : Array V × NodeCache) (parent : UInt64) :
    Option (Array V × NodeCache) := do
  let (out, c) := found
  let s ← nodeAt F k p.parentBits parent c
  let c := if 0 < p.parentBits then c.insert p.parentBits parent s else c
  return (← subtree F.generator k s p.parentBits.toNat p.targetBits.toNat out, c)

/-- A party's shares at the buckets below the parents with the numbers `first` up to `last`, in order, and the cache
    afterwards. -/
def expandParents (F : PointFunction V) (k : KeyHalf V) (p : Plan) (first last : ℕ) (c : NodeCache) :
    Guarded Error (Array V × NodeCache) := do
  F.checkKey k
  if F.domain.bitLength < p.targetBits ∨ p.targetBits ≤ p.parentBits then
    throw (.invalidParameters s!"cannot expand from {p.parentBits.toNat} to {p.targetBits.toNat} bits")
  if last < first ∨ p.parents.size < last then
    throw (.invalidParameters s!"parent range {first}..{last} exceeds {p.parents.size} parents")
  let depth ← (sub? p.targetBits p.parentBits : Option UInt32)
  -- The number of values that room is made for.
  let _ ← (Size.shiftLeft? (last - first) depth : Option ℕ)
  let (out, c) ← (((p.parents.toList.take last).drop first).foldlM (expandParent F k p) (#[], c) :
    Option (Array V × NodeCache))
  return (out.map k.party.output, c)

/-- The numbers, from the first up to the second, of the parents that cover a run of buckets. -/
def parentsCovering (p : Plan) (start stop : ℕ) : Option (ℕ × ℕ) :=
  if start < stop then do
    let depth ← sub? p.targetBits p.parentBits
    return (← Size.shiftRight? start depth, (← Size.shiftRight? (← sub? stop 1) depth) + 1)
  else some (0, 0)

section Sized
variable {F : PointFunction V} {k : KeyHalf V} {p : Plan} (hp : p.Sized F.domain)
include hp

omit [Payload V] in
theorem sub_parentBits : sub? p.targetBits p.parentBits = some p.subtreeBits := sub_of_le (UInt32.le_of_lt hp.bits_lt)

omit [Payload V] in
theorem parentsCovering_eq (start stop : ℕ) : parentsCovering p start stop = some (p.parentsCovering start stop) := by
  have hdepth : p.subtreeBits < 64 := UInt32.lt_iff_toNat_lt.mpr hp.depth_lt
  rw [parentsCovering]
  by_cases hlt : start < stop
  · rw [if_pos hlt, sub_parentBits hp, sub_of_le (Nat.one_le_of_lt hlt), Plan.parentsCovering_of_lt hlt]
    simp only [Option.bind_eq_bind, Option.bind_some, Size.shiftRight_eq hdepth]
    rfl
  · rw [if_neg hlt, Plan.parentsCovering_of_le (Nat.not_lt.mp hlt)]

/-- The values are found with the signs of the first party. -/
theorem exists_expandParent (hk : F.checkKey k = .ok ()) (out : Array V) (c : NodeCache) (parent : UInt64) :
    ∃ out' c', expandParent F k p (out, c) parent = some (out', c') ∧
      F.expandParent k p (out.map k.party.output, c) parent = (out'.map k.party.output, c') := by
  have hlength : p.targetBits.toNat ≤ k.corrections.length := by
    rw [show k.corrections.length = F.domain.bitLength.toNat from (checkKey_iff.mp hk).1]
    exact UInt32.le_iff_toNat_le.mp hp.bits_le
  have hlt := UInt32.lt_iff_toNat_lt.mp hp.bits_lt
  have hle := hp.targetBits_le
  let s := F.nodeAt k p.parentBits.toNat parent c
  refine ⟨out ++ leaves F.generator ((k.corrections.take p.targetBits.toNat).drop p.parentBits.toNat) s,
    if 0 < p.parentBits then c.insert p.parentBits parent s else c, ?_, ?_⟩
  · rw [expandParent, nodeAt_eq (by omega) parent (by omega), Option.bind_eq_bind, Option.bind_some, subtree_eq hlt hlength]
    rfl
  · rw [PointFunction.expandParent]
    refine Prod.ext (Array.toList_inj.mp ?_) rfl
    simp [s]

theorem exists_foldlM_expandParent (hk : F.checkKey k = .ok ()) (out : Array V) (c : NodeCache) (parents : List UInt64) :
    ∃ out' c', parents.foldlM (expandParent F k p) (out, c) = some (out', c') ∧
      parents.foldl (F.expandParent k p) (out.map k.party.output, c) = (out'.map k.party.output, c') := by
  induction parents generalizing out c with
  | nil => exact ⟨out, c, rfl, rfl⟩
  | cons parent parents ih =>
    obtain ⟨out, c, hchecked, hmodel⟩ := exists_expandParent hp hk out c parent
    rw [List.foldlM_cons, List.foldl_cons, hchecked, hmodel]
    exact ih out c

/-- The halves are expanded as without the checks, whatever is in the cache and whether or not the parents are there. -/
theorem expandParents_gives (first last : ℕ) (c : NodeCache) :
    (expandParents F k p first last c).Gives (F.expandParents k p first last c) := by
  rw [expandParents, PointFunction.expandParents]
  refine Gives.bind (Gives.lift _) fun _ hk => ?_
  have hbits : ¬(F.domain.bitLength < p.targetBits ∨ p.targetBits ≤ p.parentBits) :=
    not_or.mpr ⟨UInt32.not_lt.mpr hp.bits_le, UInt32.not_le.mpr hp.bits_lt⟩
  rw [if_neg hbits, if_neg hbits]
  by_cases hrange : last < first ∨ p.parents.size < last
  · rw [if_pos hrange, if_pos hrange]
    exact Gives.throw _
  rw [if_neg hrange, if_neg hrange]
  have hlast : last ≤ p.parents.size := Nat.not_lt.mp (not_or.mp hrange).2
  have hdepth : p.subtreeBits < 64 := UInt32.lt_iff_toNat_lt.mpr hp.depth_lt
  obtain ⟨out, c', hchecked, hmodel⟩ := exists_foldlM_expandParent hp hk #[] c ((p.parents.toList.take last).drop first)
  rw [makeRoom_of_sized hp first hlast]
  refine Gives.of_some (sub_parentBits hp) ?_
  refine Gives.of_some (Size.shiftLeft_eq hdepth ((hp.values_le first hlast).trans_lt (by decide))) ?_
  refine Gives.of_some hchecked ?_
  rw [Array.map_empty] at hmodel
  rw [hmodel]
  exact Gives.pure _

end Sized

end PrivateHistogram.PointFunction.Checked
