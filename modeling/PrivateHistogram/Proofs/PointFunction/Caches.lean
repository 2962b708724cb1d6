import PrivateHistogram.Proofs.PointFunction.Walks

/-! Keeping nodes. A node that is found with a cache is found the same after nodes have been kept, whatever the cache
    holds, so nodes that are kept twice are kept once (`keep_keep`, `keep_of_subset`), and no node changes for it
    (`nodeAt_keep`). -/

namespace PrivateHistogram.PointFunction

/-! ### Insertions -/

namespace NodeCache
variable {c : NodeCache} {bits : UInt32} {path : UInt64}

theorem insert_of_get? {held : NodeState} (h : c.get? bits path = some held) (s : NodeState) :
    c.insert bits path s = c := by
  obtain ⟨levels⟩ := c
  obtain ⟨level, hlevel, hpath⟩ := Option.bind_eq_some_iff.mp h
  have hsame : level.insertIfNew path s = level := by
    refine Std.ExtTreeMap.ext_getElem? fun path' => ?_
    rw [Std.ExtTreeMap.getElem?_insertIfNew, if_neg]
    rintro ⟨-, habsent⟩
    exact habsent (Std.ExtTreeMap.mem_iff_isSome_getElem?.mpr (by rw [hpath]; rfl))
  refine congrArg NodeCache.mk (Std.ExtTreeMap.ext_getElem? fun bits' => ?_)
  rw [Std.ExtTreeMap.getElem?_alter]
  split
  · rename_i hbits
    obtain rfl := Std.LawfulEqCmp.eq_of_compare hbits
    change some ((Option.getD levels[bits]? ∅).insertIfNew path s) = levels[bits]?
    rw [show levels[bits]? = some level from hlevel, Option.getD_some, hsame]
  · rfl

theorem get?_foldl_insert (c : NodeCache) (bits : UInt32) (found : UInt64 → NodeState) (paths : List UInt64)
    (bits' : UInt32) (path' : UInt64) :
    (paths.foldl (fun kept q => kept.insert bits q (found q)) c).get? bits' path' =
      if bits = bits' ∧ path' ∈ paths then some ((c.get? bits path').getD (found path')) else c.get? bits' path' := by
  induction paths generalizing c with
  | nil => simp
  | cons q paths ih =>
    rw [List.foldl_cons, ih, get?_insert, get?_insert]
    by_cases hbits : bits = bits'
    · subst hbits
      by_cases hq : q = path'
      · subst hq
        by_cases hmem : q ∈ paths <;> simp [hmem]
      · simp [hq, Ne.symm hq]
    · simp [hbits]

end NodeCache

/-! ### Nodes -/

variable {V : Type} {k : KeyHalf V} {c : NodeCache} {bits : UInt32}

theorem deepestKept_congr {c' : NodeCache} {n : ℕ} {p : UInt64} {depth : ℕ}
    (h : ∀ d, 0 < d → d ≤ depth → c.get? (UInt32.ofNat d) (ancestor n p d) = c'.get? (UInt32.ofNat d) (ancestor n p d)) :
    deepestKept k c n p depth = deepestKept k c' n p depth := by
  induction depth with
  | zero => rfl
  | succ depth ih =>
    rw [deepestKept, deepestKept, h _ (Nat.succ_pos depth) (le_refl _), ih fun d hpos hd => h d hpos (Nat.le_succ_of_le hd)]

theorem deepestKept_empty (n : ℕ) (p : UInt64) (depth : ℕ) : deepestKept k .empty n p depth = (0, k.root) := by
  induction depth with
  | zero => rfl
  | succ depth ih =>
    have hnone : NodeCache.empty.get? (UInt32.ofNat (depth + 1)) (ancestor n p (depth + 1)) = none := by
      simp [NodeCache.get?, NodeCache.empty]
    rw [deepestKept, hnone, ih]

variable [Payload V] {F : PointFunction V}

theorem nodeAt_empty (n : ℕ) (p : UInt64) : F.nodeAt k n p .empty = F.node k n p := by
  rw [nodeAt, deepestKept_empty]
  rfl

theorem nodeAt_of_get? (hbits : 0 < bits) {p : UInt64} {s : NodeState} (h : c.get? bits p = some s) :
    F.nodeAt k bits.toNat p c = s := by
  obtain ⟨n, hn⟩ := Nat.exists_eq_add_one_of_ne_zero (UInt32.lt_iff_toNat_lt.mp hbits).ne'
  have hget : c.get? (UInt32.ofNat (n + 1)) (ancestor (n + 1) p (n + 1)) = some s := by
    rw [← hn, UInt32.ofNat_toNat, ancestor_self, h]
  rw [nodeAt, hn, deepestKept, hget]
  have hdone : ((k.corrections.take (n + 1)).zip (path (n + 1) p)).drop (n + 1) = [] :=
    List.drop_eq_nil_of_le (by rw [List.length_zip, length_path]; exact Nat.min_le_right _ _)
  simp only [hdone]
  rfl

/-- The cache after some nodes of one depth have been kept in it, each as it is found with the cache. The root need not
    be kept. -/
def keep (F : PointFunction V) (k : KeyHalf V) (bits : UInt32) (c : NodeCache) (paths : List UInt64) : NodeCache :=
  if 0 < bits then paths.foldl (fun kept q => kept.insert bits q (F.nodeAt k bits.toNat q c)) c else c

@[simp] theorem keep_nil : F.keep k bits c [] = c := ite_self c

/-- Keeping nodes does not change what is found. -/
theorem nodeAt_keep (paths : List UInt64) (p : UInt64) :
    F.nodeAt k bits.toNat p (F.keep k bits c paths) = F.nodeAt k bits.toNat p c := by
  rw [keep]
  split
  · rename_i hbits
    by_cases hp : p ∈ paths
    · -- The node has been kept as it was found.
      refine nodeAt_of_get? hbits ?_
      rw [NodeCache.get?_foldl_insert, if_pos ⟨rfl, hp⟩]
      cases hget : c.get? bits p with
      | none => rfl
      | some s => rw [nodeAt_of_get? hbits hget]; rfl
    · have hsame : deepestKept k (paths.foldl (fun kept q => kept.insert bits q (F.nodeAt k bits.toNat q c)) c) bits.toNat p
          bits.toNat = deepestKept k c bits.toNat p bits.toNat := by
        refine deepestKept_congr fun d hpos hd => ?_
        rw [NodeCache.get?_foldl_insert, if_neg]
        rintro ⟨rfl, hmem⟩
        have hdepth : (UInt32.ofNat d).toNat = d := UInt32.toNat_ofNat_of_lt' (hd.trans_lt (UInt32.toNat_lt _))
        rw [hdepth, ancestor_self] at hmem
        exact hp hmem
      rw [nodeAt, hsame]
      rfl
  · rfl

theorem keep_keep (paths paths' : List UInt64) :
    F.keep k bits (F.keep k bits c paths) paths' = F.keep k bits c (paths ++ paths') := by
  by_cases hbits : 0 < bits
  · simp only [keep, if_pos hbits, List.foldl_append]
    have hfound (q : UInt64) : F.nodeAt k bits.toNat q (F.keep k bits c paths) = F.nodeAt k bits.toNat q c :=
      nodeAt_keep paths q
    simp only [keep, if_pos hbits] at hfound
    simp only [hfound]
  · simp only [keep, if_neg hbits]

/-- Nodes that have been kept are not kept again. -/
theorem keep_of_subset {paths paths' : List UInt64} (h : paths' ⊆ paths) :
    F.keep k bits c (paths ++ paths') = F.keep k bits c paths := by
  by_cases hbits : 0 < bits
  · simp only [keep, if_pos hbits, List.foldl_append]
    induction paths' with
    | nil => rfl
    | cons q paths' ih =>
      obtain ⟨hq, h⟩ := List.cons_subset.mp h
      have hget := NodeCache.get?_foldl_insert c bits (fun q => F.nodeAt k bits.toNat q c) paths bits q
      rw [if_pos ⟨rfl, hq⟩] at hget
      rw [List.foldl_cons, NodeCache.insert_of_get? hget, ih h]
  · simp only [keep, if_neg hbits]

/-- Keeping a run of nodes that overlaps or follows those kept before. -/
theorem keep_take {paths : List UInt64} {first done last : ℕ} (hfirst : first ≤ done) (hdone : done ≤ last) :
    F.keep k bits (F.keep k bits c (paths.take done)) ((paths.take last).drop first) =
      F.keep k bits c (paths.take last) := by
  have htake : (paths.take last).take done = paths.take done := by rw [List.take_take, Nat.min_eq_left hdone]
  have hsplit : (paths.take last).drop first = (paths.take done).drop first ++ (paths.take last).drop done := by
    have hagain := List.take_append_drop (done - first) ((paths.take last).drop first)
    rwa [List.take_drop, List.drop_drop, Nat.add_sub_cancel' hfirst, htake, eq_comm] at hagain
  rw [hsplit, ← keep_keep, keep_keep (paths.take done), keep_of_subset (List.drop_subset _ _), keep_keep, ← htake,
    List.take_append_drop]

theorem Sound.keep (h : F.Sound k c) (hbits : bits.toNat ≤ 64) (paths : List UInt64) :
    F.Sound k (F.keep k bits c paths) := by
  rw [PointFunction.keep]
  split
  · simp only [nodeAt_eq h hbits]
    induction paths generalizing c with
    | nil => exact h
    | cons q paths ih => exact ih h.insert
  · exact h

end PrivateHistogram.PointFunction
