import PrivateHistogram.Proofs.PointFunction.Paths

/-! Walks down the tree. The node at a bucket is reached from the root by the correction words of the levels
    on the way, whatever is kept of it in a cache, as long as the cache holds only nodes that were reached
    with the same half. So evaluation at a bucket is the value at the end of one walk (`evaluate_eq`). -/

namespace PrivateHistogram.PointFunction

theorem Domain.bitLength_le (d : Domain) : d.bitLength.toNat ≤ 64 := UInt32.le_iff_toNat_le.mp d.valid.last_le

variable {V : Type}

/-- The way to a bucket, each step with the correction word of its level. -/
def steps (k : KeyHalf V) (bits : Nat) (p : UInt64) : List (CorrectionWord V × Bool) :=
  (k.corrections.take bits).zip (path bits p)

theorem take_steps (k : KeyHalf V) {bits depth : Nat} (p : UInt64) (hd : depth ≤ bits) (h : bits - depth < 64) :
    (steps k bits p).take depth = steps k depth (ancestor bits p depth) := by
  rw [steps, steps, List.zip, List.take_zipWith, List.take_take, Nat.min_eq_left hd, path_ancestor p hd h]

theorem steps_succ {k : KeyHalf V} {bits : Nat} {word : CorrectionWord V} (hw : k.corrections[bits]? = some word)
    (p : UInt64) : steps k (bits + 1) p = steps k bits (p >>> 1) ++ [(word, p.toNat.testBit 0)] := by
  obtain ⟨hlt, rfl⟩ := List.getElem?_eq_some_iff.mp hw
  rw [steps, steps, path_succ, List.take_succ_eq_append_getElem hlt, List.zip_append (by simp [hlt.le])]
  rfl

theorem checkKey_iff {F : PointFunction V} {k : KeyHalf V} : F.checkKey k = .ok () ↔
    k.bitLength = F.domain.bitLength.toNat ∧ k.hierarchy = F.domain.hierarchy.sizes := by
  unfold checkKey
  split
  · rename_i h
    exact ⟨fun h' => by simp at h', fun h' => absurd h'.1 h⟩
  · rename_i h
    split
    · rename_i h₂
      exact ⟨fun h' => by simp at h', fun h' => absurd h'.2 h₂⟩
    · rename_i h₂
      exact ⟨fun _ => ⟨not_not.mp h, not_not.mp h₂⟩, fun _ => rfl⟩

variable [Payload V]

theorem descend_append (g : Generator V) (s : NodeState) (l₁ l₂ : List (CorrectionWord V × Bool)) :
    descend g s (l₁ ++ l₂) = descend g (descend g s l₁) l₂ := by
  induction l₁ generalizing s with
  | nil => rfl
  | cons x l₁ ih => exact ih _

/-- The node of a bucket, reached from the root. -/
def node (F : PointFunction V) (k : KeyHalf V) (bits : Nat) (p : UInt64) : NodeState :=
  descend F.generator k.root (steps k bits p)

/-- A cache holds only nodes that are reached with the given half. -/
def Sound (F : PointFunction V) (k : KeyHalf V) (c : NodeCache) : Prop :=
  ∀ (bits : UInt32) (p : UInt64) (s : NodeState), c.get? bits p = some s → s = F.node k bits.toNat p

variable {F : PointFunction V} {k : KeyHalf V} {c : NodeCache}

theorem sound_empty (F : PointFunction V) (k : KeyHalf V) : F.Sound k .empty := fun bits p s h => by
  simp [NodeCache.get?, NodeCache.empty] at h

theorem Sound.insert (h : F.Sound k c) {bits : UInt32} {p : UInt64} :
    F.Sound k (c.insert bits p (F.node k bits.toNat p)) := fun bits' p' s hs => by
  rw [NodeCache.get?_insert] at hs
  split at hs
  · rename_i heq
    obtain ⟨rfl, rfl⟩ := heq
    cases hc : c.get? bits p with
    | none => simpa [hc] using hs.symm
    | some s' => exact h bits p s (by simpa [hc] using hs)
  · exact h bits' p' s hs

/-- The search for a kept node ends at the root or at an ancestor, with the node of that ancestor. -/
theorem deepestKept_eq (h : F.Sound k c) {bits : Nat} (hb : bits ≤ 64) (p : UInt64) :
    ∀ {depth : Nat}, depth ≤ bits → ∃ d ≤ bits,
      deepestKept k c bits p depth = (d, descend F.generator k.root ((steps k bits p).take d))
  | 0, _ => ⟨0, Nat.zero_le _, rfl⟩
  | depth + 1, hd => by
    rw [deepestKept]
    cases hc : c.get? (UInt32.ofNat (depth + 1)) (ancestor bits p (depth + 1)) with
    | none => exact deepestKept_eq h hb p (Nat.le_of_succ_le hd)
    | some s =>
      have hu : (UInt32.ofNat (depth + 1)).toNat = depth + 1 :=
        UInt32.toNat_ofNat_of_lt' (Nat.lt_of_le_of_lt (Nat.le_trans hd hb) (by decide))
      refine ⟨depth + 1, hd, ?_⟩
      rw [take_steps k p hd (by omega), h _ _ _ hc, hu]
      rfl

theorem nodeAt_eq (h : F.Sound k c) {bits : Nat} (hb : bits ≤ 64) (p : UInt64) :
    F.nodeAt k bits p c = F.node k bits p := by
  obtain ⟨d, -, hs⟩ := deepestKept_eq h hb p (Nat.le_refl bits)
  rw [nodeAt, hs]
  change descend F.generator (descend F.generator k.root ((steps k bits p).take d)) ((steps k bits p).drop d) = _
  rw [← descend_append, List.take_append_drop, node]

/-- The value at the end of a walk. -/
def valueAt (g : Generator V) : NodeState → List (CorrectionWord V × Bool) → V
  | _, [] => 0
  | s, [(word, bit)] => (s.child g (g.extend s.seed) word bit).2
  | s, (word, bit) :: step :: rest => valueAt g (s.child g (g.extend s.seed) word bit).1 (step :: rest)

theorem valueAt_cons (g : Generator V) (s : NodeState) (word : CorrectionWord V) (bit : Bool)
    {l : List (CorrectionWord V × Bool)} (hl : l ≠ []) :
    valueAt g s ((word, bit) :: l) = valueAt g (s.child g (g.extend s.seed) word bit).1 l := by
  cases l with
  | nil => exact absurd rfl hl
  | cons step l => rfl

theorem valueAt_congr (g : Generator V) {s s' : NodeState} {word : CorrectionWord V} {bit : Bool}
    (h : s.child g (g.extend s.seed) word bit = s'.child g (g.extend s'.seed) word bit)
    (l : List (CorrectionWord V × Bool)) : valueAt g s ((word, bit) :: l) = valueAt g s' ((word, bit) :: l) := by
  cases l with
  | nil => exact congrArg Prod.snd h
  | cons step l => rw [valueAt, valueAt, h]

theorem valueAt_append_singleton (g : Generator V) (s : NodeState) (l : List (CorrectionWord V × Bool))
    (word : CorrectionWord V) (bit : Bool) :
    valueAt g s (l ++ [(word, bit)]) =
      ((descend g s l).child g (g.extend (descend g s l).seed) word bit).2 := by
  induction l generalizing s with
  | nil => rfl
  | cons x l ih =>
    cases l with
    | nil => rfl
    | cons y l => exact ih _

/-- A party's share of the function at a bucket: the value at the end of the walk to it. -/
def share (F : PointFunction V) (k : KeyHalf V) (bits : Nat) (p : UInt64) : V :=
  k.party.output (valueAt F.generator k.root (steps k bits p))

/-- The child of a node that belongs to a bucket has the value at the end of the walk to the bucket. -/
theorem valueAt_steps {bits : Nat} {word : CorrectionWord V} (hw : k.corrections[bits]? = some word) (p : UInt64) :
    valueAt F.generator k.root (steps k (bits + 1) p) =
      ((F.node k bits (p >>> 1)).child F.generator (F.generator.extend (F.node k bits (p >>> 1)).seed) word
        (p.toNat.testBit 0)).2 := by
  rw [steps_succ hw, valueAt_append_singleton]
  rfl

/-- Evaluation of a half of the same hierarchy succeeds at every bucket of the domain, and its result does
    not depend on what a sound cache holds. -/
theorem evaluate_eq (hk : F.checkKey k = .ok ()) (hc : F.Sound k c) {bits : UInt32} (hpos : 0 < bits)
    (hle : bits ≤ F.domain.bitLength) {p : UInt64} (hp : p.toNat < 2 ^ bits.toNat) :
    F.evaluate k bits p c = .ok (F.share k bits.toNat p) := by
  obtain ⟨hlen, -⟩ := checkKey_iff.mp hk
  have hn : 0 < bits.toNat := UInt32.lt_iff_toNat_lt.mp hpos
  have hm : bits.toNat ≤ F.domain.bitLength.toNat := UInt32.le_iff_toNat_le.mp hle
  obtain ⟨n, hbits⟩ : ∃ n, bits.toNat = n + 1 := ⟨bits.toNat - 1, by omega⟩
  have hindex : n < k.corrections.length := by
    unfold KeyHalf.bitLength at hlen
    omega
  have hw := List.getElem?_eq_getElem hindex
  have hroom : n ≤ 64 := by
    have := F.domain.bitLength_le
    omega
  have hbucket : ¬Nat.pow 2 bits.toNat ≤ p.toNat := Nat.not_le.mpr hp
  have hrange : ¬(bits.toNat = 0 ∨ F.domain.bitLength < bits) := by
    rintro (h | h)
    · omega
    · exact absurd (UInt32.lt_iff_toNat_lt.mp h) (by omega)
  rw [evaluate, hk, share, hbits, valueAt_steps hw]
  rw [hbits] at hrange hbucket
  simp only [bind, Except.bind, if_neg hrange, if_neg hbucket, Nat.add_sub_cancel, hw, nodeAt_eq hc hroom]
  rfl

end PrivateHistogram.PointFunction
