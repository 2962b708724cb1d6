import PrivateHistogram.Proofs.PointFunction.Walks

/-! The two halves of a key add up to the point function. Going down the tree, the parties' states of a node
    are equal beside the path to the point, and have different control bits on it (`differ_keep`,
    `child_lose`). So the values at the end of a walk cancel unless the walk is the front of the path
    (`valueAt_of_prefix`, `valueAt_of_not_prefix`). -/

namespace PrivateHistogram

/-- Payloads are a commutative group. -/
instance (priority := low) LawfulPayload.toAddCommGroup {V : Type} [Payload V] [LawfulPayload V] : AddCommGroup V where
  add_assoc := LawfulPayload.add_assoc
  zero_add := LawfulPayload.zero_add
  add_zero a := (LawfulPayload.add_comm a 0).trans (LawfulPayload.zero_add a)
  nsmul := nsmulRec
  zsmul := zsmulRec
  neg_add_cancel := LawfulPayload.neg_add_cancel
  add_comm := LawfulPayload.add_comm
  sub_eq_add_neg := LawfulPayload.sub_eq_add_neg

namespace Octets

theorem xor_xor_cancel_left {n : Nat} (a b : Octets n) : a.xor (a.xor b) = b := by
  rw [xor_comm a (a.xor b), xor_comm a b, xor_xor_cancel]

theorem xor_xor_cancel_right {n : Nat} (a b : Octets n) : b.xor (a.xor b) = a := by
  rw [xor_comm, xor_xor_cancel]

end Octets

namespace PointFunction

variable {V : Type} [Payload V]

/-! ### One level -/

section Level
variable (g : Generator V) (value : V) (bit : Bool) {a b : NodeState}

theorem corrected_lose (h : a.control ≠ b.control) :
    a.corrected (g.extend a.seed) (correct g value bit a b).1.seed ((correct g value bit a b).1.control !bit) (!bit) =
      b.corrected (g.extend b.seed) (correct g value bit a b).1.seed ((correct g value bit a b).1.control !bit) (!bit) := by
  have hseed : (correct g value bit a b).1.seed =
      ((g.extend a.seed).seed !bit).xor ((g.extend b.seed).seed !bit) := by
    cases bit <;> rfl
  have hcontrol : (correct g value bit a b).1.control (!bit) =
      ((g.extend a.seed).control (!bit) ^^ (g.extend b.seed).control (!bit)) := by
    cases bit <;> simp [correct, CorrectionWord.control, ChildSeeds.control]
  rw [NodeState.corrected, NodeState.corrected, hseed, hcontrol]
  cases ha : a.control <;> cases hb : b.control <;> simp only [ha, hb, ne_eq, not_true_eq_false] at h
  · simp [Octets.xor_xor_cancel_right, Bool.xor_comm ((g.extend a.seed).control !bit)]
  · simp [Octets.xor_xor_cancel_left]

/-- Beside the path both parties know the same of a child, and its values are equal. -/
theorem child_lose (h : a.control ≠ b.control) :
    a.child g (g.extend a.seed) (correct g value bit a b).1 (!bit) =
      b.child g (g.extend b.seed) (correct g value bit a b).1 (!bit) := by
  simp only [NodeState.child, corrected_lose g value bit h]

/-- On the path a correction word leads to the states that the next one is made for. -/
theorem child_keep (a b : NodeState) :
    (a.child g (g.extend a.seed) (correct g value bit a b).1 bit).1 = (correct g value bit a b).2.1 ∧
      (b.child g (g.extend b.seed) (correct g value bit a b).1 bit).1 = (correct g value bit a b).2.2 := by
  cases bit <;> exact ⟨rfl, rfl⟩

theorem differ_keep (h : a.control ≠ b.control) :
    (correct g value bit a b).2.1.control ≠ (correct g value bit a b).2.2.control := by
  simp only [correct, NodeState.corrected, ChildSeeds.control]
  revert h
  generalize (g.extend a.seed).leftControl = la
  generalize (g.extend a.seed).rightControl = ra
  generalize (g.extend b.seed).leftControl = lb
  generalize (g.extend b.seed).rightControl = rb
  generalize a.control = ta
  generalize b.control = tb
  revert bit ta tb la lb ra rb
  decide

/-- A correction word's value makes up for the weights of the two parties. Its sign is that of the party that
    adds it. -/
theorem value_correct (a b : NodeState) :
    (correct g value bit a b).1.value =
      let word := (correct g value bit a b).1
      let ka := a.corrected (g.extend a.seed) word.seed (word.control bit) bit
      let kb := b.corrected (g.extend b.seed) word.seed (word.control bit) bit
      let difference := (g.convert kb.seed).2 - (g.convert ka.seed).2 + value
      if kb.control then -difference else difference := by
  cases bit <;> rfl

/-- On the path the values of the parties differ by the shared value. -/
theorem value_keep [LawfulPayload V] (h : a.control ≠ b.control) :
    (a.child g (g.extend a.seed) (correct g value bit a b).1 bit).2 -
      (b.child g (g.extend b.seed) (correct g value bit a b).1 bit).2 = value := by
  have hkeep := differ_keep g value bit h
  rw [← (child_keep g value bit a b).1, ← (child_keep g value bit a b).2] at hkeep
  have hvalue := value_correct g value bit a b
  simp only [NodeState.child] at hkeep hvalue ⊢
  generalize correct g value bit a b = w at *
  generalize a.corrected (g.extend a.seed) w.1.seed (w.1.control bit) bit = ka at *
  generalize b.corrected (g.extend b.seed) w.1.seed (w.1.control bit) bit = kb at *
  rw [hvalue]
  -- Exactly one of the two adds the value of the correction word.
  cases ha : ka.control <;> cases hb : kb.control <;>
    simp only [ha, hb, ne_eq, not_true_eq_false, reduceCtorEq, not_false_eq_true, if_true, if_false] at hkeep ⊢
  · abel
  · abel

end Level

/-! ### The whole tree -/

theorem length_corrections (g : Generator V) (value : V) (bits : List Bool) (a b : NodeState) :
    (corrections g value bits a b).length = bits.length := by
  induction bits generalizing a b with
  | nil => rfl
  | cons bit bits ih => exact congrArg (· + 1) (ih _ _)

theorem corrections_cons (g : Generator V) (value : V) (bit : Bool) (bits : List Bool) (a b : NodeState) :
    corrections g value (bit :: bits) a b = (correct g value bit a b).1 ::
      corrections g value bits (correct g value bit a b).2.1 (correct g value bit a b).2.2 := rfl

theorem zip_take_of_length {α β : Type} {l : List α} {q : List β} {n : Nat} (h : q.length = n) :
    (l.take n).zip q = l.zip q := by
  subst h
  induction q generalizing l with
  | nil => simp
  | cons y q ih => cases l with
    | nil => rfl
    | cons x l => simp [ih]

theorem zip_corrections_ne_nil (g : Generator V) (value : V) {bits q : List Bool} (a b : NodeState) (hq : q ≠ [])
    (hlen : q.length ≤ bits.length) : (corrections g value bits a b).zip q ≠ [] := by
  have hpos := List.length_pos_iff.mpr hq
  rw [← List.length_pos_iff, List.length_zip, length_corrections]
  omega

/-- At the end of a walk that is the front of the path the values of the parties differ by the shared value. -/
theorem valueAt_of_prefix [LawfulPayload V] (g : Generator V) (value : V) {bits q : List Bool} {a b : NodeState}
    (h : a.control ≠ b.control) (hq : q ≠ []) (hpre : q <+: bits) :
    valueAt g a ((corrections g value bits a b).zip q) - valueAt g b ((corrections g value bits a b).zip q) = value := by
  induction bits generalizing q a b with
  | nil => exact absurd (List.prefix_nil.mp hpre) hq
  | cons bit bits ih =>
    obtain ⟨q, rfl, hrest⟩ := (List.prefix_cons_iff.mp hpre).resolve_left hq
    rw [corrections_cons, List.zip_cons_cons]
    by_cases hnil : q = []
    · subst hnil
      simpa [valueAt] using value_keep g value bit h
    · have hz := zip_corrections_ne_nil g value (correct g value bit a b).2.1 (correct g value bit a b).2.2 hnil
        hrest.length_le
      rw [valueAt_cons g a _ _ hz, valueAt_cons g b _ _ hz, (child_keep g value bit a b).1,
        (child_keep g value bit a b).2]
      exact ih (differ_keep g value bit h) hnil hrest

/-- At the end of a walk that leaves the path the values of the parties are equal. -/
theorem valueAt_of_not_prefix (g : Generator V) (value : V) {bits q : List Bool} {a b : NodeState}
    (h : a.control ≠ b.control) (hlen : q.length ≤ bits.length) (hpre : ¬q <+: bits) :
    valueAt g a ((corrections g value bits a b).zip q) = valueAt g b ((corrections g value bits a b).zip q) := by
  induction bits generalizing q a b with
  | nil =>
    obtain rfl : q = [] := by simpa using hlen
    exact absurd List.nil_prefix hpre
  | cons bit bits ih =>
    obtain _ | ⟨x, q⟩ := q
    · exact absurd List.nil_prefix hpre
    · rw [corrections_cons, List.zip_cons_cons]
      by_cases hx : x = bit
      · subst hx
        have hpre' : ¬q <+: bits := fun hq => hpre (List.cons_prefix_cons.mpr ⟨rfl, hq⟩)
        have hlen' : q.length ≤ bits.length := Nat.le_of_succ_le_succ hlen
        have hq : q ≠ [] := by rintro rfl; exact hpre' List.nil_prefix
        have hz := zip_corrections_ne_nil g value (correct g value x a b).2.1 (correct g value x a b).2.2 hq hlen'
        rw [valueAt_cons g a _ _ hz, valueAt_cons g b _ _ hz, (child_keep g value x a b).1,
          (child_keep g value x a b).2]
        exact ih (differ_keep g value x h) hlen' hpre'
      · obtain rfl : x = !bit := Bool.eq_not_of_ne hx
        exact valueAt_congr g (child_lose g value bit h) _

/-! ### The halves of a key -/

section Halves
variable (F : PointFunction V) (id : UInt64) (value : V) (seedA seedB : Seed)

theorem checkKey_keysFrom : F.checkKey (F.keysFrom id value seedA seedB).1 = .ok () ∧
    F.checkKey (F.keysFrom id value seedA seedB).2 = .ok () := by
  have h : (F.keysFrom id value seedA seedB).1.bitLength = F.domain.bitLength.toNat := by
    simp [KeyHalf.bitLength, keysFrom, length_corrections]
  exact ⟨checkKey_iff.mpr ⟨h, rfl⟩, checkKey_iff.mpr ⟨h, rfl⟩⟩

/-- Both parties walk along the same correction words, those made for the path to the point, and the second
    party negates what it finds. -/
theorem share_keysFrom (bits : Nat) (p : UInt64) :
    let words := corrections F.generator value (path F.domain.bitLength.toNat id) ⟨seedA, false⟩ ⟨seedB, true⟩
    F.share (F.keysFrom id value seedA seedB).1 bits p =
        valueAt F.generator ⟨seedA, false⟩ (words.zip (path bits p)) ∧
      F.share (F.keysFrom id value seedA seedB).2 bits p =
        -valueAt F.generator ⟨seedB, true⟩ (words.zip (path bits p)) := by
  intro words
  rw [← zip_take_of_length (l := words) (length_path bits p)]
  exact ⟨rfl, rfl⟩

/-- The shares of the two halves of a key add up to the value at the buckets above the point and to zero at
    all others. -/
theorem share_add_share [LawfulPayload V] {id : UInt64} (hid : id.toNat < 2 ^ F.domain.bitLength.toNat) {bits : Nat}
    (hpos : 0 < bits) (hle : bits ≤ F.domain.bitLength.toNat) {p : UInt64} (hp : p.toNat < 2 ^ bits) :
    F.share (F.keysFrom id value seedA seedB).1 bits p + F.share (F.keysFrom id value seedA seedB).2 bits p =
      if p = ancestor F.domain.bitLength.toNat id bits then value else 0 := by
  have hn := F.domain.bitLength_le
  have hq : path bits p ≠ [] := List.ne_nil_of_length_pos (by rwa [length_path])
  have hlen : (path bits p).length ≤ (path F.domain.bitLength.toNat id).length := by simpa using hle
  have hdiffer : (⟨seedA, false⟩ : NodeState).control ≠ (⟨seedB, true⟩ : NodeState).control := Bool.false_ne_true
  have hiff := path_isPrefix_iff hp hid hle (by omega)
  rw [(share_keysFrom F id value seedA seedB bits p).1, (share_keysFrom F id value seedA seedB bits p).2,
    ← sub_eq_add_neg]
  by_cases h : p = ancestor F.domain.bitLength.toNat id bits
  · rw [if_pos h, valueAt_of_prefix F.generator value hdiffer hq (hiff.mpr h)]
  · rw [if_neg h, valueAt_of_not_prefix F.generator value hdiffer hlen (fun hpre => h (hiff.mp hpre)), sub_self]

theorem generate_eq {id : UInt64} (hid : id.toNat < 2 ^ F.domain.bitLength.toNat) (tape : RandomTape) :
    F.generate id value tape = (.ok (F.keysFrom id value (tape.octets 16).1 ((tape.octets 16).2.octets 16).1),
      ((tape.octets 16).2.octets 16).2) := by
  rw [generate]
  have h : ¬Nat.pow 2 F.domain.bitLength.toNat ≤ id.toNat := Nat.not_le.mpr hid
  simp only [if_neg h]

end Halves

/-- Making a key for a point of the domain succeeds. Whatever seeds its halves have and however seeds are
    expanded, evaluating both halves at a bucket of any level gives shares of the value if the bucket is
    above the point, and of zero otherwise. -/
theorem evaluate_keysFrom [LawfulPayload V] (F : PointFunction V) {id : UInt64}
    (hid : id.toNat < 2 ^ F.domain.bitLength.toNat) (value : V) :
    (∀ tape, F.generate id value tape =
      (.ok (F.keysFrom id value (tape.octets 16).1 ((tape.octets 16).2.octets 16).1),
        ((tape.octets 16).2.octets 16).2)) ∧
    ∀ (seedA seedB : Seed) (bits : UInt32) (p : UInt64) (ca cb : NodeCache), 0 < bits → bits ≤ F.domain.bitLength →
      p.toNat < 2 ^ bits.toNat → F.Sound (F.keysFrom id value seedA seedB).1 ca →
      F.Sound (F.keysFrom id value seedA seedB).2 cb →
        ∃ x y, F.evaluate (F.keysFrom id value seedA seedB).1 bits p ca = .ok x ∧
          F.evaluate (F.keysFrom id value seedA seedB).2 bits p cb = .ok y ∧
          x + y = if p = id >>> UInt64.ofNat (F.domain.bitLength.toNat - bits.toNat) then value else 0 := by
  refine ⟨generate_eq F value hid, fun seedA seedB bits p ca cb hpos hle hp hca hcb => ?_⟩
  obtain ⟨hka, hkb⟩ := checkKey_keysFrom F id value seedA seedB
  have hsum := share_add_share F value seedA seedB hid (UInt32.lt_iff_toNat_lt.mp hpos)
    (UInt32.le_iff_toNat_le.mp hle) hp
  exact ⟨_, _, evaluate_eq hka hca hpos hle hp, evaluate_eq hkb hcb hpos hle hp, hsum⟩

/-- Three bits, with a level of one bit. -/
def Domain.oneThree : Domain := ⟨⟨[1, 3]⟩, ⟨by decide, by decide, by decide, by decide⟩⟩

/-- The point 5 lies below the bucket 1 of the first level. -/
theorem evaluate_keysFrom_five :
    let F : PointFunction Goldilocks := ⟨.oneThree, .standard Goldilocks⟩
    let keys := F.keysFrom 5 1 (Octets.zero 16) (Octets.zero 16)
    (5 : UInt64).toNat < 2 ^ F.domain.bitLength.toNat ∧ (1 : UInt64).toNat < 2 ^ (1 : UInt32).toNat ∧
      F.Sound keys.1 .empty ∧ F.Sound keys.2 .empty ∧
      ∃ x y, F.evaluate keys.1 1 1 .empty = .ok x ∧ F.evaluate keys.2 1 1 .empty = .ok y ∧ x + y = 1 := by
  intro F keys
  have hid : (5 : UInt64).toNat < 2 ^ F.domain.bitLength.toNat := by decide
  refine ⟨hid, by decide, sound_empty F keys.1, sound_empty F keys.2, ?_⟩
  obtain ⟨x, y, hx, hy, hsum⟩ := (evaluate_keysFrom F hid 1).2 (Octets.zero 16) (Octets.zero 16) 1 1
    .empty .empty (by decide) (by decide) (by decide) (sound_empty F keys.1) (sound_empty F keys.2)
  rw [if_pos (by decide)] at hsum
  exact ⟨x, y, hx, hy, hsum⟩

end PointFunction

end PrivateHistogram
