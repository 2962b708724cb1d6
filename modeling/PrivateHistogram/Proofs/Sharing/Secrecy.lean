import PrivateHistogram.Proofs.Sharing
import PrivateHistogram.Proofs.Words

/-! What a share tells about a secret: nothing. The first share is read from the tape without it, and the second comes out
    of the first by a map that undoes itself, so it is as random as the first (`SecretSharing.shares_of_split`). Both
    together give the secret back. -/

namespace PrivateHistogram.SecretSharing

/-! ### Masks -/

/-- What a secret is hidden by, and what is left of the secret then: a mask again, and each mask is left by exactly one. So
    what is left of it is uniformly random if the mask is. -/
structure Hides {α : Type} (masks : Finset α) (left : α → α) : Prop where
  bijective : Set.BijOn left masks masks
  uniform : ∀ h : masks.Nonempty, (PMF.uniformOfFinset masks h).map left = PMF.uniformOfFinset masks h

theorem map_uniformOfFinset {α : Type} {masks : Finset α} {left : α → α} (h : Set.BijOn left masks masks)
    (hne : masks.Nonempty) : (PMF.uniformOfFinset masks hne).map left = PMF.uniformOfFinset masks hne := by
  ext b
  rw [PMF.map_apply]
  by_cases hb : b ∈ masks
  · obtain ⟨a, ha, rfl⟩ := h.surjOn hb
    -- No other mask leaves this one.
    rw [tsum_eq_single a, if_pos rfl, PMF.uniformOfFinset_apply_of_mem hne ha, PMF.uniformOfFinset_apply_of_mem hne hb]
    intro a' hne'
    split
    · rename_i heq
      exact PMF.uniformOfFinset_apply_of_notMem hne fun ha' => hne' (h.injOn ha' ha heq.symm)
    · rfl
  · rw [PMF.uniformOfFinset_apply_of_notMem hne hb, ENNReal.tsum_eq_zero]
    intro a
    split
    · rename_i heq
      exact PMF.uniformOfFinset_apply_of_notMem hne fun ha => hb (heq ▸ h.mapsTo ha)
    · rfl

/-- A map that undoes itself leaves a mask of each mask. -/
theorem hides_of_involution {α : Type} {masks : Finset α} {left : α → α} (hmem : ∀ a ∈ masks, left a ∈ masks)
    (hinv : ∀ a ∈ masks, left (left a) = a) : Hides masks left := by
  have hbij : Set.BijOn left masks masks := Set.InvOn.bijOn ⟨hinv, hinv⟩ hmem hmem
  exact ⟨hbij, map_uniformOfFinset hbij⟩

/-! ### Byte strings -/

/-- The byte strings of some length. -/
noncomputable def bytesOfLength (n : ℕ) : Finset Bytes := (List.finite_length_eq UInt8 n).toFinset

theorem mem_bytesOfLength {n : ℕ} {bytes : Bytes} : bytes ∈ bytesOfLength n ↔ bytes.length = n :=
  Set.Finite.mem_toFinset _

theorem length_xor_of_length {data share : Bytes} (h : share.length = data.length) :
    (data.xor share).length = data.length := by
  rw [Bytes.length_xor, h, Nat.min_self]

theorem hides_xor (data : Bytes) : Hides (bytesOfLength data.length) data.xor := by
  refine hides_of_involution (fun share h => ?_) fun share h => ?_
  · exact mem_bytesOfLength.mpr (length_xor_of_length (mem_bytesOfLength.mp h))
  · rw [Bytes.xor_comm data share]
    exact Bytes.xor_xor_cancel (mem_bytesOfLength.mp h).symm

/-! ### Integers -/

/-- What a share lacks to a value. -/
def lacking (value modulus share : ℕ) : ℕ := if share ≤ value then value - share else modulus - (share - value)

section
variable {value modulus share : ℕ} (hvalue : value < modulus)
include hvalue

theorem lacking_lt : lacking value modulus share < modulus := by
  rw [lacking]
  split <;> omega

theorem lacking_lacking (hshare : share < modulus) : lacking value modulus (lacking value modulus share) = share := by
  simp only [lacking]
  split <;> split <;> omega

theorem add_lacking_mod (hshare : share < modulus) : (share + lacking value modulus share) % modulus = value := by
  rw [lacking]
  split
  · rw [Nat.add_sub_cancel' (by assumption), Nat.mod_eq_of_lt hvalue]
  · rw [show share + (modulus - (share - value)) = value + modulus by omega, Nat.add_mod_right, Nat.mod_eq_of_lt hvalue]

end

theorem hides_lacking {value modulus : ℕ} (hvalue : value < modulus) :
    Hides (Finset.range modulus) (lacking value modulus) :=
  hides_of_involution (fun _ _ => Finset.mem_range.mpr (lacking_lt hvalue))
    fun _ h => lacking_lacking hvalue (Finset.mem_range.mp h)

/-- What a share lacks to a value, in words: no difference falls below zero. -/
def lackingWord? (value modulus share : UInt64) : Option UInt64 :=
  if share ≤ value then sub? value share else do sub? modulus (← sub? share value)

/-- Two shares put together: the sum is a word of 128 bits, and its remainder one of 64. -/
def combineWords? (a b modulus : UInt64) : Option UInt64 :=
  let sum := a.toNat + b.toNat
  if sum < 2 ^ 128 ∧ sum % modulus.toNat < 2 ^ 64 then some (.ofNat (sum % modulus.toNat)) else none

theorem lackingWord_eq {value modulus share : UInt64} (hvalue : value < modulus) (hshare : share < modulus) :
    ∃ w, lackingWord? value modulus share = some w ∧ w.toNat = lacking value.toNat modulus.toNat share.toNat := by
  have hv := UInt64.lt_iff_toNat_lt.mp hvalue
  have hs := UInt64.lt_iff_toNat_lt.mp hshare
  rw [lackingWord?, lacking]
  by_cases h : share ≤ value
  · have hle := UInt64.le_iff_toNat_le.mp h
    rw [if_pos h, if_pos hle]
    exact Word.exists_sub hle
  · have hlt := UInt64.lt_iff_toNat_lt.mp (UInt64.not_le.mp h)
    obtain ⟨excess, hexcess, hnat⟩ := Word.exists_sub hlt.le
    rw [if_neg h, if_neg hlt.not_ge, hexcess, ← hnat]
    exact Word.exists_sub (by omega)

theorem combineWords_eq (a b : UInt64) {modulus : UInt64} (hmodulus : 0 < modulus) :
    ∃ w, combineWords? a b modulus = some w ∧ w.toNat = (a.toNat + b.toNat) % modulus.toNat := by
  have hpos : 0 < modulus.toNat := UInt64.lt_iff_toNat_lt.mp hmodulus
  have hmod := (Nat.mod_lt (a.toNat + b.toNat) hpos).trans modulus.toNat_lt
  have ha := a.toNat_lt
  have hb := b.toNat_lt
  exact ⟨_, if_pos ⟨by omega, hmod⟩, UInt64.toNat_ofNat_of_lt' hmod⟩

/-! ### The words on the tape -/

/-- The `i`-th word on a tape from here on: eight bytes, the least significant first. -/
def wordAt (tape : RandomTape) (i : ℕ) : ℕ :=
  Bytes.toNatLittle ((List.range 8).map fun j => tape.byte (tape.used + 8 * i + j))

/-- A word that a number below `bound` is made of: the low half of its product with `bound` is below the largest multiple of
    `bound` by a power of two that is a word. The high half is the number. -/
def Taken (bound word : ℕ) : Prop := word * bound % 2 ^ 64 < bound * 2 ^ (63 - bound.log2)

instance (bound word : ℕ) : Decidable (Taken bound word) :=
  inferInstanceAs (Decidable (_ < _))

theorem wordAt_lt (tape : RandomTape) (i : ℕ) : wordAt tape i < 2 ^ 64 :=
  (Bytes.toNatLittle_lt _).trans_eq (by rw [List.length_map, List.length_range]; rfl)

theorem drawBelow_eq {bound i : ℕ} (hbound : 0 < bound) {tape : RandomTape} (hi : i < ByteSource.retries)
    (htaken : Taken bound (wordAt tape i)) (hbefore : ∀ j < i, ¬Taken bound (wordAt tape j)) :
    drawBelow bound tape = (wordAt tape i * bound / 2 ^ 64, { tape with used := tape.used + 8 * (i + 1) }) := by
  let zone := bound * Nat.pow 2 (63 - bound.log2) - 1
  let attempt (tape : RandomTape) : Option ℕ × RandomTape :=
    let product := (ByteSource.word64 tape).1.toNat * bound
    (if product % UInt64.size ≤ zone then some (product / UInt64.size) else none, (ByteSource.word64 tape).2)
  let states (j : ℕ) : RandomTape := { tape with used := tape.used + 8 * j }
  let found (j : ℕ) := if Taken bound (wordAt tape j) then some (wordAt tape j * bound / 2 ^ 64) else none
  have hattempt (j : ℕ) : attempt (states j) = (found j, states (j + 1)) := by
    have hword : (ByteSource.word64 (states j)).1.toNat = wordAt tape j := UInt64.toNat_ofNat_of_lt' (wordAt_lt tape j)
    have hzone : 0 < bound * Nat.pow 2 (63 - bound.log2) := Nat.mul_pos hbound (Nat.two_pow_pos _)
    refine Prod.ext ?_ rfl
    simp only [attempt, found, hword, zone, Taken, Nat.le_sub_one_iff_lt hzone]
    rfl
  exact ByteSource.untilSome_first hattempt (fun j hj => if_neg (hbefore j hj)) (if_pos htaken) hi

theorem mul_two_pow_lt {bound : ℕ} (hbound : bound < 2 ^ 64) : bound * 2 ^ (63 - bound.log2) < 2 ^ 64 := by
  have hlog : bound.log2 ≤ 63 := by
    rcases bound.eq_zero_or_pos with rfl | hpos
    · decide
    · exact Nat.le_of_lt_succ ((Nat.log2_lt hpos.ne').mpr hbound)
  calc bound * 2 ^ (63 - bound.log2) < 2 ^ (bound.log2 + 1) * 2 ^ (63 - bound.log2) :=
        Nat.mul_lt_mul_of_pos_right Nat.lt_log2_self (Nat.two_pow_pos _)
    _ = 2 ^ 64 := by rw [← pow_add]; congr 1; omega

theorem lt_ceilDiv_add {a b run word : ℕ} (hb : 0 < b) : word < a ⌈/⌉ b + run ↔ b * word < a + b * run := by
  rcases lt_or_ge word run with hlt | hge
  · exact iff_of_true (Nat.lt_add_left _ hlt) (Nat.lt_add_left _ (Nat.mul_lt_mul_of_pos_left hlt hb))
  · obtain ⟨k, rfl⟩ := Nat.exists_eq_add_of_le' hge
    rw [Nat.add_lt_add_iff_right, Nat.mul_add, Nat.add_lt_add_iff_right, ← not_le, ceilDiv_le_iff_le_mul hb, not_le]

/-- Each number below `bound` comes from the same number of words. -/
theorem card_taken {bound n : ℕ} (hbound : bound < 2 ^ 64) (hn : n < bound) :
    ((Finset.range (2 ^ 64)).filter fun word => Taken bound word ∧ word * bound / 2 ^ 64 = n).card =
      2 ^ (63 - bound.log2) := by
  have hpos := Nat.zero_lt_of_lt hn
  have hroom := mul_two_pow_lt hbound
  -- They are as many words in a row, from the first whose product with `bound` has the number as its high half.
  have hset : ((Finset.range (2 ^ 64)).filter fun word => Taken bound word ∧ word * bound / 2 ^ 64 = n) =
      Finset.Ico ((n * 2 ^ 64) ⌈/⌉ bound) ((n * 2 ^ 64) ⌈/⌉ bound + 2 ^ (63 - bound.log2)) := by
    ext word
    have hfirst : (n * 2 ^ 64) ⌈/⌉ bound ≤ word ↔ n * 2 ^ 64 ≤ bound * word := ceilDiv_le_iff_le_mul hpos
    have hlast : word < (n * 2 ^ 64) ⌈/⌉ bound + 2 ^ (63 - bound.log2) ↔
        bound * word < n * 2 ^ 64 + bound * 2 ^ (63 - bound.log2) := lt_ceilDiv_add hpos
    rw [Finset.mem_filter, Finset.mem_range, Finset.mem_Ico, hfirst, hlast, Taken, Nat.mul_comm word]
    generalize bound * 2 ^ (63 - bound.log2) = zone at *
    have hlt : bound * word < 2 ^ 64 * bound ↔ word < 2 ^ 64 := by
      rw [Nat.mul_comm, Nat.mul_lt_mul_right hpos]
    have hn' : (n + 1) * 2 ^ 64 ≤ 2 ^ 64 * bound := by nlinarith
    omega
  rw [hset, Nat.card_Ico, Nat.add_sub_cancel_left]

/-! ### Both shares -/

theorem splitBytes_run (data : Bytes) {tape : RandomTape} (ht : tape.fault = none) :
    splitBytes data tape = (.ok ((tape.take data.length).1, data.xor (tape.take data.length).1),
      (tape.take data.length).2) := by
  simp only [splitBytes, RandomTape.take?, ht]

theorem combineBytes_xor {data share : Bytes} (h : share.length = data.length) :
    combineBytes share (data.xor share) = .ok data := by
  rw [combineBytes, if_pos (h.trans (length_xor_of_length h).symm), Bytes.xor_xor_cancel h]

theorem splitInt_run {value modulus : ℕ} (hvalue : value < modulus) (tape : RandomTape) :
    splitInt value modulus tape =
      (.ok ((drawBelow modulus tape).1, lacking value modulus (drawBelow modulus tape).1), (drawBelow modulus tape).2) := by
  rw [splitInt, if_neg (Nat.ne_zero_of_lt hvalue), if_neg hvalue.not_ge]
  rfl

theorem combineInt_lacking {value modulus share : ℕ} (hvalue : value < modulus) (hshare : share < modulus) :
    combineInt share (lacking value modulus share) modulus = .ok value := by
  rw [combineInt, if_neg (Nat.ne_zero_of_lt hvalue), add_lacking_mod hvalue hshare]

/-- The same shares come out in words, of which none overflows. -/
theorem words_of_shares {value modulus share : ℕ} (hvalue : value < modulus) (hshare : share < modulus)
    (hmodulus : modulus < 2 ^ 64) :
    ∃ w, lackingWord? (.ofNat value) (.ofNat modulus) (.ofNat share) = some w ∧ w.toNat = lacking value modulus share ∧
      combineWords? (.ofNat share) w (.ofNat modulus) = some (.ofNat value) := by
  have hm : (UInt64.ofNat modulus).toNat = modulus := UInt64.toNat_ofNat_of_lt' hmodulus
  have hv : (UInt64.ofNat value).toNat = value := UInt64.toNat_ofNat_of_lt' (hvalue.trans hmodulus)
  have hs : (UInt64.ofNat share).toNat = share := UInt64.toNat_ofNat_of_lt' (hshare.trans hmodulus)
  have hlt {n : ℕ} {a : UInt64} (ha : a.toNat = n) (h : n < modulus) : a < .ofNat modulus :=
    UInt64.lt_iff_toNat_lt.mpr (ha.symm ▸ hm.symm ▸ h)
  obtain ⟨w, hw, hnat⟩ := lackingWord_eq (hlt hv hvalue) (hlt hs hshare)
  obtain ⟨sum, hsum, hsumNat⟩ := combineWords_eq (.ofNat share) w (hlt (a := 0) rfl (Nat.zero_lt_of_lt hvalue))
  rw [hv, hm, hs] at hnat
  rw [hs, hnat, hm, add_lacking_mod hvalue hshare] at hsumNat
  exact ⟨w, hw, hnat, hsum.trans (congrArg some (UInt64.toNat_inj.mp (hsumNat.trans hv.symm)))⟩

/-- Two shares of a secret give it back, and neither of them tells anything about it alone. A byte string is split on any
    tape without a fault: the first share is the next bytes on the tape, whatever the secret of that length is. An integer
    below a modulus of 64 bits is split on any tape: the first share is drawn below the modulus, whatever the value is,
    from the first word on the tape that is taken, and each number below the modulus comes from as many words that are
    taken. The second share is what the first leaves of the secret: for a fixed secret each possible share is left by
    exactly one other, so it is uniformly random if the first is. -/
theorem shares_of_split :
    (∀ data : Bytes, Hides (bytesOfLength data.length) data.xor ∧
      ∀ tape : RandomTape, tape.fault = none →
        let share := (List.range data.length).map fun i => tape.byte (tape.used + i)
        (∀ data' : Bytes, data'.length = data.length →
          splitBytes data' tape = (.ok (share, data'.xor share), { tape with used := tape.used + data.length })) ∧
        share.length = data.length ∧ (data.xor share).length = data.length ∧
        combineBytes share (data.xor share) = .ok data) ∧
    ∀ value modulus : ℕ, value < modulus → modulus < 2 ^ 64 → Hides (Finset.range modulus) (lacking value modulus) ∧
      (∀ n < modulus, ((Finset.range (2 ^ 64)).filter fun word => Taken modulus word ∧ word * modulus / 2 ^ 64 = n).card =
        2 ^ (63 - modulus.log2)) ∧
      ∀ tape : RandomTape,
        let share := (drawBelow modulus tape).1
        (∀ i < ByteSource.retries, Taken modulus (wordAt tape i) → (∀ j < i, ¬Taken modulus (wordAt tape j)) →
          share = wordAt tape i * modulus / 2 ^ 64 ∧
          (drawBelow modulus tape).2 = { tape with used := tape.used + 8 * (i + 1) }) ∧
        (∀ value' < modulus,
          splitInt value' modulus tape = (.ok (share, lacking value' modulus share), (drawBelow modulus tape).2)) ∧
        share < modulus ∧ lacking value modulus share < modulus ∧
        combineInt share (lacking value modulus share) modulus = .ok value ∧
        ∃ w, lackingWord? (.ofNat value) (.ofNat modulus) (.ofNat share) = some w ∧ w.toNat = lacking value modulus share ∧
          combineWords? (.ofNat share) w (.ofNat modulus) = some (.ofNat value) := by
  refine ⟨fun data => ⟨hides_xor data, fun tape ht => ?_⟩, fun value modulus hvalue hmodulus =>
    ⟨hides_lacking hvalue, fun n => card_taken hmodulus, fun tape => ?_⟩⟩
  · have hlength := RandomTape.length_take data.length tape
    refine ⟨fun data' hdata' => ?_, hlength, length_xor_of_length hlength, combineBytes_xor hlength⟩
    rw [splitBytes_run data' ht, hdata']
    rfl
  · have hpos := Nat.zero_lt_of_lt hvalue
    have hshare := (drawBelow_lt hpos tape).1
    refine ⟨fun i hi htaken hbefore => ?_, fun value' hvalue' => splitInt_run hvalue' tape, hshare, lacking_lt hvalue,
      combineInt_lacking hvalue hshare, words_of_shares hvalue hshare hmodulus⟩
    have hdraw := drawBelow_eq hpos hi htaken hbefore
    exact ⟨congrArg Prod.fst hdraw, congrArg Prod.snd hdraw⟩

/-- A modulus for which the sum of two shares may be no word of 64 bits. -/
theorem shares_of_split_large :
    let modulus := 2 ^ 64 - 1
    let tape : RandomTape := ⟨fun _ => 255, 0, none⟩
    (Hides (bytesOfLength 3) (Bytes.xor [1, 2, 3]) ∧
      splitBytes [1, 2, 3] tape = (.ok ([255, 255, 255], [254, 253, 252]), { tape with used := 3 }) ∧
      splitBytes [4, 5, 6] tape = (.ok ([255, 255, 255], [251, 250, 249]), { tape with used := 3 }) ∧
      combineBytes [255, 255, 255] [254, 253, 252] = .ok [1, 2, 3]) ∧
    Hides (Finset.range modulus) (lacking 5 modulus) ∧
      splitInt 5 modulus tape = (.ok (2 ^ 64 - 2, 6), { tape with used := 8 }) ∧
      splitInt 7 modulus tape = (.ok (2 ^ 64 - 2, 8), { tape with used := 8 }) ∧
      combineInt (2 ^ 64 - 2) 6 modulus = .ok 5 := by
  intro modulus tape
  obtain ⟨hhides, hbytes⟩ := shares_of_split.1 [1, 2, 3]
  obtain ⟨hsplit, -, -, hcombine⟩ := hbytes tape rfl
  have hfirst : (List.range 3).map (fun i => tape.byte (tape.used + i)) = [255, 255, 255] := by decide
  have h123 : Bytes.xor [1, 2, 3] [255, 255, 255] = [254, 253, 252] := by decide
  have h456 : Bytes.xor [4, 5, 6] [255, 255, 255] = [251, 250, 249] := by decide
  simp only [List.length_cons, List.length_nil, hfirst] at hsplit
  obtain ⟨hhides', -, hints⟩ := shares_of_split.2 5 modulus (by decide) (by decide)
  obtain ⟨hdraw, hsplit', -, -, hcombine', -⟩ := hints tape
  -- The first word on the tape is taken.
  obtain ⟨hshare, hrest⟩ := hdraw 0 (by decide) (by decide) (fun j hj => absurd hj j.not_lt_zero)
  have hmax : wordAt tape 0 * modulus / 2 ^ 64 = 2 ^ 64 - 2 := by decide
  have h5 : lacking 5 modulus (2 ^ 64 - 2) = 6 := by decide
  have h7 : lacking 7 modulus (2 ^ 64 - 2) = 8 := by decide
  rw [hmax] at hshare
  simp only [hshare, hrest] at hsplit' hcombine'
  have hsplit5 := hsplit' 5 (by decide)
  have hsplit7 := hsplit' 7 (by decide)
  rw [h5] at hsplit5 hcombine'
  rw [h7] at hsplit7
  exact ⟨⟨hhides, h123 ▸ hsplit [1, 2, 3] rfl, h456 ▸ hsplit [4, 5, 6] rfl, h123 ▸ hcombine⟩, hhides', hsplit5, hsplit7,
    hcombine'⟩

end PrivateHistogram.SecretSharing
