import Mathlib

/-! Arithmetic of words of 64 bits, and of sizes, which are words too. Each operation tells when it goes out of range: a
    result that is no word, an amount of a shift that is not below 64, a slice that is not there. -/

namespace PrivateHistogram

/-- The difference of two numbers, if it is not below zero. -/
def sub? {α : Type} [LE α] [DecidableLE α] [Sub α] (a b : α) : Option α := if b ≤ a then some (a - b) else none

theorem sub_of_le {α : Type} [LE α] [DecidableLE α] [Sub α] {a b : α} (h : b ≤ a) : sub? a b = some (a - b) := if_pos h

namespace Word

/-- A word shifted to the left. Bits that are shifted out are lost. -/
def shiftLeft? (a : UInt64) (n : UInt32) : Option UInt64 := if n < 64 then some (a <<< n.toUInt64) else none

def shiftRight? (a : UInt64) (n : UInt32) : Option UInt64 := if n < 64 then some (a >>> n.toUInt64) else none

/-- The product, or the largest word if the product is no word. -/
def saturatingMul (a b : UInt64) : UInt64 := if a.toNat * b.toNat < UInt64.size then a * b else 0xffffffffffffffff

/-- The word as a signed one, or the largest signed word if it is none. -/
def toSigned (a : UInt64) : Int64 := if a < 0x8000000000000000 then a.toInt64 else Int64.maxValue

/-- The negation of a signed word, if it is a signed word. -/
def negate? (a : Int64) : Option Int64 := if a = Int64.minValue then none else some (-a)

/-- The distance of a signed word from zero, which is a word also for the least signed word. -/
def magnitude (a : Int64) : UInt64 := .ofNat a.toInt.natAbs

/-- A signed word brought between two others, of which the first must not be the larger. -/
def clamp? (a low high : Int64) : Option Int64 :=
  if low ≤ high then some (if a < low then low else if high < a then high else a) else none

theorem toNat_saturatingMul (a b : UInt64) : (saturatingMul a b).toNat = min (a.toNat * b.toNat) (2 ^ 64 - 1) := by
  rw [saturatingMul]
  split
  · rename_i h
    rw [UInt64.toNat_mul, Nat.mod_eq_of_lt h]
    exact (Nat.min_eq_left (Nat.le_pred_of_lt h)).symm
  · rename_i h
    exact (Nat.min_eq_right (Nat.le_of_lt (Nat.lt_of_succ_le (Nat.not_lt.mp h)))).symm

theorem toInt_toInt64 {a : UInt64} (h : a.toNat < 2 ^ 63) : a.toInt64.toInt = a.toNat :=
  BitVec.toInt_eq_toNat_of_lt (Nat.mul_lt_mul_of_pos_left h Nat.two_pos)

theorem toInt_toSigned (a : UInt64) : (toSigned a).toInt = min (a.toNat : ℤ) (2 ^ 63 - 1) := by
  have hiff : a < 0x8000000000000000 ↔ a.toNat < 2 ^ 63 := UInt64.lt_iff_toNat_lt
  rw [toSigned]
  split
  · rename_i h
    rw [toInt_toInt64 (hiff.mp h)]
    have := hiff.mp h
    omega
  · rename_i h
    rw [Int64.toInt_maxValue]
    have := mt hiff.mpr h
    omega

theorem exists_sub {a b : UInt64} (h : b.toNat ≤ a.toNat) : ∃ w, sub? a b = some w ∧ w.toNat = a.toNat - b.toNat :=
  ⟨a - b, if_pos (UInt64.le_iff_toNat_le.mpr h), UInt64.toNat_sub_of_le a b (UInt64.le_iff_toNat_le.mpr h)⟩

theorem negate_eq {a : Int64} (h : -2 ^ 63 < a.toInt) : ∃ w, negate? a = some w ∧ w.toInt = -a.toInt := by
  have hne : a ≠ Int64.minValue := by
    rintro rfl
    exact absurd h (by decide)
  have hlt := a.toInt_lt
  refine ⟨-a, if_neg hne, ?_⟩
  rw [Int64.toInt_neg, Int.bmod_eq_of_le] <;> omega

theorem toNat_magnitude (a : Int64) : (magnitude a).toNat = a.toInt.natAbs := by
  have hle := a.le_toInt
  have hlt := a.toInt_lt
  exact UInt64.toNat_ofNat_of_lt' (by change a.toInt.natAbs < 2 ^ 64; omega)

theorem clamp_eq (a : Int64) {low high : Int64} (h : low.toInt ≤ high.toInt) :
    ∃ w, clamp? a low high = some w ∧ w.toInt = max low.toInt (min a.toInt high.toInt) := by
  refine ⟨_, if_pos (Int64.le_iff_toInt_le.mpr h), ?_⟩
  simp only [Int64.lt_iff_toInt_lt]
  split
  · omega
  · split <;> omega

theorem shiftLeft_eq {n : UInt32} (h : n < 64) (a : UInt64) : shiftLeft? a n = some (a <<< n.toUInt64) := if_pos h

theorem shiftRight_eq {n : UInt32} (h : n < 64) (a : UInt64) : shiftRight? a n = some (a >>> n.toUInt64) := if_pos h

theorem toNat_shiftRight {n : UInt32} (h : n < 64) (a : UInt64) : (a >>> n.toUInt64).toNat = a.toNat >>> n.toNat := by
  have hlt : n.toNat < 64 := UInt32.lt_iff_toNat_lt.mp h
  rw [UInt64.toNat_shiftRight, UInt32.toNat_toUInt64, Nat.mod_eq_of_lt hlt]

/-- A bit of a word as the index into a table of two. -/
theorem getElem?_bit {n : UInt32} (h : n < 64) (a : UInt64) :
    [false, true][((a >>> n.toUInt64) &&& 1).toNat]? = some (a.toNat.testBit n.toNat) := by
  rw [UInt64.toNat_and, toNat_shiftRight h, show (1 : UInt64).toNat = 1 from rfl, Nat.and_one_is_mod,
    Nat.testBit_eq_decide_div_mod_eq, ← Nat.shiftRight_eq_div_pow]
  rcases Nat.mod_two_eq_zero_or_one (a.toNat >>> n.toNat) with hbit | hbit <;> rw [hbit] <;> rfl

end Word

namespace Size

/-- The sum of two sizes, if it is one. -/
def add? (a b : ℕ) : Option ℕ := if a + b < 2 ^ 64 then some (a + b) else none

/-- A size shifted to the left, if no bit is lost. -/
def shiftLeft? (a : ℕ) (n : UInt32) : Option ℕ :=
  if n < 64 ∧ a * 2 ^ n.toNat < 2 ^ 64 then some (a * 2 ^ n.toNat) else none

def shiftRight? (a : ℕ) (n : UInt32) : Option ℕ := if n < 64 then some (a / 2 ^ n.toNat) else none

/-- The part of a list from one index up to another. -/
def slice? {α : Type} (l : List α) (start stop : ℕ) : Option (List α) :=
  if start ≤ stop ∧ stop ≤ l.length then some ((l.take stop).drop start) else none

/-- A list in which the part from one index up to another makes room for another list of that length. -/
def splice? {α : Type} (l : List α) (start stop : ℕ) (part : List α) : Option (List α) := do
  let old ← slice? l start stop
  if old.length = part.length then some (l.take start ++ part ++ l.drop stop) else none

/-- The quotient of two sizes, rounded up. -/
def divUp? (a b : ℕ) : Option ℕ := if a % b = 0 then some (a / b) else add? (a / b) 1

theorem add_eq {a b : ℕ} (h : a + b < 2 ^ 64) : add? a b = some (a + b) := if_pos h

theorem shiftLeft_eq {a : ℕ} {n : UInt32} (h : n < 64) (hroom : a * 2 ^ n.toNat < 2 ^ 64) :
    shiftLeft? a n = some (a * 2 ^ n.toNat) := if_pos ⟨h, hroom⟩

theorem shiftRight_eq {n : UInt32} (h : n < 64) (a : ℕ) : shiftRight? a n = some (a / 2 ^ n.toNat) := if_pos h

theorem slice_eq {α : Type} {l : List α} {start stop : ℕ} (h : start ≤ stop) (hstop : stop ≤ l.length) :
    slice? l start stop = some ((l.take stop).drop start) := if_pos ⟨h, hstop⟩

theorem slice_append {α : Type} (front l rest : List α) :
    slice? (front ++ (l ++ rest)) front.length (front.length + l.length) = some l := by
  rw [slice_eq (Nat.le_add_right _ _) (by simp), List.take_length_add_append, List.take_left, List.drop_left]

/-- A list goes on being filled where its front ends. -/
theorem splice_drop {α : Type} (front part : List α) {l : List α} (h : front.length + part.length ≤ l.length) :
    splice? (front ++ l.drop front.length) front.length (front.length + part.length) part =
      some (front ++ part ++ l.drop (front.length + part.length)) := by
  have hold : ((l.drop front.length).take part.length).length = part.length := by
    rw [List.length_take_of_le]
    rw [List.length_drop]
    exact Nat.le_sub_of_add_le' h
  have hsplit : l.drop front.length = (l.drop front.length).take part.length ++ l.drop (front.length + part.length) := by
    rw [← List.drop_drop, List.take_append_drop]
  have hslice := slice_append front ((l.drop front.length).take part.length) (l.drop (front.length + part.length))
  rw [hold, ← hsplit] at hslice
  have hdrop : (front ++ l.drop front.length).drop (front.length + part.length) = l.drop (front.length + part.length) := by
    rw [← List.drop_drop, List.drop_left, List.drop_drop]
  rw [splice?, hslice, Option.bind_eq_bind, Option.bind_some, if_pos hold, List.take_left, hdrop]

end Size

end PrivateHistogram
