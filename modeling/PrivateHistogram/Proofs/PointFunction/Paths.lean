import Mathlib
import PrivateHistogram.PointFunction.Evaluation

/-! Paths to buckets. The path to the ancestor of a bucket is the front of the path to the bucket, a path
    determines its bucket, and so one path is the front of another only if its bucket is the ancestor of
    the other's. -/

namespace PrivateHistogram.PointFunction

@[simp] theorem length_path (bits : Nat) (p : UInt64) : (path bits p).length = bits := by
  simp [path]

theorem getElem_path {bits i : Nat} {p : UInt64} (h : i < (path bits p).length) :
    (path bits p)[i] = p.toNat.testBit (bits - 1 - i) := by
  simp [path]

theorem path_succ (bits : Nat) (p : UInt64) : path (bits + 1) p = path bits (p >>> 1) ++ [p.toNat.testBit 0] := by
  apply List.ext_getElem (by simp)
  intro i h _
  simp only [length_path] at h
  rw [getElem_path, List.getElem_append]
  split
  · rename_i hi
    rw [length_path] at hi
    rw [getElem_path, UInt64.toNat_shiftRight, Nat.testBit_shiftRight]
    congr 1
    change bits + 1 - 1 - i = 1 + (bits - 1 - i)
    omega
  · rename_i hi
    rw [length_path] at hi
    simp only [List.getElem_singleton]
    congr 1
    omega

theorem toNat_ancestor {bits depth : Nat} (p : UInt64) (h : bits - depth < 64) :
    (ancestor bits p depth).toNat = p.toNat / 2 ^ (bits - depth) := by
  have hs : (UInt64.ofNat (bits - depth)).toNat = bits - depth :=
    UInt64.toNat_ofNat_of_lt' (Nat.lt_of_lt_of_le h (by decide))
  rw [ancestor, UInt64.toNat_shiftRight, hs, Nat.mod_eq_of_lt h, Nat.shiftRight_eq_div_pow]

@[simp] theorem ancestor_self (bits : Nat) (p : UInt64) : ancestor bits p bits = p := by
  simp [ancestor]

theorem ancestor_lt {bits depth : Nat} {p : UInt64} (hp : p.toNat < 2 ^ bits) (hd : depth ≤ bits)
    (h : bits - depth < 64) : (ancestor bits p depth).toNat < 2 ^ depth := by
  rw [toNat_ancestor p h, Nat.div_lt_iff_lt_mul (by positivity), ← pow_add]
  rwa [Nat.add_sub_cancel' hd]

/-- The path to an ancestor is the front of the path. -/
theorem path_ancestor {bits depth : Nat} (p : UInt64) (hd : depth ≤ bits) (h : bits - depth < 64) :
    path depth (ancestor bits p depth) = (path bits p).take depth := by
  apply List.ext_getElem (by simp [hd])
  intro i h₁ _
  simp only [length_path] at h₁
  rw [getElem_path, List.getElem_take, getElem_path, toNat_ancestor p h, ← Nat.shiftRight_eq_div_pow,
    Nat.testBit_shiftRight]
  congr 1
  omega

theorem path_injective {bits : Nat} {p q : UInt64} (hp : p.toNat < 2 ^ bits) (hq : q.toNat < 2 ^ bits)
    (h : path bits p = path bits q) : p = q := by
  apply UInt64.toNat_inj.mp
  apply Nat.eq_of_testBit_eq
  intro i
  by_cases hi : i < bits
  · have := congrArg (fun l => l[bits - 1 - i]?) h
    simp only [path, List.getElem?_map] at this
    rw [List.getElem?_range (by omega)] at this
    simpa [show bits - 1 - (bits - 1 - i) = i by omega] using this
  · have hle : 2 ^ bits ≤ 2 ^ i := Nat.pow_le_pow_right (by decide) (by omega)
    rw [Nat.testBit_lt_two_pow (by omega), Nat.testBit_lt_two_pow (by omega)]

/-- A bucket's path is the front of the path to a point exactly if the bucket is the point's ancestor. -/
theorem path_isPrefix_iff {bits depth : Nat} {p id : UInt64} (hp : p.toNat < 2 ^ depth) (hid : id.toNat < 2 ^ bits)
    (hd : depth ≤ bits) (h : bits - depth < 64) : path depth p <+: path bits id ↔ p = ancestor bits id depth := by
  rw [List.prefix_iff_eq_take, length_path, ← path_ancestor id hd h]
  exact ⟨path_injective hp (ancestor_lt hid hd h), fun hpq => by rw [hpq]⟩

end PrivateHistogram.PointFunction
