import PrivateHistogram.Proofs.PointFunction.Shares

/-! Sums in the field. Signed integers are added up as elements (`sum_ofInt`), and a sum of no more than half the
    modulus is read back exactly (`toInt_ofInt`). -/

namespace PrivateHistogram.Goldilocks

theorem sum_eq (l : List Goldilocks) : sum l = l.sum := List.sum_eq_foldl.symm

theorem val_ofInt (x : ℤ) : ((ofInt x).val : ℤ) = x % modulus := by
  have hnonneg : 0 ≤ x % modulus := Int.emod_nonneg _ (by decide)
  have hlt : x % modulus < modulus := Int.emod_lt_of_pos _ (by decide)
  rw [ofInt, val_ofNat, Int.natCast_emod, Int.toNat_of_nonneg hnonneg, Int.emod_emod]

theorem ofInt_natCast (n : ℕ) : ofInt n = ofNat n :=
  ext (Int.natCast_inj.mp (by rw [val_ofInt, val_ofNat, Int.natCast_emod]))

theorem ofInt_add (x y : ℤ) : ofInt (x + y) = ofInt x + ofInt y := by
  refine ext (Int.natCast_inj.mp ?_)
  rw [val_add, Int.natCast_emod, Nat.cast_add, val_ofInt, val_ofInt, val_ofInt, ← Int.add_emod]

theorem sum_ofInt (l : List ℤ) : (l.map ofInt).sum = ofInt l.sum := by
  induction l with
  | nil => rfl
  | cons x l ih => rw [List.map_cons, List.sum_cons, List.sum_cons, ih, ofInt_add]

/-- An integer of at most half the modulus is read back. -/
theorem toInt_ofInt {x : ℤ} (h : |x| ≤ (modulus - 1) / 2) : (ofInt x).toInt = x := by
  have hval := val_ofInt x
  have hmodulus : (modulus : ℤ) = 18446744069414584321 := rfl
  rw [hmodulus] at h hval
  rw [abs_le] at h
  rw [toInt, hmodulus]
  change (if (ofInt x).val > 18446744069414584321 / 2 then _ else _) = _
  split <;> omega

/-- Fewer than `2 ^ 47` values of 16 bits add up to at most half the modulus. -/
theorem abs_sum_le {α : Type} {l : List α} (h : l.length < 2 ^ 47) (value : α → UInt16) :
    |(l.map fun a => ((value a).toNat : ℤ)).sum| ≤ (modulus - 1) / 2 := by
  have hhalf : ((modulus : ℤ) - 1) / 2 = 9223372034707292160 := by decide
  have hnonneg : 0 ≤ (l.map fun a => ((value a).toNat : ℤ)).sum := List.sum_nonneg fun x hx => by
    obtain ⟨a, -, rfl⟩ := List.mem_map.mp hx
    exact Int.natCast_nonneg _
  have hle := List.sum_le_card_nsmul (l.map fun a => ((value a).toNat : ℤ)) 65535 fun x hx => by
    obtain ⟨a, -, rfl⟩ := List.mem_map.mp hx
    have hlt := (value a).toNat_lt
    omega
  rw [List.length_map, nsmul_eq_mul] at hle
  rw [abs_of_nonneg hnonneg, hhalf]
  omega

theorem val_sum_one {α : Type} (l : List α) : ((l.map fun _ => (1 : Goldilocks)).sum).val = l.length % modulus := by
  induction l with
  | nil => rfl
  | cons a l ih =>
    rw [List.map_cons, List.sum_cons, List.length_cons, Nat.add_comm]
    change ((1 : Goldilocks).val + _) % modulus = _
    rw [ih, Nat.add_mod_mod]
    rfl

end PrivateHistogram.Goldilocks
