import Mathlib
import PrivateHistogram.Curve.Scalar

/-! Scalars are the residues modulo the order of the group (`residue`). The order is prime (`prime_order`), shown
    by Lucas' test down a chain of primes, so every scalar but zero has an inverse (`exists_mul_eq_one`). -/

namespace PrivateHistogram.Scalar

/-! ### The order is prime -/

/-- Lucas' test for a number whose predecessor is the product of the given primes. -/
theorem prime_of_lucas {p : ℕ} (a : ZMod p) (factors : List ℕ) (hprod : factors.prod = p - 1)
    (hprime : ∀ q ∈ factors, q.Prime) (hone : a ^ (p - 1) = 1) (hne : ∀ q ∈ factors, a ^ ((p - 1) / q) ≠ 1) :
    p.Prime := by
  refine lucas_primality p a hone fun q hq hdvd => ?_
  rw [← hprod] at hdvd
  obtain ⟨r, hr, hqr⟩ := (Prime.dvd_prod_iff hq.prime).mp hdvd
  obtain rfl : q = r := (Nat.prime_dvd_prime_iff_eq hq (hprime r hr)).mp hqr
  exact hne q hr

theorem prime_292386187 : Nat.Prime 292386187 := by
  refine prime_of_lucas 2 [2, 3, 3, 3, 3, 307, 5879] (by norm_num) ?_ ?_ ?_
  · simp only [List.forall_mem_cons]
    norm_num
  · norm_num
    reduce_mod_char
  · simp only [List.forall_mem_cons]
    norm_num
    reduce_mod_char
    decide

theorem prime_213441916511 : Nat.Prime 213441916511 := by
  refine prime_of_lucas 13 [2, 5, 73, 292386187] (by norm_num) ?_ ?_ ?_
  · simp only [List.forall_mem_cons, prime_292386187]
    norm_num
  · norm_num
    reduce_mod_char
  · simp only [List.forall_mem_cons]
    norm_num
    reduce_mod_char
    decide

theorem prime_1257559732178653 : Nat.Prime 1257559732178653 := by
  refine prime_of_lucas 2 [2, 2, 3, 7, 23, 531581, 1224481] (by norm_num) ?_ ?_ ?_
  · simp only [List.forall_mem_cons]
    norm_num
  · norm_num
    reduce_mod_char
  · simp only [List.forall_mem_cons]
    norm_num
    reduce_mod_char
    decide

theorem prime_4434155615661930479 : Nat.Prime 4434155615661930479 := by
  refine prime_of_lucas 17 [2, 41, 43, 1257559732178653] (by norm_num) ?_ ?_ ?_
  · simp only [List.forall_mem_cons, prime_1257559732178653]
    norm_num
  · norm_num
    reduce_mod_char
  · simp only [List.forall_mem_cons]
    norm_num
    reduce_mod_char
    decide

theorem prime_3044861653679985063343 : Nat.Prime 3044861653679985063343 := by
  refine prime_of_lucas 5 [2, 3, 11, 30703, 82163, 132667, 137849] (by norm_num) ?_ ?_ ?_
  · simp only [List.forall_mem_cons]
    norm_num
  · norm_num
    reduce_mod_char
  · simp only [List.forall_mem_cons]
    norm_num
    reduce_mod_char
    decide

theorem prime_172054593956031949258510691 : Nat.Prime 172054593956031949258510691 := by
  refine prime_of_lucas 2 [2, 5, 1361, 2851, 4434155615661930479] (by norm_num) ?_ ?_ ?_
  · simp only [List.forall_mem_cons, prime_4434155615661930479]
    norm_num
  · norm_num
    reduce_mod_char
  · simp only [List.forall_mem_cons]
    norm_num
    reduce_mod_char
    decide

theorem prime_198211423230930754013084525763697 : Nat.Prime 198211423230930754013084525763697 := by
  refine prime_of_lucas 5 [2, 2, 2, 2, 3, 23, 58964693, 3044861653679985063343] (by norm_num) ?_ ?_ ?_
  · simp only [List.forall_mem_cons, prime_3044861653679985063343]
    norm_num
  · norm_num
    reduce_mod_char
  · simp only [List.forall_mem_cons]
    norm_num
    reduce_mod_char
    decide

theorem prime_19757330305831588566944191468367130476339 : Nat.Prime 19757330305831588566944191468367130476339 := by
  refine prime_of_lucas 2 [2, 269, 213441916511, 172054593956031949258510691] (by norm_num) ?_ ?_ ?_
  · simp only [List.forall_mem_cons, prime_213441916511, prime_172054593956031949258510691]
    norm_num
  · norm_num
    reduce_mod_char
  · simp only [List.forall_mem_cons]
    norm_num
    reduce_mod_char
    decide

theorem prime_276602624281642239937218680557139826668747 : Nat.Prime 276602624281642239937218680557139826668747 := by
  refine prime_of_lucas 2 [2, 7, 19757330305831588566944191468367130476339] (by norm_num) ?_ ?_ ?_
  · simp only [List.forall_mem_cons, prime_19757330305831588566944191468367130476339]
    norm_num
  · norm_num
    reduce_mod_char
  · simp only [List.forall_mem_cons]
    norm_num
    reduce_mod_char
    decide

/-- The order of the group is prime. -/
theorem prime_order : order.Prime := by
  change Nat.Prime 7237005577332262213973186563042994240857116359379907606001950938285454250989
  refine prime_of_lucas 2 [2, 2, 3, 11, 198211423230930754013084525763697, 276602624281642239937218680557139826668747]
    (by norm_num) ?_ ?_ ?_
  · simp only [List.forall_mem_cons, prime_198211423230930754013084525763697,
      prime_276602624281642239937218680557139826668747]
    norm_num
  · norm_num
    reduce_mod_char
  · simp only [List.forall_mem_cons]
    norm_num
    reduce_mod_char
    decide

/-! ### The field -/

/-- A scalar as a residue. -/
def residue (s : Scalar) : ZMod order := s.val

theorem residue_injective : Function.Injective residue := by
  intro s t hst
  have hval := (ZMod.natCast_eq_natCast_iff' _ _ _).mp hst
  rw [Nat.mod_eq_of_lt (show s.val < order from s.isLt), Nat.mod_eq_of_lt (show t.val < order from t.isLt)] at hval
  cases s
  cases t
  cases hval
  rfl

@[simp] theorem residue_ofNat (n : ℕ) : (ofNat n).residue = n := ZMod.natCast_mod n order

@[simp] theorem residue_zero : residue 0 = 0 := Nat.cast_zero

@[simp] theorem residue_one : residue 1 = 1 := Nat.cast_one

@[simp] theorem residue_add (s t : Scalar) : (s + t).residue = s.residue + t.residue := by
  change (ofNat _).residue = _
  rw [residue_ofNat, Nat.cast_add]
  rfl

@[simp] theorem residue_mul (s t : Scalar) : (s * t).residue = s.residue * t.residue := by
  change (ofNat _).residue = _
  rw [residue_ofNat, Nat.cast_mul]
  rfl

theorem mul_comm (s t : Scalar) : s * t = t * s :=
  residue_injective (by rw [residue_mul, residue_mul]; ring)

/-- A scalar that is not zero has an inverse. -/
theorem exists_mul_eq_one {s : Scalar} (h : s ≠ 0) : ∃ t : Scalar, t * s = 1 := by
  have : Fact order.Prime := ⟨prime_order⟩
  have hs : s.residue ≠ 0 := fun hzero => h (residue_injective hzero)
  refine ⟨ofNat (s.residue⁻¹).val, residue_injective ?_⟩
  rw [residue_mul, residue_ofNat, ZMod.natCast_zmod_val, inv_mul_cancel₀ hs, residue_one]

end PrivateHistogram.Scalar
