import PrivateHistogram.Goldilocks.Codec
import PrivateHistogram.Proofs.Aggregation.ExactReleases

/-! The field as the integers modulo its prime. Elements are told apart by their residues, each residue is that of an
    element, and the operations are those of residues (`Goldilocks.residue_bijective`, `Goldilocks.residue_add`). An
    element is spelled by exactly one string of eight bytes, and what stands behind these is not looked at
    (`Goldilocks.ofBytes_eq_ok`). -/

namespace PrivateHistogram.Goldilocks

/-! ### Operations -/

/-- An element as a residue. -/
def residue (a : Goldilocks) : ZMod modulus := a.val

theorem residue_injective : Function.Injective residue := by
  intro a b hab
  have hval := (ZMod.natCast_eq_natCast_iff' _ _ _).mp hab
  rw [Nat.mod_eq_of_lt a.val_lt, Nat.mod_eq_of_lt b.val_lt] at hval
  exact ext hval

@[simp] theorem residue_ofNat (n : ℕ) : (ofNat n).residue = n := ZMod.natCast_mod n modulus

@[simp] theorem residue_ofInt (x : ℤ) : (ofInt x).residue = x := by
  have hcast : (((ofInt x).val : ℤ) : ZMod modulus) = ((x % modulus : ℤ) : ZMod modulus) := congrArg Int.cast (val_ofInt x)
  rw [Int.cast_natCast, ZMod.intCast_mod] at hcast
  exact hcast

theorem residue_bijective : Function.Bijective residue :=
  ⟨residue_injective, fun r => ⟨ofNat r.val, by
    have : NeZero modulus := ⟨modulus_pos.ne'⟩
    rw [residue_ofNat, ZMod.natCast_zmod_val]⟩⟩

@[simp] theorem residue_zero : (0 : Goldilocks).residue = 0 := Nat.cast_zero

section
variable (a b : Goldilocks)

@[simp] theorem residue_add : (a + b).residue = a.residue + b.residue := by
  change (ofNat _).residue = _
  rw [residue_ofNat, Nat.cast_add]
  rfl

@[simp] theorem residue_neg : (-a).residue = -a.residue := by
  change (ofNat _).residue = _
  rw [residue_ofNat, Nat.cast_sub a.val_lt.le, ZMod.natCast_self, zero_sub]
  rfl

@[simp] theorem residue_sub : (a - b).residue = a.residue - b.residue := by
  rw [sub_eq_add_neg, residue_add, residue_neg]
  ring

end

theorem residue_negateIf (choice : Bool) (a : Goldilocks) :
    (a.negateIf choice).residue = if choice then -a.residue else a.residue := by
  cases choice
  · rfl
  · exact residue_neg a

theorem residue_sum (l : List Goldilocks) : (sum l).residue = (l.map residue).sum := by
  rw [sum_eq]
  induction l with
  | nil => exact residue_zero
  | cons a l ih => rw [List.sum_cons, residue_add, ih, List.map_cons, List.sum_cons]

theorem ofInt_toInt (a : Goldilocks) : ofInt a.toInt = a :=
  residue_injective (by
    rw [residue_ofInt, (ZMod.intCast_eq_intCast_iff _ _ _).mpr a.toInt_modEq, Int.cast_natCast]
    rfl)

/-! ### Bytes and JSON -/

theorem ofNat?_eq_some {n : ℕ} {a : Goldilocks} : ofNat? n = some a ↔ a.val = n := by
  rw [ofNat?]
  split
  · rw [Option.some_inj]
    exact ⟨fun h => h ▸ rfl, fun h => ext h.symm⟩
  · rename_i hge
    exact iff_of_false nofun fun h => hge (h ▸ a.val_lt)

theorem ofNat?_eq_none {n : ℕ} : ofNat? n = none ↔ modulus ≤ n := by
  rw [ofNat?]
  split
  · exact iff_of_false nofun (by omega)
  · exact iff_of_true rfl (by omega)

/-- An element is read from a JSON value exactly if the value is the number that stands for the element. -/
theorem decode_eq_some {value : Json} {a : Goldilocks} :
    (Codec.decode? value : Option Goldilocks) = some a ↔ value.toNat? = some a.val := by
  change value.toNat?.bind ofNat? = some a ↔ _
  rw [Option.bind_eq_some_iff]
  constructor
  · rintro ⟨n, hn, ha⟩
    rw [hn, ofNat?_eq_some.mp ha]
  · exact fun h => ⟨a.val, h, ofNat?_eq_some.mpr rfl⟩

theorem length_toBytes (a : Goldilocks) : a.toBytes.length = encodedSize := Bytes.length_ofNatLittle _ _

theorem toNatLittle_toBytes (a : Goldilocks) : Bytes.toNatLittle a.toBytes = a.val :=
  (Bytes.toNatLittle_ofNatLittle _ _).trans (Nat.mod_eq_of_lt (a.val_lt.trans (by decide)))

theorem toBytes_eq_iff {a : Goldilocks} {bytes : Bytes} (h : bytes.length = encodedSize) :
    a.toBytes = bytes ↔ a.val = Bytes.toNatLittle bytes := by
  constructor
  · rintro rfl
    exact a.toNatLittle_toBytes.symm
  · intro hval
    rw [toBytes, hval, ← h, Bytes.ofNatLittle_toNatLittle]

/-- The strings that spell an element are those of eight bytes that spell a number below the modulus. -/
theorem exists_toBytes_iff {bytes : Bytes} :
    (∃ a : Goldilocks, a.toBytes = bytes) ↔ bytes.length = encodedSize ∧ Bytes.toNatLittle bytes < modulus := by
  constructor
  · rintro ⟨a, rfl⟩
    exact ⟨a.length_toBytes, a.toNatLittle_toBytes ▸ a.val_lt⟩
  · rintro ⟨hlength, hlt⟩
    exact ⟨⟨_, hlt⟩, (toBytes_eq_iff hlength).mpr rfl⟩

theorem ofBytes_of_le {bytes : Bytes} (h : encodedSize ≤ bytes.length) :
    (∀ a, ofBytes bytes = .ok a ↔ ofNat? (Bytes.toNatLittle (bytes.take encodedSize)) = some a) ∧
    (ofBytes bytes = .error .modulusOverflow ↔ ofNat? (Bytes.toNatLittle (bytes.take encodedSize)) = none) := by
  rw [ofBytes, if_neg h.not_gt]
  cases ofNat? (Bytes.toNatLittle (bytes.take encodedSize)) with
  | none => exact ⟨fun a => iff_of_false nofun nofun, iff_of_true rfl rfl⟩
  | some b => exact ⟨fun a => by rw [Except.ok.injEq, Option.some_inj], iff_of_false nofun nofun⟩

/-- An element is read from a string exactly if the string begins with the bytes that spell the element. -/
theorem ofBytes_eq_ok {bytes : Bytes} {a : Goldilocks} : ofBytes bytes = .ok a ↔ ∃ rest, bytes = a.toBytes ++ rest := by
  by_cases hshort : bytes.length < encodedSize
  · rw [ofBytes, if_pos hshort]
    refine iff_of_false nofun fun ⟨rest, h⟩ => ?_
    rw [h, List.length_append, a.length_toBytes] at hshort
    omega
  · have hle := Nat.le_of_not_lt hshort
    rw [(ofBytes_of_le hle).1, ofNat?_eq_some, ← toBytes_eq_iff (List.length_take_of_le hle)]
    constructor
    · intro h
      exact ⟨bytes.drop encodedSize, by rw [h, List.take_append_drop]⟩
    · rintro ⟨rest, rfl⟩
      rw [List.take_left' a.length_toBytes]

theorem ofBytes_eq_shortRead {bytes : Bytes} : ofBytes bytes = .error .shortRead ↔ bytes.length < encodedSize := by
  rw [ofBytes]
  split
  · exact iff_of_true rfl (by assumption)
  · refine iff_of_false ?_ (by assumption)
    cases ofNat? _ <;> exact nofun

theorem ofBytes_eq_modulusOverflow {bytes : Bytes} :
    ofBytes bytes = .error .modulusOverflow ↔
      encodedSize ≤ bytes.length ∧ modulus ≤ Bytes.toNatLittle (bytes.take encodedSize) := by
  by_cases hshort : bytes.length < encodedSize
  · rw [ofBytes, if_pos hshort]
    exact iff_of_false nofun fun ⟨hle, _⟩ => hshort.not_ge hle
  · have hle := Nat.le_of_not_lt hshort
    rw [(ofBytes_of_le hle).2, ofNat?_eq_none, and_iff_right hle]

end PrivateHistogram.Goldilocks
