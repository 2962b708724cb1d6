import PrivateHistogram.Proofs.Json.Records

/-! Values that may be missing, and maps with numbers for keys. The digits of a key stand between quotes as they are
    (`quotable_digits`) and are read as that key, and the entries of a map make up the same map again (`ofList_toList`), so
    both are read back if the values in them are. -/

namespace PrivateHistogram

namespace Json

/-- Bytes that need no escapes may stand between quotes. -/
theorem quotable_of_plain {content : Bytes} (h : ∀ b ∈ content, b ≠ 0x22 ∧ b ≠ 0x5c ∧ ¬b < 0x20) : Quotable content := by
  intro read rest
  induction content generalizing read with
  | nil => rw [Parser.string?.eq_def]; simp
  | cons b content ih =>
    obtain ⟨⟨h22, h5c, hctrl⟩, h⟩ := List.forall_mem_cons.mp h
    rw [List.cons_append, Parser.string?.eq_def]
    simp only [if_neg h22, if_neg h5c, if_neg hctrl]
    rw [ih h, List.reverse_cons, List.append_assoc, List.singleton_append]

theorem quotable_digits (n : ℕ) : Quotable (Numeral.digits n) :=
  quotable_of_plain fun b hb => by
    have hdigit := Numeral.isDigit_of_mem_digits hb
    refine ⟨?_, ?_, fun hlt => ?_⟩
    · rintro rfl
      exact absurd hdigit (by decide)
    · rintro rfl
      exact absurd hdigit (by decide)
    · have hlow : 0x30 ≤ b.toNat := UInt8.le_iff_toNat_le.mp (of_decide_eq_true hdigit).1
      have hhigh : b.toNat < 0x20 := UInt8.lt_iff_toNat_lt.mp hlt
      omega

end Json

namespace Codec

variable {α β κ : Type} [Codec α] [Codec β]

/-! ### Values that may be missing -/

/-- What is not there is `null`, so it is told from values that are never written so. -/
theorem stored_option [StoredCodec α] (h : ∀ a : α, encode a ≠ .null) : StoredCodec (Option α) where
  decode_encode a := by
    cases a with
    | none => rfl
    | some a =>
      have hnull := h a
      have hread := LawfulCodec.decode_encode a
      change decode? (α := Option α) (encode a) = some (some a)
      generalize encode a = j at hnull hread
      cases j <;> first | exact absurd rfl hnull | exact congrArg (Option.map some) hread
  printable a := by
    cases a with
    | none => exact .null
    | some a => exact StoredCodec.printable a

instance : StoredCodec (Option UInt64) := stored_option nofun

/-! ### Maps -/

theorem decodeKey?_digits {n bound : ℕ} (h : n < bound) : decodeKey? bound (Numeral.digits n) = some n := by
  have hwhole := Numeral.whole?_digits n Json.ended_nil
  rw [List.append_nil] at hwhole
  simp [decodeKey?, hwhole, h]

theorem mapM_members [LawfulCodec β] {toNat : κ → ℕ} {ofNat : ℕ → κ} {bound : ℕ} (hbound : ∀ k, toNat k < bound)
    (hkey : ∀ k, ofNat (toNat k) = k) (entries : List (κ × β)) :
    (entries.map fun (k, v) => (Numeral.digits (toNat k), encode v)).mapM (fun (name, j) => do
      let k ← decodeKey? bound name
      let v ← decode? j
      some (ofNat k, v)) = some entries := by
  induction entries with
  | nil => rfl
  | cons entry entries ih =>
    rw [List.map_cons, List.mapM_cons, ih]
    simp [decodeKey?_digits (hbound entry.1), LawfulCodec.decode_encode, hkey]

/-- The entries of a map make up the map. -/
theorem ofList_toList {ν : Type} [Ord κ] [Std.TransOrd κ] [Std.LawfulEqOrd κ] (map : Std.ExtTreeMap κ ν) :
    Std.ExtTreeMap.ofList map.toList = map := by
  classical
  refine Std.ExtTreeMap.ext_getElem? fun k => ?_
  cases hk : map[k]? with
  | some v =>
    exact Std.ExtTreeMap.getElem?_ofList_of_mem Std.ReflCmp.compare_self Std.ExtTreeMap.distinct_keys_toList
      (Std.ExtTreeMap.mem_toList_iff_getElem?_eq_some.mpr hk)
  | none =>
    refine Std.ExtTreeMap.getElem?_ofList_of_contains_eq_false (Bool.eq_false_iff.mpr fun hcontains => ?_)
    obtain ⟨⟨k', v⟩, hmem, rfl⟩ := List.mem_map.mp (List.contains_iff_mem.mp hcontains)
    cases hk.symm.trans (Std.ExtTreeMap.mem_toList_iff_getElem?_eq_some.mp hmem)

theorem printable_members [StoredCodec β] (toNat : κ → ℕ) (entries : List (κ × β)) :
    (Json.object (entries.map fun (k, v) => (Numeral.digits (toNat k), encode v))).Printable := by
  refine .object (fun m hm => ?_) fun m hm => ?_
  · obtain ⟨entry, -, rfl⟩ := List.mem_map.mp hm
    exact Json.quotable_digits _
  · obtain ⟨entry, -, rfl⟩ := List.mem_map.mp hm
    exact StoredCodec.printable entry.2

instance [StoredCodec β] : StoredCodec (Std.ExtTreeMap UInt64 β) where
  decode_encode map := by
    have h := mapM_members UInt64.toNat_lt_size (fun k => UInt64.ofNat_toNat (x := k)) map.toList
    exact (congrArg (Option.bind · _) h).trans (congrArg some (ofList_toList map))
  printable map := printable_members UInt64.toNat map.toList

instance [StoredCodec β] : StoredCodec (Std.ExtTreeMap UInt32 β) where
  decode_encode map := by
    have h := mapM_members UInt32.toNat_lt_size (fun k => UInt32.ofNat_toNat (x := k)) map.toList
    exact (congrArg (Option.bind · _) h).trans (congrArg some (ofList_toList map))
  printable map := printable_members UInt32.toNat map.toList

end Codec

end PrivateHistogram
