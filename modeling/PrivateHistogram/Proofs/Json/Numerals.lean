import PrivateHistogram.Proofs.Json.Texts

/-! Natural numbers as they stand in JSON. The digits of a number are read as that number, up to the first byte
    that cannot belong to a number (`number?_print`). -/

namespace PrivateHistogram

/-- What a number does not go on with. -/
def Json.Ended (rest : Bytes) : Prop :=
  ∀ b t, rest = b :: t → Json.Parser.isDigit b = false ∧ b ≠ 0x2e ∧ b ≠ 0x65 ∧ b ≠ 0x45

theorem Json.ended_nil : Json.Ended [] := fun _ _ h => by simp at h

theorem Json.ended_cons {b : UInt8} (t : Bytes)
    (h : Json.Parser.isDigit b = false ∧ b ≠ 0x2e ∧ b ≠ 0x65 ∧ b ≠ 0x45) : Json.Ended (b :: t) := fun b' t' hb => by
  obtain ⟨rfl, rfl⟩ := List.cons.inj hb
  exact h

namespace Numeral

open Json.Parser (isDigit ofDigits)

theorem isDigit_of_char {c : Char} (h : c.isDigit = true) :
    isDigit (UInt8.ofNat c.toNat) = true ∧ (UInt8.ofNat c.toNat).toNat - 0x30 = c.toNat - 0x30 := by
  obtain ⟨hlo, hhi⟩ := Char.isDigit_iff_toNat.mp h
  have hlo' : 48 ≤ c.toNat := hlo
  have hhi' : c.toNat ≤ 57 := hhi
  have hn : (UInt8.ofNat c.toNat).toNat = c.toNat := UInt8.toNat_ofNat_of_lt' (by simp only [UInt8.size]; omega)
  refine ⟨?_, by rw [hn]⟩
  simp only [isDigit, decide_eq_true_eq]
  exact ⟨UInt8.le_iff_toNat_le.mpr (by rw [hn]; exact hlo'), UInt8.le_iff_toNat_le.mpr (by rw [hn]; exact hhi')⟩

theorem digits_append (cs : List Char) (hcs : ∀ c ∈ cs, c.isDigit = true) {rest : Bytes} (hr : Json.Ended rest) :
    Json.Parser.digits (cs.map (fun c => UInt8.ofNat c.toNat) ++ rest) = (cs.map fun c => c.toNat - 0x30, rest) := by
  induction cs with
  | nil =>
    cases rest with
    | nil => rfl
    | cons b t => simp [Json.Parser.digits, (hr b t rfl).1]
  | cons c cs ih =>
    obtain ⟨hd, hv⟩ := isDigit_of_char (hcs c List.mem_cons_self)
    rw [List.map_cons, List.cons_append, Json.Parser.digits, if_pos hd, ih fun x hx => hcs x (List.mem_cons_of_mem c hx)]
    simp only [List.map_cons, hv]

theorem parser_digits (n : Nat) {rest : Bytes} (hr : Json.Ended rest) :
    Json.Parser.digits (digits n ++ rest) = ((Nat.toDigits 10 n).map fun c => c.toNat - 0x30, rest) :=
  digits_append _ (fun _ hc => Nat.isDigit_of_mem_toDigits (by decide) (by decide) hc) hr

theorem ofDigits_toDigits (n : Nat) : ofDigits ((Nat.toDigits 10 n).map fun c => c.toNat - 0x30) = n := by
  have h := Nat.ofDigitChars_ten_toDigits (n := n)
  rw [Nat.ofDigitChars_eq_foldl] at h
  rw [ofDigits, List.foldl_map]
  exact h

theorem head?_toDigits {n : Nat} (hn : 0 < n) : ∃ c cs, Nat.toDigits 10 n = c :: cs ∧ c.toNat - 0x30 ≠ 0 := by
  induction n using Nat.strong_induction_on with
  | _ n ih =>
    by_cases h : n < 10
    · refine ⟨n.digitChar, [], Nat.toDigits_of_lt_base h, ?_⟩
      rw [Nat.toNat_digitChar_sub_48_of_lt_ten h]
      omega
    · obtain ⟨c, cs, hc, hne⟩ := ih (n / 10) (by omega) (by omega)
      exact ⟨c, cs ++ [(n % 10).digitChar], by rw [Nat.toDigits_of_base_le (by decide) (by omega), hc]; rfl, hne⟩

theorem whole?_digits (n : Nat) {rest : Bytes} (hr : Json.Ended rest) :
    Json.Parser.whole? (digits n ++ rest) = some (n, rest) := by
  rw [Json.Parser.whole?, parser_digits n hr]
  have hof := ofDigits_toDigits n
  rcases Nat.eq_zero_or_pos n with rfl | hn
  · rfl
  · obtain ⟨c, cs, hc, hne⟩ := head?_toDigits hn
    rw [hc, List.map_cons] at hof ⊢
    split
    · simp at *
    · rename_i heq
      simp only [Prod.mk.injEq, List.cons.injEq] at heq
      exact absurd heq.1.1 hne
    · rename_i heq
      simp only [Prod.mk.injEq] at heq
      obtain ⟨rfl, rfl⟩ := heq
      rw [hof]

theorem isDigit_of_mem_digits {n : Nat} {b : UInt8} (hb : b ∈ digits n) : isDigit b = true := by
  obtain ⟨c, hc, rfl⟩ := List.mem_map.mp hb
  exact (isDigit_of_char (Nat.isDigit_of_mem_toDigits (by decide) (by decide) hc)).1

theorem digits_eq_cons (n : Nat) : ∃ b t, digits n = b :: t ∧ isDigit b = true := by
  cases h : digits n with
  | nil => exact absurd (List.map_eq_nil_iff.mp h) Nat.toDigits_ne_nil
  | cons b t => exact ⟨b, t, rfl, isDigit_of_mem_digits (h ▸ List.mem_cons_self)⟩

theorem print_ofNat (n : Nat) : (ofNat n).print = digits n := by
  simp [print, ofNat]

theorem fraction?_ended {rest : Bytes} (hr : Json.Ended rest) : Json.Parser.fraction? rest = some ([], rest) := by
  unfold Json.Parser.fraction?
  split
  · rename_i t
    exact absurd rfl (hr 0x2e t rfl).2.1
  · rfl

theorem exponent?_ended {rest : Bytes} (hr : Json.Ended rest) : Json.Parser.exponent? rest = some (none, rest) := by
  cases rest with
  | nil => rfl
  | cons b t =>
    have h : ¬(b = 0x65 ∨ b = 0x45) := not_or.mpr (hr b t rfl).2.2
    unfold Json.Parser.exponent?
    exact if_neg h

/-- A natural number is read back, whatever follows that cannot belong to it. -/
theorem number?_print (n : Nat) {rest : Bytes} (hr : Json.Ended rest) :
    Json.Parser.number? ((ofNat n).print ++ rest) = some (ofNat n, rest) := by
  have hwhole := whole?_digits n hr
  obtain ⟨b, t, hb, hd⟩ := digits_eq_cons n
  rw [hb, List.cons_append] at hwhole
  rw [print_ofNat, hb, List.cons_append]
  have hne : b ≠ 0x2d := by
    rintro rfl
    exact absurd hd (by decide)
  unfold Json.Parser.number?
  split
  rename_i heq
  split at heq
  · rename_i h
    exact absurd (List.cons.inj h).1 hne
  · obtain ⟨rfl, rfl⟩ := Prod.mk.inj heq
    simp [hwhole, fraction?_ended hr, exponent?_ended hr, ofNat]

end Numeral

end PrivateHistogram
