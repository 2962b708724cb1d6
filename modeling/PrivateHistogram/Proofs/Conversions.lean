import Mathlib
import PrivateHistogram.Conversion
import PrivateHistogram.Proofs.Json.Texts

/-! The lines that describe a conversion. A line is read exactly if it is a key, a comma and a numeral, with blanks around
    the line and around the numeral (`Conversion.parse_iff_describes`). So the last comma divides a line, and a key may hold
    any commas. -/

namespace PrivateHistogram

theorem Bytes.ofText_injective : Function.Injective ofText := fun key key' h =>
  Option.some.inj (by rw [← toText?_ofText key, h, toText?_ofText])

namespace Text

/-! ### Blanks -/

/-- A text without the blanks around it. -/
structure Stripped (s t : List Char) : Prop where
  around : ∃ front back : List Char, (∀ c ∈ front, isBlank c = true) ∧ (∀ c ∈ back, isBlank c = true) ∧
  s = front ++ t ++ back
  head : ∀ c ∈ t.head?, isBlank c = false
  last : ∀ c ∈ t.getLast?, isBlank c = false

theorem dropWhile_of_head? {s : List Char} (h : ∀ c ∈ s.head?, isBlank c = false) : s.dropWhile isBlank = s := by
  cases s with
  | nil => rfl
  | cons c s => exact List.dropWhile_cons_of_neg (Bool.eq_false_iff.mp (h c rfl))

theorem trim_append_left {front : List Char} (h : ∀ c ∈ front, isBlank c = true) (s : List Char) :
    trim (front ++ s) = trim s := by
  rw [trim, List.dropWhile_append_of_pos h, ← trim]

theorem trim_append_right (s : List Char) {back : List Char} (h : ∀ c ∈ back, isBlank c = true) :
    trim (s ++ back) = trim s := by
  rw [trim, List.dropWhile_append]
  split
  · rename_i hempty
    rw [trim, List.isEmpty_iff.mp hempty, List.dropWhile_eq_nil_iff.mpr h]
  · have hback : ∀ c ∈ back.reverse, isBlank c = true := fun c hc => h c (List.mem_reverse.mp hc)
    rw [trim, List.reverse_append, List.dropWhile_append_of_pos hback]

theorem stripped_trim (s : List Char) : Stripped s (trim s) := by
  let dropped := s.dropWhile isBlank
  have hsplit : trim s ++ (dropped.reverse.takeWhile isBlank).reverse = dropped := by
    rw [trim, ← List.reverse_append, List.takeWhile_append_dropWhile, List.reverse_reverse]
  refine ⟨⟨s.takeWhile isBlank, (dropped.reverse.takeWhile isBlank).reverse, fun c hc => List.mem_takeWhile_imp hc,
    fun c hc => List.mem_takeWhile_imp (List.mem_reverse.mp hc), ?_⟩, fun c hc => ?_, fun c hc => ?_⟩
  · rw [List.append_assoc, hsplit, List.takeWhile_append_dropWhile]
  · have hdropped : dropped.head? = some c := by rw [← hsplit, List.head?_append, hc, Option.some_or]
    have hnot := List.head?_dropWhile_not isBlank s
    rwa [show (s.dropWhile isBlank).head? = some c from hdropped] at hnot
  · rw [trim, List.getLast?_reverse] at hc
    have hnot := List.head?_dropWhile_not isBlank dropped.reverse
    rwa [show (dropped.reverse.dropWhile isBlank).head? = some c from hc] at hnot

theorem trim_of_stripped {s t : List Char} (h : Stripped s t) : trim s = t := by
  obtain ⟨⟨front, back, hfront, hback, rfl⟩, hhead, hlast⟩ := h
  rw [trim_append_right _ hback, trim_append_left hfront, trim, dropWhile_of_head? hhead, dropWhile_of_head?,
    List.reverse_reverse]
  rwa [List.head?_reverse]

/-! ### Numerals -/

/-- Digits of a number, most significant first. There may be zeros in front of it. -/
structure IsNumeral (digits : List Char) (n : ℕ) : Prop where
  ne_nil : digits ≠ []
  isDigit : ∀ c ∈ digits, c.isDigit = true
  value : Nat.ofDigitChars 10 digits 0 = n

/-- A numeral, or one with a plus sign in front. -/
def Spells (text : List Char) (n : ℕ) : Prop := ∃ digits, (text = digits ∨ text = '+' :: digits) ∧ IsNumeral digits n

theorem digit?_eq (c : Char) : digit? c = if c.isDigit = true then some (c.toNat - '0'.toNat) else none := by
  have hiff : ('0' ≤ c ∧ c ≤ '9') ↔ c.isDigit = true := Char.isDigit_iff_toNat.symm
  rw [digit?, if_congr hiff rfl rfl]

theorem le_ofDigitChars (digits : List Char) (n : ℕ) : n ≤ Nat.ofDigitChars 10 digits n := by
  induction digits generalizing n with
  | nil => exact le_rfl
  | cons c digits ih =>
    rw [Nat.ofDigitChars_cons]
    exact le_trans (by omega) (ih _)

/-- No number on the way exceeds the one that is read in the end. -/
theorem readDigits_eq_ok {bound n m : ℕ} {digits : List Char} (hn : n < bound) :
    readDigits bound n digits = .ok m ↔
      (∀ c ∈ digits, c.isDigit = true) ∧ Nat.ofDigitChars 10 digits n = m ∧ m < bound := by
  induction digits generalizing n with
  | nil =>
    rw [readDigits]
    constructor
    · rintro ⟨⟩
      exact ⟨fun c hc => (nomatch hc), rfl, hn⟩
    · rintro ⟨-, rfl, -⟩
      rfl
  | cons c digits ih =>
    rw [readDigits, digit?_eq, Nat.ofDigitChars_cons, List.forall_mem_cons]
    by_cases hc : c.isDigit = true
    · rw [if_pos hc]
      by_cases hbound : 10 * n + (c.toNat - '0'.toNat) < bound
      · simp only [if_pos hbound, ih hbound, hc, true_and]
      · simp only [if_neg hbound]
        refine iff_of_false nofun fun ⟨_, hm, hlt⟩ => hbound ?_
        exact (le_ofDigitChars digits _).trans_lt (hm.trans_lt hlt)
    · rw [if_neg hc]
      exact iff_of_false nofun fun ⟨⟨h, _⟩, _⟩ => hc h

theorem readDigits_eq_ok_of_ne_nil {bound n : ℕ} (hbound : 0 < bound) {digits : List Char} (h : digits ≠ []) :
    readDigits bound 0 digits = .ok n ↔ IsNumeral digits n ∧ n < bound := by
  rw [readDigits_eq_ok hbound]
  exact ⟨fun ⟨hdigits, hvalue, hlt⟩ => ⟨⟨h, hdigits, hvalue⟩, hlt⟩, fun ⟨hn, hlt⟩ => ⟨hn.isDigit, hn.value, hlt⟩⟩

theorem spells_plus {rest : List Char} {n : ℕ} : Spells ('+' :: rest) n ↔ IsNumeral rest n := by
  constructor
  · rintro ⟨digits, rfl | heq, hn⟩
    · exact absurd (hn.isDigit '+' List.mem_cons_self) (by decide)
    · exact (List.cons.inj heq).2 ▸ hn
  · exact fun hn => ⟨rest, .inr rfl, hn⟩

theorem spells_of_ne_plus {c : Char} (hc : c ≠ '+') {rest : List Char} {n : ℕ} :
    Spells (c :: rest) n ↔ IsNumeral (c :: rest) n := by
  constructor
  · rintro ⟨digits, rfl | heq, hn⟩
    · exact hn
    · exact absurd (List.cons.inj heq).1 hc
  · exact fun hn => ⟨_, .inl rfl, hn⟩

theorem Spells.ne_nil {text : List Char} {n : ℕ} (h : Spells text n) : text ≠ [] := by
  obtain ⟨digits, rfl | rfl, hn⟩ := h
  · exact hn.ne_nil
  · exact List.cons_ne_nil _ _

theorem readNat_eq_ok {bound n : ℕ} (hbound : 0 < bound) {text : List Char} :
    readNat bound text = .ok n ↔ Spells text n ∧ n < bound := by
  cases text with
  | nil => exact iff_of_false nofun fun ⟨h, _⟩ => h.ne_nil rfl
  | cons c rest =>
    by_cases hc : c = '+'
    · subst hc
      rw [spells_plus]
      cases rest with
      | nil => exact iff_of_false nofun fun ⟨hn, _⟩ => hn.ne_nil rfl
      | cons d rest => exact readDigits_eq_ok_of_ne_nil hbound (List.cons_ne_nil d rest)
    · rw [spells_of_ne_plus hc, readNat, readDigits_eq_ok_of_ne_nil hbound (List.cons_ne_nil c rest)]
      · rintro ⟨⟩
      · rintro ⟨⟩
        exact hc rfl
      · rintro _ ⟨⟩
        exact hc rfl

theorem spells_toDigits (n : ℕ) : Spells (Nat.toDigits 10 n) n :=
  ⟨_, .inl rfl, Nat.toDigits_ne_nil, fun _ hc => Nat.isDigit_of_mem_toDigits (by decide) (by decide) hc,
    Nat.ofDigitChars_ten_toDigits⟩

/-- A numeral holds neither blanks nor commas. -/
theorem Spells.plain {text : List Char} {n : ℕ} (h : Spells text n) : ∀ c ∈ text, isBlank c = false ∧ c ≠ ',' := by
  have hdigit {c : Char} (hc : c.isDigit = true) : isBlank c = false ∧ c ≠ ',' := by
    obtain ⟨hlo, hhi⟩ := Char.isDigit_iff_toNat.mp hc
    change 48 ≤ c.toNat at hlo
    change c.toNat ≤ 57 at hhi
    refine ⟨?_, ?_⟩
    · simp [isBlank]
      omega
    · rintro rfl
      exact absurd hlo (by decide)
  obtain ⟨digits, rfl | rfl, hn⟩ := h
  · exact fun c hc => hdigit (hn.isDigit c hc)
  · exact List.forall_mem_cons.mpr ⟨by decide, fun c hc => hdigit (hn.isDigit c hc)⟩

end Text

namespace Conversion

/-! ### Lines -/

theorem splitAtLastComma?_eq_none {s : List Char} (h : ',' ∉ s) : splitAtLastComma? s = none := by
  induction s with
  | nil => rfl
  | cons c s ih =>
    obtain ⟨hc, hs⟩ := not_or.mp (mt List.mem_cons.mpr h)
    rw [splitAtLastComma?, ih hs]
    exact if_neg (Ne.symm hc)

theorem splitAtLastComma?_append (key : List Char) {value : List Char} (h : ',' ∉ value) :
    splitAtLastComma? (key ++ ',' :: value) = some (key, value) := by
  induction key with
  | nil => rw [List.nil_append, splitAtLastComma?, splitAtLastComma?_eq_none h]; rfl
  | cons c key ih => rw [List.cons_append, splitAtLastComma?, ih]

theorem exists_last_comma {s : List Char} (h : ',' ∈ s) : ∃ key value, s = key ++ ',' :: value ∧ ',' ∉ value := by
  obtain ⟨behind, front, hs, hnot⟩ := List.eq_append_cons_of_mem (List.mem_reverse.mpr h)
  refine ⟨front.reverse, behind.reverse, ?_, mt List.mem_reverse.mp hnot⟩
  rw [← List.reverse_reverse s, hs, List.reverse_append, List.reverse_cons, List.append_assoc, List.singleton_append]

theorem splitAtLastComma?_eq_some {s key value : List Char} :
    splitAtLastComma? s = some (key, value) ↔ s = key ++ ',' :: value ∧ ',' ∉ value := by
  constructor
  · intro h
    by_cases hs : ',' ∈ s
    · obtain ⟨key', value', rfl, hnot⟩ := exists_last_comma hs
      cases (splitAtLastComma?_append key' hnot).symm.trans h
      exact ⟨rfl, hnot⟩
    · cases (splitAtLastComma?_eq_none hs).symm.trans h
  · rintro ⟨rfl, hnot⟩
    exact splitAtLastComma?_append key hnot

/-- A line is a key, a comma and a numeral of the value, with blanks around the line and around the numeral. There is no
    comma behind the one that ends the key. -/
def Describes (line key : String) (value : UInt16) : Prop :=
  ∃ behind, Text.Stripped line.toList (key.toList ++ ',' :: behind) ∧ ',' ∉ behind ∧
    ∃ numeral, Text.Stripped behind numeral ∧ Text.Spells numeral value.toNat

theorem describes_of_parse {line : String} {c : Conversion} (h : parse line = .ok c) :
    ∃ key : String, c.bucketKey = Bytes.ofText key ∧ Describes line key c.value := by
  rw [parse] at h
  cases hsplit : splitAtLastComma? (Text.trim line.toList) with
  | none => simp only [hsplit] at h; cases h
  | some parts =>
    obtain ⟨key, behind⟩ := parts
    cases hread : Text.readNat UInt16.size (Text.trim behind) with
    | error cause => simp only [hsplit, hread] at h; cases h
    | ok n =>
      simp only [hsplit, hread] at h
      cases h
      obtain ⟨hline, hnot⟩ := splitAtLastComma?_eq_some.mp hsplit
      obtain ⟨hspells, hlt⟩ := (Text.readNat_eq_ok (by decide)).mp hread
      refine ⟨String.ofList key, rfl, behind, ?_, hnot, _, Text.stripped_trim behind, ?_⟩
      · rw [String.toList_ofList, ← hline]
        exact Text.stripped_trim _
      · rwa [UInt16.toNat_ofNat_of_lt' hlt]

theorem parse_of_describes {line key : String} {value : UInt16} (h : Describes line key value) :
    parse line = .ok ⟨Bytes.ofText key, value⟩ := by
  obtain ⟨behind, hline, hnot, numeral, hbehind, hspells⟩ := h
  have hread : Text.readNat UInt16.size numeral = .ok value.toNat :=
    (Text.readNat_eq_ok (by decide)).mpr ⟨hspells, value.toNat_lt⟩
  rw [parse, Text.trim_of_stripped hline, splitAtLastComma?_append _ hnot]
  simp only [Text.trim_of_stripped hbehind, hread, String.ofList_toList, UInt16.ofNat_toNat]

theorem describes_of_append {line key : String} {value : UInt16} {front before numeral back : List Char}
    (hline : line.toList = front ++ (key.toList ++ ',' :: (before ++ numeral)) ++ back)
    (hkey : ∀ c ∈ key.toList.head?, Text.isBlank c = false) (hfront : ∀ c ∈ front, Text.isBlank c = true)
    (hbefore : ∀ c ∈ before, Text.isBlank c = true) (hback : ∀ c ∈ back, Text.isBlank c = true)
    (hspells : Text.Spells numeral value.toNat) : Describes line key value := by
  have hplain := hspells.plain
  have hlast {text : List Char} : ∀ c ∈ (text ++ numeral).getLast?, Text.isBlank c = false := fun c hc => by
    rw [List.getLast?_append, List.getLast?_eq_some_getLast hspells.ne_nil, Option.some_or] at hc
    cases hc
    exact (hplain _ (List.getLast_mem hspells.ne_nil)).1
  have hhead : ∀ c ∈ (key.toList ++ ',' :: (before ++ numeral)).head?, Text.isBlank c = false := fun c hc => by
    rw [List.head?_append] at hc
    cases hfirst : key.toList.head? with
    | some d => exact hkey c (by rwa [hfirst] at hc ⊢)
    | none =>
      rw [hfirst] at hc
      cases hc
      decide
  have hcomma : ',' ∉ before ++ numeral := fun hmem => by
    rcases List.mem_append.mp hmem with h | h
    · exact absurd (hbefore _ h) (by decide)
    · exact (hplain _ h).2 rfl
  refine ⟨before ++ numeral, ⟨⟨front, back, hfront, hback, hline⟩, hhead, ?_⟩, hcomma, numeral,
    ⟨⟨before, [], hbefore, fun c hc => (nomatch hc), (List.append_nil _).symm⟩, fun c hc => ?_, ?_⟩, hspells⟩
  · rw [← List.cons_append, ← List.append_assoc]
    exact hlast
  · exact (hplain c (List.mem_of_head? hc)).1
  · exact fun c hc => (hplain c (List.mem_of_getLast? hc)).1

/-- A line is read as a key and a value exactly if it describes them. So a key that does not begin with a blank is read back
    with any value, whatever commas and blanks it holds, and whatever blanks stand around the line and around the value. -/
theorem parse_iff_describes :
    (∀ (line key : String) (value : UInt16), parse line = .ok ⟨Bytes.ofText key, value⟩ ↔ Describes line key value) ∧
    (∀ (line : String) (c : Conversion), parse line = .ok c → ∃ key : String, c.bucketKey = Bytes.ofText key) ∧
    ∀ (key : String) (value : UInt16) (front before back : String), (∀ c ∈ key.toList.head?, Text.isBlank c = false) →
      (∀ c ∈ front.toList, Text.isBlank c = true) → (∀ c ∈ before.toList, Text.isBlank c = true) →
      (∀ c ∈ back.toList, Text.isBlank c = true) →
      parse (front ++ key ++ "," ++ before ++ toString value.toNat ++ back) = .ok ⟨Bytes.ofText key, value⟩ := by
  refine ⟨fun line key value => ⟨fun h => ?_, parse_of_describes⟩, fun line c h => ?_,
    fun key value front before back hkey hfront hbefore hback => ?_⟩
  · obtain ⟨key', hkey, hdescribes⟩ := describes_of_parse h
    exact Bytes.ofText_injective hkey ▸ hdescribes
  · obtain ⟨key, hkey, -⟩ := describes_of_parse h
    exact ⟨key, hkey⟩
  · refine parse_of_describes (describes_of_append ?_ hkey hfront hbefore hback (Text.spells_toDigits value.toNat))
    have hvalue : (toString value.toNat).toList = Nat.toDigits 10 value.toNat := Nat.toList_repr
    have hcomma : ",".toList = [','] := rfl
    simp only [String.toList_append, hvalue, hcomma, List.append_assoc, List.cons_append, List.nil_append]

theorem parse_iff_describes_commas :
    parse ("\t" ++ "a,b " ++ "," ++ " " ++ toString (65535 : UInt16).toNat ++ "\u3000\n") =
      .ok ⟨Bytes.ofText "a,b ", 65535⟩ :=
  parse_iff_describes.2.2 "a,b " 65535 "\t" " " "\u3000\n" (by simp [Text.isBlank]) (by simp [Text.isBlank])
    (by simp [Text.isBlank]) (by simp [Text.isBlank])

end Conversion

end PrivateHistogram
