import PrivateHistogram.Proofs.Goldilocks.Residues
import PrivateHistogram.Proofs.PointFunction.CheckedPlans
import PrivateHistogram.Proofs.Sharing.Secrecy

/-! The field in words of 64 bits. Each operation is checked for what could go out of range: a difference below zero, a
    sum that is no word of 128 bits, a negation of the least signed word. However an element is come by, from outside or
    from other elements, no check fails, and the word that comes out is the number below the modulus that stands for the
    element (`Goldilocks.Term.inWords_gives`). So the field is computed exactly, and so are sums of signed words that are
    within half of the modulus (`Goldilocks.exact_in_words`). -/

namespace PrivateHistogram.Goldilocks

open Guarded

/-! ### Operations on words -/

def modulusWord : UInt64 := 0xffffffff00000001

/-- A word reduced: it is below twice the modulus. -/
def reduceWord? (a : UInt64) : Option UInt64 := if modulusWord ≤ a then sub? a modulusWord else some a

/-- The sum, which is made as two shares are put together. -/
def addWords? (a b : UInt64) : Option UInt64 := SecretSharing.combineWords? a b modulusWord

def negWord? (a : UInt64) : Option UInt64 := if a = 0 then some 0 else sub? modulusWord a

def subWords? (a b : UInt64) : Option UInt64 := do addWords? a (← negWord? b)

def sumWords? (l : List UInt64) : Option UInt64 := l.foldlM addWords? 0

/-- The second of two words, if asked, or the first. -/
def selectWord (choice : Bool) (a b : UInt64) : UInt64 := if choice then b else a

def negateWordIf? (choice : Bool) (a : UInt64) : Option UInt64 := do return selectWord choice a (← negWord? a)

def signedToWord? (a : Int64) : Option UInt64 := do
  let magnitude ← reduceWord? (Word.magnitude a)
  if a < 0 then negWord? magnitude else some magnitude

/-- A word that is below the modulus already. -/
def canonicalWord? (a : UInt64) : Option UInt64 := if modulusWord ≤ a then none else some a

def bytesToWord (bytes : Bytes) : Except DecodeError UInt64 :=
  if bytes.length < encodedSize then .error .shortRead
  else match canonicalWord? (.ofNat (Bytes.toNatLittle (bytes.take encodedSize))) with
    | some a => .ok a
    | none => .error .modulusOverflow

/-- The word that a JSON value is, if it is one and below the modulus. -/
def jsonToWord? (value : Json) : Option UInt64 := do
  let n ← value.toNat?
  if n < UInt64.size then canonicalWord? (.ofNat n) else none

/-- A random word below the modulus. -/
def drawWord {σ : Type} [ByteSource σ] (s : σ) : UInt64 × σ :=
  ByteSource.untilSome (fun s =>
    let (a, rest) := ByteSource.word64 s
    (canonicalWord? a, rest)) 0 ByteSource.retries s

theorem toNat_modulusWord : modulusWord.toNat = modulus := rfl

theorem eq_some_word {o : Option UInt64} {a : Goldilocks} (h : ∃ w, o = some w ∧ w.toNat = a.val) : o = some a.word := by
  obtain ⟨w, rfl, hw⟩ := h
  exact congrArg some (UInt64.toNat_inj.mp (hw.trans a.toNat_word.symm))

theorem reduceWord_eq (a : UInt64) : reduceWord? a = some (ofNat a.toNat).word := by
  have hlt := a.toNat_lt
  have hmodulus : modulus = 18446744069414584321 := rfl
  refine eq_some_word ?_
  rw [reduceWord?, val_ofNat]
  by_cases hle : modulusWord ≤ a
  · -- A word is below twice the modulus, so that what is left is below it.
    have hge := UInt64.le_iff_toNat_le.mp hle
    obtain ⟨w, hw, hnat⟩ := Word.exists_sub hge
    rw [toNat_modulusWord] at hge hnat
    refine ⟨w, (if_pos hle).trans hw, ?_⟩
    rw [hnat, Nat.mod_eq_sub_mod hge, Nat.mod_eq_of_lt (by omega)]
  · have hgt := UInt64.lt_iff_toNat_lt.mp (UInt64.not_le.mp hle)
    exact ⟨a, if_neg hle, (Nat.mod_eq_of_lt hgt).symm⟩

section
variable (a b : Goldilocks)

theorem addWords_eq : addWords? a.word b.word = some (a + b).word := by
  have hpos : 0 < modulusWord := by decide
  obtain ⟨w, hw, hnat⟩ := SecretSharing.combineWords_eq a.word b.word hpos
  refine eq_some_word ⟨w, hw, ?_⟩
  rw [hnat, toNat_word, toNat_word, toNat_modulusWord, val_add]

theorem negWord_eq : negWord? a.word = some (-a).word := by
  have hlt := a.val_lt
  refine eq_some_word ?_
  rw [negWord?, val_neg]
  by_cases hzero : a.word = 0
  · have hval : a.val = 0 := a.toNat_word.symm.trans (congrArg UInt64.toNat hzero)
    exact ⟨0, if_pos hzero, by rw [hval]; rfl⟩
  · have hval : a.val ≠ 0 := fun h => hzero (UInt64.toNat_inj.mp (a.toNat_word.trans h))
    obtain ⟨w, hw, hnat⟩ := Word.exists_sub (a := modulusWord) (b := a.word) (a.toNat_word.trans_le hlt.le)
    refine ⟨w, (if_neg hzero).trans hw, ?_⟩
    rw [hnat, toNat_word, toNat_modulusWord, Nat.mod_eq_of_lt (by omega)]

theorem subWords_eq : subWords? a.word b.word = some (a - b).word := by
  rw [subWords?, negWord_eq]
  exact addWords_eq a (-b)

theorem selectWord_eq (choice : Bool) : selectWord choice a.word b.word = (if choice then b else a).word := by
  cases choice <;> rfl

theorem negateWordIf_eq (choice : Bool) : negateWordIf? choice a.word = some (a.negateIf choice).word := by
  rw [negateWordIf?, negWord_eq]
  exact congrArg some (selectWord_eq a (-a) choice)

end

theorem sumWords_eq (l : List Goldilocks) : sumWords? (l.map word) = some (sum l).word := by
  -- Whatever has been added up so far, the sum goes on from there.
  have hfrom (a : Goldilocks) : (l.map word).foldlM addWords? a.word = some (l.foldl (· + ·) a).word := by
    induction l generalizing a with
    | nil => rfl
    | cons b l ih =>
      rw [List.map_cons, List.foldlM_cons, addWords_eq]
      exact ih (a + b)
  exact hfrom 0

/-- A signed word, of which the least is further from zero than the largest. -/
theorem signedToWord_eq (a : Int64) : signedToWord? a = some (ofInt a.toInt).word := by
  have hiff : a < 0 ↔ a.toInt < 0 := Int64.lt_iff_toInt_lt
  rw [signedToWord?, reduceWord_eq, Word.toNat_magnitude]
  change (if a < 0 then negWord? _ else some _) = _
  split
  · rename_i hneg
    rw [negWord_eq]
    have hvalue : -ofNat a.toInt.natAbs = ofInt a.toInt := residue_injective (by
      rw [residue_neg, residue_ofNat, residue_ofInt, ← Int.cast_natCast, ← Int.cast_neg]
      congr 1
      have := hiff.mp hneg
      omega)
    rw [hvalue]
  · rename_i hneg
    have hvalue : ofNat a.toInt.natAbs = ofInt a.toInt := by
      rw [← ofInt_natCast]
      congr 1
      have := mt hiff.mpr hneg
      omega
    rw [hvalue]

theorem canonicalWord_eq (a : UInt64) : canonicalWord? a = (ofNat? a.toNat).map word := by
  have hiff : modulusWord ≤ a ↔ modulus ≤ a.toNat := UInt64.le_iff_toNat_le
  rw [canonicalWord?]
  split
  · rename_i hle
    rw [ofNat?_eq_none.mpr (hiff.mp hle)]
    rfl
  · rename_i hgt
    have hlt : a.toNat < modulus := Nat.lt_of_not_le (mt hiff.mpr hgt)
    have hread : ofNat? a.toNat = some ⟨a.toNat, hlt⟩ := ofNat?_eq_some.mpr rfl
    rw [hread, Option.map_some]
    exact eq_some_word ⟨a, rfl, rfl⟩

theorem bytesToWord_eq (bytes : Bytes) : bytesToWord bytes = (ofBytes bytes).map word := by
  rw [bytesToWord, ofBytes]
  split
  · rfl
  · rename_i hlong
    have hlt := Bytes.toNatLittle_lt (bytes.take encodedSize)
    rw [List.length_take_of_le (Nat.le_of_not_lt hlong)] at hlt
    rw [canonicalWord_eq, UInt64.toNat_ofNat_of_lt' hlt]
    cases ofNat? _ <;> rfl

theorem jsonToWord_eq (value : Json) : jsonToWord? value = (Codec.decode? value : Option Goldilocks).map word := by
  change _ = (value.toNat?.bind ofNat?).map word
  rw [jsonToWord?]
  cases value.toNat? with
  | none => rfl
  | some n =>
    simp only [Option.bind_eq_bind, Option.bind_some]
    split
    · rename_i hlt
      rw [canonicalWord_eq, UInt64.toNat_ofNat_of_lt' hlt]
    · -- A number that is no word is not below the modulus either.
      rename_i hge
      rw [ofNat?_eq_none.mpr (le_trans (by decide) (Nat.le_of_not_lt hge))]
      rfl

theorem drawWord_eq {σ : Type} [ByteSource σ] (s : σ) : drawWord s = Prod.map word id (draw s) := by
  let attempt (s : σ) : Option Goldilocks × σ := (ofNat? (ByteSource.word64 s).1.toNat, (ByteSource.word64 s).2)
  have hattempt (s : σ) : (canonicalWord? (ByteSource.word64 s).1, (ByteSource.word64 s).2) =
      Prod.map (Option.map word) id (attempt s) :=
    Prod.ext (canonicalWord_eq _) rfl
  exact ByteSource.untilSome_map hattempt 0 ByteSource.retries s

/-! ### Terms -/

/-- A way to come by an element: from a word, a signed word, bytes, a JSON value or a source of random bytes, or by an
    operation on other elements. -/
inductive Term
  | word (value : UInt64)
  | signed (value : Int64)
  | bytes (content : Bytes)
  | json (value : Json)
  | drawn {σ : Type} [ByteSource σ] (source : σ)
  | add (a b : Term)
  | sub (a b : Term)
  | neg (a : Term)
  | sum (count : ℕ) (terms : Fin count → Term)
  | select (choice : Bool) (a b : Term)
  | negateIf (choice : Bool) (a : Term)

/-- Why there is no element. -/
inductive Refusal
  | bytes (cause : DecodeError)
  | json

namespace Term

/-- The element that a term stands for. -/
def element : Term → Except Refusal Goldilocks
  | .word value => .ok (.ofNat value.toNat)
  | .signed value => .ok (.ofInt value.toInt)
  | .bytes content => (ofBytes content).mapError .bytes
  | .json value => (Codec.decode? value).elim (.error .json) .ok
  | @drawn _ _ source => .ok (draw source).1
  | .add a b => do return (← a.element) + (← b.element)
  | .sub a b => do return (← a.element) - (← b.element)
  | .neg a => a.element.map (- ·)
  | .sum count terms => ((List.finRange count).mapM fun i => (terms i).element).map Goldilocks.sum
  | .select choice a b => do
    let first ← a.element
    let second ← b.element
    return if choice then second else first
  | .negateIf choice a => a.element.map (Goldilocks.negateIf choice)

/-- The word that a term stands for. -/
def inWords : Term → Guarded Refusal UInt64
  | .word value => liftM (reduceWord? value)
  | .signed value => liftM (signedToWord? value)
  | .bytes content => liftM ((bytesToWord content).mapError Refusal.bytes)
  | .json value => liftM ((jsonToWord? value).elim (.error .json) .ok : Except Refusal UInt64)
  | @drawn _ _ source => return (drawWord source).1
  | .add a b => do liftM (addWords? (← a.inWords) (← b.inWords))
  | .sub a b => do liftM (subWords? (← a.inWords) (← b.inWords))
  | .neg a => do liftM (negWord? (← a.inWords))
  | .sum count terms => do liftM (sumWords? (← (List.finRange count).mapM fun i => (terms i).inWords))
  | .select choice a b => do
    let first ← a.inWords
    let second ← b.inWords
    return selectWord choice first second
  | .negateIf choice a => do liftM (negateWordIf? choice (← a.inWords))

/-- Whatever is computed, nothing goes out of range, and the word is that of the element. -/
theorem inWords_gives (t : Term) : Gives t.inWords (t.element.map Goldilocks.word) := by
  induction t with
  | word value => exact Gives.of_eq_some (reduceWord_eq value)
  | signed value => exact Gives.of_eq_some (signedToWord_eq value)
  | bytes content =>
    rw [inWords, element, bytesToWord_eq]
    cases ofBytes content <;> rfl
  | json value =>
    rw [inWords, element, jsonToWord_eq]
    cases (Codec.decode? value : Option Goldilocks) <;> rfl
  | drawn source =>
    rw [inWords, drawWord_eq, Prod.map_fst]
    exact Gives.pure _
  | add a b iha ihb => exact iha.apply₂ ihb addWords_eq
  | sub a b iha ihb => exact iha.apply₂ ihb subWords_eq
  | neg a iha => exact iha.apply negWord_eq
  | sum count terms ih =>
    have hterms : Gives ((List.finRange count).mapM fun i => (terms i).inWords) _ := Gives.mapM fun i _ => ih i
    exact hterms.apply sumWords_eq
  | select choice a b iha ihb =>
    exact iha.apply₂ (f := fun a b => some (selectWord choice a b)) (g := fun a b => if choice then b else a) ihb
      fun a b => congrArg some (selectWord_eq a b choice)
  | negateIf choice a iha => exact iha.apply fun a => negateWordIf_eq a choice

end Term

/-! ### The field -/

theorem mapM_signedToWord (l : List Int64) : l.mapM signedToWord? = some ((l.map fun v => ofInt v.toInt).map word) := by
  have hpure : signedToWord? = fun v => pure (ofInt v.toInt).word := funext signedToWord_eq
  rw [hpure, List.mapM_pure, List.map_map]
  rfl

theorem sum_signed (l : List Int64) : sum (l.map fun v => ofInt v.toInt) = ofInt (l.map Int64.toInt).sum := by
  rw [sum_eq, ← sum_ofInt, List.map_map]
  rfl

/-- Elements are the residues modulo the prime, each held as the number below it, and all that is computed with them is
    computed in words, of which none goes out of range. An element is spelled by exactly one string of eight bytes, and
    read from the strings that begin with it. Read as a signed number it gives the element back, and signed words are
    added up exactly as long as their sum is within half of the modulus, also if it is not on the way there. -/
theorem exact_in_words :
    (Function.Bijective residue ∧
      (∀ a b : Goldilocks, (a + b).residue = a.residue + b.residue ∧ (a - b).residue = a.residue - b.residue) ∧
      (∀ a : Goldilocks, (-a).residue = -a.residue) ∧
      (∀ (choice : Bool) (a : Goldilocks), (a.negateIf choice).residue = if choice then -a.residue else a.residue) ∧
      (∀ l : List Goldilocks, (sum l).residue = (l.map residue).sum) ∧
      (∀ n : ℕ, (ofNat n).residue = n) ∧ ∀ x : ℤ, (ofInt x).residue = x) ∧
    ((∀ t : Term, Gives t.inWords (t.element.map word)) ∧ ∀ a : Goldilocks, a.word.toNat = a.val ∧ a.val < modulus) ∧
    ((∀ bytes : Bytes, (∃ a : Goldilocks, a.toBytes = bytes) ↔ bytes.length = 8 ∧ Bytes.toNatLittle bytes < modulus) ∧
      (∀ (bytes : Bytes) (a : Goldilocks), ofBytes bytes = .ok a ↔ ∃ rest, bytes = a.toBytes ++ rest) ∧
      (∀ bytes : Bytes, ofBytes bytes = .error .shortRead ↔ bytes.length < 8) ∧
      (∀ bytes : Bytes,
        ofBytes bytes = .error .modulusOverflow ↔ 8 ≤ bytes.length ∧ modulus ≤ Bytes.toNatLittle (bytes.take 8)) ∧
      ∀ (value : Json) (a : Goldilocks), (Codec.decode? value : Option Goldilocks) = some a ↔ value.toNat? = some a.val) ∧
    (∀ a : Goldilocks, |a.toInt| ≤ (modulus - 1) / 2 ∧ ofInt a.toInt = a ∧
      ∃ v, wordToSigned? a.word = some v ∧ v.toInt = a.toInt ∧ signedToWord? v = some a.word) ∧
    ∀ l : List Int64, |(l.map Int64.toInt).sum| ≤ (modulus - 1) / 2 →
      (sum (l.map fun v => ofInt v.toInt)).toInt = (l.map Int64.toInt).sum ∧
      ∃ words total v, l.mapM signedToWord? = some words ∧ sumWords? words = some total ∧ wordToSigned? total = some v ∧
        v.toInt = (l.map Int64.toInt).sum := by
  refine ⟨⟨residue_bijective, fun a b => ⟨residue_add a b, residue_sub a b⟩, residue_neg, residue_negateIf, residue_sum,
      residue_ofNat, residue_ofInt⟩, ⟨Term.inWords_gives, fun a => ⟨a.toNat_word, a.val_lt⟩⟩,
    ⟨fun _ => exists_toBytes_iff, fun _ _ => ofBytes_eq_ok, fun _ => ofBytes_eq_shortRead, fun _ =>
      ofBytes_eq_modulusOverflow, fun _ _ => decode_eq_some⟩,
    fun a => ⟨a.abs_toInt_le, ofInt_toInt a, ?_⟩, fun l hl => ?_⟩
  · obtain ⟨v, hv, hvalue⟩ := a.wordToSigned_eq
    exact ⟨v, hv, hvalue, by rw [signedToWord_eq, hvalue, ofInt_toInt]⟩
  · have htotal : (sum (l.map fun v => ofInt v.toInt)).toInt = (l.map Int64.toInt).sum := by
      rw [sum_signed, toInt_ofInt hl]
    obtain ⟨v, hv, hvalue⟩ := (sum (l.map fun v => ofInt v.toInt)).wordToSigned_eq
    exact ⟨htotal, _, _, v, mapM_signedToWord l, sumWords_eq _, hv, hvalue.trans htotal⟩

/-- The least signed word, with others that bring the sum back. -/
theorem exact_in_words_least :
    let l : List Int64 := [Int64.minValue, Int64.minValue, Int64.maxValue, Int64.maxValue]
    |(l.map Int64.toInt).sum| ≤ ((modulus : ℤ) - 1) / 2 ∧ (sum (l.map fun v => ofInt v.toInt)).toInt = -2 ∧
      ∃ words total v, l.mapM signedToWord? = some words ∧ sumWords? words = some total ∧ wordToSigned? total = some v ∧
        v.toInt = -2 := by
  intro l
  have hsum : (l.map Int64.toInt).sum = -2 := by decide
  have hwithin : |(l.map Int64.toInt).sum| ≤ ((modulus : ℤ) - 1) / 2 := by
    rw [hsum]
    decide
  obtain ⟨-, -, -, -, hsigned⟩ := exact_in_words
  have hexact := hsigned l hwithin
  rw [hsum] at hexact
  exact ⟨hwithin, hexact⟩

/-- A string of nine bytes is no element's, and an element is read from it. -/
theorem ninth_byte_ignored :
    let bytes : Bytes := [1, 0, 0, 0, 0, 0, 0, 0, 1]
    ¬(bytes.length = 8 ∧ Bytes.toNatLittle bytes < modulus) ∧ ofBytes bytes = .ok 1 ∧ ¬∃ e, ofBytes bytes = .error e := by
  intro bytes
  have hread : ofBytes bytes = .ok 1 := rfl
  refine ⟨by decide, hread, fun ⟨e, he⟩ => ?_⟩
  cases hread.symm.trans he

end PrivateHistogram.Goldilocks
