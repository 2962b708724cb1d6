import PrivateHistogram.Proofs.Json.Numerals

/-! Reading takes back what printing has written. A value is read up to its end (`Parses`); arrays and objects
    pass this on from their parts, so it holds of every value made of texts, natural numbers and quotable
    names (`parse?_print`). -/

namespace PrivateHistogram.Json

open PrivateHistogram.Json.Parser

/-- Values whose strings and names may stand between quotes, and whose numbers are natural. -/
inductive Printable : Json → Prop
  | null : Printable .null
  | bool (b : Bool) : Printable (.bool b)
  | nat (n : Nat) : Printable (Json.nat n)
  | string {content : Bytes} (h : Quotable content) : Printable (.string content)
  | array {items : List Json} (h : ∀ j ∈ items, Printable j) : Printable (.array items)
  | object {members : List (Bytes × Json)} (names : ∀ m ∈ members, Quotable m.1)
      (values : ∀ m ∈ members, Printable m.2) : Printable (.object members)

/-- A value is read up to its end, with fuel for twice its length. -/
def Parses (j : Json) : Prop :=
  ∀ (fuel : Nat) (rest : Bytes), 2 * (print j).length ≤ fuel + 1 → Ended rest →
    value? fuel (print j ++ rest) = some (j, rest)

/-- A byte that values start with. -/
def Starts (b : UInt8) : Prop :=
  ¬(b = 0x20 ∨ b = 0x0a ∨ b = 0x09 ∨ b = 0x0d) ∧ b ≠ 0x5d ∧ b ≠ 0x7d

instance : DecidablePred Starts := fun _ => inferInstanceAs (Decidable (_ ∧ _ ∧ _))

theorem starts_of_isDigit {b : UInt8} (h : isDigit b = true) : Starts b := by
  refine ⟨?_, ?_, ?_⟩
  · rintro (rfl | rfl | rfl | rfl) <;> exact absurd h (by decide)
  · rintro rfl
    exact absurd h (by decide)
  · rintro rfl
    exact absurd h (by decide)

theorem print_eq_cons {j : Json} (h : Printable j) : ∃ b t, print j = b :: t ∧ Starts b := by
  cases h with
  | null => exact ⟨_, _, rfl, by decide⟩
  | bool b => cases b <;> exact ⟨_, _, rfl, by decide⟩
  | nat n =>
    obtain ⟨b, t, hb, hd⟩ := Numeral.digits_eq_cons n
    exact ⟨b, t, (Numeral.print_ofNat n).trans hb, starts_of_isDigit hd⟩
  | string _ => exact ⟨_, _, rfl, by decide⟩
  | array _ => exact ⟨_, _, rfl, by decide⟩
  | object _ _ => exact ⟨_, _, rfl, by decide⟩

theorem printItems_eq_cons {j : Json} (h : Printable j) (items : List Json) :
    ∃ b t, printItems (j :: items) = b :: t ∧ Starts b := by
  obtain ⟨b, t, hb, hs⟩ := print_eq_cons h
  cases items with
  | nil => exact ⟨b, t, hb, hs⟩
  | cons j' items => exact ⟨b, t ++ 0x2c :: printItems (j' :: items), by simp [printItems, hb], hs⟩

theorem printMembers_eq_cons (m : Bytes × Json) (members : List (Bytes × Json)) :
    ∃ t, printMembers (m :: members) = 0x22 :: t := by
  obtain ⟨name, j⟩ := m
  cases members with
  | nil => exact ⟨_, by rw [printMembers, printMember, quote, List.cons_append]⟩
  | cons m' members => exact ⟨_, by simp only [printMembers, printMember, quote, List.cons_append]; rfl⟩

theorem skipBlank_cons {b : UInt8} (h : Starts b) (t : Bytes) : skipBlank (b :: t) = b :: t := by
  rw [skipBlank, if_neg h.1]

theorem skipBlank_comma (t : Bytes) : skipBlank (0x2c :: t) = 0x2c :: t := skipBlank_cons (by decide) t

theorem skipBlank_colon (t : Bytes) : skipBlank (0x3a :: t) = 0x3a :: t := skipBlank_cons (by decide) t

theorem skipBlank_print {j : Json} (h : Printable j) (rest : Bytes) : skipBlank (print j ++ rest) = print j ++ rest := by
  obtain ⟨b, t, hb, hs⟩ := print_eq_cons h
  rw [hb, List.cons_append, skipBlank_cons hs]

/-! ### Atoms -/

theorem parses_null : Parses .null := fun fuel rest hf _ => by
  cases fuel with
  | zero => simp [print] at hf
  | succ fuel => rfl

theorem parses_bool (b : Bool) : Parses (.bool b) := fun fuel rest hf _ => by
  cases fuel with
  | zero => cases b <;> simp [print] at hf
  | succ fuel => cases b <;> rfl

theorem parses_string {content : Bytes} (h : Quotable content) : Parses (.string content) := fun fuel rest hf _ => by
  cases fuel with
  | zero =>
    simp only [print, quote, List.length_cons] at hf
    omega
  | succ fuel =>
    rw [print, quote, List.cons_append, List.append_assoc, List.singleton_append, value?, if_pos rfl, h]
    rfl

theorem parses_nat (n : Nat) : Parses (Json.nat n) := fun fuel rest hf hr => by
  obtain ⟨b, t, hb, hd⟩ := Numeral.digits_eq_cons n
  have hprint : print (Json.nat n) = b :: t := (Numeral.print_ofNat n).trans hb
  cases fuel with
  | zero => simp [hprint] at hf; omega
  | succ fuel =>
    have hnumber := Numeral.number?_print n hr
    rw [Numeral.print_ofNat, hb, List.cons_append] at hnumber
    have hne : ∀ c : UInt8, isDigit c = false → b ≠ c := by
      rintro c hc rfl
      exact absurd hd (by simp [hc])
    rw [hprint, List.cons_append, value?, if_neg (hne _ (by decide)), if_neg (hne _ (by decide)),
      if_neg (hne _ (by decide)), if_neg (hne _ (by decide)), if_neg (hne _ (by decide)),
      if_neg (hne _ (by decide)), hnumber]
    rfl

/-! ### Arrays and objects -/

/-- The items of an array are read up to its closing bracket. -/
theorem items?_print {items : List Json} (hne : items ≠ []) (hp : ∀ j ∈ items, Printable j)
    (h : ∀ j ∈ items, Parses j) (fuel : Nat) (read : List Json) (rest : Bytes)
    (hf : 2 * (printItems items).length ≤ fuel) :
    items? fuel read (printItems items ++ 0x5d :: rest) = some (.array (read.reverse ++ items), rest) := by
  induction items generalizing fuel read with
  | nil => exact absurd rfl hne
  | cons j items ih =>
    obtain ⟨b, t, hb, -⟩ := print_eq_cons (hp j List.mem_cons_self)
    cases items with
    | nil =>
      simp only [printItems] at hf ⊢
      obtain _ | fuel := fuel
      · simp [hb] at hf
      · rw [items?, h j List.mem_cons_self fuel _ hf (ended_cons rest (by decide))]
        simp [skipBlank]
    | cons j' items =>
      have hlen : (printItems (j :: j' :: items)).length = (print j).length + ((printItems (j' :: items)).length + 1) := by
        simp [printItems]
      rw [hlen] at hf
      obtain _ | fuel := fuel
      · omega
      · have hnext := ih (by simp) (fun x hx => hp x (List.mem_cons_of_mem j hx))
          (fun x hx => h x (List.mem_cons_of_mem j hx)) fuel (j :: read) (by omega)
        have hblank : skipBlank (printItems (j' :: items) ++ 0x5d :: rest) = printItems (j' :: items) ++ 0x5d :: rest := by
          obtain ⟨b', t', hb', hs⟩ := printItems_eq_cons (hp j' (List.mem_cons_of_mem j List.mem_cons_self)) items
          rw [hb', List.cons_append, skipBlank_cons hs]
        have hsplit : printItems (j :: j' :: items) ++ 0x5d :: rest =
            print j ++ 0x2c :: (printItems (j' :: items) ++ 0x5d :: rest) := by
          simp [printItems]
        rw [hsplit, items?, h j List.mem_cons_self fuel _ (by omega) (ended_cons _ (by decide))]
        simp only [skipBlank_comma, hblank, hnext, List.reverse_cons, List.append_assoc, List.singleton_append]

/-- The members of an object are read up to its closing brace. -/
theorem members?_print {members : List (Bytes × Json)} (hne : members ≠ []) (hq : ∀ m ∈ members, Quotable m.1)
    (hp : ∀ m ∈ members, Printable m.2) (h : ∀ m ∈ members, Parses m.2) (fuel : Nat) (read : List (Bytes × Json))
    (rest : Bytes) (hf : 2 * (printMembers members).length ≤ fuel) :
    members? fuel read (printMembers members ++ 0x7d :: rest) = some (.object (read.reverse ++ members), rest) := by
  induction members generalizing fuel read with
  | nil => exact absurd rfl hne
  | cons m members ih =>
    obtain ⟨name, j⟩ := m
    have hname := hq (name, j) List.mem_cons_self
    have hj := hp (name, j) List.mem_cons_self
    have hparses := h (name, j) List.mem_cons_self
    simp only at hname hj hparses
    -- What is left after the name and its value.
    have hmember : ∀ tail : Bytes, printMember (name, j) ++ tail =
        0x22 :: (name ++ 0x22 :: (0x3a :: (print j ++ tail))) := by
      intro tail
      simp [printMember, quote]
    have hlen : (printMember (name, j)).length = (print j).length + name.length + 3 := by
      simp only [printMember, quote, List.length_append, List.length_cons, List.length_nil]
      omega
    cases members with
    | nil =>
      simp only [printMembers] at hf ⊢
      obtain _ | fuel := fuel
      · omega
      · have hvalue := hparses fuel (0x7d :: rest) (by omega) (ended_cons rest (by decide))
        rw [hmember, members?, hname]
        simp only [skipBlank_colon, skipBlank_print hj, hvalue]
        simp [skipBlank]
    | cons m' members =>
      have hall : (printMembers ((name, j) :: m' :: members)).length =
          (printMember (name, j)).length + ((printMembers (m' :: members)).length + 1) := by
        simp [printMembers]
      obtain _ | fuel := fuel
      · omega
      · have hnext := ih (by simp) (fun x hx => hq x (List.mem_cons_of_mem _ hx))
          (fun x hx => hp x (List.mem_cons_of_mem _ hx)) (fun x hx => h x (List.mem_cons_of_mem _ hx)) fuel
          ((name, j) :: read) (by omega)
        have hblank : skipBlank (printMembers (m' :: members) ++ 0x7d :: rest) =
            printMembers (m' :: members) ++ 0x7d :: rest := by
          obtain ⟨t', hb'⟩ := printMembers_eq_cons m' members
          rw [hb', List.cons_append, skipBlank_cons (by decide)]
        have hsplit : printMembers ((name, j) :: m' :: members) ++ 0x7d :: rest =
            printMember (name, j) ++ 0x2c :: (printMembers (m' :: members) ++ 0x7d :: rest) := by
          simp [printMembers]
        have hvalue := hparses fuel (0x2c :: (printMembers (m' :: members) ++ 0x7d :: rest)) (by omega)
          (ended_cons _ (by decide))
        rw [hsplit, hmember, members?, hname]
        simp only [skipBlank_colon, skipBlank_print hj, hvalue, skipBlank_comma, hblank, hnext, List.reverse_cons,
          List.reverse_nil, List.nil_append, List.append_assoc, List.singleton_append]

/-- A printable value is read up to its end. -/
theorem parses {j : Json} (h : Printable j) : Parses j := by
  induction h with
  | null => exact parses_null
  | bool b => exact parses_bool b
  | nat n => exact parses_nat n
  | string h => exact parses_string h
  | @array items hp ih =>
    intro fuel rest hf _
    have hsplit : print (.array items) ++ rest = 0x5b :: (printItems items ++ 0x5d :: rest) := by
      simp [print]
    have hlen : (print (.array items)).length = (printItems items).length + 2 := by
      simp [print]
    obtain _ | fuel := fuel
    · omega
    rw [hsplit]
    cases items with
    | nil => rfl
    | cons j items =>
      obtain ⟨b, t, hb, hs⟩ := printItems_eq_cons (hp j List.mem_cons_self) items
      have hitems := items?_print (by simp) hp ih fuel [] rest (by omega)
      rw [hb, List.cons_append] at hitems ⊢
      rw [value?, if_neg (by decide), if_pos rfl, skipBlank_cons hs]
      split
      · rename_i heq
        exact absurd (List.cons.inj heq).1 hs.2.1
      · exact hitems
  | @object members names values ih =>
    intro fuel rest hf _
    have hsplit : print (.object members) ++ rest = 0x7b :: (printMembers members ++ 0x7d :: rest) := by
      simp [print]
    have hlen : (print (.object members)).length = (printMembers members).length + 2 := by
      simp [print]
    obtain _ | fuel := fuel
    · omega
    rw [hsplit]
    cases members with
    | nil => rfl
    | cons m members =>
      obtain ⟨t, hb⟩ := printMembers_eq_cons m members
      have hmembers := members?_print (by simp) names values ih fuel [] rest (by omega)
      rw [hb, List.cons_append] at hmembers ⊢
      rw [value?, if_neg (by decide), if_neg (by decide), if_pos rfl, skipBlank_cons (by decide)]
      exact hmembers

/-- Reading takes back what printing has written. -/
theorem parse?_print {j : Json} (h : Printable j) : parse? (print j) = some j := by
  have hs := skipBlank_print h []
  have hv := parses h (2 * (print j).length + 1) [] (by omega) ended_nil
  rw [List.append_nil] at hs hv
  rw [parse?, hs, hv]
  rfl

end PrivateHistogram.Json
