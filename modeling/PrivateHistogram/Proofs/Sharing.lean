import PrivateHistogram.Goldilocks
import PrivateHistogram.SecretSharing
import PrivateHistogram.Proofs.Draws

/-! Two shares make up what was split: byte strings by exclusive or (`splitBytes_yields`), integers as elements
    of the field (`splitInt_yields`). -/

namespace PrivateHistogram

/-- An attempt that is repeated gives what each attempt gives, or the fallback. -/
theorem ByteSource.untilSome_keeps {α : Type} {attempt : RandomTape → Option α × RandomTape} {fallback : α}
    {P : α → Prop} (hattempt : ∀ tape, (∀ a ∈ (attempt tape).1, P a) ∧ (attempt tape).2.fault = tape.fault)
    (hfallback : P fallback) (limit : ℕ) (tape : RandomTape) :
    P (untilSome attempt fallback limit tape).1 ∧ (untilSome attempt fallback limit tape).2.fault = tape.fault := by
  induction limit generalizing tape with
  | zero => exact ⟨hfallback, rfl⟩
  | succ limit ih =>
    obtain ⟨hfound, hrest⟩ := hattempt tape
    rw [untilSome]
    generalize attempt tape = result at *
    obtain ⟨_ | a, rest⟩ := result
    · exact ⟨(ih rest).1, (ih rest).2.trans hrest⟩
    · exact ⟨hfound a rfl, hrest⟩

/-- The first attempt that gives a value is the last. -/
theorem ByteSource.untilSome_first {σ α : Type} {attempt : σ → Option α × σ} {states : ℕ → σ} {found : ℕ → Option α}
    (hattempt : ∀ j, attempt (states j) = (found j, states (j + 1))) {i : ℕ} (hbefore : ∀ j < i, found j = none) {a : α}
    (hfound : found i = some a) {fallback : α} {limit : ℕ} (hi : i < limit) :
    untilSome attempt fallback limit (states 0) = (a, states (i + 1)) := by
  induction i generalizing states found limit with
  | zero =>
    obtain ⟨limit, rfl⟩ := Nat.exists_eq_add_of_lt hi
    rw [Nat.zero_add, untilSome, hattempt, hfound]
  | succ i ih =>
    obtain ⟨limit, rfl⟩ := Nat.exists_eq_succ_of_ne_zero (Nat.ne_zero_of_lt hi)
    rw [untilSome, hattempt, hbefore 0 i.succ_pos]
    exact ih (fun j => hattempt (j + 1)) (fun j hj => hbefore (j + 1) (Nat.succ_lt_succ hj)) hfound
      (Nat.lt_of_succ_lt_succ hi)

/-- Attempts whose results have another form. -/
theorem ByteSource.untilSome_map {σ α β : Type} {attempt : σ → Option α × σ} {attempt' : σ → Option β × σ} {form : α → β}
    (h : ∀ s, attempt' s = Prod.map (Option.map form) id (attempt s)) (fallback : α) (limit : ℕ) (s : σ) :
    untilSome attempt' (form fallback) limit s = Prod.map form id (untilSome attempt fallback limit s) := by
  induction limit generalizing s with
  | zero => rfl
  | succ limit ih =>
    rw [untilSome, untilSome, h]
    rcases attempt s with ⟨_ | a, rest⟩
    · exact ih rest
    · rfl

theorem Bytes.xor_comm (a b : Bytes) : a.xor b = b.xor a :=
  List.zipWith_comm_of_comm fun _ _ => UInt8.xor_comm _ _

theorem Bytes.xor_xor_cancel {data share : Bytes} (h : share.length = data.length) :
    share.xor (data.xor share) = data := by
  refine List.ext_getElem ?_ fun i h1 h2 => ?_
  · simp [length_xor, h]
  · simp [xor]

namespace SecretSharing

theorem splitBytes_yields (data : Bytes) :
    TryDraw.Yields (splitBytes data) fun shares =>
      shares.1.length = shares.2.length ∧ shares.1.xor shares.2 = data := by
  refine TryDraw.Yields.of_run fun tape ht => ?_
  have hlength := RandomTape.length_take data.length tape
  refine ⟨((tape.take data.length).1, data.xor (tape.take data.length).1), (tape.take data.length).2, ?_, ht, ?_, ?_⟩
  · simp only [splitBytes, RandomTape.take?, ht]
  · rw [Bytes.length_xor, hlength, Nat.min_self]
  · exact Bytes.xor_xor_cancel hlength

/-- A byte string is split only on a tape without a fault. -/
theorem fault_of_splitBytes {data : Bytes} {shares : Bytes × Bytes} {tape rest : RandomTape}
    (h : splitBytes data tape = (.ok shares, rest)) : tape.fault = none := by
  rw [splitBytes, RandomTape.take?] at h
  cases ht : tape.fault with
  | none => rfl
  | some reason =>
    simp only [ht] at h
    cases h

/-- A number drawn below a bound is below it, also after so many rejected words that none is taken. -/
theorem drawBelow_lt {bound : ℕ} (hbound : 0 < bound) (tape : RandomTape) :
    (drawBelow bound tape).1 < bound ∧ (drawBelow bound tape).2.fault = tape.fault := by
  refine ByteSource.untilSome_keeps (P := fun n => n < bound) (fun tape => ⟨fun n hn => ?_, rfl⟩) hbound _ tape
  simp only [Option.mem_def, Option.ite_none_right_eq_some, Option.some.injEq] at hn
  rw [← hn.2]
  exact Nat.div_lt_of_lt_mul (Nat.mul_lt_mul_of_pos_right (UInt64.toNat_lt _) hbound)

theorem ofNat_add_ofNat {share : ℕ} (hshare : share < Goldilocks.modulus) (value : ℕ) :
    Goldilocks.ofNat share +
      Goldilocks.ofNat (if share ≤ value then value - share else Goldilocks.modulus - (share - value)) =
        Goldilocks.ofNat value := by
  refine Goldilocks.ext ?_
  rw [Goldilocks.val_add, Goldilocks.val_ofNat, Goldilocks.val_ofNat, ← Nat.add_mod]
  split
  · rw [Nat.add_sub_cancel' (by assumption), Goldilocks.val_ofNat]
  · rw [show share + (Goldilocks.modulus - (share - value)) = value + Goldilocks.modulus by omega,
      Nat.add_mod_right, Goldilocks.val_ofNat]

theorem splitInt_yields {value : ℕ} (hvalue : value < Goldilocks.modulus) :
    TryDraw.Yields (splitInt value Goldilocks.modulus) fun shares =>
      Goldilocks.ofNat shares.1 + Goldilocks.ofNat shares.2 = Goldilocks.ofNat value := by
  refine TryDraw.Yields.of_run fun tape ht => ?_
  obtain ⟨hlt, hfault⟩ := drawBelow_lt Goldilocks.modulus_pos tape
  rw [splitInt, if_neg Goldilocks.modulus_pos.ne', if_neg hvalue.not_ge]
  generalize drawBelow Goldilocks.modulus tape = drawn at *
  obtain ⟨share, rest⟩ := drawn
  exact ⟨_, rest, rfl, hfault.trans ht, ofNat_add_ofNat hlt value⟩

end SecretSharing

end PrivateHistogram
