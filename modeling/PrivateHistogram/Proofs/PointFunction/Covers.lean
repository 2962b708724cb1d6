import PrivateHistogram.Proofs.PointFunction.Plans

/-! Runs of buckets, and the parents that cover them. A run may start and end in the middle of what is below a parent,
    so the values of its buckets are cut out of those below the parents (`toList_window`), and two runs, one after the
    other, can have a parent in common (`Plan.parentsCovering_next`). -/

namespace PrivateHistogram.PointFunction

namespace Plan
variable {p : Plan} {start stop : ℕ}

theorem parentsCovering_of_lt (h : start < stop) : p.parentsCovering start stop =
    (start / 2 ^ p.subtreeBits.toNat, (stop - 1) / 2 ^ p.subtreeBits.toNat + 1) := by
  rw [parentsCovering, if_pos h, Nat.shiftRight_eq_div_pow, Nat.shiftRight_eq_div_pow]

theorem parentsCovering_of_le (h : stop ≤ start) : p.parentsCovering start stop = (0, 0) := by
  rw [parentsCovering, if_neg (Nat.not_lt.mpr h)]

theorem parentsCovering_zero (stop : ℕ) : (p.parentsCovering 0 stop).1 = 0 := by
  rcases Nat.eq_zero_or_pos stop with rfl | hpos
  · rfl
  · rw [parentsCovering_of_lt hpos, Nat.zero_div]

theorem parentsCovering_le (start : ℕ) (hstop : stop ≤ p.size) :
    (p.parentsCovering start stop).1 ≤ (p.parentsCovering start stop).2 ∧
      (p.parentsCovering start stop).2 ≤ p.parents.size := by
  rcases Nat.lt_or_ge start stop with hlt | hge
  · rw [parentsCovering_of_lt hlt]
    refine ⟨(Nat.div_le_div_right (by omega)).trans (Nat.le_succ _), ?_⟩
    rw [Nat.succ_le_iff, Nat.div_lt_iff_lt_mul (by positivity)]
    exact lt_of_lt_of_le (by omega) hstop
  · rw [parentsCovering_of_le hge]
    exact ⟨le_refl _, Nat.zero_le _⟩

/-- The buckets of a run are below the parents that cover it. -/
theorem parentsCovering_covers (h : start < stop) :
    (p.parentsCovering start stop).1 * 2 ^ p.subtreeBits.toNat ≤ start ∧
      stop ≤ (p.parentsCovering start stop).2 * 2 ^ p.subtreeBits.toNat := by
  rw [parentsCovering_of_lt h]
  refine ⟨Nat.div_mul_le_self _ _, ?_⟩
  have hdiv := Nat.lt_div_mul_add (a := stop - 1) (show 0 < 2 ^ p.subtreeBits.toNat by positivity)
  rw [Nat.add_mul, Nat.one_mul]
  omega

/-- The parents of a run start with the last one of the buckets before it, or with the next. -/
theorem parentsCovering_next (h : start < stop) :
    (p.parentsCovering start stop).1 ≤ (p.parentsCovering 0 start).2 ∧
      (p.parentsCovering 0 start).2 ≤ (p.parentsCovering start stop).2 ∧
      (p.parentsCovering start stop).2 = (p.parentsCovering 0 stop).2 := by
  rw [parentsCovering_of_lt h, parentsCovering_of_lt (Nat.zero_lt_of_lt h)]
  rcases Nat.eq_zero_or_pos start with rfl | hpos
  · rw [parentsCovering_of_le (le_refl 0), Nat.zero_div]
    exact ⟨le_refl _, Nat.zero_le _, rfl⟩
  · rw [parentsCovering_of_lt hpos]
    refine ⟨?_, Nat.succ_le_succ (Nat.div_le_div_right (by omega)), rfl⟩
    have hwidth : 0 < 2 ^ p.subtreeBits.toNat := by positivity
    calc start / 2 ^ p.subtreeBits.toNat
        ≤ (start - 1 + 2 ^ p.subtreeBits.toNat) / 2 ^ p.subtreeBits.toNat := Nat.div_le_div_right (by omega)
      _ = (start - 1) / 2 ^ p.subtreeBits.toNat + 1 := Nat.add_div_right _ hwidth

/-- All parents cover all buckets. -/
theorem parentsCovering_size : p.parentsCovering 0 p.size = (0, p.parents.size) := by
  refine Prod.ext (parentsCovering_zero p.size) (Nat.le_antisymm (parentsCovering_le 0 (le_refl p.size)).2 ?_)
  rcases Nat.eq_zero_or_pos p.size with hzero | hpos
  · rw [size] at hzero
    have := (Nat.mul_eq_zero.mp hzero).resolve_right (Nat.pow_pos (Nat.zero_lt_two)).ne'
    omega
  · have hwidth : 0 < 2 ^ p.subtreeBits.toNat := by positivity
    exact Nat.le_of_mul_le_mul_right (parentsCovering_covers hpos).2 hwidth

/-- The parents of the buckets of a plan up to a number. -/
def parentsUpTo (p : Plan) (stop : ℕ) : List UInt64 := p.parents.toList.take (p.parentsCovering 0 stop).2

theorem parentsUpTo_zero : p.parentsUpTo 0 = [] := rfl

theorem parentsUpTo_size : p.parentsUpTo p.size = p.parents.toList := by
  rw [parentsUpTo, parentsCovering_size]
  exact List.take_length

end Plan

/-- What is cut out of the values below the covering parents are the values of the run itself. -/
theorem toList_window {α : Type} (value : ℕ → α) {start stop offset length : ℕ} (values : Array α)
    (hvalues : values.toList = (List.range' offset length).map value)
    (hcover : start < stop → offset ≤ start ∧ stop ≤ offset + length) :
    (values.extract (start - offset) (stop - offset)).toList = (List.range' start (stop - start)).map value := by
  rw [Array.toList_extract, hvalues, List.extract_eq_take_drop, ← List.map_drop, ← List.map_take, List.drop_range']
  refine congrArg (List.map value) ?_
  rcases Nat.lt_or_ge start stop with hlt | hge
  · obtain ⟨hstart, hstop⟩ := hcover hlt
    rw [List.take_range'_of_length_ge (by omega), Nat.mul_one, Nat.add_sub_cancel' hstart]
    congr 1
    omega
  · rw [Nat.sub_eq_zero_of_le (show stop - offset ≤ start - offset by omega), Nat.sub_eq_zero_of_le hge, List.take_zero,
      List.range'_zero]

end PrivateHistogram.PointFunction
