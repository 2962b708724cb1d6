import Mathlib
import PrivateHistogram.Increasing

/-! `increasing` puts numbers in order: its result is strictly increasing and holds the same numbers, and a list is
    determined by these two. -/

namespace PrivateHistogram

/-- Dropping repetitions keeps the numbers, after those passed so far. -/
theorem mem_eraseReps_loop {x : UInt64} :
    ∀ {l acc : List UInt64} {a : UInt64}, x ∈ List.eraseRepsBy.loop (· == ·) a l acc ↔ x ∈ acc ∨ x = a ∨ x ∈ l
  | [], acc, a => by simp [List.eraseRepsBy.loop, or_comm]
  | b :: l, acc, a => by
    rw [List.eraseRepsBy.loop]
    by_cases h : a = b
    · subst h
      rw [beq_self_eq_true, mem_eraseReps_loop, List.mem_cons]
      tauto
    · rw [beq_false_of_ne h, mem_eraseReps_loop, List.mem_cons, List.mem_cons]
      tauto

/-- Numbers in order without repetitions are strictly increasing. -/
theorem pairwise_eraseReps_loop :
    ∀ {l acc : List UInt64} {a : UInt64}, (a :: l).Pairwise (· ≤ ·) → (a :: acc).Pairwise (· > ·) →
      (List.eraseRepsBy.loop (· == ·) a l acc).Pairwise (· < ·)
  | [], acc, a, _, hacc => List.pairwise_reverse.mpr hacc
  | b :: l, acc, a, hl, hacc => by
    obtain ⟨ha, hl⟩ := List.pairwise_cons.mp hl
    rw [List.eraseRepsBy.loop]
    by_cases h : a = b
    · subst h
      rw [beq_self_eq_true]
      exact pairwise_eraseReps_loop hl hacc
    · have hab : a < b := UInt64.lt_of_le_of_ne (ha b List.mem_cons_self) h
      rw [beq_false_of_ne h]
      refine pairwise_eraseReps_loop hl (List.pairwise_cons.mpr ⟨fun x hx => ?_, hacc⟩)
      rcases List.mem_cons.mp hx with rfl | hx
      · exact hab
      · exact UInt64.lt_trans ((List.pairwise_cons.mp hacc).1 x hx) hab

@[simp] theorem mem_increasing {x : UInt64} {l : List UInt64} : x ∈ increasing l ↔ x ∈ l := by
  have hmem : x ∈ l.mergeSort (fun a b => decide (a ≤ b)) ↔ x ∈ l := List.mem_mergeSort
  rw [← hmem, increasing, List.eraseReps]
  generalize l.mergeSort (fun a b => decide (a ≤ b)) = sorted
  cases sorted with
  | nil => rfl
  | cons a sorted => rw [List.eraseRepsBy, mem_eraseReps_loop, List.mem_cons, List.mem_nil_iff, false_or]

theorem pairwise_mergeSort (l : List UInt64) : (l.mergeSort fun a b => decide (a ≤ b)).Pairwise (· ≤ ·) := by
  refine (List.pairwise_mergeSort (fun a b c hab hbc => ?_) (fun a b => ?_) l).imp of_decide_eq_true
  · exact decide_eq_true (UInt64.le_trans (of_decide_eq_true hab) (of_decide_eq_true hbc))
  · simpa using UInt64.le_total a b

theorem pairwise_increasing (l : List UInt64) : (increasing l).Pairwise (· < ·) := by
  have hsorted := pairwise_mergeSort l
  rw [increasing, List.eraseReps]
  generalize l.mergeSort (fun a b => decide (a ≤ b)) = sorted at *
  cases sorted with
  | nil => exact List.Pairwise.nil
  | cons a l => exact pairwise_eraseReps_loop hsorted (List.pairwise_singleton _ _)

theorem eq_of_pairwise_lt {l l' : List UInt64} (hl : l.Pairwise (· < ·)) (hl' : l'.Pairwise (· < ·))
    (h : ∀ x, x ∈ l ↔ x ∈ l') : l = l' :=
  List.Perm.eq_of_pairwise (fun _ _ _ _ hab hba => absurd hba (UInt64.lt_asymm hab)) hl hl'
    ((List.perm_ext_iff_of_nodup (hl.imp UInt64.ne_of_lt) (hl'.imp UInt64.ne_of_lt)).mpr h)

theorem increasing_eq {l l' : List UInt64} (hl' : l'.Pairwise (· < ·)) (h : ∀ x, x ∈ l ↔ x ∈ l') : increasing l = l' :=
  eq_of_pairwise_lt (pairwise_increasing l) hl' fun x => mem_increasing.trans (h x)

theorem increasing_congr {l l' : List UInt64} (h : ∀ x, x ∈ l ↔ x ∈ l') : increasing l = increasing l' :=
  increasing_eq (pairwise_increasing l') fun x => (h x).trans mem_increasing.symm

theorem increasing_append_comm (l l' : List UInt64) : increasing (l ++ l') = increasing (l' ++ l) :=
  increasing_congr fun _ => List.perm_append_comm.mem_iff

theorem filter_increasing {l l' : List UInt64} {p : UInt64 → Bool} (h : ∀ x, x ∈ l' ↔ x ∈ l ∧ p x = true) :
    increasing l' = (increasing l).filter p :=
  increasing_eq ((pairwise_increasing l).filter p) fun x => by rw [h, List.mem_filter, mem_increasing]

theorem mergeSort_of_perm {l l' : List UInt64} (hl' : l'.Pairwise (· < ·)) (h : l.Perm l') :
    l.mergeSort (fun a b => decide (a ≤ b)) = l' :=
  List.Perm.eq_of_pairwise (fun _ _ _ _ hab hba => UInt64.le_antisymm hab hba) (pairwise_mergeSort l)
    (hl'.imp UInt64.le_of_lt) ((List.mergeSort_perm l _).trans h)

/-- Numbers sorted into boxes are the same numbers, in another order. -/
theorem perm_flatMap_filter {l : List UInt64} (hl : l.Pairwise (· < ·)) {box : UInt64 → ℕ} {boxes : ℕ}
    (hbox : ∀ x, box x < boxes) : ((List.range boxes).flatMap fun i => l.filter fun x => box x = i).Perm l := by
  have hnodup : ((List.range boxes).flatMap fun i => l.filter fun x => box x = i).Nodup := by
    refine List.nodup_flatMap.mpr ⟨fun i _ => (hl.imp UInt64.ne_of_lt).filter _, ?_⟩
    refine List.nodup_range.imp fun {i j} hij x hi hj => hij ?_
    rw [List.mem_filter, decide_eq_true_eq] at hi hj
    exact hi.2.symm.trans hj.2
  refine (List.perm_ext_iff_of_nodup hnodup (hl.imp UInt64.ne_of_lt)).mpr fun x => ?_
  simp only [List.mem_flatMap, List.mem_range, List.mem_filter, decide_eq_true_eq]
  exact ⟨fun ⟨_, _, hx, _⟩ => hx, fun hx => ⟨box x, hbox x, hx, rfl⟩⟩

end PrivateHistogram
