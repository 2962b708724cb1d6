import PrivateHistogram.PartialHistogram
import PrivateHistogram.Proofs.Draws

/-! Labels of a histogram. They are all taken exactly if no two bucket keys share a bucket, and then the one that stays in
    a bucket is that of the smallest report, in whatever order they come (`addAll_cases`). -/

namespace PrivateHistogram

theorem reportId_eq {a b : ReportId} (h : (compare a b).isLE = true) (h' : (compare b a).isLE = true) : a = b := by
  have hcompare : compare a b = .eq := by
    rw [Std.OrientedOrd.eq_swap (a := b)] at h'
    cases hcompare : compare a b <;> simp_all
  exact Std.LawfulEqCmp.eq_of_compare hcompare

namespace Labels

/-- Labels of one bucket are of one bucket key. -/
def Agree (list : List (UInt64 × BucketLabel)) : Prop :=
  ∀ b l l', (b, l) ∈ list → (b, l') ∈ list → l.aggregationId = l'.aggregationId

/-- Each labelled bucket holds the label of its smallest report. -/
structure Smallest (list : List (UInt64 × BucketLabel)) (labels : Labels) : Prop where
  mem : ∀ b l, labels[b]? = some l → (b, l) ∈ list
  isLE : ∀ b l l', labels[b]? = some l → (b, l') ∈ list → (compare l.reportId l'.reportId).isLE = true
  complete : ∀ b l, (b, l) ∈ list → ∃ l', labels[b]? = some l'

theorem smallest_empty : Smallest [] ∅ where
  mem b l h := by simp at h
  isLE b l l' h := by simp at h
  complete b l h := nomatch h

section Add
variable {seen : List (UInt64 × BucketLabel)} {labels : Labels} (h : Smallest seen labels) {b : UInt64} {l : BucketLabel}
include h

theorem Smallest.insert (hle : ∀ l', (b, l') ∈ seen → (compare l.reportId l'.reportId).isLE = true) :
    Smallest (seen ++ [(b, l)]) (Std.ExtTreeMap.insert labels b l) := by
  have hget : ∀ b', (Std.ExtTreeMap.insert labels b l)[b']? = if b = b' then some l else labels[b']? := fun b' => by
    rw [Std.ExtTreeMap.getElem?_insert]
    simp
  refine ⟨fun b' l' hl' => ?_, fun b' l' l'' hl' hl'' => ?_, fun b' l' hl' => ?_⟩
  · rw [hget] at hl'
    split at hl'
    · cases hl'
      subst b'
      exact List.mem_append_right _ List.mem_cons_self
    · exact List.mem_append_left _ (h.mem b' l' hl')
  · rw [hget] at hl'
    rw [List.mem_append, List.mem_singleton] at hl''
    split at hl'
    · cases hl'
      subst b'
      rcases hl'' with hl'' | hl''
      · exact hle l'' hl''
      · cases hl''
        exact Std.ReflCmp.isLE_rfl
    · rcases hl'' with hl'' | hl''
      · exact h.isLE b' l' l'' hl' hl''
      · cases hl''
        exact absurd rfl (by assumption)
  · rw [hget]
    split
    · exact ⟨l, rfl⟩
    · rw [List.mem_append, List.mem_singleton] at hl'
      rcases hl' with hl' | hl'
      · exact h.complete b' l' hl'
      · cases hl'
        exact absurd rfl (by assumption)

theorem Smallest.keep {held : BucketLabel} (hheld : labels[b]? = some held)
    (hle : (compare held.reportId l.reportId).isLE = true) : Smallest (seen ++ [(b, l)]) labels := by
  refine ⟨fun b' l' hl' => List.mem_append_left _ (h.mem b' l' hl'), fun b' l' l'' hl' hl'' => ?_, fun b' l' hl' => ?_⟩
  · rw [List.mem_append, List.mem_singleton] at hl''
    rcases hl'' with hl'' | hl''
    · exact h.isLE b' l' l'' hl' hl''
    · cases hl''
      cases hheld.symm.trans hl'
      exact hle
  · rw [List.mem_append, List.mem_singleton] at hl'
    rcases hl' with hl' | hl'
    · exact h.complete b' l' hl'
    · cases hl'
      exact ⟨held, hheld⟩

theorem Smallest.of_add {labels' : Labels} (hadd : add b l labels = (.ok (), labels')) :
    Smallest (seen ++ [(b, l)]) labels' := by
  rw [Labels.add] at hadd
  cases hheld : labels[b]? with
  | none =>
    simp only [hheld] at hadd
    cases hadd
    refine h.insert fun l' hl' => ?_
    obtain ⟨held, hheld'⟩ := h.complete b l' hl'
    cases hheld.symm.trans hheld'
  | some held =>
    simp only [hheld] at hadd
    split at hadd
    · cases hadd
    · split at hadd
      · rename_i hle
        cases hadd
        exact h.keep hheld hle
      · rename_i hle
        cases hadd
        refine h.insert fun l' hl' => ?_
        have hge : (compare l.reportId held.reportId).isLE = true := by
          rw [Std.OrientedOrd.eq_swap]
          cases hcompare : compare held.reportId l.reportId <;> simp_all
        exact Std.TransOrd.isLE_trans hge (h.isLE b held l' hheld hl')

end Add

/-! ### Labels one after the other -/

/-- What a bucket holds once a label has come to it: the label of the smaller report, or what was there before. -/
def chosen (held : Option BucketLabel) (label : BucketLabel) : BucketLabel :=
  match held with
  | none => label
  | some l => if (compare l.reportId label.reportId).isLE then l else label

/-- A label is refused if its bucket holds one of another bucket key. -/
def Refuses (labels : Labels) (bucket : UInt64) (label : BucketLabel) : Prop :=
  ∃ held, labels[bucket]? = some held ∧ held.aggregationId ≠ label.aggregationId

theorem add_outcome (b : UInt64) (l : BucketLabel) (labels : Labels) :
    (labels.Refuses b l ∧ add b l labels = (.error (.bucketCollision b), labels)) ∨
    (¬labels.Refuses b l ∧ ∃ labels', add b l labels = (.ok (), labels') ∧ labels'[b]? = some (chosen labels[b]? l) ∧
      ∀ b', b' ≠ b → labels'[b']? = labels[b']?) := by
  have hinsert : (Std.ExtTreeMap.insert labels b l)[b]? = some l ∧
      ∀ b', b' ≠ b → (Std.ExtTreeMap.insert labels b l)[b']? = labels[b']? :=
    ⟨by simp, fun b' hb' => by rw [Std.ExtTreeMap.getElem?_insert, if_neg (by simpa using hb'.symm)]⟩
  rw [add]
  cases hheld : labels[b]? with
  | none =>
    refine .inr ⟨?_, _, rfl, hinsert⟩
    rintro ⟨held, hheld', -⟩
    cases hheld.symm.trans hheld'
  | some held =>
    by_cases hid : held.aggregationId = l.aggregationId
    · refine .inr ⟨?_, ?_⟩
      · rintro ⟨held', hheld', hne⟩
        cases hheld.symm.trans hheld'
        exact hne hid
      · simp only [hid, ne_eq, not_true_eq_false, if_false, chosen]
        split
        · exact ⟨labels, rfl, hheld, fun _ _ => rfl⟩
        · exact ⟨_, rfl, hinsert⟩
    · exact .inl ⟨⟨held, hheld, hid⟩, if_pos hid⟩

theorem Agree.of_subset {list list' : List (UInt64 × BucketLabel)} (hagree : Agree list) (hsubset : list' ⊆ list) :
    Agree list' := fun b l l' hl hl' => hagree b l l' (hsubset hl) (hsubset hl')

/-- What a bucket holds stands for all labels that have come to it, so a label that agrees with it agrees with them. -/
theorem Agree.snoc {seen : List (UInt64 × BucketLabel)} {labels : Labels} (hagree : Agree seen) (h : Smallest seen labels)
    {b : UInt64} {l : BucketLabel} (hsame : ∀ held, labels[b]? = some held → held.aggregationId = l.aggregationId) :
    Agree (seen ++ [(b, l)]) := by
  have hnew {l' : BucketLabel} (hl' : (b, l') ∈ seen) : l'.aggregationId = l.aggregationId := by
    obtain ⟨held, hheld⟩ := h.complete b l' hl'
    exact (hagree b l' held hl' (h.mem b held hheld)).trans (hsame held hheld)
  intro b' l₁ l₂ h₁ h₂
  rw [List.mem_append, List.mem_singleton] at h₁ h₂
  rcases h₁ with h₁ | h₁ <;> rcases h₂ with h₂ | h₂
  · exact hagree b' l₁ l₂ h₁ h₂
  · cases h₂
    exact hnew h₁
  · cases h₁
    exact (hnew h₂).symm
  · cases h₁
    cases h₂
    rfl

/-- Further labels are all taken if they agree with one another and with those before. Otherwise a bucket is found in which
    two of them disagree. -/
theorem Smallest.addAll_cases {seen : List (UInt64 × BucketLabel)} {labels : Labels} (h : Smallest seen labels)
    (hagree : Agree seen) (rest : List (UInt64 × BucketLabel)) :
    (∃ labels', addAll rest labels = (.ok (), labels') ∧ Smallest (seen ++ rest) labels' ∧ Agree (seen ++ rest)) ∨
    ∃ b labels', addAll rest labels = (.error (.bucketCollision b), labels') ∧
      ∃ l l', (b, l) ∈ seen ++ rest ∧ (b, l') ∈ seen ++ rest ∧ l.aggregationId ≠ l'.aggregationId := by
  induction rest generalizing seen labels with
  | nil =>
    rw [List.append_nil]
    exact .inl ⟨labels, rfl, h, hagree⟩
  | cons x rest ih =>
    obtain ⟨b, l⟩ := x
    have hsplit : seen ++ (b, l) :: rest = seen ++ [(b, l)] ++ rest := by simp
    rcases add_outcome b l labels with ⟨⟨held, hheld, hne⟩, hrefused⟩ | ⟨htaken, next, hadd, -⟩
    · exact .inr ⟨b, labels, Attempt.bind_of_error hrefused, held, l, List.mem_append_left _ (h.mem b held hheld),
        List.mem_append_right _ List.mem_cons_self, hne⟩
    · have hrun : addAll ((b, l) :: rest) labels = addAll rest next := Attempt.bind_of_ok hadd
      rw [hrun, hsplit]
      refine ih (h.of_add hadd) (hagree.snoc h fun held hheld => ?_)
      by_contra hne
      exact htaken ⟨held, hheld, hne⟩

theorem agree_nil : Agree [] := fun _ _ _ hl => nomatch hl

/-- Labels are all taken exactly if those of one bucket are of one bucket key, whatever their order. -/
theorem addAll_cases (list : List (UInt64 × BucketLabel)) :
    (∃ labels, addAll list ∅ = (.ok (), labels) ∧ Smallest list labels ∧ Agree list) ∨
    ∃ b labels, addAll list ∅ = (.error (.bucketCollision b), labels) ∧ ¬Agree list := by
  rcases smallest_empty.addAll_cases agree_nil list with htaken | ⟨b, labels, hrefused, l, l', hl, hl', hne⟩
  · exact .inl htaken
  · exact .inr ⟨b, labels, hrefused, fun hagree => hne (hagree b l l' hl hl')⟩

theorem addAll_smallest {list : List (UInt64 × BucketLabel)} (hagree : Agree list) :
    ∃ labels, addAll list ∅ = (.ok (), labels) ∧ Smallest list labels := by
  rcases addAll_cases list with ⟨labels, hadd, hsmallest, -⟩ | ⟨_, _, -, hnot⟩
  · exact ⟨labels, hadd, hsmallest⟩
  · exact absurd hagree hnot

theorem smallest_of_addAll {list : List (UInt64 × BucketLabel)} {labels : Labels}
    (hadd : addAll list ∅ = (.ok (), labels)) :
    Smallest list labels := by
  rcases addAll_cases list with ⟨labels', htaken, hsmallest, -⟩ | ⟨_, _, hrefused, -⟩
  · cases hadd.symm.trans htaken
    exact hsmallest
  · cases hadd.symm.trans hrefused

/-! ### Labels that have been chosen -/

/-- Labels that have been chosen from others stand for them: they are all taken exactly if the others agree with those
    before, and what stays in a bucket is then the label of the smallest report of all. -/
theorem Smallest.addAll_toList_cases {seen rest : List (UInt64 × BucketLabel)} {labels other : Labels}
    (h : Smallest seen labels) (hagree : Agree seen) (hother : Smallest rest other) (hrest : Agree rest) :
    (∃ labels', addAll other.toList labels = (.ok (), labels') ∧ Smallest (seen ++ rest) labels' ∧ Agree (seen ++ rest)) ∨
    ∃ b labels', addAll other.toList labels = (.error (.bucketCollision b), labels') ∧ ¬Agree (seen ++ rest) := by
  have hsubset : seen ++ other.toList ⊆ seen ++ rest := by
    rintro ⟨b, l⟩ hl
    rcases List.mem_append.mp hl with hl | hl
    · exact List.mem_append_left _ hl
    · exact List.mem_append_right _ (hother.mem b l (Std.ExtTreeMap.mem_toList_iff_getElem?_eq_some.mp hl))
  -- Each label has one among those chosen that is of the same bucket key, and not of a larger report.
  have hchosen {b : UInt64} {l : BucketLabel} (hl : (b, l) ∈ seen ++ rest) : ∃ l', (b, l') ∈ seen ++ other.toList ∧
      l'.aggregationId = l.aggregationId ∧ (compare l'.reportId l.reportId).isLE = true := by
    rcases List.mem_append.mp hl with hl | hl
    · exact ⟨l, List.mem_append_left _ hl, rfl, Std.ReflCmp.isLE_rfl⟩
    · obtain ⟨l', hl'⟩ := hother.complete b l hl
      exact ⟨l', List.mem_append_right _ (Std.ExtTreeMap.mem_toList_iff_getElem?_eq_some.mpr hl'),
        hrest b l' l (hother.mem b l' hl') hl, hother.isLE b l' l hl' hl⟩
  rcases h.addAll_cases hagree other.toList with ⟨labels', hadd, hsmallest, hall⟩ | ⟨b, labels', hadd, l, l', hl, hl', hne⟩
  · refine .inl ⟨labels', hadd, ⟨fun b l hl => hsubset (hsmallest.mem b l hl), fun b l l' hl hl' => ?_, fun b l hl => ?_⟩,
      fun b l l' hl hl' => ?_⟩
    · obtain ⟨m, hm, -, hle⟩ := hchosen hl'
      exact Std.TransOrd.isLE_trans (hsmallest.isLE b l m hl hm) hle
    · obtain ⟨m, hm, -⟩ := hchosen hl
      exact hsmallest.complete b m hm
    · obtain ⟨m, hm, hsame, -⟩ := hchosen hl
      obtain ⟨m', hm', hsame', -⟩ := hchosen hl'
      rw [← hsame, ← hsame', hall b m m' hm hm']
  · exact .inr ⟨b, labels', hadd, fun hagree => hne (hagree b l l' (hsubset hl) (hsubset hl'))⟩

theorem Smallest.getElem?_of {list list' : List (UInt64 × BucketLabel)} {labels labels' : Labels} (h : Smallest list labels)
    (h' : Smallest list' labels') (hmem : ∀ x, x ∈ list ↔ x ∈ list')
    (hids : ∀ b l l', (b, l) ∈ list → (b, l') ∈ list → l.reportId = l'.reportId → l = l') {b : UInt64} {l : BucketLabel}
    (hl : labels[b]? = some l) : labels'[b]? = some l := by
  have hheld := h.mem b l hl
  obtain ⟨l', hl'⟩ := h'.complete b l ((hmem _).mp hheld)
  have hheld' := (hmem _).mpr (h'.mem b l' hl')
  have hle := h.isLE b l l' hl hheld'
  have hge := h'.isLE b l' l hl' ((hmem _).mp hheld)
  rw [hl', hids b l l' hheld hheld' (reportId_eq hle hge)]

/-- Where no two labels of a bucket are of one report, the same labels are chosen whatever the order. -/
theorem Smallest.unique {list list' : List (UInt64 × BucketLabel)} {labels labels' : Labels} (h : Smallest list labels)
    (h' : Smallest list' labels') (hmem : ∀ x, x ∈ list ↔ x ∈ list')
    (hids : ∀ b l l', (b, l) ∈ list → (b, l') ∈ list → l.reportId = l'.reportId → l = l') : labels = labels' := by
  refine Std.ExtTreeMap.ext_getElem? fun b => Option.ext fun l => ⟨h.getElem?_of h' hmem hids, h'.getElem?_of h ?_ ?_⟩
  · exact fun x => (hmem x).symm
  · exact fun b l l' hl hl' => hids b l l' ((hmem _).mpr hl) ((hmem _).mpr hl')

end Labels

end PrivateHistogram
