import PrivateHistogram.Proofs.PointFunction.Continuations

/-! Requests in their older form. They name levels by number, so what they mean depends on the hierarchy they are read
    against: two hierarchies give the same plan where the levels that are named have the same lengths (`plan_congr`), so a
    level for every length gives the plan of another hierarchy only as far down as that one has them all
    (`plan_of_selections_iff`). -/

namespace PrivateHistogram.PointFunction

/-! ### Lengths of levels -/

namespace Domain
variable (d : Domain) {level : UInt64} {bits : UInt32} {i j : ℕ} {a b : UInt32}

/-- There is room between two levels for those between them. -/
theorem add_le_of_sizes (ha : d.hierarchy.sizes[i]? = some a) (hb : d.hierarchy.sizes[j]? = some b) (hij : i ≤ j) :
    a.toNat + (j - i) ≤ b.toNat := by
  obtain ⟨k, rfl⟩ := Nat.exists_eq_add_of_le hij
  rw [Nat.add_sub_cancel_left]
  induction k generalizing b with
  | zero =>
    cases ha.symm.trans hb
    exact Nat.le_refl _
  | succ k ih =>
    obtain ⟨hlt, rfl⟩ := List.getElem?_eq_some_iff.mp hb
    have hbefore := ih (List.getElem?_eq_getElem (by omega)) (Nat.le_add_right i k)
    have hstep := UInt32.lt_iff_toNat_lt.mp
      (List.pairwise_iff_getElem.mp d.valid.increasing (i + k) (i + (k + 1)) (by omega) hlt (by omega))
    omega

theorem lt_size (ha : d.hierarchy.sizes[i]? = some a) : i < a.toNat := by
  obtain ⟨hlt, -⟩ := List.getElem?_eq_some_iff.mp ha
  have hzero : d.hierarchy.sizes[0]? = some d.hierarchy.sizes[0] := List.getElem?_eq_getElem (by omega)
  have hpos := UInt32.lt_iff_toNat_lt.mp (d.size_pos (List.mem_of_getElem? hzero))
  have hle := d.add_le_of_sizes hzero ha (Nat.zero_le i)
  rw [UInt32.toNat_zero] at hpos
  omega

theorem levels_le : d.hierarchy.levels ≤ 64 := by
  have hpos : 0 < d.hierarchy.sizes.length := List.length_pos_iff.mpr d.valid.nonempty
  have hlast : d.hierarchy.sizes[d.hierarchy.sizes.length - 1]? = some d.bitLength := by
    rw [bitLength, Hierarchy.bitLength, ← List.getLast?_eq_getElem?, List.getLast?_eq_some_getLast d.valid.nonempty]
    rfl
  have hlt := d.lt_size hlast
  have hle := UInt32.le_iff_toNat_le.mp d.valid.last_le
  change d.hierarchy.sizes.length ≤ 64
  change d.bitLength.toNat ≤ 64 at hle
  omega

/-- Where a level has as many bits as there are levels up to it, each level up to it has one bit more than the one
    before. -/
theorem size_of_dense (hb : d.hierarchy.sizes[j]? = some b) (hdense : b.toNat = j + 1) (hij : i ≤ j) :
    d.hierarchy.sizes[i]? = some (UInt32.ofNat (i + 1)) := by
  obtain ⟨hlt, -⟩ := List.getElem?_eq_some_iff.mp hb
  have ha : d.hierarchy.sizes[i]? = some d.hierarchy.sizes[i] := List.getElem?_eq_getElem (by omega)
  have hge := d.lt_size ha
  have hle := d.add_le_of_sizes ha hb hij
  rw [ha, Option.some_inj]
  -- The levels below leave no fewer bits, and those above, up to the dense one, no more.
  refine (UInt32.ofNat_toNat).symm.trans (congrArg UInt32.ofNat ?_)
  omega

/-! ### A level for every length -/

theorem hierarchy_of_ofHierarchy {h : Hierarchy} {d : Domain} (hd : ofHierarchy h = .ok d) : d.hierarchy = h := by
  obtain ⟨valid, -, hd⟩ := bind_eq_ok.mp hd
  cases hd
  rfl

section PerBit
variable {d} (hd : perBit bits = .ok d)
include hd

theorem sizes_perBit : d.hierarchy.sizes = (List.range' 1 bits.toNat).map UInt32.ofNat := by
  have hsizes := congrArg Hierarchy.sizes (hierarchy_of_ofHierarchy hd)
  have hle := d.levels_le
  rw [Hierarchy.levels, hsizes, List.length_map, List.length_range'] at hle
  rw [hsizes, Nat.min_eq_left (by omega)]

theorem levelBits_perBit (hlevel : level.toNat < bits.toNat) :
    d.hierarchy.levelBits level = .ok (UInt32.ofNat (level.toNat + 1)) := by
  rw [d.levelBits_eq_ok, sizes_perBit hd, List.getElem?_map, List.getElem?_range' hlevel, Option.map_some, Nat.one_mul,
    Nat.add_comm]

theorem bitLength_perBit : d.bitLength = bits := by
  have hsizes := sizes_perBit hd
  have hpos := List.length_pos_iff.mpr d.valid.nonempty
  rw [hsizes, List.length_map, List.length_range'] at hpos
  rw [bitLength, Hierarchy.bitLength, hsizes, List.getLast?_map, List.getLast?_range', if_neg (by omega), Option.map_some,
    Option.getD_some, Nat.add_sub_cancel_left, UInt32.ofNat_toNat]

end PerBit

end Domain

/-! ### Plans against two hierarchies -/

namespace Plan
variable {g h : Hierarchy}

theorem step_of_levelBits {level : UInt64} (hlevel : g.levelBits level = h.levelBits level) (f : Frontier)
    (selection : List UInt64) : step g f level selection = step h f level selection := by
  rw [step, step, hlevel]

/-- Two hierarchies are gone down in the same way where the levels that are gone through have the same lengths. -/
theorem descend_congr (f : Frontier) {first : UInt64 × List UInt64} {rest : List (UInt64 × List UInt64)}
    (hlevels : ∀ next ∈ first :: rest, g.levelBits next.1 = h.levelBits next.1) :
    descend g f first rest = descend h f first rest := by
  obtain ⟨hfirst, hrest⟩ := List.forall_mem_cons.mp hlevels
  rw [descend, descend, step_of_levelBits hfirst]
  refine congrArg _ (funext fun p => ?_)
  clear hlevels
  induction rest generalizing p with
  | nil => rfl
  | cons next rest ih =>
    obtain ⟨hnext, hrest⟩ := List.forall_mem_cons.mp hrest
    rw [List.foldlM_cons, List.foldlM_cons, step_of_levelBits hnext]
    exact congrArg _ (funext fun p => ih hrest p)

theorem level_eq_of_step {f : Frontier} {level : UInt64} {selection : List UInt64} {p : Plan}
    (hstep : step h f level selection = .ok p) : p.level = level := by
  obtain ⟨_, _, -, -, -, -, rfl⟩ := step_ok hstep
  rfl

theorem level_of_descend {f : Frontier} {first : UInt64 × List UInt64} {rest : List (UInt64 × List UInt64)} {p : Plan}
    (hdescend : descend h f first rest = .ok p) : ((first :: rest).map Prod.fst).getLast? = some p.level := by
  obtain ⟨q, hstep, hrest⟩ := bind_eq_ok.mp hdescend
  have hlevel := level_eq_of_step hstep
  clear hstep hdescend
  induction rest generalizing first q with
  | nil =>
    cases hrest
    rw [hlevel]
    rfl
  | cons next rest ih =>
    rw [List.foldlM_cons] at hrest
    obtain ⟨q', hstep, hrest⟩ := bind_eq_ok.mp hrest
    rw [List.map_cons, List.map_cons, List.getLast?_cons_cons]
    exact ih q' hrest (level_eq_of_step hstep)

end Plan

namespace Expansion
variable {g h : Hierarchy} {e : Expansion} {p : Plan}

theorem levels_of_steps {first : UInt64 × List UInt64} {rest : List (UInt64 × List UInt64)}
    (hsteps : e.steps = .ok (first, rest)) : (first :: rest).map Prod.fst = e.levels := by
  rcases e with ⟨_ | ⟨level, levels⟩, _ | ⟨selection, selections⟩, previousLevel⟩
  · cases hsteps
  · cases hsteps
  · cases hsteps
  · simp only [steps] at hsteps
    split at hsteps
    · rename_i hlength
      cases hsteps
      rw [List.map_cons, List.map_fst_zip hlength.le]
    · cases hsteps

/-- In a fresh context two hierarchies give the same plan where the levels that are named have the same lengths. -/
theorem plan_congr (hlevels : ∀ level ∈ e.levels, g.levelBits level = h.levelBits level) :
    e.plan g none = e.plan h none := by
  cases hsteps : e.steps with
  | error error =>
    rw [plan, plan, hsteps]
    rfl
  | ok steps =>
    rw [← levels_of_steps hsteps] at hlevels
    have hdescend := Plan.descend_congr .fresh fun next hnext => hlevels next.1 (List.mem_map.mpr ⟨next, hnext, rfl⟩)
    rw [plan, plan, hsteps]
    -- The hierarchy matters only behind the check of the level before.
    change (if e.previousLevel ≠ none then _ else Plan.descend g .fresh steps.1 steps.2) =
      if e.previousLevel ≠ none then _ else Plan.descend h .fresh steps.1 steps.2
    rw [hdescend]

/-- Only the last level is put out. -/
theorem level_of_plan {previous : Option (UInt64 × Array UInt64)} (hplan : e.plan h previous = .ok p) :
    e.levels.getLast? = some p.level := by
  obtain ⟨f, first, rest, hsteps, -, -, hdescend⟩ := descend_of_plan hplan
  rw [← levels_of_steps hsteps, Plan.level_of_descend hdescend]

/-! ### Selections -/

/-- All that can come of selections that are accepted: the hierarchy is in order, and one level of it is gone through for
    each of them, from the first on. -/
theorem ofSelections_ok {s : Selections} (he : ofSelections h s = .ok e) :
    ∃ d : Domain, d.hierarchy = h ∧ 0 < s.lists.length ∧ s.lists.length ≤ h.levels ∧
      e = { levels := (List.range s.lists.length).map UInt64.ofNat, selections := s.lists, previousLevel := none } := by
  obtain ⟨valid, -, he⟩ := bind_eq_ok.mp he
  dsimp only at he
  split at he
  · cases he
  · rename_i hcount
    cases he
    exact ⟨⟨h, valid.down⟩, rfl, by omega, by omega, rfl⟩

section Accepted
variable {s : Selections} {d : Domain} (he : ofSelections h s = .ok e)
include he

theorem mem_levels_of_selections {level : UInt64} : level ∈ e.levels ↔ level.toNat < s.lists.length := by
  obtain ⟨accepted, rfl, -, hle, rfl⟩ := ofSelections_ok he
  have hlevels := accepted.levels_le
  simp only [List.mem_map, List.mem_range]
  constructor
  · rintro ⟨i, hi, rfl⟩
    rwa [UInt64.toNat_ofNat_of_lt' (show i < 2 ^ 64 by omega)]
  · exact fun hlevel => ⟨level.toNat, hlevel, UInt64.ofNat_toNat⟩

/-- The buckets that are put out are at the last level that is gone through. -/
theorem size_of_selections (hplan : e.plan d.hierarchy none = .ok p) :
    d.hierarchy.sizes[s.lists.length - 1]? = some p.targetBits := by
  have hlast := level_of_plan hplan
  obtain ⟨accepted, rfl, hpos, hle, rfl⟩ := ofSelections_ok he
  have hlevels := accepted.levels_le
  rw [List.getLast?_map, List.getLast?_range, if_neg (by omega), Option.map_some, Option.some_inj] at hlast
  have hlevel := d.levelBits_eq_ok.mp (sized_of_plan hplan).level
  rwa [← hlast, UInt64.toNat_ofNat_of_lt' (show s.lists.length - 1 < 2 ^ 64 by omega)] at hlevel

section PerBit
variable {bits : UInt32} (hd : Domain.perBit bits = .ok d) (hplan : e.plan d.hierarchy none = .ok p)
include hd hplan

theorem length_selections_le : s.lists.length ≤ bits.toNat := by
  obtain ⟨hlt, -⟩ := List.getElem?_eq_some_iff.mp (size_of_selections he hplan)
  rw [Domain.sizes_perBit hd, List.length_map, List.length_range'] at hlt
  omega

/-- Against a level for every length, buckets have as many bits as there are selections. -/
theorem targetBits_of_selections : p.targetBits.toNat = s.lists.length := by
  obtain ⟨accepted, -, hpos, hcount, -⟩ := ofSelections_ok he
  have hsize := size_of_selections he hplan
  have hle := length_selections_le he hd hplan
  have hbits : bits.toNat < 2 ^ 32 := bits.toNat_lt
  rw [Domain.sizes_perBit hd, List.getElem?_map, List.getElem?_range' (by omega), Option.map_some, Option.some_inj] at hsize
  rw [← hsize, UInt32.toNat_ofNat_of_lt' (show 1 + 1 * (s.lists.length - 1) < 2 ^ 32 by omega)]
  omega

/-- A level for every length gives the buckets of the hierarchy that the selections are for exactly if that has a level for
    every length too, down to the last level that is gone through. -/
theorem plan_of_selections_iff :
    (∃ q, e.plan h none = .ok q ∧ p.targetBits = q.targetBits ∧ p.buckets.toList = q.buckets.toList) ↔
      h.sizes[s.lists.length - 1]? = some (UInt32.ofNat s.lists.length) := by
  have hbits := targetBits_of_selections he hd hplan
  have hle := length_selections_le he hd hplan
  obtain ⟨accepted, hhierarchy, hpos, -, -⟩ := ofSelections_ok he
  subst hhierarchy
  constructor
  · rintro ⟨q, hq, hsame, -⟩
    rw [size_of_selections he hq, ← hsame, ← hbits, UInt32.ofNat_toNat]
  · intro hdense
    have hcount : (UInt32.ofNat s.lists.length).toNat = s.lists.length - 1 + 1 := by
      rw [← hbits, UInt32.ofNat_toNat]
      omega
    refine ⟨p, (plan_congr fun level hlevel => ?_).trans hplan, rfl, rfl⟩
    have hlt := (mem_levels_of_selections he).mp hlevel
    rw [Domain.levelBits_perBit hd (hlt.trans_le hle), accepted.levelBits_eq_ok]
    exact accepted.size_of_dense hdense hcount (by omega)

end PerBit

end Accepted

end Expansion

end PrivateHistogram.PointFunction
