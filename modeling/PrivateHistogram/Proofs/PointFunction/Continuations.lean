import PrivateHistogram.Proofs.PointFunction.Plans

/-! Expansions in two parts. The plan for the levels of one expansion and then those of another is the plan of the second,
    started from the buckets of the first (`Expansion.plan_ofSteps_append`): a step makes the same of the buckets of a plan
    and of their list (`Frontier.Fits.step_congr`). -/

namespace PrivateHistogram.PointFunction

/-- The expansion that goes through some levels, each with its selection, from where the round before stopped. -/
def Expansion.ofSteps (steps : List (UInt64 × List UInt64)) (previousLevel : Option UInt64) : Expansion :=
  { levels := steps.map Prod.fst, selections := steps.map Prod.snd, previousLevel }

/-! ### Steps from the same buckets -/

namespace Frontier.Fits
variable {d : Domain} {f g : Frontier} (hf : f.Fits d) (hg : g.Fits d) (hsize : g.size = f.size)
  (hbucket : ∀ i < f.size, g.bucket i = f.bucket i)
include hf hg hsize hbucket

theorem contains_congr (wanted : UInt64) : g.contains wanted = f.contains wanted := by
  rw [Bool.eq_iff_iff, hf.contains_iff, hg.contains_iff, hsize]
  exact exists_congr fun i => and_congr_right fun hi => by rw [hbucket i hi]

/-- Two frontiers with the same buckets at the same level are refined in the same way. -/
theorem step_congr (hlevel : g.level = f.level) (hbits : g.bits = f.bits) (h : Hierarchy) (level : UInt64)
    (selection : List UInt64) : Plan.step h g level selection = Plan.step h f level selection := by
  have hall : (Array.ofFn fun i : Fin g.size => g.bucket i) = Array.ofFn fun i : Fin f.size => f.bucket i :=
    Array.ext (by simp [hsize]) fun i _ hi => by
      rw [Array.size_ofFn] at hi
      simp [hbucket i hi]
  have hselect : g.select selection = f.select selection := by
    rw [select, select, hlevel, hbits]
    simp only [hf.contains_congr hg hsize hbucket]
  simp only [Plan.step, hall, hselect, hlevel, hbits, hsize]

end Frontier.Fits

/-! ### Levels in two parts -/

namespace Plan

theorem descend_append (h : Hierarchy) (f : Frontier) (first next : UInt64 × List UInt64)
    (rest later : List (UInt64 × List UInt64)) :
    descend h f first (rest ++ next :: later) = (descend h f first rest >>= fun p => descend h (.ofPlan p) next later) := by
  simp only [descend, List.foldlM_append, List.foldlM_cons, bind_assoc]

/-- Going down from the list of the buckets of a plan is going down from the plan. -/
theorem descend_ofList {d : Domain} {p : Plan} (hp : p.Fits d) (h : Hierarchy) (first : UInt64 × List UInt64)
    (rest : List (UInt64 × List UInt64)) :
    descend h (.ofList p.level p.targetBits p.buckets) first rest = descend h (.ofPlan p) first rest := by
  rw [descend, descend, hp.frontier.step_congr (frontier_ofList hp) p.size_buckets (fun _ => getD_buckets) rfl rfl]

end Plan

namespace Expansion
variable {d : Domain} {h : Hierarchy} {previous : Option (UInt64 × Array UInt64)} {previousLevel : Option UInt64} {p : Plan}
  {a b : List (UInt64 × List UInt64)}

theorem steps_ofSteps (first : UInt64 × List UInt64) (rest : List (UInt64 × List UInt64)) (previousLevel : Option UInt64) :
    (ofSteps (first :: rest) previousLevel).steps = .ok (first, rest) := by
  simp [ofSteps, steps, List.zip_map']

theorem previousLevel_of_plan {e : Expansion} (hplan : e.plan h previous = .ok p) :
    e.previousLevel = previous.map Prod.fst := by
  obtain ⟨_, _, _, -, hprevious, -⟩ := descend_of_plan hplan
  exact hprevious

/-- The plan for some levels goes down through them from where the round before stopped. -/
theorem plan_ofSteps (h : Hierarchy) (previous : Option (UInt64 × Array UInt64)) (first : UInt64 × List UInt64)
    (rest : List (UInt64 × List UInt64)) :
    (ofSteps (first :: rest) (previous.map Prod.fst)).plan h previous =
      (Frontier.ofPrevious h previous >>= fun f => Plan.descend h f first rest) :=
  plan_of_steps (steps_ofSteps first rest _) rfl h

/-- Where there is a plan for some levels, the plan for them and for more is the one for those alone, started from the
    buckets of the first. -/
theorem plan_ofSteps_append (hprevious : Stopped d previous)
    (hplan : (ofSteps a previousLevel).plan d.hierarchy previous = .ok p) (hb : b ≠ []) :
    (ofSteps (a ++ b) previousLevel).plan d.hierarchy previous =
      (ofSteps b (some p.level)).plan d.hierarchy (some (p.level, p.buckets)) := by
  have hp := fits_of_plan hprevious hplan
  obtain rfl : previousLevel = previous.map Prod.fst := previousLevel_of_plan hplan
  obtain ⟨next, later, rfl⟩ := List.exists_cons_of_ne_nil hb
  cases a with
  | nil => cases hplan
  | cons first rest =>
    rw [plan_ofSteps] at hplan
    obtain ⟨f, hf, hdescend⟩ := bind_eq_ok.mp hplan
    have hsecond := plan_ofSteps d.hierarchy (some (p.level, p.buckets)) next later
    rw [Frontier.ofPrevious, hp.level] at hsecond
    calc (ofSteps (first :: (rest ++ next :: later)) (previous.map Prod.fst)).plan d.hierarchy previous
        = Plan.descend d.hierarchy f first (rest ++ next :: later) := by rw [plan_ofSteps, hf]; rfl
      _ = Plan.descend d.hierarchy (.ofPlan p) next later := by rw [Plan.descend_append, hdescend]; rfl
      _ = Plan.descend d.hierarchy (.ofList p.level p.targetBits p.buckets) next later :=
        (Plan.descend_ofList hp _ _ _).symm
      _ = _ := hsecond.symm

end Expansion

end PrivateHistogram.PointFunction
