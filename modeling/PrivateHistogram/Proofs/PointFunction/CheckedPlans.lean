import PrivateHistogram.Proofs.PointFunction.Expansions
import PrivateHistogram.Proofs.Words

/-! Plans that are made with everything checked that could go out of range: each index, each amount of a shift and each
    difference. A computation like that comes to a halt where a check fails (`Guarded`). None does, whatever buckets the
    round before has left: the plans are those that are made without the checks (`Checked.plan_gives`). -/

namespace PrivateHistogram

/-- A computation that may refuse what it is given, and that comes to a halt where something is out of range. -/
abbrev Guarded (ε : Type) := ExceptT ε Option

namespace Guarded
variable {ε α β : Type} {x : Guarded ε α} {y : Except ε α}

/-- The computation does not come to a halt, and its outcome is known. -/
def Gives (x : Guarded ε α) (y : Except ε α) : Prop := x.run = some y

theorem Gives.pure (a : α) : Gives (Pure.pure a : Guarded ε α) (.ok a) := rfl

theorem Gives.throw (e : ε) : Gives (MonadExcept.throw e : Guarded ε α) (.error e) := rfl

theorem Gives.lift (y : Except ε α) : Gives (liftM y : Guarded ε α) y := rfl

theorem Gives.bind {f : α → Guarded ε β} {g : α → Except ε β} (hx : Gives x y) (hf : ∀ a, y = .ok a → Gives (f a) (g a)) :
    Gives (x >>= f) (y >>= g) := by
  rw [Gives, ExceptT.run_bind, show x.run = some y from hx]
  cases y with
  | error e => rfl
  | ok a => exact hf a rfl

/-- The two may hold what they have found in different forms. -/
theorem Gives.map_bind {γ : Type} {x : Guarded ε γ} {form : α → γ} {f : γ → Guarded ε β} {g : α → Except ε β}
    (hx : Gives x (y.map form)) (hf : ∀ a, y = .ok a → Gives (f (form a)) (g a)) : Gives (x >>= f) (y >>= g) := by
  rw [Gives, ExceptT.run_bind, show x.run = some (y.map form) from hx]
  cases y with
  | error e => rfl
  | ok a => exact hf a rfl

/-- A check that succeeds. -/
theorem Gives.of_some {o : Option α} {a : α} (ho : o = some a) {f : α → Guarded ε β} {z : Except ε β} (hf : Gives (f a) z) :
    Gives ((liftM o : Guarded ε α) >>= f) z := by
  subst ho
  exact hf

theorem Gives.adapt {ε' : Type} (hx : Gives x y) (g : ε → ε') : Gives (ExceptT.adapt g x) (y.mapError g) := by
  rw [Gives, ExceptT.run_adapt, show x.run = some y from hx]
  rfl

/-! Operations that are checked, on the forms of what has been found. -/

section
variable {γ : Type} {form : α → γ}

theorem Gives.of_eq_some {o : Option α} {a : α} (h : o = some a) : Gives (liftM o : Guarded ε α) (.ok a) := by
  subst h
  rfl

/-- A checked operation on the form of what has been found. -/
theorem Gives.apply {β δ : Type} {form' : β → δ} {x : Guarded ε γ} {a : Except ε α} {f : γ → Option δ} {g : α → β}
    (hx : Gives x (a.map form)) (hf : ∀ p, f (form p) = some (form' (g p))) :
    Gives (do liftM (f (← x))) ((a.map g).map form') := by
  have hnext : (a.map g).map form' = a >>= fun p => .ok (form' (g p)) := by cases a <;> rfl
  rw [hnext]
  exact hx.map_bind fun p _ => Gives.of_eq_some (hf p)

theorem Gives.apply₂ {x y : Guarded ε γ} {a b : Except ε α} {f : γ → γ → Option γ} {g : α → α → α}
    (hx : Gives x (a.map form)) (hy : Gives y (b.map form)) (hf : ∀ p q, f (form p) (form q) = some (form (g p q))) :
    Gives (do liftM (f (← x) (← y))) ((do return g (← a) (← b) : Except ε α).map form) := by
  have hnext : (do return g (← a) (← b) : Except ε α).map form = a >>= fun p => (b.map (g p)).map form := by cases a <;> rfl
  rw [hnext]
  exact hx.map_bind fun p _ => hy.apply (hf p)

theorem Gives.mapM {ι : Type} {f : ι → Guarded ε γ} {g : ι → Except ε α} {l : List ι}
    (h : ∀ i ∈ l, Gives (f i) ((g i).map form)) :
    Gives (l.mapM f) ((l.mapM g).map (List.map form)) := by
  induction l with
  | nil => rfl
  | cons i l ih =>
    obtain ⟨hi, hl⟩ := List.forall_mem_cons.mp h
    have hnext : ((i :: l).mapM g).map (List.map form) =
        g i >>= fun a => l.mapM g >>= fun as => .ok (form a :: as.map form) := by
      rw [List.mapM_cons]
      cases g i <;> cases l.mapM g <;> rfl
    rw [hnext, List.mapM_cons]
    exact hi.map_bind fun a _ => (ih hl).map_bind fun as _ => Gives.pure (form a :: as.map form)

end

end Guarded

namespace PointFunction.Checked

open Guarded

/-! ### Buckets that are listed -/

/-- Whether a bucket is found among the `count > 0` buckets from number `first` on. -/
def search (buckets : Array UInt64) (wanted : UInt64) (first count : ℕ) : Option Bool :=
  if count ≤ 1 then do return (← buckets[first]?) = wanted
  else do
    let half := count / 2
    let middle ← buckets[first + half]?
    search buckets wanted (if wanted < middle then first else first + half) (count - half)
termination_by count

def contains (buckets : Array UInt64) (wanted : UInt64) : Option Bool :=
  if buckets.size = 0 then some false else search buckets wanted 0 buckets.size

/-- The buckets of a frontier, listed. -/
def listed (f : Frontier) : Array UInt64 := Array.ofFn fun i : Fin f.size => f.bucket i

theorem size_listed (f : Frontier) : (listed f).size = f.size := Array.size_ofFn

theorem getElem?_listed {f : Frontier} {i : ℕ} (hi : i < f.size) : (listed f)[i]? = some (f.bucket i) := by
  rw [Array.getElem?_eq_getElem (by rwa [size_listed])]
  simp [listed]

theorem search_eq {f : Frontier} {wanted : UInt64} {first count : ℕ} (hcount : 0 < count) (hle : first + count ≤ f.size) :
    search (listed f) wanted first count = some (f.search wanted first count) := by
  fun_induction f.search wanted first count with
  | case1 first count hone =>
    rw [search, if_pos hone, getElem?_listed (by omega)]
    rfl
  | case2 first count hone half ih =>
    have hmiddle : (listed f)[first + half]? = some (f.bucket (first + half)) := getElem?_listed (by omega)
    rw [search, if_neg hone]
    dsimp only
    rw [hmiddle]
    refine ih (by omega) ?_
    split <;> omega

theorem contains_eq (f : Frontier) (wanted : UInt64) : contains (listed f) wanted = some (f.contains wanted) := by
  rw [contains, size_listed, Frontier.contains]
  by_cases hzero : f.size = 0
  · simp [hzero]
  · rw [if_neg hzero, search_eq (Nat.pos_of_ne_zero hzero) (Nat.zero_add _).le]
    simp [hzero]

/-! ### Plans -/

/-- The variables of the loop that goes through the levels: the level that has been reached, its buckets, and the parents
    that have been refined to them. -/
structure Walk where
  level : Option UInt64
  bits : UInt32
  expanded : Array UInt64
  parents : Array UInt64
  parentBits : UInt32

/-- The buckets that are refined next. -/
def select (w : Walk) (selection : List UInt64) : Guarded Error (Array UInt64) :=
  if selection = [] then return w.expanded
  else if w.level = none then throw (.invalidParameters "prefixes given for the first level of a fresh context")
  else do
    let chosen := increasing selection
    let missing ← (chosen.findM? fun bucket => (contains w.expanded bucket).map not : Option (Option UInt64))
    match missing with
    | some bucket => throw (.notExpanded w.bits bucket)
    | none => return chosen.toArray

/-- The buckets so many levels below a parent. -/
def bucketsBelow (depth : UInt32) (parent : UInt64) : Option (List UInt64) := do
  let first ← Word.shiftLeft? parent depth
  let count ← Word.shiftLeft? 1 depth
  return (List.range count.toNat).map fun offset => first ||| .ofNat offset

def refine (parents : Array UInt64) (depth : UInt32) : Option (Array UInt64) := do
  let lists ← parents.toList.mapM (bucketsBelow depth)
  return lists.flatten.toArray

/-- Refines some parents to a level. -/
def advance (w : Walk) (level : UInt64) (targetBits : UInt32) (parents : Array UInt64) : Guarded Error Walk := do
  let depth ← (sub? targetBits w.bits : Option UInt32)
  -- The number of buckets is computed in words of 128 bits, and with no larger shift than by 64.
  if Plan.maxBucketBits < depth ∨ 2 ^ Plan.maxBucketBits.toNat < parents.size * 2 ^ min depth.toNat 64 then
    throw (.expansionTooLarge parents.size depth)
  let expanded ← (refine parents depth : Option (Array UInt64))
  return { level := some level, bits := targetBits, expanded, parents, parentBits := w.bits }

def step (h : Hierarchy) (w : Walk) (level : UInt64) (selection : List UInt64) : Guarded Error Walk := do
  let targetBits ← h.levelBits level
  if let some current := w.level then
    if level ≤ current then
      throw (.invalidParameters (s!"level {level.toNat} does not follow level " ++ showLevel w.level))
  let parents ← select w selection
  advance w level targetBits parents

/-- The variables before the first level. -/
def start (h : Hierarchy) : Option (UInt64 × Array UInt64) → Except Error Walk
  | none => .ok ⟨none, 0, #[0], #[], 0⟩
  | some (level, buckets) => do return ⟨some level, ← h.levelBits level, buckets, #[], 0⟩

/-- The plan of an expansion, and the list of its buckets. -/
def plan (e : Expansion) (h : Hierarchy) (previous : Option (UInt64 × Array UInt64)) :
    Guarded Error (Plan × Array UInt64) := do
  if e.levels = [] then throw (.invalidParameters "no levels to expand")
  if e.selections.length ≠ e.levels.length then
    throw (.invalidParameters s!"{e.selections.length} prefix lists for {e.levels.length} levels")
  let found := previous.map fun p => p.1
  if e.previousLevel ≠ found then throw (.contextMismatch e.previousLevel found)
  let w ← (e.levels.zip e.selections).foldlM (fun w next => step h w next.1 next.2) (← start h previous)
  return ({ level := w.level.getD 0, parentBits := w.parentBits, parents := w.parents, targetBits := w.bits }, w.expanded)

/-! ### Plans are made -/

/-- The variables are at a frontier. -/
structure Walk.At (w : Walk) (f : Frontier) : Prop where
  level : w.level = f.level
  bits : w.bits = f.bits
  expanded : w.expanded = listed f

/-- The variables after a level. -/
def Walk.ofPlan (p : Plan) : Walk := ⟨some p.level, p.targetBits, p.buckets, p.parents, p.parentBits⟩

theorem Walk.at_ofPlan (p : Plan) : (ofPlan p).At (.ofPlan p) := ⟨rfl, rfl, rfl⟩

variable {d : Domain} {f : Frontier} {w : Walk} {level : UInt64}

theorem findM?_eq (f : Frontier) (l : List UInt64) :
    (l.findM? fun bucket => (contains (listed f) bucket).map not) = some (l.find? fun bucket => !f.contains bucket) := by
  have hpure : (fun bucket => (contains (listed f) bucket).map not) = fun bucket => pure (!f.contains bucket) :=
    funext fun bucket => by rw [contains_eq]; rfl
  rw [hpure, List.findM?_pure]
  rfl

theorem select_gives (hw : w.At f) (selection : List UInt64) : (select w selection).Gives (Plan.chosen f selection) := by
  rw [select, Plan.chosen]
  by_cases hnil : selection = []
  · rw [if_pos hnil, if_pos hnil, hw.expanded]
    exact Gives.pure _
  rw [if_neg hnil, if_neg hnil, Frontier.select, hw.level]
  by_cases hlevel : f.level = none
  · rw [if_pos hlevel, if_pos hlevel]
    exact Gives.throw _
  rw [if_neg hlevel, if_neg hlevel, hw.expanded, hw.bits]
  refine Gives.of_some (findM?_eq f _) ?_
  dsimp only
  cases (increasing selection).find? fun bucket => !f.contains bucket with
  | none => exact Gives.pure _
  | some bucket => exact Gives.throw _

theorem bucketsBelow_eq {depth : UInt32} (h : depth < 64) (parent : UInt64) :
    bucketsBelow depth parent = some ((List.range (2 ^ depth.toNat)).map (below depth.toNat parent)) := by
  have hlt : depth.toNat < 64 := UInt32.lt_iff_toNat_lt.mp h
  have hcount : ((1 : UInt64) <<< depth.toUInt64).toNat = 2 ^ depth.toNat := by
    rw [UInt64.toNat_shiftLeft, UInt32.toNat_toUInt64, Nat.mod_eq_of_lt hlt, Nat.shiftLeft_eq,
      show (1 : UInt64).toNat = 1 from rfl, Nat.one_mul, Nat.mod_eq_of_lt (Nat.pow_lt_pow_right (by decide) hlt)]
  rw [bucketsBelow, Word.shiftLeft_eq h, Word.shiftLeft_eq h]
  simp only [Option.bind_eq_bind, Option.bind_some]
  rw [hcount, ← UInt64.ofNat_uInt32ToNat]
  rfl

theorem refine_eq {p : Plan} (hp : p.Sized d) : refine p.parents p.subtreeBits = some p.buckets := by
  have hbelow : bucketsBelow p.subtreeBits =
      fun parent => pure ((List.range (2 ^ p.subtreeBits.toNat)).map (below p.subtreeBits.toNat parent)) :=
    funext fun parent => bucketsBelow_eq (UInt32.lt_iff_toNat_lt.mpr hp.depth_lt) parent
  have hwidth (parent : UInt64) : ((List.range (2 ^ p.subtreeBits.toNat)).map (below p.subtreeBits.toNat parent)).length =
      2 ^ p.subtreeBits.toNat := by simp
  have hall := flatMap_take_drop p.parents.toList _ 0 0 (fun parent _ => hwidth parent)
    (show 0 + p.parents.size ≤ p.parents.toList.length by simp)
  rw [Nat.zero_add, Nat.zero_mul, List.take_of_length_le (by simp), List.drop_zero] at hall
  rw [refine, hbelow, List.mapM_pure]
  refine congrArg some (Array.toList_inj.mp ?_)
  rw [← List.flatMap_def, List.toList_toArray, hall]
  refine List.ext_getElem (by simp [Plan.buckets, Plan.size]) fun i hi hi' => ?_
  have hmod : i % 2 ^ p.subtreeBits.toNat < 2 ^ p.subtreeBits.toNat := Nat.mod_lt _ (by positivity)
  simp [Plan.buckets, Plan.bucket_eq, List.getD_eq_getElem?_getD, hmod]

/-- Whether there are too many buckets does not depend on how deep a plan goes beyond 64 levels. -/
theorem checkSize_eq_ite (parents : ℕ) {parentBits targetBits : UInt32} (h : parentBits ≤ targetBits) :
    Plan.checkSize parents parentBits targetBits =
      if Plan.maxBucketBits < targetBits - parentBits ∨
          2 ^ Plan.maxBucketBits.toNat < parents * 2 ^ min (targetBits - parentBits).toNat 64 then
        .error (.expansionTooLarge parents (targetBits - parentBits))
      else .ok () := by
  rw [Plan.checkSize, if_neg (UInt32.not_lt.mpr h)]
  by_cases hdepth : Plan.maxBucketBits < targetBits - parentBits
  · rw [if_pos hdepth, if_pos (.inl hdepth)]
  · have hle : (targetBits - parentBits).toNat ≤ 24 := UInt32.le_iff_toNat_le.mp (UInt32.not_lt.mp hdepth)
    rw [if_neg hdepth, Nat.min_eq_left (hle.trans (by decide))]
    simp only [hdepth, false_or]
    rfl

theorem advance_gives (hf : f.Placed d) (hw : w.At f) {targetBits : UInt32}
    (htarget : d.hierarchy.levelBits level = .ok targetBits) (hnext : ∀ current ∈ f.level, current < level)
    (parents : Array UInt64) :
    (advance w level targetBits parents).Gives ((Plan.checkSize parents.size f.bits targetBits).map fun _ =>
      Walk.ofPlan { level, parentBits := f.bits, parents, targetBits }) := by
  have hbits := UInt32.le_of_lt (Plan.bits_lt_of_level hf htarget hnext)
  have hcheck := checkSize_eq_ite parents.size hbits
  rw [advance, hw.bits]
  refine Gives.of_some (sub_of_le hbits) ?_
  rw [hcheck]
  split
  · exact Gives.throw _
  · rename_i hroom
    have hsize : Plan.checkSize parents.size f.bits targetBits = .ok () := by rw [hcheck, if_neg hroom]
    exact Gives.of_some (refine_eq (Plan.sized_of_parents hf htarget hnext hsize)) (Gives.pure _)

theorem step_gives (hf : f.Placed d) (hw : w.At f) (level : UInt64) (selection : List UInt64) :
    (step d.hierarchy w level selection).Gives ((Plan.step d.hierarchy f level selection).map Walk.ofPlan) := by
  cases htarget : d.hierarchy.levelBits level with
  | error e =>
    rw [step, Plan.step, htarget]
    rfl
  | ok targetBits =>
    by_cases hnext : ∀ current ∈ f.level, current < level
    · have hpass : step d.hierarchy w level selection = (select w selection >>= advance w level targetBits) := by
        rw [step, htarget, hw.level]
        cases hlevel : f.level with
        | none => rfl
        | some current =>
          simp only [if_neg (UInt64.not_le.mpr (hnext current hlevel))]
          rfl
      have hmodel : (Plan.step d.hierarchy f level selection).map Walk.ofPlan = (Plan.chosen f selection >>= fun parents =>
          (Plan.checkSize parents.size f.bits targetBits).map fun _ =>
            Walk.ofPlan { level, parentBits := f.bits, parents, targetBits }) := by
        rw [Plan.step_eq htarget hnext]
        rcases Plan.chosen f selection with e | parents
        · rfl
        · cases hsize : Plan.checkSize parents.size f.bits targetBits <;>
            simp only [bind, Except.bind, Except.map, hsize]
      rw [hpass, hmodel]
      exact Gives.bind (select_gives hw selection) fun parents _ => advance_gives hf hw htarget hnext parents
    · simp only [not_forall, UInt64.not_lt] at hnext
      obtain ⟨current, hlevel, hle⟩ := hnext
      have hlevel : f.level = some current := hlevel
      rw [step, Plan.step, htarget, hw.level, hlevel]
      simp only [if_pos hle]
      rfl

/-- The variables after some more levels. -/
theorem foldlM_gives {p : Plan} (hp : p.Sized d) (steps : List (UInt64 × List UInt64)) :
    Gives (steps.foldlM (fun w next => step d.hierarchy w next.1 next.2) (Walk.ofPlan p))
      (Walk.ofPlan <$> steps.foldlM (fun p next => Plan.step d.hierarchy (.ofPlan p) next.1 next.2) p) := by
  induction steps generalizing p with
  | nil => exact Gives.pure _
  | cons next steps ih =>
    rw [List.foldlM_cons, List.foldlM_cons, map_bind]
    exact Gives.map_bind (step_gives hp.placed (Walk.at_ofPlan p) next.1 next.2) fun q hq =>
      ih (Plan.sized_of_step hp.placed hq)

theorem descend_gives (hf : f.Placed d) (hw : w.At f) (first : UInt64 × List UInt64) (rest : List (UInt64 × List UInt64)) :
    Gives ((first :: rest).foldlM (fun w next => step d.hierarchy w next.1 next.2) w)
      (Walk.ofPlan <$> Plan.descend d.hierarchy f first rest) := by
  rw [List.foldlM_cons, Plan.descend, map_bind]
  exact Gives.map_bind (step_gives hf hw first.1 first.2) fun q hq => foldlM_gives (Plan.sized_of_step hf hq) rest

/-- The variables at a frontier, before anything is refined. -/
def Walk.ofFrontier (f : Frontier) : Walk := ⟨f.level, f.bits, listed f, #[], 0⟩

theorem listed_ofList (level : UInt64) (bits : UInt32) (buckets : Array UInt64) :
    listed (.ofList level bits buckets) = buckets :=
  Array.ext (size_listed _) fun i _ hi => by simp [listed, Frontier.ofList, Array.getD]

theorem start_eq (h : Hierarchy) (previous : Option (UInt64 × Array UInt64)) :
    start h previous = (Frontier.ofPrevious h previous).map Walk.ofFrontier := by
  cases previous with
  | none => rfl
  | some found =>
    rw [start, Frontier.ofPrevious]
    cases h.levelBits found.1 with
    | error e => rfl
    | ok bits => exact congrArg (fun buckets => Except.ok (Walk.mk _ bits buckets #[] 0)) (listed_ofList _ _ _).symm

/-- Plans are made as without the checks, whatever the round before has left: buckets in any order, more than once, or too
    large for their level. -/
theorem plan_gives (e : Expansion) (d : Domain) (previous : Option (UInt64 × Array UInt64)) :
    (plan e d.hierarchy previous).Gives ((fun p => (p, p.buckets)) <$> e.plan d.hierarchy previous) := by
  obtain ⟨_ | ⟨level, levels⟩, _ | ⟨selection, selections⟩, previousLevel⟩ := e
  · rfl
  · rfl
  · rfl
  by_cases hlength : levels.length = selections.length
  · have hsteps : Expansion.steps ⟨level :: levels, selection :: selections, previousLevel⟩ =
        .ok ((level, selection), levels.zip selections) := if_pos hlength
    have hlengths : ¬(selection :: selections).length ≠ (level :: levels).length := by simp [hlength]
    by_cases hmatch : previousLevel = previous.map Prod.fst
    · rw [plan_of_steps hsteps hmatch, map_bind, plan, if_neg (List.cons_ne_nil _ _), if_neg hlengths,
        if_neg (not_not.mpr hmatch), start_eq]
      refine Gives.map_bind (Gives.lift _) fun f hf => ?_
      rw [map_eq_bind_pure_comp]
      exact Gives.map_bind (descend_gives (Frontier.placed_ofPrevious hf) ⟨rfl, rfl, rfl⟩ (level, selection)
        (levels.zip selections)) fun p _ => Gives.pure _
    · rw [plan, Expansion.plan, hsteps, if_neg (List.cons_ne_nil _ _), if_neg hlengths, if_pos hmatch]
      simp only [bind, Except.bind]
      rw [if_pos hmatch]
      rfl
  · have hlengths : (selection :: selections).length ≠ (level :: levels).length := by simpa using Ne.symm hlength
    rw [plan, Expansion.plan, Expansion.steps, if_neg (List.cons_ne_nil _ _), if_pos hlengths]
    simp only [if_neg hlength]
    rfl

end PointFunction.Checked

end PrivateHistogram
