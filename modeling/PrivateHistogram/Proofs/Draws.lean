import Mathlib
import PrivateHistogram.RandomTape

/-! What a computation that reads from a random tape is sure to give, whatever the bytes on the tape. Reads can
    only fail on a tape with a fault, and no read puts one on a tape, so `Yields` starts from a tape without a
    fault and ends with one. -/

namespace PrivateHistogram
variable {ε ε' α β : Type}

theorem bind_eq_ok {x : Except ε α} {f : α → Except ε β} {b : β} :
    x >>= f = .ok b ↔ ∃ a, x = .ok a ∧ f a = .ok b := by
  cases x with
  | error e => exact ⟨fun h => (Except.noConfusion rfl rfl (heq_of_eq h)), fun ⟨_, h, _⟩ => nomatch h⟩
  | ok a => exact ⟨fun h => ⟨a, rfl, h⟩, fun ⟨_, rfl, h⟩ => h⟩

theorem mapError_eq_ok {x : Except ε α} {f : ε → ε'} {a : α} : x.mapError f = .ok a ↔ x = .ok a := by
  cases x with
  | error e => exact ⟨fun h => (nomatch h), fun h => (nomatch h)⟩
  | ok b => exact ⟨fun h => by cases h; rfl, fun h => by cases h; rfl⟩

theorem bind_eq_error {x : Except ε α} {f : α → Except ε β} {e : ε} :
    (x >>= f) = .error e ↔ x = .error e ∨ ∃ a, x = .ok a ∧ f a = .error e := by
  cases x with
  | error e' =>
    constructor
    · intro h
      cases h
      exact .inl rfl
    · rintro (h | ⟨a, h, -⟩)
      · cases h
        rfl
      · cases h
  | ok a =>
    constructor
    · exact fun h => .inr ⟨a, rfl, h⟩
    · rintro (h | ⟨a, h, hf⟩)
      · cases h
      · cases h
        exact hf

theorem mapError_eq_error {x : Except ε α} {f : ε → ε'} {e : ε'} :
    x.mapError f = .error e ↔ ∃ e', x = .error e' ∧ f e' = e := by
  cases x with
  | error e' =>
    constructor
    · intro h
      exact ⟨e', rfl, Except.error.inj h⟩
    · rintro ⟨_, h, rfl⟩
      cases h
      rfl
  | ok a =>
    constructor
    · intro h
      cases h
    · rintro ⟨_, h, -⟩
      cases h

theorem map_eq_map_of_forall₂ {γ : Type} {f : α → γ} {g : β → γ} {as : List α} {bs : List β}
    (h : List.Forall₂ (fun a b => f a = g b) as bs) : as.map f = bs.map g := by
  rwa [← List.forall₂_eq_eq_eq, List.forall₂_map_left_iff, List.forall₂_map_right_iff]

theorem exists_of_mem_forall₂ {R : α → β → Prop} {as : List α} {bs : List β} (h : List.Forall₂ R as bs) {a : α}
    (ha : a ∈ as) : ∃ b ∈ bs, R a b := by
  induction h with
  | nil => exact nomatch ha
  | @cons a' b as bs hab _ ih =>
    rcases List.mem_cons.mp ha with rfl | ha
    · exact ⟨b, List.mem_cons_self, hab⟩
    · obtain ⟨b, hb, hab⟩ := ih ha
      exact ⟨b, List.mem_cons_of_mem _ hb, hab⟩

/-- A step that succeeds on every element of a list succeeds on the list. -/
theorem mapM_eq_ok {f : α → Except ε β} {as : List α} {bs : List β} (h : List.Forall₂ (fun a b => f a = .ok b) as bs) :
    as.mapM f = .ok bs := by
  induction h with
  | nil => rfl
  | @cons a b as bs hb _ ih =>
    rw [List.mapM_cons, hb, ih]
    rfl

theorem forall₂_of_mapM {f : α → Except ε β} {as : List α} {bs : List β} (h : as.mapM f = .ok bs) :
    List.Forall₂ (fun a b => f a = .ok b) as bs := by
  induction as generalizing bs with
  | nil =>
    cases h
    exact .nil
  | cons a as ih =>
    rw [List.mapM_cons] at h
    obtain ⟨b, hb, h⟩ := bind_eq_ok.mp h
    obtain ⟨bs', hbs, h⟩ := bind_eq_ok.mp h
    cases h
    exact .cons hb (ih hbs)

/-- The first element that is refused is what the list is refused for. -/
theorem exists_of_mapM_error {f : α → Except ε β} {as : List α} {e : ε} (h : as.mapM f = .error e) :
    ∃ a ∈ as, f a = .error e := by
  induction as with
  | nil => cases h
  | cons a as ih =>
    rw [List.mapM_cons] at h
    cases ha : f a with
    | error e' =>
      rw [ha] at h
      cases h
      exact ⟨a, List.mem_cons_self, ha⟩
    | ok b =>
      rw [ha] at h
      cases has : as.mapM f with
      | error e' =>
        rw [has] at h
        cases h
        obtain ⟨a', ha', he⟩ := ih has
        exact ⟨a', List.mem_cons_of_mem _ ha', he⟩
      | ok bs =>
        rw [has] at h
        cases h

/-- A step that succeeds on each element, with a result that tells the element, succeeds on the list. -/
theorem exists_mapM_eq_ok {f : α → Except ε β} {g : β → α} {P : β → Prop} {as : List α}
    (h : ∀ a ∈ as, ∃ b, f a = .ok b ∧ g b = a ∧ P b) : ∃ bs, as.mapM f = .ok bs ∧ bs.map g = as ∧ ∀ b ∈ bs, P b := by
  induction as with
  | nil => exact ⟨[], rfl, rfl, fun b hb => nomatch hb⟩
  | cons a as ih =>
    obtain ⟨⟨b, hb, hg, hP⟩, has⟩ := List.forall_mem_cons.mp h
    obtain ⟨bs, hbs, hgs, hPs⟩ := ih has
    refine ⟨b :: bs, ?_, by rw [List.map_cons, hg, hgs], List.forall_mem_cons.mpr ⟨hP, hPs⟩⟩
    rw [List.mapM_cons, hb, hbs]
    rfl

theorem mapM_congr {f g : α → Except ε β} {as : List α} (h : ∀ a ∈ as, f a = g a) : as.mapM f = as.mapM g := by
  induction as with
  | nil => rfl
  | cons a as ih =>
    obtain ⟨ha, has⟩ := List.forall_mem_cons.mp h
    rw [List.mapM_cons, List.mapM_cons, ha, ih has]

/-- A step succeeds on a list exactly if it does on each element. -/
theorem exists_mapM_iff {f : α → Except ε β} {as : List α} : (∃ bs, as.mapM f = .ok bs) ↔ ∀ a ∈ as, ∃ b, f a = .ok b := by
  refine ⟨fun ⟨bs, hbs⟩ a ha => ?_, fun h => ?_⟩
  · obtain ⟨b, -, hb⟩ := exists_of_mem_forall₂ (forall₂_of_mapM hbs) ha
    exact ⟨b, hb⟩
  · cases hrun : as.mapM f with
    | ok bs => exact ⟨bs, rfl⟩
    | error e =>
      obtain ⟨a, ha, he⟩ := exists_of_mapM_error hrun
      obtain ⟨b, hb⟩ := h a ha
      cases he.symm.trans hb

theorem Attempt.bind_run {σ : Type} (x : Attempt σ ε α) (f : α → Attempt σ ε β) (s : σ) :
    (x >>= f) s =
      match x s with
      | (.ok a, s') => f a s'
      | (.error e, s') => (.error e, s') := by
  change ExceptT.bindCont f (x s).1 (x s).2 = _
  rcases x s with ⟨e | a, s'⟩ <;> rfl

/-- A step that succeeds hands its result and the state it leaves to the next. -/
theorem Attempt.bind_of_ok {σ : Type} {x : Attempt σ ε α} {f : α → Attempt σ ε β} {s s' : σ} {a : α}
    (h : x s = (.ok a, s')) : (x >>= f) s = f a s' := by
  rw [bind_run, h]

theorem Attempt.bind_of_error {σ : Type} {x : Attempt σ ε α} {f : α → Attempt σ ε β} {s s' : σ} {e : ε}
    (h : x s = (.error e, s')) : (x >>= f) s = (.error e, s') := by
  rw [bind_run, h]

theorem Attempt.bind_eq_ok {σ : Type} {x : Attempt σ ε α} {f : α → Attempt σ ε β} {s s' : σ} {b : β} :
    (x >>= f) s = (.ok b, s') ↔ ∃ a s₁, x s = (.ok a, s₁) ∧ f a s₁ = (.ok b, s') := by
  constructor
  · intro h
    rw [bind_run] at h
    rcases hx : x s with ⟨e | a, s₁⟩ <;> rw [hx] at h
    · cases h
    · exact ⟨a, s₁, rfl, h⟩
  · rintro ⟨a, s₁, hx, hf⟩
    rw [bind_of_ok hx, hf]

theorem Attempt.adapt_of_ok {σ : Type} {x : Attempt σ ε α} {g : ε → ε'} {s s' : σ} {a : α} (h : x s = (.ok a, s')) :
    (ExceptT.adapt g x : Attempt σ ε' α) s = (.ok a, s') := by
  change (Except.mapError g (x s).1, (x s).2) = _
  rw [h]
  rfl

theorem Attempt.adapt_eq_ok {σ : Type} {x : Attempt σ ε α} {g : ε → ε'} {s s' : σ} {a : α} :
    (ExceptT.adapt g x : Attempt σ ε' α) s = (.ok a, s') ↔ x s = (.ok a, s') := by
  refine ⟨fun h => ?_, adapt_of_ok⟩
  obtain ⟨hresult, hstate⟩ := Prod.mk.inj (show (Except.mapError g (x s).1, (x s).2) = (.ok a, s') from h)
  exact Prod.ext (mapError_eq_ok.mp hresult) hstate

theorem Attempt.liftM_bind_eq_ok {σ : Type} {e : Except ε α} {f : α → Attempt σ ε β} {s s' : σ} {b : β} :
    ((liftM e : Attempt σ ε α) >>= f) s = (.ok b, s') ↔ ∃ a, e = .ok a ∧ f a s = (.ok b, s') := by
  cases e with
  | error e =>
    exact ⟨fun h => (nomatch (congrArg Prod.fst h : (Except.error e : Except ε β) = .ok b)), fun ⟨_, h, _⟩ => nomatch h⟩
  | ok a => exact ⟨fun h => ⟨a, rfl, h⟩, fun ⟨_, rfl, h⟩ => h⟩

/-- To change each result as its element asks is to change the list of the results. -/
theorem mapM_map_eq {γ : Type} (f : α → Except ε β) (g : α → β → γ) (as : List α) :
    as.mapM (fun a => (f a).map (g a)) = (as.mapM f).map fun bs => as.zipWith g bs := by
  induction as with
  | nil => rfl
  | cons a as ih =>
    rw [List.mapM_cons, List.mapM_cons, ih]
    cases f a with
    | error e => rfl
    | ok b => cases as.mapM f <;> rfl

/-! ### Draws -/

/-- Whatever is on a tape without a fault, the result has a property, and the rest has no fault. -/
def Draw.Yields (x : Draw α) (P : α → Prop) : Prop :=
  ∀ tape : RandomTape, tape.fault = none → P (x tape).1 ∧ (x tape).2.fault = none

namespace Draw.Yields
variable {x : Draw α} {f : α → Draw β} {P P' : α → Prop} {Q : β → Prop}

theorem mono (hx : Draw.Yields x P) (h : ∀ a, P a → P' a) : Draw.Yields x P' := fun tape ht =>
  ⟨h _ (hx tape ht).1, (hx tape ht).2⟩

theorem pure {a : α} (h : P a) : Draw.Yields (Pure.pure a) P := fun _ ht => ⟨h, ht⟩

theorem bind (hx : Draw.Yields x P) (hf : ∀ a, P a → Draw.Yields (f a) Q) : Draw.Yields (x >>= f) Q :=
  fun tape ht => hf _ (hx tape ht).1 _ (hx tape ht).2

end Draw.Yields

theorem Draw.length_mapM (f : α → Draw β) (as : List α) (tape : RandomTape) : (as.mapM f tape).1.length = as.length := by
  induction as generalizing tape with
  | nil => rfl
  | cons a as ih =>
    rw [List.mapM_cons]
    exact congrArg Nat.succ (ih _)

theorem Draw.mapM_cons_run (f : α → Draw β) (a : α) (as : List α) (tape : RandomTape) :
    (a :: as).mapM f tape = ((f a tape).1 :: (as.mapM f (f a tape).2).1, (as.mapM f (f a tape).2).2) := by
  rw [List.mapM_cons]
  rfl

/-! ### Draws that may fail -/

/-- Whatever is on a tape without a fault, the computation succeeds with a result that has a property. -/
def TryDraw.Yields (x : TryDraw ε α) (P : α → Prop) : Prop :=
  Draw.Yields x.run fun result => ∃ a, result = .ok a ∧ P a

namespace TryDraw.Yields
variable {x : TryDraw ε α} {f : α → TryDraw ε β} {P P' : α → Prop} {Q : β → Prop}

theorem of_run (h : ∀ tape : RandomTape, tape.fault = none → ∃ a rest, x tape = (.ok a, rest) ∧ rest.fault = none ∧ P a) :
    TryDraw.Yields x P := by
  intro tape ht
  obtain ⟨a, rest, hrun, hrest, hP⟩ := h tape ht
  exact ⟨⟨a, congrArg Prod.fst hrun, hP⟩, (congrArg (·.2.fault) hrun).trans hrest⟩

theorem mono (hx : TryDraw.Yields x P) (h : ∀ a, P a → P' a) : TryDraw.Yields x P' :=
  Draw.Yields.mono hx fun _ ⟨a, ha, hP⟩ => ⟨a, ha, h a hP⟩

theorem pure {a : α} (h : P a) : TryDraw.Yields (Pure.pure a : TryDraw ε α) P :=
  Draw.Yields.pure ⟨a, rfl, h⟩

theorem bind (hx : TryDraw.Yields x P) (hf : ∀ a, P a → TryDraw.Yields (f a) Q) : TryDraw.Yields (x >>= f) Q := by
  intro tape ht
  obtain ⟨⟨a, ha, hP⟩, hrest⟩ := hx tape ht
  have hrun : (x >>= f) tape = f a (x tape).2 := Attempt.bind_of_ok (Prod.ext ha rfl)
  change _ ∧ ((x >>= f) tape).2.fault = none
  rw [hrun]
  obtain ⟨⟨b, hb, hQ⟩, hrest'⟩ := hf a hP _ hrest
  exact ⟨⟨b, (congrArg Prod.fst hrun).trans hb, hQ⟩, hrest'⟩

/-- A draw that cannot fail, as a part of one that can. -/
theorem lift {d : Draw α} (hd : Draw.Yields d P) : TryDraw.Yields (ExceptT.lift d : TryDraw ε α) P :=
  fun tape ht => ⟨⟨_, rfl, (hd tape ht).1⟩, (hd tape ht).2⟩

theorem ok_bind {e : Except ε α} {a : α} (h : e = .ok a) (hf : TryDraw.Yields (f a) Q) :
    TryDraw.Yields ((liftM e : TryDraw ε α) >>= f) Q := by
  subst h
  exact hf

theorem mapError_bind {e : Except ε' α} {g : ε' → ε} {a : α} (h : e = .ok a) (hf : TryDraw.Yields (f a) Q) :
    TryDraw.Yields ((liftM (e.mapError g) : TryDraw ε α) >>= f) Q :=
  ok_bind (congrArg (Except.mapError g) h) hf

theorem adapt {g : ε → ε'} (hx : TryDraw.Yields x P) : TryDraw.Yields (ExceptT.adapt g x) P :=
  of_run fun _ ht => by
    obtain ⟨⟨a, ha, hP⟩, hrest⟩ := hx _ ht
    exact ⟨a, _, Attempt.adapt_of_ok (Prod.ext ha rfl), hrest, hP⟩

/-- The run on one tape. -/
theorem run (hx : TryDraw.Yields x P) {tape : RandomTape} (ht : tape.fault = none) :
    ∃ a rest, x tape = (.ok a, rest) ∧ rest.fault = none ∧ P a := by
  obtain ⟨⟨a, ha, hP⟩, hrest⟩ := hx tape ht
  exact ⟨a, (x tape).2, Prod.ext ha rfl, hrest, hP⟩

theorem of_ok (hx : TryDraw.Yields x P) {tape rest : RandomTape} {a : α} (ht : tape.fault = none)
    (h : x tape = (.ok a, rest)) :
    P a ∧ rest.fault = none := by
  obtain ⟨_, _, hrun, hrest, hP⟩ := hx.run ht
  cases h.symm.trans hrun
  exact ⟨hP, hrest⟩

end TryDraw.Yields

end PrivateHistogram
