import PrivateHistogram.Helper.Drive
import PrivateHistogram.Proofs.Draws

/-! What a step of a helper is sure to do, whatever the bytes on the tape. A step yields something if from a given
    state it ends with a result and a state that have a property, or fails for a reason that is allowed. -/

namespace PrivateHistogram

variable {σ ε α β : Type}

/-- Whatever is on a tape without a fault, the step gives a result and leaves a state that have a property, or fails
    for one of the reasons `E`. -/
def StepYields (x : ExceptT ε (StateT σ Draw) α) (s : σ) (E : ε → Prop) (Q : α → σ → Prop) : Prop :=
  Draw.Yields (x.run.run s) fun result =>
    match result.1 with
    | .ok a => Q a result.2
    | .error e => E e

namespace StepYields
variable {x : ExceptT ε (StateT σ Draw) α} {f : α → ExceptT ε (StateT σ Draw) β} {s : σ} {E : ε → Prop}
  {P : α → σ → Prop} {Q : β → σ → Prop}

theorem mono {P' : α → σ → Prop} (hx : StepYields x s E P) (h : ∀ a s', P a s' → P' a s') : StepYields x s E P' := by
  refine Draw.Yields.mono hx fun result hresult => ?_
  rcases result with ⟨e | a, s'⟩
  · exact hresult
  · exact h a s' hresult

theorem pure {a : α} (h : P a s) : StepYields (Pure.pure a) s E P := Draw.Yields.pure h

theorem bind (hx : StepYields x s E P) (hf : ∀ a s', P a s' → StepYields (f a) s' E Q) :
    StepYields (x >>= f) s E Q := by
  refine Draw.Yields.bind (f := fun result => (ExceptT.bindCont f result.1).run result.2) hx fun result hresult => ?_
  rcases result with ⟨e | a, s'⟩
  · exact Draw.Yields.pure hresult
  · exact hf a s' hresult

theorem ok_bind {e : Except ε α} {a : α} (h : e = .ok a) (hf : StepYields (f a) s E Q) :
    StepYields ((liftM e : ExceptT ε (StateT σ Draw) α) >>= f) s E Q := by
  subst h
  exact hf

theorem mapError_bind {ε' : Type} {e : Except ε' α} {g : ε' → ε} {a : α} (h : e = .ok a)
    (hf : StepYields (f a) s E Q) :
    StepYields ((liftM (e.mapError g) : ExceptT ε (StateT σ Draw) α) >>= f) s E Q :=
  ok_bind (congrArg (Except.mapError g) h) hf

theorem get_bind {f : σ → ExceptT ε (StateT σ Draw) β} (hf : StepYields (f s) s E Q) :
    StepYields (get >>= f) s E Q := hf

theorem set_bind {s' : σ} {f : PUnit → ExceptT ε (StateT σ Draw) β} (hf : StepYields (f ⟨⟩) s' E Q) :
    StepYields (set s' >>= f) s E Q := hf

theorem modify {g : σ → σ} {P : PUnit → σ → Prop} (h : P ⟨⟩ (g s)) :
    StepYields (modify g : ExceptT ε (StateT σ Draw) PUnit) s E P := Draw.Yields.pure h

theorem draw_bind {d : Draw α} {P : α → Prop} (hd : Draw.Yields d P) (hf : ∀ a, P a → StepYields (f a) s E Q) :
    StepYields ((liftM d : ExceptT ε (StateT σ Draw) α) >>= f) s E Q :=
  Draw.Yields.bind (f := fun a => (f a).run.run s) hd hf

theorem run (hx : StepYields x s E P) {tape : RandomTape} (ht : tape.fault = none) :
    (∃ e, (x.run.run s tape).1.1 = .error e ∧ E e) ∨
      ∃ a, (x.run.run s tape).1.1 = .ok a ∧ P a (x.run.run s tape).1.2 := by
  have hresult := (hx tape ht).1
  rcases hrun : (x.run.run s tape).1 with ⟨e | a, s'⟩
  · rw [hrun] at hresult
    exact .inl ⟨e, rfl, hresult⟩
  · rw [hrun] at hresult
    exact .inr ⟨a, rfl, hresult⟩

end StepYields

namespace Helper
variable {S : Suite} {a b : Helper S} {E : Failure → Prop} {x : HelperStep S α}

theorem run_bind {α β : Type} (x : HelperStep S α) (f : α → HelperStep S β) (h : Helper S) (tape : RandomTape) :
    (x >>= f).run.run h tape =
      match x.run.run h tape with
      | ((.ok a, h'), rest) => (f a).run.run h' rest
      | ((.error e, h'), rest) => ((.error e, h'), rest) := by
  change (ExceptT.bindCont f (x.run.run h tape).1.1).run (x.run.run h tape).1.2 (x.run.run h tape).2 = _
  rcases x.run.run h tape with ⟨⟨e | a, h'⟩, rest⟩ <;> rfl

theorem run_drawing {α ε : Type} (sort : ε → Failure) (d : TryDraw ε α) (h : Helper S) (tape : RandomTape) :
    (drawing sort d).run.run h tape = (((d.run tape).1.mapError sort, h), (d.run tape).2) := by
  have hdraw : (liftM (d.run : Draw (Except ε α)) : HelperStep S (Except ε α)).run.run h tape =
      ((.ok (d.run tape).1, h), (d.run tape).2) := rfl
  rw [drawing, run_bind, hdraw]
  cases (d.run tape).1 <;> rfl

section Runs
variable {α β ε : Type} (h : Helper S) (tape : RandomTape)

theorem run_bind_pure (x : HelperStep S α) (f : α → β) :
    (x >>= fun a => pure (f a)).run.run h tape =
      (((x.run.run h tape).1.1.map f, (x.run.run h tape).1.2), (x.run.run h tape).2) := by
  rw [run_bind]
  rcases x.run.run h tape with ⟨⟨e | a, h'⟩, rest⟩ <;> rfl

theorem run_get_bind (f : Helper S → HelperStep S α) : (get >>= f).run.run h tape = (f h).run.run h tape := rfl

theorem run_liftM_bind (e : Except Failure α) (f : α → HelperStep S β) :
    ((liftM e : HelperStep S α) >>= f).run.run h tape =
      match e with
      | .ok a => (f a).run.run h tape
      | .error e => ((.error e, h), tape) := by
  cases e <;> rfl

theorem run_drawing_bind (sort : ε → Failure) (d : TryDraw ε α) (f : α → HelperStep S β) :
    (drawing sort d >>= f).run.run h tape =
      match d tape with
      | (.ok a, rest) => (f a).run.run h rest
      | (.error e, rest) => ((.error (sort e), h), rest) := by
  have hrun : d.run tape = d tape := rfl
  rw [run_bind, run_drawing, hrun]
  rcases d tape with ⟨e | a, rest⟩ <;> rfl

end Runs

theorem drawing_yields {sort : ε → Failure} {x : TryDraw ε α} {P : α → Prop} (hx : TryDraw.Yields x P) :
    StepYields (drawing sort x) a E fun result a' => P result ∧ a' = a := by
  refine StepYields.draw_bind hx fun result hresult => ?_
  obtain ⟨value, rfl, hvalue⟩ := hresult
  exact StepYields.pure ⟨hvalue, rfl⟩

/-- A step of one helper leaves the other alone. -/
theorem asFirst_yields {Q : α → Helper S → Prop} (hx : StepYields x a E Q) :
    StepYields (asFirst x) (a, b) E fun result state => Q result state.1 ∧ state.2 = b := by
  refine Draw.Yields.bind (f := fun result => Pure.pure (result.1, (result.2, b))) hx fun result hresult => ?_
  rcases result with ⟨e | value, a'⟩
  · exact Draw.Yields.pure hresult
  · exact Draw.Yields.pure ⟨hresult, rfl⟩

theorem asSecond_yields {Q : α → Helper S → Prop} (hx : StepYields x b E Q) :
    StepYields (asSecond x) (a, b) E fun result state => Q result state.2 ∧ state.1 = a := by
  refine Draw.Yields.bind (f := fun result => Pure.pure (result.1, (a, result.2))) hx fun result hresult => ?_
  rcases result with ⟨e | value, b'⟩
  · exact Draw.Yields.pure hresult
  · exact Draw.Yields.pure ⟨hresult, rfl⟩

end Helper

end PrivateHistogram
