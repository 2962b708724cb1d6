import PrivateHistogram.Proofs.Aggregation.Failures
import PrivateHistogram.Proofs.Codecs
import PrivateHistogram.Proofs.Helper.Rounds

/-! Calls of a helper, one after the other. What comes from outside is taken in whatever rounds there have been
    (`receives_of_isReceipt`), and a round goes by the context that it starts from and by nothing else (`round_alike`,
    `round_error`). -/

namespace PrivateHistogram.Helper

open Aggregation (SoundAll)

variable {S : Suite}

/-- What a helper is called for. -/
inductive Call
  | reports (list : List PartialReport)
  | exponentiatedKeys (message : Bytes)
  | keyHalves (message : Bytes)
  | round (p : RoundParams)

/-- What a call gives if it is not refused: a message for the peer, nothing, or a histogram. -/
inductive Answer
  | message (bytes : Bytes)
  | taken
  | histogram (h : PartialHistogram)

namespace Call

def step : Call → HelperStep S Answer
  | .reports list => do return .message (← receiveReports list)
  | .exponentiatedKeys message => do return .message (← receiveExponentiatedKeys message)
  | .keyHalves message => do receiveKeyHalves message; return .taken
  | .round p => do return .histogram (← aggregate p)

/-- Whether something is taken in, rather than a round run. -/
def isReceipt : Call → Bool
  | .round _ => false
  | _ => true

theorem eq_round {call : Call} (hcall : ¬call.isReceipt = true) : ∃ p, call = .round p := by
  cases call <;> first | exact ⟨_, rfl⟩ | exact absurd rfl hcall

end Call

/-- Calls of a helper, each with its answer or the reason for which it is refused. -/
def serve : List Call → Helper S → Draw (List (Except Failure Answer) × Helper S)
  | [], h => return ([], h)
  | call :: calls, h => do
    let (answer, h) ← call.step.run.run h
    let (answers, h) ← serve calls h
    return (answer :: answers, h)

theorem serve_cons (call : Call) (calls : List Call) (h : Helper S) (tape : RandomTape) :
    serve (call :: calls) h tape =
      let first := call.step.run.run h tape
      let others := serve calls first.1.2 first.2
      ((first.1.1 :: others.1.1, others.1.2), others.2) := rfl

/-! ### Taking in -/

/-- What a helper has become after something has been taken in: joins may have gone on, key halves may have come, and none
    is lost. -/
def Takes (h h' : Helper S) : Prop := ∃ joins keys, h' = { h with joins, sealedKeys := h.sealedKeys ++ keys }

theorem Takes.refl (h : Helper S) : h.Takes h := ⟨h.joins, [], by rw [List.append_nil]⟩

theorem Takes.trans {h h₁ h₂ : Helper S} (hfirst : h.Takes h₁) (hsecond : h₁.Takes h₂) : h.Takes h₂ := by
  obtain ⟨joins, keys, rfl⟩ := hfirst
  obtain ⟨joins', keys', rfl⟩ := hsecond
  exact ⟨joins', keys ++ keys', by rw [List.append_assoc]⟩

/-- A step that takes something in, for a helper and for the same helper with another context: it does the same. -/
def Receives {α : Type} (x y : HelperStep S α) (h : Helper S) (context : Option EvaluationContext) : Prop :=
  ∀ tape, h.Takes (x.run.run h tape).1.2 ∧
    y.run.run { h with context } tape =
      (((x.run.run h tape).1.1, { (x.run.run h tape).1.2 with context }), (x.run.run h tape).2)

namespace Receives
variable {α β ε : Type} {h : Helper S} {context : Option EvaluationContext} {x y : HelperStep S α}
  {f g : α → HelperStep S β}

theorem pure (a : α) : Receives (Pure.pure a) (Pure.pure a) h context := fun _ => ⟨.refl h, rfl⟩

theorem throw (e : Failure) : Receives (throw e : HelperStep S α) (throw e) h context := fun _ => ⟨.refl h, rfl⟩

theorem bind (hx : Receives x y h context) (hf : ∀ a h', h.Takes h' → Receives (f a) (g a) h' context) :
    Receives (x >>= f) (y >>= g) h context := by
  intro tape
  obtain ⟨htakes, hsame⟩ := hx tape
  rw [run_bind, run_bind, hsame]
  rcases hrun : x.run.run h tape with ⟨⟨e | a, h₁⟩, rest⟩ <;> rw [hrun] at htakes
  · exact ⟨htakes, rfl⟩
  · obtain ⟨htakes', hsame'⟩ := hf a h₁ htakes rest
    exact ⟨htakes.trans htakes', hsame'⟩

theorem get_bind {f g : Helper S → HelperStep S β} (hf : Receives (f h) (g { h with context }) h context) :
    Receives (get >>= f) (get >>= g) h context := hf

theorem set {h' : Helper S} (htakes : h.Takes h') :
    Receives (set h' : HelperStep S PUnit) (set { h' with context }) h context := fun _ => ⟨htakes, rfl⟩

theorem ok_bind (e : Except Failure α) (hf : ∀ a, e = .ok a → Receives (f a) (g a) h context) :
    Receives ((liftM e : HelperStep S α) >>= f) ((liftM e : HelperStep S α) >>= g) h context := by
  cases e with
  | error e => exact throw e
  | ok a => exact hf a rfl

theorem drawing_bind (sort : ε → Failure) (d : TryDraw ε α) (hf : ∀ a, Receives (f a) (g a) h context) :
    Receives (drawing sort d >>= f) (drawing sort d >>= g) h context := by
  intro tape
  rw [run_bind, run_bind, run_drawing, run_drawing]
  cases (d.run tape).1 with
  | error e => exact ⟨.refl h, rfl⟩
  | ok a => exact hf a _

theorem mapM {β : Type} {f : β → HelperStep S α} {bs : List β}
    (hf : ∀ b ∈ bs, ∀ h', Receives (f b) (f b) h' context) : Receives (bs.mapM f) (bs.mapM f) h context := by
  induction bs generalizing h with
  | nil => exact pure []
  | cons b bs ih =>
    obtain ⟨hb, hbs⟩ := List.forall_mem_cons.mp hf
    rw [List.mapM_cons]
    exact bind (hb h) fun a h' _ => bind (ih hbs) fun as h'' _ => pure (a :: as)

end Receives

section Receipts
variable (h : Helper S) (context : Option EvaluationContext)

theorem receiveReport_receives (r : PartialReport) : Receives (receiveReport r) (receiveReport r) h context := by
  refine .get_bind ?_
  dsimp only
  by_cases hheld : h.joins.contains r.id = true
  · simp only [if_pos hheld]
    exact .throw _
  · simp only [if_neg hheld]
    refine .ok_bind _ fun opened _ => .drawing_bind _ _ fun result => ?_
    exact .bind (.set ⟨_, [], by rw [List.append_nil]⟩) fun _ h' _ => .pure _

theorem receiveReports_receives (reports : List PartialReport) :
    Receives (receiveReports reports) (receiveReports reports) h context :=
  .bind (.mapM fun r _ h' => receiveReport_receives h' context r) fun _ _ _ => .pure _

theorem receiveExponentiatedKeys_receives (message : Bytes) :
    Receives (receiveExponentiatedKeys message) (receiveExponentiatedKeys message) h context := by
  refine .ok_bind _ fun _ _ => .ok_bind _ fun peerKeys _ => .get_bind (.drawing_bind _ _ fun staged => ?_)
  have hmissing : ({ h with context } : Helper S).missing? staged = h.missing? staged := rfl
  simp only [hmissing]
  cases h.missing? staged with
  | some id => exact .throw _
  | none => exact .bind (.set ⟨_, staged.own, rfl⟩) fun _ _ _ => .pure _

theorem receiveKeyHalves_receives (message : Bytes) :
    Receives (receiveKeyHalves message) (receiveKeyHalves message) h context :=
  .ok_bind _ fun _ _ => .ok_bind _ fun keys _ => fun _ => ⟨⟨h.joins, keys, rfl⟩, rfl⟩

end Receipts

/-- Whatever is taken in, no context makes a difference to it. -/
theorem receives_of_isReceipt {call : Call} (hcall : call.isReceipt = true) (h : Helper S)
    (context : Option EvaluationContext) : Receives call.step call.step h context := by
  cases call with
  | reports list => exact .bind (receiveReports_receives h context list) fun _ _ _ => .pure _
  | exponentiatedKeys message => exact .bind (receiveExponentiatedKeys_receives h context message) fun _ _ _ => .pure _
  | keyHalves message => exact .bind (receiveKeyHalves_receives h context message) fun _ _ _ => .pure _
  | round p => cases hcall

theorem step_keyHalves (keys : List SealedKey) (h : Helper S) (tape : RandomTape) :
    (Call.keyHalves (Codec.toBytes (PeerMessage.keyHalves keys))).step.run.run h tape =
      ((.ok .taken, { h with sealedKeys := h.sealedKeys ++ keys }), tape) := by
  rw [Call.step, run_bind, receiveKeyHalves, PeerMessage.ofBytes_toBytes]
  rfl

/-! ### Rounds -/

theorem round_records (d : PointFunction.Domain) (p : RoundParams) (context : EvaluationContext) (tape : RandomTape) :
    (Round.aggregate S d.hierarchy p context tape).1.2.records = context.records := by
  rw [round_run]
  cases Noise.choose p.combine.privacy p.ignorePrivacy with
  | error e => rfl
  | ok noise => exact Aggregation.aggregate_records

theorem round_alike {d : PointFunction.Domain} {c c' : EvaluationContext}
    (halike : Aggregation.Alike (Round.pointFunction S d) c c') (p : RoundParams) (tape : RandomTape) :
    (Round.aggregate S d.hierarchy p c' tape).1.1 = (Round.aggregate S d.hierarchy p c tape).1.1 ∧
      (Round.aggregate S d.hierarchy p c' tape).2 = (Round.aggregate S d.hierarchy p c tape).2 ∧
      Aggregation.Alike (Round.pointFunction S d) (Round.aggregate S d.hierarchy p c tape).1.2
        (Round.aggregate S d.hierarchy p c' tape).1.2 := by
  rw [round_run, round_run]
  cases Noise.choose p.combine.privacy p.ignorePrivacy with
  | error e => exact ⟨rfl, rfl, halike⟩
  | ok noise =>
    obtain ⟨hresult, htape, hafter⟩ := halike.aggregate p.expand p.combine noise tape
    exact ⟨congrArg (Except.mapError Failure.ofAggregation) hresult, htape, hafter⟩

theorem round_error {d : PointFunction.Domain} {c : EvaluationContext}
    (hsound : SoundAll (Round.pointFunction S d) c.records c.caches) {p : RoundParams} {tape : RandomTape} {e : Failure}
    (hfail : (Round.aggregate S d.hierarchy p c tape).1.1 = .error e) :
    Aggregation.Alike (Round.pointFunction S d) c (Round.aggregate S d.hierarchy p c tape).1.2 := by
  rw [round_run] at hfail ⊢
  cases hnoise : Noise.choose p.combine.privacy p.ignorePrivacy with
  | error e' => exact Aggregation.alike_refl hsound
  | ok noise =>
    rw [hnoise] at hfail
    dsimp only at hfail ⊢
    cases hresult : (Aggregation.aggregate (Round.pointFunction S d) p.expand p.combine noise c tape).1.1 with
    | error e' => exact Aggregation.alike_of_error hsound hresult
    | ok h =>
      rw [hresult] at hfail
      cases hfail

end PrivateHistogram.Helper
