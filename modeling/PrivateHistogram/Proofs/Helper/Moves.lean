import PrivateHistogram.Proofs.Helper.Failures
import PrivateHistogram.Proofs.Helper.Finishing
import PrivateHistogram.Proofs.Helper.Intake

/-! What a call can do to a helper. It is one of a few moves, each with its answer (`moves_of_step`), so what every move
    keeps, any calls keep (`serve_induction`). -/

namespace PrivateHistogram.Helper

variable {S : Suite} {h h' : Helper S}

/-- The key halves in a message, if it holds any. -/
def halvesIn (message : Bytes) : List SealedKey :=
  match (PeerMessage.ofBytes message).bind PeerMessage.toKeyHalves with
  | .ok keys => keys
  | .error _ => []

theorem halvesIn_keyHalves (keys : List SealedKey) : halvesIn (Codec.toBytes (PeerMessage.keyHalves keys)) = keys := by
  rw [halvesIn, PeerMessage.ofBytes_toBytes]
  rfl

theorem halvesIn_exponentiatedKeys (keys : List ExponentiatedKey) :
    halvesIn (Codec.toBytes (PeerMessage.exponentiatedKeys keys)) = [] := by
  rw [halvesIn, PeerMessage.ofBytes_toBytes]
  rfl

/-- The key halves that come with a call. -/
def Call.halves : Call → List SealedKey
  | .keyHalves message => halvesIn message
  | _ => []

/-- What a call can do to a helper, with its answer. -/
inductive Moves (h : Helper S) : Call → Except Failure Answer → Helper S → Prop
  | refuse {call : Call} {e : Failure} : call.halves = [] → Moves h call (.error e) h
  | awaitSome {reports taken : List PartialReport} {opened : List DecryptedReport} {e : Failure} : taken <+: reports →
      h.Opens taken opened → Moves h (.reports reports) (.error e) (h.awaiting opened)
  | await {reports : List PartialReport} {opened : List DecryptedReport} {keys : List ExponentiatedKey} :
      h.Opens reports opened →
      Moves h (.reports reports) (.ok (.message (Codec.toBytes (PeerMessage.exponentiatedKeys keys)))) (h.awaiting opened)
  | finish {message : Bytes} {ks : List ExponentiatedKey} {finished : List Finished} {staged : Staged} :
      PeerMessage.ofBytes message = .ok (.exponentiatedKeys ks) → h.Stages ks finished staged →
      Moves h (.exponentiatedKeys message) (.ok (.message (Codec.toBytes (PeerMessage.keyHalves staged.peer))))
        (h.commit staged)
  | take (message : Bytes) :
      Moves h (.keyHalves message) (.ok .taken) { h with sealedKeys := h.sealedKeys ++ halvesIn message }
  | round {p : RoundParams} (result : Except Failure PartialHistogram) (context : EvaluationContext) :
      Moves h (.round p) (result.map .histogram) { h with context := some context }

theorem receiveKeyHalves_run (message : Bytes) (h : Helper S) (tape : RandomTape) :
    (receiveKeyHalves message).run.run h tape =
      match (PeerMessage.ofBytes message).bind PeerMessage.toKeyHalves with
      | .error e => ((.error (.ofMessage e), h), tape)
      | .ok keys => ((.ok ⟨⟩, { h with sealedKeys := h.sealedKeys ++ keys }), tape) := by
  rw [receiveKeyHalves, run_liftM_bind]
  cases PeerMessage.ofBytes message with
  | error e => rfl
  | ok m =>
    simp only [Except.mapError, Except.bind]
    rw [run_liftM_bind]
    cases m.toKeyHalves <;> rfl

theorem step_of_halvesIn {message : Bytes} (hsome : halvesIn message ≠ []) (h : Helper S) (tape : RandomTape) :
    (Call.keyHalves message).step.run.run h tape =
      ((.ok .taken, { h with sealedKeys := h.sealedKeys ++ halvesIn message }), tape) := by
  rw [halvesIn] at hsome ⊢
  rw [Call.step, run_bind_pure, receiveKeyHalves_run]
  cases hread : (PeerMessage.ofBytes message).bind PeerMessage.toKeyHalves with
  | error e =>
    rw [hread] at hsome
    exact absurd rfl hsome
  | ok keys => rfl

theorem moves_of_step (call : Call) (h : Helper S) (tape : RandomTape) :
    h.Moves call (call.step.run.run h tape).1.1 (call.step.run.run h tape).1.2 := by
  cases call with
  | reports list =>
    obtain ⟨taken, others, opened, result, rest, hrun, hsplit, hopens, hresult⟩ := receiveReports_run list h tape
    rw [Call.step, run_bind_pure, hrun]
    cases result with
    | error e => exact .awaitSome ⟨others, hsplit.symm⟩ hopens
    | ok message =>
      obtain ⟨rfl, keys, rfl, -⟩ := hresult
      rw [List.append_nil] at hsplit
      exact .await (hsplit ▸ hopens)
  | exponentiatedKeys message =>
    rw [Call.step, run_bind_pure]
    rcases receiveExponentiatedKeys_cases message h tape with
      ⟨e, rest, hrun⟩ | ⟨ks, finished, staged, rest, hread, hstages, -, hrun⟩
    · rw [hrun]
      exact .refuse rfl
    · rw [hrun]
      exact .finish hread hstages
  | keyHalves message =>
    have htake := Moves.take (h := h) message
    rw [Call.step, run_bind_pure, receiveKeyHalves_run]
    rw [halvesIn] at htake
    cases hread : (PeerMessage.ofBytes message).bind PeerMessage.toKeyHalves with
    | error e => exact .refuse (by rw [Call.halves, halvesIn, hread])
    | ok keys =>
      rw [hread] at htake
      exact htake
  | round p =>
    rw [step_round]
    rcases current_or_refused h with ⟨c, hcurrent⟩ | ⟨hnone, e, hopen⟩
    · rw [run_aggregate hcurrent]
      exact .round _ _
    · rw [run_aggregate_of_refused hnone hopen]
      exact .refuse rfl

theorem moves_of_run {call : Call} {tape rest : RandomTape} {answer : Except Failure Answer}
    (hrun : call.step.run.run h tape = ((answer, h'), rest)) : h.Moves call answer h' := by
  have hmoves := moves_of_step call h tape
  rwa [hrun] at hmoves

/-- What every move keeps, any calls keep. -/
theorem serve_induction {P : Helper S → Prop}
    (hmove : ∀ (h h' : Helper S) (call : Call) (answer : Except Failure Answer), h.Moves call answer h' → P h → P h')
    (calls : List Call) (tape : RandomTape) (hP : P h) : P (serve calls h tape).1.2 := by
  induction calls generalizing h tape with
  | nil => exact hP
  | cons call calls ih => exact ih _ (hmove _ _ _ _ (moves_of_step call h tape) hP)

section Move
variable {call : Call} {answer : Except Failure Answer}

theorem Moves.constants (hmoves : h.Moves call answer h') :
    h'.id = h.id ∧ h'.keys = h.keys ∧ h'.peer = h.peer ∧ h'.domain = h.domain := by
  cases hmoves <;> exact ⟨rfl, rfl, rfl, rfl⟩

theorem Moves.mem_joins (hmoves : h.Moves call answer h') {id : ReportId} (hid : id ∈ h.joins) : id ∈ h'.joins := by
  cases hmoves with
  | refuse | take | round => exact hid
  | await hopens => exact hopens.mem_awaiting.mpr (.inl hid)
  | awaitSome _ hopens => exact hopens.mem_awaiting.mpr (.inl hid)
  | finish _ hstages => exact Std.ExtTreeMap.mem_insertMany_list.mpr (.inl hid)

theorem Moves.rekeyed (hmoves : h.Moves call answer h') {id : ReportId} {share : AggregationIdShare}
    (hid : h.joins[id]? = some (.rekeyed share)) : h'.joins[id]? = some (.rekeyed share) := by
  cases hmoves with
  | refuse | take | round => exact hid
  | await hopens => exact hopens.rekeyed_awaiting.mpr hid
  | awaitSome _ hopens => exact hopens.rekeyed_awaiting.mpr hid
  | finish _ hstages => exact (hstages.getElem?_commit.2 id (hstages.not_mem_of_rekeyed hid)).trans hid

end Move

theorem serve_constants (calls : List Call) (h : Helper S) (tape : RandomTape) :
    (serve calls h tape).1.2.id = h.id ∧ (serve calls h tape).1.2.keys = h.keys ∧
      (serve calls h tape).1.2.peer = h.peer ∧ (serve calls h tape).1.2.domain = h.domain := by
  refine serve_induction (P := fun h' => h'.id = h.id ∧ h'.keys = h.keys ∧ h'.peer = h.peer ∧ h'.domain = h.domain)
    (fun h₁ h₂ call answer hmoves hsame => ?_) calls tape ⟨rfl, rfl, rfl, rfl⟩
  obtain ⟨hid, hkeys, hpeer, hdomain⟩ := hmoves.constants
  exact ⟨hid.trans hsame.1, hkeys.trans hsame.2.1, hpeer.trans hsame.2.2.1, hdomain.trans hsame.2.2.2⟩

theorem mem_serve (calls : List Call) (tape : RandomTape) {id : ReportId} (hid : id ∈ h.joins) :
    id ∈ (serve calls h tape).1.2.joins :=
  serve_induction (P := fun h' => id ∈ h'.joins) (fun _ _ _ _ hmoves hmem => hmoves.mem_joins hmem) calls tape hid

end PrivateHistogram.Helper
