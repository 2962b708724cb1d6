import PrivateHistogram.Proofs.Helper.Joins

/-! Reports that a helper takes in. It goes through a batch one by one and stops at the first report that it refuses
    (`receiveReports_run`); those before it stay taken in and wait for the peer. -/

namespace PrivateHistogram

theorem Report.id_of_decrypt {S : Suite} {r : PartialReport} {k : Transport.PrivateKey} {opened : DecryptedReport}
    (h : decrypt S r k = .ok opened) : opened.id = r.id := by
  obtain ⟨bytes, -, h⟩ := bind_eq_ok.mp h
  cases hpayload : (Codec.ofBytes? bytes : Option Payload) with
  | none =>
    rw [hpayload] at h
    cases h
  | some payload =>
    rw [hpayload] at h
    cases h
    rfl

theorem Join.id_of_exponentiate {S : Suite} {r : DecryptedReport} {own : ElGamal.Secret} {peer : ElGamal.PublicKey S.group}
    {tape rest : RandomTape} {message : ExponentiatedKey} (h : exponentiate S r own peer tape = (.ok message, rest)) :
    message.id = r.id := by
  rw [exponentiate, Attempt.bind_run] at h
  split at h
  · cases h
    rfl
  · cases h

namespace Helper

variable {S : Suite} {h : Helper S}

/-- Why a helper refuses a report. -/
inductive Refuses (h : Helper S) (r : PartialReport) : Failure → Prop
  | duplicate : r.id ∈ h.joins → Refuses h r (.input (.duplicateReport r.id))
  | unreadable {e : Report.Error} : r.id ∉ h.joins → Report.decrypt S r h.keys.transport = .error e →
      Refuses h r (.ofReport e)
  /-- The encrypted key in it cannot be blinded, since it is no pair of group elements. -/
  | invalidKey {opened : DecryptedReport} {e : Join.Error} {tape rest : RandomTape} : r.id ∉ h.joins →
      Report.decrypt S r h.keys.transport = .ok opened →
      Join.exponentiate S opened h.keys.secret h.peer.elGamal tape = (.error e, rest) → Refuses h r (.ofJoin e)

/-- The helper once some opened reports wait for the peer. -/
def awaiting (h : Helper S) (opened : List DecryptedReport) : Helper S :=
  { h with joins := h.joins.insertMany (opened.map fun r => (r.id, .exponentiated r)) }

/-- What a helper finds in reports that it takes in: it can open them all, and none has been received before. -/
structure Opens (h : Helper S) (reports : List PartialReport) (opened : List DecryptedReport) : Prop where
  decrypt : List.Forall₂ (fun r o => Report.decrypt S r h.keys.transport = .ok o) reports opened
  nodup : (reports.map PartialReport.id).Nodup
  fresh : ∀ r ∈ reports, r.id ∉ h.joins

theorem awaiting_nil : h.awaiting [] = h := by
  rw [awaiting, List.map_nil, Std.ExtTreeMap.insertMany_nil]

theorem awaiting_cons (o : DecryptedReport) (opened : List DecryptedReport) :
    h.awaiting (o :: opened) = ({ h with joins := h.joins.insert o.id (.exponentiated o) } : Helper S).awaiting opened := by
  rw [awaiting, List.map_cons, Std.ExtTreeMap.insertMany_cons]
  rfl

namespace Opens
variable {reports : List PartialReport} {opened : List DecryptedReport}

theorem ids (hopens : h.Opens reports opened) : opened.map DecryptedReport.id = reports.map PartialReport.id :=
  map_eq_map_of_forall₂ (hopens.decrypt.flip.imp fun _ _ => Report.id_of_decrypt)

theorem getElem?_awaiting (hopens : h.Opens reports opened) :
    (∀ o ∈ opened, (h.awaiting opened).joins[o.id]? = some (.exponentiated o)) ∧
      ∀ id ∉ reports.map PartialReport.id, (h.awaiting opened).joins[id]? = h.joins[id]? := by
  have hfst : (opened.map fun r => (r.id, JoinState.exponentiated r)).map Prod.fst = opened.map DecryptedReport.id :=
    List.map_map
  have hnodup : (opened.map DecryptedReport.id).Nodup := hopens.ids ▸ hopens.nodup
  refine ⟨fun o ho => ?_, fun id hid => ?_⟩
  · refine Std.ExtTreeMap.getElem?_insertMany_list_of_mem Std.ReflCmp.compare_self ?_ (List.mem_map.mpr ⟨o, ho, rfl⟩)
    rw [List.pairwise_map]
    exact (List.pairwise_map.mp hnodup).imp fun hne heq => hne (Std.LawfulEqCmp.eq_of_compare heq)
  · refine Std.ExtTreeMap.getElem?_insertMany_list_of_contains_eq_false (Bool.eq_false_iff.mpr fun hmem => hid ?_)
    rw [List.contains_iff_mem, hfst, hopens.ids] at hmem
    exact hmem

theorem of_getElem?_awaiting (hopens : h.Opens reports opened) {id : ReportId} {state : JoinState}
    (hstate : (h.awaiting opened).joins[id]? = some state) :
    (∃ o ∈ opened, o.id = id ∧ state = .exponentiated o) ∨
      id ∉ reports.map PartialReport.id ∧ h.joins[id]? = some state := by
  obtain ⟨hnew, hothers⟩ := hopens.getElem?_awaiting
  by_cases hid : id ∈ reports.map PartialReport.id
  · rw [← hopens.ids, List.mem_map] at hid
    obtain ⟨o, ho, rfl⟩ := hid
    exact .inl ⟨o, ho, rfl, Option.some.inj (hstate.symm.trans (hnew o ho))⟩
  · exact .inr ⟨hid, (hothers id hid).symm.trans hstate⟩

theorem mem_awaiting (hopens : h.Opens reports opened) {id : ReportId} :
    id ∈ (h.awaiting opened).joins ↔ id ∈ h.joins ∨ id ∈ reports.map PartialReport.id := by
  rw [awaiting, Std.ExtTreeMap.mem_insertMany_list, List.contains_iff_mem, List.map_map, ← hopens.ids]
  rfl

/-- Reports that are finished have been received before, so they are none of these. -/
theorem rekeyed_awaiting (hopens : h.Opens reports opened) {id : ReportId} {share : AggregationIdShare} :
    (h.awaiting opened).joins[id]? = some (.rekeyed share) ↔ h.joins[id]? = some (.rekeyed share) := by
  constructor
  · intro hid
    rcases hopens.of_getElem?_awaiting hid with ⟨o, -, -, hstate⟩ | ⟨-, hid⟩
    · cases hstate
    · exact hid
  · intro hid
    refine (hopens.getElem?_awaiting.2 id fun hmem => ?_).trans hid
    obtain ⟨r, hr, rfl⟩ := List.mem_map.mp hmem
    exact hopens.fresh r hr (Std.ExtTreeMap.mem_iff_isSome_getElem?.mpr (Option.isSome_of_eq_some hid))

theorem cons {r : PartialReport} {o : DecryptedReport} (hnew : r.id ∉ h.joins)
    (hdecrypt : Report.decrypt S r h.keys.transport = .ok o)
    (hopens : ({ h with joins := h.joins.insert r.id (.exponentiated o) } : Helper S).Opens reports opened) :
    h.Opens (r :: reports) (o :: opened) where
  decrypt := .cons hdecrypt hopens.decrypt
  nodup := List.nodup_cons.mpr ⟨fun hmem => by
    obtain ⟨r', hr', hid⟩ := List.mem_map.mp hmem
    exact hopens.fresh r' hr' (mem_insert.mpr (.inl hid.symm)), hopens.nodup⟩
  fresh := List.forall_mem_cons.mpr ⟨hnew, fun r' hr' hmem => hopens.fresh r' hr' (mem_insert.mpr (.inr hmem))⟩

end Opens

/-! ### Runs -/

theorem exponentiate_run (r : DecryptedReport) (own : ElGamal.Secret) (peer : ElGamal.PublicKey S.group)
    (tape : RandomTape) :
    (JoinState.decrypted r).exponentiate S own peer tape =
      match Join.exponentiate S r own peer tape with
      | (.ok message, rest) => (.ok (.exponentiated r, message), rest)
      | (.error e, rest) => (.error e, rest) := by
  rw [JoinState.exponentiate, Attempt.bind_run]
  rcases Join.exponentiate S r own peer tape with ⟨e | message, rest⟩ <;> rfl

theorem receiveReport_run (r : PartialReport) (h : Helper S) (tape : RandomTape) :
    (receiveReport r).run.run h tape =
      if r.id ∈ h.joins then ((.error (.input (.duplicateReport r.id)), h), tape)
      else
        match Report.decrypt S r h.keys.transport with
        | .error e => ((.error (.ofReport e), h), tape)
        | .ok opened =>
          match Join.exponentiate S opened h.keys.secret h.peer.elGamal tape with
          | (.error e, rest) => ((.error (.ofJoin e), h), rest)
          | (.ok message, rest) =>
            ((.ok message, { h with joins := h.joins.insert r.id (.exponentiated opened) }), rest) := by
  rw [receiveReport, run_get_bind]
  by_cases hheld : r.id ∈ h.joins
  · simp only [if_pos hheld, if_pos (Std.ExtTreeMap.mem_iff_contains.mp hheld)]
    rfl
  · simp only [if_neg hheld, if_neg (mt Std.ExtTreeMap.mem_iff_contains.mpr hheld)]
    rw [run_liftM_bind]
    cases Report.decrypt S r h.keys.transport with
    | error e => rfl
    | ok opened =>
      simp only [Except.mapError]
      rw [run_drawing_bind, exponentiate_run]
      rcases Join.exponentiate S opened h.keys.secret h.peer.elGamal tape with ⟨e | message, rest⟩ <;> rfl

/-- A report is refused and nothing changes, or it is opened and waits for the peer. -/
theorem receiveReport_cases (r : PartialReport) (h : Helper S) (tape : RandomTape) :
    (∃ e rest, (receiveReport r).run.run h tape = ((.error e, h), rest) ∧ h.Refuses r e) ∨
      ∃ opened message rest, r.id ∉ h.joins ∧ Report.decrypt S r h.keys.transport = .ok opened ∧ message.id = r.id ∧
        (receiveReport r).run.run h tape =
          ((.ok message, { h with joins := h.joins.insert r.id (.exponentiated opened) }), rest) := by
  rw [receiveReport_run]
  by_cases hheld : r.id ∈ h.joins
  · rw [if_pos hheld]
    exact .inl ⟨_, _, rfl, .duplicate hheld⟩
  rw [if_neg hheld]
  cases hdecrypt : Report.decrypt S r h.keys.transport with
  | error e => exact .inl ⟨_, _, rfl, .unreadable hheld hdecrypt⟩
  | ok opened =>
    rcases hrun : Join.exponentiate S opened h.keys.secret h.peer.elGamal tape with ⟨e | message, rest⟩
    · exact .inl ⟨_, rest, by simp only [hrun], .invalidKey hheld hdecrypt hrun⟩
    · have hid := (Join.id_of_exponentiate hrun).trans (Report.id_of_decrypt hdecrypt)
      exact .inr ⟨opened, message, rest, hheld, rfl, hid, by simp only [hrun]⟩

/-- The reports of a batch are taken in up to the first that is refused. -/
theorem mapM_receiveReport_run (reports : List PartialReport) (h : Helper S) (tape : RandomTape) :
    ∃ taken others opened result rest, (reports.mapM receiveReport).run.run h tape = ((result, h.awaiting opened), rest) ∧
      reports = taken ++ others ∧ h.Opens taken opened ∧
      match result with
      | .ok keys => others = [] ∧ keys.map ExponentiatedKey.id = reports.map PartialReport.id
      | .error e => ∃ r ∈ others.head?, (h.awaiting opened).Refuses r e := by
  induction reports generalizing h tape with
  | nil =>
    refine ⟨[], [], [], .ok [], tape, ?_, rfl, ⟨.nil, .nil, fun r hr => nomatch hr⟩, rfl, rfl⟩
    rw [awaiting_nil]
    rfl
  | cons r reports ih =>
    rw [List.mapM_cons, run_bind]
    rcases receiveReport_cases r h tape with ⟨e, rest, hrun, hrefuses⟩ | ⟨o, message, rest, hnew, hdecrypt, hid, hrun⟩
    · rw [hrun]
      refine ⟨[], r :: reports, [], .error e, rest, ?_, rfl, ⟨.nil, .nil, fun r hr => nomatch hr⟩, r, rfl, ?_⟩
      · rw [awaiting_nil]
      · rwa [awaiting_nil]
    · rw [hrun]
      dsimp only
      obtain ⟨taken, others, opened, result, rest', hrest, hsplit, hopens, hresult⟩ :=
        ih { h with joins := h.joins.insert r.id (.exponentiated o) } rest
      rw [run_bind, hrest]
      have hawaiting : ({ h with joins := h.joins.insert r.id (.exponentiated o) } : Helper S).awaiting opened =
          h.awaiting (o :: opened) := by
        rw [awaiting_cons, Report.id_of_decrypt hdecrypt]
      rw [hawaiting] at hresult ⊢
      have hsplit' : r :: reports = (r :: taken) ++ others := congrArg (r :: ·) hsplit
      cases result with
      | ok keys =>
        refine ⟨r :: taken, others, o :: opened, .ok (message :: keys), rest', rfl, hsplit', hopens.cons hnew hdecrypt,
          hresult.1, ?_⟩
        rw [List.map_cons, List.map_cons, hid, hresult.2]
      | error e =>
        exact ⟨r :: taken, others, o :: opened, .error e, rest', rfl, hsplit', hopens.cons hnew hdecrypt, hresult⟩

theorem receiveReports_run (reports : List PartialReport) (h : Helper S) (tape : RandomTape) :
    ∃ taken others opened result rest, (receiveReports reports).run.run h tape = ((result, h.awaiting opened), rest) ∧
      reports = taken ++ others ∧ h.Opens taken opened ∧
      match result with
      | .ok message => others = [] ∧ ∃ keys, message = Codec.toBytes (PeerMessage.exponentiatedKeys keys) ∧
          keys.map ExponentiatedKey.id = reports.map PartialReport.id
      | .error e => ∃ r ∈ others.head?, (h.awaiting opened).Refuses r e := by
  obtain ⟨taken, others, opened, result, rest, hrun, hsplit, hopens, hresult⟩ := mapM_receiveReport_run reports h tape
  rw [receiveReports, run_bind, hrun]
  cases result with
  | ok keys => exact ⟨taken, others, opened, _, rest, rfl, hsplit, hopens, hresult.1, keys, rfl, hresult.2⟩
  | error e => exact ⟨taken, others, opened, _, rest, rfl, hsplit, hopens, hresult⟩

end Helper

end PrivateHistogram
