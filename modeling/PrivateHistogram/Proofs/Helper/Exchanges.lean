import PrivateHistogram.Proofs.Helper.Books

/-! Two helpers that talk to each other. Each is called in any order and any number of times, and every message that comes
    to a helper is one that its peer has sent (`Run`). What a helper sends and what comes to it agrees with its books
    (`Run.account`), so the key halves that come are those that the peer has made (`Run.peer_of_received`), and two messages
    with a half of one report are the same message (`Run.call_eq`). -/

namespace PrivateHistogram.Helper

variable {S : Suite}

/-- A call of one of the helpers, with its answer. -/
structure Event where
  receiver : HelperId
  call : Call
  answer : Except Failure Answer

/-- The message of the peer that comes with a call. -/
def Call.message? : Call → Option Bytes
  | .exponentiatedKeys message | .keyHalves message => some message
  | .reports _ | .round _ => none

def Event.isFor (w : HelperId) (e : Event) : Bool := e.receiver = w

/-- The message that an event puts on its way. -/
def Event.message? (e : Event) : Option Bytes :=
  match e.answer with
  | .ok (.message message) => some message
  | _ => none

/-- The messages that a helper has sent. -/
def sent (w : HelperId) (events : List Event) : List Bytes := (events.filter (Event.isFor w)).filterMap Event.message?

/-- The key halves that have come to a helper. -/
def received (w : HelperId) (events : List Event) : List SealedKey :=
  (events.filter (Event.isFor w)).flatMap fun e => e.call.halves

/-- Both helpers after some events. Each message that has come to one of them was sent by the other before. -/
inductive Run (start : HelperId → Helper S) : List Event → (HelperId → Helper S) → Prop
  | start : Run start [] start
  | call {events : List Event} {helpers : HelperId → Helper S} {w : HelperId} {call : Call} {answer : Except Failure Answer}
      {h : Helper S} {tape rest : RandomTape} (before : Run start events helpers)
      (genuine : ∀ message ∈ call.message?, message ∈ sent w.other events)
      (step : call.step.run.run (helpers w) tape = ((answer, h), rest)) :
      Run start (events ++ [⟨w, call, answer⟩]) (Function.update helpers w h)

/-! ### Messages -/

section Events
variable {w v : HelperId} {events : List Event} {e : Event}

theorem sent_append (more : List Event) : sent w (events ++ more) = sent w events ++ sent w more := by
  rw [sent, List.filter_append, List.filterMap_append]
  rfl

theorem received_append (more : List Event) : received w (events ++ more) = received w events ++ received w more := by
  rw [received, List.filter_append, List.flatMap_append]
  rfl

theorem mem_sent {message : Bytes} :
    message ∈ sent w events ↔ ∃ e ∈ events, e.receiver = w ∧ e.answer = .ok (.message message) := by
  have hanswer (e : Event) : e.message? = some message ↔ e.answer = .ok (.message message) := by
    rw [Event.message?]
    rcases e.answer with _ | (_ | _ | _) <;> simp
  simp only [sent, List.mem_filterMap, List.mem_filter, Event.isFor, decide_eq_true_eq, hanswer, and_assoc]

theorem mem_received {s : SealedKey} : s ∈ received w events ↔ ∃ e ∈ events, e.receiver = w ∧ s ∈ e.call.halves := by
  simp only [received, List.mem_flatMap, List.mem_filter, Event.isFor, decide_eq_true_eq, and_assoc]

theorem Call.eq_keyHalves {call : Call} {s : SealedKey} (hs : s ∈ call.halves) :
    ∃ message, call = .keyHalves message ∧ s ∈ halvesIn message := by
  cases call with
  | keyHalves message => exact ⟨message, rfl, hs⟩
  | reports | exponentiatedKeys | round => cases hs

/-- A half of a report comes with a message as often as a message with a half of it comes, if no message has two. -/
theorem countP_received (hnodup : ∀ e ∈ events, (e.call.halves.map SealedKey.reportId).Nodup) (id : ReportId) :
    (received w events).countP (fun s => s.reportId = id) =
      events.countP fun e => e.receiver = w ∧ id ∈ e.call.halves.map SealedKey.reportId := by
  induction events with
  | nil => rfl
  | cons e events ih =>
    obtain ⟨he, hnodup⟩ := List.forall_mem_cons.mp hnodup
    have hcount : e.call.halves.countP (fun s => s.reportId = id) =
        if id ∈ e.call.halves.map SealedKey.reportId then 1 else 0 := by
      rw [← he.count, List.count_eq_countP, List.countP_map]
      exact List.countP_congr fun s _ => by simp
    have hsplit : received w ([e] ++ events) = received w [e] ++ received w events := received_append events
    rw [List.singleton_append] at hsplit
    rw [hsplit, List.countP_append, ih hnodup, List.countP_cons, Nat.add_comm]
    by_cases hw : e.receiver = w
    · have hone : received w [e] = e.call.halves := by simp [received, Event.isFor, hw]
      rw [hone, hcount]
      simp [hw]
    · have hone : received w [e] = [] := by simp [received, Event.isFor, hw]
      rw [hone]
      simp [hw]

end Events

theorem Run.genuine {start helpers : HelperId → Helper S} {events : List Event} (hrun : Run start events helpers)
    {e : Event} (he : e ∈ events) : ∀ message ∈ e.call.message?, message ∈ sent e.receiver.other events := by
  induction hrun with
  | start => cases he
  | call _ genuine _ ih =>
    intro message hmessage
    rw [sent_append]
    rcases List.mem_append.mp he with he | he
    · exact List.mem_append_left _ (ih he message hmessage)
    · obtain rfl := List.mem_singleton.mp he
      exact List.mem_append_left _ (genuine message hmessage)

/-! ### Accounts -/

/-- The books of a helper, and what they say of the messages that it has sent: the key halves in them are those of the keys
    it has made, and each of them is in one message, once. -/
structure Account (keys : HelperId → KeyMaterial) (d : PointFunction.Domain) (w : HelperId) (events : List Event)
    (made : List Finished) (h : Helper S) : Prop extends Books keys d w made (received w events) h where
  peer_of_sent : ∀ message ∈ sent w events, ∀ s ∈ halvesIn message, ∃ f ∈ made, f.peer = s
  sent_of_made : ∀ f ∈ made, ∃ message ∈ sent w events, f.peer ∈ halvesIn message
  nodup_of_sent : ∀ message ∈ sent w events, ((halvesIn message).map SealedKey.reportId).Nodup
  unique : ∀ message ∈ sent w events, ∀ message' ∈ sent w events, ∀ s ∈ halvesIn message, ∀ s' ∈ halvesIn message',
    s.reportId = s'.reportId → message = message'

namespace Account
variable {keys : HelperId → KeyMaterial} {d : PointFunction.Domain} {w : HelperId} {events : List Event}
  {made : List Finished} {h h' : Helper S}

theorem of_fresh {hierarchy : PointFunction.Hierarchy}
    (hstart : fresh w (keys w) ((keys w.other).publicInfo S) hierarchy = .ok h) : Account keys h.domain w [] [] h :=
  ⟨.of_fresh hstart, nofun, nofun, nofun, nofun⟩

variable (haccount : Account keys d w events made h)
include haccount

theorem other {e : Event} (he : e.receiver ≠ w) : Account keys d w (events ++ [e]) made h := by
  have hfilter : [e].filter (Event.isFor w) = [] := by simp [Event.isFor, he]
  have hsent : sent w (events ++ [e]) = sent w events := by rw [sent_append, sent, sent, hfilter]; exact List.append_nil _
  have hreceived : received w (events ++ [e]) = received w events := by
    rw [received_append, received, received, hfilter]
    exact List.append_nil _
  refine ⟨?_, ?_, ?_, ?_, ?_⟩
  · rw [hreceived]
    exact haccount.toBooks
  · rw [hsent]
    exact haccount.peer_of_sent
  · rw [hsent]
    exact haccount.sent_of_made
  · rw [hsent]
    exact haccount.nodup_of_sent
  · rw [hsent]
    exact haccount.unique

theorem move (hopens : ∀ w, S.transport.Opens (keys w).transport) {call : Call} {answer : Except Failure Answer}
    (hmoves : h.Moves call answer h') : ∃ made', Account keys d w (events ++ [⟨w, call, answer⟩]) made' h' := by
  obtain ⟨more, hbooks, hsome, hmessage⟩ := haccount.toBooks.move hopens hmoves
  have hreceived : received w (events ++ [⟨w, call, answer⟩]) = received w events ++ call.halves := by
    rw [received_append]
    simp [received, Event.isFor]
  have hids : (made.map fun f => f.share.id) ++ (more.map fun f => f.share.id) = (made ++ more).map fun f => f.share.id :=
    List.map_append.symm
  obtain ⟨-, hmore, hdisjoint⟩ := List.nodup_append.mp (hids ▸ hbooks.nodup)
  have hpeer_id {f : Finished} (hf : f ∈ made ++ more) : f.peer.reportId = f.share.id := (hbooks.isMade f hf).peer_id
  -- A message is an old one, or the answer of this call, with the halves of the keys just made.
  have hcases {message : Bytes} (hm : message ∈ sent w (events ++ [⟨w, call, answer⟩])) :
      message ∈ sent w events ∨ answer = .ok (.message message) ∧ halvesIn message = more.map Finished.peer := by
    rw [sent_append] at hm
    refine (List.mem_append.mp hm).imp_right fun hm => ?_
    obtain ⟨e, he, -, hanswer⟩ := mem_sent.mp hm
    obtain rfl := List.mem_singleton.mp he
    exact ⟨hanswer, hmessage message hanswer⟩
  have hold {message : Bytes} (hm : message ∈ sent w events) {s s' : SealedKey} (hs : s ∈ halvesIn message)
      (hs' : s' ∈ more.map Finished.peer) : s.reportId ≠ s'.reportId := by
    obtain ⟨f, hf, rfl⟩ := haccount.peer_of_sent message hm s hs
    obtain ⟨g, hg, rfl⟩ := List.mem_map.mp hs'
    rw [hpeer_id (List.mem_append_left _ hf), hpeer_id (List.mem_append_right _ hg)]
    exact hdisjoint _ (List.mem_map_of_mem hf) _ (List.mem_map_of_mem hg)
  refine ⟨made ++ more, ⟨hreceived ▸ hbooks, fun message hm s hs => ?_, fun f hf => ?_, fun message hm => ?_,
    fun message hm message' hm' s hs s' hs' hid => ?_⟩⟩
  · rcases hcases hm with hm | ⟨-, hhalves⟩
    · obtain ⟨f, hf, rfl⟩ := haccount.peer_of_sent message hm s hs
      exact ⟨f, List.mem_append_left _ hf, rfl⟩
    · rw [hhalves] at hs
      obtain ⟨f, hf, rfl⟩ := List.mem_map.mp hs
      exact ⟨f, List.mem_append_right _ hf, rfl⟩
  · rcases List.mem_append.mp hf with hf | hf
    · obtain ⟨message, hm, hs⟩ := haccount.sent_of_made f hf
      exact ⟨message, by rw [sent_append]; exact List.mem_append_left _ hm, hs⟩
    · obtain ⟨message, hanswer⟩ := hsome.resolve_left (List.ne_nil_of_mem hf)
      refine ⟨message, mem_sent.mpr ⟨_, List.mem_append_right _ (List.mem_singleton_self _), rfl, hanswer⟩, ?_⟩
      rw [hmessage message hanswer]
      exact List.mem_map_of_mem hf
  · rcases hcases hm with hm | ⟨-, hhalves⟩
    · exact haccount.nodup_of_sent message hm
    · have hpeers : (more.map Finished.peer).map SealedKey.reportId = more.map fun f => f.share.id := by
        rw [List.map_map]
        exact List.map_congr_left fun f hf => hpeer_id (List.mem_append_right _ hf)
      rwa [hhalves, hpeers]
  · rcases hcases hm with hm | ⟨hanswer, hhalves⟩ <;> rcases hcases hm' with hm' | ⟨hanswer', hhalves'⟩
    · exact haccount.unique message hm message' hm' s hs s' hs' hid
    · exact absurd hid (hold hm hs (hhalves' ▸ hs'))
    · exact absurd hid.symm (hold hm' hs' (hhalves ▸ hs))
    · cases hanswer.symm.trans hanswer'
      rfl

end Account

/-! ### Runs -/

namespace Run
variable {keys : HelperId → KeyMaterial} {hierarchy : PointFunction.Hierarchy} {start helpers : HelperId → Helper S}
  {events : List Event}

theorem exists_domain (hstart : ∀ w, fresh w (keys w) ((keys w.other).publicInfo S) hierarchy = .ok (start w)) :
    ∃ d, ∀ w, (start w).domain = d := by
  obtain ⟨d, hd, -⟩ := bind_eq_ok.mp (hstart .one)
  refine ⟨d, fun w => ?_⟩
  obtain ⟨d', hd', hw⟩ := bind_eq_ok.mp (hstart w)
  cases hd.symm.trans hd'
  exact (congrArg Helper.domain (Except.ok.inj hw)).symm

/-- Whatever happens, both helpers keep account of the keys they have made. -/
theorem account (hrun : Run start events helpers)
    (hstart : ∀ w, fresh w (keys w) ((keys w.other).publicInfo S) hierarchy = .ok (start w))
    (hopens : ∀ w, S.transport.Opens (keys w).transport) :
    ∃ (d : PointFunction.Domain) (made : HelperId → List Finished), ∀ w, Account keys d w events (made w) (helpers w) := by
  obtain ⟨d, hd⟩ := exists_domain hstart
  suffices haccount : ∀ w, ∃ made, Account keys d w events made (helpers w) from
    ⟨d, fun w => (haccount w).choose, fun w => (haccount w).choose_spec⟩
  induction hrun with
  | start => exact fun w => ⟨[], hd w ▸ .of_fresh (hstart w)⟩
  | @call events helpers v _ _ _ _ _ _ _ step ih =>
    intro w
    obtain ⟨made, haccount⟩ := ih w
    by_cases hw : w = v
    · subst hw
      rw [Function.update_self]
      exact haccount.move hopens (moves_of_run step)
    · rw [Function.update_of_ne hw]
      exact ⟨made, haccount.other (Ne.symm hw)⟩

section Accounts
variable {d : PointFunction.Domain} {made : HelperId → List Finished} (hrun : Run start events helpers)
  (haccount : ∀ w, Account keys d w events (made w) (helpers w))
include hrun haccount

theorem peer_of_received {w : HelperId} {s : SealedKey} (hs : s ∈ received w events) : ∃ f ∈ made w.other, f.peer = s := by
  obtain ⟨e, he, rfl, hhalf⟩ := mem_received.mp hs
  obtain ⟨message, hcall, hs⟩ := Call.eq_keyHalves hhalf
  exact (haccount e.receiver.other).peer_of_sent message (hrun.genuine he message (by rw [hcall]; rfl)) s hs

theorem makerOf_received {w : HelperId} {s : SealedKey} (hs : s ∈ received w events) :
    (helpers w).makerOf s = some w.other := by
  obtain ⟨f, hf, rfl⟩ := hrun.peer_of_received haccount hs
  have hkeys : (helpers w).keys = keys w.other.other := by
    rw [(haccount w).keys_eq, w.other_other]
  rw [((haccount w.other).isMade f hf).makerOf_peer hkeys, (haccount w).id_eq]

theorem nodup_halves {e : Event} (he : e ∈ events) : (e.call.halves.map SealedKey.reportId).Nodup := by
  have hsent := hrun.genuine he
  cases hcall : e.call with
  | keyHalves message =>
    rw [hcall] at hsent
    exact (haccount e.receiver.other).nodup_of_sent message (hsent message rfl)
  | reports | exponentiatedKeys | round => exact .nil

/-- Calls that bring one helper halves of one report bring it the same message. -/
theorem call_eq {e e' : Event} (he : e ∈ events) (he' : e' ∈ events) (hsame : e.receiver = e'.receiver) {id : ReportId}
    (hid : id ∈ e.call.halves.map SealedKey.reportId) (hid' : id ∈ e'.call.halves.map SealedKey.reportId) :
    e.call = e'.call := by
  obtain ⟨s, hs, rfl⟩ := List.mem_map.mp hid
  obtain ⟨s', hs', hid'⟩ := List.mem_map.mp hid'
  obtain ⟨message, hcall, hs⟩ := Call.eq_keyHalves hs
  obtain ⟨message', hcall', hs'⟩ := Call.eq_keyHalves hs'
  have hsent := hrun.genuine he message (by rw [hcall]; rfl)
  have hsent' := hrun.genuine he' message' (by rw [hcall']; rfl)
  rw [← hsame] at hsent'
  rw [hcall, hcall', (haccount e.receiver.other).unique message hsent message' hsent' s hs s' hs' hid'.symm]

/-- A helper holds a half made by its peer as often as a message with it has come. -/
theorem halfCount_peer (w : HelperId) (id : ReportId) : (helpers w).halfCount w.other id =
    events.countP fun e => e.receiver = w ∧ id ∈ e.call.halves.map SealedKey.reportId := by
  rw [(haccount w).halfCount_peer (fun _ => hrun.makerOf_received haccount) id]
  exact countP_received (fun _ => hrun.nodup_halves haccount) id

theorem halfCount_own (w : HelperId) (id : ReportId) :
    (helpers w).halfCount w id = if ((helpers w).shareOf? id).isSome then 1 else 0 :=
  (haccount w).halfCount_own (fun _ => hrun.makerOf_received haccount) id

end Accounts

end Run

end PrivateHistogram.Helper
