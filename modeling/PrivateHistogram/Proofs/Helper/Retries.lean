import PrivateHistogram.Proofs.Helper.Counts
import PrivateHistogram.Proofs.Helper.Tables

/-! Messages that come again. A helper that has taken in reports, or the keys of its peer for them, refuses them the second
    time and does not change (`Settles.again`). A message with key halves is taken in again, and its halves are held once
    more (`repeated_halves_held_twice`): only if none comes twice does a helper hold each half once, and only then are
    reports counted at most once (`halves_of_run`). -/

namespace PrivateHistogram.Helper

variable {S : Suite} {h h' : Helper S}

/-! ### Calls of the join -/

/-- Reports, or keys of the peer for them. -/
def Call.isJoin : Call → Bool
  | .reports _ | .exponentiatedKeys _ => true
  | .keyHalves _ | .round _ => false

/-- What a call of the join leaves behind: its reports are received, or finished. -/
inductive Settles (h : Helper S) : Call → Prop
  | reports {list : List PartialReport} : (∀ r ∈ list, r.id ∈ h.joins) → Settles h (.reports list)
  | exponentiatedKeys {message : Bytes} {ks : List ExponentiatedKey} :
      PeerMessage.ofBytes message = .ok (.exponentiatedKeys ks) →
      (∀ k ∈ ks, ∃ share, h.joins[k.id]? = some (.rekeyed share)) → Settles h (.exponentiatedKeys message)

section Settles
variable {call : Call}

theorem Moves.settles {a : Answer} (hmoves : h.Moves call (.ok a) h') (hcall : call.isJoin = true) : h'.Settles call := by
  cases call with
  | reports list =>
    cases hmoves with
    | await hopens => exact .reports fun r hr => hopens.mem_awaiting.mpr (.inr (List.mem_map_of_mem hr))
  | exponentiatedKeys message =>
    cases hmoves with
    | finish hread hstages =>
      refine .exponentiatedKeys hread fun k hk => ?_
      obtain ⟨f, hf, hk⟩ := exists_of_mem_forall₂ hstages.finishes hk
      exact ⟨f.share, hk.share_id ▸ hstages.getElem?_commit.1 f hf⟩
  | keyHalves | round => cases hcall

theorem Settles.move (hsettles : h.Settles call) {call' : Call} {answer : Except Failure Answer}
    (hmoves : h.Moves call' answer h') : h'.Settles call := by
  cases hsettles with
  | reports hlist => exact .reports fun r hr => hmoves.mem_joins (hlist r hr)
  | exponentiatedKeys hread hks => exact .exponentiatedKeys hread fun k hk => (hks k hk).imp fun _ => hmoves.rekeyed

theorem Settles.again (hsettles : h.Settles call) (tape : RandomTape) : (call.step.run.run h tape).1.2 = h := by
  have hmoves := moves_of_step call h tape
  have hsame {taken : List PartialReport} {opened : List DecryptedReport} (hopens : h.Opens taken opened)
      (htaken : ∀ r ∈ taken, r.id ∈ h.joins) : h.awaiting opened = h := by
    cases taken with
    | nil =>
      cases hopens.decrypt
      exact awaiting_nil
    | cons r taken => exact absurd (htaken r List.mem_cons_self) (hopens.fresh r List.mem_cons_self)
  generalize (call.step.run.run h tape).1.1 = answer at hmoves
  generalize (call.step.run.run h tape).1.2 = h' at hmoves
  cases hsettles with
  | reports hlist =>
    cases hmoves with
    | refuse => rfl
    | awaitSome htaken hopens => exact hsame hopens fun r hr => hlist r (htaken.subset hr)
    | await hopens => exact hsame hopens hlist
  | exponentiatedKeys hread hks =>
    cases hmoves with
    | refuse => rfl
    | finish hread' hstages =>
      cases hread.symm.trans hread'
      rename_i ks _ _
      cases ks with
      | nil => exact hstages.commit_nil
      | cons k ks =>
        obtain ⟨f, -, hf⟩ := exists_of_mem_forall₂ hstages.finishes List.mem_cons_self
        obtain ⟨share, hshare⟩ := hks k List.mem_cons_self
        cases hshare.symm.trans hf.awaited

end Settles

/-! ### Messages that come once -/

/-- No message with key halves has come to a helper twice. -/
def NoRepeats (events : List Event) : Prop :=
  events.Pairwise fun e e' => e.receiver = e'.receiver → e.call.halves ≠ [] → e.call ≠ e'.call

/-- All messages with key halves have come to the helper that they are for. -/
def Delivered (events : List Event) : Prop :=
  ∀ w, ∀ message ∈ sent w events, halvesIn message ≠ [] → ∃ e ∈ events, e.receiver = w.other ∧ e.call = .keyHalves message

theorem countP_le_one {α : Type} {p : α → Bool} {l : List α} (h : l.Pairwise fun a b => p a = true → ¬p b = true) :
    l.countP p ≤ 1 := by
  induction h with
  | nil => exact Nat.zero_le 1
  | @cons a l ha _ ih =>
    rw [List.countP_cons]
    by_cases hp : p a = true
    · rw [if_pos hp, List.countP_eq_zero.mpr fun b hb => ha b hb hp]
    · rwa [if_neg hp]

namespace Run
variable {keys : HelperId → KeyMaterial} {start helpers : HelperId → Helper S} {events : List Event}

theorem settles (hrun : Run start events helpers) {e : Event} (he : e ∈ events) (hcall : e.call.isJoin = true)
    (hok : ∃ a, e.answer = .ok a) : (helpers e.receiver).Settles e.call := by
  induction hrun with
  | start => cases he
  | @call events helpers w _ _ _ _ _ _ _ step ih =>
    rcases List.mem_append.mp he with he | he
    · have hsettles := ih he
      by_cases hw : e.receiver = w
      · rw [hw, Function.update_self]
        exact (hw ▸ hsettles).move (moves_of_run step)
      · rwa [Function.update_of_ne hw]
    · obtain rfl := List.mem_singleton.mp he
      obtain ⟨a, rfl⟩ := hok
      rw [Function.update_self]
      exact (moves_of_run step).settles hcall

variable {d : PointFunction.Domain} {made : HelperId → List Finished} (hrun : Run start events helpers)
  (haccount : ∀ w, Account keys d w events (made w) (helpers w))
include hrun haccount

theorem exists_makerOf {w : HelperId} {s : SealedKey} (hs : s ∈ (helpers w).sealedKeys) :
    ∃ maker, (helpers w).makerOf s = some maker := by
  rw [(haccount w).sealedKeys.mem_iff, List.mem_append] at hs
  rcases hs with hs | hs
  · exact ⟨w, (haccount w).makerOf_own hs⟩
  · exact ⟨w.other, hrun.makerOf_received haccount hs⟩

/-- If no message with halves comes twice, a helper holds no half twice. -/
theorem halfCount_le_one (honce : NoRepeats events) (w maker : HelperId) (id : ReportId) :
    (helpers w).halfCount maker id ≤ 1 := by
  rcases maker.eq_or_eq_other w with rfl | rfl
  · rw [hrun.halfCount_own haccount]
    split <;> decide
  · rw [hrun.halfCount_peer haccount]
    refine countP_le_one (honce.imp_of_mem fun {e e'} he he' hrepeat hhalf hhalf' => ?_)
    obtain ⟨hw, hid⟩ := of_decide_eq_true hhalf
    obtain ⟨hw', hid'⟩ := of_decide_eq_true hhalf'
    have hsame := hw.trans hw'.symm
    refine hrepeat hsame (fun hnone => ?_) (hrun.call_eq haccount he he' hsame hid hid')
    rw [hnone] at hid
    cases hid

/-- If in addition all of them come, both helpers hold their halves of the same keys. -/
theorem matched (honce : NoRepeats events) (hall : Delivered events) (w : HelperId) (id : ReportId) :
    (helpers w.other).halfCount w id = (helpers w).halfCount w id := by
  have hle := hrun.halfCount_le_one haccount honce w.other w.other.other id
  have hpeer := hrun.halfCount_peer haccount w.other id
  rw [hrun.halfCount_own haccount]
  rw [w.other_other] at hle hpeer
  split
  · rename_i hsome
    obtain ⟨share, hshare⟩ := Option.isSome_iff_exists.mp hsome
    obtain ⟨f, hf, rfl, rfl⟩ := (haccount w).shareOf?_eq_some.mp hshare
    obtain ⟨message, hm, hs⟩ := (haccount w).sent_of_made f hf
    obtain ⟨e, he, hw, hcall⟩ := hall w message hm (List.ne_nil_of_mem hs)
    refine Nat.le_antisymm hle ?_
    rw [hpeer]
    refine List.countP_pos_iff.mpr ⟨e, he, decide_eq_true ⟨hw, ?_⟩⟩
    rw [hcall]
    exact List.mem_map.mpr ⟨f.peer, hs, ((haccount w).isMade f hf).peer_id⟩
  · rename_i hnone
    rw [hpeer]
    refine List.countP_eq_zero.mpr fun e he hhalf => hnone ?_
    obtain ⟨hw, hid⟩ := of_decide_eq_true hhalf
    obtain ⟨s, hs, rfl⟩ := List.mem_map.mp hid
    obtain ⟨f, hf, rfl⟩ := hrun.peer_of_received haccount (mem_received.mpr ⟨e, he, hw, hs⟩)
    rw [w.other_other] at hf
    rw [((haccount w).isMade f hf).peer_id, (haccount w).shareOf?_eq_some.mpr ⟨f, hf, rfl, rfl⟩]
    rfl

end Run

/-- Of each report a helper holds one half of the key it has made itself, once it has finished the report, and halves of
    the peer's key as often as a message with one has come. What the helper has accepted in the join changes nothing when
    it comes again. So if no message with key halves comes twice, a helper holds each half once, and if all such messages
    come, rounds of both helpers over all halves give every bucket a count of at most the reports in it. -/
theorem halves_of_run {keys : HelperId → KeyMaterial} {hierarchy : PointFunction.Hierarchy}
    {start helpers : HelperId → Helper S} {events : List Event}
    (hstart : ∀ w, fresh w (keys w) ((keys w.other).publicInfo S) hierarchy = .ok (start w))
    (hopens : ∀ w, S.transport.Opens (keys w).transport) (hrun : Run start events helpers) :
    (∀ w, ∀ s ∈ (helpers w).sealedKeys, ∃ maker, (helpers w).makerOf s = some maker) ∧
    (∀ w id, (helpers w).halfCount w id = if ((helpers w).shareOf? id).isSome then 1 else 0) ∧
    (∀ w id, (helpers w).halfCount w.other id =
      events.countP fun e => e.receiver = w ∧ id ∈ e.call.halves.map SealedKey.reportId) ∧
    (∀ e ∈ events, e.call.isJoin = true → (∃ a, e.answer = .ok a) →
      ∀ tape, (e.call.step.run.run (helpers e.receiver) tape).1.2 = helpers e.receiver) ∧
    (NoRepeats events → (∀ w maker id, (helpers w).halfCount maker id ≤ 1) ∧
      (Delivered events → (∀ w, (helpers w).Covers (helpers w).sealedKeys) →
        (helpers .one).context.bind EvaluationContext.previous = (helpers .two).context.bind EvaluationContext.previous →
        ∀ (p : RoundParams) (tape : HelperId → RandomTape) (g : HelperId → PartialHistogram), p.isNoised = false →
        (∀ w, ((aggregate p).run.run (helpers w) (tape w)).1.1 = .ok (g w)) → ∀ b,
        let reports := (helpers .one).finishedIn (g .one).bucketBits.toNat b
        (Release.bucketResult (g .one) (g .two) b).count ≤ reports.length ∧
          ∀ r, Release.completeResult (g .one) (g .two) b = .ok r → r.count ≤ reports.length)) := by
  obtain ⟨d, made, haccount⟩ := hrun.account hstart hopens
  refine ⟨fun w s hs => hrun.exists_makerOf haccount hs, hrun.halfCount_own haccount, hrun.halfCount_peer haccount,
    fun e he hcall hok tape => (hrun.settles he hcall hok).again tape,
    fun honce => ⟨hrun.halfCount_le_one haccount honce, fun hall hcovers hprevious p tape g hnoise hok b => ?_⟩⟩
  have hle := hrun.count_le haccount (hrun.matched haccount honce hall) hcovers hprevious hnoise hok b
  exact ⟨hle, fun r hr => (Release.count_of_completeResult hr).trans_le hle⟩

/-! ### One report -/

/-- Helpers that have received the halves of one report join it, and the first sends its half of the key. -/
theorem exists_halves_sent (hG : S.group.Lawful) {keys : HelperId → KeyMaterial} {hierarchy : PointFunction.Hierarchy}
    {start : HelperId → Helper S} (hstart : ∀ w, fresh w (keys w) ((keys w.other).publicInfo S) hierarchy = .ok (start w))
    (hopens : ∀ w, S.transport.Opens (keys w).transport) (x : Report.Half S (keys .one) (keys .two))
    (y : Report.Half S (keys .two) (keys .one)) (hid : y.id = x.id) (hkey : y.key = x.key) :
    ∃ (events : List Event) (helpers : HelperId → Helper S) (blinded halves : Bytes), Run start events helpers ∧
      events.map (fun e => (e.receiver, e.call)) =
        [(.one, .reports [x.report]), (.two, .reports [y.report]), (.one, .exponentiatedKeys blinded)] ∧
      halves ∈ sent .one events ∧ x.id ∈ (halvesIn halves).map SealedKey.reportId := by
  let tape : RandomTape := ⟨fun _ => 0, 0, none⟩
  obtain ⟨l, one, _, hone, -, haccepts⟩ := step_report hG (hstart .one) x tape rfl
  obtain ⟨k, two, _, htwo, hk, -⟩ := step_report hG (hstart .two) y tape rfl
  let blinded := Codec.toBytes (PeerMessage.exponentiatedKeys [k])
  let first : Event := ⟨.one, .reports [x.report], .ok (.message (Codec.toBytes (PeerMessage.exponentiatedKeys [l])))⟩
  let second : Event := ⟨.two, .reports [y.report], .ok (.message blinded)⟩
  have hfirst : Run start [first] (Function.update start .one one) := Run.start.call nofun hone
  have hrun : Run start [first, second] (Function.update (Function.update start .one one) .two two) :=
    hfirst.call nofun htwo
  have hsent : blinded ∈ sent .two [first, second] :=
    mem_sent.mpr ⟨second, List.mem_cons_of_mem _ (List.mem_singleton_self _), rfl, rfl⟩
  -- The first helper finishes the report with the key that the second has blinded.
  have hserve : (serve [.reports [x.report]] (start .one) tape).1.2 = one := by
    rw [serve_cons, hone]
    rfl
  subst hserve
  obtain ⟨finished, staged, rest, hstages, hstep⟩ :=
    (haccepts k (hid ▸ hkey ▸ hk)).step (hstart .one) (hopens .one).seals (hopens .two).seals tape
  have hfinished : Run start ([first, second] ++ [⟨.one, .exponentiatedKeys blinded, _⟩]) _ :=
    hrun.call (fun _ hm => Option.some.inj hm ▸ hsent) hstep
  refine ⟨_, _, blinded, _, hfinished, rfl,
    mem_sent.mpr ⟨_, List.mem_append_right _ (List.mem_singleton_self _), rfl, rfl⟩, ?_⟩
  rw [halvesIn_keyHalves, hstages.peer_ids, List.map_singleton, hk.1, hid]
  exact List.mem_singleton_self _

theorem Run.deliver {start helpers : HelperId → Helper S} {events : List Event} (hrun : Run start events helpers)
    {halves : Bytes} (hsent : halves ∈ sent .one events) (hsome : halvesIn halves ≠ []) :
    ∃ helpers', Run start (events ++ [⟨.two, .keyHalves halves, .ok .taken⟩]) helpers' :=
  ⟨_, .call hrun (fun _ hm => Option.some.inj hm ▸ hsent) (step_of_halvesIn hsome (helpers .two) ⟨fun _ => 0, 0, none⟩)⟩

def additiveKeys : HelperId → KeyMaterial
  | .one => .additiveOne
  | .two => .additiveTwo

theorem additiveKeys_opens (w : HelperId) : Suite.additive.transport.Opens (additiveKeys w).transport :=
  Transport.plain_lawful.opens (additiveKeys w).transport.bytes

theorem exists_additive_run :
    let S := Suite.additive
    let x := additiveHalf .additiveOne .additiveTwo
    let y := additiveHalf .additiveTwo .additiveOne
    ∃ start : HelperId → Helper S,
      (∀ w, fresh w (additiveKeys w) ((additiveKeys w.other).publicInfo S) ⟨[1, 3]⟩ = .ok (start w)) ∧
      ∃ (events : List Event) (helpers : HelperId → Helper S) (blinded halves : Bytes), Run start events helpers ∧
        events.map (fun e => (e.receiver, e.call)) =
          [(.one, .reports [x.report]), (.two, .reports [y.report]), (.one, .exponentiatedKeys blinded)] ∧
        halves ∈ sent .one events ∧ x.id ∈ (halvesIn halves).map SealedKey.reportId := by
  intro S x y
  obtain ⟨one, hone, -⟩ := exists_fresh (S := S) .one .additiveOne .additiveTwo .oneThree
  obtain ⟨two, htwo, -⟩ := exists_fresh (S := S) .two .additiveTwo .additiveOne .oneThree
  have hstart : ∀ w, fresh w (additiveKeys w) ((additiveKeys w.other).publicInfo S) ⟨[1, 3]⟩ =
      .ok (match w with | .one => one | .two => two) := by
    intro w
    cases w
    · exact hone
    · exact htwo
  exact ⟨_, hstart, exists_halves_sent KeyGroup.additive_lawful hstart additiveKeys_opens x y rfl rfl⟩

/-- The halves of a report that come to a helper in some calls of the join: none. -/
theorem countP_halves_eq_zero {events : List Event} {calls : List (HelperId × Call)}
    (hevents : events.map (fun e => (e.receiver, e.call)) = calls) (hcalls : ∀ c ∈ calls, c.2.halves = []) (w : HelperId)
    (id : ReportId) : events.countP (fun e => e.receiver = w ∧ id ∈ e.call.halves.map SealedKey.reportId) = 0 := by
  refine List.countP_eq_zero.mpr fun e he hhalf => ?_
  have hnone := hcalls (e.receiver, e.call) (hevents ▸ List.mem_map_of_mem he)
  obtain ⟨-, hid⟩ := of_decide_eq_true hhalf
  rw [hnone] at hid
  cases hid

/-- Two helpers join a report, and the second holds the half that the first sends it. -/
theorem halves_of_run_additive :
    let S := Suite.additive
    let x := additiveHalf .additiveOne .additiveTwo
    ∃ (start helpers : HelperId → Helper S) (events : List Event) (halves : Bytes),
      (∀ w, fresh w (additiveKeys w) ((additiveKeys w.other).publicInfo S) ⟨[1, 3]⟩ = .ok (start w)) ∧
      Run start events helpers ∧ ⟨.two, .keyHalves halves, .ok .taken⟩ ∈ events ∧
      (helpers .two).halfCount .one x.id = 1 := by
  intro S x
  obtain ⟨start, hstart, events, helpers, blinded, halves, hrun, hevents, hsent, hid⟩ := exists_additive_run
  obtain ⟨helpers', hrun'⟩ := hrun.deliver hsent fun hnone => by
    rw [hnone] at hid
    cases hid
  obtain ⟨-, -, hpeer, -⟩ := halves_of_run hstart additiveKeys_opens hrun'
  refine ⟨start, helpers', _, halves, hstart, hrun', List.mem_append_right _ (List.mem_singleton_self _), ?_⟩
  refine (hpeer .two x.id).trans ?_
  rw [List.countP_append, countP_halves_eq_zero hevents (by simp [Call.halves]), List.countP_singleton,
    if_pos (decide_eq_true ⟨rfl, hid⟩)]

/-- The message that the first helper sends comes to the second twice, and the second holds the half in it twice. -/
theorem repeated_halves_held_twice :
    let S := Suite.additive
    let x := additiveHalf .additiveOne .additiveTwo
    let y := additiveHalf .additiveTwo .additiveOne
    ∃ (start helpers : HelperId → Helper S) (events : List Event) (blinded halves : Bytes),
      (∀ w, fresh w (additiveKeys w) ((additiveKeys w.other).publicInfo S) ⟨[1, 3]⟩ = .ok (start w)) ∧
      Run start events helpers ∧
      events.map (fun e => (e.receiver, e.call)) =
        [(.one, .reports [x.report]), (.two, .reports [y.report]), (.one, .exponentiatedKeys blinded),
          (.two, .keyHalves halves), (.two, .keyHalves halves)] ∧
      (helpers .two).halfCount .one x.id = 2 := by
  intro S x y
  obtain ⟨start, hstart, events, helpers, blinded, halves, hrun, hevents, hsent, hid⟩ := exists_additive_run
  have hsome : halvesIn halves ≠ [] := fun hnone => by
    rw [hnone] at hid
    cases hid
  obtain ⟨_, honce⟩ := hrun.deliver hsent hsome
  obtain ⟨helpers', htwice⟩ := honce.deliver (by rw [sent_append]; exact List.mem_append_left _ hsent) hsome
  refine ⟨start, helpers', _, blinded, halves, hstart, htwice, by rw [List.map_append, List.map_append, hevents]; rfl, ?_⟩
  obtain ⟨d, made, haccount⟩ := htwice.account hstart additiveKeys_opens
  refine (htwice.halfCount_peer haccount .two x.id).trans ?_
  rw [List.countP_append, List.countP_append, countP_halves_eq_zero hevents (by simp [Call.halves]), List.countP_singleton,
    if_pos (decide_eq_true ⟨rfl, hid⟩)]

end PrivateHistogram.Helper
