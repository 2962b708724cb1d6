import PrivateHistogram.Proofs.Aggregation.Keys
import PrivateHistogram.Proofs.Join.Agreement

/-! Reports on their way to the helpers. A half comes with what its owner will find in it (`Report.Half`), and both
    halves of a conversion that a client has split are kept together with what they make up (`Report.Posted`). -/

namespace PrivateHistogram.Report

/-- A half of a report that its owner can open, with what is in it. -/
structure Half (S : Suite) (own peer : KeyMaterial) where
  report : PartialReport
  id : ReportId
  key : S.group.Point
  keyShare : Bytes
  valueShare : Goldilocks
  isHalf : IsHalf S own peer id key keyShare valueShare report

variable {S : Suite}

namespace Half
variable {own peer : KeyMaterial} (x : Half S own peer)

/-- The aggregation identifier that the owner will find. -/
def share : AggregationIdShare := ⟨x.id, Join.identifier S own peer x.key⟩

def payload : AggregationPayload := ⟨x.id, x.valueShare, x.keyShare⟩

/-- The report as the owner holds it during the join. -/
def IsOpened (r : DecryptedReport) : Prop := r.id = x.id ∧ r.valueShare = x.valueShare ∧ r.keyShare = x.keyShare

theorem report_id : x.report.id = x.id := x.isHalf.1

end Half

/-- A conversion that a client has split for two helpers. -/
structure Posted (S : Suite) (one two : KeyMaterial) where
  conversion : Conversion
  first : Half S one two
  second : Half S two one
  id_eq : second.id = first.id
  key_first : first.key = S.group.ofBytes conversion.bucketKey
  key_second : second.key = S.group.ofBytes conversion.bucketKey
  length_eq : first.keyShare.length = second.keyShare.length
  xor_eq : first.keyShare.xor second.keyShare = conversion.bucketKey
  add_eq : first.valueShare + second.valueShare = .ofNat conversion.value.toNat

namespace Posted
variable {one two : KeyMaterial} (x : Posted S one two)

def halves : PartialReport × PartialReport := (x.first.report, x.second.report)

/-- The report once both helpers have joined it. -/
def joined : JoinedReport where
  id := x.first.id
  aggregationId := Join.identifier S one two (S.group.ofBytes x.conversion.bucketKey)
  valueOne := x.first.valueShare
  valueTwo := x.second.valueShare
  keyOne := x.first.keyShare
  keyTwo := x.second.keyShare

theorem share_first : x.first.share = x.joined.share := by
  rw [Half.share, x.key_first]
  rfl

theorem share_second : x.second.share = x.joined.share := by
  rw [Half.share, x.key_second, x.id_eq, Join.identifier_comm]
  rfl

theorem payload_second : x.second.payload = x.joined.payloadTwo := by
  rw [Half.payload, x.id_eq]
  rfl

theorem value_joined : x.joined.value = .ofInt x.conversion.value.toNat :=
  x.add_eq.trans (Goldilocks.ofInt_natCast _).symm

theorem toInt_value : x.joined.value.toInt = x.conversion.value.toNat := by
  have hlt := x.conversion.value.toNat_lt
  rw [value_joined, Goldilocks.toInt_ofInt]
  rw [abs_of_nonneg (Int.natCast_nonneg _)]
  have hhalf : ((Goldilocks.modulus : ℤ) - 1) / 2 = 9223372034707292160 := by decide
  omega

end Posted

/-- What a client makes of a conversion, with whatever it draws. -/
def IsSplit (S : Suite) (one two : KeyMaterial) (c : Conversion) (halves : PartialReport × PartialReport) : Prop :=
  ∃ tape rest : RandomTape, tape.fault = none ∧
    split S c (one.publicInfo S) (two.publicInfo S) tape = (.ok halves, rest)

theorem posted_of_split {one two : KeyMaterial} (hone : S.transport.Opens one.transport)
    (htwo : S.transport.Opens two.transport) {c : Conversion} {halves : PartialReport × PartialReport}
    (h : IsSplit S one two c halves) : ∃ x : Posted S one two, x.conversion = c ∧ x.halves = halves := by
  obtain ⟨tape, rest, ht, hrun⟩ := h
  obtain ⟨halves', rest', hrun', -, id, key1, key2, value1, value2, h1, h2, hlength, hkey, hvalue⟩ :=
    (split_yields c hone htwo).run ht
  cases hrun.symm.trans hrun'
  exact ⟨⟨c, ⟨_, id, _, key1, value1, h1⟩, ⟨_, id, _, key2, value2, h2⟩, rfl, rfl, rfl, hlength, hkey, hvalue⟩, rfl, rfl⟩

theorem exists_map_of_forall₂ {α β γ : Type} {R : α → β → Prop} {u : γ → α} {v : γ → β}
    (hR : ∀ a b, R a b → ∃ c, u c = a ∧ v c = b) {as : List α} {bs : List β} (h : List.Forall₂ R as bs) :
    ∃ cs : List γ, cs.map u = as ∧ cs.map v = bs := by
  induction h with
  | nil => exact ⟨[], rfl, rfl⟩
  | @cons a b as bs hab _ ih =>
    obtain ⟨c, rfl, rfl⟩ := hR a b hab
    obtain ⟨cs, rfl, rfl⟩ := ih
    exact ⟨c :: cs, rfl, rfl⟩

theorem posted_of_batches {one two : KeyMaterial} (hone : S.transport.Opens one.transport)
    (htwo : S.transport.Opens two.transport) {batches : List (List Conversion)}
    {halves : List (List (PartialReport × PartialReport))}
    (h : List.Forall₂ (List.Forall₂ (IsSplit S one two)) batches halves) :
    ∃ posted : List (List (Posted S one two)), posted.map (List.map Posted.conversion) = batches ∧
      posted.map (List.map Posted.halves) = halves :=
  exists_map_of_forall₂ (fun _ _ hbatch => exists_map_of_forall₂ (fun _ _ => posted_of_split hone htwo) hbatch) h

end PrivateHistogram.Report
