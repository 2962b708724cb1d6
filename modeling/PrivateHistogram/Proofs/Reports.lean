import PrivateHistogram.Proofs.Codecs
import PrivateHistogram.Proofs.Group.ElGamal
import PrivateHistogram.Proofs.Sharing

/-! Splitting a conversion and opening its halves. A half opens at its owner to the bucket key encrypted to the
    peer, a share of the key and a share of the value (`Report.IsHalf`); the shares of both halves make up the
    conversion (`Report.split_yields`). -/

namespace PrivateHistogram

namespace Transport

/-- Sealing to the public key of a private key succeeds, and opening with the private key and the same `info`
    gives the message back. -/
def Opens (T : Transport) (k : PrivateKey) : Prop :=
  ∀ info message ephemeral, ∃ sealed,
    T.sealWith? (T.publicKeyOf k).bytes info message ephemeral = some sealed ∧ T.open? k.bytes info sealed = some message

/-- Sealing to a public key succeeds. -/
def Seals (T : Transport) (k : PublicKey) : Prop :=
  ∀ info message ephemeral, ∃ sealed, T.sealWith? k.bytes info message ephemeral = some sealed

theorem Opens.seals {T : Transport} {k : PrivateKey} (hk : T.Opens k) : T.Seals (T.publicKeyOf k) :=
  fun info message ephemeral => (hk info message ephemeral).imp fun _ => And.left

theorem Seals.sealTo {T : Transport} {k : PublicKey} (hk : T.Seals k) (info message : Bytes) (tape : RandomTape) :
    ∃ sealed rest, T.sealTo k info message tape = (.ok sealed, rest) := by
  obtain ⟨sealed, hseal⟩ := hk info message (tape.octets 32).1
  refine ⟨sealed, (tape.octets 32).2, ?_⟩
  simp only [Transport.sealTo, hseal]

/-- Where sealing to the public key of a private key succeeds, opening with the private key and the same `info` undoes
    it. -/
def Undoes (T : Transport) (k : PrivateKey) : Prop :=
  ∀ info message ephemeral sealed,
    T.sealWith? (T.publicKeyOf k).bytes info message ephemeral = some sealed → T.open? k.bytes info sealed = some message

theorem Opens.undoes {T : Transport} {k : PrivateKey} (hk : T.Opens k) : T.Undoes k := by
  intro info message ephemeral sealed hseal
  obtain ⟨_, hseal', hopen⟩ := hk info message ephemeral
  cases hseal.symm.trans hseal'
  exact hopen

theorem Undoes.opens {T : Transport} {k : PrivateKey} (hk : T.Undoes k) (hseals : T.Seals (T.publicKeyOf k)) : T.Opens k :=
  fun info message ephemeral => (hseals info message ephemeral).imp fun _ hseal => ⟨hseal, hk _ _ _ _ hseal⟩

theorem Undoes.openWith {T : Transport} {k : PrivateKey} (hk : T.Undoes k) {info message : Bytes} {sealed : Sealed}
    {tape rest : RandomTape} (h : T.sealTo (T.publicKeyOf k) info message tape = (.ok sealed, rest)) :
    T.openWith k info sealed = .ok message := by
  rw [sealTo] at h
  cases hseal : T.sealWith? (T.publicKeyOf k).bytes info message (tape.octets 32).1 with
  | none =>
    simp only [hseal] at h
    cases h
  | some sealed' =>
    simp only [hseal] at h
    cases h
    rw [Transport.openWith, hk _ _ _ _ hseal]

theorem Lawful.opens {T : Transport} (hT : T.Lawful) (random : Octets 32) : T.Opens ⟨T.derive random⟩ :=
  hT.open_seal random

theorem sealTo_yields {T : Transport} {k : PrivateKey} (hk : T.Opens k) (info message : Bytes) :
    TryDraw.Yields (T.sealTo (T.publicKeyOf k) info message) fun sealed => T.openWith k info sealed = .ok message := by
  refine TryDraw.Yields.of_run fun tape ht => ?_
  obtain ⟨sealed, hseal, hopen⟩ := hk info message (tape.octets 32).1
  have hrun : T.sealTo (T.publicKeyOf k) info message tape = (.ok sealed, (tape.octets 32).2) := by
    simp only [sealTo, hseal]
  exact ⟨sealed, (tape.octets 32).2, hrun, ht, hk.undoes.openWith hrun⟩

end Transport

namespace Report
variable {S : Suite}

/-- A half of a report that its owner can open. -/
def IsHalf (S : Suite) (owner peer : KeyMaterial) (id : ReportId) (key : S.group.Point) (keyShare : Bytes)
    (valueShare : Goldilocks) (half : PartialReport) : Prop :=
  half.id = id ∧ ∃ nonce, decrypt S half owner.transport =
    .ok { encryptedKey := ElGamal.encryptWith S.group (peer.publicInfo S).elGamal key nonce, keyShare, valueShare, id }

theorem decrypt_of_open {half : PartialReport} {k : Transport.PrivateKey} {payload : Payload}
    (h : S.transport.openWith k (info half.id) half.payload = .ok (Codec.toBytes payload)) :
    decrypt S half k = .ok { payload with id := half.id } := by
  simp only [decrypt, h, Except.mapError, bind, Except.bind, Codec.ofBytes?_toBytes]
  rfl

theorem sealHalf_yields {owner : KeyMaterial} (howner : S.transport.Opens owner.transport) (peer : KeyMaterial)
    (id : ReportId) (key : S.group.Point) (keyShare : Bytes) (valueShare : ℕ) :
    TryDraw.Yields (sealHalf S id key (owner.publicInfo S) (peer.publicInfo S) keyShare valueShare)
      (IsHalf S owner peer id key keyShare (.ofNat valueShare)) := by
  refine .bind (.lift (P := fun c => ∃ nonce, c = ElGamal.encryptWith S.group (peer.publicInfo S).elGamal key nonce)
    fun tape ht => ⟨⟨_, rfl⟩, ht⟩) ?_
  rintro _ ⟨nonce, rfl⟩
  refine .bind (.adapt (Transport.sealTo_yields howner _ _)) fun sealed hsealed => .pure ⟨rfl, nonce, ?_⟩
  exact decrypt_of_open hsealed

/-- The split of a conversion whose report has been given an identifier. -/
def splitAs (S : Suite) (c : Conversion) (one two : PublicInfo S) (id : ReportId) :
    TryDraw Error (PartialReport × PartialReport) := do
  let key := S.group.ofBytes c.bucketKey
  let (key1, key2) ← ExceptT.adapt Error.secretShare (SecretSharing.splitBytes c.bucketKey)
  let (value1, value2) ← ExceptT.adapt Error.secretShare (SecretSharing.splitInt c.value.toNat Goldilocks.modulus)
  let half1 ← sealHalf S id key one two key1 value1
  let half2 ← sealHalf S id key two one key2 value2
  return (half1, half2)

theorem split_eq (c : Conversion) (one two : PublicInfo S) (tape : RandomTape) :
    split S c one two tape = splitAs S c one two (ReportId.draw tape).1 (ReportId.draw tape).2 := rfl

/-- Splitting succeeds, both halves are of one report, and the shares in them make up the conversion. -/
theorem splitAs_yields (c : Conversion) {one two : KeyMaterial} (hone : S.transport.Opens one.transport)
    (htwo : S.transport.Opens two.transport) (id : ReportId) :
    TryDraw.Yields (splitAs S c (one.publicInfo S) (two.publicInfo S) id) fun halves =>
      ∃ key1 key2 value1 value2,
        IsHalf S one two id (S.group.ofBytes c.bucketKey) key1 value1 halves.1 ∧
        IsHalf S two one id (S.group.ofBytes c.bucketKey) key2 value2 halves.2 ∧
        key1.length = key2.length ∧ key1.xor key2 = c.bucketKey ∧ value1 + value2 = .ofNat c.value.toNat := by
  refine .bind (.adapt (SecretSharing.splitBytes_yields c.bucketKey)) fun (key1, key2) ⟨hlength, hkey⟩ => ?_
  have hvalue : c.value.toNat < Goldilocks.modulus := c.value.toNat_lt.trans (by decide)
  refine .bind (.adapt (SecretSharing.splitInt_yields hvalue)) fun (value1, value2) hvalues => ?_
  refine .bind (sealHalf_yields hone two id _ key1 value1) fun half1 h1 => ?_
  refine .bind (sealHalf_yields htwo one id _ key2 value2) fun half2 h2 => .pure ?_
  exact ⟨key1, key2, .ofNat value1, .ofNat value2, h1, h2, hlength, hkey, hvalues⟩

theorem split_yields (c : Conversion) {one two : KeyMaterial} (hone : S.transport.Opens one.transport)
    (htwo : S.transport.Opens two.transport) :
    TryDraw.Yields (split S c (one.publicInfo S) (two.publicInfo S)) fun halves =>
      ∃ id key1 key2 value1 value2,
        IsHalf S one two id (S.group.ofBytes c.bucketKey) key1 value1 halves.1 ∧
        IsHalf S two one id (S.group.ofBytes c.bucketKey) key2 value2 halves.2 ∧
        key1.length = key2.length ∧ key1.xor key2 = c.bucketKey ∧ value1 + value2 = .ofNat c.value.toNat :=
  .bind (.lift (P := fun _ => True) fun _ ht => ⟨trivial, ht⟩) fun id _ =>
    .mono (splitAs_yields c hone htwo id) fun _ h => ⟨id, h⟩

/-- Both halves are of the report that the split draws first. -/
theorem id_of_split {c : Conversion} {one two : KeyMaterial} (hone : S.transport.Opens one.transport)
    (htwo : S.transport.Opens two.transport) {halves : PartialReport × PartialReport} {tape rest : RandomTape}
    (ht : tape.fault = none) (h : split S c (one.publicInfo S) (two.publicInfo S) tape = (.ok halves, rest)) :
    halves.1.id = (ReportId.draw tape).1 ∧ halves.2.id = (ReportId.draw tape).1 := by
  have hrest : (ReportId.draw tape).2.fault = none := ht
  obtain ⟨halves', rest', hrun, -, _, _, _, _, h1, h2, -⟩ := (splitAs_yields c hone htwo (ReportId.draw tape).1).run hrest
  rw [split_eq, hrun] at h
  cases h
  exact ⟨h1.1, h2.1⟩

end Report

end PrivateHistogram
