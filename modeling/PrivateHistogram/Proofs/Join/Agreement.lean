import PrivateHistogram.Failure
import PrivateHistogram.Proofs.Join.Identifiers
import PrivateHistogram.Proofs.Reports
import PrivateHistogram.Proofs.Suites

/-! Both helpers find the same aggregation identifier of a report (`together_agrees`). The key that a helper
    sends is still encrypted to its peer, multiplied by the helper's secret (`exponentiate_yields`); the peer
    opens it and multiplies by its own (`rekey_eq`), and the two orders give one element. -/

namespace PrivateHistogram.Join
variable {S : Suite}

/-- The aggregation identifier of a bucket key under the secrets of two helpers. -/
def identifier (S : Suite) (one two : KeyMaterial) (key : S.group.Point) : Octets 32 :=
  aggregationId (S.group.encode (S.group.multiply (one.secret.scalar * two.secret.scalar) key))

/-- What is hashed for the aggregation identifier of a bucket key. -/
def hashed (S : Suite) (one two : KeyMaterial) (key : S.group.Point) : Bytes :=
  aggregationIdTag ++ (S.group.encode (S.group.multiply (one.secret.scalar * two.secret.scalar) key)).toBytes

/-- The identifier is the whole hash. -/
theorem toBytes_identifier (one two : KeyMaterial) (key : S.group.Point) :
    (identifier S one two key).toBytes = Hash.sha3_256 (hashed S one two key) :=
  Bytes.toList_fit (Hash.length_sha3_256 _)

theorem identifier_comm (one two : KeyMaterial) (key : S.group.Point) :
    identifier S two one key = identifier S one two key := by
  rw [identifier, identifier, Scalar.mul_comm]

/-- Different bucket keys have different identifiers, unless the hash collides on them. -/
theorem identifier_injective_of (hG : S.group.Lawful) {one two : KeyMaterial} {key key' : S.group.Point}
    (hash : Hash.sha3_256 (hashed S one two key) = Hash.sha3_256 (hashed S one two key') →
      hashed S one two key = hashed S one two key')
    (h : identifier S one two key = identifier S one two key') : key = key' := by
  have hblinded := hG.encode_injective (aggregationId_injective_of hash h)
  rw [hG.mul_multiply, hG.mul_multiply] at hblinded
  exact hG.multiply_injective two.secret.ne_zero (hG.multiply_injective one.secret.ne_zero hblinded)

/-! ### The two rounds -/

/-- A blinded key of a report, encrypted to the helper that is to finish the join. -/
def IsBlinded (S : Suite) (owner peer : KeyMaterial) (id : ReportId) (key : S.group.Point) (k : ExponentiatedKey) :
    Prop :=
  k.id = id ∧
    ∃ nonce, k.ciphertext =
      ElGamal.encryptWith S.group (owner.publicInfo S).elGamal (peer.secret.apply S.group key) nonce

/-- First round: the report of `own` gives a key that `own` has blinded, for `peer`. -/
theorem exponentiate_yields (hG : S.group.Lawful) (own peer : KeyMaterial) {r : DecryptedReport} {key : S.group.Point}
    {nonce : Scalar} (hr : r.encryptedKey = ElGamal.encryptWith S.group (peer.publicInfo S).elGamal key nonce) :
    TryDraw.Yields (exponentiate S r own.secret (peer.publicInfo S).elGamal) (IsBlinded S peer own r.id key) := by
  refine .bind (.adapt (.of_run fun tape ht => ?_)) fun c hc => .pure ⟨rfl, hc⟩
  rw [hr, ElGamal.exponentiateAndRerandomize_encryptWith hG]
  exact ⟨_, _, rfl, ht, _, rfl⟩

/-- Second round: the key that the peer has blinded gives the aggregation identifier. -/
theorem rekey_eq (hG : S.group.Lawful) {own peer : KeyMaterial} {r : DecryptedReport} {key : S.group.Point}
    {k : ExponentiatedKey} (hk : IsBlinded S own peer r.id key k) :
    rekey S k r own.elGamal own.secret =
      .ok (⟨r.id, identifier S own peer key⟩, ⟨r.id, r.valueShare, r.keyShare⟩) := by
  obtain ⟨hid, nonce, hc⟩ := hk
  have hopen := ElGamal.decrypt_encryptWith hG own.elGamal (peer.secret.apply S.group key) nonce
  rw [rekey, if_neg (not_not_intro hid), hc, KeyMaterial.publicInfo, hopen]
  simp only [Except.mapError, bind, Except.bind, pure, Except.pure, ElGamal.Secret.apply, identifier, hG.mul_multiply]

/-! ### The whole join -/

/-- The join of one conversion by both helpers, from the client's split to the aggregation identifiers. -/
def together (S : Suite) (c : Conversion) (one two : KeyMaterial) :
    TryDraw Failure ((AggregationIdShare × AggregationPayload) × (AggregationIdShare × AggregationPayload)) := do
  let (half1, half2) ← ExceptT.adapt Failure.ofReport (Report.split S c (one.publicInfo S) (two.publicInfo S))
  let report1 ← (Report.decrypt S half1 one.transport).mapError Failure.ofReport
  let report2 ← (Report.decrypt S half2 two.transport).mapError Failure.ofReport
  let key1 ← ExceptT.adapt Failure.ofJoin (exponentiate S report1 one.secret (two.publicInfo S).elGamal)
  let key2 ← ExceptT.adapt Failure.ofJoin (exponentiate S report2 two.secret (one.publicInfo S).elGamal)
  let found1 ← (rekey S key2 report1 one.elGamal one.secret).mapError Failure.ofJoin
  let found2 ← (rekey S key1 report2 two.elGamal two.secret).mapError Failure.ofJoin
  return (found1, found2)

theorem together_yields (hG : S.group.Lawful) (c : Conversion) {one two : KeyMaterial}
    (hone : S.transport.Opens one.transport) (htwo : S.transport.Opens two.transport) :
    TryDraw.Yields (together S c one two) fun found =>
      ∃ id, found.1.1 = ⟨id, identifier S one two (S.group.ofBytes c.bucketKey)⟩ ∧
        found.2.1 = ⟨id, identifier S one two (S.group.ofBytes c.bucketKey)⟩ := by
  refine .bind (.adapt (Report.split_yields c hone htwo)) ?_
  rintro ⟨half1, half2⟩ ⟨id, key1, key2, value1, value2, ⟨-, nonce1, h1⟩, ⟨-, nonce2, h2⟩, -⟩
  refine .mapError_bind h1 (.mapError_bind h2 ?_)
  refine .bind (.adapt (exponentiate_yields hG one two rfl)) fun k1 hk1 => ?_
  refine .bind (.adapt (exponentiate_yields hG two one rfl)) fun k2 hk2 => ?_
  refine .mapError_bind (rekey_eq hG hk2) (.mapError_bind (rekey_eq hG hk1) (.pure ⟨id, rfl, ?_⟩))
  rw [identifier_comm]

/-- The join of a conversion succeeds, and both helpers find the hash of the bucket key blinded with both secrets,
    whatever is drawn. Two conversions have one identifier exactly if their bucket keys are one element of the
    group, unless the hash collides on them. -/
theorem together_agrees (hG : S.group.Lawful) {one two : KeyMaterial} (hone : S.transport.Opens one.transport)
    (htwo : S.transport.Opens two.transport) :
    (∀ (c : Conversion) (tape : RandomTape), tape.fault = none →
      ∃ (share : AggregationIdShare) (payload1 payload2 : AggregationPayload) (rest : RandomTape),
        together S c one two tape = (.ok ((share, payload1), (share, payload2)), rest) ∧
          share.value.toBytes = Hash.sha3_256 (hashed S one two (S.group.ofBytes c.bucketKey)) ∧
          AggregationIdShare.combine share share = .ok (some share.value)) ∧
    (∀ (c c' : Conversion) (tape tape' : RandomTape), tape.fault = none → tape'.fault = none →
      ∀ found found' rest rest',
        together S c one two tape = (.ok found, rest) → together S c' one two tape' = (.ok found', rest') →
        (S.group.ofBytes c.bucketKey = S.group.ofBytes c'.bucketKey → found.1.1.value = found'.1.1.value) ∧
        ((Hash.sha3_256 (hashed S one two (S.group.ofBytes c.bucketKey)) =
            Hash.sha3_256 (hashed S one two (S.group.ofBytes c'.bucketKey)) →
          hashed S one two (S.group.ofBytes c.bucketKey) = hashed S one two (S.group.ofBytes c'.bucketKey)) →
        found.1.1.value = found'.1.1.value → S.group.ofBytes c.bucketKey = S.group.ofBytes c'.bucketKey)) := by
  refine ⟨fun c tape ht => ?_, fun c c' tape tape' ht ht' found found' rest rest' hrun hrun' => ?_⟩
  · obtain ⟨⟨⟨share1, payload1⟩, ⟨share2, payload2⟩⟩, rest, hrun, -, id, h1, h2⟩ :=
      (together_yields hG c hone htwo).run ht
    cases h1
    cases h2
    exact ⟨_, payload1, payload2, rest, hrun, toBytes_identifier one two _, by simp [AggregationIdShare.combine]⟩
  · obtain ⟨_, _, hfound, -, _, hvalue, -⟩ := (together_yields hG c hone htwo).run ht
    obtain ⟨_, _, hfound', -, _, hvalue', -⟩ := (together_yields hG c' hone htwo).run ht'
    rw [hrun] at hfound
    rw [hrun'] at hfound'
    cases hfound
    cases hfound'
    rw [hvalue, hvalue']
    exact ⟨congrArg (identifier S one two), identifier_injective_of hG⟩

/-- Three conversions, of which two have the same bucket key. -/
theorem together_agrees_additive :
    let run (c : Conversion) (byte : UInt8) :=
      together Suite.additive c KeyMaterial.additiveOne KeyMaterial.additiveTwo ⟨fun _ => byte, 0, none⟩
    ∃ seven seven' eight : AggregationIdShare,
      (∃ payload1 payload2 rest, run ⟨[7], 5⟩ 0 = (.ok ((seven, payload1), (seven, payload2)), rest)) ∧
      (∃ payload1 payload2 rest, run ⟨[7], 9⟩ 1 = (.ok ((seven', payload1), (seven', payload2)), rest)) ∧
      (∃ payload1 payload2 rest, run ⟨[8], 5⟩ 2 = (.ok ((eight, payload1), (eight, payload2)), rest)) ∧
      seven.value.toBytes =
        Hash.sha3_256 (hashed Suite.additive KeyMaterial.additiveOne KeyMaterial.additiveTwo (.ofNat 7)) ∧
      AggregationIdShare.combine seven seven = .ok (some seven.value) ∧ seven.value = seven'.value ∧
      seven.value ≠ eight.value := by
  intro run
  have hone := Transport.plain_lawful.opens KeyMaterial.additiveOne.transport.bytes
  have htwo := Transport.plain_lawful.opens KeyMaterial.additiveTwo.transport.bytes
  obtain ⟨hjoin, htold⟩ := together_agrees (S := Suite.additive) KeyGroup.additive_lawful hone htwo
  obtain ⟨seven, _, _, _, hseven, hvalue, hcombine⟩ := hjoin ⟨[7], 5⟩ ⟨fun _ => 0, 0, none⟩ rfl
  obtain ⟨seven', _, _, _, hseven', -⟩ := hjoin ⟨[7], 9⟩ ⟨fun _ => 1, 0, none⟩ rfl
  obtain ⟨eight, _, _, _, height, -⟩ := hjoin ⟨[8], 5⟩ ⟨fun _ => 2, 0, none⟩ rfl
  refine ⟨seven, seven', eight, ⟨_, _, _, hseven⟩, ⟨_, _, _, hseven'⟩, ⟨_, _, _, height⟩, hvalue, hcombine, ?_, fun h => ?_⟩
  · exact (htold _ _ _ _ rfl rfl _ _ _ _ hseven hseven').1 rfl
  · -- The hash does not collide on the two keys.
    have hash : Hash.sha3_256 (hashed Suite.additive KeyMaterial.additiveOne KeyMaterial.additiveTwo (.ofNat 7)) ≠
        Hash.sha3_256 (hashed Suite.additive KeyMaterial.additiveOne KeyMaterial.additiveTwo (.ofNat 8)) := by
      decide +kernel
    have hkeys : Scalar.ofNat 7 ≠ Scalar.ofNat 8 := by decide
    exact hkeys ((htold _ _ _ _ rfl rfl _ _ _ _ hseven height).2 (fun h => absurd h hash) h)

end PrivateHistogram.Join
