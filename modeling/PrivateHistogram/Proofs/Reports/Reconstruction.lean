import PrivateHistogram.Proofs.Reports
import PrivateHistogram.Proofs.Suites

/-! What a split conversion is put together from. A half that has been made opens at its owner (`Report.sealHalf_of_ok`),
    also where not everything can be sealed or drawn, and what both halves open to makes up the conversion
    (`Report.split_reconstructs`). -/

namespace PrivateHistogram.Report
variable {S : Suite} {one two : KeyMaterial}

theorem sealHalf_of_ok {owner peer : KeyMaterial} (howner : S.transport.Undoes owner.transport) {id : ReportId}
    {key : S.group.Point} {keyShare : Bytes} {valueShare : ℕ} {half : PartialReport} {tape rest : RandomTape}
    (hrun : sealHalf S id key (owner.publicInfo S) (peer.publicInfo S) keyShare valueShare tape = (.ok half, rest)) :
    IsHalf S owner peer id key keyShare (.ofNat valueShare) half := by
  obtain ⟨encryptedKey, tape₁, hencrypt, hsealing⟩ := Attempt.bind_eq_ok.mp hrun
  obtain ⟨sealed, tape₂, hseal, hresult⟩ := Attempt.bind_eq_ok.mp hsealing
  cases hencrypt
  cases hresult
  exact ⟨rfl, _, decrypt_of_open (howner.openWith (Attempt.adapt_eq_ok.mp hseal))⟩

/-- The halves of a conversion that has been split are of one report, and the shares in them make up the conversion. -/
theorem split_of_ok (hone : S.transport.Undoes one.transport) (htwo : S.transport.Undoes two.transport) {c : Conversion}
    {halves : PartialReport × PartialReport} {tape rest : RandomTape}
    (hrun : split S c (one.publicInfo S) (two.publicInfo S) tape = (.ok halves, rest)) :
    ∃ id key1 key2 value1 value2,
      IsHalf S one two id (S.group.ofBytes c.bucketKey) key1 value1 halves.1 ∧
      IsHalf S two one id (S.group.ofBytes c.bucketKey) key2 value2 halves.2 ∧
      key1.length = key2.length ∧ key1.xor key2 = c.bucketKey ∧ value1 + value2 = .ofNat c.value.toNat := by
  have hvalue : c.value.toNat < Goldilocks.modulus := c.value.toNat_lt.trans (by decide)
  obtain ⟨id, tape₁, -, hrun⟩ := Attempt.bind_eq_ok.mp hrun
  obtain ⟨keys, tape₂, hkeys, hrun⟩ := Attempt.bind_eq_ok.mp hrun
  obtain ⟨values, tape₃, hvalues, hrun⟩ := Attempt.bind_eq_ok.mp hrun
  obtain ⟨half1, tape₄, h1, hrun⟩ := Attempt.bind_eq_ok.mp hrun
  obtain ⟨half2, tape₅, h2, hrun⟩ := Attempt.bind_eq_ok.mp hrun
  cases hrun
  have hkeys := Attempt.adapt_eq_ok.mp hkeys
  obtain ⟨⟨hlength, hkey⟩, ht⟩ := (SecretSharing.splitBytes_yields _).of_ok (SecretSharing.fault_of_splitBytes hkeys) hkeys
  obtain ⟨hsum, -⟩ := (SecretSharing.splitInt_yields hvalue).of_ok ht (Attempt.adapt_eq_ok.mp hvalues)
  exact ⟨id, keys.1, keys.2, _, _, sealHalf_of_ok hone h1, sealHalf_of_ok htwo h2, hlength, hkey, hsum⟩

/-- Whatever is drawn, the halves of a conversion are of one report and open at their owners. The key shares are put
    together to the bucket key and the value shares add up to the value, and the other helper finds the bucket key in the
    group. A conversion can be split where random bytes can be drawn and messages can be sealed to both helpers. -/
theorem split_reconstructs (hG : S.group.Lawful) (hone : S.transport.Undoes one.transport)
    (htwo : S.transport.Undoes two.transport) (c : Conversion) (tape : RandomTape) :
    (∀ half1 half2 rest, split S c (one.publicInfo S) (two.publicInfo S) tape = (.ok (half1, half2), rest) →
      half1.id = half2.id ∧ ∃ report1 report2,
        decrypt S half1 one.transport = .ok report1 ∧ decrypt S half2 two.transport = .ok report2 ∧
        SecretSharing.combineBytes report1.keyShare report2.keyShare = .ok c.bucketKey ∧
        (report1.valueShare + report2.valueShare).val = c.value.toNat ∧
        ElGamal.decrypt S.group two.elGamal report1.encryptedKey = .ok (S.group.ofBytes c.bucketKey) ∧
        ElGamal.decrypt S.group one.elGamal report2.encryptedKey = .ok (S.group.ofBytes c.bucketKey)) ∧
    (tape.fault = none → S.transport.Seals (one.publicInfo S).transport → S.transport.Seals (two.publicInfo S).transport →
      ∃ halves rest, split S c (one.publicInfo S) (two.publicInfo S) tape = (.ok halves, rest)) := by
  constructor
  · intro half1 half2 rest hrun
    obtain ⟨id, key1, key2, value1, value2, ⟨hid1, nonce1, h1⟩, ⟨hid2, nonce2, h2⟩, hlength, hkey, hsum⟩ :=
      split_of_ok hone htwo hrun
    have hvalue : c.value.toNat < Goldilocks.modulus := c.value.toNat_lt.trans (by decide)
    refine ⟨hid1.trans hid2.symm, _, _, h1, h2, ?_, ?_, ?_, ?_⟩
    · rw [SecretSharing.combineBytes, if_pos hlength, hkey]
    · rw [hsum, Goldilocks.val_ofNat, Nat.mod_eq_of_lt hvalue]
    · exact ElGamal.decrypt_encryptWith hG two.elGamal _ nonce1
    · exact ElGamal.decrypt_encryptWith hG one.elGamal _ nonce2
  · intro ht hseals1 hseals2
    obtain ⟨halves, rest, hrun, -⟩ := (split_yields c (hone.opens hseals1) (htwo.opens hseals2)).run ht
    exact ⟨halves, rest, hrun⟩

/-- The greatest value, under a key of two bytes. -/
theorem split_reconstructs_additive :
    let S := Suite.additive
    let one := KeyMaterial.additiveOne
    let two := KeyMaterial.additiveTwo
    ∃ half1 half2 rest report1 report2,
      split S ⟨[7, 9], 65535⟩ (one.publicInfo S) (two.publicInfo S) ⟨fun i => .ofNat i, 0, none⟩ =
        (.ok (half1, half2), rest) ∧
      half1.id = half2.id ∧ decrypt S half1 one.transport = .ok report1 ∧ decrypt S half2 two.transport = .ok report2 ∧
      SecretSharing.combineBytes report1.keyShare report2.keyShare = .ok [7, 9] ∧
      (report1.valueShare + report2.valueShare).val = 65535 ∧
      ElGamal.decrypt S.group two.elGamal report1.encryptedKey = .ok (S.group.ofBytes [7, 9]) ∧
      ElGamal.decrypt S.group one.elGamal report2.encryptedKey = .ok (S.group.ofBytes [7, 9]) := by
  intro S one two
  have hone := Transport.plain_lawful.opens one.transport.bytes
  have htwo := Transport.plain_lawful.opens two.transport.bytes
  obtain ⟨hreconstructs, hsplit⟩ := split_reconstructs (S := S) KeyGroup.additive_lawful hone.undoes htwo.undoes
    ⟨[7, 9], 65535⟩
    ⟨fun i => .ofNat i, 0, none⟩
  obtain ⟨⟨half1, half2⟩, rest, hrun⟩ := hsplit rfl hone.seals htwo.seals
  obtain ⟨hid, report1, report2, hreports⟩ := hreconstructs half1 half2 rest hrun
  exact ⟨half1, half2, rest, report1, report2, hrun, hid, hreports⟩

end PrivateHistogram.Report
