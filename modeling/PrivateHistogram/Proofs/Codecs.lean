import PrivateHistogram.Aggregation.Context
import PrivateHistogram.PeerMessage
import PrivateHistogram.Proofs.Json.Maps

/-! What is stored and sent is read back: payloads of reports, key records, evaluation contexts and the messages between
    helpers. -/

namespace PrivateHistogram

open Json (fields?_record printable_record printable_text)

instance : StoredCodec Goldilocks where
  printable a := .nat a.val

instance : StoredCodec ReportId where
  decode_encode id := by
    change (Codec.decode? (Codec.encode id.bytes)).map ReportId.mk = some id
    rw [LawfulCodec.decode_encode]
    rfl
  printable id := StoredCodec.printable id.bytes

instance : StoredCodec Sealed where
  decode_encode s := by
    have h := fields?_record [("encapsulated_key", .hex s.encapsulatedKey), ("payload", .hex s.payload)] (by simp)
    simp only [List.map_cons, List.map_nil] at h
    change Sealed.decode? (Sealed.encode s) = some s
    simp [Sealed.decode?, Sealed.encode, h]
  printable s := printable_record (by simp [Json.hex, printable_text])

instance : StoredCodec ElGamal.Ciphertext where
  decode_encode c := by
    have h := fields?_record [("c1", .hex c.c1.toBytes), ("c2", .hex c.c2.toBytes)] (by simp)
    refine (congrArg (Option.bind · _) h).trans ?_
    simp
  printable c := printable_record (by simp [Json.hex, printable_text])

instance : StoredCodec Report.Payload where
  decode_encode p := by
    have h := fields?_record [("encrypted_key", Codec.encode p.encryptedKey), ("key_share", .hex p.keyShare),
      ("value_share", Codec.encode p.valueShare)] (by simp)
    refine (congrArg (Option.bind · _) h).trans ?_
    simp
  printable p := printable_record (by simp [Json.hex, printable_text, StoredCodec.printable])

/-! ### Key halves -/

instance : StoredCodec PointFunction.Party where
  decode_encode p := by
    have h : (Json.text p.name).toName? = some p.name := Json.Text.decode?_encode p.name
    refine (congrArg (Option.bind · _) h).trans ?_
    cases p <;> rfl
  printable p := printable_text p.name

instance : StoredCodec BucketShare where
  decode_encode s := by
    have h := fields?_record [("sum", Codec.encode s.sum), ("count", Codec.encode s.count)] (by simp)
    refine (congrArg (Option.bind · _) h).trans ?_
    simp
  printable s := printable_record (by simp [StoredCodec.printable])

instance {V : Type} [Codec V] [StoredCodec V] : StoredCodec (PointFunction.CorrectionWord V) where
  decode_encode w := by
    have h := fields?_record [("seed", Codec.encode w.seed), ("ctrl_left", Codec.encode w.leftControl),
      ("ctrl_right", Codec.encode w.rightControl), ("value", Codec.encode w.value)] (by simp)
    refine (congrArg (Option.bind · _) h).trans ?_
    simp
  printable w := printable_record (by simp [StoredCodec.printable])

instance {V : Type} [Codec V] [StoredCodec V] : StoredCodec (PointFunction.KeyHalf V) where
  decode_encode k := by
    have h := fields?_record [("server_id", Codec.encode k.party), ("hierarchy", Codec.encode k.hierarchy),
      ("seed", Codec.encode k.seed), ("correction_words", Codec.encode k.corrections)] (by simp)
    refine (congrArg (Option.bind · _) h).trans ?_
    simp
  printable k := printable_record (by simp [StoredCodec.printable])

instance : StoredCodec BucketLabel where
  decode_encode l := by
    have h := fields?_record [("bucket_id", Codec.encode l.bucketId), ("aggregation_id", Codec.encode l.aggregationId),
      ("report_id", Codec.encode l.reportId), ("key_share", .hex l.keyShare)] (by simp)
    refine (congrArg (Option.bind · _) h).trans ?_
    simp
  printable l := printable_record (by simp [Json.hex, printable_text, StoredCodec.printable])

/-- A label is an object, so it is told from none. -/
instance : StoredCodec (Option BucketLabel) := Codec.stored_option nofun

instance : StoredCodec KeyRecord where
  decode_encode r := by
    have h := fields?_record [("report_id", Codec.encode r.reportId), ("key", Codec.encode r.key),
      ("label", Codec.encode r.label)] (by simp)
    refine (congrArg (Option.bind · _) h).trans ?_
    simp [Codec.fieldD?, LawfulCodec.decode_encode]
  printable r := printable_record (by simp [StoredCodec.printable])

/-! ### Contexts -/

instance : StoredCodec PointFunction.NodeState where
  decode_encode s := by
    have h := fields?_record [("seed", Codec.encode s.seed), ("ctrl", Codec.encode s.control)] (by simp)
    refine (congrArg (Option.bind · _) h).trans ?_
    simp
  printable s := printable_record (by simp [StoredCodec.printable])

instance : StoredCodec PointFunction.NodeCache where
  decode_encode c := by
    have h := fields?_record [("levels", Codec.encode c.levels)] (by simp)
    refine (congrArg (Option.bind · _) h).trans ?_
    simp
  printable c := printable_record (by simp [StoredCodec.printable])

instance : StoredCodec EvaluationContext where
  decode_encode c := by
    have h := fields?_record [("records", Codec.encode c.records), ("caches", Codec.encode c.caches),
      ("previous_level", Codec.encode c.previousLevel), ("expanded_prefixes", Codec.encode c.expanded)] (by simp)
    refine (congrArg (Option.bind · _) h).trans ?_
    simp [Codec.fieldD?, LawfulCodec.decode_encode]
  printable c := printable_record (by simp [StoredCodec.printable])

/-! ### Messages -/

instance : StoredCodec ExponentiatedKey where
  decode_encode k := by
    have h := fields?_record [("report_id", Codec.encode k.id), ("ciphertext", Codec.encode k.ciphertext)] (by simp)
    refine (congrArg (Option.bind · _) h).trans ?_
    simp
  printable k := printable_record (by simp [StoredCodec.printable])

instance : StoredCodec SealedKey where
  decode_encode k := by
    have h := fields?_record [("report_id", Codec.encode k.reportId), ("ciphertext", Codec.encode k.ciphertext)] (by simp)
    refine (congrArg (Option.bind · _) h).trans ?_
    simp
  printable k := printable_record (by simp [StoredCodec.printable])

namespace PeerMessage

/-- A message with its kind in front is read by its kind. -/
theorem decode?_record (kind : String) (body : Json) :
    Codec.decode? (Json.record [("type", .text kind), ("body", body)]) = ofBody? kind body := by
  have hfields := fields?_record [("type", Json.text kind), ("body", body)] (by simp)
  have hname : (Json.text kind).toName? = some kind := Json.Text.decode?_encode kind
  have hfirst : startsWithKind [(Json.Text.encode "type", .text kind), (Json.Text.encode "body", body)] = true := by
    simp [startsWithKind]
  refine (congrArg (Option.bind · _) hfields).trans ?_
  simp [hfirst, hname]

end PeerMessage

instance : StoredCodec PeerMessage where
  decode_encode m := by
    cases m with
    | exponentiatedKeys keys =>
      refine (PeerMessage.decode?_record _ _).trans ?_
      simp [PeerMessage.ofBody?, LawfulCodec.decode_encode]
    | keyHalves keys =>
      refine (PeerMessage.decode?_record _ _).trans ?_
      simp [PeerMessage.ofBody?, LawfulCodec.decode_encode]
  printable m := by
    cases m <;> exact printable_record (by simp [printable_text, StoredCodec.printable])

theorem PeerMessage.ofBytes_toBytes (m : PeerMessage) : ofBytes (Codec.toBytes m) = .ok m := by
  rw [ofBytes, Codec.ofBytes?_toBytes]

end PrivateHistogram
