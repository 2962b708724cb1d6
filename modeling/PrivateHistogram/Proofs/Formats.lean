import PrivateHistogram.Proofs.Codecs
import PrivateHistogram.Round

/-! The formats in which helpers talk to each other and keep their files. A partial report, what a round starts from and a
    histogram without noise are read back as they were written. So is a message, in whichever order its kind and its
    content stand: content in front of the kind is set aside first, which it can be, since it is nested only a few levels
    deep and holds nothing but texts (`isPlain_list`). -/

namespace PrivateHistogram

open Json (fields?_record printable_record)

/-! ### Reports and inputs -/

instance : StoredCodec PartialReport where
  decode_encode r := by
    have h := fields?_record [("report_id", Codec.encode r.id), ("encrypted_payload", Codec.encode r.payload)] (by simp)
    refine (congrArg (Option.bind · _) h).trans ?_
    simp
  printable r := printable_record (by simp [StoredCodec.printable])

instance : StoredCodec Round.Input where
  decode_encode input := by
    cases input with
    | sealedKeys keys =>
      refine (congrArg (Option.bind · _) (Json.Text.decode?_encode "encrypted_dpf_keys")).trans ?_
      exact congrArg (Option.map Round.Input.sealedKeys) (LawfulCodec.decode_encode keys)
    | context context =>
      refine (congrArg (Option.bind · _) (Json.Text.decode?_encode "evaluation_context")).trans ?_
      exact congrArg (Option.map Round.Input.context) (LawfulCodec.decode_encode context)
  printable input := by
    cases input <;> exact printable_record (by simp [StoredCodec.printable])

/-! ### Histograms -/

namespace PartialHistogram
variable {h : PartialHistogram} (hnone : h.privacy = none)
include hnone

theorem printable_encode : (Codec.encode h).Printable := by
  have hprivacy : (Codec.encode h.privacy).Printable := by
    rw [hnone]
    exact .null
  exact printable_record (by simp [StoredCodec.printable, hprivacy])

theorem decode?_encode : Codec.decode? (Codec.encode h) = some h := by
  have hfields := fields?_record [("prefix_bits", Codec.encode h.bucketBits), ("bit_length", Codec.encode h.bitLength),
    ("buckets", Codec.encode h.buckets), ("labels", Codec.encode h.labels),
    ("segment_boundaries", Codec.encode h.boundaries), ("privacy", Codec.encode h.privacy)] (by simp)
  have hprivacy : Codec.decode? (Codec.encode h.privacy) = some h.privacy := by
    rw [hnone]
    rfl
  refine (congrArg (Option.bind · _) hfields).trans ?_
  simp [Codec.fieldD?, hprivacy]

theorem ofBytes?_toBytes : Codec.ofBytes? (Codec.toBytes h) = some h := by
  rw [Codec.ofBytes?, Codec.toBytes, Json.parse?_print (printable_encode hnone)]
  exact decode?_encode hnone

end PartialHistogram

/-! ### Messages -/

namespace Json
variable {test : Numeral → Bool} {limit : ℕ}

theorem isPlain_text (limit : ℕ) (s : String) : isPlain test limit (text s) = true := by
  cases limit <;> simp [text, isPlain]

theorem isPlain_hex (limit : ℕ) (bytes : Bytes) : isPlain test limit (hex bytes) = true := isPlain_text limit bytes.toHex

/-- A record is nested one level deeper than its fields. -/
theorem isPlain_record {fields : List (String × Json)} (h : ∀ f ∈ fields, isPlain test limit f.2 = true) :
    isPlain test (limit + 1) (record fields) = true := by
  rw [record, isPlain, List.all_map, List.all_eq_true]
  intro f hf
  simp [h f hf]

theorem isPlain_list {α : Type} [Codec α] (h : ∀ a : α, isPlain test limit (Codec.encode a) = true) (list : List α) :
    isPlain test (limit + 1) (Codec.encode list) = true := by
  change (list.map Codec.encode).all (fun j => isPlain test limit j) = true
  rw [List.all_map, List.all_eq_true]
  exact fun a _ => h a

end Json

namespace PeerMessage

/-- Content of identifiers with two texts each can be set aside. -/
theorem isStorable_list {α : Type} [Codec α]
    (h : ∀ a : α, ∃ id first second : String × Bytes, Codec.encode a =
      .record [(id.1, .hex id.2), ("ciphertext", .record [(first.1, .hex first.2), (second.1, .hex second.2)])])
    (list : List α) : isStorable (Codec.encode list) = true := by
  refine Json.isPlain_list (fun a => ?_) list
  obtain ⟨id, first, second, ha⟩ := h a
  have hpair : Json.isPlain (fun n => n.toFloat?.isSome) 124
      (.record [(first.1, .hex first.2), (second.1, .hex second.2)]) = true :=
    Json.isPlain_record (by simp [Json.isPlain_hex])
  rw [ha]
  exact Json.isPlain_record (by simp [Json.isPlain_hex, hpair])

theorem isStorable_exponentiatedKeys (keys : List ExponentiatedKey) : isStorable (Codec.encode keys) = true :=
  isStorable_list (fun _ => ⟨("report_id", _), ("c1", _), ("c2", _), rfl⟩) keys

theorem isStorable_keyHalves (keys : List SealedKey) : isStorable (Codec.encode keys) = true :=
  isStorable_list (fun _ => ⟨("report_id", _), ("encapsulated_key", _), ("payload", _), rfl⟩) keys

/-- A message with its content in front is read by its kind too, if the content can be set aside. -/
theorem decode?_contentFirst (kind : String) {body : Json} (hbody : isStorable body = true) :
    Codec.decode? (Json.record [("body", body), ("type", .text kind)]) = ofBody? kind body := by
  have hfields : (Json.record [("body", body), ("type", .text kind)]).fields? ["type", "body"] =
      some [some (.text kind), some body] := by
    simp [Json.record, Json.fields?, Json.fillField, List.idxOf?, List.findIdx?_cons]
  have hname : (Json.text kind).toName? = some kind := Json.Text.decode?_encode kind
  refine (congrArg (Option.bind · _) hfields).trans ?_
  simp [hbody, hname]

/-- The kind and the content of a message may stand in either order. -/
theorem ofBytes_of_perm (m : PeerMessage) {members members' : List (Bytes × Json)}
    (hmembers : Codec.encode m = .object members) (hperm : members'.Perm members) :
    ofBytes (Json.object members').print = .ok m := by
  obtain ⟨kind, body, hencode, hstorable, hbody⟩ : ∃ (kind : String) (body : Json),
      Codec.encode m = .record [("type", .text kind), ("body", body)] ∧ isStorable body = true ∧
        ofBody? kind body = some m := by
    cases m with
    | exponentiatedKeys keys =>
      exact ⟨"exponentiated_keys", _, rfl, isStorable_exponentiatedKeys keys, by simp [ofBody?, LawfulCodec.decode_encode]⟩
    | keyHalves keys =>
      exact ⟨"dpf_keys", _, rfl, isStorable_keyHalves keys, by simp [ofBody?, LawfulCodec.decode_encode]⟩
  have hprintable : (Json.object members').Printable := by
    have h := StoredCodec.printable m
    rw [hmembers] at h
    cases h with
    | object names values =>
      exact .object (fun x hx => names x (hperm.mem_iff.mp hx)) fun x hx => values x (hperm.mem_iff.mp hx)
  have hread : Codec.decode? (Json.object members') = some m := by
    obtain rfl := Json.object.inj (hmembers.symm.trans hencode)
    rcases List.perm_pair.mp hperm with rfl | rfl
    · exact (decode?_record kind body).trans hbody
    · exact (decode?_contentFirst kind hstorable).trans hbody
  rw [ofBytes, Codec.ofBytes?, Json.parse?_print hprintable, Option.bind_some, hread]

end PeerMessage

/-! ### Reading back -/

/-- All that the helpers send each other and keep in files is read back as it was written, a message also with its kind and
    its content in the other order. So no two messages are written alike. -/
theorem stored_readBack :
    (∀ m : PeerMessage, PeerMessage.ofBytes (Codec.toBytes m) = .ok m ∧
      ∀ members, Codec.encode m = .object members →
        ∀ members', members'.Perm members → PeerMessage.ofBytes (Json.object members').print = .ok m) ∧
    (∀ m m' : PeerMessage, Codec.toBytes m = Codec.toBytes m' → m = m') ∧
    (∀ r : PartialReport, Codec.ofBytes? (Codec.toBytes r) = some r) ∧
    (∀ input : Round.Input, Codec.ofBytes? (Codec.toBytes input) = some input) ∧
    ∀ h : PartialHistogram, h.privacy = none → Codec.ofBytes? (Codec.toBytes h) = some h := by
  refine ⟨fun m => ⟨PeerMessage.ofBytes_toBytes m, fun members hmembers members' hperm => m.ofBytes_of_perm hmembers hperm⟩,
    fun m m' hsame => ?_, Codec.ofBytes?_toBytes, Codec.ofBytes?_toBytes, fun h => PartialHistogram.ofBytes?_toBytes⟩
  have hread := PeerMessage.ofBytes_toBytes m
  rw [hsame, PeerMessage.ofBytes_toBytes] at hread
  exact (Except.ok.inj hread).symm

/-- A message with a half of a key is read with its content in front, a context that keeps a node below a labelled half is
    read back, and so is a histogram of one bucket. -/
theorem stored_readBack_half :
    let id : ReportId := ⟨Octets.zero 16⟩
    let half : SealedKey := ⟨id, ⟨[1], [2, 3]⟩⟩
    let share : BucketShare := ⟨.ofNat 7, 1⟩
    let key : PointFunction.KeyHalf BucketShare :=
      ⟨.second, [1, 3], Octets.zero 16, [⟨Octets.zero 16, true, false, share⟩]⟩
    let record : KeyRecord := ⟨id, key, some ⟨5, Octets.zero 32, id, [4]⟩⟩
    let cache := PointFunction.NodeCache.empty.insert 1 0 ⟨Octets.zero 16, true⟩
    let context : EvaluationContext := ⟨[record], [cache], some 0, #[0, 1]⟩
    let histogram : PartialHistogram := ⟨1, 3, .ofList [((0 : UInt64), share)], ∅, [0], none⟩
    PeerMessage.ofBytes (Json.record [("body", Codec.encode [half]), ("type", .text "dpf_keys")]).print =
        .ok (.keyHalves [half]) ∧
      Codec.ofBytes? (Codec.toBytes (Round.Input.context context)) = some (Round.Input.context context) ∧
      histogram.privacy = none ∧ Codec.ofBytes? (Codec.toBytes histogram) = some histogram := by
  intro id half share key record cache context histogram
  obtain ⟨hmessages, -, -, hinputs, hhistograms⟩ := stored_readBack
  exact ⟨(hmessages (.keyHalves [half])).2 _ rfl _ (.swap _ _ _), hinputs _, rfl, hhistograms histogram rfl⟩

end PrivateHistogram
