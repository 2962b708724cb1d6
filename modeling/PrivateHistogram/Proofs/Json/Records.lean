import PrivateHistogram.Proofs.Json.Printing

/-! Codecs that read back what they have written, as bytes (`ofBytes?_toBytes`). A record finds its fields again
    (`fields?_record`), so its codec is lawful if those of its fields are. -/

namespace PrivateHistogram

namespace Json

theorem printable_text (s : String) : (text s).Printable := .string (Text.quotable_encode s)

@[simp] theorem toText?_text (s : String) : (text s).toText? = some s := Text.decode?_encode s

@[simp] theorem toHex?_hex (bytes : Bytes) : (hex bytes).toHex? = some bytes := by
  simp [toHex?, hex]

@[simp] theorem toOctets?_hex {n : Nat} (o : Octets n) : (hex o.toBytes).toOctets? n = some o := by
  simp [toOctets?, hex, Octets.ofHex?]

theorem printable_record {fields : List (String × Json)} (h : ∀ f ∈ fields, f.2.Printable) :
    (record fields).Printable := by
  refine .object (fun m hm => ?_) fun m hm => ?_
  · obtain ⟨f, -, rfl⟩ := List.mem_map.mp hm
    exact Text.quotable_encode f.1
  · obtain ⟨f, hf, rfl⟩ := List.mem_map.mp hm
    exact h f hf

/-- Members are taken in one by one, each in the place of its name. -/
theorem foldlM_fillField (seen rest : List (String × Json)) (hn : ((seen ++ rest).map Prod.fst).Nodup) :
    (rest.map fun f => (Text.encode f.1, f.2)).foldlM (fillField ((seen ++ rest).map Prod.fst))
      (seen.map (fun f => some f.2) ++ rest.map fun _ => none) = some ((seen ++ rest).map fun f => some f.2) := by
  induction rest generalizing seen with
  | nil => simp
  | cons f rest ih =>
    have hidx : ((seen ++ f :: rest).map Prod.fst).idxOf? f.1 = some seen.length := by
      rw [List.map_append, List.nodup_append] at hn
      have hnot : ∀ x ∈ seen, x.1 ≠ f.1 := fun x hx =>
        hn.2.2 x.1 (List.mem_map_of_mem hx) f.1 (List.mem_map_of_mem List.mem_cons_self)
      have hnone : (seen.map Prod.fst).findIdx? (· == f.1) = none := by
        simpa [List.findIdx?_eq_none_iff] using hnot
      rw [List.idxOf?, List.map_append, List.findIdx?_append, hnone]
      simp [List.findIdx?_cons]
    have hget : (seen.map (fun f => some f.2) ++ (f :: rest).map fun _ => (none : Option Json)).getD seen.length none =
        none := by
      simp
    have hset : (seen.map (fun f => some f.2) ++ (f :: rest).map fun _ => (none : Option Json)).set seen.length (some f.2) =
        (seen ++ [f]).map (fun f => some f.2) ++ rest.map fun _ => none := by
      simp
    have hfill : fillField ((seen ++ f :: rest).map Prod.fst)
        (seen.map (fun f => some f.2) ++ (f :: rest).map fun _ => none) (Text.encode f.1, f.2) =
          some ((seen ++ [f]).map (fun f => some f.2) ++ rest.map fun _ => none) := by
      simp only [fillField, Text.decode?_encode, Option.bind_eq_bind, Option.bind_some, hidx, hget, hset]
      rfl
    have happend : seen ++ f :: rest = seen ++ [f] ++ rest := by simp
    rw [List.map_cons (f := fun f : String × Json => (Text.encode f.1, f.2)), List.foldlM_cons, hfill]
    rw [happend] at hn ⊢
    exact ih (seen ++ [f]) hn

theorem fields?_record (fields : List (String × Json)) (hn : (fields.map Prod.fst).Nodup) :
    (record fields).fields? (fields.map Prod.fst) = some (fields.map fun f => some f.2) := by
  change (fields.map fun f => (Text.encode f.1, f.2)).foldlM (fillField (fields.map Prod.fst))
    ((fields.map Prod.fst).map fun _ => none) = _
  rw [List.map_map]
  exact foldlM_fillField [] fields hn

end Json

/-- A codec whose bytes are read back. -/
class StoredCodec (α : Type) [Codec α] : Prop extends LawfulCodec α where
  printable : ∀ a : α, (Codec.encode a).Printable

namespace Codec

variable {α : Type} [Codec α]

/-- Reading the bytes of a value gives the value. -/
@[simp] theorem ofBytes?_toBytes [StoredCodec α] (a : α) : ofBytes? (toBytes a) = some a := by
  rw [ofBytes?, toBytes, Json.parse?_print (StoredCodec.printable a)]
  exact LawfulCodec.decode_encode a

@[simp] theorem field?_encode [LawfulCodec α] (a : α) : field? (some (encode a)) = some a := LawfulCodec.decode_encode a

@[simp] theorem toNat?_nat (n : Nat) : (Json.nat n).toNat? = some n := rfl

instance : StoredCodec UInt64 where
  decode_encode n := by
    simp [decode?, encode, n.toNat_lt_size]
  printable n := .nat n.toNat

instance : StoredCodec UInt32 where
  decode_encode n := by
    simp [decode?, encode, n.toNat_lt_size]
  printable n := .nat n.toNat

instance : StoredCodec Bool where
  decode_encode _ := rfl
  printable b := .bool b

instance {n : Nat} : StoredCodec (Octets n) where
  decode_encode o := Json.toOctets?_hex o
  printable _ := Json.printable_text _

theorem mapM_encode [LawfulCodec α] (list : List α) : (list.map encode).mapM decode? = some list := by
  induction list with
  | nil => rfl
  | cons a list ih => simp [List.mapM_cons, LawfulCodec.decode_encode a, ih]

theorem printable_items [StoredCodec α] (list : List α) : (Json.array (list.map encode)).Printable := .array fun j hj => by
  obtain ⟨a, -, rfl⟩ := List.mem_map.mp hj
  exact StoredCodec.printable a

instance [StoredCodec α] : StoredCodec (List α) where
  decode_encode := mapM_encode
  printable := printable_items

instance [StoredCodec α] : StoredCodec (Array α) where
  decode_encode array := (congrArg (Option.bind · fun list => some list.toArray) (mapM_encode array.toList) :)
  printable array := printable_items array.toList

end Codec

end PrivateHistogram
