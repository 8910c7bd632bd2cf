import SystemsExperiments.Model.Lz4Analyze.Analysis
import Mathlib.Data.Nat.Bitwise

/-! # The blocks of a frame

What the format says a frame is, and that the loop walks over its blocks. -/

namespace SystemsExperiments.Lz4Analyze

open Bytes

/-! ## Frames -/

structure Block where
  data : List UInt8
  stored : Bool
  checksum : UInt32
  data_ne_nil : data ≠ []
  length_lt : data.length < 2 ^ 31

/-- The descriptor and the blocks; `bd` and `hc` are the bytes behind the flags and at the end
of the header. -/
structure Frame where
  blockIndependence : Bool
  blockChecksum : Bool
  contentSize : Option UInt64
  dictId : Option UInt32
  contentChecksum : Option UInt32
  bd : UInt8
  hc : UInt8
  blocks : List Block

/-- The size word has its highest bit set if the block is stored as it is. -/
def Block.word (block : Block) : ℕ := block.data.length + if block.stored then 2 ^ 31 else 0

def Block.encode (checksums : Bool) (block : Block) : List UInt8 :=
  toLE 4 block.word ++ block.data ++ if checksums then toLE 4 block.checksum.toNat else []

namespace Frame

def flag (present : Bool) (bit : UInt8) : UInt8 := if present then bit else 0

def flg (frame : Frame) : UInt8 :=
  0x40 ||| flag frame.blockIndependence 0x20 ||| flag frame.blockChecksum 0x10 |||
    flag frame.contentSize.isSome 0x08 ||| flag frame.contentChecksum.isSome 0x04 |||
    flag frame.dictId.isSome 0x01

def header (frame : Frame) : List UInt8 :=
  magicNumber ++ [frame.flg, frame.bd] ++
    (frame.contentSize.elim [] fun size => toLE 8 size.toNat) ++
    (frame.dictId.elim [] fun dictId => toLE 4 dictId.toNat) ++ [frame.hc]

def encode (frame : Frame) : List UInt8 :=
  frame.header ++ frame.blocks.flatMap (Block.encode frame.blockChecksum) ++ toLE 4 0 ++
    frame.contentChecksum.elim [] fun checksum => toLE 4 checksum.toNat

/-- Where the block with this number is, or the end mark behind the last one. -/
def blockOffset (frame : Frame) (i : ℕ) : ℕ :=
  (frame.header ++ (frame.blocks.take i).flatMap (Block.encode frame.blockChecksum)).length

end Frame

/-- What should be printed of a block. -/
def Block.chunk (frameInfo : FrameInfo) (index offset : ℕ) (block : Block) : Chunk where
  index := index
  offset := offset
  size := block.data.length
  isUncompressed := block.stored
  dataSample := block.data.take 16
  truncated := decide (16 < block.data.length)
  maxUncompressedSize := maxChunkSize (some frameInfo) block.stored
  checksum := if frameInfo.blockChecksum then some block.checksum.toNat else none

/-! ## Reading -/

theorem readAt_append {front : List UInt8} {offset : ℕ} (h : offset = front.length)
    (back : List UInt8) (n : ℕ) : readAt (front ++ back) offset n = back.take n := by
  rw [readAt, h, List.drop_left]

theorem take_append_of_length {front : List UInt8} {n : ℕ} (h : front.length = n)
    (back : List UInt8) : (front ++ back).take n = front := by
  rw [← h, List.take_left]

/-! ## The header -/

theorem flg_contentSize (frame : Frame) :
    ((frame.flg >>> 3) &&& 1 ≠ 0) ↔ frame.contentSize.isSome = true := by
  rw [Frame.flg]
  cases frame.blockIndependence <;> cases frame.blockChecksum <;>
    cases frame.contentSize.isSome <;> cases frame.contentChecksum.isSome <;>
    cases frame.dictId.isSome <;> decide

theorem flg_dictId (frame : Frame) :
    ((frame.flg >>> 0) &&& 1 ≠ 0) ↔ frame.dictId.isSome = true := by
  rw [Frame.flg]
  cases frame.blockIndependence <;> cases frame.blockChecksum <;>
    cases frame.contentSize.isSome <;> cases frame.contentChecksum.isSome <;>
    cases frame.dictId.isSome <;> decide

theorem firstOffset_header (frame : Frame) (back : List UInt8) :
    firstOffset (frame.header ++ back) = frame.header.length := by
  have hmagic : readAt (frame.header ++ back) 0 4 = magicNumber := rfl
  have hflg : readAt (frame.header ++ back) 4 1 = [frame.flg] := rfl
  rw [firstOffset, if_pos hmagic, headerSize, hflg]
  simp only [flg_contentSize, flg_dictId, Frame.header, magicNumber]
  cases frame.contentSize with
  | none =>
      cases frame.dictId with
      | none => simp
      | some dictId => simp
  | some size =>
      cases frame.dictId with
      | none => simp
      | some dictId => simp

/-! ## The size word -/

theorem word_lt (block : Block) : block.word < 256 ^ 4 := by
  have hlt := block.length_lt
  rw [Block.word]
  split
  · omega
  · omega

theorem chunkSize_word (block : Block) : chunkSize block.word = block.data.length := by
  have hlt := block.length_lt
  have hmod : chunkSize block.word = block.word % 2 ^ 31 := Nat.and_two_pow_sub_one_eq_mod _ 31
  rw [hmod, Block.word]
  split
  · rw [Nat.add_mod_right, Nat.mod_eq_of_lt hlt]
  · exact Nat.mod_eq_of_lt hlt

theorem isUncompressed_word (block : Block) : isUncompressed block.word = block.stored := by
  have hlt := block.length_lt
  have hand : block.word &&& 0x80000000 = (block.word.testBit 31).toNat * 2 ^ 31 :=
    Nat.and_two_pow _ 31
  have hbit : block.word.testBit 31 = block.stored := by
    rw [Nat.testBit_eq_decide_div_mod_eq, Block.word]
    cases block.stored with
    | true => simp; omega
    | false => simp; omega
  rw [isUncompressed, hand, hbit]
  cases block.stored with
  | true => decide
  | false => decide

theorem length_encode (checksums : Bool) (block : Block) :
    (block.encode checksums).length =
      4 + block.data.length + if checksums then 4 else 0 := by
  cases checksums with
  | true => simp [Block.encode, Nat.add_assoc]
  | false => simp [Block.encode]

/-! ## The loop -/

/-- One round, at the beginning of a block. -/
theorem chunkLoop_block (frameInfo : FrameInfo) (index : ℕ) (front : List UInt8) (block : Block)
    (back : List UInt8) :
    chunkLoop (front ++ (block.encode frameInfo.blockChecksum ++ back)) (some frameInfo) index
        front.length =
      let others := chunkLoop (front ++ (block.encode frameInfo.blockChecksum ++ back))
        (some frameInfo) (index + 1) (front ++ block.encode frameInfo.blockChecksum).length
      (block.chunk frameInfo index front.length :: others.1, others.2) := by
  have hencode := length_encode frameInfo.blockChecksum block
  generalize hdata : front ++ (block.encode frameInfo.blockChecksum ++ back) = data
  have hlen : data.length = front.length + (block.encode frameInfo.blockChecksum).length +
      back.length := by
    rw [← hdata, List.length_append, List.length_append, Nat.add_assoc]
  have hpos : block.data.length ≠ 0 := fun h => block.data_ne_nil (List.eq_nil_of_length_eq_zero h)
  have hsize : readAt data front.length 4 = toLE 4 block.word := by
    rw [← hdata, Block.encode, List.append_assoc, List.append_assoc, readAt_append rfl,
      take_append_of_length (length_toLE 4 _)]
  have hchunk : readAt data (front.length + 4) block.data.length = block.data := by
    rw [← hdata, Block.encode, List.append_assoc, List.append_assoc, ← List.append_assoc front,
      readAt_append (by simp), take_append_of_length rfl]
  have hword : ofLE (toLE 4 block.word) = block.word := ofLE_toLE_of_lt (word_lt block)
  rw [chunkLoop, dif_pos (by omega)]
  simp only [hsize, length_toLE, hword, chunkSize_word, isUncompressed_word, hchunk, lt_irrefl,
    if_false, if_neg hpos, Option.any_some]
  cases hinfo : frameInfo.blockChecksum with
  | true =>
      rw [hinfo] at hencode hlen
      have hchecksum : readAt data (front.length + 4 + block.data.length) 4 =
          toLE 4 block.checksum.toNat := by
        rw [← hdata, Block.encode, hinfo, if_pos rfl, List.append_assoc, ← List.append_assoc front,
          readAt_append (by simp [Nat.add_assoc]), take_append_of_length (length_toLE 4 _)]
      have hroom : front.length + 4 + block.data.length + 4 ≤ data.length := by
        rw [if_pos rfl] at hencode
        omega
      have hnext : (front ++ block.encode true).length =
          front.length + 4 + block.data.length + 4 := by
        rw [List.length_append, hencode]
        simp [Nat.add_assoc]
      have hvalue : ofLE (toLE 4 block.checksum.toNat) = block.checksum.toNat :=
        ofLE_toLE_of_lt block.checksum.toNat_lt
      simp [hroom, hchecksum, hvalue, hnext, Block.chunk, hinfo]
  | false =>
      rw [hinfo] at hencode
      have hnext : (front ++ block.encode false).length =
          front.length + 4 + block.data.length := by
        rw [List.length_append, hencode]
        simp [Nat.add_assoc]
      simp [hnext, Block.chunk, hinfo]

theorem chunkLoop_endMark (frameInfo : Option FrameInfo) (index : ℕ) (front back : List UInt8) :
    chunkLoop (front ++ (toLE 4 0 ++ back)) frameInfo index front.length =
      ([], .endMark index front.length) := by
  have hsize : readAt (front ++ (toLE 4 0 ++ back)) front.length 4 = toLE 4 0 := by
    rw [readAt_append rfl, take_append_of_length (length_toLE 4 0)]
  rw [chunkLoop, dif_pos (by simp), hsize]
  rfl

theorem chunkLoop_blocks (frameInfo : FrameInfo) (index : ℕ) (front : List UInt8)
    (blocks : List Block) (back : List UInt8) :
    chunkLoop (front ++ (blocks.flatMap (Block.encode frameInfo.blockChecksum) ++
        (toLE 4 0 ++ back))) (some frameInfo) index front.length =
      (blocks.mapIdx fun i block => block.chunk frameInfo (index + i) (front ++
          (blocks.take i).flatMap (Block.encode frameInfo.blockChecksum)).length,
        .endMark (index + blocks.length)
          (front ++ blocks.flatMap (Block.encode frameInfo.blockChecksum)).length) := by
  induction blocks generalizing index front with
  | nil => simpa using chunkLoop_endMark (some frameInfo) index front back
  | cons block blocks ih =>
      have hrest := ih (index + 1) (front ++ block.encode frameInfo.blockChecksum)
      rw [List.append_assoc] at hrest
      rw [List.flatMap_cons, List.append_assoc, chunkLoop_block, hrest]
      simp [List.mapIdx_cons, Nat.add_assoc, Nat.add_comm 1]

/-- The loop finds the blocks of a frame, all of them and nothing else. -/
theorem analyzeLz4File_frame (frame : Frame) (getFrameInfo : List UInt8 → Option FrameInfo)
    (frameInfo : FrameInfo) (hinfo : getFrameInfo frame.encode = some frameInfo)
    (hchecksum : frameInfo.blockChecksum = frame.blockChecksum) :
    (analyzeLz4File getFrameInfo frame.encode).chunks =
        (frame.blocks.mapIdx fun i block => block.chunk frameInfo i (frame.blockOffset i)) ∧
      (analyzeLz4File getFrameInfo frame.encode).stop =
        .endMark frame.blocks.length (frame.blockOffset frame.blocks.length) := by
  have hloop := chunkLoop_blocks frameInfo 0 frame.header frame.blocks
    (frame.contentChecksum.elim [] fun checksum => toLE 4 checksum.toNat)
  have hdata : frame.encode = frame.header ++
      (frame.blocks.flatMap (Block.encode frameInfo.blockChecksum) ++ (toLE 4 0 ++
        frame.contentChecksum.elim [] fun checksum => toLE 4 checksum.toNat)) := by
    rw [Frame.encode, hchecksum, List.append_assoc, List.append_assoc]
  have hfirst : firstOffset frame.encode = frame.header.length := by
    rw [hdata, firstOffset_header]
  rw [← hdata] at hloop
  rw [analyzeLz4File, hinfo, hfirst, hloop, hchecksum]
  simp [Frame.blockOffset]

/-- A frame with a dictionary and checksums, and two blocks of which one is stored. -/
def twoBlocks : Frame where
  blockIndependence := true
  blockChecksum := true
  contentSize := none
  dictId := some 9
  contentChecksum := some 8
  bd := 0x40
  hc := 0
  blocks :=
    [⟨[1, 2, 3], true, 5, by decide, by decide⟩, ⟨[4, 5], false, 6, by decide, by decide⟩]

theorem analyzeLz4File_twoBlocks :
    (analyzeLz4File (fun _ => some ⟨some 4, true⟩) twoBlocks.encode).chunks =
        [⟨0, 11, 3, true, [1, 2, 3], false, none, some 5⟩,
          ⟨1, 22, 2, false, [4, 5], false, some 65536, some 6⟩] ∧
      (analyzeLz4File (fun _ => some ⟨some 4, true⟩) twoBlocks.encode).stop = .endMark 2 32 :=
  analyzeLz4File_frame twoBlocks (fun _ => some ⟨some 4, true⟩) ⟨some 4, true⟩ rfl rfl

end SystemsExperiments.Lz4Analyze
