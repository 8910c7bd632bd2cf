import SystemsExperiments.Shared.Bytes

/-! # Chunks of an LZ4 file

The analysis reads the size of a chunk, then the chunk, and goes on behind it, until it reads
a size of zero. -/

namespace SystemsExperiments.Lz4Analyze

open Bytes

/-- What the loop looks up of what `lz4.frame.get_frame_info` returns. -/
structure FrameInfo where
  blockSizeId : Option ℕ
  blockChecksum : Bool
  deriving DecidableEq

/-- `f.seek(offset)` and `f.read(n)` -/
def readAt (data : List UInt8) (offset n : ℕ) : List UInt8 := (data.drop offset).take n

/-! ## The header -/

def magicNumber : List UInt8 := [0x04, 0x22, 0x4D, 0x18]

def headerSize (data : List UInt8) : ℕ :=
  match readAt data 4 1 with
  | [] => 7
  | flg :: _ =>
      let contentSizeFlag := (flg >>> 3) &&& 1
      let dictIdFlag := (flg >>> 0) &&& 1
      7 + (if contentSizeFlag ≠ 0 then 8 else 0) + (if dictIdFlag ≠ 0 then 4 else 0)

def firstOffset (data : List UInt8) : ℕ :=
  if readAt data 0 4 = magicNumber then headerSize data else 4

/-! ## The loop -/

/-- What is printed of a chunk. -/
structure Chunk where
  index : ℕ
  offset : ℕ
  size : ℕ
  isUncompressed : Bool
  dataSample : List UInt8
  truncated : Bool
  maxUncompressedSize : Option ℕ
  checksum : Option ℕ
  deriving DecidableEq

/-- Where the loop ends. -/
inductive Stop where
  | endMark (index offset : ℕ)
  | endOfFile (offset : ℕ)
  | pastEnd
  deriving DecidableEq

def blockSizeMap : ℕ → ℕ
  | 4 => 64 * 1024
  | 5 => 256 * 1024
  | 6 => 1 * 1024 * 1024
  | 7 => 4 * 1024 * 1024
  | _ => 0

/-- Printed for a compressed chunk if the map has the block size. -/
def maxChunkSize (frameInfo : Option FrameInfo) (isUncompressed : Bool) : Option ℕ :=
  (frameInfo.bind FrameInfo.blockSizeId).bind fun blockSizeId =>
    if 0 < blockSizeMap blockSizeId ∧ isUncompressed = false then some (blockSizeMap blockSizeId)
    else none

def isUncompressed (word : ℕ) : Bool := decide (word &&& 0x80000000 ≠ 0)

def chunkSize (word : ℕ) : ℕ := word &&& 0x7FFFFFFF

theorem decreasing_next {size offset chunkSize : ℕ} (h : offset < size) (c : Bool) :
    size - (if c then offset + 4 + chunkSize + 4 else offset + 4 + chunkSize) < size - offset := by
  split
  · omega
  · omega

/-- The chunks from an offset on. -/
def chunkLoop (data : List UInt8) (frameInfo : Option FrameInfo) (index offset : ℕ) :
    List Chunk × Stop :=
  if h : offset < data.length then
    let chunkSizeData := readAt data offset 4
    if chunkSizeData.length < 4 then ([], .endOfFile offset)
    else
      let word := ofLE chunkSizeData
      if chunkSize word = 0 then ([], .endMark index offset)
      else
        let chunkData := readAt data (offset + 4) (chunkSize word)
        let next := offset + 4 + chunkSize word
        let hasChecksum :=
          frameInfo.any FrameInfo.blockChecksum && decide (next + 4 ≤ data.length)
        -- read behind the chunk, without another `seek`
        let checksumBytes := readAt data (offset + 4 + chunkData.length) 4
        let chunk : Chunk :=
          { index := index
            offset := offset
            size := chunkSize word
            isUncompressed := isUncompressed word
            dataSample := chunkData.take (min 16 (chunkSize word))
            truncated := decide (min 16 (chunkSize word) < chunkSize word)
            maxUncompressedSize := maxChunkSize frameInfo (isUncompressed word)
            checksum :=
              if hasChecksum ∧ checksumBytes.length = 4 then some (ofLE checksumBytes) else none }
        let others := chunkLoop data frameInfo (index + 1) (if hasChecksum then next + 4 else next)
        (chunk :: others.1, others.2)
  else ([], .pastEnd)
termination_by data.length - offset
decreasing_by exact decreasing_next h _

/-! ## The file -/

/-- The statistics without the average, which is the quotient of the first two. -/
structure Statistics where
  totalChunks : ℕ
  totalChunkSize : ℕ
  maxChunkSize : ℕ
  minChunkSize : ℕ
  deriving DecidableEq

def chunkStatistics : List ℕ → Option Statistics
  | [] => none
  | size :: sizes =>
      some ⟨sizes.length + 1, (size :: sizes).sum, sizes.foldl max size, sizes.foldl min size⟩

structure Analysis where
  chunks : List Chunk
  stop : Stop
  statistics : Option Statistics
  deriving DecidableEq

/-- `getFrameInfo` is the library function, which gives nothing when it raises. -/
def analyzeLz4File (getFrameInfo : List UInt8 → Option FrameInfo) (data : List UInt8) : Analysis :=
  let result := chunkLoop data (getFrameInfo data) 0 (firstOffset data)
  ⟨result.1, result.2, chunkStatistics (result.1.map Chunk.size)⟩

end SystemsExperiments.Lz4Analyze
