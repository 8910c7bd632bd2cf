import Mathlib.Algebra.Order.Ring.Nat
import Mathlib.Logic.Function.Basic

/-! # The data model of the memory-mapped log

Machine integers are naturals reduced at the width of the C type wherever the source can
overflow. File contents are a length and a byte for each offset. -/

namespace SystemsExperiments.Mmlog

/-! ## Constants and machine arithmetic -/

def logPageSize : ℕ := 4096

def mmlogVersion : ℕ := 1

/-- `LOG_CURSOR_INVALID`, the all-ones `uint64_t`. -/
def logCursorInvalid : ℕ := 2 ^ 64 - 1

/-- A value stored in a `uint64_t` or `size_t`. -/
def u64 (n : ℕ) : ℕ := n % 2 ^ 64

/-- A value stored in a `uint32_t`. -/
def u32 (n : ℕ) : ℕ := n % 2 ^ 32

/-- The macro `ALIGN(x, a)` for a `uint64_t` and a `uint32_t`. The complement is taken at
32 bits and only then widened, so the mask has no high half. -/
def ALIGN (x : UInt64) (a : UInt32) : UInt64 :=
  (x + a.toUInt64 - 1) &&& (~~~(a - 1)).toUInt64

/-- `ALIGN(end, metadata->chunk_size)` on the values the metadata holds. -/
def alignedSize (endOffset chunkSize : ℕ) : ℕ :=
  (ALIGN (UInt64.ofNat endOffset) (UInt32.ofNat chunkSize)).toNat

/-! ## Error codes -/

/-- `mmlog_err_t`, in the order of `ERR_TABLE`. -/
inductive MmlogErr where
  | ok
  | clockGettimeofday
  | filesCreateFtruncateMdata
  | filesCreateMmapMdata
  | filesCreateOpenData
  | filesCreateFtruncateData
  | tryCheckFileReadyOpen
  | tryCheckFileReadyFstat
  | filesOpenMdataReadyOpen
  | filesOpenMdataReadyFstat
  | filesOpenMdataMmap
  | filesOpenMdataReady
  | filesOpenDataReadyOpen
  | filesOpenDataReadyFstat
  | filesOpenDataMmap
  | filesOpenVersion
  | filesOpenOrCreateEinval
  | filesOpenOrCreateSnprintf
  | mmlogOpenEinval
  | mmlogOpenEnomem
  | mmlogOpenOrCreateEinval
  | fileExpandInnerPanicked
  | fileExpandInnerGrow
  | fileExpandInnerLocked
  | mmlogCheckoutEinval
  | cleanChunksEinval
  | createChunkAtCursorEnomem
  | createChunkAtCursorMmap
  | addNewChunkEinvalid
  | addNewChunkEwait
  | mmlogRbCheckoutEinval
  | mmlogRbCheckoutNolock
  | writeToChunkEchunk
  | mmlogInsertEinval
  | mmlogInsertPwrite
  | mmlogTrimEinval
  | mmlogTrimFtruncate
  deriving DecidableEq, Repr

/-! ## The two shared files -/

/-- `log_metadata_t`, the content of the mapped metadata file. -/
structure LogMetadata where
  version : ℕ
  isReady : Bool
  isLocked : Bool
  isPanicked : Bool
  fileSize : ℕ
  cursor : ℕ
  pageSize : ℕ
  chunkSize : ℕ
  deriving DecidableEq, Repr

/-- The metadata file right after `ftruncate` extended it: all bytes zero. -/
def LogMetadata.zero : LogMetadata :=
  ⟨0, false, false, false, 0, 0, 0, 0⟩

/-- The metadata that `files_create` leaves behind. -/
def LogMetadata.created (chunkSize : ℕ) : LogMetadata :=
  { LogMetadata.zero with
    version := mmlogVersion
    isReady := true
    fileSize := chunkSize
    pageSize := logPageSize
    chunkSize := chunkSize }

/-- The data file: its length, and the byte at each offset below it. -/
structure DataFile where
  len : ℕ
  byte : ℕ → UInt8

namespace DataFile

/-- A successful `ftruncate`: the length is set exactly and new bytes are zero. -/
def ftruncate (f : DataFile) (n : ℕ) : DataFile :=
  ⟨n, fun i => if i < f.len ∧ i < n then f.byte i else 0⟩

/-- A copy of `n` bytes through a shared mapping of the offsets below `limit`. Bytes at or
beyond the end of the file, or beyond the mapping, do not become file content. -/
def store (f : DataFile) (limit off n : ℕ) (src : ℕ → UInt8) : DataFile :=
  { f with byte := fun i =>
      if off ≤ i ∧ i < off + n ∧ i < limit ∧ i < f.len then src (i - off) else f.byte i }

/-- A `pwrite` that transfers `n` bytes, extending the file where it ends too early. -/
def pwrite (f : DataFile) (off n : ℕ) (src : ℕ → UInt8) : DataFile :=
  if n = 0 then f
  else
    ⟨max f.len (off + n), fun i =>
      if off ≤ i ∧ i < off + n then src (i - off)
      else if i < f.len then f.byte i else 0⟩

/-- The first `n` bytes of the file. -/
def content (f : DataFile) (n : ℕ) : List UInt8 :=
  (List.range n).map f.byte

end DataFile

/-- The data file right after `files_create` emptied it and extended it to one chunk. -/
def DataFile.created (chunkSize : ℕ) : DataFile :=
  ⟨chunkSize, fun _ => 0⟩

/-- A caller's buffer: `size` bytes readable at the pointer. -/
structure Payload where
  size : ℕ
  byte : ℕ → UInt8

def Payload.bytes (p : Payload) : List UInt8 :=
  (List.range p.size).map p.byte

/-! ## Control -/

/-- Where a function goes after one atomic step: on to a program point, or back to its
caller with a value. -/
inductive Next (π ρ : Type) where
  | goto (pc : π)
  | done (value : ρ)

/-- What the environment answers to a step that may go several ways: a system call
succeeds, fails, or transfers fewer bytes than asked; a bounded wait has time left
(`succeed`) or none. -/
inductive Outcome where
  | succeed
  | fail
  | short (n : ℕ)
  deriving DecidableEq, Repr

/-! ## Arguments accepted by `mmlog_open` -/

/-- The argument checks of `mmlog_open` on its `size_t` chunk size and of
`files_open_or_create` on the same value narrowed to `uint32_t`. -/
def openArgsError (chunkSize chunkCount : ℕ) : Option MmlogErr :=
  if chunkSize % logPageSize ≠ 0 ∨ chunkSize = 0 ∨ chunkCount < 2 then
    some .mmlogOpenEinval
  else if u32 chunkSize = 0 ∨ u32 chunkSize % logPageSize ≠ 0 then
    some .filesOpenOrCreateEinval
  else none

/-- The arguments of the calls to `mmlog_open` behind a log: the creator's chunk size, and
the chunk count of each handle. -/
structure Config where
  chunkSizeArg : ℕ
  chunkCount : ℕ → ℕ
  accepted : ∀ h, openArgsError chunkSizeArg (chunkCount h) = none

/-- The `uint32_t` that the creator stores in the metadata. -/
def Config.chunkSize (cfg : Config) : ℕ := u32 cfg.chunkSizeArg

/-- One page for each chunk and two chunks for each handle, the least that is accepted. -/
def Config.least : Config := ⟨4096, fun _ => 2, fun _ => rfl⟩

end SystemsExperiments.Mmlog
