import SystemsExperiments.Shared.Interleaving
import SystemsExperiments.Model.Mmlog.Basic

/-! # Opening a log

Any number of calls of `mmlog_open` on one path race over two files. The exclusive creation
of the metadata file decides which call runs `files_create`; the others run `files_open`.
Closing a descriptor and unmapping touch neither file and are left out. -/

namespace SystemsExperiments.Mmlog

open Interleaving

/-! ## The files on disk -/

def sizeofLogMetadata : ℕ := 32

/-- The metadata file, from its creation with no content to its only size. -/
inductive MetaFile where
  | absent
  | empty
  | sized (m : LogMetadata)
  deriving DecidableEq, Repr

namespace MetaFile

/-- What `fstat` reports of the file, when it can be opened at all. -/
def len? : MetaFile → Option ℕ
  | .absent => none
  | .empty => some 0
  | .sized _ => some sizeofLogMetadata

/-- What a mapping of the file shows; below the full size an access raises a signal. -/
def metadata? : MetaFile → Option LogMetadata
  | .sized m => some m
  | _ => none

end MetaFile

structure Files where
  metaFile : MetaFile
  data : Option DataFile

namespace Files

/-- A store through a shared mapping of the metadata file. -/
def store (f : Files) (assign : LogMetadata → LogMetadata) : Files :=
  match f.metaFile with
  | .sized m => { f with metaFile := .sized (assign m) }
  | _ => f

/-- A successful `ftruncate` of the data file. -/
def ftruncate (f : Files) (n : ℕ) : Files :=
  { f with data := f.data.map (DataFile.ftruncate · n) }

end Files

/-! ## `files_create` -/

inductive CreatePc where
  | ftruncateMeta
  | mmap
  | storeVersion
  | storePageSize
  | storeChunkSize
  | openData
  | ftruncateEmpty
  | ftruncateChunk
  | storeFileSize
  | storeReady
  deriving DecidableEq, Repr

/-- One step of `files_create(fd_meta, filename, chunk_size, handle)`. -/
def filesCreate (chunkSize : ℕ) (f : Files) (errno : MmlogErr) (o : Outcome) :
    CreatePc → Files × MmlogErr × Next CreatePc Bool
  | .ftruncateMeta =>
      match o with
      | .succeed => ({ f with metaFile := .sized LogMetadata.zero }, errno, .goto .mmap)
      | _ => (f, .filesCreateFtruncateMdata, .done false)
  | .mmap =>
      match o with
      | .succeed => (f, errno, .goto .storeVersion)
      | _ => (f, .filesCreateMmapMdata, .done false)
  | .storeVersion =>
      (f.store fun m => { m with version := mmlogVersion }, errno, .goto .storePageSize)
  | .storePageSize =>
      (f.store fun m => { m with pageSize := logPageSize }, errno, .goto .storeChunkSize)
  | .storeChunkSize =>
      (f.store fun m => { m with chunkSize := chunkSize }, errno, .goto .openData)
  | .openData =>
      -- An existing data file is opened as it is and clobbered by the truncations.
      match o with
      | .succeed =>
          ({ f with data := some (f.data.getD ⟨0, fun _ => 0⟩) }, errno, .goto .ftruncateEmpty)
      | _ => (f, .filesCreateOpenData, .done false)
  | .ftruncateEmpty =>
      match o with
      | .succeed => (f.ftruncate 0, errno, .goto .ftruncateChunk)
      | _ => (f, .filesCreateFtruncateData, .done false)
  | .ftruncateChunk =>
      match o with
      | .succeed => (f.ftruncate chunkSize, errno, .goto .storeFileSize)
      | _ => (f, .filesCreateFtruncateData, .done false)
  | .storeFileSize =>
      (f.store fun m => { m with fileSize := chunkSize }, errno, .goto .storeReady)
  | .storeReady => (f.store fun m => { m with isReady := true }, errno, .done true)

/-! ## `files_open` -/

/-- Program points of `hot_wait_for_cond` around `try_check_file_ready`. -/
inductive ReadyPc where
  | openFile
  | fstat
  /-- The clock check after a failed attempt; `opened` when the descriptor is kept. -/
  | wait (opened : Bool)
  deriving DecidableEq, Repr

/-- One step of the wait until a file of length `len?` has at least `size` bytes. -/
def waitFileReady (len? : Option ℕ) (size : ℕ) (errno : MmlogErr) (o : Outcome) :
    ReadyPc → MmlogErr × Next ReadyPc Bool
  | .openFile =>
      match o, len? with
      | .succeed, some _ => (errno, .goto .fstat)
      | _, _ => (.tryCheckFileReadyOpen, .goto (.wait false))
  | .fstat =>
      match o, len? with
      | .succeed, some n =>
          if n < size then (.tryCheckFileReadyFstat, .goto (.wait true))
          else (errno, .done true)
      | _, _ => (.tryCheckFileReadyFstat, .goto (.wait true))
  | .wait opened =>
      match o with
      | .succeed => (errno, .goto (if opened then .fstat else .openFile))
      | _ => (errno, .done false)

/-- The error of `files_open` after a wait for a file timed out. -/
def timeoutErr (onOpen onFstat errno : MmlogErr) : MmlogErr :=
  if errno = .tryCheckFileReadyOpen then onOpen
  else if errno = .tryCheckFileReadyFstat then onFstat
  else errno

/-- Program points of `files_open`; `size` is `fd_data_args.size` once it is set. -/
inductive FilesOpenPc where
  | metaReady (pc : ReadyPc)
  | mmap
  | loadChunkSize
  | loadReady (size : ℕ)
  | waitReady (size : ℕ)
  | loadVersion (size : ℕ)
  | dataReady (size : ℕ) (pc : ReadyPc)
  /-- The process died on an access to an invalid address. -/
  | crashed
  deriving DecidableEq, Repr

/-- One step of `files_open(filename, meta_filename, handle)`, which writes neither file. -/
def filesOpen (f : Files) (errno : MmlogErr) (o : Outcome) :
    FilesOpenPc → MmlogErr × Next FilesOpenPc Bool
  | .metaReady pc =>
      let r := waitFileReady f.metaFile.len? sizeofLogMetadata errno o pc
      match r.2 with
      | .goto pc' => (r.1, .goto (.metaReady pc'))
      | .done true => (r.1, .goto .mmap)
      | .done false =>
          (timeoutErr .filesOpenMdataReadyOpen .filesOpenMdataReadyFstat r.1, .done false)
  | .mmap =>
      -- The source reads `chunk_size` through the result before it looks for `MAP_FAILED`.
      match o with
      | .succeed => (errno, .goto .loadChunkSize)
      | _ => (errno, .goto .crashed)
  | .loadChunkSize =>
      match f.metaFile.metadata? with
      | some m => (errno, .goto (.loadReady m.chunkSize))
      | none => (errno, .goto .crashed)
  | .loadReady size =>
      match f.metaFile.metadata? with
      | some m =>
          if m.isReady then (errno, .goto (.loadVersion size))
          else (errno, .goto (.waitReady size))
      | none => (errno, .goto .crashed)
  | .waitReady size =>
      match o with
      | .succeed => (errno, .goto (.loadReady size))
      | _ => (.filesOpenMdataReady, .done false)
  | .loadVersion size =>
      match f.metaFile.metadata? with
      | some m =>
          if m.version ≠ mmlogVersion then (.filesOpenVersion, .done false)
          else (errno, .goto (.dataReady size .openFile))
      | none => (errno, .goto .crashed)
  | .dataReady size pc =>
      let r := waitFileReady (f.data.map DataFile.len) size errno o pc
      match r.2 with
      | .goto pc' => (r.1, .goto (.dataReady size pc'))
      | .done true => (r.1, .done true)
      | .done false =>
          (timeoutErr .filesOpenDataReadyOpen .filesOpenDataReadyFstat r.1, .done false)
  | .crashed => (errno, .goto .crashed)

/-! ## `mmlog_open` -/

/-- The arguments of a call besides the path: a `size_t` and a `uint32_t`. -/
structure OpenArgs where
  chunkSize : ℕ
  chunkCount : ℕ
  deriving DecidableEq, Repr

/-- Program points of `mmlog_open` and of `files_open_or_create` inside it. -/
inductive OpenPc where
  | checkArgs
  | callocHandle
  | callocBuffer
  | malloc
  | snprintf
  | openExclusive
  | create (pc : CreatePc)
  | filesOpen (pc : FilesOpenPc)
  | storeHead
  /-- Back at the caller, with a handle or with NULL. -/
  | returned (handle : Bool)
  deriving DecidableEq, Repr

/-- One call of `mmlog_open`. -/
structure Opener where
  args : OpenArgs
  pc : OpenPc
  errno : MmlogErr
  deriving DecidableEq, Repr

def Opener.goto (c : Opener) (pc : OpenPc) (errno : MmlogErr) : Opener :=
  { c with pc := pc, errno := errno }

/-- `files_open_or_create` on its path and its `uint32_t` chunk size, up to its first call
into the system. -/
def Opener.filesOpenOrCreate (c : Opener) (filename : Option String) : Opener :=
  if filename = none ∨ filename = some "" ∨ u32 c.args.chunkSize = 0 ∨
      u32 c.args.chunkSize % logPageSize ≠ 0 then
    c.goto (.returned false) .filesOpenOrCreateEinval
  else c.goto .malloc .ok

/-- One step of `mmlog_open(filename, chunk_size, chunk_count)`. -/
def mmlogOpen (filename : Option String) (f : Files) (c : Opener) (o : Outcome) :
    Files × Opener :=
  match c.pc with
  | .checkArgs =>
      if c.args.chunkSize % logPageSize ≠ 0 ∨ c.args.chunkSize = 0 ∨ c.args.chunkCount < 2 then
        (f, c.goto (.returned false) .mmlogOpenEinval)
      else (f, c.goto .callocHandle .ok)
  | .callocHandle =>
      match o with
      | .succeed => (f, c.goto .callocBuffer c.errno)
      | _ => (f, c.goto (.returned false) .mmlogOpenEnomem)
  | .callocBuffer =>
      match o with
      | .succeed => (f, c.filesOpenOrCreate filename)
      | _ => (f, c.goto (.returned false) .mmlogOpenEnomem)
  | .malloc =>
      match o with
      | .succeed => (f, c.goto .snprintf c.errno)
      | _ => (f, c.goto (.returned false) .filesOpenOrCreateEinval)
  | .snprintf =>
      match o with
      | .succeed => (f, c.goto .openExclusive c.errno)
      | _ => (f, c.goto (.returned false) .filesOpenOrCreateSnprintf)
  | .openExclusive =>
      -- With `O_EXCL` the call also fails on a file that exists.
      if o = .succeed ∧ f.metaFile = .absent then
        ({ f with metaFile := .empty }, c.goto (.create .ftruncateMeta) .ok)
      else (f, c.goto (.filesOpen (.metaReady .openFile)) .ok)
  | .create pc =>
      let r := filesCreate (u32 c.args.chunkSize) f c.errno o pc
      (r.1,
        match r.2.2 with
        | .goto pc' => c.goto (.create pc') r.2.1
        | .done true => c.goto .storeHead r.2.1
        | .done false => c.goto (.returned false) r.2.1)
  | .filesOpen pc =>
      let r := filesOpen f c.errno o pc
      (f,
        match r.2 with
        | .goto pc' => c.goto (.filesOpen pc') r.1
        | .done true => c.goto .storeHead r.1
        | .done false => c.goto (.returned false) r.1)
  | .storeHead => (f, c.goto (.returned true) c.errno)
  | .returned _ => (f, c)

/-! ## Systems -/

/-- What the holder of a handle may do to the files between two steps of other calls: the
fields that `mmlog_checkout` and `mmlog_insert` write, and the content and length of the
data file. -/
structure HandleUse where
  isLocked : Bool
  isPanicked : Bool
  fileSize : ℕ
  cursor : ℕ
  file : DataFile

def Files.use (f : Files) (u : HandleUse) : Files :=
  { f.store fun m =>
      { m with
        isLocked := u.isLocked
        isPanicked := u.isPanicked
        fileSize := u.fileSize
        cursor := u.cursor } with
    data := some u.file }

/-- A step of a process: the environment's answer to its `mmlog_open`, or a use of the
handle that its `mmlog_open` returned. -/
inductive OpenChoice where
  | answer (o : Outcome)
  | use (u : HandleUse)

def openerStep (filename : Option String) (f : Files) (c : Opener) :
    OpenChoice → Files × Opener
  | .answer o => mmlogOpen filename f c o
  | .use u => if c.pc = .returned true then (f.use u, c) else (f, c)

/-- Before the first call: no metadata file, and any data file or none. -/
def unopened (calls : ℕ → OpenArgs) (data : Option DataFile) : Sys Files Opener where
  shared := ⟨.absent, data⟩
  thread := fun t => ⟨calls t, .checkArgs, .ok⟩

/-- The state that a schedule of the calls reaches. -/
def opened (filename : Option String) (calls : ℕ → OpenArgs) (data : Option DataFile)
    (sched : List (ℕ × OpenChoice)) : Sys Files Opener :=
  run (openerStep filename) (unopened calls data) sched

end SystemsExperiments.Mmlog
