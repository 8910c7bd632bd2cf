import Mathlib.Data.List.Range
import SystemsExperiments.Shared.Paging

/-! # The buffers of perf events

Each CPU has an event with a buffer: a page of metadata and a ring of data. The ring is mapped
twice in a row, so that an event never has to be put together from its ends. -/

namespace SystemsExperiments.PerfEventOpen

open Paging

/-! ## Mapping a buffer -/

/-- The pages of the ring. -/
def rbData : ℕ := 2 * 2

def rbSize : ℕ := 1 + rbData

/-- What `mmap` answers: the first page of a free region, and whether the file can be mapped
behind the ring and at the start. -/
structure Mmap where
  base : Option ℕ
  second : Bool
  first : Bool

variable {φ : Type*}

/-- The first page of the buffer, if there is one, and the address space. -/
def fdToBuf (answers : Mmap) (space : Space φ) (fd : φ) : Option ℕ × Space φ :=
  match answers.base with
  | none => (none, space)
  | some base =>
      let space := reserve space base (rbSize + rbData)
      if answers.second then
        let space := mapFile space (base + rbData) rbSize fd
        if answers.first then (some base, mapFile space base rbSize fd)
        else (none, unmap space base (rbSize + rbData))
      else (none, unmap space base (rbSize + rbData))

/-! ## Events -/

/-- The fields of `perf_event_mmap_page` that are read. -/
structure Metadata where
  dataHead : UInt64
  dataTail : UInt64
  dataSize : UInt64

def headerSize : UInt64 := 8

/-- The address of the next event. -/
def headerFromBuf (base : ℕ) (metadata : Metadata) : Option ℕ :=
  let dataArea := base * pageSize + 4096
  if metadata.dataHead = metadata.dataTail then none
  else
    let offset := metadata.dataTail % metadata.dataSize
    if metadata.dataHead - metadata.dataTail < headerSize then none
    else some (dataArea + offset.toNat)

/-! ## The CPUs -/

/-- The length of the arrays; an access behind their end is a fault. -/
def maxCpus : ℕ := 1024

/-- `PerfEventConfig`; what was not set is what the allocation had. -/
structure PerfEventConfig where
  fds : Fin maxCpus → ℤ
  buffers : Fin maxCpus → ℕ
  n : ℕ

/-- One turn of the loop; the event and its buffer, if both could be had. -/
def setupCpu (config : PerfEventConfig) (i : ℕ) (opened : Option (ℤ × ℕ)) :
    Option PerfEventConfig :=
  match opened with
  | none => some config
  | some (fd, buf) =>
      if hi : i < maxCpus then
        some
          { fds := Function.update config.fds ⟨i, hi⟩ fd
            buffers := Function.update config.buffers ⟨i, hi⟩ buf
            n := i }
      else none

/-- `setup_perf_event`; the CPUs are those of the list. -/
def setupPerfEvent (allocated : PerfEventConfig) (opened : List (Option (ℤ × ℕ))) :
    Option PerfEventConfig :=
  (opened.zipIdx).foldlM (fun config cpu => setupCpu config cpu.2 cpu.1) allocated

/-- The loops over the first `n` descriptors. -/
def fdsUpTo (config : PerfEventConfig) (n : ℕ) : Option (List ℤ) :=
  (List.range n).mapM fun i => if hi : i < maxCpus then some (config.fds ⟨i, hi⟩) else none

/-- The descriptors that `enable_perf_events` enables. -/
def enablePerfEvents (config : PerfEventConfig) : Option (List ℤ) := fdsUpTo config config.n

/-- The CPU and the buffer that `get_next_event` looks into, if it gets so far. `pollfds` is as
long as the arrays of the configuration. The answers of `poll` are those for each CPU, or none
where it fails. -/
def getNextBuffer (config : PerfEventConfig) (poll : Option (ℕ → Bool)) :
    Option (Option (ℕ × ℕ)) := do
  let _ ← fdsUpTo config config.n
  match poll with
  | none => return none
  | some ready =>
      match (List.range config.n).find? ready with
      | none => return none
      | some i => if hi : i < maxCpus then return some (i, config.buffers ⟨i, hi⟩) else none

end SystemsExperiments.PerfEventOpen
