import SystemsExperiments.Model.Mmlog.Open
import SystemsExperiments.Model.Mmlog.System

/-! # Programs that open the log and use it

Every process calls `mmlog_open` and, when that returned a handle, goes on to call into the
log through it. What it calls next is the decision of its program, which may share variables
with the programs of other threads. -/

namespace SystemsExperiments.Mmlog

open Interleaving

/-- What a process does between its calls: from the variables `κ` shared by all processes, its
own variables `ℓ`, the results of its calls so far and an answer of the environment, it comes
to the calls it makes next. -/
abbrev Client (κ ℓ δ : Type) := κ → ℓ → List (Call × Value) → δ → κ × ℓ × List Call

/-- What all processes share; the buffer of a handle is shared by nobody. -/
structure Store (κ : Type) where
  files : Files
  ring : ℕ → ChunkBuffer
  vars : κ

structure Process (ℓ : Type) where
  opener : Opener
  thread : Thread
  vars : ℓ

/-- The log that a handle of an opened log stands for. -/
def Store.log? {κ : Type} (s : Store κ) : Option Log :=
  match s.files.metaFile, s.files.data with
  | .sized m, some f => some ⟨m, f, s.ring⟩
  | _, _ => none

def Store.setLog {κ : Type} (s : Store κ) (l : Log) : Store κ :=
  { s with files := ⟨.sized l.metadata, some l.file⟩, ring := l.ring }

variable {κ ℓ δ : Type}

/-- One step of a process. -/
def processStep (filename : Option String) (client : Client κ ℓ δ) (s : Store κ)
    (p : Process ℓ) (c : Outcome × δ) : Store κ × Process ℓ :=
  match p.opener.pc with
  | .returned true =>
      if p.thread.halted then
        let r := client s.vars p.vars p.thread.results c.2
        ({ s with vars := r.1 },
          { p with vars := r.2.1, thread := { p.thread with todo := r.2.2 } })
      else
        match s.log? with
        | none => (s, p)
        | some l =>
            let r := threadStep l p.thread c.1
            (s.setLog r.1, { p with thread := r.2 })
  | .returned false => (s, p)
  | _ =>
      let r := mmlogOpen filename s.files p.opener c.1
      ({ s with files := r.1 }, { p with opener := r.2 })

/-- The chunk count behind the buffer of a handle. A call with fewer than two chunks returns
no handle, and nothing is ever read of the buffer it has not got. -/
def OpenArgs.bufferCount (args : OpenArgs) : ℕ :=
  if args.chunkCount < 2 then 2 else args.chunkCount

/-- Before the first call of `mmlog_open`: no metadata file, and any data file or none. -/
def unstarted (calls : ℕ → OpenArgs) (data : Option DataFile) (vars : κ) (own : ℕ → ℓ) :
    Sys (Store κ) (Process ℓ) where
  shared := ⟨⟨.absent, data⟩, fun h => ChunkBuffer.opened (calls h).bufferCount, vars⟩
  thread := fun t => ⟨⟨calls t, .checkArgs, .ok⟩, ⟨.idle, .ok, [], []⟩, own t⟩

/-- The state that a schedule of the processes reaches. -/
def started (filename : Option String) (client : Client κ ℓ δ) (calls : ℕ → OpenArgs)
    (data : Option DataFile) (vars : κ) (own : ℕ → ℓ)
    (sched : List (ℕ × (Outcome × δ))) : Sys (Store κ) (Process ℓ) :=
  run (processStep filename client) (unstarted calls data vars own) sched

end SystemsExperiments.Mmlog
