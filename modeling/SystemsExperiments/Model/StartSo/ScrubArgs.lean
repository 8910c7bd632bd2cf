import SystemsExperiments.Shared.ProcessStack

/-! # Arguments counted in the command line

The zeros of `/proc/self/cmdline` are counted piece by piece in a buffer, and as many pointers
below `environ` are followed. -/

namespace SystemsExperiments.StartSo

open ProcessStack Bytes

inductive Fault where
  /-- An index outside the buffer. -/
  | buf
  /-- An access to memory that is not there. -/
  | memory
  deriving DecidableEq

def bufSize : ℕ := 1024

/-- The buffer after a `read`. -/
def readInto (buf chunk : List UInt8) : List UInt8 := chunk ++ buf.drop chunk.length

/-- `for (; n; n--) if (!buf[n]) argc++;` -/
def countZeros (buf : List UInt8) : ℕ → ℕ → Except Fault ℕ
  | 0, argc => .ok argc
  | n + 1, argc =>
      match buf[n + 1]? with
      | none => .error .buf
      | some b => countZeros buf n (if b = 0 then argc + 1 else argc)

/-- The loop over what is read. -/
def countChunks (buf : List UInt8) (argc : ℕ) : List (List UInt8) → Except Fault ℕ
  | [] => .ok argc
  | chunk :: chunks => do
      let argc ← countZeros (readInto buf chunk) chunk.length argc
      countChunks (readInto buf chunk) argc chunks

def countArgs (chunks : List (List UInt8)) : Except Fault ℕ :=
  countChunks (List.replicate bufSize 0) 0 chunks

/-- `args[-argc]` -/
def argAt (memory : Memory) (environ argc : ℕ) : Except Fault ℕ :=
  match loadWord memory (environ - 8 * argc) with
  | none => .error .memory
  | some arg => .ok arg

def strlen (memory : Memory) (arg : ℕ) : Except Fault ℕ :=
  match (Reader.readCString (2 ^ 64) arg).run memory with
  | none => .error .memory
  | some s => .ok s.length

/-- `for (; argc > 1; argc--) memset(args[-argc], '?', strlen(args[-argc]));` -/
def scrubFrom (environ : ℕ) : ℕ → Memory → Except Fault Memory
  | 0, memory => .ok memory
  | argc + 1, memory =>
      if argc = 0 then .ok memory
      else do
        let arg ← argAt memory environ (argc + 1)
        let length ← strlen memory arg
        scrubFrom environ argc (fill memory arg length 63)

/-- The memory after the call; `chunks` is what the calls of `read` give before the end. -/
def scrubArgs (memory : Memory) (environ : ℕ) (chunks : List (List UInt8)) :
    Except Fault Memory := do
  let argc ← countArgs chunks
  scrubFrom environ argc memory

end SystemsExperiments.StartSo
