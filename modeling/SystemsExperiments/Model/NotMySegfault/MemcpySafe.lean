import Mathlib.Algebra.Order.Ring.Nat
import Mathlib.Data.List.Basic

/-! # Copies by way of a file

`memcpy_safe` has the kernel copy the source to a file with `writev`, which fails where the
source cannot be read, and then copies from a shared mapping of the file. -/

namespace SystemsExperiments.NotMySegfault

def gBufferSize : ℕ := 100 * 4096 * 1024

/-- The memory of a process, without the mapped buffer, and the file behind `g_fd` with the
offset of the descriptor. The buffer, if there is one, shows the start of the file. -/
structure Process where
  mem : ℕ → UInt8
  file : ℕ → UInt8
  offset : ℕ
  gBuffer : Bool

/-- `cells` with the `n` items of `data` from `pos` on. -/
def overwrite (cells : ℕ → UInt8) (pos n : ℕ) (data : ℕ → UInt8) : ℕ → UInt8 := fun a =>
  if pos ≤ a ∧ a < pos + n then data (a - pos) else cells a

/-- `init_memcpy_safe`, with the results of its three system calls. A file that was truncated
to its size is filled with zeros. -/
def initMemcpySafe (mem : ℕ → UInt8) (mkstemp ftruncate mmap : Bool) : Process :=
  ⟨mem, fun _ => 0, 0, mkstemp && ftruncate && mmap⟩

/-- `writev` with one vector: all of it is written at the offset, or the call fails. -/
def writev (p : Process) (src n : ℕ) (ok : Bool) : Process × Bool :=
  if ok then
    ({ p with
        file := overwrite p.file p.offset n fun i => p.mem (src + i)
        offset := p.offset + n }, true)
  else (p, false)

/-- `memget_safe`: whether the result is not `NULL`. -/
def memgetSafe (p : Process) (src n : ℕ) (ok : Bool) : Process × Bool :=
  if (writev p src n ok).2 then ((writev p src n ok).1, p.gBuffer)
  else ((writev p src n ok).1, false)

def memcpySafe (p : Process) (dst src n : ℕ) (ok : Bool) : Process × Bool :=
  if p.gBuffer = false ∨ gBufferSize < n then (p, false)
  else if n = 0 then (p, true)
  else
    match memgetSafe p src n ok with
    | (p', false) => (p', false)
    | (p', true) => ({ p' with mem := overwrite p'.mem dst n p'.file }, true)

/-- What a process does: it writes to its memory or it calls one of the functions, and
`writev` succeeds or not. -/
inductive Event where
  | store (addr : ℕ) (byte : UInt8)
  | memgetSafe (src n : ℕ) (ok : Bool)
  | memcpySafe (dst src n : ℕ) (ok : Bool)

def step (p : Process) : Event → Process
  | .store addr byte => { p with mem := Function.update p.mem addr byte }
  | .memgetSafe src n ok => (memgetSafe p src n ok).1
  | .memcpySafe dst src n ok => (memcpySafe p dst src n ok).1

end SystemsExperiments.NotMySegfault
