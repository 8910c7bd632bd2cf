import Mathlib.Algebra.Order.Ring.Nat
import Mathlib.Data.UInt

/-! # The user of a process

`uid_from_pid` looks for the first `Uid` in the status of a process and copies the first number
behind it. All of its arrays are of a fixed size. -/

namespace SystemsExperiments.GetpwuidR

def bytesOf (text : List Char) : List UInt8 := text.map fun c => UInt8.ofNat c.toNat

/-- An access outside an array. -/
inductive Fault where
  | path
  | buf
  | uid
  deriving DecidableEq

/-- `memcpy` to an index of an array. -/
def memcpy (fault : Fault) (array : List UInt8) (index : ℕ) (bytes : List UInt8) :
    Except Fault (List UInt8) :=
  if index + bytes.length ≤ array.length then
    .ok (array.take index ++ bytes ++ array.drop (index + bytes.length))
  else .error fault

/-! ## The path -/

/-- `sizeof("/proc//stat") + sizeof("32768")` -/
def pathSize : ℕ := 12 + 6

/-- The array with the path in it; `pid` is a string without its NUL. -/
def procpathFromPid (pid : List UInt8) : Except Fault (List UInt8) := do
  let path := List.replicate pathSize 32
  let path ← memcpy .path path 0 (bytesOf ['/', 'p', 'r', 'o', 'c', '/'] ++ [0])
  let path ← memcpy .path path 6 pid
  memcpy .path path (6 + pid.length) (bytesOf ['/', 's', 't', 'a', 't', 'u', 's'] ++ [0])

/-! ## The status -/

def bufSize : ℕ := 4096

/-- What becomes of `open` and `read`, which reads no more than it is asked for. -/
inductive Status where
  | notOpened
  | notRead
  | content (bytes : List UInt8) (length_le : bytes.length ≤ bufSize)
  deriving DecidableEq

/-- `sizeof("18446744073709551616")` -/
def uidSize : ℕ := 21

/-- The result of `read`, which is stored in a `size_t`. -/
def Status.size : Status → UInt64
  | .content bytes _ => UInt64.ofNat bytes.length
  | _ => -1

/-- The buffer after `read`. -/
def Status.buffer : Status → List UInt8
  | .content bytes _ => bytes ++ List.replicate (bufSize - bytes.length) 0
  | _ => List.replicate bufSize 0

/-- `buf[0]`; a pointer is what is left of the array behind it. -/
def byteAt : List UInt8 → Except Fault UInt8
  | [] => .error .buf
  | b :: _ => .ok b

/-- `buf[0] == 'U' && buf[1] == 'i' && buf[2] == 'd'` -/
def atUid (buf : List UInt8) : Except Fault Bool := do
  if (← byteAt buf) ≠ 85 then return false
  if (← byteAt (buf.drop 1)) ≠ 105 then return false
  return (← byteAt (buf.drop 2)) = 100

/-- The first loop, which ends with the number of its tests and the pointer. -/
def findUid (limit : ℕ) : ℕ → List UInt8 → Except Fault (ℕ × List UInt8)
  | n, [] => if n < limit then .error .buf else .ok (n + 1, [])
  | n, b :: rest =>
      if n < limit then do
        if ← atUid (b :: rest) then return (n + 1, b :: rest)
        findUid limit (n + 1) rest
      else .ok (n + 1, b :: rest)

def isDigit (b : UInt8) : Bool := 48 ≤ b ∧ b ≤ 57

/-- The other two loops: past all bytes that are as `p` says. -/
def skipWhile (p : UInt8 → Bool) : List UInt8 → Except Fault (List UInt8)
  | [] => .error .buf
  | b :: rest => if p b then skipWhile p rest else .ok (b :: rest)

/-- The first number from the pointer on, in the array `uid`. -/
def copyNumber (uid buf : List UInt8) : Except Fault (List UInt8) := do
  let buf ← skipWhile (fun b => !isDigit b) buf
  let p ← skipWhile isDigit buf
  memcpy .uid uid 0 (buf.take (buf.length - p.length))

/-- The array that is returned. -/
def uidFromPid (pid : List UInt8) (status : Status) : Except Fault (Option (List UInt8)) := do
  let _ ← procpathFromPid pid
  let uid := List.replicate uidSize 0
  if status = .notOpened then return none
  let sz := status.size
  if sz ≤ 0 then return none
  let (n, buf) ← findUid (sz + 5).toNat 0 status.buffer
  if n ≥ (sz + 5).toNat then return none
  return some (← copyNumber uid buf)

end SystemsExperiments.GetpwuidR
