import SystemsExperiments.Shared.Printing

/-! # Random messages

The messages of the fork test: a heading with the process and the time, and some words. -/

namespace SystemsExperiments.Forks

open Printing

/-- A store past the end of the buffer. -/
inductive Fault where
  | buffer
  deriving DecidableEq

def wordList : List (List UInt8) :=
  ["atomic", "memory", "mapped", "log", "concurrent", "process", "thread", "synchronization",
    "lock", "append", "only", "ftruncate", "mmap", "file", "metadata", "chunk", "buffer", "ring",
    "head", "tail", "write", "read"].map literal

def numWords : ℕ := 22

/-- The difference of two values of type `size_t`. -/
def sizeSub (a b : ℕ) : ℕ := (a + 2 ^ 64 - b) % 2 ^ 64

def store (buffer : List UInt8) (pos : ℕ) (bytes : List UInt8) : Except Fault (List UInt8) :=
  if pos + bytes.length ≤ buffer.length then
    .ok (buffer.take pos ++ bytes ++ buffer.drop (pos + bytes.length))
  else .error .buffer

/-- `pos += snprintf(buffer + pos, max_size - pos, …)` -/
def printAt (maxSize : ℕ) (buffer : List UInt8) (pos : ℕ) (text : List UInt8) :
    Except Fault (List UInt8 × ℕ) := do
  let printed := snprintf (sizeSub maxSize pos) text
  let buffer ← store buffer pos printed.1
  return (buffer, pos + printed.2)

def randomWord (r : ℕ) : List UInt8 := wordList.getD (r % numWords) []

/-- The loop over the words, with the number of words that are left; `rand i` is what the call
number `i` of `rand` returns. -/
def addWords (maxSize : ℕ) (rand : ℕ → ℕ) :
    ℕ → ℕ → List UInt8 → ℕ → Except Fault (List UInt8 × ℕ)
  | 0, _, buffer, pos => .ok (buffer, pos)
  | left + 1, i, buffer, pos =>
      if pos < sizeSub maxSize 1 then do
        let (buffer, pos) ← printAt maxSize buffer pos (randomWord (rand i) ++ literal " ")
        addWords maxSize rand left (i + 1) buffer pos
      else .ok (buffer, pos)

def heading (pid time : ℕ) : List UInt8 :=
  literal "[PID " ++ decimal pid ++ literal "] [" ++ decimal time ++ literal "] "

/-- The buffer that is left behind, for a process number and a time that are not negative. -/
def generateRandomMessage (pid time : ℕ) (rand : ℕ → ℕ) (buffer : List UInt8) (maxSize : ℕ) :
    Except Fault (List UInt8) := do
  let wordCount := 3 + rand 0 % 8
  let (buffer, pos) ← printAt maxSize buffer 0 (heading pid time)
  let (buffer, pos) ← addWords maxSize rand wordCount 1 buffer pos
  store buffer pos [0]

end SystemsExperiments.Forks
