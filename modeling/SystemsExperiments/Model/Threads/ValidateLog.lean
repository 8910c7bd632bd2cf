import Mathlib.Algebra.Order.Ring.Int
import Mathlib.Data.List.Basic

/-! # The validator of the threaded stress test

`validate_log` reads the log line by line and judges it by the number of its lines and by the
sequence numbers in them. -/

namespace SystemsExperiments.Threads

def numThreads : ℕ := 16

def maxMessageSize : ℕ := 512

def newline : UInt8 := 10

/-! ## `fgets` -/

/-- The characters up to a newline, at most so many, and what follows them. -/
def takeLine : ℕ → List UInt8 → List UInt8 × List UInt8
  | 0, s => ([], s)
  | _ + 1, [] => ([], [])
  | n + 1, c :: s =>
      if c = newline then ([c], s)
      else (c :: (takeLine n s).1, (takeLine n s).2)

theorem length_takeLine (n : ℕ) (s : List UInt8) :
    (takeLine n s).1.length + (takeLine n s).2.length = s.length := by
  fun_induction takeLine n s with
  | case1 s => simp
  | case2 n => rfl
  | case3 n s => simp [Nat.add_comm]
  | case4 n c s hc ih =>
      have hcons := congrArg (· + 1) ih
      simp only [List.length_cons]
      omega

theorem takeLine_ne_nil {n : ℕ} (hn : 0 < n) (c : UInt8) (s : List UInt8) :
    (takeLine n (c :: s)).1 ≠ [] := by
  cases n with
  | zero => cases hn
  | succ n =>
      rw [takeLine]
      split
      · exact List.cons_ne_nil _ _
      · exact List.cons_ne_nil _ _

theorem length_rest_lt {n : ℕ} (hn : 0 < n) (c : UInt8) (s : List UInt8) :
    (takeLine n (c :: s)).2.length < (c :: s).length := by
  have hlen := length_takeLine n (c :: s)
  have hpos := List.length_pos_iff.mpr (takeLine_ne_nil hn c s)
  omega

/-- What the calls `fgets(buffer, sizeof(buffer), file)` put into the buffer one after the
other, until the end of the file. -/
def fgetsAll : List UInt8 → List (List UInt8)
  | [] => []
  | c :: s =>
      (takeLine (maxMessageSize - 1) (c :: s)).1 ::
        fgetsAll (takeLine (maxMessageSize - 1) (c :: s)).2
termination_by s => s.length
decreasing_by exact length_rest_lt (Nat.succ_pos 510) c s

/-! ## `sscanf` -/

def isSpace (c : UInt8) : Bool := c = 32 ∨ (9 ≤ c ∧ c ≤ 13)

def isDigit (c : UInt8) : Bool := 48 ≤ c ∧ c ≤ 57

def comma : UInt8 := 44

/-- The sign of a number and what follows it. -/
def scanSign : List UInt8 → ℤ × List UInt8
  | [] => (1, [])
  | c :: s => if c = 45 then (-1, s) else if c = 43 then (1, s) else (1, c :: s)

/-- The number that `%d` reads, as it is written, and what follows it. -/
def scanNumber (s : List UInt8) : Option (ℤ × List UInt8) :=
  let signed := scanSign (s.dropWhile isSpace)
  let digits := signed.2.takeWhile isDigit
  if digits = [] then none
  else
    let value : ℕ := digits.foldl (fun n d => 10 * n + (d.toNat - 48)) 0
    some (signed.1 * value, signed.2.dropWhile isDigit)

/-- The two numbers of `%d,%d` in a string, as they are written. -/
def scanPair (buffer : List UInt8) : Option (ℤ × ℤ) := do
  let first ← scanNumber (buffer.takeWhile fun c => c ≠ 0)
  match first.2 with
  | [] => none
  | c :: rest =>
      if c = comma then do
        let second ← scanNumber rest
        return (first.1, second.1)
      else none

/-- `sscanf(buffer, "%d,%d", &thread_id, &seq_num) == 2`, with the numbers that it stores. -/
def sscanf (store : ℤ → ℤ) (buffer : List UInt8) : Option (ℤ × ℤ) :=
  (scanPair buffer).map fun pair => (store pair.1, store pair.2)

/-! ## `validate_log` -/

structure ValidateState where
  lineCount : ℕ
  threadMessageCounts : List ℕ
  seenSequences : List Bool
  duplicateSequences : ℕ
  maxSequence : ℤ

/-- The sequence number of a line is recorded, if it is in range. -/
def recordSequence (expected : ℤ) (st : ValidateState) (seqNum : ℤ) : ValidateState :=
  if 0 ≤ seqNum ∧ seqNum < expected then
    { st with
      duplicateSequences :=
        if st.seenSequences.getD seqNum.toNat false then st.duplicateSequences + 1
        else st.duplicateSequences
      seenSequences := st.seenSequences.set seqNum.toNat true
      maxSequence := if st.maxSequence < seqNum then seqNum else st.maxSequence }
  else st

/-- One turn of the loop; nothing is defined once `line_count` passes the largest `int`. -/
def validateLine (store : ℤ → ℤ) (expected : ℤ) (st : ValidateState) (buffer : List UInt8) :
    Option ValidateState :=
  if st.lineCount + 1 < 2 ^ 31 then
    let st := { st with lineCount := st.lineCount + 1 }
    match sscanf store buffer with
    | some (threadId, seqNum) =>
        let st :=
          if 0 ≤ threadId ∧ threadId < numThreads then
            { st with threadMessageCounts := st.threadMessageCounts.modify threadId.toNat (· + 1) }
          else st
        some (recordSequence expected st seqNum)
    | none => some st
  else none

/-- The world as `validate_log` finds it. -/
structure World where
  /-- What the file holds, if it can be opened. -/
  file : Option (List UInt8)
  /-- `calloc` finds the memory. -/
  allocates : Bool
  /-- What `%d` stores for a number. -/
  store : ℤ → ℤ

def startState (expected : ℤ) : ValidateState :=
  ⟨0, List.replicate numThreads 0, List.replicate expected.toNat false, 0, -1⟩

/-- The loop over the sequence numbers up to the largest. -/
def missingSequences (st : ValidateState) : ℕ :=
  (List.range (st.maxSequence + 1).toNat).countP fun i => !st.seenSequences.getD i false

def validateLog (world : World) (expected : ℤ) : Option Bool :=
  match world.file with
  | none => some false
  | some content =>
      if world.allocates then do
        let st ← (fgetsAll content).foldlM (validateLine world.store expected)
          (startState expected)
        return st.lineCount = expected ∧ st.duplicateSequences = 0 ∧ missingSequences st = 0
      else some false

end SystemsExperiments.Threads
