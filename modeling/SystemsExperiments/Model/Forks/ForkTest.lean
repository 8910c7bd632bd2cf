import SystemsExperiments.Model.Forks.RandomMessage
import SystemsExperiments.Model.Mmlog.Client
import SystemsExperiments.Model.Threads.ValidateLog

/-! # The fork test

Processes open one log, each with a handle of its own, and insert random messages. After all
have exited `main` opens the log once more, trims it and counts its lines. -/

namespace SystemsExperiments.Forks

open Interleaving Mmlog

def numProcesses : ℕ := 8

def messagesPerProcess : ℕ := 1000

def maxMessageSize : ℕ := 512

def chunkSize : ℕ := 4 * 4096

def numChunks : ℕ := 16

/-- `NUM_PROCESSES` and `MESSAGES_PER_PROCESS`, with as many messages of at most 200 bytes as a
log with offsets of 32 bits takes. -/
structure Sizes where
  processes : ℕ
  messages : ℕ
  processes_pos : 0 < processes
  messages_pos : 0 < messages
  fits : processes * (messages * 200) + chunkSize < 2 ^ 32

/-- The sizes in the source. -/
def Sizes.source : Sizes :=
  ⟨numProcesses, messagesPerProcess, by decide, by decide, by decide⟩

/-- What a round of the loop in `child_process` finds: the process number, the time, the numbers
that `rand` returns, and what is in the buffer. -/
structure Moment where
  pid : ℕ
  time : ℕ
  rand : ℕ → ℕ
  buffer : List UInt8
  pid_lt : pid < 2 ^ 31
  time_lt : time < 2 ^ 63
  length_buffer : buffer.length = maxMessageSize

/-- The bytes at `message` and the length passed to `mmlog_insert`. -/
def newMessage (d : Moment) : Except Fault Payload := do
  let message ← generateRandomMessage d.pid d.time d.rand d.buffer maxMessageSize
  let msgLen := (message.takeWhile fun c => c ≠ 0).length
  let message ← store message msgLen [10]
  let message ← store message (msgLen + 1) [0]
  return ⟨msgLen + 1, fun i => message.getD i 0⟩

/-- The local variables of the processes; `exited` once `child_process` has called `exit`, with
whether it exits with 0, and `trimmed` once `main` has called `mmlog_trim`. -/
inductive Role where
  | child (processNum written : ℕ) (exited : Option Bool)
  | main (trimmed : Bool)

/-- The head of the loop in `child_process`; `written` is its `i`. -/
def nextMessage (k : Sizes) (processNum written : ℕ) (d : Moment) : Role × List Call :=
  if written < k.messages then
    match newMessage d with
    | .ok message => (.child processNum written none, [.insert (some processNum) (some message)])
    | .error _ => (.child processNum written (some false), [])
  else (.child processNum written (some true), [])

/-- `child_process` behind its `mmlog_open`, up to its next call of `mmlog_insert`. -/
def childProcess (k : Sizes) (processNum written : ℕ) (results : List (Call × Value))
    (d : Moment) : Role × List Call :=
  match results.getLast? with
  | none => nextMessage k processNum written d
  | some (_, v) =>
      if v = .bool true then nextMessage k processNum (written + 1) d
      else (.child processNum written (some false), [])

/-- The programs of the processes; process number `k.processes` is `main`. -/
def forkClient (k : Sizes) : Client Unit Role Moment
  | _, .child processNum written none, results, d =>
      ((), childProcess k processNum written results d)
  | _, .child processNum written (some ok), _, _ => ((), .child processNum written (some ok), [])
  | _, .main false, _, _ => ((), .main true, [.trim (some k.processes)])
  | _, .main true, _, _ => ((), .main true, [])

def startRole (k : Sizes) (t : ℕ) : Role :=
  if t < k.processes then .child t 0 none else .main false

abbrev ForkSystem := Sys (Store Unit) (Process Role)

/-- The state of a run in a directory without a metadata file, after `main` has removed the
data file. -/
def forkTest (k : Sizes) (sched : List (ℕ × (Outcome × Moment))) : ForkSystem :=
  started (some "fork_test.log") (forkClient k) (fun _ => ⟨chunkSize, numChunks⟩) none ()
    (startRole k) sched

/-- `WIFEXITED(status) && WEXITSTATUS(status) == 0` -/
def Role.succeeded : Role → Bool
  | .child _ _ exited => exited = some true
  | .main _ => false

/-- `strstr(buffer, "[PID ") != NULL` -/
def hasHeading (buffer : List UInt8) : Bool :=
  Printing.literal "[PID " <:+: buffer.takeWhile fun c => c ≠ 0

/-- What is returned, and the lines that are reported as invalid. The buffer for the lines is as
large as the one of the threaded test. -/
def validateLog (file : Option (List UInt8)) (expectedTotalMessages : ℕ) :
    Bool × List (List UInt8) :=
  match file with
  | none => (false, [])
  | some content =>
      ((Threads.fgetsAll content).length = expectedTotalMessages,
        (Threads.fgetsAll content).filter fun buffer => !hasHeading buffer)

/-- `validation_result` in `main`, and the lines that are reported. -/
def validationResult (k : Sizes) (s : ForkSystem) : Bool × List (List UInt8) :=
  validateLog (s.shared.files.data.map fun f => f.content f.len) (k.processes * k.messages)

end SystemsExperiments.Forks
