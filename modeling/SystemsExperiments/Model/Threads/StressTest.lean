import SystemsExperiments.Shared.Printing
import SystemsExperiments.Model.Mmlog.Client
import SystemsExperiments.Model.Threads.ValidateLog

/-! # The threaded stress test

Threads open one log, each with a handle of its own, and insert numbered messages. The numbers
come from one counter. After all have ended `main` opens the log once more, trims it and has
it validated. -/

namespace SystemsExperiments.Threads

open Interleaving Mmlog Printing

def chunkSize : ℕ := 4096

def numChunks : ℕ := 16

/-- `NUM_THREADS` and `MESSAGES_PER_THREAD`, with as many messages of at most 160 bytes as a log
with offsets of 32 bits takes. -/
structure Sizes where
  threads : ℕ
  messages : ℕ
  threads_pos : 0 < threads
  messages_pos : 0 < messages
  fits : threads * (messages * 160) + chunkSize < 2 ^ 32

/-- The sizes in the source. -/
def Sizes.source : Sizes := ⟨numThreads, 500, by decide, by decide, by decide⟩

/-- `thread_args_t` without the file name. -/
structure ThreadArgs where
  threadNum : ℕ
  messagesWritten : ℕ
  success : Bool

/-- The local variables of the threads; `returned` once `thread_worker` has returned, and
`trimmed` once `main` has called `mmlog_trim`. -/
inductive Role where
  | worker (args : ThreadArgs) (returned : Bool)
  | main (trimmed : Bool)

/-- What is printed with `"%d,%d,aaa…\n"`. -/
def messageText (threadNum seqNum : ℕ) : List UInt8 :=
  decimal threadNum ++ [comma] ++ decimal seqNum ++ [comma] ++ List.replicate 129 97 ++ [newline]

/-- The bytes at `message` and the length passed to `mmlog_insert`. -/
def message (threadNum seqNum : ℕ) : Payload :=
  let printed := snprintf maxMessageSize (messageText threadNum seqNum)
  ⟨printed.2, fun i => printed.1.getD i 0⟩

/-- The head of the loop in `thread_worker`, whose `i` is the number of messages written. As
long as the counter fits an `int` it is a natural number. -/
def nextMessage (k : Sizes) (globalSeqCounter : ℕ) (args : ThreadArgs) : ℕ × Role × List Call :=
  if args.messagesWritten < k.messages then
    (globalSeqCounter + 1, .worker args false,
      [.insert (some args.threadNum) (some (message args.threadNum globalSeqCounter))])
  else (globalSeqCounter, .worker { args with success := true } true, [])

/-- `thread_worker` behind its `mmlog_open`, up to its next call of `mmlog_insert`. -/
def threadWorker (k : Sizes) (globalSeqCounter : ℕ) (args : ThreadArgs)
    (results : List (Call × Value)) : ℕ × Role × List Call :=
  match results.getLast? with
  | none => nextMessage k globalSeqCounter args
  | some (_, v) =>
      if v = .bool true then
        nextMessage k globalSeqCounter
          { args with messagesWritten := args.messagesWritten + 1 }
      else (globalSeqCounter, .worker { args with success := false } true, [])

/-- The programs of the threads; thread number `k.threads` is `main`. -/
def stressClient (k : Sizes) : Client ℕ Role Unit
  | counter, .worker args false, results, _ => threadWorker k counter args results
  | counter, .worker args true, _, _ => (counter, .worker args true, [])
  | counter, .main false, _, _ => (counter, .main true, [.trim (some k.threads)])
  | counter, .main true, _, _ => (counter, .main true, [])

def startRole (k : Sizes) (t : ℕ) : Role :=
  if t < k.threads then .worker ⟨t, 0, false⟩ false else .main false

abbrev StressSystem := Sys (Store ℕ) (Process Role)

/-- The state of a run in a directory without a metadata file, after `main` has removed the
data file. -/
def stressTest (k : Sizes) (sched : List (ℕ × (Outcome × Unit))) : StressSystem :=
  started (some "thread_test.log") (stressClient k)
    (fun _ => ⟨chunkSize, numChunks⟩) none 0 (startRole k) sched

/-- The state of a run in a directory in which an earlier run has left its metadata file:
`main` removes the data file only. -/
def stressTestAgain (k : Sizes) (left : LogMetadata) (sched : List (ℕ × (Outcome × Unit))) :
    StressSystem :=
  let fresh := unstarted (fun _ => ⟨chunkSize, numChunks⟩) none 0 (startRole k)
  run (processStep (some "thread_test.log") (stressClient k))
    { fresh with shared := { fresh.shared with files := ⟨.sized left, none⟩ } } sched

namespace Role

def success : Role → Bool
  | .worker args _ => args.success
  | .main _ => false

def messagesWritten : Role → ℕ
  | .worker args _ => args.messagesWritten
  | .main _ => 0

end Role

/-- `total_messages`, summed up by `main` over the threads that were successful. -/
def totalMessages (k : Sizes) (s : StressSystem) : ℕ :=
  ((List.range k.threads).map fun t =>
    if (s.thread t).vars.success then (s.thread t).vars.messagesWritten else 0).sum

/-- `validation_result` in `main`. -/
def validationResult (k : Sizes) (allocates : Bool) (store : ℤ → ℤ) (s : StressSystem) :
    Option Bool :=
  validateLog ⟨s.shared.files.data.map fun f => f.content f.len, allocates, store⟩
    (totalMessages k s)

end SystemsExperiments.Threads
