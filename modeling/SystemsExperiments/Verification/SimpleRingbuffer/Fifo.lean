import SystemsExperiments.Verification.SimpleRingbuffer.Queue

/-! # First in, first out

Calls made one after another treat the ring buffer as a queue as long as no accepted write
runs from behind the reader into the unread entries. The free-space test lets such a write
pass, since it always grants the writer a whole turn beyond the reader. -/

namespace SystemsExperiments.SimpleRingbuffer

open Bytes Circular

/-! ## The queue of accepted entries -/

/-- The accepted entries that are not read yet, after a call with this outcome. -/
def unreadAfter (q : List Entry) : Call → Outcome → List Entry
  | .write entry, .wrote true => q ++ [entry]
  | .read, .delivered _ => q.tail
  | _, _ => q

/-- What a call may do while `q` is unread: a write that does not fit is refused and changes
nothing, a read delivers the oldest entry, and it finds nothing only where nothing is left. -/
def QueueCall (rb : RingBuffer) (q : List Entry) (c : Call) : Prop :=
  match c, call rb c with
  | .write entry, (rb', .wrote accepted) =>
      rb.size < used (q.map Entry.input) + entry.input.serializedSize →
        accepted = false ∧ rb' = rb
  | .read, (_, .delivered calls) => ∃ entry rest, q = entry :: rest ∧ calls = entry.pushes
  | .read, (_, .nothing) => q = []
  | _, _ => False

def QueueRun (rb : RingBuffer) (q : List Entry) : List Call → Prop
  | [] => True
  | c :: rest =>
      QueueCall rb q c ∧ QueueRun (call rb c).1 (unreadAfter q c (call rb c).2) rest

/-- A write that passes the free-space test has NUL-free strings, and where the writer has
wrapped around it ends before the reader. -/
def Admissible (rb : RingBuffer) : Call → Prop
  | .write entry =>
      rb.writePos + entry.input.serializedSize < rb.readPos + rb.size →
        NulFree entry.pushes ∧
          (rb.writePos < rb.readPos →
            rb.writePos + entry.input.serializedSize < rb.readPos)
  | .read => True

def AdmissibleRun (rb : RingBuffer) : List Call → Prop
  | [] => True
  | c :: rest => Admissible rb c ∧ AdmissibleRun (call rb c).1 rest

/-! ## The two calls -/

/-- With nobody else at work the first compare-exchange succeeds. -/
theorem write_eq (rb : RingBuffer) (e : RBIn) :
    rb.write e =
      if usize (rb.writePos + e.serializedSize) < usize (rb.readPos + rb.size) then
        ({ rb with
            writePos := usize (rb.writePos + e.serializedSize) % rb.size
            buffer := store rb.size rb.buffer rb.writePos e.serialize }, true)
      else (rb, false) := by
  by_cases htest : usize (rb.writePos + e.serializedSize) < usize (rb.readPos + rb.size)
  · simp [RingBuffer.write, RingBuffer.reserve, RingBuffer.compareExchange, htest]
  · simp [RingBuffer.write, RingBuffer.reserve, htest]

variable {rb : RingBuffer} {e : RBIn} {q : List RBIn}

/-- A write that fits is accepted and appends its entry. -/
theorem Holding.write (h : Holding rb q []) (hroom : used q + e.serializedSize < rb.size) :
    (rb.write e).2 = true ∧ Holding (rb.write e).1 (q ++ [e]) [] := by
  rw [write_eq, h.usize_nextWrite, h.usize_limit, if_pos (h.test_of_room hroom)]
  refine ⟨rfl, h.size_lt, ?_⟩
  have hstore := (h.reserve hroom).queue.store
  have hpos : (List.map RBIn.serialize (q ++ [e])).flatten.length - e.serialize.length =
      used q := by simp [used]
  rw [hpos, ← store_mod, used, ← h.queue.writePos_eq] at hstore
  simp only at hstore ⊢
  exact hstore

theorem Holding.write_refused (h : Holding rb q [])
    (htest : ¬ rb.writePos + e.serializedSize < rb.readPos + rb.size) :
    rb.write e = (rb, false) := by
  rw [write_eq, h.usize_nextWrite, h.usize_limit, if_neg htest]

theorem Holding.read_nil (h : Holding rb [] []) : rb.read = some (rb, none) := by
  rw [RingBuffer.read, if_pos (h.readPos_eq_writePos_iff.mpr rfl)]

/-- A read delivers the oldest entry and takes it out. -/
theorem Holding.read_cons {entry : Entry} (h : Holding rb (entry.input :: q) [])
    (hnul : NulFree entry.pushes) :
    let rb' := { rb with readPos := usize (rb.readPos + entry.input.serializedSize) % rb.size }
    rb.read = some (rb', some ⟨entry.input.serializedSize, entry.values, entry.pushes⟩) ∧
      Holding rb' q [] := by
  have hne : rb.readPos ≠ rb.writePos := by simp [h.readPos_eq_writePos_iff]
  have hout := Reader.run_mono (h.extends_view (Nat.zero_le _))
    (run_deserialize entry.built hnul (holds_only _))
  refine ⟨?_, h.pop (Nat.zero_le _)⟩
  rw [RingBuffer.read, if_neg hne, hout]
  rfl

/-! ## Runs -/

/-- What holds before every call: the unread entries are in the ring buffer, whole. -/
structure QueueInv (rb : RingBuffer) (q : List Entry) : Prop where
  holding : Holding rb (q.map Entry.input) []
  nulFree : ∀ entry ∈ q, NulFree entry.pushes

theorem queueCall_write {q : List Entry} {entry : Entry} (h : QueueInv rb q)
    (hadm : Admissible rb (.write entry)) :
    QueueCall rb q (.write entry) ∧
      QueueInv (call rb (.write entry)).1
        (unreadAfter q (.write entry) (call rb (.write entry)).2) := by
  obtain ⟨hholding, hnul⟩ := h
  by_cases htest : rb.writePos + entry.input.serializedSize < rb.readPos + rb.size
  · obtain ⟨hentry, hfit⟩ := hadm htest
    have hroom := hholding.room_of_test htest hfit
    obtain ⟨htrue, hnext⟩ := hholding.write hroom
    have hqueue : unreadAfter q (.write entry) (call rb (.write entry)).2 = q ++ [entry] := by
      simp only [call, htrue, unreadAfter]
    rw [hqueue]
    refine ⟨?_, ?_, ?_⟩
    · intro hfull
      omega
    · rw [List.map_append]
      exact hnext
    · intro entry' hmem
      rcases List.mem_append.mp hmem with hold | hnew
      · exact hnul entry' hold
      · rw [List.mem_singleton.mp hnew]
        exact hentry
  · have hrefused := hholding.write_refused htest
    simp only [QueueCall, call, hrefused, unreadAfter, and_self, implies_true, true_and]
    exact ⟨hholding, hnul⟩

theorem queueCall_read {q : List Entry} (h : QueueInv rb q) :
    QueueCall rb q .read ∧
      QueueInv (call rb .read).1 (unreadAfter q .read (call rb .read).2) := by
  obtain ⟨hholding, hnul⟩ := h
  cases q with
  | nil =>
      simp only [QueueCall, call, hholding.read_nil, unreadAfter, true_and]
      exact ⟨hholding, hnul⟩
  | cons entry q =>
      rw [List.map_cons] at hholding
      obtain ⟨hread, hnext⟩ := hholding.read_cons (hnul entry List.mem_cons_self)
      simp only [QueueCall, call, hread, unreadAfter, List.tail_cons]
      refine ⟨⟨entry, q, rfl, rfl⟩, hnext, ?_⟩
      intro entry' hmem
      exact hnul entry' (List.mem_cons_of_mem entry hmem)

theorem queueRun {q : List Entry} (h : QueueInv rb q) (calls : List Call)
    (hadm : AdmissibleRun rb calls) : QueueRun rb q calls := by
  induction calls generalizing rb q with
  | nil => trivial
  | cons c calls ih =>
      have hcall : QueueCall rb q c ∧
          QueueInv (call rb c).1 (unreadAfter q c (call rb c).2) := by
        cases c with
        | write entry => exact queueCall_write h hadm.1
        | read => exact queueCall_read h
      exact ⟨hcall.1, ih hcall.2 hadm.2⟩

/-- Every admissible sequence of calls on a new ring buffer is one of a queue. -/
theorem ringBuffer_fifo (size : ℕ) (rb : RingBuffer) (hnew : RingBuffer.create size = some rb)
    (calls : List Call) (hadm : AdmissibleRun rb calls) : QueueRun rb [] calls := by
  apply queueRun _ calls hadm
  refine ⟨Holding.create hnew, ?_⟩
  intro entry hmem
  simp at hmem

theorem blockSize_values_lt {values : List Int64} (h : values.length < 2 ^ 32) :
    blockSize [] StringBuffer.empty StringBuffer.empty values < userSpace := by
  simp only [blockSize, StringBuffer.serializedSize, StringBuffer.empty, sizeofSize, userSpace,
    List.length_nil]
  omega

theorem build_values {values : List Int64}
    (h : blockSize [] StringBuffer.empty StringBuffer.empty values < userSpace) :
    RBIn.build values [] = some ⟨[], StringBuffer.empty, StringBuffer.empty, values, h⟩ := by
  simp [RBIn.build, RBIn.alloc, h]

/-- An entry with values alone. -/
def valuesOnly (values : List Int64) (h : values.length < 2 ^ 32) : Entry where
  values := values
  pushes := []
  input := ⟨[], StringBuffer.empty, StringBuffer.empty, values, blockSize_values_lt h⟩
  built := build_values (blockSize_values_lt h)

/-- Two entries are written, the second while the first is unread, and read in order. -/
theorem ringBuffer_fifo_two_entries :
    ∃ rb, RingBuffer.create 1024 = some rb ∧
      QueueRun rb [] [.write (valuesOnly [1] (by decide)), .write (valuesOnly [] (by decide)),
        .read, .read, .read] := by
  refine ⟨_, rfl, ringBuffer_fifo 1024 _ rfl _ ⟨?_, ?_, trivial, trivial, trivial, trivial⟩⟩
  · intro _
    refine ⟨by decide, ?_⟩
    intro hlt
    simp at hlt
  · intro _
    refine ⟨by decide, ?_⟩
    intro hlt
    rw [call, write_eq] at hlt
    split at hlt
    · simp at hlt
    · simp at hlt

/-- A small entry, read again, and one that nearly fills the storage: the next write passes
the test though it does not fit. -/
theorem ringBuffer_fifo_fails_after_wrap :
    ¬ ∀ (size : ℕ) (rb : RingBuffer), RingBuffer.create size = some rb →
      ∀ calls : List Call, QueueRun rb [] calls := by
  intro h
  obtain ⟨-, -, -, hlast, -⟩ := h 4096 _ rfl
    [.write (valuesOnly [] (by decide)), .read,
      .write (valuesOnly (List.replicate 504 0) (by rw [List.length_replicate]; decide)),
      .write (valuesOnly [] (by decide))]
  have hrefused := (hlast (by decide +kernel)).1
  revert hrefused
  decide +kernel

end SystemsExperiments.SimpleRingbuffer
