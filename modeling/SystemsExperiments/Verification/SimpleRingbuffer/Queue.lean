import SystemsExperiments.Model.SimpleRingbuffer.Ring
import SystemsExperiments.Verification.SimpleRingbuffer.Codec

/-! # The entries in the ring buffer

The ring buffer holds a queue of entries in circular storage. -/

namespace SystemsExperiments.SimpleRingbuffer

open Bytes Circular

/-- The entries `q` are in the ring buffer; the bytes `unwritten` are still missing. -/
structure Holding (rb : RingBuffer) (q : List RBIn) (unwritten : List UInt8) : Prop where
  size_lt : rb.size * 2 < userSpace
  queue : Queue rb.size rb.buffer rb.readPos rb.writePos (q.map RBIn.serialize) unwritten

/-- The bytes that the entries take up. -/
def used (q : List RBIn) : ℕ := (q.map RBIn.serialize).flatten.length

@[simp] theorem used_nil : used [] = 0 := rfl

@[simp] theorem used_cons (e : RBIn) (q : List RBIn) :
    used (e :: q) = e.serializedSize + used q := by
  simp [used, e.length_serialize]

@[simp] theorem used_append (q q' : List RBIn) : used (q ++ q') = used q + used q' := by
  simp [used]

theorem serializedSize_pos (e : RBIn) : 0 < e.serializedSize := by
  rw [e.serializedSize_eq]
  simp only [blockSize, sizeofSize]
  omega

theorem used_eq_zero_iff (q : List RBIn) : used q = 0 ↔ q = [] := by
  cases q with
  | nil => simp
  | cons e q =>
      have hpos := serializedSize_pos e
      simp only [used_cons, reduceCtorEq, iff_false]
      omega

namespace Holding

variable {rb : RingBuffer} {e : RBIn} {q : List RBIn} {unwritten : List UInt8}

theorem create {size : ℕ} (h : RingBuffer.create size = some rb) : Holding rb [] [] := by
  rw [RingBuffer.create] at h
  split at h
  next hsize =>
    cases h
    exact ⟨hsize.2, Queue.empty hsize.1 _⟩
  next => cases h

theorem room (h : Holding rb q unwritten) : used q < rb.size := h.queue.room

/-- The positions as numbers, and how far the queue reaches between them. -/
theorem positions (h : Holding rb q unwritten) :
    rb.size < 2 ^ 62 ∧ rb.readPos < rb.size ∧ rb.writePos < rb.size ∧
      used q = if rb.readPos ≤ rb.writePos then rb.writePos - rb.readPos
        else rb.writePos + rb.size - rb.readPos := by
  have hsize := h.size_lt
  simp only [userSpace] at hsize
  exact ⟨by omega, h.queue.readPos_lt, h.queue.writePos_lt, h.queue.used_eq⟩

theorem readPos_eq_writePos_iff (h : Holding rb q unwritten) :
    rb.readPos = rb.writePos ↔ q = [] := by
  rw [h.queue.readPos_eq_writePos_iff, ← List.length_eq_zero_iff, ← used_eq_zero_iff]
  rfl

/-- The sums in `write` do not leave the range of `size_t`. -/
theorem usize_nextWrite (h : Holding rb q unwritten) (e : RBIn) :
    usize (rb.writePos + e.serializedSize) = rb.writePos + e.serializedSize := by
  obtain ⟨hsize, -, hw, -⟩ := h.positions
  have hlt := e.serializedSize_lt
  simp only [userSpace] at hlt
  exact usize_eq (by omega)

theorem usize_limit (h : Holding rb q unwritten) :
    usize (rb.readPos + rb.size) = rb.readPos + rb.size := by
  obtain ⟨hsize, hr, -, -⟩ := h.positions
  exact usize_eq (by omega)

/-- The test of `write` is right where the writer has not wrapped around before the reader. -/
theorem room_of_test (h : Holding rb q unwritten)
    (htest : rb.writePos + e.serializedSize < rb.readPos + rb.size)
    (hfit : rb.writePos < rb.readPos → rb.writePos + e.serializedSize < rb.readPos) :
    used q + e.serializedSize < rb.size := by
  obtain ⟨-, hr, hw, hused⟩ := h.positions
  split at hused
  · omega
  · have := hfit (by omega)
    omega

/-- What fits passes the test. -/
theorem test_of_room (h : Holding rb q unwritten)
    (hroom : used q + e.serializedSize < rb.size) :
    rb.writePos + e.serializedSize < rb.readPos + rb.size := by
  obtain ⟨-, hr, hw, hused⟩ := h.positions
  split at hused
  · omega
  · omega

/-! ## Operations -/

theorem reserve (h : Holding rb q []) (hroom : used q + e.serializedSize < rb.size) :
    Holding { rb with writePos := (rb.writePos + e.serializedSize) % rb.size } (q ++ [e])
      e.serialize := by
  refine ⟨h.size_lt, ?_⟩
  rw [List.map_append, ← e.length_serialize]
  apply h.queue.reserve
  rwa [e.length_serialize]

/-- The oldest entry is in the memory that starts at the read position, as soon as what is
unwritten belongs to later entries. -/
theorem extends_view (h : Holding rb (e :: q) unwritten) (hlast : unwritten.length ≤ used q) :
    Extends (only e.serialize) (rb.view rb.readPos) := by
  obtain ⟨later, -, hstored⟩ := h.queue.stored_cons hlast
  obtain ⟨hsize, hr, -, -⟩ := h.positions
  have hroom := h.room
  rw [used_cons, ← e.length_serialize] at hroom
  apply extends_of_holds
  intro i hi
  have haddr : usize (rb.readPos + (0 + i)) = rb.readPos + i := by
    rw [Nat.zero_add]
    exact usize_eq (by omega)
  simp only [RingBuffer.view, haddr]
  rw [if_pos (by omega), hstored.left i hi]

theorem pop (h : Holding rb (e :: q) unwritten) (hlast : unwritten.length ≤ used q) :
    Holding { rb with readPos := usize (rb.readPos + e.serializedSize) % rb.size } q unwritten := by
  obtain ⟨hsize, hr, -, -⟩ := h.positions
  have hroom := h.room
  rw [used_cons] at hroom
  refine ⟨h.size_lt, ?_⟩
  rw [usize_eq (by omega), ← e.length_serialize]
  exact h.queue.pop hlast

end Holding

end SystemsExperiments.SimpleRingbuffer
