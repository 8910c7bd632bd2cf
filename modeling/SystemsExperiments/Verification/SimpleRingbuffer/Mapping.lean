import SystemsExperiments.Model.SimpleRingbuffer.Processes
import SystemsExperiments.Verification.SimpleRingbuffer.Codec

/-! # Nobody leaves the double mapping

Both positions are stored modulo the size, and the free-space test compares the end of an
entry with a read position that was in range whenever it was loaded. So an accepted entry ends
inside the second half of the mapping, however old the loaded positions are by then. -/

namespace SystemsExperiments.SimpleRingbuffer

open Interleaving

/-- What a writer has loaded or computed is in range. -/
def Pc.Inside (size : ℕ) : Pc → Prop
  | .loadRead _ _ savedWrite => savedWrite < size
  | .compareExchange e _ savedWrite _ => savedWrite + e.serializedSize ≤ size * 2
  | .serialize e savedWrite _ => savedWrite + e.serializedSize ≤ size * 2
  | _ => True

/-- The positions are in the first half of the mapping. -/
structure RingBuffer.InRange (size : ℕ) (rb : RingBuffer) : Prop where
  size_eq : rb.size = size
  size_pos : 0 < size
  size_lt : size * 2 < userSpace
  readPos_lt : rb.readPos < size
  writePos_lt : rb.writePos < size

theorem inRange_create {size : ℕ} {rb : RingBuffer} (h : RingBuffer.create size = some rb) :
    rb.InRange rb.size := by
  rw [RingBuffer.create] at h
  split at h
  next hsize =>
    cases h
    exact ⟨rfl, hsize.1, hsize.2, hsize.1, hsize.1⟩
  next => cases h

/-- The sums of the test stay below `2 ^ 64`, so the test bounds the end of the entry. -/
theorem end_le_of_test {size savedWrite : ℕ} {rb : RingBuffer} {e : RBIn} (h : rb.InRange size)
    (hsaved : savedWrite < size)
    (htest : usize (savedWrite + e.serializedSize) < usize (rb.readPos + rb.size)) :
    savedWrite + e.serializedSize ≤ size * 2 := by
  obtain ⟨hsize, -, hlt, hread, -⟩ := h
  have hentry := e.serializedSize_lt
  simp only [userSpace] at hlt hentry
  rw [usize_eq (by omega), usize_eq (by omega)] at htest
  omega

theorem next_inside {size : ℕ} {rb : RingBuffer} {pc : Pc} (h : rb.InRange size)
    (hpc : pc.Inside size) (c : Option RBIn) :
    (next rb pc c).1.InRange size ∧ (next rb pc c).2.Inside size := by
  cases pc with
  | writerIdle result =>
      cases c with
      | none => exact ⟨h, trivial⟩
      | some e => exact ⟨h, trivial⟩
  | loadWrite e tries => exact ⟨h, h.writePos_lt⟩
  | loadRead e tries savedWrite =>
      simp only [next]
      split
      next htest => exact ⟨h, end_le_of_test h hpc htest⟩
      next => exact ⟨h, trivial⟩
  | compareExchange e tries savedWrite nextWrite =>
      have hmod : nextWrite % rb.size < size := by
        rw [h.size_eq]
        exact Nat.mod_lt _ h.size_pos
      simp only [next, RingBuffer.compareExchange]
      by_cases hcas : rb.writePos = savedWrite
      · rw [if_pos hcas]
        exact ⟨⟨h.size_eq, h.size_pos, h.size_lt, h.readPos_lt, hmod⟩, hpc⟩
      · rw [if_neg hcas]
        simp only
        split
        · exact ⟨h, trivial⟩
        · exact ⟨h, trivial⟩
  | serialize e savedWrite written =>
      simp only [next]
      split
      · exact ⟨⟨h.size_eq, h.size_pos, h.size_lt, h.readPos_lt, h.writePos_lt⟩, hpc⟩
      · exact ⟨h, trivial⟩
  | readerIdle result => exact ⟨h, trivial⟩
  | loadWritePos readPos =>
      simp only [next]
      split
      · exact ⟨h, trivial⟩
      · exact ⟨h, trivial⟩
  | loadStart => exact ⟨h, trivial⟩
  | deserialize start rest =>
      cases rest with
      | done out => exact ⟨h, trivial⟩
      | fault => exact ⟨h, trivial⟩
      | read addr k => exact ⟨h, trivial⟩
  | loadSavedRead out => exact ⟨h, trivial⟩
  | storeRead out savedRead =>
      have hmod : usize (savedRead + out.bufferSize) % rb.size < size := by
        rw [h.size_eq]
        exact Nat.mod_lt _ h.size_pos
      exact ⟨⟨h.size_eq, h.size_pos, h.size_lt, hmod, h.writePos_lt⟩, trivial⟩
  | halted => exact ⟨h, trivial⟩

/-- Whatever the processes do, the positions stay in range and nobody stores outside of the
mapping. -/
structure InsideMapping (size : ℕ) (s : Processes) : Prop where
  positions : s.shared.InRange size
  inside : ∀ t, (s.thread t).Inside size

theorem insideMapping_step {size : ℕ} (s : Processes) (t : ℕ) (c : Option RBIn)
    (h : InsideMapping size s) : InsideMapping size (step next s t c) := by
  have hnext := next_inside h.positions (h.inside t) c
  refine ⟨hnext.1, ?_⟩
  exact step_forall next (A := fun _ pc => pc.Inside size) hnext.2 fun u _ => h.inside u

/-- In every interleaving of one reader and any number of writers, both positions are below the
size, and the bytes of every entry that a writer has reserved are inside both halves of the
mapping. -/
theorem stays_inside_mapping (size : ℕ) (rb : RingBuffer) (hnew : RingBuffer.create size = some rb)
    (sched : List (ℕ × Option RBIn)) :
    (run next (startWriters rb) sched).shared.size = rb.size ∧
      (run next (startWriters rb) sched).shared.readPos < rb.size ∧
      (run next (startWriters rb) sched).shared.writePos < rb.size ∧
      ∀ t e savedWrite written,
        (run next (startWriters rb) sched).thread t = .serialize e savedWrite written →
          savedWrite + e.serializedSize ≤ rb.size * 2 := by
  have hstart : InsideMapping rb.size (startWriters rb) := by
    refine ⟨inRange_create hnew, ?_⟩
    intro t
    cases t with
    | zero => trivial
    | succ t => trivial
  obtain ⟨hpositions, hinside⟩ := run_invariant next insideMapping_step sched hstart
  refine ⟨hpositions.size_eq, hpositions.readPos_lt, hpositions.writePos_lt, ?_⟩
  intro t e savedWrite written hpc
  have hentry := hinside t
  rw [hpc] at hentry
  exact hentry

/-- Writer 2 moves `write_pos` between the loads of writer 1 and its compare-exchange, which
fails; at the second try writer 1 reserves the bytes behind. -/
theorem stays_inside_mapping_after_retry :
    ∃ rb sched, RingBuffer.create 4096 = some rb ∧
      (run next (startWriters rb) sched).thread 1 = .serialize emptyEntry 56 0 ∧
        56 + emptyEntry.serializedSize ≤ rb.size * 2 := by
  obtain ⟨rb, hnew⟩ : ∃ rb, RingBuffer.create 4096 = some rb := ⟨_, rfl⟩
  have hrun : (run next (startWriters rb) (List.replicate 3 (1, some emptyEntry) ++
      List.replicate 4 (2, some emptyEntry) ++ List.replicate 4 (1, none))).thread 1 =
        .serialize emptyEntry 56 0 := by
    cases hnew
    rfl
  exact ⟨rb, _, hnew, hrun, (stays_inside_mapping 4096 rb hnew _).2.2.2 1 emptyEntry 56 0 hrun⟩

end SystemsExperiments.SimpleRingbuffer
