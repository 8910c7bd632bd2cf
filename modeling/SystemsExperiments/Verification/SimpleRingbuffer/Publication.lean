import SystemsExperiments.Model.SimpleRingbuffer.Processes
import SystemsExperiments.Verification.SimpleRingbuffer.Queue

/-! # What the reader starts to read is written

`write` moves `write_pos` before it writes the entry, so the positions alone do not tell the
reader that the entry is there. In a run in which the reader loads `write_pos` only after the
writer has had a step for each byte of what it has reserved, the reader starts on whole entries
only. -/

namespace SystemsExperiments.SimpleRingbuffer

open Bytes Circular Interleaving

/-! ## The order of the steps -/

/-- What a compare-exchange reserves bytes for. -/
def Pc.reserves : Pc → Option RBIn
  | .compareExchange entry _ _ _ => some entry
  | _ => none

/-- The next step loads `write_pos` for `read`. -/
def Pc.loadsWritePos : Pc → Bool
  | .loadWritePos _ => true
  | _ => false

/-- The steps of the writer among the steps `i`, …, `j - 1` of a schedule. -/
def writerSteps (sched : List (ℕ × Option RBIn)) (i j : ℕ) : ℕ :=
  ((sched.take j).drop i).countP fun m => m.1 = 0

/-- Between a compare-exchange of the writer and any later load of `write_pos` by the reader,
the writer has a step for each byte of the entry. -/
def WrittenBeforeLoads (rb : RingBuffer) (sched : List (ℕ × Option RBIn)) : Prop :=
  ∀ j < sched.length, (sched[j]?.map Prod.fst = some 1 ∧
      ((run next (start rb) (sched.take j)).thread 1).loadsWritePos = true) →
    ∀ i < j, sched[i]?.map Prod.fst = some 0 →
      ∀ entry ∈ ((run next (start rb) (sched.take i)).thread 0).reserves,
        entry.serializedSize ≤ writerSteps sched (i + 1) j

instance (rb : RingBuffer) (sched : List (ℕ × Option RBIn)) :
    Decidable (WrittenBeforeLoads rb sched) :=
  inferInstanceAs (Decidable (∀ j < sched.length, (sched[j]?.map Prod.fst = some 1 ∧
      ((run next (start rb) (sched.take j)).thread 1).loadsWritePos = true) →
    ∀ i < j, sched[i]?.map Prod.fst = some 0 →
      ∀ entry ∈ ((run next (start rb) (sched.take i)).thread 0).reserves,
        entry.serializedSize ≤ writerSteps sched (i + 1) j))

/-- A write that passes the free-space test after the writer has wrapped around ends before
the reader. -/
def FitsAt (rb : RingBuffer) : Pc → Prop
  | .loadRead e _ savedWrite =>
      savedWrite + e.serializedSize < rb.readPos + rb.size → savedWrite < rb.readPos →
        savedWrite + e.serializedSize < rb.readPos
  | _ => True

instance (rb : RingBuffer) : (pc : Pc) → Decidable (FitsAt rb pc)
  | .loadRead e _ savedWrite => inferInstanceAs (Decidable
      (savedWrite + e.serializedSize < rb.readPos + rb.size → savedWrite < rb.readPos →
        savedWrite + e.serializedSize < rb.readPos))
  | .writerIdle _ | .loadWrite .. | .compareExchange .. | .serialize .. | .readerIdle _
  | .loadWritePos _ | .loadStart | .deserialize .. | .loadSavedRead _ | .storeRead ..
  | .halted => isTrue trivial

def Fits (s : Processes) (t : ℕ) (_ : Option RBIn) : Prop := FitsAt s.shared (s.thread t)

instance (s : Processes) (t : ℕ) (c : Option RBIn) : Decidable (Fits s t c) :=
  inferInstanceAs (Decidable (FitsAt s.shared (s.thread t)))

/-- When the reader is about to start on the entry at `read_pos`, the writer is not in the
middle of an entry there. -/
def Published (s : Processes) : Prop :=
  s.thread 1 = .loadStart → ¬ (s.thread 0).UnfinishedAt s.shared.size s.shared.readPos

/-- The writer is at an entry and has not written it to its end. -/
def Pc.Writing : Pc → Prop
  | .serialize e _ written => written < e.serializedSize
  | _ => False

/-- The reader does not load `write_pos` in the middle of an entry of the writer. -/
def LoadsBetween (s : Processes) (t : ℕ) (_ : Option RBIn) : Prop :=
  t = 1 → (s.thread 1).loadsWritePos = true → ¬ (s.thread 0).Writing

/-- How a step can lead to the middle of an entry. -/
theorem next_serialize {rb : RingBuffer} {pc : Pc} {c : Option RBIn} {e : RBIn}
    {savedWrite written : ℕ} (h : (next rb pc c).2 = .serialize e savedWrite written) :
    (pc.reserves = some e ∧ written = 0) ∨
      ∃ before, pc = .serialize e savedWrite before ∧ written = before + 1 := by
  cases pc with
  | compareExchange e' tries savedWrite' nextWrite =>
      simp only [next, RingBuffer.compareExchange] at h
      split at h
      next heq =>
        cases h
        exact .inl ⟨rfl, rfl⟩
      next heq =>
        split at h
        · cases h
        · cases h
  | serialize e' savedWrite' before =>
      simp only [next] at h
      split at h
      · cases h
        exact .inr ⟨before, rfl, rfl⟩
      · cases h
  | writerIdle result => cases c <;> cases h
  | loadRead e' tries savedWrite' =>
      simp only [next] at h
      split at h
      · cases h
      · cases h
  | loadWritePos readPos =>
      simp only [next] at h
      split at h
      · cases h
      · cases h
  | deserialize start rest => cases rest <;> cases h
  | _ => cases h

theorem writerSteps_concat (front : List (ℕ × Option RBIn)) (m : ℕ × Option RBIn) {i : ℕ}
    (hi : i < front.length) :
    writerSteps (front ++ [m]) (i + 1) (front ++ [m]).length =
      writerSteps front (i + 1) front.length + if m.1 = 0 then 1 else 0 := by
  simp only [writerSteps, List.take_length]
  rw [List.drop_append_of_le_length (by omega), List.countP_append, List.countP_singleton]
  simp

/-- A writer in the middle of an entry has reserved it, and since then it has had a step for
each byte that is written. -/
theorem reserved_of_serialize (rb : RingBuffer) {e : RBIn} {savedWrite written : ℕ}
    (front : List (ℕ × Option RBIn))
    (h : (run next (start rb) front).thread 0 = .serialize e savedWrite written) :
    ∃ i < front.length, front[i]?.map Prod.fst = some 0 ∧
      ((run next (start rb) (front.take i)).thread 0).reserves = some e ∧
      writerSteps front (i + 1) front.length = written := by
  induction front using List.reverseRecOn generalizing written with
  | nil => cases h
  | append_singleton front m ih =>
      obtain ⟨t, c⟩ := m
      -- an earlier reservation is one of the longer schedule too
      have hlater : ∀ before i, i < front.length → front[i]?.map Prod.fst = some 0 →
          ((run next (start rb) (front.take i)).thread 0).reserves = some e →
          writerSteps front (i + 1) front.length = before →
          written = before + (if t = 0 then 1 else 0) →
          ∃ i < (front ++ [(t, c)]).length, (front ++ [(t, c)])[i]?.map Prod.fst = some 0 ∧
            ((run next (start rb) ((front ++ [(t, c)]).take i)).thread 0).reserves = some e ∧
            writerSteps (front ++ [(t, c)]) (i + 1) (front ++ [(t, c)]).length = written := by
        intro before i hi hmove hreserves hsteps hwritten
        refine ⟨i, by simp; omega, ?_, ?_, ?_⟩
        · rwa [List.getElem?_append_left hi]
        · rwa [List.take_append_of_le_length (by omega)]
        · rw [writerSteps_concat front (t, c) hi, hsteps, hwritten]
      rw [run_append, run_cons, run_nil] at h
      by_cases ht : t = 0
      · subst ht
        rw [step_thread_self] at h
        cases next_serialize h with
        | inl hreserves =>
            refine ⟨front.length, by simp, by simp, by simpa using hreserves.1, ?_⟩
            simp [writerSteps, hreserves.2]
        | inr hbefore =>
            obtain ⟨before, hpc, hwritten⟩ := hbefore
            obtain ⟨i, hi, hmove, hreserves, hsteps⟩ := ih hpc
            exact hlater before i hi hmove hreserves hsteps hwritten
      · rw [step_thread_of_ne next _ c (Ne.symm ht)] at h
        obtain ⟨i, hi, hmove, hreserves, hsteps⟩ := ih h
        exact hlater written i hi hmove hreserves hsteps (by simp [ht])

/-- No such load comes in the middle of an entry. -/
theorem loadsBetween_of_written {rb : RingBuffer} {sched : List (ℕ × Option RBIn)}
    (h : WrittenBeforeLoads rb sched) : AllSteps next LoadsBetween (start rb) sched := by
  apply allSteps_of_prefix
  rintro front t c back rfl rfl hload hwriting
  have htake : (front ++ (1, c) :: back).take front.length = front := by simp
  have hbefore := h front.length (by simp) (by simpa [htake] using hload)
  cases hpc : (run next (start rb) front).thread 0 with
  | serialize e savedWrite written =>
      obtain ⟨i, hi, hmove, hreserves, hsteps⟩ := reserved_of_serialize rb front hpc
      have hbytes := hbefore i hi (by rwa [List.getElem?_append_left hi]) e
        (by rwa [List.take_append_of_le_length (by omega)])
      have hsame : writerSteps (front ++ (1, c) :: back) (i + 1) front.length =
          writerSteps front (i + 1) front.length := by
        rw [writerSteps, writerSteps, htake, List.take_length]
      rw [hpc, Pc.Writing] at hwriting
      omega
  | _ =>
      rw [hpc] at hwriting
      exact hwriting

/-! ## What each process knows -/

/-- The bytes that the writer has reserved and not written. -/
def Pc.unwritten : Pc → List UInt8
  | .serialize e _ written => e.serialize.drop written
  | _ => []

/-- What the writer knows while the entries `q` are in the ring buffer. -/
def WriterAt (rb : RingBuffer) (q : List RBIn) : Pc → Prop
  | .writerIdle _ => True
  | .loadWrite _ _ => True
  | .loadRead _ _ savedWrite => savedWrite = rb.writePos
  | .compareExchange e _ savedWrite nextWrite =>
      savedWrite = rb.writePos ∧ nextWrite = rb.writePos + e.serializedSize ∧
        used q + e.serializedSize < rb.size
  | .serialize e savedWrite written => written < e.serializedSize →
      ∃ front, q = front ++ [e] ∧ savedWrite = (rb.readPos + used front) % rb.size
  | _ => False

/-- The entry `e` is the oldest, and what is unwritten belongs to later ones. -/
def Complete (q : List RBIn) (unwritten : List UInt8) (e : RBIn) : Prop :=
  ∃ rest, q = e :: rest ∧ unwritten.length ≤ used rest

/-- What the reader knows. -/
def ReaderAt (rb : RingBuffer) (q : List RBIn) (unwritten : List UInt8) : Pc → Prop
  | .readerIdle _ => True
  | .halted => True
  | .loadWritePos readPos => readPos = rb.readPos
  | .loadStart => ∃ e, Complete q unwritten e
  | .deserialize start rest => start = rb.readPos ∧ ∃ e, Complete q unwritten e ∧
      rest.Ensures (only e.serialize) fun out => out.bufferSize = e.serializedSize
  | .loadSavedRead out => ∃ e, Complete q unwritten e ∧ out.bufferSize = e.serializedSize
  | .storeRead out savedRead => savedRead = rb.readPos ∧
      ∃ e, Complete q unwritten e ∧ out.bufferSize = e.serializedSize
  | _ => False

/-- The reader's knowledge survives what keeps `read_pos` and complete entries. -/
theorem ReaderAt.mono {rb rb' : RingBuffer} {q q' : List RBIn} {unwritten unwritten' : List UInt8}
    {pc : Pc} (h : ReaderAt rb q unwritten pc) (hpos : rb'.readPos = rb.readPos)
    (hcomplete : ∀ e, Complete q unwritten e → Complete q' unwritten' e) :
    ReaderAt rb' q' unwritten' pc := by
  cases pc with
  | readerIdle result => trivial
  | halted => trivial
  | loadWritePos readPos => exact Eq.trans h hpos.symm
  | loadStart =>
      obtain ⟨e, he⟩ := h
      exact ⟨e, hcomplete e he⟩
  | deserialize start rest =>
      obtain ⟨hstart, e, he, hrest⟩ := h
      exact ⟨hstart.trans hpos.symm, e, hcomplete e he, hrest⟩
  | loadSavedRead out =>
      obtain ⟨e, he, hout⟩ := h
      exact ⟨e, hcomplete e he, hout⟩
  | storeRead out savedRead =>
      obtain ⟨hsaved, e, he, hout⟩ := h
      exact ⟨hsaved.trans hpos.symm, e, hcomplete e he, hout⟩
  | _ => exact h.elim

/-- Entries are whole, but for the end of the one that the writer is at. -/
structure PublicationInv (s : Processes) (q : List RBIn) : Prop where
  holding : Holding s.shared q (s.thread 0).unwritten
  writer : WriterAt s.shared q (s.thread 0)
  reader : ReaderAt s.shared q (s.thread 0).unwritten (s.thread 1)
  others : ∀ t, 2 ≤ t → s.thread t = .halted

/-! ## Steps of the writer -/

/-- What a step of the writer leaves behind. -/
def WriterStep (rb : RingBuffer) (q : List RBIn) (unwritten : List UInt8)
    (after : RingBuffer × Pc) : Prop :=
  ∃ q', Holding after.1 q' after.2.unwritten ∧ WriterAt after.1 q' after.2 ∧
    after.1.readPos = rb.readPos ∧
    ∀ e, Complete q unwritten e → Complete q' after.2.unwritten e

variable {rb : RingBuffer} {q : List RBIn} {e : RBIn}

theorem loadRead_step {tries savedWrite : ℕ} (h : Holding rb q [])
    (hsaved : savedWrite = rb.writePos)
    (hfit : savedWrite + e.serializedSize < rb.readPos + rb.size → savedWrite < rb.readPos →
      savedWrite + e.serializedSize < rb.readPos) (c : Option RBIn) :
    WriterStep rb q [] (next rb (.loadRead e tries savedWrite) c) := by
  subst hsaved
  simp only [next, h.usize_nextWrite, h.usize_limit]
  split
  next htest =>
    exact ⟨q, h, ⟨rfl, rfl, h.room_of_test htest (hfit htest)⟩, rfl, fun _ => id⟩
  next => exact ⟨q, h, trivial, rfl, fun _ => id⟩

theorem compareExchange_step {tries savedWrite nextWrite : ℕ} (h : Holding rb q [])
    (hw : WriterAt rb q (.compareExchange e tries savedWrite nextWrite)) (c : Option RBIn) :
    WriterStep rb q [] (next rb (.compareExchange e tries savedWrite nextWrite) c) := by
  obtain ⟨rfl, rfl, hroom⟩ := hw
  simp only [next, RingBuffer.compareExchange, if_true]
  refine ⟨q ++ [e], h.reserve hroom, ?_, rfl, ?_⟩
  · intro _
    exact ⟨q, rfl, h.queue.writePos_eq⟩
  · rintro e' ⟨rest, rfl, -⟩
    refine ⟨rest ++ [e], rfl, ?_⟩
    simp [Pc.unwritten, e.length_serialize]

theorem serialize_step {savedWrite written : ℕ} (h : Holding rb q (e.serialize.drop written))
    (hw : WriterAt rb q (.serialize e savedWrite written)) (c : Option RBIn) :
    WriterStep rb q (e.serialize.drop written)
      (next rb (.serialize e savedWrite written) c) := by
  by_cases hlt : written < e.serialize.length
  · obtain ⟨front, rfl, rfl⟩ := hw (e.length_serialize ▸ hlt)
    have hbyte : e.serialize[written]? = some e.serialize[written] := List.getElem?_eq_getElem hlt
    simp only [next, hbyte]
    have hdrop := List.drop_eq_getElem_cons hlt
    refine ⟨front ++ [e], ⟨h.size_lt, ?_⟩, ?_, rfl, ?_⟩
    · have hqueue := h.queue
      rw [hdrop] at hqueue
      have hput := hqueue.put
      have hpos : ((front ++ [e]).map RBIn.serialize).flatten.length -
          ((e.serialize.drop (written + 1)).length + 1) = used front + written := by
        simp only [List.map_append, List.flatten_append, List.length_append, List.map_cons,
          List.map_nil, List.flatten_cons, List.flatten_nil, List.length_nil, List.length_drop,
          used]
        omega
      rw [hpos, ← Nat.add_assoc, ← put_mod] at hput
      exact hput
    · intro _
      exact ⟨front, rfl, rfl⟩
    · rintro e' ⟨rest, hrest, hlast⟩
      refine ⟨rest, hrest, ?_⟩
      simp only [Pc.unwritten, List.length_drop] at hlast ⊢
      omega
  · have hbyte : e.serialize[written]? = none := List.getElem?_eq_none (by omega)
    have hdrop : e.serialize.drop written = [] := List.drop_eq_nil_of_le (by omega)
    simp only [next, hbyte]
    rw [hdrop] at h ⊢
    exact ⟨q, h, trivial, rfl, fun _ => id⟩

theorem writer_step {s : Processes} (hinv : PublicationInv s q) (c : Option RBIn)
    (hfits : Fits s 0 c) :
    WriterStep s.shared q (s.thread 0).unwritten (next s.shared (s.thread 0) c) := by
  have h := hinv.holding
  have hw := hinv.writer
  simp only [Fits] at hfits
  generalize s.thread 0 = pc at *
  cases pc with
  | writerIdle result =>
      cases c with
      | none => exact ⟨q, h, trivial, rfl, fun _ => id⟩
      | some e => exact ⟨q, h, trivial, rfl, fun _ => id⟩
  | loadWrite e tries => exact ⟨q, h, rfl, rfl, fun _ => id⟩
  | loadRead e tries savedWrite => exact loadRead_step h hw hfits c
  | compareExchange e tries savedWrite nextWrite => exact compareExchange_step h hw c
  | serialize e savedWrite written => exact serialize_step h hw c
  | _ => exact hw.elim

/-! ## Steps of the reader -/

/-- What a step of the reader leaves behind, with the writer at `wpc`. -/
def ReaderStep (wpc : Pc) (after : RingBuffer × Pc) : Prop :=
  ∃ q', Holding after.1 q' wpc.unwritten ∧ WriterAt after.1 q' wpc ∧
    ReaderAt after.1 q' wpc.unwritten after.2

/-- Where the writer is not in the middle of an entry, the oldest entry is complete. -/
theorem complete_of_not_writing {wpc : Pc} (h : Holding rb q wpc.unwritten)
    (hne : rb.readPos ≠ rb.writePos) (hnot : ¬ wpc.Writing) :
    ∃ e, Complete q wpc.unwritten e := by
  cases q with
  | nil => exact absurd (h.readPos_eq_writePos_iff.mpr rfl) hne
  | cons e q =>
      refine ⟨e, q, rfl, ?_⟩
      cases wpc with
      | serialize e' savedWrite written =>
          have hend : e'.serializedSize ≤ written := not_lt.mp hnot
          simp only [Pc.unwritten, List.length_drop, e'.length_serialize]
          omega
      | _ => exact Nat.zero_le _

/-- `deserialize` takes the size from the first word of the entry. -/
theorem ensures_deserialize (e : RBIn) :
    RBOut.deserialize.Ensures (only e.serialize)
      fun out => out.bufferSize = e.serializedSize := by
  have hword : (RBOut.readSize 0).run (only e.serialize) = some e.serializedSize := by
    obtain ⟨hheader, -⟩ := holds_sections (holds_only e.serialize)
    rw [← Nat.zero_mul sizeofSize]
    exact run_header hheader rfl
  apply (Reader.ensures_of_run hword).bind
  rintro _ rfl
  -- whatever the rest reads, the size stays
  iterate 8
    apply (Reader.ensures_trivial _).bind
    intro _ _
  exact .done rfl

/-- The entry that the writer is at comes behind a complete one. -/
theorem exists_front {e' : RBIn} {rest front : List RBIn} {written : ℕ}
    (hq : e :: rest = front ++ [e']) (hlast : (e'.serialize.drop written).length ≤ used rest)
    (hlt : written < e'.serializedSize) :
    ∃ front', front = e :: front' ∧ rest = front' ++ [e'] := by
  cases front with
  | nil =>
      obtain ⟨rfl, rfl⟩ := List.cons_eq_cons.mp hq
      rw [List.length_drop, e.length_serialize, used_nil] at hlast
      omega
  | cons e₀ front =>
      obtain ⟨rfl, hrest⟩ := List.cons_eq_cons.mp hq
      exact ⟨front, rfl, hrest⟩

/-- Taking out the oldest entry does not disturb the writer. -/
theorem WriterAt.pop {wpc : Pc} {rest : List RBIn} (hw : WriterAt rb (e :: rest) wpc)
    (hlast : wpc.unwritten.length ≤ used rest) (hr : rb.readPos + e.serializedSize < 2 ^ 64) :
    WriterAt { rb with readPos := usize (rb.readPos + e.serializedSize) % rb.size } rest wpc := by
  cases wpc with
  | writerIdle result => trivial
  | loadWrite e tries => trivial
  | loadRead e tries savedWrite => exact hw
  | compareExchange e' tries savedWrite nextWrite =>
      obtain ⟨hsaved, hnext, hroom⟩ := hw
      rw [used_cons, Nat.add_assoc] at hroom
      exact ⟨hsaved, hnext, Nat.lt_of_le_of_lt (Nat.le_add_left _ _) hroom⟩
  | serialize e' savedWrite written =>
      intro hlt
      obtain ⟨front, hq, hsaved⟩ := hw hlt
      obtain ⟨front, rfl, rfl⟩ := exists_front hq hlast hlt
      refine ⟨front, rfl, ?_⟩
      rw [hsaved, used_cons, usize_eq hr, Nat.mod_add_mod, Nat.add_assoc]
  | _ => exact hw.elim

theorem reader_step {s : Processes} (hinv : PublicationInv s q) (c : Option RBIn)
    (hload : LoadsBetween s 1 c) : ReaderStep (s.thread 0) (next s.shared (s.thread 1) c) := by
  obtain ⟨h, hw, hr, -⟩ := hinv
  simp only [LoadsBetween, true_implies] at hload
  generalize s.thread 1 = pc at *
  cases pc with
  | readerIdle result => exact ⟨q, h, hw, rfl⟩
  | loadWritePos readPos =>
      cases hr
      simp only [next]
      split
      next => exact ⟨q, h, hw, trivial⟩
      next hne => exact ⟨q, h, hw, complete_of_not_writing h hne (hload rfl)⟩
  | loadStart =>
      obtain ⟨e, he⟩ := hr
      exact ⟨q, h, hw, rfl, e, he, ensures_deserialize e⟩
  | deserialize start rest =>
      obtain ⟨rfl, e, he, hrest⟩ := hr
      cases rest with
      | done out =>
          cases hrest with
          | done hout => exact ⟨q, h, hw, e, he, hout⟩
      | fault => exact ⟨q, h, hw, trivial⟩
      | read addr k =>
          obtain ⟨rest, rfl, hlast⟩ := he
          exact ⟨_, h, hw, rfl, e, ⟨rest, rfl, hlast⟩, hrest.step (h.extends_view hlast)⟩
  | loadSavedRead out => exact ⟨q, h, hw, rfl, hr⟩
  | storeRead out savedRead =>
      obtain ⟨rfl, e, ⟨rest, rfl, hlast⟩, hout⟩ := hr
      simp only [next, hout]
      refine ⟨rest, h.pop hlast, ?_, trivial⟩
      obtain ⟨hsize, hpos, -, -⟩ := h.positions
      have hlt := e.serializedSize_lt
      simp only [userSpace] at hlt
      exact hw.pop hlast (by omega)
  | halted => exact ⟨q, h, hw, trivial⟩
  | _ => exact hr.elim

/-! ## Runs -/

theorem halted_step {s : Processes} {t : ℕ} (ht : t < 2) (c : Option RBIn)
    (h : ∀ u, 2 ≤ u → s.thread u = .halted) :
    ∀ u, 2 ≤ u → (step next s t c).thread u = .halted := by
  intro u hu
  rw [step_thread_of_ne next s c (by omega)]
  exact h u hu

theorem publicationInv_step (s : Processes) (t : ℕ) (c : Option RBIn)
    (hinv : ∃ q, PublicationInv s q) (hadm : Fits s t c ∧ LoadsBetween s t c) :
    ∃ q, PublicationInv (step next s t c) q := by
  obtain ⟨q, hinv⟩ := hinv
  match t with
  | 0 =>
      obtain ⟨q', hholding, hwriter, hpos, hcomplete⟩ := writer_step hinv c hadm.1
      refine ⟨q', ?_, ?_, ?_, ?_⟩
      · simpa using hholding
      · simpa using hwriter
      · rw [step_thread_of_ne next s c (t := 0) (u := 1) (by decide)]
        simpa using hinv.reader.mono hpos hcomplete
      · exact halted_step (by decide) c hinv.others
  | 1 =>
      obtain ⟨q', hholding, hwriter, hreader⟩ := reader_step hinv c hadm.2
      refine ⟨q', ?_, ?_, ?_, ?_⟩
      · rw [step_thread_of_ne next s c (by decide)]
        simpa using hholding
      · rw [step_thread_of_ne next s c (by decide)]
        simpa using hwriter
      · rw [step_thread_of_ne next s c (by decide)]
        simpa using hreader
      · exact halted_step (by decide) c hinv.others
  | t + 2 =>
      -- nobody else takes part
      have hhalted := hinv.others (t + 2) (by omega)
      have hsame : step next s (t + 2) c = s := by
        simp only [step, hhalted, next]
        rw [← hhalted, Function.update_eq_self]
      rw [hsame]
      exact ⟨q, hinv⟩

theorem published_of_inv {s : Processes} (hinv : PublicationInv s q) : Published s := by
  intro hstart hunfinished
  obtain ⟨hholding, hw, hr, -⟩ := hinv
  rw [hstart] at hr
  obtain ⟨e, rest, rfl, hlast⟩ := hr
  generalize s.thread 0 = pc at *
  cases pc with
  | serialize e' savedWrite written =>
      obtain ⟨hlt, i, hi, hpos⟩ := hunfinished
      obtain ⟨front, hq, rfl⟩ := hw hlt
      have hroom := hholding.room
      rw [hq, used_append, used_cons, used_nil] at hroom
      obtain ⟨front, rfl, -⟩ := exists_front hq hlast hlt
      -- the reserved bytes begin behind the oldest entry and end before it
      have hfront := serializedSize_pos e
      rw [used_cons] at hroom
      have hbehind : 0 < used (e :: front) + i := by
        rw [used_cons]
        omega
      have hbefore : used (e :: front) + i < s.shared.size := by
        rw [used_cons]
        omega
      apply add_mod_ne s.shared.readPos hbehind hbefore
      rw [Nat.add_zero, Nat.mod_eq_of_lt hholding.queue.readPos_lt, ← Nat.add_assoc,
        ← Nat.mod_add_mod, hpos]
  | _ => exact hunfinished

/-- In every run in which the writes fit and are written before the reader loads `write_pos`,
whenever the reader is about to start on the entry at `read_pos`, the writer has finished it. -/
theorem publication (size : ℕ) (rb : RingBuffer) (hnew : RingBuffer.create size = some rb)
    (sched : List (ℕ × Option RBIn)) (hfits : AllSteps next Fits (start rb) sched)
    (hwritten : WrittenBeforeLoads rb sched) : Published (run next (start rb) sched) := by
  have hstart : ∃ q, PublicationInv (start rb) q := by
    refine ⟨[], Holding.create hnew, trivial, trivial, ?_⟩
    intro t ht
    match t with
    | t + 2 => rfl
  have hadm := hfits.and (loadsBetween_of_written hwritten)
  obtain ⟨q, hinv⟩ := run_invariant_of next publicationInv_step hstart hadm
  exact published_of_inv hinv

set_option maxRecDepth 4000 in
/-- The reader looks after the writer has written the last byte of its entry. -/
theorem publication_after_last_byte :
    ∃ rb, RingBuffer.create 4096 = some rb ∧
      ∃ s, s = run next (start rb)
          (List.replicate 60 (0, some emptyEntry) ++ [(1, none), (1, none)]) ∧
        s.thread 1 = .loadStart ∧ ¬ (s.thread 0).UnfinishedAt s.shared.size s.shared.readPos := by
  refine ⟨_, rfl, _, rfl, rfl, ?_⟩
  exact publication 4096 _ rfl _ (by decide +kernel) (by decide +kernel) rfl

/-- The reader looks as soon as the writer has moved `write_pos`. -/
theorem publication_fails_before_first_byte :
    ¬ ∀ (size : ℕ) (rb : RingBuffer), RingBuffer.create size = some rb →
      ∀ sched : List (ℕ × Option RBIn), Published (run next (start rb) sched) := by
  intro h
  apply h 4096 _ rfl
    (List.replicate 4 (0, some emptyEntry) ++ [(1, none), (1, none)]) rfl
  exact ⟨by decide, 0, by decide, rfl⟩

end SystemsExperiments.SimpleRingbuffer
