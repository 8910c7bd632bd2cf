import SystemsExperiments.Verification.Mmlog.FailedInsert

/-! # Trimming and appending by one thread

`mmlog_trim` cuts the file at the cursor and leaves the recorded size behind. An insert
that trusts the recorded size then copies past the end of the file. -/

namespace SystemsExperiments.Mmlog

open Interleaving Layout

/-! ## The condition on a run -/

/-- The next step of `mmlog_insert` is a system call or an allocation that may fail. -/
def Pc.callsSystem (pc : Pc) : Bool :=
  match pc with
  | .insertCheckout _ _ (.expand _ (.ftruncate _)) => true
  | .insertRb _ _ _ _ (.calloc _ _) | .insertRb _ _ _ _ (.mmap _ _) => true
  | .insertPwrite _ _ _ => true
  | _ => false

/-- The start and the record of an insert that is about to compare its end with the
recorded size. -/
def Pc.compares? : Pc → Option (ℕ × Payload)
  | .insertCheckout _ data (.loadSize start) => some (start, data)
  | _ => none

/-- The system calls of the inserts succeed, and a record that is copied through the ring
without growing the file ends inside the file as it is. -/
def AppendsSafely (s : System) (t : ℕ) (o : Outcome) : Prop :=
  ((s.thread t).pc.callsSystem = true → o = .succeed) ∧
    ∀ p ∈ (s.thread t).pc.compares?,
      endOffset p.1 p.2.size ≤ s.shared.metadata.fileSize →
      usesPwrite p.1 p.2.size s.shared.metadata.chunkSize = false →
      endOffset p.1 p.2.size ≤ s.shared.file.len

instance (s : System) (t : ℕ) (o : Outcome) : Decidable (AppendsSafely s t o) :=
  @instDecidableAnd _ _ (inferInstanceAs (Decidable (_ → _)))
    (inferInstanceAs (Decidable (∀ p ∈ (s.thread t).pc.compares?, _)))

/-! ## Assertions -/

def ExpandSolo (m : LogMetadata) (f : DataFile) (e : ℕ) : ExpandPc → Prop
  | .tryLock => m.isLocked = false ∧ m.fileSize < e
  | .loadPanicked | .loadSize => m.fileSize < e
  | .ftruncate n => e ≤ n
  | .storeSize _ | .unlock => e ≤ f.len
  | .checkPanicked => m.isLocked = false ∧ e ≤ f.len
  | .retry | .storePanicked | .unlockPanicked => False

def CheckoutSolo (m : LogMetadata) (f : DataFile) (size : ℕ) : CheckoutPc → Prop
  | .fetchAdd => m.isLocked = false
  | .loadSize start => m.isLocked = false ∧ m.cursor = start + size
  | .expand start pc => m.cursor = start + size ∧ ExpandSolo m f (start + size) pc

/-- The points of `mmlog_rb_checkout` from which nothing has gone wrong. -/
def RbPc.sound : RbPc → Prop
  | .retry | .clean _ | .reloadHead | .reloadTail _ | .clearSlot _ | .unlockFailed => False
  | _ => True

/-- What the only thread of a log knows at each of its points. -/
def PcSolo (m : LogMetadata) (f : DataFile) : Pc → Prop
  | .insertCheckout _ data pc => CheckoutSolo m f data.size pc
  | .insertRb _ data start _ pc =>
      m.isLocked = false ∧ start + data.size ≤ f.len ∧ pc.sound
  | .insertMemcpy _ data start _ _ | .insertRelease _ data start _ _ =>
      m.isLocked = false ∧ start + data.size ≤ f.len
  | .trimFtruncate _ cursor => m.isLocked = false ∧ m.cursor = cursor
  | _ => m.isLocked = false

theorem PcSolo.cursor_le_of_ftruncate {m : LogMetadata} {f : DataFile} {pc : Pc} {e n : ℕ}
    (h : PcSolo m f pc) (hpoint : InsertPoint pc)
    (hpc : pc.expand? = some (e, .ftruncate n)) : m.cursor ≤ n := by
  match pc, hpc with
  | .checkout _ _ (.expand _ _), rfl => exact hpoint.elim
  | .insertCheckout _ data (.expand start _), rfl =>
      obtain ⟨hcursor, hle⟩ := h
      exact hcursor.trans_le hle

/-- The only thread of a log, with no failure so far. -/
structure SoloAt (s : Log) (th : Thread) : Prop where
  unpanicked : s.metadata.isPanicked = false
  point : PcSolo s.metadata s.file th.pc
  success : ∀ r ∈ th.results, r.1.isInsert = true → r.2 = .bool true

namespace SoloAt

variable {s s' : Log} {th : Thread}

theorem goto {pc : Pc} {errno : MmlogErr} (h : SoloAt s th)
    (hpanic : s'.metadata.isPanicked = false) (hpc : PcSolo s'.metadata s'.file pc) :
    SoloAt s' (th.goto pc errno) :=
  ⟨hpanic, hpc, h.success⟩

theorem finish {call : Call} {v : Value} {errno : MmlogErr} (h : SoloAt s th)
    (hpanic : s'.metadata.isPanicked = false) (hlock : s'.metadata.isLocked = false)
    (hv : call.isInsert = true → v = .bool true) : SoloAt s' (th.finish call v errno) := by
  refine ⟨hpanic, hlock, fun r hr hins => ?_⟩
  rcases List.mem_append.mp hr with hr | hr
  · exact h.success r hr hins
  · cases List.mem_singleton.mp hr
    exact hv hins

theorem insertLoop {a : ℕ} {data : Payload} {start w : ℕ} (h : SoloAt s th)
    (hpanic : s'.metadata.isPanicked = false) (hlock : s'.metadata.isLocked = false)
    (hlen : start + data.size ≤ s'.file.len) :
    SoloAt s' (th.insertLoop a data start w) := by
  unfold Thread.insertLoop
  split
  · exact h.goto hpanic ⟨hlock, hlen, trivial⟩
  · exact h.goto hpanic hlock

end SoloAt

/-! ## Steps -/

/-- With the lock free and the system calls succeeding, `mmlog_rb_checkout` goes straight
to a chunk. -/
theorem mmlogRbCheckout_sound (cs : ℕ) {cursor : ℕ} {r : ChunkBuffer} (errno : MmlogErr)
    {o : Outcome} {pc : RbPc} (hcap : 0 < r.capacity) (hpc : RbAt r cursor pc)
    (hsound : pc.sound) (hfree : pc = .lock → r.headLocked = false)
    (hcalloc : ∀ head next, pc = .calloc head next → o = .succeed)
    (hmmap : ∀ head next, pc = .mmap head next → o = .succeed) :
    (∃ pc', (mmlogRbCheckout cs cursor r errno o pc).2.2 = .goto pc' ∧ pc'.sound) ∨
      ∃ id, (mmlogRbCheckout cs cursor r errno o pc).2.2 = .done (some id) := by
  cases pc with
  | lock =>
      simp only [mmlogRbCheckout, hfree rfl]
      exact .inl ⟨_, rfl, trivial⟩
  | loadHead => exact .inl ⟨_, rfl, trivial⟩
  | loadTail head => exact .inl ⟨_, rfl, trivial⟩
  | loadSlot head tail =>
      obtain ⟨-, rfl⟩ := hpc
      simp only [mmlogRbCheckout, addNewChunk_of_tail_none hcap]
      split
      · split
        · exact .inl ⟨_, rfl, trivial⟩
        · exact .inl ⟨_, rfl, trivial⟩
      · exact .inl ⟨_, rfl, trivial⟩
  | addRefHead id => exact .inl ⟨_, rfl, trivial⟩
  | unlockHead id => exact .inr ⟨id, rfl⟩
  | calloc head next =>
      cases hcalloc head next rfl
      exact .inl ⟨_, rfl, trivial⟩
  | mmap head next =>
      cases hmmap head next rfl
      exact .inl ⟨_, rfl, trivial⟩
  | storeRef head next id => exact .inl ⟨_, rfl, trivial⟩
  | storeSlot head next id => exact .inl ⟨_, rfl, trivial⟩
  | casHead head next id =>
      simp only [mmlogRbCheckout]
      split
      · exact .inl ⟨_, rfl, trivial⟩
      · exact .inl ⟨_, rfl, trivial⟩
  | unlockNew id => exact .inl ⟨_, rfl, trivial⟩
  | addRefNew id => exact .inr ⟨id, rfl⟩
  | _ => exact hsound.elim

/-- What a step of `mmlog_checkout` leaves true in a log with one thread. -/
structure CheckoutStepSolo (m : LogMetadata) (f : DataFile) (cs start size : ℕ)
    (next : Next CheckoutPc ℕ) : Prop where
  unpanicked : m.isPanicked = false
  point : ∀ pc, next = .goto pc → CheckoutSolo m f size pc
  done : ∀ v, next = .done v → v = start ∧ m.isLocked = false ∧
    (usesPwrite start size cs = false → start + size ≤ f.len)

namespace CheckoutStepSolo

variable {m : LogMetadata} {f : DataFile} {cs start size : ℕ}

theorem goto {pc : CheckoutPc} (hpanic : m.isPanicked = false)
    (h : CheckoutSolo m f size pc) : CheckoutStepSolo m f cs start size (.goto pc) := by
  refine ⟨hpanic, ?_, nofun⟩
  rintro _ ⟨⟩
  exact h

theorem ret (hpanic : m.isPanicked = false) (hlock : m.isLocked = false)
    (h : usesPwrite start size cs = false → start + size ≤ f.len) :
    CheckoutStepSolo m f cs start size (.done start) := by
  refine ⟨hpanic, nofun, ?_⟩
  rintro _ ⟨⟩
  exact ⟨rfl, hlock, h⟩

end CheckoutStepSolo

theorem mmlogCheckout_solo {size start : ℕ} (cs : ℕ) {m : LogMetadata} {f : DataFile}
    (errno : MmlogErr) {o : Outcome} {pc : CheckoutPc} (hpanic : m.isPanicked = false)
    (hpc : CheckoutSolo m f size pc) (hstart : pc.start? = some start)
    (hsmall : start + size + m.chunkSize ≤ 2 ^ 32) (hcs : 0 < m.chunkSize)
    (hcall : ∀ n, pc = .expand start (.ftruncate n) → o = .succeed)
    (hfit : pc = .loadSize start → start + size ≤ m.fileSize →
      usesPwrite start size cs = false → start + size ≤ f.len) :
    CheckoutStepSolo (mmlogCheckout size m f errno o pc).1
      (mmlogCheckout size m f errno o pc).2.1 cs start size
      (mmlogCheckout size m f errno o pc).2.2.2 := by
  have he : endOffset start size = start + size := Nat.mod_eq_of_lt (by omega)
  cases pc with
  | fetchAdd => cases hstart
  | loadSize st =>
      cases hstart
      obtain ⟨hlock, hcursor⟩ := hpc
      simp only [mmlogCheckout, he]
      split
      · rename_i hgrow
        exact .goto hpanic ⟨hcursor, hlock, hgrow⟩
      · rename_i hfits
        exact .ret hpanic hlock (hfit rfl (by omega))
  | expand st epc =>
      cases hstart
      obtain ⟨hcursor, hat⟩ := hpc
      cases epc with
      | tryLock =>
          simp only [mmlogCheckout, dataFileExpand, hat.1]
          exact .goto hpanic ⟨hcursor, hat.2⟩
      | retry => exact hat.elim
      | loadPanicked =>
          simp only [mmlogCheckout, dataFileExpand, hpanic]
          exact .goto hpanic ⟨hcursor, hat⟩
      | loadSize =>
          have hgrow : m.fileSize < start + size := hat
          simp only [mmlogCheckout, dataFileExpand, he, if_pos hgrow]
          exact .goto hpanic ⟨hcursor, le_alignedSize hcs hsmall (by omega)⟩
      | ftruncate n =>
          cases hcall n rfl
          exact .goto hpanic ⟨hcursor, hat⟩
      | storePanicked => exact hat.elim
      | unlockPanicked => exact hat.elim
      | storeSize n => exact .goto hpanic ⟨hcursor, hat⟩
      | unlock => exact .goto hpanic ⟨hcursor, rfl, hat⟩
      | checkPanicked =>
          simp only [mmlogCheckout, dataFileExpand, hpanic]
          exact .ret hpanic hat.1 fun _ => hat.2

/-- What the step of the only thread relies on. -/
structure SoloPre (cfg : Config) (s : Log) (th : Thread) : Prop where
  point : InsertPoint th.pc
  todo : ∀ call ∈ th.todo, call.isAppend = true
  chunkSize : s.metadata.chunkSize = cfg.chunkSize
  noWrap : s.metadata.cursor + th.pc.unclaimed < 2 ^ 64
  small : ∀ start data, th.pc.reserved? = some (start, data) →
    start + data.size + cfg.chunkSize ≤ 2 ^ 32
  rings : RingsOk cfg s.ring
  ring : PcRing s.ring th.pc
  headFree : ∀ h cursor, th.pc.rb? = some (h, cursor, .lock) → (s.ring h).headLocked = false

theorem soloAt_start {s : Log} {call : Call} {errno : MmlogErr} {rest : List Call}
    {results : List (Call × Value)} (h : SoloAt s ⟨.idle, errno, call :: rest, results⟩)
    (hcall : call.isAppend = true) :
    SoloAt s (Thread.start ⟨.idle, errno, rest, results⟩ call) := by
  have hrest : SoloAt s ⟨.idle, errno, rest, results⟩ := ⟨h.unpanicked, h.point, h.success⟩
  obtain ⟨hnone, v, e, heq⟩ | ⟨a, data, rfl, -, heq⟩ | ⟨a, rfl, heq⟩ :=
    start_append ⟨.idle, errno, rest, results⟩ hcall
  · rw [heq]
    refine hrest.finish h.unpanicked h.point fun hins => ?_
    rw [Call.isInsert, hnone] at hins
    cases hins
  · rw [heq]
    exact hrest.goto h.unpanicked h.point
  · rw [heq]
    exact hrest.goto h.unpanicked h.point

theorem threadStep_solo {cfg : Config} {s : Log} {th : Thread} {o : Outcome}
    (h : SoloAt s th) (hpre : SoloPre cfg s th)
    (hcall : th.pc.callsSystem = true → o = .succeed)
    (hfit : ∀ p ∈ th.pc.compares?, endOffset p.1 p.2.size ≤ s.metadata.fileSize →
      usesPwrite p.1 p.2.size s.metadata.chunkSize = false →
      endOffset p.1 p.2.size ≤ s.file.len) :
    SoloAt (threadStep s th o).1 (threadStep s th o).2 := by
  have hpanic := h.unpanicked
  have hpt := h.point
  have hpoint := hpre.point
  obtain ⟨p, errno, todo, results⟩ := th
  cases p with
  | idle =>
      cases todo with
      | nil => exact h
      | cons call rest => exact soloAt_start h (hpre.todo call (by simp))
  | insertCheckout a data pc =>
      cases hstart : pc.start? with
      | none =>
          cases pc with
          | fetchAdd => exact h.goto hpanic ⟨hpt, Nat.mod_eq_of_lt hpre.noWrap⟩
          | loadSize start => cases hstart
          | expand start epc => cases hstart
      | some start =>
          have hsmall := hpre.small start data (by simp [Pc.reserved?, hstart])
          rw [← hpre.chunkSize] at hsmall
          have hpos : 0 < s.metadata.chunkSize := by
            rw [hpre.chunkSize]
            exact cfg.chunkSize_pos
          have he : endOffset start data.size = start + data.size :=
            Nat.mod_eq_of_lt (by omega)
          have hgrown : ∀ n, pc = .expand start (.ftruncate n) → o = .succeed := by
            rintro n rfl
            exact hcall rfl
          have hstep := mmlogCheckout_solo s.metadata.chunkSize errno hpanic hpt hstart hsmall
            hpos hgrown
            (by
              rintro rfl hle hring
              have hlen := hfit (start, data) rfl
              rw [he] at hlen
              exact hlen hle hring)
          simp only [threadStep]
          split
          · rename_i pc' hgoto
            exact h.goto hstep.unpanicked (hstep.point pc' hgoto)
          · rename_i v hdone
            obtain ⟨rfl, hlock, hlen⟩ := hstep.done v hdone
            split
            · rename_i hinvalid
              unfold logCursorInvalid at hinvalid
              omega
            · split
              · exact h.goto hstep.unpanicked hlock
              · rename_i hring
                exact h.insertLoop hstep.unpanicked hlock (hlen (by simpa using hring))
  | insertPwrite a data start =>
      cases hcall rfl
      simp only [threadStep, pwriteResult, ne_eq, not_true_eq_false, if_false]
      exact h.finish hpanic hpt fun _ => rfl
  | insertRb a data start w pc =>
      obtain ⟨hlock, hlen, hsound⟩ := hpt
      have hcap : 0 < (s.ring a).capacity := by
        rw [(hpre.rings a).capacity]
        exact Nat.lt_of_lt_of_le (by decide) (cfg.two_le_chunkCount a)
      have hfree : pc = .lock → (s.ring a).headLocked = false := by
        rintro rfl
        exact hpre.headFree a _ rfl
      have hcalloc : ∀ head next, pc = .calloc head next → o = .succeed := by
        rintro head next rfl
        exact hcall rfl
      have hmmap : ∀ head next, pc = .mmap head next → o = .succeed := by
        rintro head next rfl
        exact hcall rfl
      have hnext := mmlogRbCheckout_sound s.metadata.chunkSize errno hcap hpre.ring hsound hfree
        hcalloc hmmap
      simp only [threadStep]
      rcases hnext with ⟨pc', hgoto, hsound'⟩ | ⟨id, hdone⟩
      · rw [hgoto]
        exact h.goto hpanic ⟨hlock, hlen, hsound'⟩
      · rw [hdone]
        exact h.goto hpanic ⟨hlock, hlen⟩
  | insertMemcpy a data start w id => exact h.goto hpanic hpt
  | insertRelease a data start w id => exact h.insertLoop hpanic hpt.1 hpt.2
  | insertClean a data start pc =>
      simp only [threadStep]
      split
      · exact h.goto hpanic hpt
      · exact h.finish hpanic hpt fun _ => rfl
  | trimLoad a => exact h.goto hpanic ⟨hpt, rfl⟩
  | trimFtruncate a cursor =>
      cases o with
      | succeed => exact h.finish hpanic hpt.1 (by rintro ⟨⟩)
      | fail => exact h.finish hpanic hpt.1 (by rintro ⟨⟩)
      | short n => exact h.finish hpanic hpt.1 (by rintro ⟨⟩)
  | checkout a size pc => exact hpoint.elim
  | rbCheckout a cursor pc => exact hpoint.elim
  | clean a pc => exact hpoint.elim

/-! ## Runs -/

/-- A log with one thread, with the order of its reservations. -/
structure SoloInv (cfg : Config) (program : List Call) (s : System)
    (order : List (ℕ × Payload)) : Prop where
  ring : RingInv cfg s
  others : ∀ t, t ≠ 0 → s.thread t = ⟨.idle, .ok, [], []⟩
  thread : InsertThread (program.filterMap Call.payload?) (s.thread 0)
  solo : SoloAt s.shared (s.thread 0)
  content : ContentInv cfg.chunkSize s order

theorem soloInv_initial (cfg : Config) {program : List Call}
    (h : ∀ call ∈ program, call.isAppend = true) :
    SoloInv cfg program (initial cfg [program]) [] where
  ring := ringInv_initial cfg [program]
  others := by
    intro t ht
    cases t with
    | zero => exact (ht rfl).elim
    | succ t => rfl
  thread := ⟨trivial, h, rfl⟩
  solo := ⟨rfl, rfl, fun _ hr => (List.not_mem_nil hr).elim⟩
  content := ⟨rfl, fun _ => rfl, nofun, nofun⟩

section Solo

variable {cfg : Config} {program : List Call} {s : System} {order : List (ℕ × Payload)}

theorem SoloInv.small (h : SoloInv cfg program s order)
    (htotal : totalBytes [program] + cfg.chunkSize < 2 ^ 32)
    (hcur : s.shared.metadata.cursor ≤ totalBytes [program]) {t start : ℕ} {data : Payload}
    (hres : (s.thread t).pc.reserved? = some (start, data)) :
    start + data.size + cfg.chunkSize ≤ 2 ^ 32 := by
  have hle : start + data.size ≤ s.shared.metadata.cursor :=
    h.content.place_le (h.content.reserved t start data hres).1
  omega

/-- While the only thread waits for the head lock, nobody holds it. -/
theorem SoloInv.headFree (h : SoloInv cfg program s order) {a cursor : ℕ}
    (hpc : (s.thread 0).pc.rb? = some (a, cursor, .lock)) :
    (s.shared.ring a).headLocked = false := by
  by_contra hlocked
  obtain ⟨t, ht, -⟩ := (h.ring.exclusive a).2.mp (by simpa using hlocked)
  by_cases h0 : t = 0
  · subst h0
    rw [holdsHead_iff hpc] at ht
    exact ht
  · refine not_holdsHead_of_none ?_ ht
    rw [h.others t h0]
    rfl

theorem SoloInv.pre (h : SoloInv cfg program s order) {o : Outcome}
    (htotal : totalBytes [program] + cfg.chunkSize < 2 ^ 32)
    (hwithin : WithinTotal (totalBytes [program]) s 0 o) :
    SoloPre cfg s.shared (s.thread 0) := by
  unfold WithinTotal at hwithin
  refine ⟨h.thread.point, h.thread.todo, h.ring.chunkSize, by omega, ?_, h.ring.ok,
    (h.ring.point 0).point, fun _ _ hpc => h.headFree hpc⟩
  intro start data hres
  exact h.small htotal (by omega) hres

/-- The truncations and the copies of the only thread are safe. -/
theorem SoloInv.contentPre (h : SoloInv cfg program s order) {o : Outcome}
    (htotal : totalBytes [program] + cfg.chunkSize < 2 ^ 32)
    (hwithin : WithinTotal (totalBytes [program]) s 0 o) :
    ContentPre s.shared (s.thread 0) := by
  have hpre := h.pre htotal hwithin
  have hcs := h.ring.chunkSize
  have hpos := cfg.chunkSize_pos
  have hpt := h.solo.point
  refine ⟨hpre.point, hpre.todo, ?_, ?_, hpre.noWrap, ?_, ?_, ?_, ?_, ?_⟩
  · rw [hcs]
    exact hpos
  · rw [hcs]
    exact cfg.chunkSize_lt
  · intro start data hres
    have hle := hpre.small start data hres
    omega
  · intro e n hpc
    exact .inl (hpt.cursor_le_of_ftruncate hpre.point hpc)
  · intro a cursor hpc
    rw [hpc] at hpt
    exact hpt.2.le
  · intro a data start w id hpc
    rw [hpc] at hpt
    exact hpt.2
  · intro a data start w id hpc
    have hserves := hpre.ring
    rw [hpc] at hserves
    rw [hcs]
    exact ⟨hserves, (h.ring.ok a).live id (Serves.created hserves)⟩

theorem soloInv_step {t : ℕ} {o : Outcome}
    (htotal : totalBytes [program] + cfg.chunkSize < 2 ^ 32)
    (h : SoloInv cfg program s order) (hwithin : WithinTotal (totalBytes [program]) s t o)
    (hc : AppendsSafely s t o) :
    ∃ order', SoloInv cfg program (step threadStep s t o) order' := by
  by_cases ht : t = 0
  · subst ht
    have hstep := threadStep_content (o := o) (h.contentPre htotal hwithin)
    rw [h.ring.chunkSize, ← step_thread_self, ← step_shared] at hstep
    have hle : ∀ u start data, (s.thread u).pc.reserved? = some (start, data) →
        (s.thread u).pc.written cfg.chunkSize ≤ data.size := by
      intro u start data hres
      by_cases hu : u = 0
      · subst hu
        unfold WithinTotal at hwithin
        have hsmall := h.small htotal (by omega) hres
        have hpos := cfg.chunkSize_pos
        exact written_le hpos cfg.chunkSize_lt h.thread.point hres (by omega)
      · rw [h.others u hu] at hres
        cases hres
    obtain ⟨order', hcontent⟩ := contentInv_step h.content hle hstep
    refine ⟨order', ringInv_step s 0 o h.ring, fun u hu => ?_, ?_, ?_, hcontent⟩
    · rw [step_thread_of_ne threadStep s o hu]
      exact h.others u hu
    · rw [step_thread_self]
      exact threadStep_insertThread h.thread
    · rw [step_thread_self, step_shared]
      exact threadStep_solo h.solo (h.pre htotal hwithin) hc.1 hc.2
  · -- a thread without a program does nothing
    have hsame : step threadStep s t o = s := by
      unfold step
      rw [h.others t ht]
      simp only [threadStep]
      rw [← h.others t ht, Function.update_eq_self]
    rw [hsame]
    exact ⟨order, h⟩

end Solo

/-- In a run of inserts and trims by one thread in which the system calls of the inserts
succeed and every record that goes through the ring without growing the file ends inside
the file as it is: every insert returns true, and between calls the bytes below the cursor
are in the file and are the records inserted so far, in order. -/
theorem trim_keeps_log_appendable (cfg : Config) (program : List Call)
    (happend : ∀ call ∈ program, call.isAppend = true)
    (htotal : totalBytes [program] + cfg.chunkSize < 2 ^ 32) (sched : Schedule)
    (hc : AllSteps threadStep AppendsSafely (initial cfg [program]) sched)
    (hidle : ((reached cfg [program] sched).thread 0).pc = .idle) :
    (∀ r ∈ ((reached cfg [program] sched).thread 0).results, r.1.isInsert = true →
        r.2 = .bool true) ∧
      (reached cfg [program] sched).shared.metadata.cursor ≤
        (reached cfg [program] sched).shared.file.len ∧
      (reached cfg [program] sched).shared.file.content
          (reached cfg [program] sched).shared.metadata.cursor =
        ((reached cfg [program] sched).thread 0).finished.flatMap Payload.bytes := by
  have hwithin : AllSteps threadStep (WithinTotal (totalBytes [program]))
      (initial cfg [program]) sched :=
    allSteps_of_forall threadStep
      (fun front t _ => cursor_add_unclaimed_le cfg [program] front t) sched
  obtain ⟨order, h⟩ : ∃ order, SoloInv cfg program (reached cfg [program] sched) order := by
    refine run_invariant_of threadStep (P := fun s => ∃ order, SoloInv cfg program s order) ?_
      ⟨[], soloInv_initial cfg happend⟩ (hwithin.and hc)
    rintro s t o ⟨order, h⟩ ⟨hle, hsafe⟩
    exact soloInv_step htotal h hle hsafe
  refine ⟨h.solo.success, ?_⟩
  have howner : ∀ x ∈ order, x.1 = 0 := by
    intro x hx
    by_contra hne
    have hempty := h.content.history x.1
    rw [h.others x.1 hne] at hempty
    have hmem : x.2 ∈ (order.filter fun y => y.1 = x.1).map Prod.snd :=
      List.mem_map_of_mem (List.mem_filter.mpr ⟨hx, by simp⟩)
    rw [hempty] at hmem
    exact (List.not_mem_nil hmem).elim
  have hrecords : order.map Prod.snd = ((reached cfg [program] sched).thread 0).finished := by
    have hmine := h.content.history 0
    rw [List.filter_eq_self.mpr fun x hx => by simp [howner x hx]] at hmine
    rw [hmine, Thread.claimed, hidle]
    exact List.append_nil _
  have hholds : HoldsRecords (reached cfg [program] sched).shared order := by
    refine h.content.holdsRecords fun start t data hmem => ?_
    obtain rfl : t = 0 := howner (t, data) (mem_of_layout hmem)
    rcases h.content.status start 0 data hmem with hst | hprog | ⟨r, hr, hins, hfalse⟩
    · exact hst
    · rw [hidle] at hprog
      cases hprog
    · cases (h.solo.success r hr hins).symm.trans hfalse
  refine ⟨hholds.1, ?_⟩
  rw [hholds.2, ← hrecords, List.flatMap_map]

/-- After the trim the second record needs the file to grow. -/
def trimThenGrow : List Call :=
  [.insert (some 0) (some oneByte), .trim (some 0),
    .insert (some 0) (some ⟨5000, fun _ => 1⟩)]

theorem trim_keeps_log_appendable_after_growth :
    (reached Config.least [trimThenGrow]
        (List.replicate 70 (0, .succeed))).shared.metadata.cursor ≤
      (reached Config.least [trimThenGrow] (List.replicate 70 (0, .succeed))).shared.file.len :=
  (trim_keeps_log_appendable Config.least trimThenGrow (by decide) (by decide)
    (List.replicate 70 (0, .succeed)) (by decide +kernel)
    (isIdle_iff.mp (by decide +kernel))).2.1

/-- After the trim the second record fits in the recorded size, and its byte goes past the
end of the file. -/
def trimThenInsert : List Call :=
  [.insert (some 0) (some oneByte), .trim (some 0), .insert (some 0) (some oneByte)]

theorem trim_loses_next_record :
    ((reached Config.least [trimThenInsert]
        (List.replicate 40 (0, .succeed))).thread 0).pc.isIdle = true ∧
      ((reached Config.least [trimThenInsert]
        (List.replicate 40 (0, .succeed))).thread 0).results.map Prod.snd =
          [.bool true, .unit, .bool true] ∧
      (reached Config.least [trimThenInsert]
          (List.replicate 40 (0, .succeed))).shared.file.len <
        (reached Config.least [trimThenInsert]
          (List.replicate 40 (0, .succeed))).shared.metadata.cursor := by
  decide +kernel

end SystemsExperiments.Mmlog
