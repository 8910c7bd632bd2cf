import SystemsExperiments.Verification.Mmlog.Align
import SystemsExperiments.Verification.Mmlog.Budget
import SystemsExperiments.Verification.Mmlog.ExpandLock

/-! # Growth of the data file

While nobody holds the expansion lock the recorded and the physical size agree; the holder
moves first the physical and then the recorded size, and only upwards as long as the
alignment macro does not wrap. -/

namespace SystemsExperiments.Mmlog

open Interleaving

/-! ## Assertions -/

/-- What `data_file_expand` knows about the two sizes at each of its points. -/
def ExpandGrowth (m : LogMetadata) (f : DataFile) (e : ℕ) : ExpandPc → Prop
  | .tryLock | .retry => True
  | .loadPanicked | .loadSize | .storePanicked => f.len = m.fileSize
  | .ftruncate n => f.len = m.fileSize ∧ m.fileSize ≤ n ∧ e ≤ n
  | .storeSize n => f.len = n ∧ m.fileSize ≤ n ∧ e ≤ n
  | .unlock => f.len = m.fileSize ∧ e ≤ m.fileSize
  | .unlockPanicked => f.len = m.fileSize ∧ m.isPanicked = true
  | .checkPanicked => e ≤ m.fileSize ∨ m.isPanicked = true

def CheckoutGrowth (m : LogMetadata) (f : DataFile) (size : ℕ) : CheckoutPc → Prop
  | .fetchAdd => True
  | .loadSize start => start + size < 2 ^ 64
  | .expand start pc => start + size < 2 ^ 64 ∧ ExpandGrowth m f (start + size) pc

/-- A range granted by `mmlog_checkout` stays inside the recorded size. -/
def PcGrowth (m : LogMetadata) (f : DataFile) : Pc → Prop
  | .checkout _ size pc => CheckoutGrowth m f size pc
  | .insertCheckout _ data pc => CheckoutGrowth m f data.size pc
  | .insertPwrite _ data start => start + data.size ≤ m.fileSize
  | .insertRb _ data start _ _ => start + data.size ≤ m.fileSize
  | .insertMemcpy _ data start _ _ => start + data.size ≤ m.fileSize
  | .insertRelease _ data start _ _ => start + data.size ≤ m.fileSize
  | .insertClean _ data start _ => start + data.size ≤ m.fileSize
  | .trimLoad _ | .trimFtruncate _ _ => False
  | .idle | .rbCheckout _ _ _ | .clean _ _ => True

theorem PcGrowth.len_le_of_ftruncate {m : LogMetadata} {f : DataFile} {pc : Pc} {e n : ℕ}
    (h : PcGrowth m f pc) (hpc : pc.expand? = some (e, .ftruncate n)) : f.len ≤ n := by
  match pc, hpc with
  | .checkout _ _ (.expand _ _), rfl => exact h.2.1.trans_le h.2.2.1
  | .insertCheckout _ _ (.expand _ _), rfl => exact h.2.1.trans_le h.2.2.1

def Call.isTrim : Call → Bool
  | .trim _ => true
  | _ => false

/-- Every start that `mmlog_checkout` returned is covered by the recorded size. -/
def ResultsCovered (m : LogMetadata) (results : List (Call × Value)) : Prop :=
  ∀ h size start, (Call.checkout h size, Value.cursor start) ∈ results →
    start ≠ logCursorInvalid → start + size ≤ m.fileSize

structure GrowthAt (s : Log) (th : Thread) : Prop where
  point : PcGrowth s.metadata s.file th.pc
  covered : ResultsCovered s.metadata th.results
  noTrim : ∀ call ∈ th.todo, call.isTrim = false

/-- The sizes agree while the lock is free, and the recorded one never runs ahead. -/
structure SizesAgree (s : Log) : Prop where
  le_len : s.metadata.fileSize ≤ s.file.len
  eq_of_free : s.metadata.isLocked = false → s.file.len = s.metadata.fileSize

/-- Neither size shrinks and a panic is never taken back. -/
structure Grows (s s' : Log) : Prop where
  fileSize_le : s.metadata.fileSize ≤ s'.metadata.fileSize
  len_le : s.file.len ≤ s'.file.len
  panicked : s.metadata.isPanicked = true → s'.metadata.isPanicked = true

theorem Grows.refl (s : Log) : Grows s s := ⟨le_rfl, le_rfl, id⟩

theorem Grows.setRing (s : Log) (h : ℕ) (r : ChunkBuffer) : Grows s (s.setRing h r) :=
  ⟨le_rfl, le_rfl, id⟩

theorem Grows.trans {a b c : Log} (h : Grows a b) (h' : Grows b c) : Grows a c :=
  ⟨h.fileSize_le.trans h'.fileSize_le, h.len_le.trans h'.len_le, h'.panicked ∘ h.panicked⟩

/-! ## One step of the expansion -/

/-- The two things a run must avoid: a wrapping cursor and a wrapping alignment. -/
structure StepFits (size : ℕ) (m : LogMetadata) (pc : CheckoutPc) : Prop where
  noWrap : pc = .fetchAdd → m.cursor + size < 2 ^ 64
  aligned : ∀ start, pc = .expand start .loadSize → m.fileSize < endOffset start size →
    endOffset start size + m.chunkSize ≤ 2 ^ 32

theorem endOffset_eq {start size : ℕ} (h : start + size < 2 ^ 64) :
    endOffset start size = start + size := Nat.mod_eq_of_lt h

/-- What a step of `mmlog_checkout` establishes, stated on the log it acts on. -/
structure CheckoutStepGrowth (s : Log) (size : ℕ) (pc : CheckoutPc) (m : LogMetadata)
    (f : DataFile) (next : Next CheckoutPc ℕ) : Prop where
  agree : SizesAgree { s with metadata := m, file := f }
  grows : Grows s { s with metadata := m, file := f }
  len_eq : (∀ start epc, pc = .expand start epc → ¬ epc.holdsLock) → f.len = s.file.len
  point : ∀ pc', next = .goto pc' → CheckoutGrowth m f size pc'
  granted : ∀ start, next = .done start → start ≠ logCursorInvalid →
    start + size ≤ m.fileSize

namespace CheckoutStepGrowth

variable {s : Log} {size : ℕ} {pc : CheckoutPc}

theorem goto (hs : SizesAgree s) {pc' : CheckoutPc}
    (hpc : CheckoutGrowth s.metadata s.file size pc') :
    CheckoutStepGrowth s size pc s.metadata s.file (.goto pc') := by
  refine ⟨hs, Grows.refl s, fun _ => rfl, ?_, ?_⟩
  · rintro _ ⟨⟩
    exact hpc
  · rintro _ ⟨⟩

theorem done (hs : SizesAgree s) {start : ℕ}
    (h : start ≠ logCursorInvalid → start + size ≤ s.metadata.fileSize) :
    CheckoutStepGrowth s size pc s.metadata s.file (.done start) := by
  refine ⟨hs, Grows.refl s, fun _ => rfl, ?_, ?_⟩
  · rintro _ ⟨⟩
  · rintro _ ⟨⟩ hne
    exact h hne

/-- A step that moves to another point after touching the metadata or the file. -/
theorem change {m : LogMetadata} {f : DataFile} {pc' : CheckoutPc}
    (agree : SizesAgree { s with metadata := m, file := f })
    (grows : Grows s { s with metadata := m, file := f })
    (hlen : (∀ start epc, pc = .expand start epc → ¬ epc.holdsLock) → f.len = s.file.len)
    (hpc : CheckoutGrowth m f size pc') :
    CheckoutStepGrowth s size pc m f (.goto pc') := by
  refine ⟨agree, grows, hlen, ?_, ?_⟩
  · rintro _ ⟨⟩
    exact hpc
  · rintro _ ⟨⟩

end CheckoutStepGrowth

theorem mmlogCheckout_growth {s : Log} {size : ℕ} (errno : MmlogErr) (o : Outcome)
    {pc : CheckoutPc} (hs : SizesAgree s) (hpos : 0 < s.metadata.chunkSize)
    (hlock : ∀ start epc, pc = .expand start epc → epc.holdsLock →
      s.metadata.isLocked = true)
    (hpc : CheckoutGrowth s.metadata s.file size pc) (hfit : StepFits size s.metadata pc) :
    CheckoutStepGrowth s size pc (mmlogCheckout size s.metadata s.file errno o pc).1
      (mmlogCheckout size s.metadata s.file errno o pc).2.1
      (mmlogCheckout size s.metadata s.file errno o pc).2.2.2 := by
  cases pc with
  | fetchAdd =>
      exact .change ⟨hs.le_len, hs.eq_of_free⟩ ⟨le_rfl, le_rfl, id⟩ (fun _ => rfl)
        (hfit.noWrap rfl)
  | loadSize start =>
      have he := endOffset_eq hpc
      simp only [mmlogCheckout]
      split
      · exact .goto hs ⟨hpc, trivial⟩
      · exact .done hs fun _ => by omega
  | expand start pc =>
      obtain ⟨hwrap, hpc⟩ := hpc
      have he := endOffset_eq hwrap
      cases pc with
      | tryLock =>
          simp only [mmlogCheckout, dataFileExpand]
          split
          · exact .goto hs ⟨hwrap, trivial⟩
          · rename_i hfree
            have hlen := hs.eq_of_free (by simpa using hfree)
            exact .change ⟨hs.le_len, fun h => by cases h⟩ ⟨le_rfl, le_rfl, id⟩ (fun _ => rfl)
              ⟨hwrap, hlen⟩
      | retry =>
          cases o with
          | succeed => exact .goto hs ⟨hwrap, trivial⟩
          | fail => exact .done hs fun h => (h rfl).elim
          | short n => exact .done hs fun h => (h rfl).elim
      | loadPanicked =>
          simp only [mmlogCheckout, dataFileExpand]
          split
          · exact .goto hs ⟨hwrap, trivial⟩
          · exact .goto hs ⟨hwrap, hpc⟩
      | loadSize =>
          simp only [mmlogCheckout, dataFileExpand, he]
          split
          · rename_i hgrow
            have hroom := hfit.aligned start rfl (by omega)
            rw [he] at hroom
            have hcover := le_alignedSize hpos hroom (by omega)
            exact .goto hs ⟨hwrap, hpc, by omega, hcover⟩
          · exact .goto hs ⟨hwrap, hpc, by omega⟩
      | ftruncate n =>
          obtain ⟨hlen, hle, hcover⟩ := hpc
          cases o with
          | succeed =>
              have hup := hlock start _ rfl trivial
              refine .change ⟨hle, fun hfree => ?_⟩ ⟨le_rfl, hlen.trans_le hle, id⟩
                (fun h => (h start _ rfl trivial).elim) ⟨hwrap, rfl, hle, hcover⟩
              exact Bool.noConfusion (hup.symm.trans hfree)
          | fail => exact .goto hs ⟨hwrap, hlen⟩
          | short k => exact .goto hs ⟨hwrap, hlen⟩
      | storePanicked =>
          exact .change ⟨hs.le_len, hs.eq_of_free⟩ ⟨le_rfl, le_rfl, fun _ => rfl⟩
            (fun _ => rfl) ⟨hwrap, hpc, rfl⟩
      | unlockPanicked =>
          exact .change ⟨hs.le_len, fun _ => hpc.1⟩ ⟨le_rfl, le_rfl, id⟩ (fun _ => rfl)
            ⟨hwrap, .inr hpc.2⟩
      | storeSize n =>
          obtain ⟨hlen, hle, hcover⟩ := hpc
          exact .change ⟨hlen.ge, fun _ => hlen⟩ ⟨hle, le_rfl, id⟩ (fun _ => rfl)
            ⟨hwrap, hlen, hcover⟩
      | unlock =>
          exact .change ⟨hs.le_len, fun _ => hpc.1⟩ ⟨le_rfl, le_rfl, id⟩ (fun _ => rfl)
            ⟨hwrap, .inl hpc.2⟩
      | checkPanicked =>
          cases hpanic : s.metadata.isPanicked with
          | true =>
              simp only [mmlogCheckout, dataFileExpand, hpanic]
              exact .done hs fun h => (h rfl).elim
          | false =>
              simp only [mmlogCheckout, dataFileExpand, hpanic]
              refine .done hs fun _ => ?_
              rcases hpc with hcover | hpanic'
              · exact hcover
              · exact Bool.noConfusion (hpanic.symm.trans hpanic')

/-! ## One step of a thread -/

/-- The cursor and the alignment fit at the step that the thread is about to take. -/
def Fits (s : Log) (th : Thread) : Prop :=
  match th.pc with
  | .checkout _ size pc => StepFits size s.metadata pc
  | .insertCheckout _ data pc => StepFits data.size s.metadata pc
  | _ => True

theorem ResultsCovered.mono {m m' : LogMetadata} {results : List (Call × Value)}
    (h : ResultsCovered m results) (hle : m.fileSize ≤ m'.fileSize) :
    ResultsCovered m' results :=
  fun a size start hmem hne => (h a size start hmem hne).trans hle

theorem ResultsCovered.append {m : LogMetadata} {results : List (Call × Value)}
    (h : ResultsCovered m results) {call : Call} {v : Value}
    (hnew : ∀ a size start, call = .checkout a size → v = .cursor start →
      start ≠ logCursorInvalid → start + size ≤ m.fileSize) :
    ResultsCovered m (results ++ [(call, v)]) := by
  intro a size start hmem hne
  rcases List.mem_append.mp hmem with hmem | hmem
  · exact h a size start hmem hne
  · simp only [List.mem_singleton, Prod.mk.injEq] at hmem
    exact hnew a size start hmem.1.symm hmem.2.symm hne

namespace GrowthAt

variable {s s' : Log} {th : Thread}

theorem goto (h : GrowthAt s th) (hg : Grows s s') {pc : Pc} {errno : MmlogErr}
    (hpc : PcGrowth s'.metadata s'.file pc) : GrowthAt s' (th.goto pc errno) :=
  ⟨hpc, h.covered.mono hg.fileSize_le, h.noTrim⟩

theorem finish (h : GrowthAt s th) (hg : Grows s s') {call : Call} {v : Value}
    {errno : MmlogErr}
    (hnew : ∀ a size start, call = .checkout a size → v = .cursor start →
      start ≠ logCursorInvalid → start + size ≤ s'.metadata.fileSize) :
    GrowthAt s' (th.finish call v errno) :=
  ⟨trivial, (h.covered.mono hg.fileSize_le).append hnew, h.noTrim⟩

theorem insertLoop (h : GrowthAt s th) (hg : Grows s s') {a : ℕ} {data : Payload}
    {start w : ℕ} (hfit : start + data.size ≤ s'.metadata.fileSize) :
    GrowthAt s' (th.insertLoop a data start w) := by
  unfold Thread.insertLoop
  split
  · exact h.goto hg hfit
  · exact h.goto hg hfit

theorem start (h : GrowthAt s th) {call : Call} (htrim : call.isTrim = false) :
    GrowthAt s (th.start call) := by
  have hg := Grows.refl s
  unfold Thread.start
  split
  · exact h.finish hg fun a size start _ hv hne => by cases hv; exact (hne rfl).elim
  · exact h.goto hg trivial
  · exact h.finish hg fun _ _ _ hc => by cases hc
  · exact h.goto hg trivial
  · exact h.finish hg fun _ _ _ hc => by cases hc
  · exact h.goto hg trivial
  · split
    · exact h.finish hg fun _ _ _ hc => by cases hc
    · exact h.goto hg trivial
  · exact h.finish hg fun _ _ _ hc => by cases hc
  · exact h.finish hg fun _ _ _ hc => by cases hc
  · cases htrim

end GrowthAt

/-- What a step of a thread does to the sizes, and what it leaves true of the thread. -/
structure StepGrowth (s : Log) (th : Thread) (s' : Log) (th' : Thread) : Prop where
  agree : SizesAgree s'
  grows : Grows s s'
  len_eq : ¬ HoldsExpandLock th → s'.file.len = s.file.len
  point : GrowthAt s' th'

/-- A step that touches neither the metadata nor the file. -/
theorem StepGrowth.quiet {s s' : Log} {th th' : Thread} (hs : SizesAgree s)
    (hm : s'.metadata = s.metadata) (hf : s'.file = s.file) (h : GrowthAt s' th') :
    StepGrowth s th s' th' := by
  refine ⟨⟨?_, ?_⟩, ⟨?_, ?_, ?_⟩, fun _ => by rw [hf], h⟩
  · rw [hm, hf]
    exact hs.le_len
  · rw [hm, hf]
    exact hs.eq_of_free
  · rw [hm]
  · rw [hf]
  · rw [hm]
    exact id

/-- A step inside `mmlog_checkout`. -/
theorem StepGrowth.of_checkout {s : Log} {th th' : Thread} {size : ℕ} {pc : CheckoutPc}
    {m : LogMetadata} {f : DataFile} {next : Next CheckoutPc ℕ}
    (h : CheckoutStepGrowth s size pc m f next)
    (hholds : ∀ start epc, pc = .expand start epc → epc.holdsLock → HoldsExpandLock th)
    (hpoint : GrowthAt { s with metadata := m, file := f } th') :
    StepGrowth s th { s with metadata := m, file := f } th' :=
  ⟨h.agree, h.grows,
    fun hout => h.len_eq fun start epc hpc hin => hout (hholds start epc hpc hin), hpoint⟩

theorem threadStep_growth {s : Log} {th : Thread} {o : Outcome} (hs : SizesAgree s)
    (hpos : 0 < s.metadata.chunkSize)
    (hlock : HoldsExpandLock th → s.metadata.isLocked = true)
    (ha : GrowthAt s th) (hfit : Fits s th) :
    StepGrowth s th (threadStep s th o).1 (threadStep s th o).2 := by
  have hpt := ha.point
  obtain ⟨p, errno, todo, results⟩ := th
  cases p with
  | idle =>
      cases todo with
      | nil => exact .quiet hs rfl rfl ha
      | cons call rest =>
          have hrest : GrowthAt s ⟨.idle, errno, rest, results⟩ :=
            ⟨trivial, ha.covered, fun c hc => ha.noTrim c (by simp [hc])⟩
          exact .quiet hs rfl rfl (hrest.start (ha.noTrim call (by simp)))
  | checkout h size pc =>
      have hholds : ∀ start epc, pc = .expand start epc → epc.holdsLock →
          HoldsExpandLock ⟨.checkout h size pc, errno, todo, results⟩ :=
        fun start epc hpc hin => ⟨_, epc, by rw [hpc]; rfl, hin⟩
      have hstep := mmlogCheckout_growth errno o hs hpos
        (fun start epc hpc hin => hlock (hholds start epc hpc hin)) hpt hfit
      simp only [threadStep]
      refine .of_checkout hstep hholds ?_
      split
      · rename_i pc' hnext
        exact ha.goto hstep.grows (hstep.point pc' hnext)
      · rename_i start hnext
        refine ha.finish hstep.grows fun a size' start' hc hv hne => ?_
        cases hc
        cases hv
        exact hstep.granted start hnext hne
  | insertCheckout h data pc =>
      have hholds : ∀ start epc, pc = .expand start epc → epc.holdsLock →
          HoldsExpandLock ⟨.insertCheckout h data pc, errno, todo, results⟩ :=
        fun start epc hpc hin => ⟨_, epc, by rw [hpc]; rfl, hin⟩
      have hstep := mmlogCheckout_growth errno o hs hpos
        (fun start epc hpc hin => hlock (hholds start epc hpc hin)) hpt hfit
      simp only [threadStep]
      refine .of_checkout hstep hholds ?_
      split
      · rename_i pc' hnext
        exact ha.goto hstep.grows (hstep.point pc' hnext)
      · rename_i start hnext
        split
        · exact ha.finish hstep.grows fun _ _ _ hc => by cases hc
        · rename_i hne
          have hin := hstep.granted start hnext hne
          split
          · exact ha.goto hstep.grows hin
          · exact ha.insertLoop hstep.grows hin
  | rbCheckout h cursor pc =>
      simp only [threadStep]
      refine .quiet hs rfl rfl ?_
      split
      · exact ha.goto (Grows.setRing s h _) trivial
      · exact ha.finish (Grows.setRing s h _) fun _ _ _ hc => by cases hc
  | clean h pc =>
      simp only [threadStep]
      refine .quiet hs rfl rfl ?_
      split
      · exact ha.goto (Grows.setRing s h _) trivial
      · exact ha.finish (Grows.setRing s h _) fun _ _ _ hc => by cases hc
  | insertPwrite h data start =>
      -- the range was granted, so the write ends inside the file
      have hlen : ∀ k, k ≤ data.size →
          (s.file.pwrite start k data.byte).len = s.file.len := by
        intro k hk
        have hle := hs.le_len
        have hin : start + data.size ≤ s.metadata.fileSize := hpt
        unfold DataFile.pwrite
        split
        · rfl
        · exact Nat.max_eq_left (by omega)
      have hk : (pwriteResult data.size o).1 ≤ data.size := by
        cases o <;> simp [pwriteResult]
      have hlen' := hlen _ hk
      have hgrow : Grows s { s with
          file := s.file.pwrite start (pwriteResult data.size o).1 data.byte } :=
        ⟨le_rfl, hlen'.ge, id⟩
      refine ⟨⟨hs.le_len.trans hlen'.ge, fun hfree => ?_⟩, hgrow, fun _ => hlen', ?_⟩
      · exact hlen'.trans (hs.eq_of_free hfree)
      · simp only [threadStep]
        split
        · exact ha.finish hgrow fun _ _ _ hc => by cases hc
        · exact ha.finish hgrow fun _ _ _ hc => by cases hc
  | insertRb h data start written pc =>
      simp only [threadStep]
      refine .quiet hs rfl rfl ?_
      split
      · exact ha.goto (Grows.setRing s h _) hpt
      · exact ha.finish (Grows.setRing s h _) fun _ _ _ hc => by cases hc
      · exact ha.goto (Grows.setRing s h _) hpt
  | insertMemcpy h data start written id =>
      exact ⟨⟨hs.le_len, hs.eq_of_free⟩, ⟨le_rfl, le_rfl, fun hp => hp⟩, fun _ => rfl,
        ⟨hpt, ha.covered, ha.noTrim⟩⟩
  | insertRelease h data start written id =>
      exact .quiet hs rfl rfl (ha.insertLoop (Grows.setRing s h _) hpt)
  | insertClean h data start pc =>
      simp only [threadStep]
      refine .quiet hs rfl rfl ?_
      split
      · exact ha.goto (Grows.setRing s h _) hpt
      · exact ha.finish (Grows.setRing s h _) fun _ _ _ hc => by cases hc
  | trimLoad h => exact hpt.elim
  | trimFtruncate h cursor => exact hpt.elim

/-! ## Interference -/

/-- Outside the lock a thread changes neither the recorded size nor the panic flag. -/
theorem threadStep_of_not_holds {s : Log} {th : Thread} {o : Outcome}
    (hout : ¬ HoldsExpandLock th) :
    (threadStep s th o).1.metadata.fileSize = s.metadata.fileSize ∧
      (threadStep s th o).1.metadata.isPanicked = s.metadata.isPanicked := by
  cases hpc : th.pc.expand? with
  | none =>
      rw [(threadStep_outside hpc).1]
      exact ⟨rfl, rfl⟩
  | some p =>
      obtain ⟨e, pc⟩ := p
      rw [holdsExpandLock_iff hpc] at hout
      rw [(threadStep_expand hpc).1]
      cases pc with
      | tryLock =>
          simp only [dataFileExpand]
          split <;> exact ⟨rfl, rfl⟩
      | retry => cases o <;> exact ⟨rfl, rfl⟩
      | checkPanicked => exact ⟨rfl, rfl⟩
      | loadPanicked => exact (hout trivial).elim
      | loadSize => exact (hout trivial).elim
      | ftruncate n => exact (hout trivial).elim
      | storePanicked => exact (hout trivial).elim
      | unlockPanicked => exact (hout trivial).elim
      | storeSize n => exact (hout trivial).elim
      | unlock => exact (hout trivial).elim

theorem ExpandGrowth.mono {s s' : Log} {e : ℕ} {pc : ExpandPc}
    (h : ExpandGrowth s.metadata s.file e pc) (hg : Grows s s')
    (hkeep : pc.holdsLock → s'.metadata.fileSize = s.metadata.fileSize ∧
      s'.metadata.isPanicked = s.metadata.isPanicked ∧ s'.file.len = s.file.len) :
    ExpandGrowth s'.metadata s'.file e pc := by
  cases pc with
  | tryLock => trivial
  | retry => trivial
  | checkPanicked =>
      rcases h with h | h
      · exact .inl (h.trans hg.fileSize_le)
      · exact .inr (hg.panicked h)
  | loadPanicked | loadSize | ftruncate n | storePanicked | unlockPanicked | storeSize n
  | unlock =>
      obtain ⟨hsize, hpanic, hlen⟩ := hkeep trivial
      simpa only [ExpandGrowth, hsize, hpanic, hlen] using h

theorem CheckoutGrowth.mono {s s' : Log} {size : ℕ} {pc : CheckoutPc}
    (h : CheckoutGrowth s.metadata s.file size pc) (hg : Grows s s')
    (hkeep : ∀ start epc, pc = .expand start epc → epc.holdsLock →
      s'.metadata.fileSize = s.metadata.fileSize ∧
        s'.metadata.isPanicked = s.metadata.isPanicked ∧ s'.file.len = s.file.len) :
    CheckoutGrowth s'.metadata s'.file size pc := by
  cases pc with
  | fetchAdd => trivial
  | loadSize start => exact h
  | expand start epc => exact ⟨h.1, h.2.mono hg (hkeep start epc rfl)⟩

/-- Growth by somebody else keeps what a thread knows, if the sizes stand still while the
thread holds the lock. -/
theorem GrowthAt.mono {s s' : Log} {th : Thread} (h : GrowthAt s th) (hg : Grows s s')
    (hkeep : HoldsExpandLock th → s'.metadata.fileSize = s.metadata.fileSize ∧
      s'.metadata.isPanicked = s.metadata.isPanicked ∧ s'.file.len = s.file.len) :
    GrowthAt s' th := by
  refine ⟨?_, h.covered.mono hg.fileSize_le, h.noTrim⟩
  have hpt := h.point
  obtain ⟨p, errno, todo, results⟩ := th
  cases p with
  | checkout a size pc =>
      exact CheckoutGrowth.mono hpt hg fun start epc hpc hin =>
        hkeep ⟨_, epc, by rw [hpc]; rfl, hin⟩
  | insertCheckout a data pc =>
      exact CheckoutGrowth.mono hpt hg fun start epc hpc hin =>
        hkeep ⟨_, epc, by rw [hpc]; rfl, hin⟩
  | insertPwrite a data start => exact hpt.trans hg.fileSize_le
  | insertRb a data start w pc => exact hpt.trans hg.fileSize_le
  | insertMemcpy a data start w id => exact hpt.trans hg.fileSize_le
  | insertRelease a data start w id => exact hpt.trans hg.fileSize_le
  | insertClean a data start pc => exact hpt.trans hg.fileSize_le
  | idle => trivial
  | rbCheckout a cursor pc => trivial
  | clean a pc => trivial
  | trimLoad a => exact hpt.elim
  | trimFtruncate a cursor => exact hpt.elim

/-! ## Runs -/

structure GrowthInv (cfg : Config) (s : System) : Prop where
  exclusive : ExpandExclusive s
  chunkSize : s.shared.metadata.chunkSize = cfg.chunkSize
  agree : SizesAgree s.shared
  point : ∀ t, GrowthAt s.shared (s.thread t)

def NoTrim (programs : List (List Call)) : Prop :=
  ∀ p ∈ programs, ∀ call ∈ p, call.isTrim = false

/-- What holds of all calls holds of those of one thread. -/
theorem forall_mem_getD {P : Call → Prop} {programs : List (List Call)}
    (h : ∀ p ∈ programs, ∀ call ∈ p, P call) (t : ℕ) : ∀ call ∈ programs.getD t [], P call := by
  intro call hcall
  rw [List.getD_eq_getElem?_getD] at hcall
  cases hp : programs[t]? with
  | none => simp [hp] at hcall
  | some p =>
      simp only [hp, Option.getD_some] at hcall
      exact h p (List.mem_of_getElem? hp) call hcall

theorem NoTrim.getD {programs : List (List Call)} (h : NoTrim programs) (t : ℕ) :
    ∀ call ∈ programs.getD t [], call.isTrim = false :=
  forall_mem_getD h t

theorem growthInv_initial (cfg : Config) {programs : List (List Call)}
    (h : NoTrim programs) : GrowthInv cfg (initial cfg programs) := by
  refine ⟨expandExclusive_initial cfg programs, rfl, ⟨le_rfl, fun _ => rfl⟩, fun t => ?_⟩
  exact ⟨trivial, fun _ _ _ hmem => (List.not_mem_nil hmem).elim, h.getD t⟩

theorem growthInv_step {cfg : Config} {s : System} (t : ℕ) (o : Outcome)
    (h : GrowthInv cfg s) (hfit : Fits s.shared (s.thread t)) :
    GrowthInv cfg (step threadStep s t o) ∧
      Grows s.shared (step threadStep s t o).shared := by
  have hpos : 0 < s.shared.metadata.chunkSize := by
    rw [h.chunkSize]
    exact cfg.chunkSize_pos
  have hstep := threadStep_growth (o := o) h.agree hpos (h.exclusive.flag_of_inside t)
    (h.point t) hfit
  refine ⟨⟨expandExclusive_step s t o h.exclusive, ?_, hstep.agree, ?_⟩, hstep.grows⟩
  · exact (threadStep_chunkSize s.shared (s.thread t) o).trans h.chunkSize
  · apply step_forall
    · exact hstep.point
    · intro u hu
      refine (h.point u).mono hstep.grows fun hin => ?_
      have hout := h.exclusive.keep_of_other hin hu
      obtain ⟨hsize, hpanic⟩ := threadStep_of_not_holds (s := s.shared) (o := o) hout
      exact ⟨hsize, hpanic, hstep.len_eq hout⟩

theorem growth_run {cfg : Config} {s : System} {sched : Schedule} (h : GrowthInv cfg s)
    (hfit : AllSteps threadStep (fun s t _ => Fits s.shared (s.thread t)) s sched) :
    GrowthInv cfg (run threadStep s sched) ∧
      Grows s.shared (run threadStep s sched).shared := by
  refine run_invariant_of threadStep (P := fun s' => GrowthInv cfg s' ∧ Grows s.shared s'.shared)
    ?_ ⟨h, Grows.refl _⟩ hfit
  intro s' t o ⟨hinv, hgrows⟩ hstep
  obtain ⟨hinv', hgrows'⟩ := growthInv_step t o hinv hstep
  exact ⟨hinv', hgrows.trans hgrows'⟩

/-- The end that a thread holding the lock is about to compare with the recorded size. -/
def Pc.growing? (pc : Pc) : Option ℕ :=
  match pc.expand? with
  | some (e, .loadSize) => some e
  | _ => none

/-- A thread that is about to compute a new file size does so within 32 bits. -/
def GrowsInRange (s : System) (t : ℕ) (_ : Outcome) : Prop :=
  ∀ e ∈ (s.thread t).pc.growing?,
    s.shared.metadata.fileSize < e → e + s.shared.metadata.chunkSize ≤ 2 ^ 32

instance (s : System) (t : ℕ) (o : Outcome) : Decidable (GrowsInRange s t o) :=
  inferInstanceAs (Decidable (∀ e ∈ (s.thread t).pc.growing?, _))

theorem fits_of_growsInRange {s : System} {t : ℕ} {o : Outcome}
    (hcur : s.shared.metadata.cursor + (s.thread t).pc.unclaimed < 2 ^ 64)
    (h : GrowsInRange s t o) : Fits s.shared (s.thread t) := by
  unfold GrowsInRange at h
  unfold Fits
  cases hpc : (s.thread t).pc with
  | checkout a size pc =>
      rw [hpc] at hcur h
      refine ⟨?_, ?_⟩
      · rintro rfl
        exact hcur
      · rintro start rfl hlt
        exact h _ rfl hlt
  | insertCheckout a data pc =>
      rw [hpc] at hcur h
      refine ⟨?_, ?_⟩
      · rintro rfl
        exact hcur
      · rintro start rfl hlt
        exact h _ rfl hlt
  | _ => trivial

/-- Whenever a range was granted, the file covers it. -/
def GrantsCovered (s : System) : Prop :=
  ∀ t h size start, (Call.checkout h size, Value.cursor start) ∈ (s.thread t).results →
    start ≠ logCursorInvalid →
      start + size ≤ s.shared.metadata.fileSize ∧ start + size ≤ s.shared.file.len

/-- In a run without `mmlog_trim` whose expansions all stay within 32 bits, neither size
of the data file ever decreases, and every start that `mmlog_checkout` returned is covered
by the file from then on. -/
theorem file_growth_law (cfg : Config) (programs : List (List Call)) (hno : NoTrim programs)
    (htotal : totalBytes programs < 2 ^ 63) (front back : Schedule)
    (h : AllSteps threadStep GrowsInRange (initial cfg programs) (front ++ back)) :
    (reached cfg programs front).shared.file.len ≤
        (reached cfg programs (front ++ back)).shared.file.len ∧
      (reached cfg programs front).shared.metadata.fileSize ≤
        (reached cfg programs (front ++ back)).shared.metadata.fileSize ∧
      GrantsCovered (reached cfg programs (front ++ back)) := by
  have hcursor : AllSteps threadStep
      (fun s t _ => s.shared.metadata.cursor + (s.thread t).pc.unclaimed < 2 ^ 64)
      (initial cfg programs) (front ++ back) := by
    refine allSteps_of_forall threadStep (fun sched t _ => ?_) _
    have hle := cursor_add_unclaimed_le cfg programs sched t
    simp only [reached] at hle
    omega
  have hfit := (hcursor.and h).mono
    (q := fun s t _ => Fits s.shared (s.thread t)) fun s t c hc => fits_of_growsInRange hc.1 hc.2
  rw [allSteps_append] at hfit
  have hfront := growth_run (growthInv_initial cfg hno) hfit.1
  have hback := growth_run hfront.1 hfit.2
  rw [reached, reached, run_append]
  refine ⟨hback.2.len_le, hback.2.fileSize_le, fun t a size start hmem hne => ?_⟩
  have hcover := (hback.1.point t).covered a size start hmem hne
  exact ⟨hcover, hcover.trans hback.1.agree.le_len⟩

/-- A checkout that grows the file by one chunk, looked at before and after it. -/
theorem file_growth_law_two_chunks :
    GrantsCovered (reached Config.least [[.checkout (some 0) 5000]]
      (List.replicate 3 (0, .succeed) ++ List.replicate 7 (0, .succeed))) :=
  (file_growth_law Config.least [[.checkout (some 0) 5000]]
    (by simp [NoTrim, Call.isTrim]) (by decide) (List.replicate 3 (0, .succeed))
    (List.replicate 7 (0, .succeed)) (by decide)).2.2

/-- One checkout of four gibibytes on a log of 4096-byte chunks: the aligned size is zero
and the expansion empties the file. -/
theorem file_growth_law_fails_at_four_gibibytes :
    (reached Config.least [[.checkout (some 0) (2 ^ 32)]]
        (List.replicate 7 (0, .succeed))).shared.file.len <
      (reached Config.least [[.checkout (some 0) (2 ^ 32)]] []).shared.file.len := by
  decide

end SystemsExperiments.Mmlog
