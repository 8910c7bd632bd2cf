import SystemsExperiments.Verification.Mmlog.Growth

/-! # Files of whole chunks

`file_expand_inner` rounds with a bit mask, which rounds to a multiple of the chunk size
only if the chunk size is a power of two. `mmlog_open` asks for a multiple of the page size. -/

namespace SystemsExperiments.Mmlog

open Interleaving

/-! ## Runs of checkouts -/

def Call.isCheckout : Call → Bool
  | .checkout _ _ => true
  | _ => false

def OnlyCheckouts (programs : List (List Call)) : Prop :=
  ∀ p ∈ programs, ∀ call ∈ p, call.isCheckout = true

instance (programs : List (List Call)) : Decidable (OnlyCheckouts programs) :=
  inferInstanceAs (Decidable (∀ p ∈ programs, ∀ call ∈ p, call.isCheckout = true))

theorem OnlyCheckouts.noTrim {programs : List (List Call)} (h : OnlyCheckouts programs) :
    NoTrim programs := by
  intro p hp call hcall
  have hcheckout := h p hp call hcall
  cases call with
  | checkout a size => rfl
  | _ => cases hcheckout

/-- The step leaves the cursor more than one chunk below 32 bits. -/
def KeepsCursorBelow (s : System) (t : ℕ) (_ : Outcome) : Prop :=
  s.shared.metadata.cursor + (s.thread t).pc.unclaimed <
    2 ^ 32 - s.shared.metadata.chunkSize

instance (s : System) (t : ℕ) (o : Outcome) : Decidable (KeepsCursorBelow s t o) :=
  inferInstanceAs (Decidable (_ < _))

/-- The recorded size is a multiple of the chunk size, and the chunk of every byte that was
checked out lies inside the file. -/
def WholeChunksAt (s : System) : Prop :=
  s.shared.metadata.fileSize % s.shared.metadata.chunkSize = 0 ∧
    ∀ t h size start, (Call.checkout h size, Value.cursor start) ∈ (s.thread t).results →
      start ≠ logCursorInvalid → ∀ p, start ≤ p → p < start + size →
        p / s.shared.metadata.chunkSize * s.shared.metadata.chunkSize +
          s.shared.metadata.chunkSize ≤ s.shared.file.len

/-- In every run of checkouts that keeps the cursor low, the file is made of whole chunks. -/
def WholeChunks (cfg : Config) : Prop :=
  ∀ programs sched, OnlyCheckouts programs →
    AllSteps threadStep KeepsCursorBelow (initial cfg programs) sched →
      WholeChunksAt (reached cfg programs sched)

/-! ## Chunk sizes that work -/

/-- Every rounding that a run of checkouts can ask for ends on a multiple. -/
def RoundsWhole (cs : ℕ) : Prop := cs.isPowerOfTwo ∨ 2 ^ 31 < cs

theorem RoundsWhole.alignedSize {cs size e : ℕ} (h : RoundsWhole cs) (hsize : cs ≤ size)
    (hgrow : size < e) (he : e + cs < 2 ^ 32) :
    alignedSize e cs % cs = 0 ∧ cs ≤ alignedSize e cs := by
  rcases h with hpow | hbig
  · have hpos := Nat.pos_of_isPowerOfTwo hpow
    have hcover := le_alignedSize hpos (by omega) (by omega) (e := e)
    exact ⟨alignedSize_mod_of_pow hpow (by omega) (by omega), by omega⟩
  · omega

/-- The size that a point is about to store is a multiple of the chunk size. -/
def ExpandPc.Whole (cs : ℕ) : ExpandPc → Prop
  | .ftruncate n | .storeSize n => n % cs = 0 ∧ cs ≤ n
  | _ => True

def CheckoutPc.Whole (cs size : ℕ) : CheckoutPc → Prop
  | .fetchAdd => True
  | .loadSize start => start + size + cs < 2 ^ 32
  | .expand start pc => start + size + cs < 2 ^ 32 ∧ pc.Whole cs

structure MetadataWhole (cs : ℕ) (m : LogMetadata) : Prop where
  chunkSize : m.chunkSize = cs
  whole : m.fileSize % cs = 0
  le : cs ≤ m.fileSize

/-- What a step of a checkout leaves behind. -/
structure StepWhole (cs size : ℕ) (m : LogMetadata) (next : Next CheckoutPc ℕ) : Prop where
  metadata : MetadataWhole cs m
  point : ∀ pc, next = .goto pc → pc.Whole cs size

theorem StepWhole.goto {cs size : ℕ} {m : LogMetadata} {pc : CheckoutPc}
    (hm : MetadataWhole cs m) (hpc : pc.Whole cs size) : StepWhole cs size m (.goto pc) := by
  refine ⟨hm, ?_⟩
  rintro _ ⟨⟩
  exact hpc

theorem StepWhole.done {cs size v : ℕ} {m : LogMetadata} (hm : MetadataWhole cs m) :
    StepWhole cs size m (.done v) := by
  refine ⟨hm, ?_⟩
  rintro _ ⟨⟩

theorem mmlogCheckout_whole {cs size : ℕ} {m : LogMetadata} (f : DataFile) (errno : MmlogErr)
    (o : Outcome) {pc : CheckoutPc} (hcs : RoundsWhole cs) (hm : MetadataWhole cs m)
    (hpc : pc.Whole cs size) (hlow : pc = .fetchAdd → m.cursor + size + cs < 2 ^ 32) :
    StepWhole cs size (mmlogCheckout size m f errno o pc).1
      (mmlogCheckout size m f errno o pc).2.2.2 := by
  have hsame : ∀ c l p, MetadataWhole cs
      { m with cursor := c, isLocked := l, isPanicked := p } :=
    fun _ _ _ => ⟨hm.chunkSize, hm.whole, hm.le⟩
  cases pc with
  | fetchAdd => exact .goto (hsame _ _ _) (hlow rfl)
  | loadSize start =>
      simp only [mmlogCheckout]
      split
      · exact .goto hm ⟨hpc, trivial⟩
      · exact .done hm
  | expand start epc =>
      obtain ⟨hend, hepc⟩ := hpc
      have heq : endOffset start size = start + size := endOffset_eq (by omega)
      cases epc with
      | tryLock =>
          simp only [mmlogCheckout, dataFileExpand]
          split
          · exact .goto hm ⟨hend, trivial⟩
          · exact .goto (hsame _ _ _) ⟨hend, trivial⟩
      | retry =>
          cases o with
          | succeed => exact .goto hm ⟨hend, trivial⟩
          | fail => exact .done hm
          | short n => exact .done hm
      | loadPanicked =>
          simp only [mmlogCheckout, dataFileExpand]
          split
          · exact .goto hm ⟨hend, trivial⟩
          · exact .goto hm ⟨hend, trivial⟩
      | loadSize =>
          simp only [mmlogCheckout, dataFileExpand, heq, hm.chunkSize]
          split
          · rename_i hgrow
            exact .goto hm ⟨hend, hcs.alignedSize hm.le hgrow hend⟩
          · exact .goto hm ⟨hend, trivial⟩
      | ftruncate n =>
          cases o with
          | succeed => exact .goto hm ⟨hend, hepc⟩
          | fail => exact .goto hm ⟨hend, trivial⟩
          | short k => exact .goto hm ⟨hend, trivial⟩
      | storePanicked => exact .goto (hsame _ _ _) ⟨hend, trivial⟩
      | unlockPanicked => exact .goto (hsame _ _ _) ⟨hend, trivial⟩
      | storeSize n => exact .goto ⟨hm.chunkSize, hepc.1, hepc.2⟩ ⟨hend, trivial⟩
      | unlock => exact .goto (hsame _ _ _) ⟨hend, trivial⟩
      | checkPanicked =>
          cases hpanic : m.isPanicked with
          | true =>
              simp only [mmlogCheckout, dataFileExpand, hpanic]
              exact .done hm
          | false =>
              simp only [mmlogCheckout, dataFileExpand, hpanic]
              exact .done hm

/-! ## Runs -/

/-- A thread that only checks ranges out, none of them beyond the low part of the file. -/
structure WholeAt (cs : ℕ) (th : Thread) : Prop where
  point : th.pc = .idle ∨ ∃ h size pc, th.pc = .checkout h size pc ∧ pc.Whole cs size
  todo : ∀ call ∈ th.todo, call.isCheckout = true

theorem threadStep_whole {cs : ℕ} {s : Log} {th : Thread} (o : Outcome) (hcs : RoundsWhole cs)
    (hm : MetadataWhole cs s.metadata) (h : WholeAt cs th)
    (hlow : s.metadata.cursor + th.pc.unclaimed < 2 ^ 32 - s.metadata.chunkSize) :
    MetadataWhole cs (threadStep s th o).1.metadata ∧ WholeAt cs (threadStep s th o).2 := by
  obtain ⟨p, errno, todo, results⟩ := th
  obtain ⟨hpoint, htodo⟩ := h
  simp only at hpoint htodo
  obtain rfl | ⟨a, size, pc, rfl, hpc⟩ := hpoint
  · cases todo with
    | nil => exact ⟨hm, .inl rfl, htodo⟩
    | cons call rest =>
        have hcall := htodo call List.mem_cons_self
        have hrest : ∀ c ∈ rest, c.isCheckout = true :=
          fun c hc => htodo c (List.mem_cons_of_mem _ hc)
        cases call with
        | checkout a size =>
            cases a with
            | none => exact ⟨hm, .inl rfl, hrest⟩
            | some a => exact ⟨hm, .inr ⟨a, _, _, rfl, trivial⟩, hrest⟩
        | _ => cases hcall
  · have hstep := mmlogCheckout_whole s.file errno o hcs hm hpc ?_
    · refine ⟨hstep.metadata, ?_⟩
      simp only [threadStep]
      split
      · rename_i pc' hnext
        exact ⟨.inr ⟨a, size, pc', rfl, hstep.point pc' hnext⟩, htodo⟩
      · exact ⟨.inl rfl, htodo⟩
    · rintro rfl
      rw [hm.chunkSize] at hlow
      simp only [Pc.unclaimed] at hlow
      omega

structure WholeInv (cfg : Config) (s : System) : Prop where
  growth : GrowthInv cfg s
  metadata : MetadataWhole cfg.chunkSize s.shared.metadata
  point : ∀ t, WholeAt cfg.chunkSize (s.thread t)

theorem WholeInv.fits {cfg : Config} {s : System} {t : ℕ} (h : WholeInv cfg s)
    (hlow : s.shared.metadata.cursor + (s.thread t).pc.unclaimed <
      2 ^ 32 - s.shared.metadata.chunkSize) : Fits s.shared (s.thread t) := by
  have hcs := h.metadata.chunkSize
  unfold Fits
  obtain hpc | ⟨a, size, pc, hpc, hwhole⟩ := (h.point t).point
  · simp only [hpc]
  · rw [hpc] at hlow
    simp only [hpc]
    refine ⟨?_, ?_⟩
    · rintro rfl
      simp only [Pc.unclaimed] at hlow
      omega
    · rintro start rfl _
      have hend : start + size + cfg.chunkSize < 2 ^ 32 := hwhole.1
      rw [endOffset_eq (by omega), hcs]
      omega

theorem wholeInv_step {cfg : Config} (hcs : RoundsWhole cfg.chunkSize) (s : System) (t : ℕ)
    (o : Outcome) (h : WholeInv cfg s) (hlow : KeepsCursorBelow s t o) :
    WholeInv cfg (step threadStep s t o) := by
  obtain ⟨hmeta, hpoint⟩ := threadStep_whole o hcs h.metadata (h.point t) hlow
  refine ⟨(growthInv_step t o h.growth (h.fits hlow)).1, hmeta, ?_⟩
  exact step_forall threadStep (A := fun _ th => WholeAt cfg.chunkSize th) hpoint
    fun u _ => h.point u

theorem wholeInv_initial (cfg : Config) {programs : List (List Call)}
    (h : OnlyCheckouts programs) : WholeInv cfg (initial cfg programs) := by
  refine ⟨growthInv_initial cfg h.noTrim, ⟨rfl, Nat.mod_self _, le_rfl⟩, fun t => ?_⟩
  refine ⟨.inl rfl, fun call hcall => ?_⟩
  by_cases ht : t < programs.length
  · exact h programs[t] (List.getElem_mem ht) call (by simpa [initial, ht] using hcall)
  · simp [initial, ht] at hcall

/-- A multiple of the chunk size beyond an offset covers the chunk of the offset. -/
theorem chunk_le_of_lt {cs n p : ℕ} (hn : n % cs = 0) (hp : p < n) :
    p / cs * cs + cs ≤ n := by
  obtain ⟨k, rfl⟩ := Nat.dvd_of_mod_eq_zero hn
  have hlt : p / cs < k := Nat.div_lt_of_lt_mul hp
  calc
    p / cs * cs + cs = (p / cs + 1) * cs := by rw [Nat.add_mul, Nat.one_mul]
    _ ≤ k * cs := Nat.mul_le_mul_right cs hlt
    _ = cs * k := Nat.mul_comm k cs

theorem WholeInv.wholeChunksAt {cfg : Config} {s : System} (h : WholeInv cfg s) :
    WholeChunksAt s := by
  have hcs := h.metadata.chunkSize
  unfold WholeChunksAt
  rw [hcs]
  refine ⟨h.metadata.whole, fun t a size start hmem hne p _ hp => ?_⟩
  have hcover := (h.growth.point t).covered a size start hmem hne
  have hchunk := chunk_le_of_lt h.metadata.whole (hp.trans_le hcover)
  exact hchunk.trans h.growth.agree.le_len

/-- One checkout of `n` bytes beyond the first chunk, run until the new size is recorded. -/
theorem reached_checkout_fileSize (cfg : Config) {n : ℕ} (hbig : cfg.chunkSize < n)
    (hn : n < 2 ^ 32) :
    (reached cfg [[.checkout (some 0) n]] (List.replicate 8 (0, .succeed))).shared.metadata =
      { LogMetadata.created cfg.chunkSize with
        isLocked := true
        cursor := n
        fileSize := alignedSize n cfg.chunkSize } := by
  have hsize : u64 n = n := Nat.mod_eq_of_lt (by omega)
  have hend : endOffset 0 n = n := by
    rw [endOffset, Nat.zero_add, hsize]
  simp [reached, initial, List.replicate, run, step, threadStep, Thread.start, Thread.goto,
    mmlogCheckout, dataFileExpand, Log.created, LogMetadata.created, LogMetadata.zero, hsize,
    hend, hbig]

theorem allSteps_keepsCursorBelow (cfg : Config) {programs : List (List Call)}
    (h : totalBytes programs < 2 ^ 32 - cfg.chunkSize) (sched : Schedule) :
    AllSteps threadStep KeepsCursorBelow (initial cfg programs) sched := by
  apply allSteps_of_forall
  intro front t _
  have hcs := reached_chunkSize cfg programs front
  have hle := cursor_add_unclaimed_le cfg programs front t
  simp only [reached] at hcs hle
  simp only [KeepsCursorBelow, hcs]
  omega

/-- The runs of checkouts on a log keep its file made of whole chunks exactly when the chunk
size is a power of two, or so large that none of these runs grows the file. -/
theorem whole_chunks_iff (cfg : Config) :
    WholeChunks cfg ↔ cfg.chunkSize.isPowerOfTwo ∨ 2 ^ 31 < cfg.chunkSize := by
  constructor
  · intro h
    by_contra hnot
    obtain ⟨hpow, hbig⟩ := not_or.mp hnot
    have hne : cfg.chunkSize ≠ 2 ^ 31 := fun heq => hpow ⟨31, heq⟩
    have hpage := (openArgsError_eq_none (cfg.accepted 0)).2.2
    obtain ⟨n, hgrow, hlow, hmod⟩ :=
      exists_alignedSize_mod_ne cfg.chunkSize_pos hpage (by omega) hpow
    have htotal : totalBytes [[.checkout (some 0) n]] = n := by
      simp [totalBytes, programBytes, Call.bytes]
    have hrun := h [[.checkout (some 0) n]] (List.replicate 8 (0, .succeed))
      (by simp [OnlyCheckouts, Call.isCheckout])
      (allSteps_keepsCursorBelow cfg (by omega) _)
    have hwhole := hrun.1
    rw [reached_checkout_fileSize cfg hgrow (by omega)] at hwhole
    exact hmod hwhole
  · intro hcs programs sched honly hlow
    have hinv : WholeInv cfg (reached cfg programs sched) :=
      run_invariant_of threadStep (wholeInv_step hcs) (wholeInv_initial cfg honly) hlow
    exact hinv.wholeChunksAt

/-- Chunks of three pages: the first byte of the second chunk takes the file to four pages. -/
theorem whole_chunks_fails_for_three_pages :
    ¬ WholeChunks ⟨12288, fun _ => 2, fun _ => rfl⟩ := by
  intro h
  have hrun := h [[.checkout (some 0) 12289]] (List.replicate 8 (0, .succeed)) (by decide)
    (by decide)
  exact absurd hrun.1 (by decide)

end SystemsExperiments.Mmlog
