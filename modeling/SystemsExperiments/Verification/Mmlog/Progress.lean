import SystemsExperiments.Verification.Mmlog.Budget
import SystemsExperiments.Verification.Mmlog.Content
import SystemsExperiments.Verification.Mmlog.WritePlan

/-! # Every call ends

A thread waits only for a lock, and each of its waits ends when its time is over. Apart from
that a call takes a bounded number of its own steps, whatever the other threads do and whatever
fails. -/

namespace SystemsExperiments.Mmlog

open Interleaving

/-! ## How far a thread is from its return -/

@[simp] def ExpandPc.rank : ExpandPc → ℕ
  | .tryLock => 7
  | .loadPanicked => 6
  | .retry | .loadSize => 5
  | .ftruncate _ => 4
  | .storePanicked | .storeSize _ => 3
  | .unlockPanicked | .unlock => 2
  | .checkPanicked => 1

@[simp] def CheckoutPc.rank : CheckoutPc → ℕ
  | .fetchAdd => 9
  | .loadSize _ => 8
  | .expand _ pc => pc.rank

/-- A NULL tail leaves the first two points alone. -/
@[simp] def CleanPc.rank : CleanPc → ℕ
  | .loadTail => 2
  | _ => 1

@[simp] def RbPc.rank : RbPc → ℕ
  | .lock => 11
  | .retry | .loadHead => 10
  | .loadTail _ => 9
  | .loadSlot _ _ => 8
  | .calloc _ _ => 7
  | .mmap _ _ => 6
  | .storeRef _ _ _ => 5
  | .storeSlot _ _ _ => 4
  | .casHead _ _ _ => 3
  | .unlockNew _ | .addRefHead _ | .clearSlot _ => 2
  | _ => 1

/-- The turns of the loop in `mmlog_insert` that are left after `written` bytes: one for each
chunk that the rest of the record touches. -/
def turnsLeft (start size written cs : ℕ) : ℕ :=
  if written < size then (start + size - 1) / cs - (start + written) / cs + 1 else 0

/-- The steps of those turns and of the cleaning behind them. -/
def loopRank (start size written cs : ℕ) : ℕ := 13 * turnsLeft start size written cs + 2

/-- The steps of the loop for a record whose place is not known yet. -/
def recordRank (size cs : ℕ) : ℕ := 13 * (size / cs + 2) + 2

def Pc.rank (cs : ℕ) : Pc → ℕ
  | .idle => 0
  | .checkout _ _ pc => pc.rank
  | .rbCheckout _ _ pc => pc.rank
  | .clean _ pc => pc.rank
  | .insertCheckout _ data pc => pc.rank + recordRank data.size cs
  | .insertPwrite _ _ _ => 1
  | .insertRb _ data start w pc => pc.rank + (loopRank start data.size w cs - 11)
  | .insertMemcpy _ data start w _ => loopRank start data.size w cs - 11
  | .insertRelease _ data start w _ => loopRank start data.size w cs - 12
  | .insertClean _ _ _ pc => pc.rank
  | .trimLoad _ => 2
  | .trimFtruncate _ _ => 1

/-- The steps that a call takes at most, waits apart. -/
def Call.steps (cs : ℕ) : Call → ℕ
  | .checkout _ _ => 10
  | .rbCheckout _ _ => 12
  | .cleanChunks _ => 3
  | .insert _ (some data) => 10 + recordRank data.size cs
  | .insert _ none => 1
  | .trim _ => 3

def Thread.rank (cs : ℕ) (th : Thread) : ℕ :=
  th.pc.rank cs + (th.todo.map (Call.steps cs)).sum

@[simp] def ExpandPc.isWait : ExpandPc → Bool
  | .retry => true
  | _ => false

@[simp] def CheckoutPc.isWait : CheckoutPc → Bool
  | .expand _ pc => pc.isWait
  | _ => false

@[simp] def RbPc.isWait : RbPc → Bool
  | .retry => true
  | _ => false

/-- The clock checks of `hot_wait_for_cond`. -/
def Pc.isWait : Pc → Bool
  | .checkout _ _ pc | .insertCheckout _ _ pc => pc.isWait
  | .rbCheckout _ _ pc | .insertRb _ _ _ _ pc => pc.isWait
  | _ => false

/-- A wait that has time left. -/
@[simp] def hasTime (isWait : Bool) (o : Outcome) : Bool := isWait && decide (o = .succeed)

@[simp] def Next.rank {π ρ : Type} (rank : π → ℕ) : Next π ρ → ℕ
  | .goto pc => rank pc
  | .done _ => 0

theorem CheckoutPc.rank_ne_zero (pc : CheckoutPc) : pc.rank ≠ 0 := by
  cases pc with
  | expand start pc => cases pc <;> simp
  | _ => simp

theorem CleanPc.rank_ne_zero (pc : CleanPc) : pc.rank ≠ 0 := by
  cases pc <;> simp

theorem RbPc.rank_ne_zero (pc : RbPc) : pc.rank ≠ 0 := by
  cases pc <;> simp

theorem dataFileExpand_rank (e : ℕ) (m : LogMetadata) (f : DataFile) (errno : MmlogErr)
    (o : Outcome) (pc : ExpandPc) :
    (dataFileExpand e m f errno o pc).2.2.2.rank ExpandPc.rank + 1 ≤
      pc.rank + 3 * (hasTime pc.isWait o).toNat := by
  cases pc with
  | tryLock => cases h : m.isLocked <;> simp [dataFileExpand, h]
  | retry => cases o <;> simp [dataFileExpand]
  | loadPanicked =>
      cases h : m.isPanicked <;> simp [dataFileExpand, h]
  | loadSize =>
      simp only [dataFileExpand]
      split <;> simp
  | ftruncate n => cases o <;> simp [dataFileExpand]
  | _ => simp [dataFileExpand]

theorem mmlogCheckout_rank (size : ℕ) (m : LogMetadata) (f : DataFile) (errno : MmlogErr)
    (o : Outcome) (pc : CheckoutPc) :
    (mmlogCheckout size m f errno o pc).2.2.2.rank CheckoutPc.rank + 1 ≤
      pc.rank + 3 * (hasTime pc.isWait o).toNat := by
  cases pc with
  | fetchAdd => simp [mmlogCheckout]
  | loadSize start =>
      simp only [mmlogCheckout]
      split <;> simp
  | expand start pc =>
      have hexpand := dataFileExpand_rank (endOffset start size) m f errno o pc
      simp only [mmlogCheckout, CheckoutPc.rank, CheckoutPc.isWait]
      generalize (dataFileExpand (endOffset start size) m f errno o pc).2.2.2 = next at hexpand ⊢
      cases next with
      | goto pc' => exact hexpand
      | done b => cases b <;> exact hexpand

theorem cleanChunks_rank {r : ChunkBuffer} {pc : CleanPc} (ht : r.tail = none)
    (hpc : CleanAt pc) : (cleanChunks r pc).2.rank CleanPc.rank + 1 ≤ pc.rank := by
  cases pc with
  | loadTail => simp [cleanChunks, ht]
  | loadHead tail =>
      cases hpc
      simp [cleanChunks]
  | _ => exact hpc.elim

theorem mmlogRbCheckout_rank (cs : ℕ) {cursor : ℕ} {r : ChunkBuffer} (errno : MmlogErr)
    (o : Outcome)
    {pc : RbPc} (hcap : 0 < r.capacity) (hpc : RbAt r cursor pc) :
    (mmlogRbCheckout cs cursor r errno o pc).2.2.rank RbPc.rank + 1 ≤
      pc.rank + 3 * (hasTime pc.isWait o).toNat := by
  cases pc with
  | lock => cases h : r.headLocked <;> simp [mmlogRbCheckout, h]
  | retry => cases o <;> simp [mmlogRbCheckout]
  | loadSlot head tail =>
      obtain ⟨-, rfl⟩ := hpc
      simp only [mmlogRbCheckout, addNewChunk_of_tail_none hcap]
      split
      · split <;> simp
      · simp
  | clean pc => exact hpc.elim
  | reloadHead => exact hpc.elim
  | reloadTail head => exact hpc.elim
  | calloc head next => cases o <;> simp [mmlogRbCheckout]
  | mmap head next => cases o <;> simp [mmlogRbCheckout]
  | casHead head next id =>
      simp only [mmlogRbCheckout]
      split <;> simp
  | _ => simp [mmlogRbCheckout]

/-! ## The loop of `mmlog_insert` -/

section Loop

variable {start size w cs : ℕ}

/-- A turn of the loop reaches the end of the record or the end of its chunk. -/
theorem bytesToWrite_ends (hcs : 0 < cs) (hend : start + size + cs < 2 ^ 64) (hw : w < size) :
    w + bytesToWrite start size w cs = size ∨
      start + w + bytesToWrite start size w cs = ((start + w) / cs + 1) * cs := by
  have hcur : currentCursor start w = start + w := currentCursor_eq (by omega)
  have hdiv : (start + w) / cs * cs ≤ start + w := Nat.div_mul_le_self _ _
  have hnext : ((start + w) / cs + 1) * cs = (start + w) / cs * cs + cs := Nat.succ_mul _ _
  have hlt : start + w < (start + w) / cs * cs + cs := Nat.lt_div_mul_add hcs
  have hchunkEnd : u64 (((start + w) / cs + 1) * cs) = ((start + w) / cs + 1) * cs :=
    Nat.mod_eq_of_lt (by omega)
  simp only [bytesToWrite, hcur, hchunkEnd]
  split
  · right
    have hsub : u64 (((start + w) / cs + 1) * cs + (2 ^ 64 - (start + w))) =
        ((start + w) / cs + 1) * cs - (start + w) := by
      rw [u64, ← Nat.add_sub_assoc (by omega), Nat.sub_add_comm (by omega), Nat.add_mod_right,
        Nat.mod_eq_of_lt (by omega)]
    rw [hsub]
    omega
  · left
    omega

theorem turnsLeft_pos (start cs : ℕ) (hw : w < size) : 0 < turnsLeft start size w cs := by
  rw [turnsLeft, if_pos hw]
  exact Nat.succ_pos _

/-- A turn is one turn less. -/
theorem turnsLeft_next (hcs : 0 < cs) (hend : start + size + cs < 2 ^ 64) (hw : w < size) :
    turnsLeft start size (u64 (w + bytesToWrite start size w cs)) cs + 1 ≤
      turnsLeft start size w cs := by
  obtain ⟨-, hle, -⟩ := bytesToWrite_spec hcs hend hw
  have hnext : u64 (w + bytesToWrite start size w cs) = w + bytesToWrite start size w cs :=
    Nat.mod_eq_of_lt (by omega)
  rw [hnext]
  by_cases hlast : w + bytesToWrite start size w cs < size
  · have hboundary : start + (w + bytesToWrite start size w cs) = ((start + w) / cs + 1) * cs := by
      rcases bytesToWrite_ends hcs hend hw with hall | hchunk
      · omega
      · omega
    have hchunk : (start + (w + bytesToWrite start size w cs)) / cs = (start + w) / cs + 1 := by
      rw [hboundary, Nat.mul_div_cancel _ hcs]
    have hmono : (start + (w + bytesToWrite start size w cs)) / cs ≤ (start + size - 1) / cs :=
      Nat.div_le_div_right (by omega)
    rw [turnsLeft, turnsLeft, if_pos hlast, if_pos hw]
    omega
  · rw [turnsLeft, if_neg hlast, Nat.zero_add]
    exact turnsLeft_pos start cs hw

theorem loopRank_le (start size : ℕ) (hcs : 0 < cs) :
    loopRank start size 0 cs ≤ recordRank size cs := by
  have hturns : turnsLeft start size 0 cs ≤ size / cs + 2 := by
    rw [turnsLeft]
    split
    · have hmono : (start + size - 1) / cs ≤ (start + size) / cs :=
        Nat.div_le_div_right (Nat.sub_le _ _)
      have hadd := Nat.add_div (a := start) (b := size) hcs
      generalize (start + size - 1) / cs = last at hmono
      generalize (start + size) / cs = next at hmono hadd
      simp only [Nat.add_zero]
      generalize start / cs = first at hadd
      generalize size / cs = chunks at hadd
      split at hadd
      · omega
      · omega
    · exact Nat.zero_le _
  rw [loopRank, recordRank]
  omega

theorem le_loopRank (start cs : ℕ) (hw : w < size) : 15 ≤ loopRank start size w cs := by
  have hpos := turnsLeft_pos start cs hw
  rw [loopRank]
  omega

theorem loopRank_next (hcs : 0 < cs) (hend : start + size + cs < 2 ^ 64) (hw : w < size) :
    loopRank start size (u64 (w + bytesToWrite start size w cs)) cs + 13 ≤
      loopRank start size w cs := by
  have hnext := turnsLeft_next hcs hend hw
  rw [loopRank, loopRank]
  omega

end Loop

/-! ## One step of a thread -/

section Thread

variable {cs : ℕ}

@[simp] theorem rank_goto (th : Thread) (pc : Pc) (errno : MmlogErr) :
    (th.goto pc errno).rank cs = pc.rank cs + (th.todo.map (Call.steps cs)).sum := rfl

@[simp] theorem rank_finish (th : Thread) (call : Call) (v : Value) (errno : MmlogErr) :
    (th.finish call v errno).rank cs = (th.todo.map (Call.steps cs)).sum :=
  Nat.zero_add _

/-- The head of the loop has all turns that are left before it. -/
@[simp] theorem rank_insertLoop (th : Thread) (h : ℕ) (data : Payload) (start w : ℕ) :
    (th.insertLoop h data start w).rank cs =
      loopRank start data.size w cs + (th.todo.map (Call.steps cs)).sum := by
  unfold Thread.insertLoop
  split
  · have hle := le_loopRank start cs ‹w < data.size›
    simp only [rank_goto, Pc.rank, RbPc.rank]
    omega
  · simp [Pc.rank, loopRank, turnsLeft, *]

theorem rank_start (cs : ℕ) (th : Thread) (call : Call) :
    (th.start call).rank cs + 1 ≤ call.steps cs + (th.todo.map (Call.steps cs)).sum := by
  cases call with
  | checkout h size =>
      cases h <;> simp only [Thread.start, rank_finish, rank_goto, Pc.rank, CheckoutPc.rank,
        Call.steps] <;> omega
  | rbCheckout h cursor =>
      cases h <;> simp only [Thread.start, rank_finish, rank_goto, Pc.rank, RbPc.rank,
        Call.steps] <;> omega
  | cleanChunks h =>
      cases h <;> simp only [Thread.start, rank_finish, rank_goto, Pc.rank, CleanPc.rank,
        Call.steps] <;> omega
  | trim h =>
      cases h <;> simp only [Thread.start, rank_finish, rank_goto, Pc.rank, Call.steps] <;> omega
  | insert h data =>
      cases data with
      | none => cases h <;> simp only [Thread.start, rank_finish, Call.steps] <;> omega
      | some data =>
          cases h with
          | none =>
              simp only [Thread.start, rank_finish, Call.steps]
              omega
          | some h =>
              simp only [Thread.start]
              split
              · simp only [rank_finish, Call.steps]
                omega
              · simp only [rank_goto, Pc.rank, CheckoutPc.rank, Call.steps]
                omega

/-- What a thread inside the loop of `mmlog_insert` knows about its place. -/
def TurnFits (cs : ℕ) (pc : Pc) : Prop :=
  ∀ data start w, pc.turn? = some (data, start, w) →
    w < data.size ∧ start + data.size + cs < 2 ^ 64

/-- Each step of a thread brings it closer to its return, but for a wait that has time left. -/
theorem threadStep_rank {cfg : Config} {s : Log} {th : Thread} (o : Outcome)
    (hcs : s.metadata.chunkSize = cfg.chunkSize) (ok : RingsOk cfg s.ring)
    (hpt : PcRing s.ring th.pc) (hturn : TurnFits cfg.chunkSize th.pc)
    (hpos : 0 < th.rank cfg.chunkSize) :
    (threadStep s th o).2.rank cfg.chunkSize + 1 ≤
      th.rank cfg.chunkSize + 3 * (hasTime th.pc.isWait o).toNat := by
  have hcap : ∀ h, 0 < (s.ring h).capacity := by
    intro h
    rw [(ok h).capacity]
    exact Nat.lt_of_lt_of_le Nat.zero_lt_two (cfg.two_le_chunkCount h)
  obtain ⟨p, errno, todo, results⟩ := th
  cases p with
  | idle =>
      cases todo with
      | nil => exact absurd hpos (Nat.lt_irrefl 0)
      | cons call rest =>
          have hstart := rank_start cfg.chunkSize ⟨.idle, errno, rest, results⟩ call
          simp only [threadStep, Thread.rank, List.map_cons, List.sum_cons, Pc.rank] at hstart ⊢
          omega
  | checkout h size pc =>
      have hstep := mmlogCheckout_rank size s.metadata s.file errno o pc
      simp only [threadStep, Thread.rank, Pc.rank, Pc.isWait]
      generalize (mmlogCheckout size s.metadata s.file errno o pc).2.2.2 = next at hstep ⊢
      cases next with
      | goto pc' =>
          simp only [Thread.goto, Next.rank] at hstep ⊢
          omega
      | done v =>
          simp only [Thread.finish, Next.rank] at hstep ⊢
          omega
  | rbCheckout h cursor pc =>
      have hstep := mmlogRbCheckout_rank s.metadata.chunkSize errno o (hcap h) hpt.2
      simp only [threadStep, Thread.rank, Pc.rank, Pc.isWait]
      generalize (mmlogRbCheckout s.metadata.chunkSize cursor (s.ring h) errno o pc).2.2 = next
        at hstep ⊢
      cases next with
      | goto pc' =>
          simp only [Thread.goto, Next.rank] at hstep ⊢
          omega
      | done v =>
          simp only [Thread.finish, Next.rank] at hstep ⊢
          omega
  | clean h pc =>
      have hstep := cleanChunks_rank (ok h).tail hpt
      simp only [threadStep, Thread.rank, Pc.rank]
      generalize (cleanChunks (s.ring h) pc).2 = next at hstep ⊢
      cases next with
      | goto pc' =>
          simp only [Thread.goto, Next.rank] at hstep ⊢
          omega
      | done v =>
          simp only [Thread.finish, Next.rank] at hstep ⊢
          omega
  | insertCheckout h data pc =>
      have hstep := mmlogCheckout_rank data.size s.metadata s.file errno o pc
      have hrank : Thread.rank cfg.chunkSize ⟨.insertCheckout h data pc, errno, todo, results⟩ =
          pc.rank + recordRank data.size cfg.chunkSize +
            (todo.map (Call.steps cfg.chunkSize)).sum := rfl
      have hplace : recordRank data.size cfg.chunkSize = 13 * (data.size / cfg.chunkSize + 2) + 2 :=
        rfl
      rw [hrank]
      simp only [threadStep, Pc.isWait]
      generalize (mmlogCheckout data.size s.metadata s.file errno o pc).2.2.2 = next at hstep ⊢
      cases next with
      | goto pc' =>
          simp only [rank_goto, Pc.rank, Next.rank] at hstep ⊢
          omega
      | done start =>
          have hloop := loopRank_le start data.size cfg.chunkSize_pos
          simp only [Next.rank] at hstep ⊢
          split
          · simp only [rank_finish]
            omega
          · split
            · simp only [rank_goto, Pc.rank]
              omega
            · simp only [rank_insertLoop]
              omega
  | insertPwrite h data start =>
      simp only [threadStep]
      split
      · simp only [Thread.rank, Thread.finish, Pc.rank]
        omega
      · simp only [Thread.rank, Thread.finish, Pc.rank]
        omega
  | insertRb h data start w pc =>
      have hstep := mmlogRbCheckout_rank s.metadata.chunkSize errno o (hcap h) hpt
      have hle := le_loopRank start cfg.chunkSize (hturn data start w rfl).1
      simp only [threadStep, Thread.rank, Pc.rank, Pc.isWait]
      generalize (mmlogRbCheckout s.metadata.chunkSize (currentCursor start w) (s.ring h) errno o
        pc).2.2 = next at hstep ⊢
      cases next with
      | goto pc' =>
          simp only [Thread.goto, Next.rank] at hstep ⊢
          omega
      | done v =>
          cases v with
          | none =>
              simp only [Thread.finish, Next.rank] at hstep ⊢
              omega
          | some id =>
              simp only [Thread.goto, Next.rank] at hstep ⊢
              omega
  | insertMemcpy h data start w id =>
      have hle := le_loopRank start cfg.chunkSize (hturn data start w rfl).1
      simp only [threadStep, Thread.rank, Thread.goto, Pc.rank]
      omega
  | insertRelease h data start w id =>
      obtain ⟨hw, hend⟩ := hturn data start w rfl
      have hnext := loopRank_next cfg.chunkSize_pos hend hw
      simp only [threadStep, hcs, rank_insertLoop]
      simp only [Thread.rank, Pc.rank]
      omega
  | insertClean h data start pc =>
      have hstep := cleanChunks_rank (ok h).tail hpt
      simp only [threadStep, Thread.rank, Pc.rank]
      generalize (cleanChunks (s.ring h) pc).2 = next at hstep ⊢
      cases next with
      | goto pc' =>
          simp only [Thread.goto, Next.rank] at hstep ⊢
          omega
      | done v =>
          simp only [Thread.finish, Next.rank] at hstep ⊢
          omega
  | trimLoad h =>
      simp only [threadStep, Thread.rank, Thread.goto, Pc.rank]
      omega
  | trimFtruncate h cursor =>
      cases o <;> simp only [threadStep, Thread.rank, Thread.finish, Pc.rank] <;> omega

end Thread

/-! ## Places -/

/-- The place of a record ends below the total of all sizes. -/
def Placed (total : ℕ) (th : Thread) : Prop :=
  ∀ start data, th.pc.reserved? = some (start, data) → start + data.size ≤ total

theorem Placed.of_none {total : ℕ} {th : Thread} (h : th.pc.reserved? = none) :
    Placed total th := by
  intro start data hres
  rw [h] at hres
  cases hres

theorem Placed.insertLoop {total start w : ℕ} {data : Payload} (th : Thread) (a : ℕ)
    (h : start + data.size ≤ total) : Placed total (th.insertLoop a data start w) := by
  unfold Thread.insertLoop
  split
  all_goals
    rintro _ _ ⟨⟩
    exact h

theorem threadStep_placed {total : ℕ} {s : Log} {th : Thread} (o : Outcome)
    (h : Placed total th) (hcursor : s.metadata.cursor + th.pc.unclaimed ≤ total) :
    Placed total (threadStep s th o).2 := by
  obtain ⟨p, errno, todo, results⟩ := th
  cases p with
  | idle =>
      cases todo with
      | nil => exact h
      | cons call rest =>
          apply Placed.of_none
          simp only [threadStep, Thread.start]
          split <;> first | rfl | (split <;> rfl)
  | checkout a size pc =>
      simp only [threadStep]
      split <;> exact .of_none rfl
  | rbCheckout a cursor pc =>
      simp only [threadStep]
      split <;> exact .of_none rfl
  | clean a pc =>
      simp only [threadStep]
      split <;> exact .of_none rfl
  | insertCheckout a data pc =>
      cases hstart : pc.start? with
      | none =>
          cases pc with
          | fetchAdd =>
              rintro _ _ ⟨⟩
              exact hcursor
          | loadSize start => cases hstart
          | expand start pc => cases hstart
      | some start =>
          have hplace : start + data.size ≤ total := h start data (by simp [Pc.reserved?, hstart])
          have hnext := mmlogCheckout_next data.size s.metadata s.file errno o hstart
          simp only [threadStep]
          split
          · rename_i pc' hgoto
            intro start' data' hres
            simp only [Thread.goto, Pc.reserved?, hnext.1 pc' hgoto, Option.map_some] at hres
            cases hres
            exact hplace
          · rename_i v hdone
            split
            · exact .of_none rfl
            · rename_i hvalid
              obtain rfl := (hnext.2 v hdone).resolve_right hvalid
              split
              · rintro _ _ ⟨⟩
                exact hplace
              · exact .insertLoop _ a hplace
  | insertPwrite a data start =>
      simp only [threadStep]
      split <;> exact .of_none rfl
  | insertRb a data start w pc =>
      simp only [threadStep]
      split
      · exact h
      · exact .of_none rfl
      · exact h
  | insertMemcpy a data start w id => exact h
  | insertRelease a data start w id => exact .insertLoop _ a (h start data rfl)
  | insertClean a data start pc =>
      simp only [threadStep]
      split
      · exact h
      · exact .of_none rfl
  | trimLoad a => exact .of_none rfl
  | trimFtruncate a cursor => cases o <;> exact .of_none rfl

/-! ## Runs -/

/-- What the rank of a thread rests on. -/
structure ProgressInv (cfg : Config) (programs : List (List Call)) (s : System) : Prop where
  reached : ∃ sched, s = reached cfg programs sched
  turn : ∀ t, TurnAt cfg.chunkSize (s.thread t)
  placed : ∀ t, Placed (totalBytes programs) (s.thread t)

theorem ProgressInv.chunkSize {cfg : Config} {programs : List (List Call)} {s : System}
    (h : ProgressInv cfg programs s) : s.shared.metadata.chunkSize = cfg.chunkSize := by
  obtain ⟨sched, rfl⟩ := h.reached
  exact reached_chunkSize cfg programs sched

theorem progressInv_step {cfg : Config} {programs : List (List Call)} (s : System) (t : ℕ)
    (o : Outcome) (h : ProgressInv cfg programs s) :
    ProgressInv cfg programs (step threadStep s t o) := by
  have hcs := h.chunkSize
  obtain ⟨⟨sched, hs⟩, hturn, hplaced⟩ := h
  have hcursor := cursor_add_unclaimed_le cfg programs sched t
  rw [← hs] at hcursor
  refine ⟨⟨sched ++ [(t, o)], ?_⟩, ?_, ?_⟩
  · rw [hs, reached, reached, run_append]
    rfl
  · exact step_forall threadStep (A := fun _ th => TurnAt cfg.chunkSize th)
      (threadStep_turn o cfg.chunkSize_pos hcs (hturn t)) fun u _ => hturn u
  · exact step_forall threadStep (A := fun _ th => Placed (totalBytes programs) th)
      (threadStep_placed o (hplaced t) hcursor) fun u _ => hplaced u

/-- The turns of a thread that is in the loop end before the last offset. -/
theorem ProgressInv.turnFits {cfg : Config} {programs : List (List Call)} {s : System}
    (h : ProgressInv cfg programs s) (hsmall : totalBytes programs + cfg.chunkSize < 2 ^ 64)
    (t : ℕ) : TurnFits cfg.chunkSize (s.thread t).pc := by
  intro data start w hturn
  refine ⟨((h.turn t).turn data start w hturn).1, ?_⟩
  have hres : (s.thread t).pc.reserved? = some (start, data) := by
    generalize (s.thread t).pc = pc at hturn
    cases pc <;> cases hturn <;> rfl
  have hplaced := h.placed t start data hres
  omega

theorem pcRank_eq_zero_iff {cs : ℕ} {pc : Pc} (hfits : TurnFits cs pc) :
    pc.rank cs = 0 ↔ pc = .idle := by
  cases pc with
  | insertRb h data start w pc =>
      simp only [Pc.rank, Nat.add_eq_zero_iff, RbPc.rank_ne_zero, false_and, reduceCtorEq]
  | insertMemcpy h data start w id =>
      have hle := le_loopRank start cs (hfits data start w rfl).1
      simp only [Pc.rank, reduceCtorEq, iff_false]
      omega
  | insertRelease h data start w id =>
      have hle := le_loopRank start cs (hfits data start w rfl).1
      simp only [Pc.rank, reduceCtorEq, iff_false]
      omega
  | _ =>
      simp only [Pc.rank, Nat.add_eq_zero_iff, CheckoutPc.rank_ne_zero, CleanPc.rank_ne_zero,
        RbPc.rank_ne_zero, OfNat.ofNat_ne_zero, one_ne_zero, false_and, reduceCtorEq]

end SystemsExperiments.Mmlog
