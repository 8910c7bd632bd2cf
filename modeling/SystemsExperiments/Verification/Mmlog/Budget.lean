import SystemsExperiments.Verification.Mmlog.Steps
import Mathlib.Algebra.BigOperators.Fin

/-! # The cursor stays below the total of all sizes -/

namespace SystemsExperiments.Mmlog

open Interleaving

/-- The bytes that a call asks the log to reserve. -/
def Call.bytes : Call → ℕ
  | .checkout _ size => size
  | .insert _ (some data) => data.size
  | _ => 0

def programBytes (program : List Call) : ℕ := (program.map Call.bytes).sum

/-- The total of all sizes that the programs ask for. -/
def totalBytes (programs : List (List Call)) : ℕ := (programs.map programBytes).sum

/-- The bytes of the current call that are not yet added to the cursor. -/
def Pc.unclaimed : Pc → ℕ
  | .checkout _ size .fetchAdd => size
  | .insertCheckout _ data .fetchAdd => data.size
  | _ => 0

def Thread.remaining (th : Thread) : ℕ := th.pc.unclaimed + programBytes th.todo

@[simp] theorem programBytes_cons (call : Call) (rest : List Call) :
    programBytes (call :: rest) = call.bytes + programBytes rest := by
  simp [programBytes]

theorem remaining_finish (th : Thread) (call : Call) (v : Value) (e : MmlogErr) :
    (th.finish call v e).remaining = programBytes th.todo :=
  Nat.zero_add _

theorem remaining_goto_of_unclaimed {th : Thread} {pc : Pc} {e : MmlogErr}
    (h : pc.unclaimed = 0) : (th.goto pc e).remaining = programBytes th.todo := by
  simp [Thread.remaining, Thread.goto, h]

theorem remaining_insertLoop (th : Thread) (h : ℕ) (data : Payload) (start w : ℕ) :
    (th.insertLoop h data start w).remaining = programBytes th.todo := by
  unfold Thread.insertLoop
  split <;> simp [Thread.remaining, Thread.goto, Pc.unclaimed]

theorem remaining_start_le (th : Thread) (call : Call) :
    (th.start call).remaining ≤ call.bytes + programBytes th.todo := by
  unfold Thread.start
  split
  all_goals try split
  all_goals simp [Thread.remaining, Thread.goto, Thread.finish, Pc.unclaimed, Call.bytes]
  exact Nat.mod_le _ _

theorem mmlogCheckout_cursor (size : ℕ) (m : LogMetadata) (f : DataFile) (errno : MmlogErr)
    (o : Outcome) (pc : CheckoutPc) :
    (mmlogCheckout size m f errno o pc).1.cursor =
      if pc = .fetchAdd then u64 (m.cursor + size) else m.cursor := by
  cases pc with
  | fetchAdd => rfl
  | loadSize start =>
      simp only [mmlogCheckout]
      split <;> rfl
  | expand start pc =>
      simp only [mmlogCheckout]
      rw [dataFileExpand_frame]
      rfl

/-- No step of `mmlog_checkout` leads back to its first one. -/
theorem mmlogCheckout_goto_ne_fetchAdd {size : ℕ} {m : LogMetadata} {f : DataFile}
    {errno : MmlogErr} {o : Outcome} {pc pc' : CheckoutPc}
    (h : (mmlogCheckout size m f errno o pc).2.2.2 = .goto pc') : pc' ≠ .fetchAdd := by
  rintro rfl
  cases pc with
  | fetchAdd => cases h
  | loadSize start =>
      simp only [mmlogCheckout] at h
      split at h <;> cases h
  | expand start pc =>
      simp only [mmlogCheckout] at h
      split at h <;> cases h

/-- What the cursor gains in one step of `mmlog_checkout`. -/
theorem mmlogCheckout_cursor_le (size : ℕ) (m : LogMetadata) (f : DataFile)
    (errno : MmlogErr) (o : Outcome) (pc : CheckoutPc) :
    (mmlogCheckout size m f errno o pc).1.cursor ≤
      m.cursor + if pc = .fetchAdd then size else 0 := by
  rw [mmlogCheckout_cursor]
  split
  · exact Nat.mod_le _ _
  · exact le_rfl

/-- Every step moves the cursor by no more than its thread gives up. -/
theorem threadStep_budget (s : Log) (th : Thread) (o : Outcome) :
    (threadStep s th o).1.metadata.cursor + (threadStep s th o).2.remaining ≤
      s.metadata.cursor + th.remaining := by
  obtain ⟨p, errno, todo, results⟩ := th
  cases p with
  | idle =>
      cases todo with
      | nil => exact le_rfl
      | cons call rest =>
          have hstart := remaining_start_le ⟨.idle, errno, rest, results⟩ call
          simp only [threadStep, Thread.remaining, programBytes_cons, Pc.unclaimed] at hstart ⊢
          omega
  | checkout h size pc =>
      have hcur := mmlogCheckout_cursor_le size s.metadata s.file errno o pc
      have hun : Pc.unclaimed (.checkout h size pc) = if pc = .fetchAdd then size else 0 := by
        cases pc <;> rfl
      simp only [threadStep]
      split
      · rename_i pc' hnext
        have hne := mmlogCheckout_goto_ne_fetchAdd hnext
        have hzero : Pc.unclaimed (.checkout h size pc') = 0 := by
          cases pc' <;> first | rfl | exact (hne rfl).elim
        rw [remaining_goto_of_unclaimed hzero]
        simp only [Thread.remaining, hun]
        omega
      · rw [remaining_finish]
        simp only [Thread.remaining, hun]
        omega
  | insertCheckout h data pc =>
      have hcur := mmlogCheckout_cursor_le data.size s.metadata s.file errno o pc
      have hun : Pc.unclaimed (.insertCheckout h data pc) =
          if pc = .fetchAdd then data.size else 0 := by
        cases pc <;> rfl
      simp only [threadStep]
      split
      · rename_i pc' hnext
        have hne := mmlogCheckout_goto_ne_fetchAdd hnext
        have hzero : Pc.unclaimed (.insertCheckout h data pc') = 0 := by
          cases pc' <;> first | rfl | exact (hne rfl).elim
        rw [remaining_goto_of_unclaimed hzero]
        simp only [Thread.remaining, hun]
        omega
      · split
        · rw [remaining_finish]
          simp only [Thread.remaining, hun]
          omega
        · split
          · rw [remaining_goto_of_unclaimed rfl]
            simp only [Thread.remaining, hun]
            omega
          · rw [remaining_insertLoop]
            simp only [Thread.remaining, hun]
            omega
  | rbCheckout h cursor pc =>
      simp only [threadStep]
      split <;> exact le_rfl
  | clean h pc =>
      simp only [threadStep]
      split <;> exact le_rfl
  | insertPwrite h data start =>
      simp only [threadStep]
      split <;> exact le_rfl
  | insertRb h data start written pc =>
      simp only [threadStep]
      split <;> exact le_rfl
  | insertMemcpy h data start written id => exact le_rfl
  | insertRelease h data start written id =>
      simp only [threadStep, remaining_insertLoop]
      simp [Thread.remaining, Log.setRing]
  | insertClean h data start pc =>
      simp only [threadStep]
      split <;> exact le_rfl
  | trimLoad h => exact le_rfl
  | trimFtruncate h cursor => cases o <;> exact le_rfl

/-! ## Runs -/

theorem sum_programBytes_le (programs : List (List Call)) (n : ℕ) :
    ∑ t ∈ Finset.range n, programBytes (programs.getD t []) ≤ totalBytes programs := by
  induction programs generalizing n with
  | nil => simp [programBytes, totalBytes]
  | cons p rest ih =>
      cases n with
      | zero => simp
      | succ n =>
          rw [Finset.sum_range_succ']
          have hrest := ih n
          simp only [totalBytes, List.map_cons, List.sum_cons, List.getD_cons_succ,
            List.getD_cons_zero] at hrest ⊢
          omega

/-- The cursor, with what the next step of a thread may add to it, never passes the total
of all sizes. -/
theorem cursor_add_unclaimed_le (cfg : Config) (programs : List (List Call))
    (sched : Schedule) (t : ℕ) :
    (reached cfg programs sched).shared.metadata.cursor +
      ((reached cfg programs sched).thread t).pc.unclaimed ≤ totalBytes programs := by
  -- a bound above every thread that moves and above `t`
  obtain ⟨n, hn⟩ : ∃ n, ∀ m ∈ (t, Outcome.fail) :: sched, m.1 < n := by
    refine ⟨(((t, Outcome.fail) :: sched).map Prod.fst).sum + 1, fun m hm => ?_⟩
    exact Nat.lt_succ_of_le (List.single_le_sum (by simp) _ (List.mem_map_of_mem hm))
  have hbudget := run_budget threadStep (fun s : Log => s.metadata.cursor) Thread.remaining
    threadStep_budget (initial cfg programs) sched (fun m hm => hn m (by simp [hm]))
  have hstart := sum_programBytes_le programs n
  have hmem : t ∈ Finset.range n := Finset.mem_range.mpr (hn (t, .fail) (by simp))
  have hone : ((reached cfg programs sched).thread t).remaining ≤
      ∑ u ∈ Finset.range n, ((reached cfg programs sched).thread u).remaining :=
    Finset.single_le_sum (f := fun u => ((reached cfg programs sched).thread u).remaining)
      (fun _ _ => Nat.zero_le _) hmem
  have hinit : ∀ u, ((initial cfg programs).thread u).remaining =
      programBytes (programs.getD u []) := fun u => by
    simp [initial, Thread.remaining, Pc.unclaimed]
  simp only [hinit] at hbudget
  have hzero : (initial cfg programs).shared.metadata.cursor = 0 := rfl
  simp only [reached, Thread.remaining] at hone ⊢ hbudget
  omega

end SystemsExperiments.Mmlog
