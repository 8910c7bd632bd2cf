import SystemsExperiments.Verification.Mmlog.Progress
import SystemsExperiments.Verification.Mmlog.Trim

/-! # A thread that is left alone

Wherever the other threads have stopped: while they do not hold a lock they are not in the way
of an insert. -/

namespace SystemsExperiments.Mmlog

open Interleaving

/-! ## The points of an insert -/

def ExpandLone (m : LogMetadata) : ExpandPc → Prop
  | .tryLock => m.isLocked = false
  | .retry | .storePanicked | .unlockPanicked => False
  | _ => True

def CheckoutLone (m : LogMetadata) : CheckoutPc → Prop
  | .expand _ pc => ExpandLone m pc
  | _ => m.isLocked = false

/-- The points of an insert in which nothing has gone wrong, while nobody else moves. -/
def Lone (m : LogMetadata) (a : ℕ) (data : Payload) : Pc → Prop
  | .insertCheckout h d pc => h = a ∧ d = data ∧ CheckoutLone m pc
  | .insertRb h d _ _ pc => h = a ∧ d = data ∧ pc.sound
  | .insertPwrite h d _ | .insertMemcpy h d _ _ _ | .insertRelease h d _ _ _
  | .insertClean h d _ _ => h = a ∧ d = data
  | _ => False

theorem Lone.not_isWait {m : LogMetadata} {a : ℕ} {data : Payload} {pc : Pc}
    (h : Lone m a data pc) : pc.isWait = false := by
  match pc, h with
  | .insertCheckout _ _ pc, ⟨_, _, hpc⟩ =>
      cases pc with
      | expand start pc => cases pc <;> first | rfl | exact hpc.elim
      | _ => rfl
  | .insertRb _ _ _ _ pc, ⟨_, _, hpc⟩ => cases pc <;> first | rfl | exact hpc.elim
  | .insertPwrite _ _ _, _ => rfl
  | .insertMemcpy _ _ _ _ _, _ => rfl
  | .insertRelease _ _ _ _ _, _ => rfl
  | .insertClean _ _ _ _, _ => rfl

theorem mmlogCheckout_lone (size : ℕ) {m : LogMetadata} (f : DataFile) (errno : MmlogErr)
    {pc : CheckoutPc} (hpanic : m.isPanicked = false) (hpc : CheckoutLone m pc) :
    (mmlogCheckout size m f errno .succeed pc).1.isPanicked = false ∧
      ((∃ pc', (mmlogCheckout size m f errno .succeed pc).2.2.2 = .goto pc' ∧
          CheckoutLone (mmlogCheckout size m f errno .succeed pc).1 pc') ∨
        ∃ start, pc.start? = some start ∧
          (mmlogCheckout size m f errno .succeed pc).2.2.2 = .done start) := by
  cases pc with
  | fetchAdd => exact ⟨hpanic, .inl ⟨_, rfl, hpc⟩⟩
  | loadSize start =>
      simp only [mmlogCheckout]
      split
      · exact ⟨hpanic, .inl ⟨_, rfl, hpc⟩⟩
      · exact ⟨hpanic, .inr ⟨start, rfl, rfl⟩⟩
  | expand start pc =>
      cases pc with
      | tryLock =>
          have hfree : m.isLocked = false := hpc
          simp only [mmlogCheckout, dataFileExpand, hfree]
          exact ⟨hpanic, .inl ⟨_, rfl, trivial⟩⟩
      | loadPanicked =>
          simp only [mmlogCheckout, dataFileExpand, hpanic]
          exact ⟨hpanic, .inl ⟨_, rfl, trivial⟩⟩
      | loadSize =>
          simp only [mmlogCheckout, dataFileExpand]
          split
          · exact ⟨hpanic, .inl ⟨_, rfl, trivial⟩⟩
          · exact ⟨hpanic, .inl ⟨_, rfl, trivial⟩⟩
      | ftruncate n => exact ⟨hpanic, .inl ⟨_, rfl, trivial⟩⟩
      | storeSize n => exact ⟨hpanic, .inl ⟨_, rfl, trivial⟩⟩
      | unlock => exact ⟨hpanic, .inl ⟨_, rfl, trivial⟩⟩
      | checkPanicked =>
          simp only [mmlogCheckout, dataFileExpand, hpanic]
          exact ⟨trivial, .inr ⟨start, rfl, rfl⟩⟩
      | _ => exact hpc.elim

/-! ## One step -/

/-- A step of an insert leads on, or to its return with true. -/
structure LoneStep (a : ℕ) (data : Payload) (s : Log) (th : Thread) (s' : Log) (th' : Thread) :
    Prop where
  unpanicked : s'.metadata.isPanicked = false
  next : (∃ errno, th' = th.finish (.insert (some a) (some data)) (.bool true) errno) ∨
    ∃ pc errno, th' = th.goto pc errno ∧ Lone s'.metadata a data pc

theorem LoneStep.insertLoop {a : ℕ} {data : Payload} {s s' : Log} {th : Thread}
    (hpanic : s'.metadata.isPanicked = false) (start w : ℕ) :
    LoneStep a data s th s' (th.insertLoop a data start w) := by
  unfold Thread.insertLoop
  split
  · exact ⟨hpanic, .inr ⟨_, _, rfl, rfl, rfl, trivial⟩⟩
  · exact ⟨hpanic, .inr ⟨_, _, rfl, rfl, rfl⟩⟩

theorem threadStep_lone {cfg : Config} {s : Log} {th : Thread} {a total : ℕ} {data : Payload}
    (htotal : total < 2 ^ 64) (hplaced : Placed total th) (hpos : 0 < data.size)
    (ok : RingsOk cfg s.ring) (hpt : PcRing s.ring th.pc)
    (hfree : ∀ cursor, th.pc.rb? = some (a, cursor, .lock) → (s.ring a).headLocked = false)
    (hpanic : s.metadata.isPanicked = false) (h : Lone s.metadata a data th.pc) :
    LoneStep a data s th (threadStep s th .succeed).1 (threadStep s th .succeed).2 := by
  obtain ⟨p, errno, todo, results⟩ := th
  cases p with
  | insertCheckout b d pc =>
      obtain ⟨rfl, rfl, hpc⟩ := h
      obtain ⟨hpanic', ⟨pc', hnext, hlone⟩ | ⟨start, hstart, hdone⟩⟩ :=
        mmlogCheckout_lone d.size s.file errno hpanic hpc
      · simp only [threadStep, hnext]
        exact ⟨hpanic', .inr ⟨_, _, rfl, rfl, rfl, hlone⟩⟩
      · have hle : start + d.size ≤ total := hplaced start d (by simp [Pc.reserved?, hstart])
        have hvalid : start ≠ logCursorInvalid := by
          rw [logCursorInvalid]
          omega
        simp only [threadStep, hdone, if_neg hvalid]
        split
        · exact ⟨hpanic', .inr ⟨_, _, rfl, rfl, rfl⟩⟩
        · exact .insertLoop hpanic' start 0
  | insertPwrite b d start =>
      obtain ⟨rfl, rfl⟩ := h
      simp only [threadStep, pwriteResult, ne_eq, not_true_eq_false, if_false]
      exact ⟨hpanic, .inl ⟨errno, rfl⟩⟩
  | insertRb b d start w pc =>
      obtain ⟨rfl, rfl, hsound⟩ := h
      have hcap : 0 < (s.ring b).capacity := by
        rw [(ok b).capacity]
        exact Nat.lt_of_lt_of_le Nat.zero_lt_two (cfg.two_le_chunkCount b)
      have hlock : pc = .lock → (s.ring b).headLocked = false := by
        rintro rfl
        exact hfree _ rfl
      obtain ⟨pc', hnext, hsound'⟩ | ⟨id, hdone⟩ := mmlogRbCheckout_sound s.metadata.chunkSize
        errno hcap hpt hsound hlock (fun _ _ _ => rfl) fun _ _ _ => rfl
      · simp only [threadStep, hnext]
        exact ⟨hpanic, .inr ⟨_, _, rfl, rfl, rfl, hsound'⟩⟩
      · simp only [threadStep, hdone]
        exact ⟨hpanic, .inr ⟨_, _, rfl, rfl, rfl⟩⟩
  | insertMemcpy b d start w id =>
      obtain ⟨rfl, rfl⟩ := h
      exact ⟨hpanic, .inr ⟨_, _, rfl, rfl, rfl⟩⟩
  | insertRelease b d start w id =>
      obtain ⟨rfl, rfl⟩ := h
      refine LoneStep.insertLoop ?_ start _
      exact hpanic
  | insertClean b d start pc =>
      obtain ⟨rfl, rfl⟩ := h
      simp only [threadStep]
      split
      · exact ⟨hpanic, .inr ⟨_, _, rfl, rfl, rfl⟩⟩
      · exact ⟨hpanic, .inl ⟨errno, rfl⟩⟩
  | _ => exact h.elim

/-! ## Runs -/

/-- Only thread `t` moves, inside an insert. -/
structure AloneAt (cfg : Config) (programs : List (List Call)) (t a : ℕ) (data : Payload)
    (s : System) : Prop where
  progress : ProgressInv cfg programs s
  others : ∀ u, u ≠ t → ¬ HoldsHead a (s.thread u)
  unpanicked : s.shared.metadata.isPanicked = false
  lone : Lone s.shared.metadata a data (s.thread t).pc

/-- The thread has returned true from its insert. -/
def ReturnsTrue (a : ℕ) (data : Payload) (th th' : Thread) : Prop :=
  th'.pc = .idle ∧ th'.todo = th.todo ∧
    th'.results = th.results ++ [(.insert (some a) (some data), .bool true)]

section Alone

variable {cfg : Config} {programs : List (List Call)} {t a : ℕ} {data : Payload}

theorem AloneAt.headFree {s : System} (h : AloneAt cfg programs t a data s) {cursor : ℕ}
    (hpc : (s.thread t).pc.rb? = some (a, cursor, .lock)) :
    (s.shared.ring a).headLocked = false := by
  obtain ⟨sched, hs⟩ := h.progress.reached
  have htight := ((ringInv_reached cfg programs sched).exclusive a).2
  rw [← hs] at htight
  by_contra hlocked
  obtain ⟨u, hu, -⟩ := htight.mp (by simpa using hlocked)
  by_cases hut : u = t
  · subst hut
    rw [holdsHead_iff hpc] at hu
    exact hu
  · exact h.others u hut hu

theorem AloneAt.step (hsmall : totalBytes programs + cfg.chunkSize < 2 ^ 64) (hpos : 0 < data.size)
    {s : System} (h : AloneAt cfg programs t a data s) :
    ReturnsTrue a data (s.thread t) ((Interleaving.step threadStep s t .succeed).thread t) ∨
      AloneAt cfg programs t a data (Interleaving.step threadStep s t .succeed) ∧
        ((Interleaving.step threadStep s t .succeed).thread t).pc.rank cfg.chunkSize <
          (s.thread t).pc.rank cfg.chunkSize ∧
        ((Interleaving.step threadStep s t .succeed).thread t).todo = (s.thread t).todo ∧
        ((Interleaving.step threadStep s t .succeed).thread t).results =
          (s.thread t).results := by
  have hprogress := progressInv_step s t .succeed h.progress
  obtain ⟨sched, hs⟩ := h.progress.reached
  have hring := ringInv_reached cfg programs sched
  rw [← hs] at hring
  have hfits := h.progress.turnFits hsmall t
  have hbusy : 0 < (s.thread t).pc.rank cfg.chunkSize := by
    refine Nat.pos_of_ne_zero fun hzero => ?_
    have hlone := h.lone
    rw [(pcRank_eq_zero_iff hfits).mp hzero] at hlone
    exact hlone
  have hrank := threadStep_rank .succeed hring.chunkSize hring.ok (hring.point t).point hfits
    (Nat.lt_of_lt_of_le hbusy (Nat.le_add_right _ _))
  have hnext := threadStep_lone (Nat.lt_of_le_of_lt (Nat.le_add_right _ _) hsmall)
    (h.progress.placed t) hpos hring.ok (hring.point t).point (fun _ hpc => h.headFree hpc)
    h.unpanicked h.lone
  rw [← step_thread_self, hasTime, h.lone.not_isWait] at hrank
  rw [← step_shared, ← step_thread_self] at hnext
  obtain ⟨errno, hreturn⟩ | ⟨pc, errno, hgoto, hlone⟩ := hnext.next
  · left
    rw [hreturn]
    exact ⟨rfl, rfl, rfl⟩
  · right
    rw [hgoto] at hrank
    refine ⟨⟨hprogress, ?_, hnext.unpanicked, by rw [hgoto]; exact hlone⟩, ?_, ?_, ?_⟩
    · intro u hu
      rw [step_thread_of_ne threadStep s .succeed hu]
      exact h.others u hu
    · rw [hgoto]
      simp only [Thread.rank, Thread.goto, Bool.false_and, Bool.toNat_false,
        Nat.mul_zero] at hrank ⊢
      omega
    · rw [hgoto]
      rfl
    · rw [hgoto]
      rfl

end Alone

end SystemsExperiments.Mmlog
