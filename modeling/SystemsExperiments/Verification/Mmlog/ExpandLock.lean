import SystemsExperiments.Shared.Mutex
import SystemsExperiments.Verification.Mmlog.Steps

/-! # The lock around file expansion

Mutual exclusion holds whatever happens. The flag itself is tied to a holder only as long
as nobody takes the lock of a panicked log: `file_expand_inner` returns from its panic
check without giving the lock back. -/

namespace SystemsExperiments.Mmlog

open Interleaving

/-- Between the successful compare-exchange on `is_locked` and the store that gives the
lock back. -/
def ExpandPc.holdsLock : ExpandPc → Prop
  | .tryLock | .retry | .checkPanicked => False
  | .loadPanicked | .loadSize | .ftruncate _ | .storePanicked | .unlockPanicked
  | .storeSize _ | .unlock => True

def HoldsExpandLock (th : Thread) : Prop :=
  ∃ e pc, th.pc.expand? = some (e, pc) ∧ pc.holdsLock

theorem holdsExpandLock_iff {th : Thread} {e : ℕ} {pc : ExpandPc}
    (h : th.pc.expand? = some (e, pc)) : HoldsExpandLock th ↔ pc.holdsLock := by
  constructor
  · rintro ⟨e', pc', h', hin⟩
    obtain ⟨rfl, rfl⟩ := Prod.mk.inj (Option.some.inj (h.symm.trans h'))
    exact hin
  · exact fun hin => ⟨e, pc, h, hin⟩

theorem not_holdsExpandLock {th : Thread} (h : th.pc.expand? = none) :
    ¬ HoldsExpandLock th := by
  rintro ⟨e, pc, h', _⟩
  simp [h] at h'

/-! ## Steps -/

/-- The point after a step of `data_file_expand` is inside the lock. -/
def Next.holdsLock : Next ExpandPc Bool → Prop
  | .goto pc => pc.holdsLock
  | .done _ => False

theorem dataFileExpand_move (e : ℕ) (m : LogMetadata) (f : DataFile) (errno : MmlogErr)
    (o : Outcome) (pc : ExpandPc) :
    Mutex.Move m.isLocked pc.holdsLock (dataFileExpand e m f errno o pc).1.isLocked
      (dataFileExpand e m f errno o pc).2.2.2.holdsLock := by
  cases pc with
  | tryLock =>
      simp only [dataFileExpand]
      split
      · exact .keep Iff.rfl
      · rename_i hfree
        rw [Bool.eq_false_iff.mpr hfree]
        exact .acquire not_false trivial
  | retry => cases o <;> exact .keep Iff.rfl
  | loadPanicked =>
      simp only [dataFileExpand]
      split
      · exact .leave trivial not_false
      · exact .keep Iff.rfl
  | loadSize =>
      simp only [dataFileExpand]
      split <;> exact .keep Iff.rfl
  | ftruncate n => cases o <;> exact .keep Iff.rfl
  | storePanicked => exact .keep Iff.rfl
  | unlockPanicked => exact .leave trivial not_false
  | storeSize n => exact .keep Iff.rfl
  | unlock => exact .leave trivial not_false
  | checkPanicked => exact .keep Iff.rfl

theorem holdsExpandLock_step_iff {s : Log} {th : Thread} {o : Outcome} {e : ℕ}
    {pc : ExpandPc} (hpc : th.pc.expand? = some (e, pc)) :
    HoldsExpandLock (threadStep s th o).2 ↔
      (dataFileExpand e s.metadata s.file th.errno o pc).2.2.2.holdsLock := by
  have hnext := (threadStep_expand (s := s) (o := o) hpc).2.1
  revert hnext
  generalize (dataFileExpand e s.metadata s.file th.errno o pc).2.2.2 = n
  cases n with
  | goto pc' => exact fun hnext => holdsExpandLock_iff hnext
  | done b => exact fun hnext => iff_of_false (not_holdsExpandLock hnext) not_false

theorem threadStep_expandMove (s : Log) (th : Thread) (o : Outcome) :
    Mutex.Move s.metadata.isLocked (HoldsExpandLock th)
      (threadStep s th o).1.metadata.isLocked (HoldsExpandLock (threadStep s th o).2) := by
  cases hpc : th.pc.expand? with
  | none =>
      obtain ⟨hmeta, hnext⟩ := threadStep_outside (s := s) (o := o) hpc
      rw [hmeta]
      apply Mutex.Move.keep
      apply iff_of_false _ (not_holdsExpandLock hpc)
      rcases hnext with hnext | ⟨e, hnext⟩
      · exact not_holdsExpandLock hnext
      · rw [holdsExpandLock_iff hnext]
        exact not_false
  | some p =>
      obtain ⟨e, pc⟩ := p
      have hmove := dataFileExpand_move e s.metadata s.file th.errno o pc
      rw [← propext (holdsExpandLock_iff hpc), ← propext (holdsExpandLock_step_iff hpc)] at hmove
      rw [(threadStep_expand hpc).1]
      exact hmove

/-- Only a thread about to store the panic flag changes it. -/
theorem threadStep_isPanicked (s : Log) (th : Thread) (o : Outcome) :
    (threadStep s th o).1.metadata.isPanicked = s.metadata.isPanicked ∨
      (∃ e, th.pc.expand? = some (e, .storePanicked)) ∧
        (threadStep s th o).1.metadata.isPanicked = true := by
  cases hpc : th.pc.expand? with
  | none =>
      rw [(threadStep_outside hpc).1]
      exact .inl rfl
  | some p =>
      obtain ⟨e, pc⟩ := p
      rw [(threadStep_expand hpc).1]
      cases pc with
      | storePanicked => exact .inr ⟨⟨e, rfl⟩, rfl⟩
      | tryLock =>
          simp only [dataFileExpand]
          split <;> exact .inl rfl
      | retry => cases o <;> exact .inl rfl
      | loadPanicked =>
          simp only [dataFileExpand]
          split <;> exact .inl rfl
      | loadSize =>
          simp only [dataFileExpand]
          split <;> exact .inl rfl
      | ftruncate n => cases o <;> exact .inl rfl
      | unlockPanicked => exact .inl rfl
      | storeSize n => exact .inl rfl
      | unlock => exact .inl rfl
      | checkPanicked => exact .inl rfl

/-- A thread reaches the panic check only by taking the free lock. -/
theorem threadStep_reaches_loadPanicked {s : Log} {th : Thread} {o : Outcome} {e : ℕ}
    (h : (threadStep s th o).2.pc.expand? = some (e, .loadPanicked)) :
    th.pc.expand? = some (e, .tryLock) ∧ s.metadata.isLocked = false := by
  obtain ⟨pc, hpc, hnext⟩ := exists_of_expand h (by simp)
  cases pc with
  | tryLock =>
      simp only [dataFileExpand] at hnext
      split at hnext
      · cases hnext
      · rename_i hfree
        exact ⟨hpc, by simpa using hfree⟩
  | retry => cases o <;> cases hnext
  | loadPanicked =>
      simp only [dataFileExpand] at hnext
      split at hnext <;> cases hnext
  | loadSize =>
      simp only [dataFileExpand] at hnext
      split at hnext <;> cases hnext
  | ftruncate n => cases o <;> cases hnext
  | storePanicked => cases hnext
  | unlockPanicked => cases hnext
  | storeSize n => cases hnext
  | unlock => cases hnext
  | checkPanicked => cases hnext

/-- A thread that leaves the section gives the lock back, unless it saw the panic flag. -/
theorem threadStep_leaves {s : Log} {th : Thread} {o : Outcome} (hin : HoldsExpandLock th)
    (hout : ¬ HoldsExpandLock (threadStep s th o).2) :
    (threadStep s th o).1.metadata.isLocked = false ∨
      (∃ e, th.pc.expand? = some (e, .loadPanicked)) ∧ s.metadata.isPanicked = true := by
  obtain ⟨e, pc, hpc, hin⟩ := hin
  rw [holdsExpandLock_step_iff hpc] at hout
  rw [(threadStep_expand hpc).1]
  cases pc with
  | tryLock => exact hin.elim
  | retry => exact hin.elim
  | checkPanicked => exact hin.elim
  | loadPanicked =>
      simp only [dataFileExpand] at hout
      split at hout
      · rename_i hpanic
        exact .inr ⟨⟨e, hpc⟩, hpanic⟩
      · exact (hout trivial).elim
  | loadSize =>
      simp only [dataFileExpand] at hout
      split at hout <;> exact (hout trivial).elim
  | ftruncate n => cases o <;> exact (hout trivial).elim
  | storePanicked => exact (hout trivial).elim
  | unlockPanicked => exact .inl rfl
  | storeSize n => exact (hout trivial).elim
  | unlock => exact .inl rfl

/-! ## Runs -/

abbrev ExpandExclusive (s : System) : Prop :=
  Mutex.Exclusive (fun l : Log => l.metadata.isLocked) HoldsExpandLock s

theorem expandExclusive_initial (cfg : Config) (programs : List (List Call)) :
    ExpandExclusive (initial cfg programs) := by
  have hout : ∀ t, ¬ HoldsExpandLock ((initial cfg programs).thread t) :=
    fun t => not_holdsExpandLock rfl
  exact ⟨fun t u ht => (hout t ht).elim, fun t ht => (hout t ht).elim⟩

theorem expandExclusive_step (s : System) (t : ℕ) (o : Outcome) (h : ExpandExclusive s) :
    ExpandExclusive (step threadStep s t o) := by
  apply h.step
  rw [step_thread_self, step_shared]
  exact threadStep_expandMove s.shared (s.thread t) o

/-- A thread that finds the lock free does not find the log panicked. -/
def AcquiresUnpanicked (s : System) (t : ℕ) (_ : Outcome) : Prop :=
  (s.thread t).pc.expand?.map Prod.snd = some .tryLock →
    s.shared.metadata.isLocked = false → s.shared.metadata.isPanicked = false

instance (s : System) (t : ℕ) (o : Outcome) : Decidable (AcquiresUnpanicked s t o) :=
  inferInstanceAs (Decidable (_ → _ → _))

/-- The lock discipline of a run that never takes the lock of a panicked log. -/
structure LockDiscipline (s : System) : Prop where
  exclusive : ExpandExclusive s
  tight : Mutex.Tight (fun l : Log => l.metadata.isLocked) HoldsExpandLock s
  unpanicked : ∀ t e, (s.thread t).pc.expand? = some (e, .loadPanicked) →
    s.shared.metadata.isPanicked = false

theorem lockDiscipline_initial (cfg : Config) (programs : List (List Call)) :
    LockDiscipline (initial cfg programs) := by
  refine ⟨expandExclusive_initial cfg programs, ?_, fun t e h => by cases h⟩
  constructor
  · intro h
    cases h
  · rintro ⟨t, ht, _⟩
    exact (not_holdsExpandLock rfl ht).elim

theorem LockDiscipline.leaves {s : System} (h : LockDiscipline s) {t : ℕ} {o : Outcome}
    (hin : HoldsExpandLock (s.thread t))
    (hout : ¬ HoldsExpandLock ((step threadStep s t o).thread t)) :
    (step threadStep s t o).shared.metadata.isLocked = false := by
  rw [step_thread_self] at hout
  rcases threadStep_leaves hin hout with hfree | ⟨⟨e, hpc⟩, hpanic⟩
  · exact hfree
  · simp [h.unpanicked t e hpc] at hpanic

theorem lockDiscipline_step (s : System) (t : ℕ) (o : Outcome) (h : LockDiscipline s)
    (hc : AcquiresUnpanicked s t o) : LockDiscipline (step threadStep s t o) := by
  refine ⟨expandExclusive_step s t o h.exclusive, ?_, ?_⟩
  · apply h.tight.step h.exclusive
    · rw [step_thread_self, step_shared]
      exact threadStep_expandMove s.shared (s.thread t) o
    · exact fun hin hout => h.leaves hin hout
  · intro u e hu
    rw [step_shared]
    by_cases hut : u = t
    · subst hut
      rw [step_thread_self] at hu
      obtain ⟨hpc, hfree⟩ := threadStep_reaches_loadPanicked hu
      rcases threadStep_isPanicked s.shared (s.thread u) o with hsame | ⟨⟨e', hstore⟩, _⟩
      · rw [hsame]
        exact hc (by rw [hpc]; rfl) hfree
      · simp [hpc] at hstore
    · -- the mover is not inside, so it cannot be about to store the panic flag
      rw [step_thread_of_ne threadStep s o hut] at hu
      have hout := h.exclusive.keep_of_other ⟨e, _, hu, trivial⟩ hut
      rcases threadStep_isPanicked s.shared (s.thread t) o with hsame | ⟨⟨e', hstore⟩, _⟩
      · rw [hsame]
        exact h.unpanicked u e hu
      · exact (hout ⟨e', _, hstore, trivial⟩).elim

/-- In a run in which nobody takes the lock of a panicked log, `is_locked` is up exactly
while one caller is between its compare-exchange and its release, and every caller that
leaves that section has given the lock back. -/
theorem expandLock_discipline (cfg : Config) (programs : List (List Call)) (sched : Schedule)
    (h : AllSteps threadStep AcquiresUnpanicked (initial cfg programs) sched) :
    ((reached cfg programs sched).shared.metadata.isLocked = true ↔
        ∃! t, HoldsExpandLock ((reached cfg programs sched).thread t)) ∧
      ∀ t o, HoldsExpandLock ((reached cfg programs sched).thread t) →
        ¬ HoldsExpandLock ((step threadStep (reached cfg programs sched) t o).thread t) →
        (step threadStep (reached cfg programs sched) t o).shared.metadata.isLocked = false := by
  have hinv : LockDiscipline (reached cfg programs sched) :=
    run_invariant_of threadStep lockDiscipline_step (lockDiscipline_initial cfg programs) h
  exact ⟨hinv.tight, fun t o hin hout => hinv.leaves hin hout⟩

/-- One thread takes the lock to grow the file. -/
theorem expandLock_discipline_holder :
    ∃! t, HoldsExpandLock ((reached Config.least [[.checkout (some 0) 5000]]
      (List.replicate 4 (0, .succeed))).thread t) := by
  have h := expandLock_discipline Config.least [[.checkout (some 0) 5000]]
    (List.replicate 4 (0, .succeed)) (by decide)
  exact h.1.mp rfl

/-- A checkout whose `ftruncate` fails, then a second one by the same thread: the panic
check of the second one walks out with the lock. -/
def leakSchedule : Schedule :=
  List.replicate 6 (0, .succeed) ++ (0, .fail) :: List.replicate 8 (0, .succeed)

theorem expandLock_leaked :
    ¬ ((reached Config.least [[.checkout (some 0) 5000, .checkout (some 0) 1]]
          leakSchedule).shared.metadata.isLocked = true ↔
        ∃! t, HoldsExpandLock ((reached Config.least
          [[.checkout (some 0) 5000, .checkout (some 0) 1]] leakSchedule).thread t)) := by
  intro hiff
  obtain ⟨t, ht, _⟩ := hiff.mp rfl
  by_cases h0 : t = 0
  · subst h0
    have hpc : ((reached Config.least [[.checkout (some 0) 5000, .checkout (some 0) 1]]
        leakSchedule).thread 0).pc.expand? = some (5001, .retry) := rfl
    exact (holdsExpandLock_iff hpc).mp ht
  · refine not_holdsExpandLock ?_ ht
    rw [reached, run_thread_of_forall_ne]
    · rfl
    · intro m hm
      simp only [leakSchedule, List.mem_append, List.mem_cons, List.mem_replicate] at hm
      rcases hm with hm | hm | hm
      · rw [hm.2]
        exact Ne.symm h0
      · rw [hm]
        exact Ne.symm h0
      · rw [hm.2]
        exact Ne.symm h0

end SystemsExperiments.Mmlog
