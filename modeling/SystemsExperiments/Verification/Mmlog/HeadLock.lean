import SystemsExperiments.Shared.Mutex
import SystemsExperiments.Verification.Mmlog.Steps

/-! # The lock around the head of a ring -/

namespace SystemsExperiments.Mmlog

open Interleaving

/-- Between a successful `lock_head` and the store of `unlock_head`. -/
def RbPc.holdsHead : RbPc → Prop
  | .lock | .retry | .addRefNew _ => False
  | .loadHead | .loadTail _ | .loadSlot _ _ | .addRefHead _ | .unlockHead _ | .clean _
  | .reloadHead | .reloadTail _ | .calloc _ _ | .mmap _ _ | .storeRef _ _ _
  | .storeSlot _ _ _ | .casHead _ _ _ | .clearSlot _ | .unlockFailed | .unlockNew _ => True

/-- The thread is inside the head lock of handle `h`. -/
def HoldsHead (h : ℕ) (th : Thread) : Prop :=
  ∃ cursor pc, th.pc.rb? = some (h, cursor, pc) ∧ pc.holdsHead

theorem holdsHead_iff {th : Thread} {h cursor : ℕ} {pc : RbPc}
    (hpc : th.pc.rb? = some (h, cursor, pc)) : HoldsHead h th ↔ pc.holdsHead := by
  constructor
  · rintro ⟨cursor', pc', h', hin⟩
    obtain ⟨-, heq⟩ := Prod.mk.inj (Option.some.inj (hpc.symm.trans h'))
    obtain ⟨-, rfl⟩ := Prod.mk.inj heq
    exact hin
  · exact fun hin => ⟨cursor, pc, hpc, hin⟩

theorem not_holdsHead_of_none {th : Thread} {h : ℕ} (hpc : th.pc.rb? = none) :
    ¬ HoldsHead h th := by
  rintro ⟨cursor, pc, h', _⟩
  simp [hpc] at h'

theorem not_holdsHead_of_ne {th : Thread} {h a cursor : ℕ} {pc : RbPc}
    (hpc : th.pc.rb? = some (a, cursor, pc)) (hne : h ≠ a) : ¬ HoldsHead h th := by
  rintro ⟨cursor', pc', h', _⟩
  exact hne (Prod.mk.inj (Option.some.inj (h'.symm.trans hpc))).1

/-! ## Steps -/

def Next.holdsHead : Next RbPc (Option ℕ) → Prop
  | .goto pc => pc.holdsHead
  | .done _ => False

theorem cleanChunks_headLocked (r : ChunkBuffer) (pc : CleanPc) :
    (cleanChunks r pc).1.headLocked = r.headLocked := by
  cases pc with
  | loadTail => rfl
  | loadHead tail => cases tail <;> rfl
  | loadSlot tail head =>
      simp only [cleanChunks]
      split
      · split <;> rfl
      · rfl
  | loadRef tail id =>
      simp only [cleanChunks]
      split <;> rfl
  | casTail tail id =>
      simp only [cleanChunks]
      split <;> rfl
  | munmap id => rfl
  | free id => rfl

theorem holdsHead_addNewChunk (r : ChunkBuffer) (head : ℕ) (tail : Option ℕ) :
    (addNewChunk r head tail).holdsHead := by
  unfold addNewChunk
  simp only
  split
  · split <;> trivial
  · split <;> trivial

theorem mmlogRbCheckout_move (cs cursor : ℕ) (r : ChunkBuffer) (errno : MmlogErr)
    (o : Outcome) (pc : RbPc) :
    Mutex.Move r.headLocked pc.holdsHead (mmlogRbCheckout cs cursor r errno o pc).1.headLocked
      (mmlogRbCheckout cs cursor r errno o pc).2.2.holdsHead := by
  cases pc with
  | lock =>
      simp only [mmlogRbCheckout]
      split
      · exact .keep Iff.rfl
      · rename_i hfree
        rw [Bool.eq_false_iff.mpr hfree]
        exact .acquire not_false trivial
  | retry => cases o <;> exact .keep Iff.rfl
  | loadHead => exact .keep Iff.rfl
  | loadTail head => exact .keep Iff.rfl
  | loadSlot head tail =>
      have hadd := holdsHead_addNewChunk r head tail
      simp only [mmlogRbCheckout]
      split
      · split
        · exact .keep Iff.rfl
        · exact .keep (iff_of_true hadd trivial)
      · exact .keep (iff_of_true hadd trivial)
  | addRefHead id => exact .keep Iff.rfl
  | unlockHead id => exact .leave trivial not_false
  | clean pc =>
      simp only [mmlogRbCheckout, cleanChunks_headLocked]
      split <;> exact .keep Iff.rfl
  | reloadHead => exact .keep Iff.rfl
  | reloadTail head =>
      simp only [mmlogRbCheckout]
      split <;> exact .keep Iff.rfl
  | calloc head next => cases o <;> exact .keep Iff.rfl
  | mmap head next => cases o <;> exact .keep Iff.rfl
  | storeRef head next id => exact .keep Iff.rfl
  | storeSlot head next id => exact .keep Iff.rfl
  | casHead head next id =>
      simp only [mmlogRbCheckout]
      split <;> exact .keep Iff.rfl
  | clearSlot next => exact .keep Iff.rfl
  | unlockFailed => exact .leave trivial not_false
  | unlockNew id => exact .leave trivial not_false
  | addRefNew id => exact .keep Iff.rfl

/-- Every way out of the section stores false into `head_locked`. -/
theorem mmlogRbCheckout_leaves {cs cursor : ℕ} {r : ChunkBuffer} {errno : MmlogErr}
    {o : Outcome} {pc : RbPc} (hin : pc.holdsHead)
    (hout : ¬ (mmlogRbCheckout cs cursor r errno o pc).2.2.holdsHead) :
    (mmlogRbCheckout cs cursor r errno o pc).1.headLocked = false := by
  cases pc with
  | lock => exact hin.elim
  | retry => exact hin.elim
  | addRefNew id => exact hin.elim
  | unlockHead id => rfl
  | unlockFailed => rfl
  | unlockNew id => rfl
  | loadHead => exact (hout trivial).elim
  | loadTail head => exact (hout trivial).elim
  | loadSlot head tail =>
      have hadd := holdsHead_addNewChunk r head tail
      simp only [mmlogRbCheckout] at hout
      split at hout
      · split at hout
        · exact (hout trivial).elim
        · exact (hout hadd).elim
      · exact (hout hadd).elim
  | addRefHead id => exact (hout trivial).elim
  | clean pc =>
      simp only [mmlogRbCheckout] at hout
      split at hout <;> exact (hout trivial).elim
  | reloadHead => exact (hout trivial).elim
  | reloadTail head =>
      simp only [mmlogRbCheckout] at hout
      split at hout <;> exact (hout trivial).elim
  | calloc head next => cases o <;> exact (hout trivial).elim
  | mmap head next => cases o <;> exact (hout trivial).elim
  | storeRef head next id => exact (hout trivial).elim
  | storeSlot head next id => exact (hout trivial).elim
  | casHead head next id =>
      simp only [mmlogRbCheckout] at hout
      split at hout <;> exact (hout trivial).elim
  | clearSlot next => exact (hout trivial).elim

theorem holdsHead_step_iff {s : Log} {th : Thread} {o : Outcome} {h cursor : ℕ} {pc : RbPc}
    (hpc : th.pc.rb? = some (h, cursor, pc)) :
    HoldsHead h (threadStep s th o).2 ↔
      (mmlogRbCheckout s.metadata.chunkSize cursor (s.ring h) th.errno o pc).2.2.holdsHead := by
  have hnext := (threadStep_rb (s := s) (o := o) hpc).2
  revert hnext
  generalize (mmlogRbCheckout s.metadata.chunkSize cursor (s.ring h) th.errno o pc).2.2 = n
  cases n with
  | goto pc' => exact fun hnext => holdsHead_iff hnext
  | done v => exact fun hnext => iff_of_false (not_holdsHead_of_none hnext) not_false

/-- A thread that works on another handle, or not on a ring at all, is outside and stays
outside. -/
theorem not_holdsHead_step {s : Log} {th : Thread} {o : Outcome} {h : ℕ}
    (hpc : ∀ cursor pc, th.pc.rb? ≠ some (h, cursor, pc)) :
    ¬ HoldsHead h (threadStep s th o).2 := by
  cases hrb : th.pc.rb? with
  | none =>
      rcases threadStep_enters_rb (s := s) (o := o) hrb with hnext | ⟨a, cursor, hnext⟩
      · exact not_holdsHead_of_none hnext
      · by_cases ha : h = a
        · subst ha
          rw [holdsHead_iff hnext]
          exact not_false
        · exact not_holdsHead_of_ne hnext ha
  | some p =>
      obtain ⟨a, cursor, pc⟩ := p
      have ha : h ≠ a := by
        rintro rfl
        exact hpc cursor pc hrb
      have hnext := (threadStep_rb (s := s) (o := o) hrb).2
      revert hnext
      generalize (mmlogRbCheckout s.metadata.chunkSize cursor (s.ring a) th.errno o pc).2.2 = n
      cases n with
      | goto pc' => exact fun hnext => not_holdsHead_of_ne hnext ha
      | done v => exact fun hnext => not_holdsHead_of_none hnext

/-- Only a thread inside `mmlog_rb_checkout` on the same handle touches its head lock. -/
theorem threadStep_headLocked {s : Log} {th : Thread} {o : Outcome} {h : ℕ}
    (hpc : ∀ cursor pc, th.pc.rb? ≠ some (h, cursor, pc)) :
    ((threadStep s th o).1.ring h).headLocked = (s.ring h).headLocked := by
  cases hrb : th.pc.rb? with
  | none =>
      cases threadStep_ring (s := s) (o := o) hrb with
      | @clean a pc _ _ hring =>
          rw [hring]
          by_cases ha : h = a
          · subst ha
            rw [Function.update_self, cleanChunks_headLocked]
          · rw [Function.update_of_ne ha]
      | @release a _ _ _ _ _ _ hring =>
          rw [hring]
          by_cases ha : h = a
          · subst ha
            rw [Function.update_self]
            rfl
          · rw [Function.update_of_ne ha]
      | quiet hring => rw [hring]
  | some p =>
      obtain ⟨a, cursor, pc⟩ := p
      have ha : h ≠ a := by
        rintro rfl
        exact hpc cursor pc hrb
      rw [(threadStep_rb hrb).1, Log.setRing_ring_of_ne _ _ ha]

theorem threadStep_headMove (h : ℕ) (s : Log) (th : Thread) (o : Outcome) :
    Mutex.Move (s.ring h).headLocked (HoldsHead h th)
      ((threadStep s th o).1.ring h).headLocked (HoldsHead h (threadStep s th o).2) := by
  by_cases hpc : ∃ cursor pc, th.pc.rb? = some (h, cursor, pc)
  · obtain ⟨cursor, pc, hpc⟩ := hpc
    have hmove := mmlogRbCheckout_move s.metadata.chunkSize cursor (s.ring h) th.errno o pc
    rw [← propext (holdsHead_iff hpc), ← propext (holdsHead_step_iff hpc)] at hmove
    rw [(threadStep_rb hpc).1, Log.setRing_ring_self]
    exact hmove
  · have hne : ∀ cursor pc, th.pc.rb? ≠ some (h, cursor, pc) :=
      fun cursor pc heq => hpc ⟨cursor, pc, heq⟩
    rw [threadStep_headLocked hne]
    apply Mutex.Move.keep
    apply iff_of_false (not_holdsHead_step hne)
    rintro ⟨cursor, pc, heq, _⟩
    exact hne cursor pc heq

theorem threadStep_leaves_head {h : ℕ} {s : Log} {th : Thread} {o : Outcome}
    (hin : HoldsHead h th) (hout : ¬ HoldsHead h (threadStep s th o).2) :
    ((threadStep s th o).1.ring h).headLocked = false := by
  obtain ⟨cursor, pc, hpc, hin⟩ := hin
  rw [holdsHead_step_iff hpc] at hout
  rw [(threadStep_rb hpc).1, Log.setRing_ring_self]
  exact mmlogRbCheckout_leaves hin hout

/-- A thread that enters the section is at its first point. -/
theorem threadStep_enters_head {s : Log} {th : Thread} {o : Outcome} {h cursor : ℕ}
    {pc : RbPc} (hout : ¬ HoldsHead h th) (hin : HoldsHead h (threadStep s th o).2)
    (hpc : (threadStep s th o).2.pc.rb? = some (h, cursor, pc)) : pc = .loadHead := by
  by_cases hrb : ∃ cursor pc, th.pc.rb? = some (h, cursor, pc)
  · obtain ⟨cursor', pc', hrb⟩ := hrb
    rw [holdsHead_iff hrb] at hout
    rw [holdsHead_iff hpc] at hin
    rw [(threadStep_rb hrb).2] at hpc
    cases pc' with
    | lock =>
        simp only [mmlogRbCheckout] at hpc
        split at hpc
        · cases hpc
          exact hin.elim
        · cases hpc
          rfl
    | retry =>
        cases o with
        | succeed =>
            cases hpc
            exact hin.elim
        | fail => cases hpc
        | short n => cases hpc
    | addRefNew id => cases hpc
    | _ => exact (hout trivial).elim
  · exact (not_holdsHead_step (fun c p heq => hrb ⟨c, p, heq⟩) hin).elim

/-! ## Runs -/

abbrev HeadExclusive (h : ℕ) (s : System) : Prop :=
  Mutex.Exclusive (fun l : Log => (l.ring h).headLocked) (HoldsHead h) s

abbrev HeadTight (h : ℕ) (s : System) : Prop :=
  Mutex.Tight (fun l : Log => (l.ring h).headLocked) (HoldsHead h) s

theorem headLock_initial (h : ℕ) (cfg : Config) (programs : List (List Call)) :
    HeadExclusive h (initial cfg programs) ∧ HeadTight h (initial cfg programs) := by
  have hout : ∀ t, ¬ HoldsHead h ((initial cfg programs).thread t) :=
    fun t => not_holdsHead_of_none rfl
  refine ⟨⟨fun t u ht => (hout t ht).elim, fun t ht => (hout t ht).elim⟩, ?_, ?_⟩
  · intro hflag
    cases hflag
  · rintro ⟨t, ht, _⟩
    exact (hout t ht).elim

theorem headLock_step (h : ℕ) (s : System) (t : ℕ) (o : Outcome)
    (hs : HeadExclusive h s ∧ HeadTight h s) :
    HeadExclusive h (step threadStep s t o) ∧ HeadTight h (step threadStep s t o) := by
  have hmove := threadStep_headMove h s.shared (s.thread t) o
  rw [← step_thread_self, ← step_shared] at hmove
  refine ⟨hs.1.step hmove, hs.2.step hs.1 hmove fun hin hout => ?_⟩
  rw [step_thread_self] at hout
  exact threadStep_leaves_head hin hout

end SystemsExperiments.Mmlog
