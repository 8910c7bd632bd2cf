import SystemsExperiments.Model.Mmlog.System

/-! # What one step of a thread can do

A thread is inside `data_file_expand`, inside `mmlog_rb_checkout`, inside `clean_chunks`,
or elsewhere. Each view below says which, whatever the outer call is, and comes with the
one lemma that reads a step of the thread as a step of that function. -/

namespace SystemsExperiments.Mmlog

open Interleaving

/-! ## Inside `data_file_expand` -/

/-- The `end` argument and the point of a running `data_file_expand`. -/
def Pc.expand? : Pc → Option (ℕ × ExpandPc)
  | .checkout _ size (.expand start pc) => some (endOffset start size, pc)
  | .insertCheckout _ data (.expand start pc) => some (endOffset start data.size, pc)
  | _ => none

@[simp] theorem expand?_finish (th : Thread) (call : Call) (v : Value) (e : MmlogErr) :
    (th.finish call v e).pc.expand? = none := rfl

@[simp] theorem expand?_insertLoop (th : Thread) (h : ℕ) (data : Payload) (start w : ℕ) :
    (th.insertLoop h data start w).pc.expand? = none := by
  unfold Thread.insertLoop
  split <;> rfl

@[simp] theorem expand?_start (th : Thread) (call : Call) :
    (th.start call).pc.expand? = none := by
  unfold Thread.start
  split <;> first | rfl | (split <;> rfl)

/-- Expansion touches the lock, the panic flag and the recorded size, and nothing else. -/
theorem dataFileExpand_frame (e : ℕ) (m : LogMetadata) (f : DataFile) (errno : MmlogErr)
    (o : Outcome) (pc : ExpandPc) :
    (dataFileExpand e m f errno o pc).1 =
      { m with
        isLocked := (dataFileExpand e m f errno o pc).1.isLocked
        isPanicked := (dataFileExpand e m f errno o pc).1.isPanicked
        fileSize := (dataFileExpand e m f errno o pc).1.fileSize } := by
  cases pc with
  | tryLock =>
      simp only [dataFileExpand]
      split <;> rfl
  | retry => cases o <;> rfl
  | loadPanicked =>
      simp only [dataFileExpand]
      split <;> rfl
  | loadSize =>
      simp only [dataFileExpand]
      split <;> rfl
  | ftruncate n => cases o <;> rfl
  | storePanicked => rfl
  | unlockPanicked => rfl
  | storeSize n => rfl
  | unlock => rfl
  | checkPanicked => rfl

/-- The point after a step of `data_file_expand`, seen from the calling thread. -/
def Next.expand? (e : ℕ) : Next ExpandPc Bool → Option (ℕ × ExpandPc)
  | .goto pc => some (e, pc)
  | .done _ => none

/-- A thread inside `data_file_expand` takes a step of `data_file_expand`. -/
theorem threadStep_expand {s : Log} {th : Thread} {o : Outcome} {e : ℕ} {pc : ExpandPc}
    (hpc : th.pc.expand? = some (e, pc)) :
    (threadStep s th o).1 =
        { s with
          metadata := (dataFileExpand e s.metadata s.file th.errno o pc).1
          file := (dataFileExpand e s.metadata s.file th.errno o pc).2.1 } ∧
      (threadStep s th o).2.pc.expand? =
        (dataFileExpand e s.metadata s.file th.errno o pc).2.2.2.expand? e ∧
      (∀ pc', (dataFileExpand e s.metadata s.file th.errno o pc).2.2.2 = .goto pc' →
        (threadStep s th o).2.errno =
          (dataFileExpand e s.metadata s.file th.errno o pc).2.2.1) := by
  obtain ⟨p, errno, todo, results⟩ := th
  match p, hpc with
  | .checkout h size (.expand start _), rfl =>
      simp only [threadStep, mmlogCheckout]
      refine ⟨trivial, ?_⟩
      generalize (dataFileExpand (endOffset start size) s.metadata s.file errno o pc).2.2.2 = n
      cases n with
      | goto pc' => exact ⟨rfl, fun _ _ => rfl⟩
      | done b => cases b <;> exact ⟨rfl, fun _ h => by cases h⟩
  | .insertCheckout h data (.expand start _), rfl =>
      simp only [threadStep, mmlogCheckout]
      refine ⟨trivial, ?_⟩
      generalize
        (dataFileExpand (endOffset start data.size) s.metadata s.file errno o pc).2.2.2 = n
      cases n with
      | goto pc' => exact ⟨rfl, fun _ _ => rfl⟩
      | done b =>
          refine ⟨?_, fun _ h => by cases h⟩
          cases b
          · rfl
          · simp only
            split
            · rfl
            · split
              · rfl
              · exact expand?_insertLoop _ _ _ _ _

/-- A thread outside `data_file_expand` leaves the lock, the panic flag and the recorded
size alone, and may at most reach the first point of `data_file_expand`. -/
theorem threadStep_outside {s : Log} {th : Thread} {o : Outcome}
    (hpc : th.pc.expand? = none) :
    (threadStep s th o).1.metadata =
        { s.metadata with cursor := (threadStep s th o).1.metadata.cursor } ∧
      ((threadStep s th o).2.pc.expand? = none ∨
        ∃ e, (threadStep s th o).2.pc.expand? = some (e, .tryLock)) := by
  obtain ⟨p, errno, todo, results⟩ := th
  cases p with
  | idle =>
      cases todo with
      | nil => exact ⟨rfl, .inl rfl⟩
      | cons call rest => exact ⟨rfl, .inl (expand?_start _ call)⟩
  | checkout h size pc =>
      cases pc with
      | fetchAdd => exact ⟨rfl, .inl rfl⟩
      | loadSize start =>
          simp only [threadStep, mmlogCheckout]
          split
          · exact ⟨rfl, .inr ⟨_, rfl⟩⟩
          · exact ⟨rfl, .inl rfl⟩
      | expand start pc => simp [Pc.expand?] at hpc
  | rbCheckout h cursor pc =>
      simp only [threadStep]
      refine ⟨rfl, .inl ?_⟩
      split <;> rfl
  | clean h pc =>
      simp only [threadStep]
      refine ⟨rfl, .inl ?_⟩
      split <;> rfl
  | insertCheckout h data pc =>
      cases pc with
      | fetchAdd => exact ⟨rfl, .inl rfl⟩
      | loadSize start =>
          simp only [threadStep, mmlogCheckout]
          split
          · exact ⟨rfl, .inr ⟨_, rfl⟩⟩
          · refine ⟨rfl, .inl ?_⟩
            simp only
            split
            · rfl
            · split
              · rfl
              · exact expand?_insertLoop _ _ _ _ _
      | expand start pc => simp [Pc.expand?] at hpc
  | insertPwrite h data start =>
      simp only [threadStep]
      refine ⟨trivial, .inl ?_⟩
      split <;> rfl
  | insertRb h data start written pc =>
      simp only [threadStep]
      refine ⟨rfl, .inl ?_⟩
      split <;> rfl
  | insertMemcpy h data start written id => exact ⟨rfl, .inl rfl⟩
  | insertRelease h data start written id =>
      exact ⟨rfl, .inl (expand?_insertLoop _ _ _ _ _)⟩
  | insertClean h data start pc =>
      simp only [threadStep]
      refine ⟨rfl, .inl ?_⟩
      split <;> rfl
  | trimLoad h => exact ⟨rfl, .inl rfl⟩
  | trimFtruncate h cursor => cases o <;> exact ⟨rfl, .inl rfl⟩

/-- Past its first point a thread gets only inside `data_file_expand`. -/
theorem exists_of_expand {s : Log} {th : Thread} {o : Outcome} {e : ℕ} {pc' : ExpandPc}
    (h : (threadStep s th o).2.pc.expand? = some (e, pc')) (hne : pc' ≠ .tryLock) :
    ∃ pc, th.pc.expand? = some (e, pc) ∧
      (dataFileExpand e s.metadata s.file th.errno o pc).2.2.2 = .goto pc' := by
  cases hpc : th.pc.expand? with
  | none =>
      cases (threadStep_outside (s := s) (o := o) hpc).2 with
      | inl hout =>
          rw [hout] at h
          cases h
      | inr hfirst =>
          obtain ⟨e', hfirst⟩ := hfirst
          rw [hfirst] at h
          cases h
          exact (hne rfl).elim
  | some p =>
      obtain ⟨e', pc⟩ := p
      rw [(threadStep_expand hpc).2.1] at h
      cases hnext : (dataFileExpand e' s.metadata s.file th.errno o pc).2.2.2 with
      | goto pc'' =>
          rw [hnext] at h
          cases h
          exact ⟨pc, rfl, hnext⟩
      | done b =>
          rw [hnext] at h
          cases h

/-! ## Inside `mmlog_checkout` -/

/-- The size and the point of a running `mmlog_checkout`. -/
def Pc.checkout? : Pc → Option (ℕ × CheckoutPc)
  | .checkout _ size pc => some (size, pc)
  | .insertCheckout _ data pc => some (data.size, pc)
  | _ => none

theorem expand?_of_checkout? {p : Pc} {size start : ℕ} {epc : ExpandPc}
    (h : p.checkout? = some (size, .expand start epc)) :
    p.expand? = some (endOffset start size, epc) := by
  cases p with
  | checkout a n pc =>
      cases h
      rfl
  | insertCheckout a data pc =>
      cases h
      rfl
  | _ => cases h

theorem threadStep_checkout {s : Log} {th : Thread} {o : Outcome} {size : ℕ}
    {pc : CheckoutPc} (hpc : th.pc.checkout? = some (size, pc)) :
    (threadStep s th o).1 =
      { s with
        metadata := (mmlogCheckout size s.metadata s.file th.errno o pc).1
        file := (mmlogCheckout size s.metadata s.file th.errno o pc).2.1 } := by
  obtain ⟨p, errno, todo, results⟩ := th
  cases p with
  | checkout h n pc' =>
      cases hpc
      rfl
  | insertCheckout h data pc' =>
      cases hpc
      rfl
  | _ => cases hpc

/-! ## Everywhere -/

theorem threadStep_chunkSize (s : Log) (th : Thread) (o : Outcome) :
    (threadStep s th o).1.metadata.chunkSize = s.metadata.chunkSize := by
  cases hpc : th.pc.expand? with
  | none => rw [(threadStep_outside hpc).1]
  | some p => rw [(threadStep_expand hpc).1, dataFileExpand_frame]

theorem reached_chunkSize (cfg : Config) (programs : List (List Call)) (sched : Schedule) :
    (reached cfg programs sched).shared.metadata.chunkSize = cfg.chunkSize := by
  refine run_invariant threadStep
    (P := fun s => s.shared.metadata.chunkSize = cfg.chunkSize) ?_ sched rfl
  intro s t o h
  exact (threadStep_chunkSize s.shared (s.thread t) o).trans h

/-- A thread beyond the programs and the schedule has nothing to do. -/
theorem reached_thread_of_le {cfg : Config} {programs : List (List Call)} {sched : Schedule}
    {t : ℕ} (hsched : ∀ m ∈ sched, m.1 < t) (hlen : programs.length ≤ t) :
    (reached cfg programs sched).thread t = ⟨.idle, .ok, [], []⟩ := by
  rw [reached, run_thread_of_forall_ne threadStep _ _ fun m hm => (hsched m hm).ne]
  simp [initial, hlen]

/-! ## Calls -/

/-- The call that a thread is in. -/
def Pc.call? : Pc → Option Call
  | .idle => none
  | .checkout h size _ => some (.checkout (some h) size)
  | .rbCheckout h cursor _ => some (.rbCheckout (some h) cursor)
  | .clean h _ => some (.cleanChunks (some h))
  | .insertCheckout h data _ | .insertPwrite h data _ | .insertRb h data _ _ _
  | .insertMemcpy h data _ _ _ | .insertRelease h data _ _ _ | .insertClean h data _ _ =>
      some (.insert (some h) (some data))
  | .trimLoad h | .trimFtruncate h _ => some (.trim (some h))

/-- A thread makes its next call, goes on in the one it is in, or returns from it. -/
inductive Thread.Goes (th : Thread) : Thread → Prop
  | rest : th.todo = [] → Goes th th
  | start (call : Call) (rest : List Call) :
      th.pc = .idle → th.todo = call :: rest → Goes th ({ th with todo := rest }.start call)
  | goto (pc : Pc) (errno : MmlogErr) : pc.call? = th.pc.call? → Goes th (th.goto pc errno)
  | finish (call : Call) (v : Value) (errno : MmlogErr) :
      th.pc.call? = some call → Goes th (th.finish call v errno)

theorem goes_insertLoop {th : Thread} {h : ℕ} {data : Payload} (start written : ℕ)
    (hcall : th.pc.call? = some (.insert (some h) (some data))) :
    th.Goes (th.insertLoop h data start written) := by
  unfold Thread.insertLoop
  split
  · exact .goto _ _ hcall.symm
  · exact .goto _ _ hcall.symm

theorem threadStep_goes (s : Log) (th : Thread) (o : Outcome) :
    th.Goes (threadStep s th o).2 := by
  obtain ⟨p, errno, todo, results⟩ := th
  cases p with
  | idle =>
      cases todo with
      | nil => exact .rest rfl
      | cons call rest => exact .start call rest rfl rfl
  | checkout h size pc =>
      simp only [threadStep]
      split
      · exact .goto _ _ rfl
      · exact .finish _ _ _ rfl
  | rbCheckout h cursor pc =>
      simp only [threadStep]
      split
      · exact .goto _ _ rfl
      · exact .finish _ _ _ rfl
  | clean h pc =>
      simp only [threadStep]
      split
      · exact .goto _ _ rfl
      · exact .finish _ _ _ rfl
  | insertCheckout h data pc =>
      simp only [threadStep]
      split
      · exact .goto _ _ rfl
      · split
        · exact .finish _ _ _ rfl
        · split
          · exact .goto _ _ rfl
          · exact goes_insertLoop _ _ rfl
  | insertPwrite h data start =>
      simp only [threadStep]
      split
      · exact .finish _ _ _ rfl
      · exact .finish _ _ _ rfl
  | insertRb h data start written pc =>
      simp only [threadStep]
      split
      · exact .goto _ _ rfl
      · exact .finish _ _ _ rfl
      · exact .goto _ _ rfl
  | insertMemcpy h data start written id => exact .goto _ _ rfl
  | insertRelease h data start written id => exact goes_insertLoop _ _ rfl
  | insertClean h data start pc =>
      simp only [threadStep]
      split
      · exact .goto _ _ rfl
      · exact .finish _ _ _ rfl
  | trimLoad h => exact .goto _ _ rfl
  | trimFtruncate h cursor =>
      cases o with
      | succeed => exact .finish _ _ _ rfl
      | fail => exact .finish _ _ _ rfl
      | short n => exact .finish _ _ _ rfl

theorem results_start (th : Thread) (call : Call) :
    th.results <+: (th.start call).results := by
  unfold Thread.start
  split
  all_goals try split
  all_goals first | exact List.prefix_append _ _ | exact List.prefix_rfl

/-- Results are only ever added at the end. -/
theorem threadStep_results (s : Log) (th : Thread) (o : Outcome) :
    th.results <+: (threadStep s th o).2.results := by
  have hgoes := threadStep_goes s th o
  generalize (threadStep s th o).2 = th' at hgoes ⊢
  cases hgoes with
  | rest _ => exact List.prefix_rfl
  | start call rest _ _ => exact results_start { th with todo := rest } call
  | goto pc errno _ => exact List.prefix_rfl
  | finish call v errno _ => exact List.prefix_append _ _

/-! ## Inside `mmlog_rb_checkout` and `clean_chunks` -/

/-- The handle, the cursor and the point of a running `mmlog_rb_checkout`. -/
def Pc.rb? : Pc → Option (ℕ × ℕ × RbPc)
  | .rbCheckout h cursor pc => some (h, cursor, pc)
  | .insertRb h _ start written pc => some (h, currentCursor start written, pc)
  | _ => none

/-- The handle and the point of a `clean_chunks` running outside the head lock. -/
def Pc.clean? : Pc → Option (ℕ × CleanPc)
  | .clean h pc => some (h, pc)
  | .insertClean h _ _ pc => some (h, pc)
  | _ => none

def Next.rb? (h cursor : ℕ) : Next RbPc (Option ℕ) → Option (ℕ × ℕ × RbPc)
  | .goto pc => some (h, cursor, pc)
  | .done _ => none

@[simp] theorem Log.setRing_metadata (s : Log) (h : ℕ) (r : ChunkBuffer) :
    (s.setRing h r).metadata = s.metadata := rfl

@[simp] theorem Log.setRing_file (s : Log) (h : ℕ) (r : ChunkBuffer) :
    (s.setRing h r).file = s.file := rfl

@[simp] theorem Log.setRing_ring_self (s : Log) (h : ℕ) (r : ChunkBuffer) :
    (s.setRing h r).ring h = r := by
  simp [Log.setRing]

theorem Log.setRing_ring_of_ne (s : Log) {h a : ℕ} (r : ChunkBuffer) (hne : a ≠ h) :
    (s.setRing h r).ring a = s.ring a := by
  simp [Log.setRing, Function.update_of_ne hne]

/-- A thread inside `mmlog_rb_checkout` takes a step of `mmlog_rb_checkout`. -/
theorem threadStep_rb {s : Log} {th : Thread} {o : Outcome} {h cursor : ℕ} {pc : RbPc}
    (hpc : th.pc.rb? = some (h, cursor, pc)) :
    (threadStep s th o).1 = s.setRing h
        (mmlogRbCheckout s.metadata.chunkSize cursor (s.ring h) th.errno o pc).1 ∧
      (threadStep s th o).2.pc.rb? =
        (mmlogRbCheckout s.metadata.chunkSize cursor (s.ring h) th.errno o pc).2.2.rb?
          h cursor := by
  obtain ⟨p, errno, todo, results⟩ := th
  match p, hpc with
  | .rbCheckout _ _ _, rfl =>
      simp only [threadStep]
      refine ⟨trivial, ?_⟩
      split <;> simp_all [Thread.goto, Thread.finish, Pc.rb?, Next.rb?]
  | .insertRb _ data start written _, rfl =>
      simp only [threadStep]
      refine ⟨trivial, ?_⟩
      split <;> simp_all [Thread.goto, Thread.finish, Pc.rb?, Next.rb?]

/-- How a thread that is not inside `mmlog_rb_checkout` acts on the rings: it cleans one,
gives a reference back, or leaves them alone. -/
inductive RingStep (s : Log) (th : Thread) : Log → Prop where
  | clean {h : ℕ} {pc : CleanPc} {s' : Log} (hpc : th.pc.clean? = some (h, pc))
      (hring : s'.ring = Function.update s.ring h (cleanChunks (s.ring h) pc).1) :
      RingStep s th s'
  | release {h : ℕ} {data : Payload} {start written id : ℕ} {s' : Log}
      (hpc : th.pc = .insertRelease h data start written id)
      (hring : s'.ring = Function.update s.ring h ((s.ring h).subRef id)) :
      RingStep s th s'
  | quiet {s' : Log} (hring : s'.ring = s.ring) : RingStep s th s'

theorem threadStep_ring {s : Log} {th : Thread} {o : Outcome} (hpc : th.pc.rb? = none) :
    RingStep s th (threadStep s th o).1 := by
  obtain ⟨p, errno, todo, results⟩ := th
  cases p with
  | idle => cases todo <;> exact .quiet rfl
  | checkout h size pc => exact .quiet rfl
  | rbCheckout h cursor pc => cases hpc
  | clean h pc => exact .clean rfl rfl
  | insertCheckout h data pc => exact .quiet rfl
  | insertPwrite h data start => exact .quiet rfl
  | insertRb h data start written pc => cases hpc
  | insertMemcpy h data start written id => exact .quiet rfl
  | insertRelease h data start written id => exact .release rfl rfl
  | insertClean h data start pc => exact .clean rfl rfl
  | trimLoad h => exact .quiet rfl
  | trimFtruncate h cursor => cases o <;> exact .quiet rfl

theorem rb?_start (th : Thread) (call : Call) :
    (th.start call).pc.rb? = none ∨
      ∃ h cursor, (th.start call).pc.rb? = some (h, cursor, .lock) := by
  unfold Thread.start
  split <;> first | exact .inl rfl | exact .inr ⟨_, _, rfl⟩ | (split <;> exact .inl rfl)

theorem rb?_insertLoop (th : Thread) (h : ℕ) (data : Payload) (start w : ℕ) :
    (th.insertLoop h data start w).pc.rb? = none ∨
      ∃ h' cursor, (th.insertLoop h data start w).pc.rb? = some (h', cursor, .lock) := by
  unfold Thread.insertLoop
  split
  · exact .inr ⟨_, _, rfl⟩
  · exact .inl rfl

/-- A thread outside `mmlog_rb_checkout` may at most reach its first point. -/
theorem threadStep_enters_rb {s : Log} {th : Thread} {o : Outcome} (hpc : th.pc.rb? = none) :
    (threadStep s th o).2.pc.rb? = none ∨
      ∃ h cursor, (threadStep s th o).2.pc.rb? = some (h, cursor, .lock) := by
  obtain ⟨p, errno, todo, results⟩ := th
  cases p with
  | idle =>
      cases todo with
      | nil => exact .inl rfl
      | cons call rest => exact rb?_start _ call
  | checkout h size pc =>
      simp only [threadStep]
      split <;> exact .inl rfl
  | rbCheckout h cursor pc => cases hpc
  | clean h pc =>
      simp only [threadStep]
      split <;> exact .inl rfl
  | insertCheckout h data pc =>
      simp only [threadStep]
      split
      · exact .inl rfl
      · split
        · exact .inl rfl
        · split
          · exact .inl rfl
          · exact rb?_insertLoop _ _ _ _ _
  | insertPwrite h data start =>
      simp only [threadStep]
      split <;> exact .inl rfl
  | insertRb h data start written pc => cases hpc
  | insertMemcpy h data start written id => exact .inl rfl
  | insertRelease h data start written id => exact rb?_insertLoop _ _ _ _ _
  | insertClean h data start pc =>
      simp only [threadStep]
      split <;> exact .inl rfl
  | trimLoad h => exact .inl rfl
  | trimFtruncate h cursor => cases o <;> exact .inl rfl

end SystemsExperiments.Mmlog
