import SystemsExperiments.Verification.Mmlog.ExpandLock

/-! # The thread's error code after `mmlog_insert`

The code is right unless the panic of another thread slips in between a successful
expansion and the caller's check, or the reserved start is the sentinel itself. -/

namespace SystemsExperiments.Mmlog

open Interleaving

/-! ## Assertions -/

/-- What `data_file_expand` knows about `mmlog_errno` at each of its points. -/
def ExpandErrno (panicked : Bool) (errno : MmlogErr) : ExpandPc → Prop
  | .tryLock => True
  | .retry => errno ≠ .ok
  | .unlockPanicked => panicked = true
  | .checkPanicked => errno = .ok ∨ panicked = true
  | .loadPanicked | .loadSize | .ftruncate _ | .storePanicked | .storeSize _ | .unlock =>
      errno = .ok

def CheckoutErrno (panicked : Bool) (errno : MmlogErr) : CheckoutPc → Prop
  | .fetchAdd => errno = .ok
  | .loadSize start => start ≠ logCursorInvalid ∧ errno = .ok
  | .expand start pc => start ≠ logCursorInvalid ∧ ExpandErrno panicked errno pc

/-- The last call, if it was `mmlog_insert`, returned true exactly if it left no error. -/
def LastReport (th : Thread) : Prop :=
  ∀ a data b, th.results.getLast? = some (.insert a data, .bool b) →
    (b = true ↔ th.errno = .ok)

def ErrnoAt (panicked : Bool) (th : Thread) : Prop :=
  match th.pc with
  | .idle => LastReport th
  | .insertCheckout _ _ pc => CheckoutErrno panicked th.errno pc
  | .insertPwrite _ _ _ | .insertClean _ _ _ _ => th.errno = .ok
  | _ => True

/-- A panic by somebody else takes nothing away. -/
theorem ErrnoAt.mono {p p' : Bool} {th : Thread} (h : ErrnoAt p th)
    (hp : p = true → p' = true) : ErrnoAt p' th := by
  obtain ⟨pc, errno, todo, results⟩ := th
  cases pc with
  | insertCheckout a data pc =>
      cases pc with
      | fetchAdd => exact h
      | loadSize start => exact h
      | expand start epc =>
          obtain ⟨hstart, hat⟩ := h
          refine ⟨hstart, ?_⟩
          cases epc with
          | unlockPanicked => exact hp hat
          | checkPanicked => exact hat.imp id hp
          | _ => exact hat
  | _ => exact h

theorem errnoAt_finish_insert {p : Bool} {th : Thread} {a : Option ℕ} {data : Option Payload}
    {b : Bool} {e : MmlogErr} (h : b = true ↔ e = .ok) :
    ErrnoAt p (th.finish (.insert a data) (.bool b) e) := by
  intro a' data' b' hlast
  simp only [Thread.finish, List.getLast?_concat, Option.some.injEq, Prod.mk.injEq,
    Value.bool.injEq] at hlast
  rw [← hlast.2]
  exact h

theorem errnoAt_finish_other {p : Bool} {th : Thread} {call : Call} {v : Value}
    {e : MmlogErr} (h : ∀ a data, call ≠ .insert a data) : ErrnoAt p (th.finish call v e) := by
  intro a data b hlast
  simp only [Thread.finish, List.getLast?_concat, Option.some.injEq, Prod.mk.injEq] at hlast
  exact (h a data hlast.1).elim

theorem errnoAt_insertLoop {p : Bool} (th : Thread) (a : ℕ) (data : Payload) (start w : ℕ) :
    ErrnoAt p (th.insertLoop a data start w) := by
  unfold Thread.insertLoop
  split
  · trivial
  · rfl

theorem errnoAt_start {p : Bool} (th : Thread) (call : Call) : ErrnoAt p (th.start call) := by
  unfold Thread.start
  split
  · exact errnoAt_finish_other (by simp)
  · trivial
  · exact errnoAt_finish_other (by simp)
  · trivial
  · exact errnoAt_finish_other (by simp)
  · trivial
  · split
    · exact errnoAt_finish_insert (by decide)
    · rfl
  · exact errnoAt_finish_insert (by decide)
  · exact errnoAt_finish_other (by simp)
  · trivial

/-! ## Steps -/

/-- What a step of `mmlog_checkout` leaves of the error code. -/
structure CheckoutStepErrno (m : LogMetadata) (errno : MmlogErr)
    (next : Next CheckoutPc ℕ) : Prop where
  point : ∀ pc, next = .goto pc → CheckoutErrno m.isPanicked errno pc
  done : ∀ start, next = .done start → (start ≠ logCursorInvalid ↔ errno = .ok)

namespace CheckoutStepErrno

variable {m : LogMetadata} {errno : MmlogErr}

theorem goto {pc : CheckoutPc} (h : CheckoutErrno m.isPanicked errno pc) :
    CheckoutStepErrno m errno (.goto pc) := by
  refine ⟨?_, nofun⟩
  rintro _ ⟨⟩
  exact h

theorem ret {start : ℕ} (h : start ≠ logCursorInvalid ↔ errno = .ok) :
    CheckoutStepErrno m errno (.done start) := by
  refine ⟨nofun, ?_⟩
  rintro _ ⟨⟩
  exact h

end CheckoutStepErrno

theorem mmlogCheckout_errno (size : ℕ) {m : LogMetadata} (f : DataFile) {errno : MmlogErr}
    (o : Outcome) {pc : CheckoutPc} (hpc : CheckoutErrno m.isPanicked errno pc)
    (hcursor : pc = .fetchAdd → m.cursor ≠ logCursorInvalid)
    (hpanic : ∀ start, pc = .expand start .checkPanicked → errno = .ok →
      m.isPanicked = false) :
    CheckoutStepErrno (mmlogCheckout size m f errno o pc).1
      (mmlogCheckout size m f errno o pc).2.2.1
      (mmlogCheckout size m f errno o pc).2.2.2 := by
  cases pc with
  | fetchAdd => exact .goto ⟨hcursor rfl, hpc⟩
  | loadSize start =>
      simp only [mmlogCheckout]
      split
      · exact .goto ⟨hpc.1, trivial⟩
      · exact .ret (iff_of_true hpc.1 hpc.2)
  | expand start epc =>
      obtain ⟨hstart, hat⟩ := hpc
      cases epc with
      | tryLock =>
          simp only [mmlogCheckout, dataFileExpand]
          split
          · exact .goto ⟨hstart, by simp [ExpandErrno]⟩
          · exact .goto ⟨hstart, rfl⟩
      | retry =>
          cases o with
          | succeed => exact .goto ⟨hstart, trivial⟩
          | fail => exact .ret (iff_of_false (by simp) hat)
          | short n => exact .ret (iff_of_false (by simp) hat)
      | loadPanicked =>
          simp only [mmlogCheckout, dataFileExpand]
          split
          · exact .goto ⟨hstart, by simp [ExpandErrno]⟩
          · exact .goto ⟨hstart, hat⟩
      | loadSize =>
          simp only [mmlogCheckout, dataFileExpand]
          split
          · exact .goto ⟨hstart, hat⟩
          · exact .goto ⟨hstart, hat⟩
      | ftruncate n => cases o <;> exact .goto ⟨hstart, hat⟩
      | storePanicked => exact .goto ⟨hstart, rfl⟩
      | unlockPanicked => exact .goto ⟨hstart, .inr hat⟩
      | storeSize n => exact .goto ⟨hstart, hat⟩
      | unlock => exact .goto ⟨hstart, .inl hat⟩
      | checkPanicked =>
          have hsafe := hpanic start rfl
          cases hp : m.isPanicked with
          | true =>
              simp only [mmlogCheckout, dataFileExpand, hp]
              refine .ret (iff_of_false (by simp) fun hok => ?_)
              cases hp.symm.trans (hsafe hok)
          | false =>
              simp only [mmlogCheckout, dataFileExpand, hp]
              have hok : errno = .ok := by
                rcases hat with hok | hpanicked
                · exact hok
                · cases hp.symm.trans hpanicked
              exact .ret (iff_of_true hstart hok)

/-- The next step of `mmlog_insert` reserves the range of its record. -/
def Pc.reserves : Pc → Bool
  | .insertCheckout _ _ .fetchAdd => true
  | _ => false

/-- The next step of `mmlog_insert` is the check for a panic after an expansion. -/
def Pc.checksPanic : Pc → Bool
  | .insertCheckout _ _ (.expand _ .checkPanicked) => true
  | _ => false

/-- No record starts at the sentinel offset, and a thread whose own expansion went through
does not find the log panicked by somebody else. -/
def ReportsSafely (s : System) (t : ℕ) (_ : Outcome) : Prop :=
  ((s.thread t).pc.reserves = true → s.shared.metadata.cursor ≠ logCursorInvalid) ∧
    ((s.thread t).pc.checksPanic = true → (s.thread t).errno = .ok →
      s.shared.metadata.isPanicked = false)

instance (s : System) (t : ℕ) (o : Outcome) : Decidable (ReportsSafely s t o) :=
  inferInstanceAs (Decidable (_ ∧ _))

theorem threadStep_errno {l : Log} {th : Thread} {o : Outcome}
    (h : ErrnoAt l.metadata.isPanicked th)
    (hreserve : th.pc.reserves = true → l.metadata.cursor ≠ logCursorInvalid)
    (hcheck : th.pc.checksPanic = true → th.errno = .ok → l.metadata.isPanicked = false) :
    ErrnoAt (threadStep l th o).1.metadata.isPanicked (threadStep l th o).2 := by
  obtain ⟨p, errno, todo, results⟩ := th
  cases p with
  | idle =>
      cases todo with
      | nil => exact h
      | cons call rest => exact errnoAt_start _ call
  | checkout a size pc =>
      simp only [threadStep]
      split
      · trivial
      · exact errnoAt_finish_other (by simp)
  | rbCheckout a cursor pc =>
      simp only [threadStep]
      split
      · trivial
      · exact errnoAt_finish_other (by simp)
  | clean a pc =>
      simp only [threadStep]
      split
      · trivial
      · exact errnoAt_finish_other (by simp)
  | insertCheckout a data pc =>
      have hcursor : pc = .fetchAdd → l.metadata.cursor ≠ logCursorInvalid := by
        rintro rfl
        exact hreserve rfl
      have hpanic : ∀ start, pc = .expand start .checkPanicked → errno = .ok →
          l.metadata.isPanicked = false := by
        rintro start rfl
        exact hcheck rfl
      have hstep := mmlogCheckout_errno data.size l.file o h hcursor hpanic
      simp only [threadStep]
      split
      · rename_i pc' hnext
        exact hstep.point pc' hnext
      · rename_i start hnext
        have hdone := hstep.done start hnext
        split
        · rename_i hinvalid
          refine errnoAt_finish_insert (iff_of_false (by decide) fun hok => ?_)
          exact hdone.mpr hok hinvalid
        · rename_i hvalid
          split
          · exact hdone.mp hvalid
          · exact errnoAt_insertLoop _ _ _ _ _
  | insertPwrite a data start =>
      simp only [threadStep]
      split
      · exact errnoAt_finish_insert (by decide)
      · exact errnoAt_finish_insert (iff_of_true rfl h)
  | insertRb a data start written pc =>
      simp only [threadStep]
      split
      · trivial
      · exact errnoAt_finish_insert (by decide)
      · trivial
  | insertMemcpy a data start written id => trivial
  | insertRelease a data start written id => exact errnoAt_insertLoop _ _ _ _ _
  | insertClean a data start pc =>
      simp only [threadStep]
      split
      · exact h
      · exact errnoAt_finish_insert (iff_of_true rfl h)
  | trimLoad a => trivial
  | trimFtruncate a cursor =>
      cases o with
      | succeed => exact errnoAt_finish_other (by simp)
      | fail => exact errnoAt_finish_other (by simp)
      | short n => exact errnoAt_finish_other (by simp)

/-! ## Runs -/

theorem errnoAt_step (s : System) (t : ℕ) (o : Outcome)
    (h : ∀ u, ErrnoAt s.shared.metadata.isPanicked (s.thread u)) (hc : ReportsSafely s t o) :
    ∀ u, ErrnoAt (step threadStep s t o).shared.metadata.isPanicked
      ((step threadStep s t o).thread u) := by
  refine step_forall threadStep (A := fun l th => ErrnoAt l.metadata.isPanicked th)
    (threadStep_errno (h t) hc.1 hc.2) fun u _ => (h u).mono fun hp => ?_
  rcases threadStep_isPanicked s.shared (s.thread t) o with hsame | ⟨_, hset⟩
  · rw [hsame]
    exact hp
  · exact hset

/-- In a run in which no panic slips in between a thread's own successful expansion and
its check, and no record starts at the sentinel, every `mmlog_insert` that has just
returned left `MMLOG_ERR_OK` exactly if it returned true. -/
theorem insert_error_reporting (cfg : Config) (programs : List (List Call))
    (sched : Schedule)
    (hc : AllSteps threadStep ReportsSafely (initial cfg programs) sched) (t : ℕ)
    (a : Option ℕ) (data : Option Payload) (b : Bool)
    (hidle : ((reached cfg programs sched).thread t).pc = .idle)
    (hlast : ((reached cfg programs sched).thread t).results.getLast? =
      some (.insert a data, .bool b)) :
    b = true ↔ ((reached cfg programs sched).thread t).errno = .ok := by
  have hinit : ∀ u, ErrnoAt (initial cfg programs).shared.metadata.isPanicked
      ((initial cfg programs).thread u) := fun u a data b h => nomatch h
  have hat := run_invariant_of threadStep
    (P := fun s => ∀ u, ErrnoAt s.shared.metadata.isPanicked (s.thread u)) errnoAt_step hinit
    hc t
  change ErrnoAt _ ((reached cfg programs sched).thread t) at hat
  unfold ErrnoAt at hat
  rw [hidle] at hat
  exact hat a data b hlast

/-- A record that needs the file to grow. -/
def longRecord : Payload := ⟨5000, fun _ => 1⟩

/-- One record, with its `ftruncate` failing. -/
def failedGrowth : Schedule :=
  List.replicate 6 (0, .succeed) ++ (0, .fail) :: List.replicate 3 (0, .succeed)

theorem insert_error_reporting_failed_growth :
    ((reached Config.least [[.insert (some 0) (some longRecord)]] failedGrowth).thread
      0).errno ≠ .ok := by
  have hiff := insert_error_reporting Config.least [[.insert (some 0) (some longRecord)]]
    failedGrowth (by decide) 0 (some 0) (some longRecord) false rfl rfl
  exact fun hok => Bool.false_ne_true (hiff.mpr hok)

def twoLongRecords : List (List Call) :=
  [[.insert (some 0) (some longRecord)], [.insert (some 1) (some longRecord)]]

/-- Two threads each need the file to grow. The first one grows it and is stopped before
its check; the `ftruncate` of the second fails and panics the log; the first then fails
with its error code still `MMLOG_ERR_OK`. -/
def latePanic : Schedule :=
  List.replicate 9 (0, .succeed) ++ List.replicate 6 (1, .succeed) ++
    [(1, .fail), (1, .succeed), (0, .succeed)]

theorem insert_error_reporting_late_panic :
    ((reached Config.least twoLongRecords latePanic).thread 0).pc = .idle ∧
      ((reached Config.least twoLongRecords latePanic).thread 0).results =
        [(.insert (some 0) (some longRecord), .bool false)] ∧
      ((reached Config.least twoLongRecords latePanic).thread 0).errno = .ok :=
  ⟨rfl, rfl, rfl⟩

end SystemsExperiments.Mmlog
