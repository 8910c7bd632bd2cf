import SystemsExperiments.Shared.Feeding
import SystemsExperiments.Model.Mmlog.Client
import SystemsExperiments.Verification.Mmlog.Content
import SystemsExperiments.Verification.Mmlog.Open

/-! # Processes that open the log themselves

Whatever the calls of `mmlog_open` and the programs behind them do, from the last store of
`files_create` on the handles act on the log as threads with fixed programs that start on a
log just created. -/

namespace SystemsExperiments.Mmlog

open Interleaving

/-! ## Calls that are added as the thread goes -/

def Thread.feed (th : Thread) (calls : List Call) : Thread :=
  { th with todo := th.todo ++ calls }

theorem Thread.feed_goto (th : Thread) (calls : List Call) (pc : Pc) (errno : MmlogErr) :
    (th.feed calls).goto pc errno = (th.goto pc errno).feed calls := rfl

theorem Thread.feed_finish (th : Thread) (calls : List Call) (call : Call) (v : Value)
    (errno : MmlogErr) :
    (th.feed calls).finish call v errno = (th.finish call v errno).feed calls := rfl

theorem Thread.feed_start (th : Thread) (calls : List Call) (call : Call) :
    (th.feed calls).start call = (th.start call).feed calls := by
  fun_cases Thread.start th call <;> simp_all [Thread.start, feed_goto, feed_finish]

theorem Thread.feed_insertLoop (th : Thread) (calls : List Call) (h : ℕ) (data : Payload)
    (start written : ℕ) :
    (th.feed calls).insertLoop h data start written =
      (th.insertLoop h data start written).feed calls := by
  unfold Thread.insertLoop
  split <;> rfl

/-- A thread that has a call to go on with does not look at the calls behind it. -/
theorem threadStep_feed (s : Log) (th : Thread) (calls : List Call) (o : Outcome)
    (h : th.halted = false) :
    threadStep s (th.feed calls) o =
      ((threadStep s th o).1, (threadStep s th o).2.feed calls) := by
  obtain ⟨pc, errno, todo, results⟩ := th
  cases pc with
  | idle =>
      cases todo with
      | nil => cases h
      | cons call rest =>
          exact congrArg (s, ·) (Thread.feed_start ⟨.idle, errno, rest, results⟩ calls call)
  | checkout a size pc =>
      simp only [threadStep, Thread.feed]
      split <;> rfl
  | rbCheckout a cursor pc =>
      simp only [threadStep, Thread.feed]
      split <;> rfl
  | clean a pc =>
      simp only [threadStep, Thread.feed]
      split <;> rfl
  | insertCheckout a data pc =>
      simp only [threadStep, Thread.feed]
      split
      · rfl
      · split
        · rfl
        · split
          · rfl
          · exact congrArg _ (Thread.feed_insertLoop
              ⟨.insertCheckout a data pc, errno, todo, results⟩ calls a data _ 0)
  | insertPwrite a data start =>
      simp only [threadStep, Thread.feed]
      split <;> rfl
  | insertRb a data start written pc =>
      simp only [threadStep, Thread.feed]
      split <;> rfl
  | insertMemcpy a data start written id => rfl
  | insertRelease a data start written id =>
      exact congrArg _ (Thread.feed_insertLoop
        ⟨.insertRelease a data start written id, errno, todo, results⟩ calls a data start _)
  | insertClean a data start pc =>
      simp only [threadStep, Thread.feed]
      split <;> rfl
  | trimLoad a => rfl
  | trimFtruncate a cursor => cases o <;> rfl

/-- The calls a thread has still to make are its list of work. -/
def calling : Feeding.Inbox threadStep Call where
  feed := Thread.feed
  starved := Thread.halted
  feed_nil := fun th => by simp [Thread.feed]
  feed_feed := fun th xs ys => by simp [Thread.feed]
  next_feed := threadStep_feed

/-! ## What a step of a process can do -/

section Processes

variable {κ ℓ δ : Type}

/-- The processes as the calls of `mmlog_open` they make. -/
def openers (s : Sys (Store κ) (Process ℓ)) : Sys Files Opener :=
  ⟨s.shared.files, fun t => (s.thread t).opener⟩

/-- The processes as threads that call into a log, with the programs beside them. -/
def callers (l : Log) (s : Sys (Store κ) (Process ℓ)) : Sys (Log × κ) (Thread × ℓ) :=
  ⟨(l, s.shared.vars), fun t => ((s.thread t).thread, (s.thread t).vars)⟩

/-- The program of a process as the program beside its thread. -/
def Client.beside (client : Client κ ℓ δ) (vars : κ) (own : ℓ) (th : Thread) (d : δ) :
    κ × ℓ × List Call :=
  client vars own th.results d

/-- What a log, and a thread that calls into it, are after a step of a handle. -/
def Store.put (s : Store κ) (r : (Log × κ) × (Thread × ℓ)) : Store κ :=
  { s.setLog r.1.1 with vars := r.1.2 }

def Process.put (p : Process ℓ) (r : (Log × κ) × (Thread × ℓ)) : Process ℓ :=
  { p with thread := r.2.1, vars := r.2.2 }

theorem Store.files_of_log {s : Store κ} {l : Log} (h : s.log? = some l) :
    s.files = ⟨.sized l.metadata, some l.file⟩ ∧ s.ring = l.ring := by
  obtain ⟨⟨metaFile, data⟩, ring, vars⟩ := s
  cases metaFile with
  | absent => cases h
  | empty => cases h
  | sized m =>
      cases data with
      | none => cases h
      | some f =>
          cases h
          exact ⟨rfl, rfl⟩

theorem Store.log_of_files {s : Store κ} {m : LogMetadata} {f : DataFile}
    (h : s.files = ⟨.sized m, some f⟩) : s.log? = some ⟨m, f, s.ring⟩ := by
  unfold Store.log?
  rw [h]

theorem Store.setLog_self {s : Store κ} {l : Log} (h : s.log? = some l) : s.setLog l = s := by
  obtain ⟨hfiles, hring⟩ := s.files_of_log h
  rw [Store.setLog, ← hfiles, ← hring]

theorem feed_of_halted {th : Thread} (h : th.halted = true) (calls : List Call) :
    th.feed calls = { th with todo := calls } := by
  rw [Thread.feed, (halted_iff.mp h).2, List.nil_append]

/-- With a handle, a step is one of the thread and the program beside it. -/
theorem processStep_handle {filename : Option String} {client : Client κ ℓ δ} {s : Store κ}
    {p : Process ℓ} {c : Outcome × δ} {l : Log} (hpc : p.opener.pc = .returned true)
    (hlog : s.log? = some l) :
    processStep filename client s p c =
      (s.put (Feeding.drive calling client.beside (l, s.vars) (p.thread, p.vars) c),
        p.put (Feeding.drive calling client.beside (l, s.vars) (p.thread, p.vars) c)) := by
  have hself := s.setLog_self hlog
  unfold processStep Feeding.drive
  rw [hpc]
  cases hhalted : p.thread.halted with
  | true =>
      have hstarved : calling.starved p.thread = true := hhalted
      simp only [if_true, hstarved, Store.put, Process.put, hself]
      refine Prod.ext rfl ?_
      simp only [Process.mk.injEq, true_and]
      exact ⟨(feed_of_halted hhalted _).symm, rfl⟩
  | false =>
      have hstarved : calling.starved p.thread = false := hhalted
      simp only [hstarved, hlog, Store.put, Process.put]
      rfl

/-- Without one, it is a step of `mmlog_open`, which does nothing any more once the call has
returned. -/
theorem processStep_opener {filename : Option String} {client : Client κ ℓ δ} {s : Store κ}
    {p : Process ℓ} {c : Outcome × δ} (hpc : p.opener.pc ≠ .returned true) :
    processStep filename client s p c =
      ({ s with files := (mmlogOpen filename s.files p.opener c.1).1 },
        { p with opener := (mmlogOpen filename s.files p.opener c.1).2 }) := by
  obtain ⟨⟨args, pc, errno⟩, thread, vars⟩ := p
  cases pc with
  | returned handle =>
      cases handle with
      | true => exact absurd rfl hpc
      | false => rfl
  | _ => rfl

/-- To the files, what a process does with its handle is a use of the handle. -/
theorem drive_use (client : Client κ ℓ δ) (l : Log) (vars : κ) (p : Thread × ℓ)
    (c : Outcome × δ) :
    ∃ u, Files.use ⟨.sized l.metadata, some l.file⟩ u =
      ⟨.sized (Feeding.drive calling client.beside (l, vars) p c).1.1.metadata,
        some (Feeding.drive calling client.beside (l, vars) p c).1.1.file⟩ := by
  obtain ⟨u, hu⟩ := threadStep_use l p.1 c.1
  refine ⟨u, hu.trans ?_⟩
  unfold Feeding.drive
  cases hhalted : calling.starved p.1 with
  | true =>
      rw [threadStep_halted l c.1 hhalted]
      rfl
  | false => rfl

theorem openers_step_handle (filename : Option String) (client : Client κ ℓ δ)
    {s : Sys (Store κ) (Process ℓ)} {t : ℕ} (c : Outcome × δ) {l : Log}
    (hpc : (s.thread t).opener.pc = .returned true) (hlog : s.shared.log? = some l) :
    ∃ u, openers (step (processStep filename client) s t c) =
      step (openerStep filename) (openers s) t (.use u) := by
  obtain ⟨u, hu⟩ := drive_use client l s.shared.vars ((s.thread t).thread, (s.thread t).vars) c
  refine ⟨u, ?_⟩
  rw [← (s.shared.files_of_log hlog).1] at hu
  simp only [openers, step, processStep_handle hpc hlog, openerStep, hpc, if_true, hu]
  congr 1
  funext v
  by_cases hv : v = t
  · subst hv
    simp [Process.put]
  · simp [Function.update_of_ne hv]

theorem openers_step_opener (filename : Option String) (client : Client κ ℓ δ)
    {s : Sys (Store κ) (Process ℓ)} {t : ℕ} (c : Outcome × δ)
    (hpc : (s.thread t).opener.pc ≠ .returned true) :
    openers (step (processStep filename client) s t c) =
      step (openerStep filename) (openers s) t (.answer c.1) := by
  simp only [openers, step, processStep_opener hpc, openerStep]
  congr 1
  funext u
  by_cases hu : u = t
  · subst hu
    simp
  · simp [Function.update_of_ne hu]

/-- What the thread of a handle and its program do is a step of the log's threads. -/
theorem callers_step_handle (filename : Option String) (client : Client κ ℓ δ)
    {s : Sys (Store κ) (Process ℓ)} {t : ℕ} (c : Outcome × δ) {l : Log}
    (hpc : (s.thread t).opener.pc = .returned true) (hlog : s.shared.log? = some l) :
    ∃ l', (step (processStep filename client) s t c).shared.log? = some l' ∧
      callers l' (step (processStep filename client) s t c) =
        step (Feeding.drive calling client.beside) (callers l s) t c := by
  refine ⟨(Feeding.drive calling client.beside (l, s.shared.vars)
    ((s.thread t).thread, (s.thread t).vars) c).1.1, ?_, ?_⟩
  · simp only [step, processStep_handle hpc hlog]
    rfl
  · simp only [callers, step, processStep_handle hpc hlog]
    congr 1
    funext u
    by_cases hu : u = t
    · subst hu
      simp [Process.put]
    · simp [Function.update_of_ne hu]

/-- A step of `mmlog_open` that leaves the files alone is none for the threads. -/
theorem callers_step_opener {filename : Option String} {client : Client κ ℓ δ}
    {s : Sys (Store κ) (Process ℓ)} {t : ℕ} {c : Outcome × δ} (l : Log)
    (hpc : (s.thread t).opener.pc ≠ .returned true) :
    callers l (step (processStep filename client) s t c) = callers l s := by
  simp only [callers, step, processStep_opener hpc]
  congr 1
  funext u
  by_cases hu : u = t
  · subst hu
    simp
  · simp [Function.update_of_ne hu]

end Processes

/-! ## From the creation on -/

/-- A log becomes ready in one way: one call makes the last store of `files_create`. -/
theorem opened_created_of_ready (filename : Option String) (calls : ℕ → OpenArgs)
    (data : Option DataFile) (sched : List (ℕ × OpenChoice)) (t : ℕ) (choice : OpenChoice)
    (hnot : (opened filename calls data sched).shared.isReady = false)
    (hready : (step (openerStep filename) (opened filename calls data sched) t
      choice).shared.isReady = true) :
    openArgsError (calls t).chunkSize (calls t).chunkCount = none ∧
      (step (openerStep filename) (opened filename calls data sched) t choice).shared =
        Files.created (u32 (calls t).chunkSize) := by
  have hspec := openerStep_spec filename (opened filename calls data sched).shared
    ((opened filename calls data sched).thread t) choice
  rw [← step_shared, ← step_thread_self] at hspec
  generalize hf : (step (openerStep filename) (opened filename calls data sched) t
    choice).shared = f at hspec hready ⊢
  generalize (step (openerStep filename) (opened filename calls data sched) t
    choice).thread t = c at hspec
  cases hspec with
  | idle => simp [hnot] at hready
  | quiet => simp [hnot] at hready
  | elected => simp [Files.isReady] at hready
  | @create _ pc hargs hpc errno o hpc' =>
      have hcreating : ((opened filename calls data sched).thread t).Creating := ⟨pc, hpc⟩
      obtain ⟨c, -, -, -, -, howned⟩ := opened_owned filename calls data
        fun he => he.creating hcreating
      obtain rfl := howned.only t hcreating
      have hchecked := opened_checked filename calls data sched t
      rw [hpc] at hchecked
      refine ⟨hchecked, ?_⟩
      rw [howned.args] at hready ⊢
      have hcreate := filesCreate_spec (howned.building pc hpc) errno o
      generalize (filesCreate (u32 (calls t).chunkSize)
        (opened filename calls data sched).shared errno o pc).2.2 = next at hcreate
      cases next with
      | goto pc' =>
          have hat : CreateAt _ pc' _ := hcreate
          simp [hat.isReady_eq_false] at hready
      | done b =>
          cases b with
          | true => exact hcreate
          | false =>
              have hsame : _ = (opened filename calls data sched).shared := hcreate
              simp [hsame, hnot] at hready
  | use u hpc =>
      have hlate : ¬ ((opened filename calls data sched).thread t).Early := by
        intro hearly
        have hpast := hearly.past
        rw [hpc] at hpast
        cases hpast
      obtain ⟨c, -, -, -, -, howned⟩ := opened_owned filename calls data hlate
      have hwas := (howned.point t).past (by rw [hpc]; rfl)
      simp [hnot] at hwas

/-- In a log that is ready no call is creating. -/
theorem not_creating_of_ready {filename : Option String} {calls : ℕ → OpenArgs}
    {data : Option DataFile} {sched : List (ℕ × OpenChoice)}
    (hready : (opened filename calls data sched).shared.isReady = true) (t : ℕ) :
    ¬ ((opened filename calls data sched).thread t).Creating := by
  cases opened_phases filename calls data sched with
  | inl hnone => simp [Files.isReady, hnone.absent] at hready
  | inr h =>
      obtain ⟨c, -, -, -, -, howned⟩ := h
      exact howned.not_creating hready t

/-- Once the log is ready `mmlog_open` leaves the files alone. -/
theorem mmlogOpen_files {filename : Option String} {f : Files} {c : Opener} {o : Outcome}
    (hready : f.isReady = true) (hnot : ¬ c.Creating) (hpc : c.pc ≠ .returned true) :
    (mmlogOpen filename f c o).1 = f := by
  have hspec := openerStep_spec filename f c (.answer o)
  simp only [openerStep] at hspec
  generalize (mmlogOpen filename f c o).1 = f' at hspec ⊢
  generalize (mmlogOpen filename f c o).2 = c' at hspec
  cases hspec with
  | idle => rfl
  | quiet => rfl
  | elected _ habsent => simp [Files.isReady, habsent] at hready
  | create _ hpc' => exact (hnot ⟨_, hpc'⟩).elim
  | use u hpc' => exact (hpc hpc').elim

theorem openArgsError_of_count {size count n : ℕ} (h : openArgsError size count = none)
    (hn : 2 ≤ n) : openArgsError size n = none := by
  unfold openArgsError at h ⊢
  split at h
  · cases h
  · split at h
    · cases h
    · rename_i h₁ h₂
      rw [if_neg (by omega), if_neg h₂]

theorem two_le_bufferCount (args : OpenArgs) : 2 ≤ args.bufferCount := by
  unfold OpenArgs.bufferCount
  split
  · exact le_rfl
  · omega

theorem bufferCount_eq {args : OpenArgs} (h : openArgsError args.chunkSize args.chunkCount = none) :
    args.bufferCount = args.chunkCount := by
  unfold openArgsError at h
  split at h
  · cases h
  · exact if_neg (by omega)

/-- The arguments behind the log that one of the calls creates. -/
def createdConfig (calls : ℕ → OpenArgs) (c : ℕ)
    (h : openArgsError (calls c).chunkSize (calls c).chunkCount = none) : Config where
  chunkSizeArg := (calls c).chunkSize
  chunkCount := fun a => (calls a).bufferCount
  accepted := fun a => openArgsError_of_count h (two_le_bufferCount (calls a))

section Runs

variable {κ ℓ δ : Type} (filename : Option String) (client : Client κ ℓ δ)
variable (calls : ℕ → OpenArgs) (data : Option DataFile) (vars : κ) (own : ℕ → ℓ)

/-- The threads and their programs on a log just created, before their first step. -/
def createdCallers (cfg : Config) : Sys (Log × κ) (Thread × ℓ) :=
  callers (Log.created cfg) (unstarted calls data vars own)

/-- Before the log is ready, no process has gone beyond `mmlog_open`. -/
structure Untouched (s : Sys (Store κ) (Process ℓ)) : Prop where
  notReady : s.shared.files.isReady = false
  ring : s.shared.ring = (unstarted calls data vars own).shared.ring
  callers : ∀ l, callers l s = callers l (unstarted calls data vars own)

/-- Once the log is ready, the handles follow a run of threads on the log just created. -/
structure Follows (s : Sys (Store κ) (Process ℓ)) : Prop where
  ready : s.shared.files.isReady = true
  run : ∃ (c : ℕ) (h : openArgsError (calls c).chunkSize (calls c).chunkCount = none) (l : Log)
    (sched : List (ℕ × (Outcome × δ))), s.shared.log? = some l ∧
      run (Feeding.drive calling client.beside)
        (createdCallers calls data vars own (createdConfig calls c h)) sched = callers l s

/-- What holds of the processes at every point of a run. -/
structure ClientInv (s : Sys (Store κ) (Process ℓ)) : Prop where
  opening : ∃ sched, openers s = opened filename calls data sched
  phase : Untouched calls data vars own s ∨ Follows client calls data vars own s

theorem clientInv_unstarted :
    ClientInv filename client calls data vars own (unstarted calls data vars own) :=
  ⟨⟨[], rfl⟩, .inl ⟨rfl, rfl, fun _ => rfl⟩⟩

variable {filename client calls data vars own}

theorem opened_pastReady {s : Sys (Store κ) (Process ℓ)} {sched : List (ℕ × OpenChoice)} {t : ℕ}
    (h : openers s = opened filename calls data sched)
    (hpc : (s.thread t).opener.pc = .returned true) : s.shared.files.isReady = true := by
  have hopener : ((opened filename calls data sched).thread t).pc = .returned true := by
    rw [← h]
    exact hpc
  have hlate : ¬ ((opened filename calls data sched).thread t).Early := by
    intro hearly
    have hpast := hearly.past
    rw [hopener] at hpast
    cases hpast
  obtain ⟨c, -, -, -, -, howned⟩ := opened_owned filename calls data hlate
  have hready := (howned.point t).past (by rw [hopener]; rfl)
  rw [← h] at hready
  exact hready

/-- A process that has its handle keeps the step of its thread. -/
theorem ClientInv.step_handle {s : Sys (Store κ) (Process ℓ)} {t : ℕ} {c : Outcome × δ}
    (h : ClientInv filename client calls data vars own s)
    (hpc : (s.thread t).opener.pc = .returned true) :
    ClientInv filename client calls data vars own (step (processStep filename client) s t c) := by
  obtain ⟨osched, hopeners⟩ := h.opening
  have hready := opened_pastReady hopeners hpc
  cases h.phase with
  | inl hbefore => simp [hbefore.notReady] at hready
  | inr hafter =>
      obtain ⟨a, ha, l, sched, hlog, hrun⟩ := hafter.run
      obtain ⟨u, hu⟩ := openers_step_handle filename client c hpc hlog
      obtain ⟨l', hlog', hcallers⟩ := callers_step_handle filename client c hpc hlog
      have hopeners' : openers (step (processStep filename client) s t c) =
          opened filename calls data (osched ++ [(t, .use u)]) := by
        rw [opened_append, ← hopeners]
        exact hu
      refine ⟨⟨_, hopeners'⟩, .inr ⟨?_, a, ha, l', sched ++ [(t, c)], hlog', ?_⟩⟩
      · apply opened_pastReady hopeners' (t := t)
        rw [step_thread_self, processStep_handle hpc hlog]
        exact hpc
      · rw [run_append, hrun]
        exact hcallers.symm

/-- Once the log is ready, a step of `mmlog_open` changes nothing that is shared. -/
theorem ClientInv.store_opener {s : Sys (Store κ) (Process ℓ)} {t : ℕ} {c : Outcome × δ}
    (h : ClientInv filename client calls data vars own s)
    (hready : s.shared.files.isReady = true) (hpc : (s.thread t).opener.pc ≠ .returned true) :
    (step (processStep filename client) s t c).shared = s.shared := by
  obtain ⟨osched, hopeners⟩ := h.opening
  have hnot : ¬ (s.thread t).opener.Creating := by
    have hopened : (opened filename calls data osched).shared.isReady = true := by
      rw [← hopeners]
      exact hready
    have hnone := not_creating_of_ready hopened t
    rwa [← hopeners] at hnone
  rw [step_shared, processStep_opener hpc, mmlogOpen_files hready hnot hpc]

/-- A step of `mmlog_open` either leaves the threads where they are or publishes the log. -/
theorem ClientInv.step_opener {s : Sys (Store κ) (Process ℓ)} {t : ℕ} {c : Outcome × δ}
    (h : ClientInv filename client calls data vars own s)
    (hpc : (s.thread t).opener.pc ≠ .returned true) :
    ClientInv filename client calls data vars own (step (processStep filename client) s t c) := by
  obtain ⟨osched, hopeners⟩ := h.opening
  have hmove := openers_step_opener filename client c hpc
  have hopeners' : openers (step (processStep filename client) s t c) =
      opened filename calls data (osched ++ [(t, .answer c.1)]) := by
    rw [opened_append, ← hopeners]
    exact hmove
  have hsame : ∀ l, callers l (step (processStep filename client) s t c) = callers l s :=
    fun l => callers_step_opener l hpc
  have hring : (step (processStep filename client) s t c).shared.ring = s.shared.ring := by
    rw [step_shared, processStep_opener hpc]
  refine ⟨⟨_, hopeners'⟩, ?_⟩
  cases h.phase with
  | inl hbefore =>
      cases hready : (step (processStep filename client) s t c).shared.files.isReady with
      | false =>
          exact .inl ⟨hready, hring.trans hbefore.ring,
            fun l => (hsame l).trans (hbefore.callers l)⟩
      | true =>
          have hnot : (opened filename calls data osched).shared.isReady = false := by
            rw [← hopeners]
            exact hbefore.notReady
          have hnow : (step (openerStep filename) (opened filename calls data osched) t
              (.answer c.1)).shared.isReady = true := by
            rw [← hopeners, ← hmove]
            exact hready
          obtain ⟨haccepted, hcreated⟩ :=
            opened_created_of_ready filename calls data osched t (.answer c.1) hnot hnow
          rw [← hopeners, ← hmove] at hcreated
          have hlog := Store.log_of_files hcreated
          rw [hring, hbefore.ring] at hlog
          refine .inr ⟨hready, t, haccepted, Log.created (createdConfig calls t haccepted), [],
            hlog, ?_⟩
          exact ((hsame _).trans (hbefore.callers _)).symm
  | inr hafter =>
      obtain ⟨a, ha, l, sched, hlog, hrun⟩ := hafter.run
      have hstore := h.store_opener (c := c) hafter.ready hpc
      refine .inr ⟨?_, a, ha, l, sched, ?_, ?_⟩
      · rw [hstore]
        exact hafter.ready
      · rw [hstore]
        exact hlog
      · rw [hrun, hsame]

theorem ClientInv.step {s : Sys (Store κ) (Process ℓ)} (t : ℕ) (c : Outcome × δ)
    (h : ClientInv filename client calls data vars own s) :
    ClientInv filename client calls data vars own (step (processStep filename client) s t c) := by
  by_cases hpc : (s.thread t).opener.pc = .returned true
  · exact h.step_handle hpc
  · exact h.step_opener hpc

theorem clientInv_started (sched : List (ℕ × (Outcome × δ))) :
    ClientInv filename client calls data vars own
      (started filename client calls data vars own sched) :=
  run_invariant (processStep filename client) (fun _ t c h => h.step t c) sched
    (clientInv_unstarted filename client calls data vars own)

theorem getD_map_range {fed : ℕ → List Call} {n : ℕ} (hfed : ∀ t, n ≤ t → fed t = []) (t : ℕ) :
    ((List.range n).map fed).getD t [] = fed t := by
  rcases Nat.lt_or_ge t n with ht | ht
  · simp [ht]
  · simp [hfed t ht, ht]

/-- Threads on a log just created that are given their calls are threads with programs. -/
theorem feedAll_created (cfg : Config) {fed : ℕ → List Call} {n : ℕ}
    (hfed : ∀ t, n ≤ t → fed t = []) :
    Feeding.feedAll calling (Feeding.bare (createdCallers calls data vars own cfg)) fed =
      initial cfg ((List.range n).map fed) := by
  simp only [Feeding.feedAll, Feeding.bare, createdCallers, callers, unstarted, initial]
  congr 1
  funext t
  rw [getD_map_range hfed t]
  rfl

variable (filename client data) in
/-- The handles of a log act on it as threads with fixed programs, whatever decides on the
calls; a program holds only calls that were decided on. -/
theorem started_follows {P : ℕ → Call → Prop} {Q : Sys (Log × κ) (Thread × ℓ) → Prop}
    (hstart : ∀ cfg, Q (createdCallers calls data vars own cfg))
    (hstep : ∀ s t (c : Outcome × δ), Q s →
      Q (step (Feeding.drive calling client.beside) s t c))
    (hfed : ∀ s t d, Q s → ((s.thread t).1).halted = true →
      ∀ call ∈ (client s.shared.2 (s.thread t).2 (s.thread t).1.results d).2.2, P t call)
    (sched : List (ℕ × (Outcome × δ))) :
    Untouched calls data vars own (started filename client calls data vars own sched) ∨
      ∃ (c : ℕ) (h : openArgsError (calls c).chunkSize (calls c).chunkCount = none)
        (programs : List (List Call)) (sched' : Schedule),
        (∀ t, ∀ call ∈ programs.getD t [], P t call) ∧
        (started filename client calls data vars own sched).shared.log? =
          some (reached (createdConfig calls c h) programs sched').shared ∧
        (∀ t, ((started filename client calls data vars own sched).thread t).thread =
          (reached (createdConfig calls c h) programs sched').thread t) ∧
        Q (callers (reached (createdConfig calls c h) programs sched').shared
          (started filename client calls data vars own sched)) := by
  cases (clientInv_started sched : ClientInv filename client calls data vars own _).phase with
  | inl hbefore => exact .inl hbefore
  | inr hafter =>
      obtain ⟨c, h, l, dsched, hlog, hrun⟩ := hafter.run
      obtain ⟨fed, sched', hbare, hP, hidle⟩ := Feeding.bare_run_drive calling client.beside
        P Q hstep hfed _ (hstart (createdConfig calls c h)) dsched
      have hQ := run_invariant (Feeding.drive calling client.beside) hstep dsched
        (hstart (createdConfig calls c h))
      obtain ⟨n, hn⟩ := exists_thread_bound dsched
      have hnone : ∀ t, n ≤ t → fed t = [] := by
        intro t ht
        apply hidle t
        intro m hm heq
        have hlt := hn m hm
        omega
      rw [feedAll_created (createdConfig calls c h) hnone, hrun] at hbare
      have hreached : reached (createdConfig calls c h) ((List.range n).map fed) sched' =
          Feeding.bare (callers l (started filename client calls data vars own sched)) := hbare
      refine .inr ⟨c, h, (List.range n).map fed, sched', ?_, ?_, ?_, ?_⟩
      · intro t call hcall
        rw [getD_map_range hnone t] at hcall
        exact hP t call hcall
      · rw [hreached, hlog]
        rfl
      · intro t
        rw [hreached]
        rfl
      · rw [hreached]
        change Q (callers l _)
        rw [← hrun]
        exact hQ

variable (filename client calls data vars own) in
theorem started_openers (sched : List (ℕ × (Outcome × δ))) :
    ∃ osched, openers (started filename client calls data vars own sched) =
      opened filename calls data osched :=
  (clientInv_started sched).opening

theorem Untouched.not_returned {sched : List (ℕ × (Outcome × δ))}
    (h : Untouched calls data vars own (started filename client calls data vars own sched))
    (t : ℕ) : ((started filename client calls data vars own sched).thread t).opener.pc ≠
      .returned true := by
  intro hpc
  obtain ⟨osched, hopeners⟩ := started_openers filename client calls data vars own sched
  have hready := opened_pastReady hopeners hpc
  simp [h.notReady] at hready

theorem Untouched.thread {s : Sys (Store κ) (Process ℓ)} (h : Untouched calls data vars own s)
    (t : ℕ) : (s.thread t).thread = ⟨.idle, .ok, [], []⟩ := by
  have hsame := h.callers ⟨LogMetadata.zero, ⟨0, fun _ => 0⟩, s.shared.ring⟩
  have hthread := congrArg (fun x => (x.thread t).1) hsame
  exact hthread

end Runs

/-- Any number of processes race to open a log that does not exist, and whichever has its
handle goes on to call into the log as its program decides from what it has seen. In every
interleaving either nobody has a handle yet and nothing has been called, or the log and the
threads are as in a run of fixed programs on the log that one of the calls has created, each
handle with a buffer of the size it asked for. -/
theorem started_is_reached {κ ℓ δ : Type} (filename : Option String) (client : Client κ ℓ δ)
    (calls : ℕ → OpenArgs) (data : Option DataFile) (vars : κ) (own : ℕ → ℓ)
    (sched : List (ℕ × (Outcome × δ))) :
    (∀ t, ((started filename client calls data vars own sched).thread t).opener.pc ≠
        .returned true ∧
      ((started filename client calls data vars own sched).thread t).thread =
        ⟨.idle, .ok, [], []⟩) ∨
      ∃ (cfg : Config) (programs : List (List Call)) (sched' : Schedule),
        (∃ c, cfg.chunkSizeArg = (calls c).chunkSize) ∧
        (∀ t, ((started filename client calls data vars own sched).thread t).opener.pc =
            .returned true → cfg.chunkCount t = (calls t).chunkCount) ∧
        (started filename client calls data vars own sched).shared.log? =
          some (reached cfg programs sched').shared ∧
        ∀ t, ((started filename client calls data vars own sched).thread t).thread =
          (reached cfg programs sched').thread t := by
  obtain hbefore | ⟨c, h, programs, sched', -, hlog, hthread, -⟩ :=
    started_follows filename client data (P := fun _ _ => True) (Q := fun _ => True)
      (fun _ => trivial) (fun _ _ _ _ => trivial) (fun _ _ _ _ _ _ _ => trivial) sched
  · exact .inl fun t => ⟨hbefore.not_returned t, hbefore.thread t⟩
  · refine .inr ⟨createdConfig calls c h, programs, sched', ⟨c, rfl⟩, fun t hpc => ?_, hlog,
      hthread⟩
    obtain ⟨osched, hopeners⟩ := started_openers filename client calls data vars own sched
    have hchecked := opened_checked filename calls data osched t
    rw [← hopeners] at hchecked
    change OpenPc.Checked (calls t)
      ((started filename client calls data vars own sched).thread t).opener.pc at hchecked
    rw [hpc] at hchecked
    exact bufferCount_eq hchecked

end SystemsExperiments.Mmlog
