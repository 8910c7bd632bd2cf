import SystemsExperiments.Verification.Mmlog.Client

/-! # Processes that open the log and insert

The records of processes that race to create the log are all in it once their calls have
returned true. -/

namespace SystemsExperiments.Mmlog

open Interleaving Layout

/-! ## The calls of a thread -/

/-- What the thread has called, is calling and will call. -/
def Thread.calls (th : Thread) : List Call :=
  th.results.map Prod.fst ++ (th.pc.call?.toList ++ th.todo)

/-- All that the thread has still to call are inserts and trims. -/
def Thread.Appends (th : Thread) : Prop := ∀ call ∈ th.todo, call.isAppend = true

/-- A call that begins is in the calls of the thread as it was in the list. -/
theorem calls_start (th : Thread) {call : Call} (h : call.isAppend = true) :
    (th.start call).todo = th.todo ∧
      (th.start call).calls = th.results.map Prod.fst ++ call :: th.todo := by
  obtain ⟨-, v, e, hstart⟩ | ⟨a, data, rfl, -, hstart⟩ | ⟨a, rfl, hstart⟩ := start_append th h
  · rw [hstart]
    refine ⟨rfl, ?_⟩
    simp [Thread.calls, Thread.finish, Pc.call?]
  · rw [hstart]
    exact ⟨rfl, rfl⟩
  · rw [hstart]
    exact ⟨rfl, rfl⟩

/-- The calls of a thread stay what they are, however far it has come with them. -/
theorem threadStep_calls (s : Log) {th : Thread} (o : Outcome) (h : th.Appends) :
    (threadStep s th o).2.Appends ∧ (threadStep s th o).2.calls = th.calls := by
  have hgoes := threadStep_goes s th o
  generalize (threadStep s th o).2 = th' at hgoes ⊢
  cases hgoes with
  | rest _ => exact ⟨h, rfl⟩
  | start call rest hpc htodo =>
      have hall : ∀ c ∈ call :: rest, c.isAppend = true := by
        rw [← htodo]
        exact h
      obtain ⟨hrest, hcalls⟩ :=
        calls_start { th with todo := rest } (hall call List.mem_cons_self)
      refine ⟨?_, ?_⟩
      · intro c hc
        rw [hrest] at hc
        exact hall c (List.mem_cons_of_mem _ hc)
      · rw [hcalls, Thread.calls, hpc, htodo]
        rfl
  | goto pc errno hpc =>
      refine ⟨h, ?_⟩
      rw [Thread.calls, Thread.calls, ← hpc]
      rfl
  | finish call v errno hcall =>
      refine ⟨h, ?_⟩
      rw [Thread.calls, Thread.calls, hcall]
      simp [Thread.finish, Pc.call?]

/-- The program of a thread that inserts and trims is what it has called, is calling and will
call. -/
theorem calls_reached (cfg : Config) {programs : List (List Call)}
    (h : ∀ t, ∀ call ∈ programs.getD t [], call.isAppend = true) (sched : Schedule) (t : ℕ) :
    ((reached cfg programs sched).thread t).calls = programs.getD t [] := by
  have hinv := run_invariant threadStep
    (P := fun s => ∀ u, (s.thread u).Appends ∧ (s.thread u).calls = programs.getD u []) ?_ sched
    (s := initial cfg programs) fun u => ⟨h u, rfl⟩
  · exact (hinv t).2
  · intro s u o hs v
    by_cases hv : v = u
    · subst hv
      rw [step_thread_self]
      obtain ⟨happends, hcalls⟩ := threadStep_calls s.shared o (hs v).1
      exact ⟨happends, hcalls.trans (hs v).2⟩
    · rw [step_thread_of_ne threadStep s o hv]
      exact hs v

theorem calls_of_halted {th : Thread} (h : th.halted = true) :
    th.calls = th.results.map Prod.fst := by
  obtain ⟨hpc, htodo⟩ := halted_iff.mp h
  rw [Thread.calls, hpc, htodo]
  exact List.append_nil _

theorem calls_feed (th : Thread) (calls : List Call) :
    (th.feed calls).calls = th.calls ++ calls := by
  simp [Thread.calls, Thread.feed]

theorem appends_feed {th : Thread} (h : th.Appends) {calls : List Call}
    (hcalls : ∀ call ∈ calls, call.isAppend = true) : (th.feed calls).Appends := by
  intro call hcall
  rcases List.mem_append.mp hcall with hold | hnew
  · exact h call hold
  · exact hcalls call hnew

/-! ## What finished threads have inserted -/

def Thread.insertedBytes (th : Thread) : ℕ := (th.finished.map Payload.size).sum

theorem insertThread_reached (cfg : Config) {programs : List (List Call)}
    (h : OnlyInserts programs) (sched : Schedule) (t : ℕ) :
    InsertThread ((programs.getD t []).filterMap Call.payload?)
      ((reached cfg programs sched).thread t) := by
  refine run_invariant threadStep
    (P := fun s => ∀ u, InsertThread ((programs.getD u []).filterMap Call.payload?) (s.thread u))
    ?_ sched ?_ t
  · intro s u o hs v
    by_cases hv : v = u
    · subst hv
      rw [step_thread_self]
      exact threadStep_insertThread (hs v)
    · rw [step_thread_of_ne threadStep s o hv]
      exact hs v
  · intro u
    exact ⟨trivial, fun call hcall => isAppend_of_isInsert (h.getD u call hcall), rfl⟩

theorem InsertThread.finished_eq {program : List Payload} {th : Thread}
    (h : InsertThread program th) (hhalted : th.halted = true) : th.finished = program := by
  obtain ⟨hpc, htodo⟩ := halted_iff.mp hhalted
  rw [← h.program_eq, hpc, htodo]
  simp [Pc.data?]

theorem programBytes_eq {p : List Call} (h : ∀ call ∈ p, call.isInsert = true) :
    programBytes p = ((p.filterMap Call.payload?).map Payload.size).sum := by
  induction p with
  | nil => rfl
  | cons call rest ih =>
      obtain ⟨a, data, rfl, hpos⟩ := isInsert_iff (h call List.mem_cons_self)
      rw [programBytes_cons, ih fun c hc => h c (List.mem_cons_of_mem _ hc),
        List.filterMap_cons_some (payload?_insert hpos), List.map_cons, List.sum_cons]
      rfl

theorem totalBytes_eq_sum (programs : List (List Call)) :
    totalBytes programs =
      ∑ t ∈ Finset.range programs.length, programBytes (programs.getD t []) := by
  induction programs with
  | nil => rfl
  | cons p rest ih =>
      rw [List.length_cons, Finset.sum_range_succ']
      simp only [totalBytes, List.map_cons, List.sum_cons, List.getD_cons_succ,
        List.getD_cons_zero] at ih ⊢
      omega

/-- Threads that have come to the end of their programs have inserted them. -/
theorem totalBytes_le {cfg : Config} {programs : List (List Call)} (honly : OnlyInserts programs)
    {sched : Schedule} {n : ℕ}
    (hhalted : ∀ t, ((reached cfg programs sched).thread t).halted = true)
    (hidle : ∀ t, n ≤ t → ((reached cfg programs sched).thread t).results = []) :
    totalBytes programs ≤
      ∑ t ∈ Finset.range n, ((reached cfg programs sched).thread t).insertedBytes := by
  have hbytes : ∀ t, programBytes (programs.getD t []) =
      ((reached cfg programs sched).thread t).insertedBytes := by
    intro t
    rw [programBytes_eq (honly.getD t), Thread.insertedBytes,
      (insertThread_reached cfg honly sched t).finished_eq (hhalted t)]
  rw [totalBytes_eq_sum, Finset.sum_congr rfl fun t _ => hbytes t]
  apply Finset.sum_le_sum_of_ne_zero
  intro t _ hne
  rw [Finset.mem_range]
  by_contra ht
  apply hne
  rw [Thread.insertedBytes, Thread.finished, hidle t (Nat.le_of_not_lt ht)]
  rfl

/-- Once all threads have finished and all inserts have returned true, the log holds what the
threads have inserted. -/
theorem holdsRecords_of_halted (cfg : Config) {programs : List (List Call)}
    (honly : OnlyInserts programs) (hsmall : totalBytes programs + cfg.chunkSize < 2 ^ 32)
    {sched : Schedule}
    (hhalted : ∀ t, ((reached cfg programs sched).thread t).halted = true)
    (htrue : ∀ t, ∀ r ∈ ((reached cfg programs sched).thread t).results, r.2 = .bool true) :
    ∃ order : List (ℕ × Payload),
      (∀ t, (order.filter fun x => x.1 = t).map Prod.snd =
        ((reached cfg programs sched).thread t).finished) ∧
      HoldsRecords (reached cfg programs sched).shared order := by
  obtain ⟨order, h⟩ := insertsInv_reached cfg honly hsmall sched
  have hres : ∀ t, ((reached cfg programs sched).thread t).pc.reserved? = none := by
    intro t
    rw [(halted_iff.mp (hhalted t)).1]
    rfl
  refine ⟨order, fun t => ?_, h.content.holdsRecords fun start t data hmem => ?_⟩
  · rw [h.content.history t, Thread.claimed, hres t]
    exact List.append_nil _
  · rcases h.content.status start t data hmem with hst | hprog | ⟨r, hr, hfalse⟩
    · exact hst
    · cases (hres t).symm.trans hprog
    · cases (htrue t r hr).symm.trans hfalse.2

/-! ## Processes -/

theorem onlyInserts_of_getD {programs : List (List Call)}
    (h : ∀ t, ∀ call ∈ programs.getD t [], call.isInsert = true) : OnlyInserts programs := by
  intro p hp call hcall
  obtain ⟨t, ht, rfl⟩ := List.getElem_of_mem hp
  apply h t call
  rw [List.getD_eq_getElem?_getD, List.getElem?_eq_getElem ht]
  exact hcall

section Runs

variable {κ ℓ δ : Type} {filename : Option String} {client : Client κ ℓ δ}
variable {calls : ℕ → OpenArgs} {data : Option DataFile} {vars : κ} {own : ℕ → ℓ}
variable {sched : List (ℕ × (Outcome × δ))}

theorem started_thread_of_le {n t : ℕ} (hn : ∀ m ∈ sched, m.1 < n) (ht : n ≤ t) :
    (started filename client calls data vars own sched).thread t =
      (unstarted calls data vars own).thread t := by
  apply run_thread_of_forall_ne
  intro m hm heq
  have hlt := hn m hm
  omega

/-- What a condition `Q` on the threads and their programs tells about the calls made may be
used to see that they are all inserts. -/
theorem holdsRecords_of_started {Q : Sys (Log × κ) (Thread × ℓ) → Prop} {n : ℕ}
    (hstart : ∀ cfg, Q (createdCallers calls data vars own cfg))
    (hstep : ∀ s t (c : Outcome × δ), Q s →
      Q (step (Feeding.drive calling client.beside) s t c))
    (hfed : ∀ s t d, Q s → ((s.thread t).1).halted = true →
      ∀ call ∈ (client s.shared.2 (s.thread t).2 (s.thread t).1.results d).2.2,
        call.isAppend = true)
    (honly : ∀ l, Q (callers l (started filename client calls data vars own sched)) →
      ∀ t, ∀ r ∈ ((started filename client calls data vars own sched).thread t).thread.results,
        r.1.isInsert = true)
    (hn : ∀ m ∈ sched, m.1 < n)
    (hhalted : ∀ t, ((started filename client calls data vars own sched).thread
      t).thread.halted = true)
    (htrue : ∀ t, ∀ r ∈ ((started filename client calls data vars own sched).thread
      t).thread.results, r.2 = .bool true)
    (hsmall : ∀ c, (∑ t ∈ Finset.range n, ((started filename client calls data vars own
        sched).thread t).thread.insertedBytes) + u32 (calls c).chunkSize < 2 ^ 32) :
    Untouched calls data vars own (started filename client calls data vars own sched) ∨
      ∃ (l : Log) (order : List (ℕ × Payload)),
        (started filename client calls data vars own sched).shared.log? = some l ∧
        (∀ t, (order.filter fun x => x.1 = t).map Prod.snd =
          ((started filename client calls data vars own sched).thread t).thread.finished) ∧
        HoldsRecords l order ∧
        Q (callers l (started filename client calls data vars own sched)) := by
  obtain hbefore | ⟨c, h, programs, sched', hP, hlog, hthread, hQ⟩ :=
    started_follows filename client data (P := fun _ call => call.isAppend = true) hstart hstep
      hfed sched
  · exact .inl hbefore
  · have hinserts := honly _ hQ
    have hidle : ∀ t, n ≤ t →
        ((reached (createdConfig calls c h) programs sched').thread t).results = [] := by
      intro t ht
      rw [← hthread t, started_thread_of_le hn ht]
      rfl
    simp only [hthread] at hinserts hhalted htrue hsmall
    have hprograms : OnlyInserts programs := by
      apply onlyInserts_of_getD
      intro t call hcall
      rw [← calls_reached (createdConfig calls c h) hP sched' t, calls_of_halted (hhalted t)]
        at hcall
      obtain ⟨r, hr, rfl⟩ := List.mem_map.mp hcall
      exact hinserts t r hr
    have hbytes := totalBytes_le hprograms hhalted hidle
    obtain ⟨order, horder, hholds⟩ := holdsRecords_of_halted (createdConfig calls c h) hprograms
      ((Nat.add_le_add_right hbytes _).trans_lt (hsmall c)) hhalted htrue
    refine .inr ⟨_, order, hlog, fun t => ?_, hholds, hQ⟩
    rw [horder t, hthread t]

/-- Programs that decide on inserts only have their threads call nothing else. -/
theorem drive_inserts (honly : ∀ x l r d, ∀ call ∈ (client x l r d).2.2, call.isInsert = true)
    (s : Sys (Log × κ) (Thread × ℓ)) (t : ℕ) (c : Outcome × δ)
    (h : ∀ u, ∀ call ∈ (s.thread u).1.calls, call.isInsert = true) :
    ∀ u, ∀ call ∈ ((step (Feeding.drive calling client.beside) s t c).thread u).1.calls,
      call.isInsert = true := by
  intro u
  by_cases hu : u = t
  · subst hu
    rw [step_thread_self]
    cases hhalted : (s.thread u).1.halted with
    | false =>
        have happends : (s.thread u).1.Appends := by
          intro call hcall
          apply isAppend_of_isInsert
          apply h u call
          exact List.mem_append_right _ (List.mem_append_right _ hcall)
        rw [Feeding.drive_of_work hhalted, (threadStep_calls s.shared.1 c.1 happends).2]
        exact h u
    | true =>
        rw [Feeding.drive_of_starved hhalted]
        intro call hcall
        rw [show calling.feed = Thread.feed from rfl, calls_feed] at hcall
        rcases List.mem_append.mp hcall with hold | hnew
        · exact h u call hold
        · exact honly _ _ _ _ call hnew
  · rw [step_thread_of_ne _ s c hu]
    exact h u

end Runs

/-- Any number of processes race to open a log that does not exist, and each inserts through
its handle what its program decides on. Whenever no call is in progress and every insert so
far has returned true, either nothing was inserted or the bytes below the cursor are the
records, each once and whole, in an order that extends the order of each process. -/
theorem no_record_lost_from_opening {κ ℓ δ : Type} (filename : Option String)
    (client : Client κ ℓ δ) (calls : ℕ → OpenArgs) (data : Option DataFile) (vars : κ)
    (own : ℕ → ℓ) (sched : List (ℕ × (Outcome × δ))) (n : ℕ)
    (honly : ∀ x l r d, ∀ call ∈ (client x l r d).2.2, call.isInsert = true)
    (hn : ∀ m ∈ sched, m.1 < n)
    (hhalted : ∀ t, ((started filename client calls data vars own sched).thread
      t).thread.halted = true)
    (htrue : ∀ t, ∀ r ∈ ((started filename client calls data vars own sched).thread
      t).thread.results, r.2 = .bool true)
    (hsmall : ∀ c, (∑ t ∈ Finset.range n, ((started filename client calls data vars own
        sched).thread t).thread.insertedBytes) + u32 (calls c).chunkSize < 2 ^ 32) :
    (∀ t, ((started filename client calls data vars own sched).thread t).thread.results = []) ∨
      ∃ (l : Log) (order : List (ℕ × Payload)),
        (started filename client calls data vars own sched).shared.log? = some l ∧
        (∀ t, (order.filter fun x => x.1 = t).map Prod.snd =
          ((started filename client calls data vars own sched).thread t).thread.finished) ∧
        HoldsRecords l order := by
  obtain hbefore | ⟨l, order, hlog, horder, hholds, -⟩ :=
    holdsRecords_of_started
      (Q := fun s => ∀ t, ∀ call ∈ (s.thread t).1.calls, call.isInsert = true)
      (fun _ _ call hcall => absurd hcall List.not_mem_nil) (drive_inserts honly)
      (fun _ _ _ _ _ call hcall => isAppend_of_isInsert (honly _ _ _ _ call hcall))
      (fun _ hQ t r hr => hQ t r.1 (List.mem_append_left _ (List.mem_map_of_mem hr))) hn hhalted
      htrue hsmall
  · refine .inl fun t => ?_
    rw [hbefore.thread t]
  · exact .inr ⟨l, order, hlog, horder, hholds⟩

/-- A program that makes the inserts of its list. -/
def insertList : Client Unit (List Call) Unit := fun _ calls _ _ =>
  ((), [], calls.filter Call.isInsert)

def bothInTurn : List (ℕ × (Outcome × Unit)) :=
  (List.replicate 60 [(0, (.succeed, ())), (1, (.succeed, ()))]).flatten

/-- Two processes that open the same log and insert one record each. -/
def twoOpenWriters : Sys (Store Unit) (Process (List Call)) :=
  started (some "log") insertList (fun _ => ⟨4096, 2⟩) none () (fun t => twoWriters.getD t [])
    bothInTurn

theorem twoOpenWriters_eq :
    started (some "log") insertList (fun _ => ⟨4096, 2⟩) none () (fun t => twoWriters.getD t [])
      bothInTurn = twoOpenWriters := rfl

theorem no_record_lost_from_opening_two_writers :
    ∃ (l : Log) (order : List (ℕ × Payload)),
      twoOpenWriters.shared.log? = some l ∧
      (∀ t, (order.filter fun x => x.1 = t).map Prod.snd =
        (twoOpenWriters.thread t).thread.finished) ∧
      HoldsRecords l order := by
  have hsched : ∀ m ∈ bothInTurn, m.1 < 2 := by decide
  have hothers : ∀ t, 2 ≤ t → (twoOpenWriters.thread t).thread = ⟨.idle, .ok, [], []⟩ :=
    fun t ht => congrArg Process.thread (started_thread_of_le hsched ht)
  have hrecords := no_record_lost_from_opening (some "log") insertList (fun _ => ⟨4096, 2⟩) none
    () (fun t => twoWriters.getD t []) bothInTurn 2
    (fun _ calls _ _ call hcall => (List.mem_filter.mp hcall).2) hsched
  rw [twoOpenWriters_eq] at hrecords
  have hhalted : ∀ t < 2, (twoOpenWriters.thread t).thread.halted = true := by decide +kernel
  have htrue : ∀ t < 2, ∀ v ∈ (twoOpenWriters.thread t).thread.results.map Prod.snd,
      v = .bool true := by
    decide +kernel
  have hsome : (twoOpenWriters.thread 0).thread.results.isEmpty = false := by decide +kernel
  have hbytes : (∑ t ∈ Finset.range 2, (twoOpenWriters.thread t).thread.insertedBytes) +
      u32 4096 < 2 ^ 32 := by
    decide +kernel
  generalize twoOpenWriters = s at *
  refine (hrecords ?_ ?_ fun _ => hbytes).resolve_left fun hnone => ?_
  · intro t
    rcases Nat.lt_or_ge t 2 with ht | ht
    · exact hhalted t ht
    · rw [hothers t ht]
      rfl
  · intro t r hr
    rcases Nat.lt_or_ge t 2 with ht | ht
    · exact htrue t ht r.2 (List.mem_map_of_mem hr)
    · rw [hothers t ht] at hr
      exact (List.not_mem_nil hr).elim
  · rw [hnone 0] at hsome
    cases hsome

end SystemsExperiments.Mmlog
