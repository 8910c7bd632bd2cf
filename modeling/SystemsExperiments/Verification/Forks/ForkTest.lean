import SystemsExperiments.Shared.Grouping
import SystemsExperiments.Model.Forks.ForkTest
import SystemsExperiments.Verification.Forks.RandomMessage
import SystemsExperiments.Verification.Mmlog.Trimmer
import SystemsExperiments.Verification.Mmlog.Writer
import SystemsExperiments.Verification.Threads.Lines

/-! # The fork test passes

In every interleaving in which all processes exit with 0 the log holds as many lines as they
have inserted messages. -/

namespace SystemsExperiments.Forks

open Interleaving Mmlog

variable {k : Sizes}

/-! ## Messages -/

/-- The line of a message. -/
def Moment.line (d : Moment) : List UInt8 := messageText d.pid d.time d.rand ++ [10]

theorem isLine_line (d : Moment) : Threads.IsLine d.line :=
  ⟨_, rfl, fun hmem => (messageText_visible d.pid d.time d.rand 10 hmem).2 rfl⟩

theorem length_line_le (d : Moment) : d.line.length ≤ 200 := by
  have hlen := length_messageText_lt d.pid_lt d.time_lt d.rand
  rw [Moment.line, List.length_append, List.length_singleton]
  omega

theorem takeWhile_messageText (d : Moment) (rest : List UInt8) :
    (messageText d.pid d.time d.rand ++ 0 :: rest).takeWhile (fun c => c ≠ 0) =
      messageText d.pid d.time d.rand := by
  rw [Scanning.takeWhile_append_cons (by decide)]
  apply List.takeWhile_eq_self_iff.mpr
  intro c hc
  exact decide_eq_true (messageText_visible d.pid d.time d.rand c hc).1

theorem hasHeading_line (d : Moment) : hasHeading d.line = true := by
  have hnul : d.line.takeWhile (fun c => c ≠ 0) = d.line := by
    apply List.takeWhile_eq_self_iff.mpr
    intro c hc
    rw [Moment.line, List.mem_append, List.mem_singleton] at hc
    rcases hc with hc | rfl
    · exact decide_eq_true (messageText_visible d.pid d.time d.rand c hc).1
    · rfl
  rw [hasHeading, hnul]
  apply decide_eq_true
  apply List.IsPrefix.isInfix
  simp only [Moment.line, messageText, heading, List.append_assoc]
  exact List.prefix_append _ _

/-- What is inserted is the line, the NUL left out. -/
theorem newMessage_spec (d : Moment) :
    ∃ data, newMessage d = .ok data ∧ data.bytes = d.line ∧ data.size = d.line.length := by
  have hlen := length_messageText_lt d.pid_lt d.time_lt d.rand
  obtain ⟨rest, hrest, hgenerate⟩ := generateRandomMessage_eq d.pid_lt d.time_lt d.rand
    (by decide : 200 ≤ maxMessageSize) (by decide) d.length_buffer
  have hline : d.line.length = (messageText d.pid d.time d.rand).length + 1 := by
    rw [Moment.line, List.length_append, List.length_singleton]
  have hroom : [0].length ≤ rest.length := by
    rw [maxMessageSize] at hrest
    rw [List.length_singleton]
    omega
  have hfirst : store (messageText d.pid d.time d.rand ++ 0 :: rest)
      (messageText d.pid d.time d.rand).length [10] = .ok (d.line ++ rest) := by
    rw [store_append (by simp)]
    rfl
  have hsecond : store (d.line ++ rest) d.line.length [0] =
      .ok (d.line ++ ([0] ++ rest.drop 1)) := by
    rw [store_append hroom, List.append_assoc]
    rfl
  have hrun : newMessage d =
      .ok ⟨d.line.length, fun i => (d.line ++ ([0] ++ rest.drop 1)).getD i 0⟩ := by
    simp only [newMessage, hgenerate, ok_bind, takeWhile_messageText, hfirst, hsecond, ← hline]
    rfl
  exact ⟨_, hrun, bytes_getD d.line ([0] ++ rest.drop 1), rfl⟩

/-! ## One process -/

/-- A call that inserts a new message. -/
def Inserts (t : ℕ) (call : Call) : Prop :=
  ∃ d data, newMessage d = .ok data ∧ call = .insert (some t) (some data)

/-- A record with the line of a message. -/
def IsMessage (data : Payload) : Prop :=
  ∃ d : Moment, data.bytes = d.line ∧ data.size = d.line.length

theorem Inserts.payload {t : ℕ} {call : Call} (h : Inserts t call) :
    ∃ data, call.payload? = some data ∧ IsMessage data := by
  obtain ⟨d, data, hdata, rfl⟩ := h
  obtain ⟨data', hdata', hbytes, hsize⟩ := newMessage_spec d
  cases hdata.symm.trans hdata'
  have hpos : 0 < data.size := by
    rw [hsize, Moment.line, List.length_append]
    exact Nat.succ_pos _
  exact ⟨data, payload?_insert hpos, d, hbytes, hsize⟩

theorem Inserts.isInsert {t : ℕ} {call : Call} (h : Inserts t call) : call.isInsert = true := by
  obtain ⟨data, hdata, -⟩ := h.payload
  obtain ⟨_, _, _, hcall⟩ := h
  rw [hcall, Call.isInsert, ← hcall, hdata]
  rfl

abbrev ChildAt (k : Sizes) (th : Thread) (written : ℕ) (exited : Option Bool) : Prop :=
  WriterAt k.messages th written exited.isSome (exited == some true)

/-- What a process between two calls decides: it exits, or it has a message inserted. -/
inductive ChildMove (k : Sizes) (th : Thread) (t : ℕ) : Role × List Call → Prop
  | exit (written : ℕ) (ok : Bool) (h : ChildAt k th written (some ok)) :
      ChildMove k th t (.child t written (some ok), [])
  | next (written : ℕ) (call : Call) (hcall : Inserts t call)
      (h : ChildAt k (th.feed [call]) written none) :
      ChildMove k th t (.child t written none, [call])

theorem nextMessage_move {th : Thread} {t written : ℕ} (h : AtHead k.messages th written)
    (d : Moment) : ChildMove k th t (nextMessage k t written d) := by
  obtain ⟨data, hdata, -⟩ := newMessage_spec d
  unfold nextMessage
  split
  · rw [hdata]
    exact .next written _ ⟨d, data, hdata, rfl⟩ (h.next ‹_› _)
  · exact .exit written true (h.finish ‹_›)

theorem childProcess_move {th : Thread} {t written : ℕ} (h : ChildAt k th written none)
    (hhalted : th.halted = true) (d : Moment) :
    ChildMove k th t (childProcess k t written th.results d) := by
  unfold childProcess
  cases hlast : th.results.getLast? with
  | none => exact nextMessage_move (h.atHead_none hhalted hlast) d
  | some r =>
      dsimp only
      split
      · exact nextMessage_move (h.atHead_some hhalted hlast ‹_›) d
      · exact .exit written false (h.giveUp hhalted)

/-! ## All processes -/

abbrev Callers := Sys (Log × Unit) (Thread × Role)

abbrev forkStep (k : Sizes) := Feeding.drive calling (forkClient k).beside

/-- What holds of one process and its calls. -/
def ProcessAt (k : Sizes) (t : ℕ) (p : Thread × Role) : Prop :=
  if t < k.processes then ∃ written exited, p.2 = .child t written exited ∧
    ChildAt k p.1 written exited ∧ ∀ call ∈ p.1.calls, Inserts t call
  else p.1.Appends ∧ ∃ trimmed, p.2 = .main trimmed

theorem ProcessAt.child {t : ℕ} {p : Thread × Role} (h : ProcessAt k t p) (ht : t < k.processes) :
    ∃ written exited, p.2 = .child t written exited ∧ ChildAt k p.1 written exited ∧
      ∀ call ∈ p.1.calls, Inserts t call := by
  rwa [ProcessAt, if_pos ht] at h

theorem ProcessAt.appends {t : ℕ} {p : Thread × Role} (h : ProcessAt k t p) : p.1.Appends := by
  by_cases ht : t < k.processes
  · obtain ⟨-, -, -, -, hcalls⟩ := h.child ht
    intro call hcall
    have hmem : call ∈ p.1.calls := List.mem_append_right _ (List.mem_append_right _ hcall)
    exact isAppend_of_isInsert (hcalls call hmem).isInsert
  · rw [ProcessAt, if_neg ht] at h
    exact h.1

/-- A step of a process that has a call to go on with. -/
theorem ProcessAt.work {t : ℕ} {p : Thread × Role} (h : ProcessAt k t p) (l : Log) (o : Outcome)
    (hbusy : p.1.halted = false) : ProcessAt k t ((threadStep l p.1 o).2, p.2) := by
  obtain ⟨happends, hcalls⟩ := threadStep_calls l o h.appends
  by_cases ht : t < k.processes
  · obtain ⟨written, exited, hrole, hat, hinserts⟩ := h.child ht
    rw [ProcessAt, if_pos ht]
    refine ⟨written, exited, hrole, hat.threadStep h.appends hbusy, ?_⟩
    dsimp only
    rw [hcalls]
    exact hinserts
  · rw [ProcessAt, if_neg ht] at h ⊢
    exact ⟨happends, h.2⟩

/-- A step of a process between two calls. -/
theorem ProcessAt.decide {t : ℕ} {p : Thread × Role} (h : ProcessAt k t p) (d : Moment)
    (hhalted : p.1.halted = true) :
    ProcessAt k t (p.1.feed (forkClient k () p.2 p.1.results d).2.2,
      (forkClient k () p.2 p.1.results d).2.1) := by
  by_cases ht : t < k.processes
  · obtain ⟨written, exited, hrole, hat, hinserts⟩ := h.child ht
    have hmove : ChildMove k p.1 t (forkClient k () p.2 p.1.results d).2 := by
      rw [hrole]
      cases exited with
      | none => exact childProcess_move hat hhalted d
      | some ok => exact .exit written ok hat
    generalize (forkClient k () p.2 p.1.results d).2 = r at hmove
    rw [ProcessAt, if_pos ht]
    cases hmove with
    | exit written' ok hat' =>
        have hfeed : p.1.feed [] = p.1 := calling.feed_nil p.1
        dsimp only
        rw [hfeed]
        exact ⟨written', some ok, rfl, hat', hinserts⟩
    | next written' call hcall hat' =>
        refine ⟨written', none, rfl, hat', ?_⟩
        rw [calls_feed]
        exact List.forall_mem_append.mpr ⟨hinserts, List.forall_mem_singleton.mpr hcall⟩
  · have happends := h.appends
    rw [ProcessAt, if_neg ht] at h ⊢
    obtain ⟨-, trimmed, hrole⟩ := h
    rw [hrole]
    cases trimmed with
    | false =>
        exact ⟨appends_feed happends (List.forall_mem_singleton.mpr rfl), true, rfl⟩
    | true => exact ⟨appends_feed happends (List.forall_mem_nil _), true, rfl⟩

/-- Whatever a process does, it stays with its program. -/
def ForkInv (k : Sizes) (s : Callers) : Prop := ∀ t, ProcessAt k t (s.thread t)

theorem forkInv_start (cfg : Config) : ForkInv k
    (createdCallers (fun _ => ⟨chunkSize, numChunks⟩) none () (startRole k) cfg) := by
  intro t
  by_cases ht : t < k.processes
  · rw [ProcessAt, if_pos ht]
    exact ⟨0, none, if_pos ht, writerAt_start k.messages .ok, List.forall_mem_nil _⟩
  · rw [ProcessAt, if_neg ht]
    exact ⟨List.forall_mem_nil _, false, if_neg ht⟩

theorem forkInv_step (s : Callers) (t : ℕ) (c : Outcome × Moment) (h : ForkInv k s) :
    ForkInv k (step (forkStep k) s t c) := by
  intro u
  by_cases hu : u = t
  · subst hu
    rw [step_thread_self]
    cases hhalted : (s.thread u).1.halted with
    | false =>
        rw [forkStep, Feeding.drive_of_work hhalted]
        exact (h u).work s.shared.1 c.1 hhalted
    | true =>
        rw [forkStep, Feeding.drive_of_starved hhalted]
        exact (h u).decide c.2 hhalted
  · rw [step_thread_of_ne _ s c hu]
    exact h u

/-! ## When all processes have been successful -/

/-- What the processes have done when all of them have exited with 0. -/
structure Succeeded (k : Sizes) (s : ForkSystem) : Prop where
  halted : ∀ t, (s.thread t).thread.halted = true
  good : ∀ t, ∀ r ∈ (s.thread t).thread.results, r.2 = .bool true
  calls : ∀ t < k.processes, ∀ r ∈ (s.thread t).thread.results, Inserts t r.1
  idle : ∀ t, k.processes ≤ t → (s.thread t).thread.results = []
  count : ∀ t < k.processes, (s.thread t).thread.results.length = k.messages

theorem succeeded_iff {v : Role} : v.succeeded = true ↔
    ∃ processNum written, v = .child processNum written (some true) := by
  cases v with
  | child processNum written exited => simp [Role.succeeded]
  | main trimmed => simp [Role.succeeded]

theorem forkInv_forkTest (sched : List (ℕ × (Outcome × Moment))) :
    Untouched (fun _ => ⟨chunkSize, numChunks⟩) none () (startRole k) (forkTest k sched) ∨
      ∃ l, ForkInv k (callers l (forkTest k sched)) := by
  obtain hbefore | ⟨c, h, programs, sched', -, -, -, hQ⟩ :=
    started_follows (some "fork_test.log") (forkClient k) none (P := fun _ _ => True)
      (Q := ForkInv k) forkInv_start forkInv_step (fun _ _ _ _ _ _ _ => trivial) sched
  · exact .inl hbefore
  · exact .inr ⟨_, hQ⟩

theorem succeeded_of_success {front : List (ℕ × (Outcome × Moment))}
    (hfront : ∀ e ∈ front, e.1 < k.processes)
    (hsuccess : ∀ t < k.processes, ((forkTest k front).thread t).vars.succeeded = true) :
    Succeeded k (forkTest k front) := by
  have hothers : ∀ t, k.processes ≤ t → ((forkTest k front).thread t).thread =
      ⟨.idle, .ok, [], []⟩ :=
    fun t ht => congrArg Process.thread (started_thread_of_le hfront ht)
  cases forkInv_forkTest front with
  | inl hbefore =>
      have hzero := hsuccess 0 k.processes_pos
      have hvars := congrArg (fun s => (s.thread 0).2)
        (hbefore.callers ⟨LogMetadata.zero, ⟨0, fun _ => 0⟩, (forkTest k front).shared.ring⟩)
      change ((forkTest k front).thread 0).vars = startRole k 0 at hvars
      rw [hvars, startRole, if_pos k.processes_pos] at hzero
      cases hzero
  | inr h =>
      obtain ⟨l, h⟩ := h
      have hdone : ∀ t < k.processes,
          ((forkTest k front).thread t).thread.halted = true ∧
          ((forkTest k front).thread t).thread.results.length = k.messages ∧
          (∀ r ∈ ((forkTest k front).thread t).thread.results, r.2 = .bool true) ∧
          ∀ r ∈ ((forkTest k front).thread t).thread.results, Inserts t r.1 := by
        intro t ht
        obtain ⟨written, exited, hrole, hat, hinserts⟩ := (h t).child ht
        change ((forkTest k front).thread t).vars = .child t written exited at hrole
        obtain ⟨_, _, hexit⟩ := succeeded_iff.mp (hsuccess t ht)
        cases hrole.symm.trans hexit
        obtain ⟨hhalted, -, hlength, hgood⟩ := WriterAt.successful hat
        exact ⟨hhalted, hlength, hgood, fun r hr =>
          hinserts r.1 (List.mem_append_left _ (List.mem_map_of_mem hr))⟩
      refine ⟨fun t => ?_, fun t r hr => ?_, fun t ht => (hdone t ht).2.2.2, fun t ht => ?_,
        fun t ht => (hdone t ht).2.1⟩
      · rcases Nat.lt_or_ge t k.processes with ht | ht
        · exact (hdone t ht).1
        · rw [hothers t ht]
          rfl
      · rcases Nat.lt_or_ge t k.processes with ht | ht
        · exact (hdone t ht).2.2.1 r hr
        · rw [hothers t ht] at hr
          exact absurd hr List.not_mem_nil
      · rw [hothers t ht]

theorem Succeeded.touched {s : ForkSystem} (h : Succeeded k s) :
    ¬ Untouched (fun _ => ⟨chunkSize, numChunks⟩) none () (startRole k) s := by
  intro hbefore
  have hcount := h.count 0 k.processes_pos
  rw [hbefore.thread 0] at hcount
  exact k.messages_pos.ne hcount

theorem Succeeded.length_finished {s : ForkSystem} (h : Succeeded k s) {t : ℕ}
    (ht : t < k.processes) : (s.thread t).thread.finished.length = k.messages := by
  rw [← h.count t ht]
  apply List.filterMap_length_eq_length.mpr
  intro r hr
  obtain ⟨data, hdata, -⟩ := (h.calls t ht r hr).payload
  rw [hdata]
  rfl

theorem Succeeded.mem_finished {s : ForkSystem} (h : Succeeded k s) {t : ℕ} {data : Payload}
    (hdata : data ∈ (s.thread t).thread.finished) : t < k.processes ∧ IsMessage data := by
  obtain ⟨r, hr, hpayload⟩ := List.mem_filterMap.mp hdata
  rcases Nat.lt_or_ge t k.processes with ht | ht
  · obtain ⟨data', hdata', hmessage⟩ := (h.calls t ht r hr).payload
    cases hdata'.symm.trans hpayload
    exact ⟨ht, hmessage⟩
  · rw [h.idle t ht] at hr
    exact absurd hr List.not_mem_nil

theorem Succeeded.insertedBytes {s : ForkSystem} (h : Succeeded k s) :
    ∑ t ∈ Finset.range k.processes, (s.thread t).thread.insertedBytes ≤
      k.processes * (k.messages * 200) := by
  have hthread : ∀ t ∈ Finset.range k.processes, (s.thread t).thread.insertedBytes ≤
      k.messages * 200 := by
    intro t ht
    have hsizes : ∀ n ∈ (s.thread t).thread.finished.map Payload.size, n ≤ 200 := by
      intro n hn
      obtain ⟨data, hdata, rfl⟩ := List.mem_map.mp hn
      obtain ⟨-, d, -, hsize⟩ := h.mem_finished hdata
      rw [hsize]
      exact length_line_le d
    have hle := List.sum_le_card_nsmul _ 200 hsizes
    rwa [List.length_map, h.length_finished (Finset.mem_range.mp ht), smul_eq_mul] at hle
  have hsum := Finset.sum_le_card_nsmul _ _ _ hthread
  rwa [Finset.card_range, smul_eq_mul] at hsum

theorem fork_records {front : List (ℕ × (Outcome × Moment))}
    (hfront : ∀ e ∈ front, e.1 < k.processes) (h : Succeeded k (forkTest k front)) :
    ∃ (l : Log) (order : List (ℕ × Payload)), (forkTest k front).shared.log? = some l ∧
      (∀ t, (order.filter fun x => x.1 = t).map Prod.snd =
        ((forkTest k front).thread t).thread.finished) ∧
      HoldsRecords l order := by
  have honly : ∀ t, ∀ r ∈ ((forkTest k front).thread t).thread.results,
      r.1.isInsert = true := by
    intro t r hr
    rcases Nat.lt_or_ge t k.processes with ht | ht
    · exact (h.calls t ht r hr).isInsert
    · rw [h.idle t ht] at hr
      exact absurd hr List.not_mem_nil
  have hfed : ∀ (s : Callers) t d, ForkInv k s → ((s.thread t).1).halted = true →
      ∀ call ∈ (forkClient k s.shared.2 (s.thread t).2 (s.thread t).1.results d).2.2,
        call.isAppend = true := by
    intro s t d hQ hhalted call hcall
    exact ((hQ t).decide d hhalted).appends call (List.mem_append_right _ hcall)
  have hsmall : (∑ t ∈ Finset.range k.processes,
      ((forkTest k front).thread t).thread.insertedBytes) + u32 chunkSize < 2 ^ 32 :=
    (Nat.add_le_add_right h.insertedBytes _).trans_lt k.fits
  obtain hbefore | ⟨l, order, hlog, horder, hholds, -⟩ :=
    holdsRecords_of_started (Q := ForkInv k) forkInv_start forkInv_step hfed (fun _ _ => honly)
      hfront h.halted h.good (fun _ => hsmall)
  · exact absurd hbefore h.touched
  · exact ⟨l, order, hlog, horder, hholds⟩

/-! ## What the validator reads -/

section Order

variable {s : ForkSystem} {order : List (ℕ × Payload)}

/-- Every record is the message of a process. -/
theorem Succeeded.mem_order (h : Succeeded k s)
    (horder : ∀ t, (order.filter fun x => x.1 = t).map Prod.snd = (s.thread t).thread.finished)
    {x : ℕ × Payload} (hx : x ∈ order) : x.1 < k.processes ∧ IsMessage x.2 := by
  apply h.mem_finished
  rw [← horder]
  exact List.mem_map_of_mem (List.mem_filter.mpr ⟨hx, by simp⟩)

/-- There are as many records as all processes together have inserted. -/
theorem Succeeded.length_order (h : Succeeded k s)
    (horder : ∀ t, (order.filter fun x => x.1 = t).map Prod.snd = (s.thread t).thread.finished) :
    order.length = k.processes * k.messages := by
  have hgroups : ((List.range k.processes).flatMap fun t =>
      Grouping.withKey Prod.fst t order).Perm order :=
    Grouping.flatMap_withKey_perm List.nodup_range
      fun x hx => List.mem_range.mpr (h.mem_order horder hx).1
  have hgroup : ∀ t ∈ List.range k.processes,
      (Grouping.withKey Prod.fst t order).length = k.messages := by
    intro t ht
    rw [← h.length_finished (List.mem_range.mp ht), ← horder, List.length_map,
      Grouping.withKey]
  rw [← hgroups.length_eq, List.length_flatMap, List.map_congr_left hgroup]
  simp

/-- The lines that are read are the records. -/
theorem Succeeded.fgetsAll_eq (h : Succeeded k s)
    (horder : ∀ t, (order.filter fun x => x.1 = t).map Prod.snd = (s.thread t).thread.finished) :
    Threads.fgetsAll (order.flatMap fun x => x.2.bytes) = order.map fun x => x.2.bytes := by
  have hlines : Threads.fileLines (order.flatMap fun x => x.2.bytes) =
      order.map fun x => x.2.bytes := by
    rw [List.flatMap_def]
    apply Threads.fileLines_flatten
    intro line hline
    obtain ⟨x, hx, rfl⟩ := List.mem_map.mp hline
    obtain ⟨-, d, hbytes, -⟩ := h.mem_order horder hx
    rw [hbytes]
    exact isLine_line d
  rw [Threads.fgetsAll_eq, hlines]
  intro line hline
  rw [hlines] at hline
  obtain ⟨x, hx, rfl⟩ := List.mem_map.mp hline
  obtain ⟨-, d, hbytes, -⟩ := h.mem_order horder hx
  rw [hbytes]
  exact (length_line_le d).trans_lt (by decide)

/-- The records are as many as expected, and no line is reported. -/
theorem Succeeded.validates (h : Succeeded k s) {l : Log}
    (horder : ∀ t, (order.filter fun x => x.1 = t).map Prod.snd = (s.thread t).thread.finished)
    (hholds : HoldsRecords l order) :
    validateLog (some (l.file.content l.metadata.cursor)) (k.processes * k.messages) =
      (true, []) := by
  rw [validateLog, hholds.2, h.fgetsAll_eq horder]
  have hheadings : ((order.map fun x => x.2.bytes).filter fun buffer => !hasHeading buffer) =
      [] := by
    apply List.filter_eq_nil_iff.mpr
    intro line hline
    obtain ⟨x, hx, rfl⟩ := List.mem_map.mp hline
    obtain ⟨-, d, hbytes, -⟩ := h.mem_order horder hx
    simp [hbytes, hasHeading_line]
  rw [hheadings, List.length_map, h.length_order horder, decide_eq_true rfl]

end Order

/-! ## The trim -/

theorem trims_forkClient (k : Sizes) :
    Trims (forkClient k) k.processes (.main false) (.main true) :=
  ⟨fun _ _ => rfl, fun _ _ _ => rfl⟩

/-- Whatever the interleaving of the processes, from their calls of `mmlog_open` on a log that
does not exist to the last insert: if all of them exit with 0, and `main` then opens and trims
the log, the validator counts all messages and reports none. -/
theorem forkTest_passes (k : Sizes) (front back : List (ℕ × (Outcome × Moment)))
    (hfront : ∀ e ∈ front, e.1 < k.processes) (hback : ∀ e ∈ back, e.1 = k.processes)
    (hsuccess : ∀ t < k.processes, ((forkTest k front).thread t).vars.succeeded = true)
    (hcalled : ((forkTest k (front ++ back)).thread k.processes).thread.results.isEmpty = false)
    (htrimmed : ((forkTest k (front ++ back)).thread k.processes).thread.errno = .ok) :
    validationResult k (forkTest k (front ++ back)) = (true, []) := by
  have hdone := succeeded_of_success hfront hsuccess
  obtain ⟨l, order, hlog, horder, hholds⟩ := fork_records hfront hdone
  have hmain : startRole k k.processes = .main false := if_neg (Nat.lt_irrefl _)
  obtain ⟨hdata, -⟩ := trimmed_run (trims_forkClient k) hfront hback hmain hdone.touched
    hlog hcalled htrimmed
  rw [validationResult, forkTest, hdata, Option.map_some, ftruncate_content hholds.1]
  exact hdone.validates horder hholds

/-- Two processes with one message each. -/
def twoMessages : Sizes := ⟨2, 1, Nat.two_pos, Nat.one_pos, by decide⟩

def oneMoment : Moment :=
  ⟨7, 1, fun _ => 0, List.replicate maxMessageSize 0, by decide, by decide,
    List.length_replicate ..⟩

def processesInTurn : List (ℕ × (Outcome × Moment)) :=
  (List.replicate 60 [(0, (.succeed, oneMoment)), (1, (.succeed, oneMoment))]).flatten

def mainAlone : List (ℕ × (Outcome × Moment)) := List.replicate 30 (2, (.succeed, oneMoment))

theorem forkTest_passes_twoMessages :
    validationResult twoMessages (forkTest twoMessages (processesInTurn ++ mainAlone)) =
      (true, []) :=
  forkTest_passes twoMessages processesInTurn mainAlone (by simp [processesInTurn, twoMessages])
    (by simp [mainAlone, twoMessages]) (by decide +kernel) (by decide +kernel)
    (by decide +kernel)

end SystemsExperiments.Forks
