import SystemsExperiments.Shared.Grouping
import SystemsExperiments.Model.Threads.StressTest
import SystemsExperiments.Verification.Mmlog.Trimmer
import SystemsExperiments.Verification.Mmlog.Writer
import SystemsExperiments.Verification.Threads.Lines

/-! # The stress test passes

In every interleaving in which all threads are successful the validator finds each message
once. -/

namespace SystemsExperiments.Threads

open Interleaving Mmlog Printing

variable {k : Sizes}

theorem Sizes.total_lt (k : Sizes) : k.threads * k.messages < 10 ^ 8 := by
  have hfits := k.fits
  rw [← Nat.mul_assoc] at hfits
  omega

theorem Sizes.threads_lt (k : Sizes) : k.threads < 10 ^ 8 :=
  (Nat.le_mul_of_pos_right _ k.messages_pos).trans_lt k.total_lt

theorem Sizes.total_lt_int (k : Sizes) : ((k.threads * k.messages : ℕ) : ℤ) < 2 ^ 31 := by
  have hlt : k.threads * k.messages < 2 ^ 31 := k.total_lt.trans (by decide)
  exact_mod_cast hlt

/-! ## Messages -/

theorem messageText_eq (t n : ℕ) : messageText t n =
    decimal t ++ comma :: (decimal n ++ comma :: (List.replicate 129 97 ++ [newline])) := by
  simp [messageText]

theorem isLine_messageText (t n : ℕ) : IsLine (messageText t n) := by
  refine ⟨decimal t ++ [comma] ++ decimal n ++ [comma] ++ List.replicate 129 97, rfl, ?_⟩
  have hdigit : ∀ k, newline ∉ decimal k := fun k hmem =>
    forall_mem_decimal (p := fun c => c ≠ newline) (by decide) k newline hmem rfl
  simpa [newline, comma] using ⟨hdigit t, hdigit n⟩

theorem length_messageText_lt {t n : ℕ} (ht : t < 10 ^ 10) (hn : n < 10 ^ 10) :
    (messageText t n).length < 160 := by
  have hthread := length_decimal_le ht (by decide)
  have hseq := length_decimal_le hn (by decide)
  simp only [messageText, List.length_append, List.length_replicate, List.length_singleton]
  omega

/-- The numbers of a message are read back from its line. -/
theorem scanPair_messageText (t n : ℕ) : scanPair (messageText t n) = some ((t : ℤ), (n : ℤ)) := by
  have hnul : (messageText t n).takeWhile (fun c => c ≠ 0) = messageText t n := by
    have hdigit : ∀ k, ∀ c ∈ decimal k, c ≠ 0 := forall_mem_decimal (by decide)
    rw [List.takeWhile_eq_self_iff]
    intro c hc
    simp only [messageText, List.mem_append, List.mem_singleton, List.mem_replicate] at hc
    rcases hc with ((((hc | rfl) | hc) | rfl) | ⟨-, rfl⟩) | rfl
    · simpa using hdigit t c hc
    · decide
    · simpa using hdigit n c hc
    · decide
    · decide
    · decide
  have hcomma : isDigit comma = false := by decide
  rw [scanPair, hnul, messageText_eq, scanNumber_decimal t hcomma]
  simp [scanNumber_decimal n hcomma]

theorem bytes_message {t n : ℕ} (ht : t < 10 ^ 10) (hn : n < 10 ^ 10) :
    (message t n).bytes = messageText t n ∧ (message t n).size < 160 := by
  have hlen := length_messageText_lt ht hn
  have htake : (messageText t n).take (maxMessageSize - 1) = messageText t n :=
    List.take_of_length_le (by rw [maxMessageSize]; omega)
  refine ⟨?_, hlen⟩
  simp only [message, snprintf, if_neg (show ¬ maxMessageSize = 0 by decide), htake]
  exact bytes_getD (messageText t n) [0]

/-! ## One thread -/

def insertion (t n : ℕ) : Call := .insert (some t) (some (message t n))

/-- What holds of a worker and of its calls. -/
abbrev WorkerAt (k : Sizes) (th : Thread) (args : ThreadArgs) (returned : Bool) : Prop :=
  WriterAt k.messages th args.messagesWritten returned args.success

/-- What a worker between two calls decides: it returns, or it takes the next number and has
its message inserted. -/
inductive WorkerMove (k : Sizes) (counter : ℕ) (th : Thread) (threadNum : ℕ) :
    ℕ × Role × List Call → Prop
  | ret (args : ThreadArgs) (hnum : args.threadNum = threadNum) (h : WorkerAt k th args true) :
      WorkerMove k counter th threadNum (counter, .worker args true, [])
  | next (args : ThreadArgs) (hnum : args.threadNum = threadNum)
      (h : WorkerAt k (th.feed [insertion threadNum counter]) args false) :
      WorkerMove k counter th threadNum
        (counter + 1, .worker args false, [insertion threadNum counter])

theorem nextMessage_move (counter : ℕ) {th : Thread} (args : ThreadArgs)
    (h : AtHead k.messages th args.messagesWritten) (hsuccess : args.success = false) :
    WorkerMove k counter th args.threadNum (nextMessage k counter args) := by
  unfold nextMessage
  split
  · refine .next args rfl ?_
    rw [WorkerAt, hsuccess]
    exact h.next ‹_› _
  · exact .ret { args with success := true } rfl (h.finish ‹_›)

theorem threadWorker_move (counter : ℕ) {th : Thread} {args : ThreadArgs}
    (h : WorkerAt k th args false) (hhalted : th.halted = true) :
    WorkerMove k counter th args.threadNum (threadWorker k counter args th.results) := by
  have hsuccess := (h.working rfl).1
  unfold threadWorker
  cases hlast : th.results.getLast? with
  | none => exact nextMessage_move counter args (h.atHead_none hhalted hlast) hsuccess
  | some r =>
      dsimp only
      split
      · exact nextMessage_move counter { args with messagesWritten := args.messagesWritten + 1 }
          (h.atHead_some hhalted hlast ‹_›) hsuccess
      · exact .ret { args with success := false } rfl (h.giveUp hhalted)

/-! ## All threads -/

abbrev Callers := Sys (Log × ℕ) (Thread × Role)

abbrev stressStep (k : Sizes) :=
  Feeding.drive calling (stressClient k).beside

/-- The numbers that were taken are the first so many, and each is in the message of one call
of the thread that took it. -/
structure StressInv (k : Sizes) (s : Callers) : Prop where
  appends : ∀ t, (s.thread t).1.Appends
  worker : ∀ t < k.threads, ∃ args returned, (s.thread t).2 = .worker args returned ∧
    args.threadNum = t ∧ WorkerAt k (s.thread t).1 args returned
  main : ∀ t, k.threads ≤ t → ∃ trimmed, (s.thread t).2 = .main trimmed
  numbered : ∃ seqs : ℕ → List ℕ,
    (∀ t < k.threads, (s.thread t).1.calls = (seqs t).map (insertion t)) ∧
    ((List.range k.threads).flatMap seqs).Perm (List.range s.shared.2)

theorem stressInv_start (cfg : Config) :
    StressInv k (createdCallers (fun _ => ⟨chunkSize, numChunks⟩) none 0 (startRole k) cfg) where
  appends := fun t call hcall => absurd hcall List.not_mem_nil
  worker := by
    intro t ht
    exact ⟨⟨t, 0, false⟩, false, if_pos ht, rfl, writerAt_start k.messages .ok⟩
  main := fun t ht => ⟨false, if_neg (Nat.not_lt.mpr ht)⟩
  numbered := ⟨fun _ => [], fun t _ => rfl, by simp [createdCallers, callers, unstarted]⟩

theorem isInsert_insertion {t n : ℕ} : (insertion t n).isInsert = true := by
  rw [Call.isInsert, insertion, payload?_insert]
  · rfl
  · simp [message, snprintf, messageText]

/-- A step that leaves the calls and the counter as they are. -/
theorem StressInv.keep {s s' : Callers} {t : ℕ} (h : StressInv k s)
    (hcounter : s'.shared.2 = s.shared.2) (happends : (s'.thread t).1.Appends)
    (hcalls : t < k.threads → (s'.thread t).1.calls = (s.thread t).1.calls)
    (hworker : t < k.threads → ∃ args returned, (s'.thread t).2 = .worker args returned ∧
      args.threadNum = t ∧ WorkerAt k (s'.thread t).1 args returned)
    (hmain : k.threads ≤ t → ∃ trimmed, (s'.thread t).2 = .main trimmed)
    (hother : ∀ u, u ≠ t → s'.thread u = s.thread u) : StressInv k s' := by
  obtain ⟨seqs, hseqs, hperm⟩ := h.numbered
  refine ⟨fun u => ?_, fun u hu => ?_, fun u hu => ?_, seqs, fun u hu => ?_, ?_⟩
  · by_cases hut : u = t
    · exact hut ▸ happends
    · exact hother u hut ▸ h.appends u
  · by_cases hut : u = t
    · subst hut
      exact hworker hu
    · rw [hother u hut]
      exact h.worker u hu
  · by_cases hut : u = t
    · subst hut
      exact hmain hu
    · rw [hother u hut]
      exact h.main u hu
  · by_cases hut : u = t
    · subst hut
      rw [hcalls hu]
      exact hseqs u hu
    · rw [hother u hut]
      exact hseqs u hu
  · rw [hcounter]
    exact hperm

/-- A worker takes the next number for a message. -/
theorem StressInv.number {s s' : Callers} {t : ℕ} (h : StressInv k s) (ht : t < k.threads)
    (hcounter : s'.shared.2 = s.shared.2 + 1)
    (happends : (s'.thread t).1.Appends)
    (hcalls : (s'.thread t).1.calls = (s.thread t).1.calls ++ [insertion t s.shared.2])
    (hworker : ∃ args returned, (s'.thread t).2 = .worker args returned ∧
      args.threadNum = t ∧ WorkerAt k (s'.thread t).1 args returned)
    (hother : ∀ u, u ≠ t → s'.thread u = s.thread u) : StressInv k s' := by
  obtain ⟨seqs, hseqs, hperm⟩ := h.numbered
  refine ⟨fun u => ?_, fun u hu => ?_, fun u hu => ?_,
    Function.update seqs t (seqs t ++ [s.shared.2]), fun u hu => ?_, ?_⟩
  · by_cases hut : u = t
    · exact hut ▸ happends
    · exact hother u hut ▸ h.appends u
  · by_cases hut : u = t
    · subst hut
      exact hworker
    · rw [hother u hut]
      exact h.worker u hu
  · have hut : u ≠ t := by
      rintro rfl
      exact absurd ht (Nat.not_lt.mpr hu)
    rw [hother u hut]
    exact h.main u hu
  · by_cases hut : u = t
    · subst hut
      rw [hcalls, Function.update_self, hseqs u hu, List.map_append]
      rfl
    · rw [hother u hut, Function.update_of_ne hut]
      exact hseqs u hu
  · rw [hcounter, List.range_succ]
    exact (Grouping.flatMap_update_perm List.nodup_range (List.mem_range.mpr ht) seqs _).trans
      (hperm.append_right _)

theorem feed_nil (th : Thread) : th.feed [] = th := calling.feed_nil th

/-- A step of a thread that has a call to go on with. -/
theorem StressInv.step_work {s : Callers} {t : ℕ} {c : Outcome × Unit} (h : StressInv k s)
    (hbusy : (s.thread t).1.halted = false) : StressInv k (step (stressStep k) s t c) := by
  have hdrive : stressStep k s.shared (s.thread t) c = _ := Feeding.drive_of_work hbusy
  obtain ⟨happends, hcalls⟩ := threadStep_calls s.shared.1 c.1 (h.appends t)
  apply h.keep (t := t)
  · rw [step_shared, hdrive]
  · rw [step_thread_self, hdrive]
    exact happends
  · intro _
    rw [step_thread_self, hdrive]
    exact hcalls
  · intro ht
    obtain ⟨args, returned, hrole, hnum, hat⟩ := h.worker t ht
    rw [step_thread_self, hdrive]
    exact ⟨args, returned, hrole, hnum, hat.threadStep (h.appends t) hbusy⟩
  · intro ht
    rw [step_thread_self, hdrive]
    exact h.main t ht
  · intro u hu
    exact step_thread_of_ne (stressStep k) s c hu

/-- A step of a worker between two calls. -/
theorem StressInv.step_worker {s : Callers} {t : ℕ} {c : Outcome × Unit} (h : StressInv k s)
    (hhalted : (s.thread t).1.halted = true) (ht : t < k.threads) :
    StressInv k (step (stressStep k) s t c) := by
  have hdrive : stressStep k s.shared (s.thread t) c = _ := Feeding.drive_of_starved hhalted
  have hother : ∀ u, u ≠ t → (step (stressStep k) s t c).thread u = s.thread u :=
    fun u hu => step_thread_of_ne (stressStep k) s c hu
  have hmain : k.threads ≤ t →
      ∃ trimmed, ((step (stressStep k) s t c).thread t).2 = .main trimmed :=
    fun hge => absurd ht (Nat.not_lt.mpr hge)
  obtain ⟨args, returned, hrole, hnum, hat⟩ := h.worker t ht
  have hmove : ∃ r, (stressClient k).beside s.shared.2 (s.thread t).2 (s.thread t).1 c.2 = r ∧
      WorkerMove k s.shared.2 (s.thread t).1 t r := by
    refine ⟨_, rfl, ?_⟩
    rw [hrole, Client.beside]
    cases returned with
    | false =>
        have hworker := threadWorker_move s.shared.2 hat hhalted
        rw [hnum] at hworker
        exact hworker
    | true => exact .ret args hnum hat
  obtain ⟨r, hr, hmove⟩ := hmove
  rw [hr] at hdrive
  have hshared : (step (stressStep k) s t c).shared.2 = r.1 := by rw [step_shared, hdrive]
  have hthread : (step (stressStep k) s t c).thread t = ((s.thread t).1.feed r.2.2, r.2.1) := by
    rw [step_thread_self, hdrive]
    rfl
  cases hmove with
  | ret args' hnum' hat' =>
      rw [feed_nil] at hthread
      apply h.keep hshared ?_ ?_ ?_ hmain hother
      · rw [hthread]
        exact h.appends t
      · intro _
        rw [hthread]
      · intro _
        rw [hthread]
        exact ⟨args', true, rfl, hnum', hat'⟩
  | next args' hnum' hat' =>
      apply h.number ht hshared ?_ ?_ ?_ hother
      · rw [hthread]
        apply appends_feed (h.appends t)
        intro call hcall
        rw [List.mem_singleton.mp hcall]
        exact isAppend_of_isInsert isInsert_insertion
      · rw [hthread]
        exact calls_feed _ _
      · rw [hthread]
        exact ⟨args', false, rfl, hnum', hat'⟩

/-- A step of `main` outside its call. -/
theorem StressInv.step_main {s : Callers} {t : ℕ} {c : Outcome × Unit} (h : StressInv k s)
    (hhalted : (s.thread t).1.halted = true) (ht : k.threads ≤ t) :
    StressInv k (step (stressStep k) s t c) := by
  have hdrive : stressStep k s.shared (s.thread t) c = _ := Feeding.drive_of_starved hhalted
  obtain ⟨trimmed, hrole⟩ := h.main t ht
  have hnot : ¬ t < k.threads := Nat.not_lt.mpr ht
  rw [Client.beside, hrole] at hdrive
  apply h.keep (t := t) ?_ ?_ (fun hlt => absurd hlt hnot) (fun hlt => absurd hlt hnot)
  · intro _
    rw [step_thread_self, hdrive]
    cases trimmed with
    | false => exact ⟨true, rfl⟩
    | true => exact ⟨true, rfl⟩
  · intro u hu
    exact step_thread_of_ne (stressStep k) s c hu
  · rw [step_shared, hdrive]
    cases trimmed with
    | false => rfl
    | true => rfl
  · rw [step_thread_self, hdrive]
    apply appends_feed (h.appends t)
    cases trimmed with
    | false =>
        intro call hcall
        rw [List.mem_singleton.mp hcall]
        rfl
    | true => exact fun call hcall => absurd hcall List.not_mem_nil

theorem stressInv_step (s : Callers) (t : ℕ) (c : Outcome × Unit) (h : StressInv k s) :
    StressInv k (step (stressStep k) s t c) := by
  cases hhalted : (s.thread t).1.halted with
  | false => exact h.step_work hhalted
  | true =>
      rcases Nat.lt_or_ge t k.threads with ht | ht
      · exact h.step_worker hhalted ht
      · exact h.step_main hhalted ht

theorem client_appends {s : Callers} {t : ℕ} (d : Unit) (h : StressInv k s)
    (hhalted : ((s.thread t).1).halted = true) :
    ∀ call ∈ (stressClient k s.shared.2 (s.thread t).2 (s.thread t).1.results d).2.2,
      call.isAppend = true := by
  have hdrive : stressStep k s.shared (s.thread t) (.succeed, d) = _ :=
    Feeding.drive_of_starved hhalted
  have hafter := (stressInv_step s t (.succeed, d) h).appends t
  rw [step_thread_self, hdrive] at hafter
  intro call hcall
  exact hafter call (List.mem_append_right _ hcall)

theorem stressInv_stressTest (sched : List (ℕ × (Outcome × Unit))) :
    Untouched (fun _ => ⟨chunkSize, numChunks⟩) none 0 (startRole k) (stressTest k sched) ∨
      ∃ l, StressInv k (callers l (stressTest k sched)) := by
  obtain hbefore | ⟨c, h, programs, sched', -, -, -, hQ⟩ :=
    started_follows (some "thread_test.log") (stressClient k) none (P := fun _ _ => True)
      (Q := StressInv k) stressInv_start stressInv_step (fun _ _ _ _ _ _ _ => trivial) sched
  · exact .inl hbefore
  · exact .inr ⟨_, hQ⟩

/-! ## When all threads have been successful -/

theorem map_fst_finished {th : Thread} {t : ℕ} {ns : List ℕ}
    (h : th.results.map Prod.fst = ns.map (insertion t)) : th.finished = ns.map (message t) := by
  have hcalls : th.finished = (th.results.map Prod.fst).filterMap Call.payload? := by
    rw [List.filterMap_map]
    rfl
  rw [hcalls, h, List.filterMap_map]
  have hsome : ∀ n ∈ ns, (Call.payload? ∘ insertion t) n = some (message t n) := by
    intro n _
    apply payload?_insert
    simp [message, snprintf, messageText]
  rw [List.filterMap_congr hsome]
  simp

/-- What the threads have done when all of them have been successful. -/
structure Succeeded (k : Sizes) (s : StressSystem) (seqs : ℕ → List ℕ) : Prop where
  halted : ∀ t, (s.thread t).thread.halted = true
  good : ∀ t, ∀ r ∈ (s.thread t).thread.results, r.2 = .bool true
  calls : ∀ t < k.threads,
    (s.thread t).thread.results.map Prod.fst = (seqs t).map (insertion t)
  idle : ∀ t, k.threads ≤ t → (s.thread t).thread.results = []
  count : ∀ t < k.threads, (seqs t).length = k.messages
  written : ∀ t < k.threads, (s.thread t).vars.messagesWritten = k.messages
  perm : ((List.range k.threads).flatMap seqs).Perm
    (List.range (k.threads * k.messages))

theorem succeeded_of_success {front : List (ℕ × (Outcome × Unit))}
    (hfront : ∀ m ∈ front, m.1 < k.threads)
    (hsuccess : ∀ t < k.threads, ((stressTest k front).thread t).vars.success = true) :
    ∃ seqs, Succeeded k (stressTest k front) seqs := by
  have hothers : ∀ t, k.threads ≤ t → ((stressTest k front).thread t).thread =
      ⟨.idle, .ok, [], []⟩ :=
    fun t ht => congrArg Process.thread (started_thread_of_le hfront ht)
  cases stressInv_stressTest front with
  | inl hbefore =>
      have hzero := hsuccess 0 k.threads_pos
      have hvars := congrArg (fun s => (s.thread 0).2)
        (hbefore.callers ⟨LogMetadata.zero, ⟨0, fun _ => 0⟩, (stressTest k front).shared.ring⟩)
      change ((stressTest k front).thread 0).vars = startRole k 0 at hvars
      rw [hvars, startRole, if_pos k.threads_pos] at hzero
      cases hzero
  | inr h =>
      obtain ⟨l, h⟩ := h
      obtain ⟨seqs, hseqs, hperm⟩ := h.numbered
      have hdone : ∀ t < k.threads,
          ((stressTest k front).thread t).thread.halted = true ∧
          ((stressTest k front).thread t).vars.messagesWritten = k.messages ∧
          (seqs t).length = k.messages ∧
          ∀ r ∈ ((stressTest k front).thread t).thread.results, r.2 = .bool true := by
        intro t ht
        obtain ⟨args, returned, hrole, -, hat⟩ := h.worker t ht
        change ((stressTest k front).thread t).vars = .worker args returned at hrole
        have hargs := hsuccess t ht
        rw [hrole] at hargs ⊢
        have hsuccessful : WriterAt k.messages ((stressTest k front).thread t).thread
            args.messagesWritten returned true := by
          rw [← show args.success = true from hargs]
          exact hat
        obtain ⟨hhalted, hwritten, hlength, hgood⟩ := hsuccessful.successful
        have hcalls : ((stressTest k front).thread t).thread.calls = (seqs t).map (insertion t) :=
          hseqs t ht
        refine ⟨hhalted, hwritten, ?_, hgood⟩
        rw [← hlength, ← List.length_map (insertion t), ← hcalls, calls_of_halted hhalted,
          List.length_map]
      have hlength : ((List.range k.threads).flatMap seqs).length =
          k.threads * k.messages := by
        have hall : (List.range k.threads).map (fun t => (seqs t).length) =
            (List.range k.threads).map fun _ => k.messages :=
          List.map_congr_left fun t ht => (hdone t (List.mem_range.mp ht)).2.2.1
        rw [List.length_flatMap, hall]
        simp
      have hcounter : (callers l (stressTest k front)).shared.2 =
          k.threads * k.messages := by
        rw [← hlength, hperm.length_eq, List.length_range]
      refine ⟨seqs, fun t => ?_, fun t r hr => ?_, fun t ht => ?_, fun t ht => ?_,
        fun t ht => (hdone t ht).2.2.1, fun t ht => (hdone t ht).2.1, ?_⟩
      · rcases Nat.lt_or_ge t k.threads with ht | ht
        · exact (hdone t ht).1
        · rw [hothers t ht]
          rfl
      · rcases Nat.lt_or_ge t k.threads with ht | ht
        · exact (hdone t ht).2.2.2 r hr
        · rw [hothers t ht] at hr
          exact absurd hr List.not_mem_nil
      · rw [← calls_of_halted (hdone t ht).1]
        exact hseqs t ht
      · rw [hothers t ht]
      · rw [← hcounter]
        exact hperm

theorem Succeeded.mem_lt {s : StressSystem} {seqs : ℕ → List ℕ} (h : Succeeded k s seqs) {t n : ℕ}
    (ht : t < k.threads) (hn : n ∈ seqs t) : n < k.threads * k.messages := by
  rw [← List.mem_range, ← h.perm.mem_iff]
  exact List.mem_flatMap.mpr ⟨t, List.mem_range.mpr ht, hn⟩

/-- The text of a message that was inserted. -/
theorem Succeeded.bytes_message {s : StressSystem} {seqs : ℕ → List ℕ} (h : Succeeded k s seqs)
    {t n : ℕ} (ht : t < k.threads) (hn : n ∈ seqs t) :
    (message t n).bytes = messageText t n ∧ (message t n).size < 160 :=
  Threads.bytes_message ((ht.trans k.threads_lt).trans (by decide))
    (((h.mem_lt ht hn).trans k.total_lt).trans (by decide))

theorem Succeeded.totalMessages {s : StressSystem} {seqs : ℕ → List ℕ} (h : Succeeded k s seqs)
    (hsuccess : ∀ t < k.threads, (s.thread t).vars.success = true) :
    totalMessages k s = k.threads * k.messages := by
  have hall : (List.range k.threads).map (fun t =>
      if (s.thread t).vars.success then (s.thread t).vars.messagesWritten else 0) =
      (List.range k.threads).map fun _ => k.messages := by
    apply List.map_congr_left
    intro t ht
    rw [if_pos (hsuccess t (List.mem_range.mp ht)), h.written t (List.mem_range.mp ht)]
  rw [Threads.totalMessages, hall]
  simp

theorem Succeeded.finished {s : StressSystem} {seqs : ℕ → List ℕ} (h : Succeeded k s seqs) {t : ℕ}
    (ht : t < k.threads) : (s.thread t).thread.finished = (seqs t).map (message t) :=
  map_fst_finished (h.calls t ht)

theorem Succeeded.touched {s : StressSystem} {seqs : ℕ → List ℕ} (h : Succeeded k s seqs) :
    ¬ Untouched (fun _ => ⟨chunkSize, numChunks⟩) none 0 (startRole k) s := by
  intro hbefore
  have hcalls := congrArg List.length (h.calls 0 k.threads_pos)
  rw [hbefore.thread 0, List.length_map, List.length_map, h.count 0 k.threads_pos] at hcalls
  exact k.messages_pos.ne hcalls

theorem Succeeded.insertedBytes {s : StressSystem} {seqs : ℕ → List ℕ} (h : Succeeded k s seqs) :
    ∑ t ∈ Finset.range k.threads, (s.thread t).thread.insertedBytes ≤
      k.threads * (k.messages * 160) := by
  have hthread : ∀ t ∈ Finset.range k.threads, (s.thread t).thread.insertedBytes ≤
      k.messages * 160 := by
    intro t ht
    rw [Finset.mem_range] at ht
    have hsizes : ∀ n ∈ ((seqs t).map (message t)).map Payload.size, n ≤ 160 := by
      intro n hn
      rw [List.map_map] at hn
      obtain ⟨k, hk, rfl⟩ := List.mem_map.mp hn
      exact (h.bytes_message ht hk).2.le
    have hle := List.sum_le_card_nsmul _ 160 hsizes
    rw [List.length_map, List.length_map, h.count t ht, smul_eq_mul] at hle
    rw [Thread.insertedBytes, h.finished ht]
    exact hle
  have hsum := Finset.sum_le_card_nsmul _ _ _ hthread
  rwa [Finset.card_range, smul_eq_mul] at hsum

theorem stress_records {front : List (ℕ × (Outcome × Unit))}
    (hfront : ∀ m ∈ front, m.1 < k.threads)
    {seqs : ℕ → List ℕ} (h : Succeeded k (stressTest k front) seqs) :
    ∃ (l : Log) (order : List (ℕ × Payload)), (stressTest k front).shared.log? = some l ∧
      (∀ t, (order.filter fun x => x.1 = t).map Prod.snd =
        ((stressTest k front).thread t).thread.finished) ∧
      HoldsRecords l order := by
  have honly : ∀ t, ∀ r ∈ ((stressTest k front).thread t).thread.results,
      r.1.isInsert = true := by
    intro t r hr
    rcases Nat.lt_or_ge t k.threads with ht | ht
    · have hmem : r.1 ∈ ((stressTest k front).thread t).thread.results.map Prod.fst :=
        List.mem_map_of_mem hr
      rw [h.calls t ht] at hmem
      obtain ⟨n, -, hn⟩ := List.mem_map.mp hmem
      rw [← hn]
      exact isInsert_insertion
    · rw [h.idle t ht] at hr
      exact absurd hr List.not_mem_nil
  have hsmall : (∑ t ∈ Finset.range k.threads,
      ((stressTest k front).thread t).thread.insertedBytes) + u32 chunkSize < 2 ^ 32 :=
    (Nat.add_le_add_right h.insertedBytes _).trans_lt k.fits
  obtain hbefore | ⟨l, order, hlog, horder, hholds, -⟩ :=
    holdsRecords_of_started (Q := StressInv k) stressInv_start stressInv_step
      (fun s t d hQ hhalted => client_appends d hQ hhalted) (fun _ _ => honly) hfront h.halted
      h.good (fun _ => hsmall)
  · exact absurd hbefore h.touched
  · exact ⟨l, order, hlog, horder, hholds⟩

/-! ## What the validator reads -/

/-- The number that the validator reads in a record. -/
def numberOf (k : Sizes) (store : ℤ → ℤ) (data : Payload) : Option ℕ :=
  storedSequence store (k.threads * k.messages : ℕ) data.bytes

section Order

variable {s : StressSystem} {seqs : ℕ → List ℕ} {order : List (ℕ × Payload)}

/-- Every record is the message of a worker. -/
theorem Succeeded.mem_order (h : Succeeded k s seqs)
    (horder : ∀ t, (order.filter fun x => x.1 = t).map Prod.snd = (s.thread t).thread.finished)
    {x : ℕ × Payload} (hx : x ∈ order) :
    x.1 < k.threads ∧ ∃ n ∈ seqs x.1, x.2 = message x.1 n := by
  have hmem : x.2 ∈ (order.filter fun y => y.1 = x.1).map Prod.snd :=
    List.mem_map_of_mem (List.mem_filter.mpr ⟨hx, by simp⟩)
  rw [horder] at hmem
  rcases Nat.lt_or_ge x.1 k.threads with ht | ht
  · rw [h.finished ht] at hmem
    obtain ⟨n, hn, heq⟩ := List.mem_map.mp hmem
    exact ⟨ht, n, hn, heq.symm⟩
  · rw [Thread.finished, h.idle x.1 ht] at hmem
    exact absurd hmem List.not_mem_nil

theorem Succeeded.bytes_eq (h : Succeeded k s seqs)
    (horder : ∀ t, (order.filter fun x => x.1 = t).map Prod.snd = (s.thread t).thread.finished)
    {x : ℕ × Payload} (hx : x ∈ order) : ∃ n, x.2.bytes = messageText x.1 n ∧
      x.2.bytes.length < maxMessageSize := by
  obtain ⟨ht, n, hn, heq⟩ := h.mem_order horder hx
  obtain ⟨hbytes, hsize⟩ := h.bytes_message ht hn
  refine ⟨n, heq ▸ hbytes, ?_⟩
  rw [heq, Payload.bytes, List.length_map, List.length_range]
  exact hsize.trans (by decide)

/-- The lines of the log are its records. -/
theorem Succeeded.fileLines_eq (h : Succeeded k s seqs)
    (horder : ∀ t, (order.filter fun x => x.1 = t).map Prod.snd = (s.thread t).thread.finished) :
    fileLines (order.flatMap fun x => x.2.bytes) = order.map fun x => x.2.bytes := by
  rw [List.flatMap_def]
  apply fileLines_flatten
  intro line hline
  obtain ⟨x, hx, rfl⟩ := List.mem_map.mp hline
  obtain ⟨n, hbytes, -⟩ := h.bytes_eq horder hx
  rw [hbytes]
  exact isLine_messageText x.1 n

theorem Succeeded.numberOf_eq (h : Succeeded k s seqs) {store : ℤ → ℤ}
    (hstore : ∀ n, -2 ^ 31 ≤ n → n < 2 ^ 31 → store n = n) {t n : ℕ} (ht : t < k.threads)
    (hn : n ∈ seqs t) : numberOf k store (message t n) = some n := by
  have hlt := h.mem_lt ht hn
  have hwritten : writtenSequence (messageText t n) = some (n : ℤ) := by
    rw [writtenSequence, scanPair_messageText]
    rfl
  rw [numberOf, (h.bytes_message ht hn).1]
  exact storedSequence_eq hstore k.total_lt_int hwritten
    ⟨Int.natCast_nonneg n, Int.ofNat_lt.mpr hlt⟩

/-- The numbers in the lines are the numbers that were taken. -/
theorem Succeeded.numbers_perm (h : Succeeded k s seqs) {store : ℤ → ℤ}
    (hstore : ∀ n, -2 ^ 31 ≤ n → n < 2 ^ 31 → store n = n)
    (horder : ∀ t, (order.filter fun x => x.1 = t).map Prod.snd = (s.thread t).thread.finished) :
    ((order.map Prod.snd).filterMap (numberOf k store)).Perm
      (List.range (k.threads * k.messages)) := by
  have hgroups : ((List.range k.threads).flatMap fun t =>
      Grouping.withKey Prod.fst t order).Perm order :=
    Grouping.flatMap_withKey_perm List.nodup_range
      fun x hx => List.mem_range.mpr (h.mem_order horder hx).1
  have hthread : ∀ t ∈ List.range k.threads,
      ((Grouping.withKey Prod.fst t order).map Prod.snd).filterMap (numberOf k store) = seqs t := by
    intro t ht
    rw [List.mem_range] at ht
    have hsome : ∀ n ∈ seqs t, (numberOf k store ∘ message t) n = some n := by
      intro n hn
      rw [Function.comp_apply, h.numberOf_eq hstore ht hn]
    rw [Grouping.withKey, horder t, h.finished ht, List.filterMap_map,
      List.filterMap_congr hsome]
    exact List.filterMap_some
  have hflat : (((List.range k.threads).flatMap fun t =>
      Grouping.withKey Prod.fst t order).map Prod.snd).filterMap (numberOf k store) =
        (List.range k.threads).flatMap seqs := by
    rw [List.map_flatMap, List.filterMap_flatMap]
    exact List.flatMap_congr hthread
  have hperm := (hgroups.map Prod.snd).filterMap (numberOf k store)
  rw [hflat] at hperm
  exact hperm.symm.trans h.perm

/-- The records, read from the file line by line, are found complete. -/
theorem Succeeded.validates (h : Succeeded k s seqs) {store : ℤ → ℤ} {l : Log}
    (hstore : ∀ n, -2 ^ 31 ≤ n → n < 2 ^ 31 → store n = n)
    (horder : ∀ t, (order.filter fun x => x.1 = t).map Prod.snd = (s.thread t).thread.finished)
    (hholds : HoldsRecords l order) :
    validateLog ⟨some (l.file.content l.metadata.cursor), true, store⟩
      (k.threads * k.messages : ℕ) = some true := by
  have hlines : fileLines (l.file.content l.metadata.cursor) =
      order.map fun x => x.2.bytes := by
    rw [hholds.2]
    exact h.fileLines_eq horder
  have hperm := h.numbers_perm hstore horder
  have hnumbers : recorded store (k.threads * k.messages : ℕ)
      (fileLines (l.file.content l.metadata.cursor)) =
        (order.map Prod.snd).filterMap (numberOf k store) := by
    rw [hlines, recorded, List.filterMap_map, List.filterMap_map]
    rfl
  have hlength : ((order.map Prod.snd).filterMap (numberOf k store)).length =
      k.threads * k.messages := by
    rw [hperm.length_eq, List.length_range]
  refine (validateLog_iff rfl k.total_lt_int ?_).mpr ⟨rfl, ?_, ?_⟩
  · intro line hline
    rw [hlines] at hline
    obtain ⟨x, hx, rfl⟩ := List.mem_map.mp hline
    obtain ⟨-, -, hlt⟩ := h.bytes_eq horder hx
    exact hlt
  · have hall : (order.map Prod.snd).length = order.length := List.length_map _
    rw [hlines, List.length_map, ← hlength, Nat.cast_inj, eq_comm, ← hall]
    apply List.filterMap_length_eq_length.mpr
    intro data hdata
    obtain ⟨x, hx, rfl⟩ := List.mem_map.mp hdata
    obtain ⟨ht, n, hn, heq⟩ := h.mem_order horder hx
    rw [heq, h.numberOf_eq hstore ht hn]
    rfl
  · dsimp only
    rw [hnumbers, hlength]
    exact hperm

end Order

/-! ## The trim -/

theorem trims_stressClient (k : Sizes) :
    Trims (stressClient k) k.threads (.main false) (.main true) :=
  ⟨fun _ _ => rfl, fun _ _ _ => rfl⟩

/-- Whatever the interleaving of the threads of the stress test, from their calls of
`mmlog_open` on a log that does not exist to the last insert: if all of them are successful,
and `main` then opens and trims the log, the validator lets the log pass. -/
theorem stressTest_passes (k : Sizes) (front back : List (ℕ × (Outcome × Unit)))
    (store : ℤ → ℤ) (hstore : ∀ n, -2 ^ 31 ≤ n → n < 2 ^ 31 → store n = n)
    (hfront : ∀ m ∈ front, m.1 < k.threads) (hback : ∀ m ∈ back, m.1 = k.threads)
    (hsuccess : ∀ t < k.threads, ((stressTest k front).thread t).vars.success = true)
    (hcalled : ((stressTest k (front ++ back)).thread k.threads).thread.results.isEmpty = false)
    (htrimmed : ((stressTest k (front ++ back)).thread k.threads).thread.errno = .ok) :
    validationResult k true store (stressTest k (front ++ back)) = some true := by
  obtain ⟨seqs, hdone⟩ := succeeded_of_success hfront hsuccess
  obtain ⟨l, order, hlog, horder, hholds⟩ := stress_records hfront hdone
  have hmain : startRole k k.threads = .main false := if_neg (Nat.lt_irrefl _)
  obtain ⟨hdata, hothers⟩ := trimmed_run (trims_stressClient k) hfront hback hmain hdone.touched
    hlog hcalled htrimmed
  have htotal : totalMessages k (stressTest k (front ++ back)) = k.threads * k.messages := by
    rw [← hdone.totalMessages hsuccess]
    unfold totalMessages
    congr 1
    apply List.map_congr_left
    intro t ht
    rw [stressTest, hothers t (List.mem_range.mp ht).ne, ← stressTest]
  rw [validationResult, htotal, stressTest, hdata, Option.map_some, ftruncate_content hholds.1]
  exact hdone.validates hstore horder hholds

/-- Two threads with one message each. -/
def twoMessages : Sizes := ⟨2, 1, by decide, by decide, by decide⟩

def threadsInTurn : List (ℕ × (Outcome × Unit)) :=
  (List.replicate 60 [(0, (.succeed, ())), (1, (.succeed, ()))]).flatten

def mainAlone : List (ℕ × (Outcome × Unit)) := List.replicate 30 (2, (.succeed, ()))

theorem stressTest_passes_twoMessages :
    validationResult twoMessages true id (stressTest twoMessages (threadsInTurn ++ mainAlone)) =
      some true :=
  stressTest_passes twoMessages threadsInTurn mainAlone id (fun _ _ _ => rfl) (by decide)
    (by decide) (by decide +kernel) (by decide +kernel) (by decide +kernel)

end SystemsExperiments.Threads
