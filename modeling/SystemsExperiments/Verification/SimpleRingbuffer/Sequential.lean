import SystemsExperiments.Model.SimpleRingbuffer.Processes
import SystemsExperiments.Verification.SimpleRingbuffer.Fifo

/-! # Calls made one after another

A process that nobody disturbs does in its steps what `write` and `read` do in one go. -/

namespace SystemsExperiments.SimpleRingbuffer

open Bytes Circular Interleaving

/-! ## A process on its own -/

theorem alone_serialize (rb : RingBuffer) (e : RBIn) (savedWrite written : ℕ) :
    Alone next (rb, .serialize e savedWrite written)
      ({ rb with
          buffer := store rb.size rb.buffer (savedWrite + written) (e.serialize.drop written) },
        .writerIdle (some true)) := by
  generalize hrest : e.serialize.drop written = rest
  induction rest generalizing rb written with
  | nil =>
      have hend : next rb (.serialize e savedWrite written) none =
          (rb, .writerIdle (some true)) := by
        simp only [next, List.getElem?_eq_none (List.drop_eq_nil_iff.mp hrest)]
      exact alone_cons hend (Alone.refl next _)
  | cons b rest ih =>
      have hlt : written < e.serialize.length := by
        by_contra hge
        rw [List.drop_eq_nil_of_le (by omega)] at hrest
        cases hrest
      rw [List.drop_eq_getElem_cons hlt] at hrest
      obtain ⟨rfl, hlater⟩ := List.cons_eq_cons.mp hrest
      have hbyte : next rb (.serialize e savedWrite written) none =
          ({ rb with
              buffer := put rb.size rb.buffer (savedWrite + written) e.serialize[written] },
            .serialize e savedWrite (written + 1)) := by
        simp only [next, List.getElem?_eq_getElem hlt]
      exact alone_cons hbyte (ih _ _ hlater)

theorem alone_deserialize {rb : RingBuffer} {start : ℕ} {p : Reader RBOut} {out : RBOut}
    (h : p.run (rb.view start) = some out) :
    Alone next (rb, .deserialize start p) (rb, .loadSavedRead out) := by
  induction p with
  | done out' =>
      cases h
      exact alone_cons (c := none) rfl (Alone.refl next _)
  | fault => cases h
  | read addr k ih =>
      simp only [Reader.run] at h
      cases hb : rb.view start addr with
      | none => simp [hb] at h
      | some b =>
          rw [hb] at h
          have hstep : next rb (.deserialize start (.read addr k)) none =
              (rb, .deserialize start (k b)) := by
            simp only [next, Reader.step, hb]
          exact alone_cons hstep (ih b h)

/-- The steps of a `write` amount to the call. -/
theorem alone_write (rb : RingBuffer) (e : RBIn) (result : Option Bool) :
    Alone next (rb, .writerIdle result)
      ((rb.write e).1, .writerIdle (some (rb.write e).2)) := by
  apply alone_cons (c := some e) rfl
  apply alone_cons (c := none) rfl
  rw [write_eq]
  by_cases htest : usize (rb.writePos + e.serializedSize) < usize (rb.readPos + rb.size)
  · rw [if_pos htest]
    apply alone_cons (c := none) (if_pos htest)
    have hcas : next rb (.compareExchange e 3 rb.writePos
        (usize (rb.writePos + e.serializedSize))) none =
          ({ rb with writePos := usize (rb.writePos + e.serializedSize) % rb.size },
            .serialize e rb.writePos 0) := by
      simp only [next, RingBuffer.compareExchange, if_true]
    exact alone_cons hcas (alone_serialize _ e rb.writePos 0)
  · rw [if_neg htest]
    exact alone_cons (c := none) (if_neg htest) (Alone.refl next _)

/-- The steps of a `read` that does not fault amount to the call. -/
theorem alone_read {rb rb' : RingBuffer} {out : Option RBOut} (h : rb.read = some (rb', out))
    (result : Option (Option RBOut)) :
    Alone next (rb, .readerIdle result) (rb', .readerIdle (some out)) := by
  apply alone_cons (c := none) rfl
  rw [RingBuffer.read] at h
  split at h
  next heq =>
    cases h
    exact alone_cons (c := none) (if_pos heq) (Alone.refl next _)
  next hne =>
    obtain ⟨out', hrun, hout⟩ := Option.bind_eq_some_iff.mp h
    cases hout
    apply alone_cons (c := none) (if_neg hne)
    apply alone_cons (c := none) rfl
    apply (alone_deserialize hrun).trans
    apply alone_cons (c := none) rfl
    exact alone_cons (c := none) rfl (Alone.refl next _)

/-! ## Calls as runs -/

/-- Nobody is in the middle of a call. -/
def Idle (s : Processes) : Prop :=
  (∃ result, s.thread 0 = .writerIdle result) ∧ ∃ result, s.thread 1 = .readerIdle result

/-- A call that does not fault is a run of the process that makes it. -/
theorem call_is_run {s : Processes} (hidle : Idle s) (c : Call)
    (hfault : (call s.shared c).2 ≠ .fault) :
    ∃ sched, (run next s sched).shared = (call s.shared c).1 ∧ Idle (run next s sched) := by
  obtain ⟨⟨wresult, hw⟩, rresult, hr⟩ := hidle
  cases c with
  | write entry =>
      have halone := alone_write s.shared entry.input wresult
      rw [← hw] at halone
      obtain ⟨sched, -, hrun⟩ := exists_run_of_alone next halone
      refine ⟨sched, ?_, ⟨some (s.shared.write entry.input).2, ?_⟩, rresult, ?_⟩
      · rw [hrun]
        rfl
      · simp [hrun]
      · simp [hrun, hr]
  | read =>
      simp only [call] at hfault ⊢
      cases hread : s.shared.read with
      | none => simp [hread] at hfault
      | some after =>
          obtain ⟨rb', out⟩ := after
          have halone := alone_read hread rresult
          rw [← hr] at halone
          obtain ⟨sched, -, hrun⟩ := exists_run_of_alone next halone
          refine ⟨sched, ?_, ⟨wresult, ?_⟩, some out, ?_⟩
          · rw [hrun]
            cases out with
            | none => rfl
            | some out => rfl
          · simp [hrun, hw]
          · simp [hrun]

theorem not_fault_of_queueCall {rb : RingBuffer} {q : List Entry} {c : Call}
    (h : QueueCall rb q c) : (call rb c).2 ≠ .fault := by
  intro hfault
  cases c with
  | write entry => cases hfault
  | read =>
      obtain ⟨rb', hcall⟩ : ∃ rb', call rb .read = (rb', .fault) := ⟨_, Prod.ext rfl hfault⟩
      simp only [QueueCall, hcall] at h

/-- Calls that keep to the queue, made one after another, are a run of the two processes. -/
theorem calls_are_run {s : Processes} (hidle : Idle s) {q : List Entry} {calls : List Call}
    (h : QueueRun s.shared q calls) :
    ∃ sched, (run next s sched).shared = calls.foldl (fun rb c => (call rb c).1) s.shared ∧
      Idle (run next s sched) := by
  induction calls generalizing s q with
  | nil => exact ⟨[], rfl, hidle⟩
  | cons c calls ih =>
      obtain ⟨hcall, hlater⟩ := h
      obtain ⟨first, hshared, hnext⟩ := call_is_run hidle c (not_fault_of_queueCall hcall)
      rw [← hshared] at hlater
      obtain ⟨rest, hrest, hend⟩ := ih hnext hlater
      refine ⟨first ++ rest, ?_, ?_⟩
      · rw [run_append, hrest, hshared]
        rfl
      · rw [run_append]
        exact hend

/-- An entry is written and read on a new ring buffer. -/
theorem calls_are_run_oneEntry :
    ∃ rb, RingBuffer.create 1024 = some rb ∧
      ∃ sched, (run next (start rb) sched).shared =
          [Call.write (valuesOnly [1] (by decide)), .read].foldl (fun rb c => (call rb c).1) rb ∧
        Idle (run next (start rb) sched) := by
  refine ⟨_, rfl, ?_⟩
  have hnew : RingBuffer.create 1024 = some ⟨4096, 0, 0, fun _ => 0⟩ := rfl
  have hqueue : QueueInv (start ⟨4096, 0, 0, fun _ => 0⟩).shared [] :=
    ⟨Holding.create hnew, List.forall_mem_nil _⟩
  refine calls_are_run ⟨⟨none, rfl⟩, none, rfl⟩ (queueRun hqueue _ ?_)
  refine ⟨fun _ => ⟨by decide, fun hlt => ?_⟩, trivial, trivial⟩
  cases hlt

end SystemsExperiments.SimpleRingbuffer
