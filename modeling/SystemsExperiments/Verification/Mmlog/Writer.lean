import SystemsExperiments.Verification.Mmlog.ClientRecords

/-! # Programs that insert one record after the other

The loop of a program that inserts so many records, one call at a time, and gives up at the
first that fails. -/

namespace SystemsExperiments.Mmlog

/-- A record that is the front of a buffer. -/
theorem bytes_getD (front back : List UInt8) :
    Payload.bytes ⟨front.length, fun i => (front ++ back).getD i 0⟩ = front := by
  apply List.ext_getElem
  · simp [Payload.bytes]
  · intro i h₁ h₂
    simp only [Payload.bytes, List.getElem_map, List.getElem_range]
    rw [List.getD_eq_getElem?_getD, List.getElem?_append_left h₂, List.getElem?_eq_getElem h₂]
    rfl

/-! ## The loop -/

/-- A thread and its program behind `written` records. -/
structure WriterAt (messages : ℕ) (th : Thread) (written : ℕ) (returned success : Bool) : Prop where
  written_le : written ≤ th.results.length
  good : ∀ r ∈ th.results.take written, r.2 = .bool true
  working : returned = false → success = false ∧
    (th.calls = [] ∧ written = 0 ∨ th.calls.length = written + 1 ∧ written < messages)
  ended : returned = true → th.halted = true
  done : success = true → returned = true ∧ written = messages ∧ th.calls.length = messages

/-- The program is at the head of its loop. -/
structure AtHead (messages : ℕ) (th : Thread) (written : ℕ) : Prop where
  halted : th.halted = true
  results : th.results.length = written
  le : written ≤ messages
  good : ∀ r ∈ th.results, r.2 = .bool true

variable {messages written : ℕ} {th : Thread} {returned success : Bool}

theorem writerAt_start (messages : ℕ) (errno : MmlogErr) :
    WriterAt messages ⟨.idle, errno, [], []⟩ 0 false false :=
  ⟨le_rfl, nofun, fun _ => ⟨rfl, .inl ⟨rfl, rfl⟩⟩, nofun, nofun⟩

/-- While a call is under way the program waits for it. -/
theorem WriterAt.threadStep {l : Log} {o : Outcome}
    (h : WriterAt messages th written returned success) (happends : th.Appends)
    (hbusy : th.halted = false) :
    WriterAt messages (threadStep l th o).2 written returned success := by
  obtain ⟨more, hmore⟩ := threadStep_results l th o
  have hcalls := (threadStep_calls l o happends).2
  have hrunning : returned = false := by
    cases returned with
    | false => rfl
    | true => exact absurd (h.ended rfl) (by rw [hbusy]; exact Bool.false_ne_true)
  subst hrunning
  refine ⟨?_, ?_, ?_, nofun, ?_⟩
  · rw [← hmore, List.length_append]
    exact Nat.le_add_right_of_le h.written_le
  · rw [← hmore, List.take_append_of_le_length h.written_le]
    exact h.good
  · rw [hcalls]
    exact h.working
  · rw [hcalls]
    exact h.done

/-- Before its first call the program is at the head of its loop. -/
theorem WriterAt.atHead_none (h : WriterAt messages th written false success)
    (hhalted : th.halted = true) (hlast : th.results.getLast? = none) :
    AtHead messages th written := by
  have hnil : th.results = [] := List.getLast?_eq_none_iff.mp hlast
  have hzero : written = 0 := by
    have hle := h.written_le
    rw [hnil] at hle
    exact Nat.le_zero.mp hle
  subst hzero
  exact ⟨hhalted, by rw [hnil]; rfl, Nat.zero_le _, by simp [hnil]⟩

/-- Behind a call that has been successful it is there again. -/
theorem WriterAt.atHead_some (h : WriterAt messages th written false success)
    (hhalted : th.halted = true) {r : Call × Value} (hlast : th.results.getLast? = some r)
    (hr : r.2 = .bool true) : AtHead messages th (written + 1) := by
  have hlen : th.calls.length = th.results.length := by
    rw [calls_of_halted hhalted, List.length_map]
  obtain ⟨front, hfront⟩ := List.getLast?_eq_some_iff.mp hlast
  have hcount : th.results.length = written + 1 ∧ written < messages := by
    rcases (h.working rfl).2 with ⟨hnil, -⟩ | ⟨hcalls, hlt⟩
    · rw [hnil, hfront] at hlen
      simp at hlen
    · exact ⟨hlen.symm.trans hcalls, hlt⟩
  have hfrontlen : front.length = written := by
    rw [hfront, List.length_append, List.length_singleton] at hcount
    exact Nat.succ_inj.mp hcount.1
  refine ⟨hhalted, hcount.1, hcount.2, ?_⟩
  intro s hs
  have hgood := h.good
  rw [hfront, ← hfrontlen, List.take_left] at hgood
  rw [hfront, List.mem_append, List.mem_singleton] at hs
  rcases hs with hs | rfl
  · exact hgood s hs
  · exact hr

/-- The next record. -/
theorem AtHead.next (h : AtHead messages th written) (hlt : written < messages) (call : Call) :
    WriterAt messages (th.feed [call]) written false false := by
  refine ⟨h.results.ge, fun r hr => h.good r (List.mem_of_mem_take hr), ?_, nofun, nofun⟩
  intro _
  refine ⟨rfl, .inr ⟨?_, hlt⟩⟩
  rw [calls_feed, List.length_append, calls_of_halted h.halted, List.length_map, h.results]
  rfl

/-- The end of the loop. -/
theorem AtHead.finish (h : AtHead messages th written) (hge : ¬ written < messages) :
    WriterAt messages th written true true := by
  have hall : written = messages := Nat.le_antisymm h.le (Nat.not_lt.mp hge)
  refine ⟨h.results.ge, fun r hr => h.good r (List.mem_of_mem_take hr), nofun, fun _ => h.halted,
    fun _ => ⟨rfl, hall, ?_⟩⟩
  rw [calls_of_halted h.halted, List.length_map, h.results, hall]

/-- A program that gives up between two calls. -/
theorem WriterAt.giveUp (h : WriterAt messages th written false success)
    (hhalted : th.halted = true) : WriterAt messages th written true false :=
  ⟨h.written_le, h.good, nofun, fun _ => hhalted, nofun⟩

/-- A program that has been successful. -/
theorem WriterAt.successful (h : WriterAt messages th written returned true) :
    th.halted = true ∧ written = messages ∧ th.results.length = messages ∧
      ∀ r ∈ th.results, r.2 = .bool true := by
  obtain ⟨hreturned, hwritten, hlength⟩ := h.done rfl
  have hhalted := h.ended hreturned
  have hresults : th.results.length = messages := by
    rw [← hlength, calls_of_halted hhalted, List.length_map]
  refine ⟨hhalted, hwritten, hresults, ?_⟩
  have hgood := h.good
  rw [hwritten, ← hresults, List.take_length] at hgood
  exact hgood

end SystemsExperiments.Mmlog
