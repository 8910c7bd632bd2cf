import SystemsExperiments.Shared.Layout
import SystemsExperiments.Verification.Mmlog.FileSteps
import SystemsExperiments.Verification.Mmlog.Budget

/-! # The records in the data file

Reservations lay the records end to end in the order of their `fetch_add`. Each record is
in the file once its call has returned true; until then its thread alone writes to its
place. What has to be true of a step for that to go on is collected in `ContentPre`. -/

namespace SystemsExperiments.Mmlog

open Interleaving Layout

/-! ## Programs of inserts -/

/-- The record of an `mmlog_insert` whose arguments pass its checks. -/
def Call.payload? : Call → Option Payload
  | .insert (some _) (some data) => if data.size = 0 then none else some data
  | _ => none

def Call.isInsert (call : Call) : Bool := call.payload?.isSome

/-- A call of `mmlog_insert` or `mmlog_trim`, whatever its arguments. -/
def Call.isAppend : Call → Bool
  | .insert _ _ | .trim _ => true
  | _ => false

def OnlyInserts (programs : List (List Call)) : Prop :=
  ∀ p ∈ programs, ∀ call ∈ p, call.isInsert = true

instance (programs : List (List Call)) : Decidable (OnlyInserts programs) :=
  inferInstanceAs (Decidable (∀ p ∈ programs, ∀ call ∈ p, call.isInsert = true))

theorem isInsert_iff {call : Call} (h : call.isInsert = true) :
    ∃ a data, call = .insert (some a) (some data) ∧ 0 < data.size := by
  obtain ⟨data, hdata⟩ := Option.isSome_iff_exists.mp h
  unfold Call.payload? at hdata
  split at hdata
  · split at hdata
    · cases hdata
    · exact ⟨_, _, rfl, by omega⟩
  · cases hdata

theorem payload?_insert {a : ℕ} {data : Payload} (h : 0 < data.size) :
    Call.payload? (.insert (some a) (some data)) = some data :=
  if_neg (Nat.ne_of_gt h)

theorem isAppend_of_isInsert {call : Call} (h : call.isInsert = true) :
    call.isAppend = true := by
  obtain ⟨a, data, rfl, -⟩ := isInsert_iff h
  rfl

/-- How an insert or a trim begins: its argument checks refuse it, or it goes to its first
point. -/
theorem start_append (th : Thread) {call : Call} (h : call.isAppend = true) :
    (call.payload? = none ∧ ∃ v e, th.start call = th.finish call v e) ∨
      (∃ a data, call = .insert (some a) (some data) ∧ 0 < data.size ∧
        th.start call = th.goto (.insertCheckout a data .fetchAdd) .ok) ∨
      ∃ a, call = .trim (some a) ∧ th.start call = th.goto (.trimLoad a) .ok := by
  cases call with
  | insert a data =>
      cases a with
      | none => exact .inl ⟨rfl, _, _, rfl⟩
      | some a =>
          cases data with
          | none => exact .inl ⟨rfl, _, _, rfl⟩
          | some data =>
              by_cases hzero : data.size = 0
              · exact .inl ⟨if_pos hzero, _, _, if_pos hzero⟩
              · exact .inr (.inl ⟨a, data, rfl, Nat.pos_of_ne_zero hzero, if_neg hzero⟩)
  | trim a =>
      cases a with
      | none => exact .inl ⟨rfl, _, _, rfl⟩
      | some a => exact .inr (.inr ⟨a, rfl, rfl⟩)
  | checkout a size => cases h
  | rbCheckout a cursor => cases h
  | cleanChunks a => cases h

/-- The record of a running `mmlog_insert`. -/
def Pc.data? : Pc → Option Payload
  | .insertCheckout _ data _ | .insertPwrite _ data _ | .insertRb _ data _ _ _
  | .insertMemcpy _ data _ _ _ | .insertRelease _ data _ _ _ | .insertClean _ data _ _ =>
      some data
  | _ => none

def CheckoutPc.start? : CheckoutPc → Option ℕ
  | .fetchAdd => none
  | .loadSize start | .expand start _ => some start

/-- The place that a running `mmlog_insert` has reserved, and the record for it. -/
def Pc.reserved? : Pc → Option (ℕ × Payload)
  | .insertCheckout _ data pc => pc.start?.map fun start => (start, data)
  | .insertPwrite _ data start | .insertRb _ data start _ _ | .insertMemcpy _ data start _ _
  | .insertRelease _ data start _ _ | .insertClean _ data start _ => some (start, data)
  | _ => none

/-- How many bytes of its record a running `mmlog_insert` has copied. -/
def Pc.written (cs : ℕ) : Pc → ℕ
  | .insertRb _ _ _ w _ | .insertMemcpy _ _ _ w _ => w
  | .insertRelease _ data start w _ => w + bytesToWrite start data.size w cs
  | .insertClean _ data _ _ => data.size
  | _ => 0

namespace Thread

/-- The records of the calls that have returned. -/
def finished (th : Thread) : List Payload := th.results.filterMap fun r => r.1.payload?

/-- The records that the thread has reserved a place for, in order. -/
def claimed (th : Thread) : List Payload :=
  th.finished ++ (th.pc.reserved?.map Prod.snd).toList

/-- Some record was refused after a place had been reserved for it. -/
def Failed (th : Thread) : Prop :=
  ∃ r ∈ th.results, r.1.isInsert = true ∧ r.2 = .bool false

end Thread

/-- The points of a thread that only inserts and trims. -/
def InsertPoint : Pc → Prop
  | .idle | .trimLoad _ | .trimFtruncate _ _ => True
  | .insertCheckout _ data _ | .insertPwrite _ data _ | .insertClean _ data _ _ =>
      0 < data.size
  | .insertRb _ data _ w _ | .insertMemcpy _ data _ w _ | .insertRelease _ data _ w _ =>
      w < data.size
  | _ => False

/-- A thread in the middle of its program of inserts and trims. -/
structure InsertThread (program : List Payload) (th : Thread) : Prop where
  point : InsertPoint th.pc
  todo : ∀ call ∈ th.todo, call.isAppend = true
  program_eq : th.finished ++ th.pc.data?.toList ++ th.todo.filterMap Call.payload? = program

namespace InsertThread

variable {program : List Payload} {th : Thread}

theorem goto (h : InsertThread program th) {pc : Pc} {errno : MmlogErr}
    (hpoint : InsertPoint pc) (hdata : pc.data? = th.pc.data?) :
    InsertThread program (th.goto pc errno) := by
  refine ⟨hpoint, h.todo, ?_⟩
  have hprog := h.program_eq
  rw [← hdata] at hprog
  exact hprog

theorem finish (h : InsertThread program th) {call : Call} {v : Value} {errno : MmlogErr}
    (hdata : call.payload? = th.pc.data?) :
    InsertThread program (th.finish call v errno) := by
  refine ⟨trivial, h.todo, ?_⟩
  have hprog := h.program_eq
  rw [← hdata] at hprog
  cases hcall : call.payload? with
  | none => simpa [Thread.finish, Thread.finished, Pc.data?, hcall] using hprog
  | some data => simpa [Thread.finish, Thread.finished, Pc.data?, hcall] using hprog

theorem insertLoop (h : InsertThread program th) {a : ℕ} {data : Payload} {start w : ℕ}
    (hpos : 0 < data.size) (hdata : th.pc.data? = some data) :
    InsertThread program (th.insertLoop a data start w) := by
  unfold Thread.insertLoop
  split
  · rename_i hw
    exact h.goto hw hdata.symm
  · exact h.goto hpos hdata.symm

theorem start {call : Call} {errno : MmlogErr} {rest : List Call}
    {results : List (Call × Value)}
    (h : InsertThread program ⟨.idle, errno, call :: rest, results⟩) :
    InsertThread program (Thread.start ⟨.idle, errno, rest, results⟩ call) := by
  have hcall := h.todo call (by simp)
  have hrest : ∀ c ∈ rest, c.isAppend = true := fun c hc => h.todo c (List.mem_cons_of_mem _ hc)
  obtain ⟨hnone, v, e, heq⟩ | ⟨a, data, rfl, hpos, heq⟩ | ⟨a, rfl, heq⟩ :=
    start_append ⟨.idle, errno, rest, results⟩ hcall
  · -- a call that is refused at once had no record to begin with
    rw [heq]
    refine ⟨trivial, hrest, ?_⟩
    simpa [Thread.finish, Thread.finished, Pc.data?, hnone] using h.program_eq
  · rw [heq]
    refine ⟨hpos, hrest, ?_⟩
    simpa [Thread.goto, Thread.finished, Pc.data?, payload?_insert hpos] using h.program_eq
  · rw [heq]
    have hnone : Call.payload? (.trim (some a)) = none := rfl
    refine ⟨trivial, hrest, ?_⟩
    simpa [Thread.goto, Thread.finished, Pc.data?, hnone] using h.program_eq

end InsertThread

theorem threadStep_insertThread {program : List Payload} {s : Log} {th : Thread}
    {o : Outcome} (h : InsertThread program th) :
    InsertThread program (threadStep s th o).2 := by
  have hpoint := h.point
  obtain ⟨p, errno, todo, results⟩ := th
  cases p with
  | idle =>
      cases todo with
      | nil => exact h
      | cons call rest => exact h.start
  | insertCheckout a data pc =>
      simp only [threadStep]
      split
      · exact h.goto hpoint rfl
      · split
        · exact h.finish (payload?_insert hpoint)
        · split
          · exact h.goto hpoint rfl
          · exact h.insertLoop hpoint rfl
  | insertPwrite a data start =>
      simp only [threadStep]
      split
      · exact h.finish (payload?_insert hpoint)
      · exact h.finish (payload?_insert hpoint)
  | insertRb a data start w pc =>
      simp only [threadStep]
      split
      · exact h.goto hpoint rfl
      · exact h.finish (payload?_insert (Nat.zero_lt_of_lt hpoint))
      · exact h.goto hpoint rfl
  | insertMemcpy a data start w id => exact h.goto hpoint rfl
  | insertRelease a data start w id => exact h.insertLoop (Nat.zero_lt_of_lt hpoint) rfl
  | insertClean a data start pc =>
      simp only [threadStep]
      split
      · exact h.goto hpoint rfl
      · exact h.finish (payload?_insert hpoint)
  | checkout a size pc => exact hpoint.elim
  | rbCheckout a cursor pc => exact hpoint.elim
  | clean a pc => exact hpoint.elim
  | trimLoad a => exact h.goto trivial rfl
  | trimFtruncate a cursor =>
      cases o with
      | succeed => exact h.finish rfl
      | fail => exact h.finish rfl
      | short n => exact h.finish rfl

/-! ## One step -/

/-- All that one step of an appending thread can do to the records below the cursor. -/
inductive ContentStep (cs : ℕ) (s : Log) (th : Thread) (s' : Log) (th' : Thread) : Prop where
  /-- Outside any reservation. -/
  | quiet (hres : th.pc.reserved? = none) (hres' : th'.pc.reserved? = none)
      (hcursor : s'.metadata.cursor = s.metadata.cursor) (hclaimed : th'.claimed = th.claimed)
      (hkeeps : Keeps (· < s.metadata.cursor) s.file s'.file)
  | reserve (data : Payload) (hres : th.pc.reserved? = none)
      (hres' : th'.pc.reserved? = some (s.metadata.cursor, data))
      (hcursor : s'.metadata.cursor = s.metadata.cursor + data.size)
      (hclaimed : th'.claimed = th.claimed ++ [data]) (hfile : s'.file = s.file)
      (hwritten : th'.pc.written cs = 0)
  /-- Inside a reservation: other places are left alone and what was copied stays. -/
  | work (start : ℕ) (data : Payload) (hres : th.pc.reserved? = some (start, data))
      (hres' : th'.pc.reserved? = some (start, data))
      (hcursor : s'.metadata.cursor = s.metadata.cursor) (hclaimed : th'.claimed = th.claimed)
      (hkeeps : Keeps (fun i => i < s.metadata.cursor ∧ Outside start data.size i) s.file
        s'.file)
      (hstored : Stored s.file start data (th.pc.written cs) →
        Stored s'.file start data (th'.pc.written cs))
  | leave (start : ℕ) (data : Payload) (hres : th.pc.reserved? = some (start, data))
      (hres' : th'.pc.reserved? = none)
      (hcursor : s'.metadata.cursor = s.metadata.cursor) (hclaimed : th'.claimed = th.claimed)
      (hkeeps : Keeps (fun i => i < s.metadata.cursor ∧ Outside start data.size i) s.file
        s'.file)
      (hstored : Stored s.file start data (th.pc.written cs) →
        Stored s'.file start data data.size ∨ th'.Failed)

namespace ContentStep

variable {cs : ℕ} {s s' : Log} {th : Thread} {start : ℕ} {data : Payload}

/-- A call without a record returns. -/
theorem finishQuiet {call : Call} {v : Value} {errno : MmlogErr}
    (hres : th.pc.reserved? = none) (hcall : call.payload? = none)
    (hcursor : s'.metadata.cursor = s.metadata.cursor)
    (hkeeps : Keeps (· < s.metadata.cursor) s.file s'.file) :
    ContentStep cs s th s' (th.finish call v errno) := by
  have hidle : Pc.reserved? .idle = none := rfl
  refine .quiet hres rfl hcursor ?_ hkeeps
  simp [Thread.finish, Thread.claimed, Thread.finished, hres, hidle, hcall]

/-- The thread moves on within its reservation. -/
theorem goto {pc : Pc} {errno : MmlogErr} (hres : th.pc.reserved? = some (start, data))
    (hcursor : s'.metadata.cursor = s.metadata.cursor)
    (hkeeps : Keeps (fun i => i < s.metadata.cursor ∧ Outside start data.size i) s.file s'.file)
    (hres' : pc.reserved? = some (start, data))
    (hstored : Stored s.file start data (th.pc.written cs) →
      Stored s'.file start data (pc.written cs)) :
    ContentStep cs s th s' (th.goto pc errno) := by
  refine .work start data hres hres' hcursor ?_ hkeeps hstored
  simp [Thread.goto, Thread.claimed, Thread.finished, hres, hres']

theorem claimed_finish {a : ℕ} {v : Value} {errno : MmlogErr}
    (hres : th.pc.reserved? = some (start, data)) (hpos : 0 < data.size) :
    (th.finish (.insert (some a) (some data)) v errno).claimed = th.claimed := by
  have hidle : Pc.reserved? .idle = none := rfl
  simp [Thread.finish, Thread.claimed, Thread.finished, hres, hidle, payload?_insert hpos]

theorem finishFalse {a : ℕ} {errno : MmlogErr} (hres : th.pc.reserved? = some (start, data))
    (hcursor : s'.metadata.cursor = s.metadata.cursor)
    (hkeeps : Keeps (fun i => i < s.metadata.cursor ∧ Outside start data.size i) s.file s'.file)
    (hpos : 0 < data.size) :
    ContentStep cs s th s'
      (th.finish (.insert (some a) (some data)) (.bool false) errno) := by
  refine .leave start data hres rfl hcursor (claimed_finish hres hpos) hkeeps fun _ => .inr ?_
  refine ⟨_, List.mem_append_right _ (List.mem_singleton_self _), ?_, rfl⟩
  rw [Call.isInsert, payload?_insert hpos]
  rfl

theorem finishTrue {a : ℕ} {errno : MmlogErr} (hres : th.pc.reserved? = some (start, data))
    (hcursor : s'.metadata.cursor = s.metadata.cursor)
    (hkeeps : Keeps (fun i => i < s.metadata.cursor ∧ Outside start data.size i) s.file s'.file)
    (hpos : 0 < data.size)
    (hstored : Stored s.file start data (th.pc.written cs) →
      Stored s'.file start data data.size) :
    ContentStep cs s th s' (th.finish (.insert (some a) (some data)) (.bool true) errno) :=
  .leave start data hres rfl hcursor (claimed_finish hres hpos) hkeeps
    fun h => .inl (hstored h)

/-- The head of the loop: the next piece, or the end of the record. -/
theorem insertLoop {a w : ℕ} (hres : th.pc.reserved? = some (start, data))
    (hcursor : s'.metadata.cursor = s.metadata.cursor)
    (hkeeps : Keeps (fun i => i < s.metadata.cursor ∧ Outside start data.size i) s.file s'.file)
    (hw : w ≤ data.size)
    (hstored : Stored s.file start data (th.pc.written cs) → Stored s'.file start data w) :
    ContentStep cs s th s' (th.insertLoop a data start w) := by
  unfold Thread.insertLoop
  split
  · exact .goto hres hcursor hkeeps rfl hstored
  · rename_i hlast
    have hall : w = data.size := by omega
    subst hall
    exact .goto hres hcursor hkeeps rfl hstored

end ContentStep

/-- Past its first step, `mmlog_checkout` stays with the start it reserved. -/
theorem mmlogCheckout_next (size : ℕ) (m : LogMetadata) (f : DataFile) (errno : MmlogErr)
    (o : Outcome) {pc : CheckoutPc} {start : ℕ} (hpc : pc.start? = some start) :
    (∀ pc', (mmlogCheckout size m f errno o pc).2.2.2 = .goto pc' →
        pc'.start? = some start) ∧
      ∀ v, (mmlogCheckout size m f errno o pc).2.2.2 = .done v →
        v = start ∨ v = logCursorInvalid := by
  cases pc with
  | fetchAdd => cases hpc
  | loadSize st =>
      cases hpc
      simp only [mmlogCheckout]
      split
      · refine ⟨?_, by simp⟩
        rintro _ ⟨⟩
        rfl
      · refine ⟨by simp, ?_⟩
        rintro _ ⟨⟩
        exact .inl rfl
  | expand st epc =>
      cases hpc
      simp only [mmlogCheckout]
      split
      · refine ⟨?_, by simp⟩
        rintro _ ⟨⟩
        rfl
      · refine ⟨by simp, ?_⟩
        rintro _ ⟨⟩
        exact .inl rfl
      · refine ⟨by simp, ?_⟩
        rintro _ ⟨⟩
        exact .inr rfl

/-- What the step of an appending thread relies on: no overflow, truncations that stay
above the cursor or above the end of the file, and copies into the right chunk. -/
structure ContentPre (s : Log) (th : Thread) : Prop where
  point : InsertPoint th.pc
  todo : ∀ call ∈ th.todo, call.isAppend = true
  chunkSize_pos : 0 < s.metadata.chunkSize
  chunkSize_lt : s.metadata.chunkSize < 2 ^ 32
  noWrap : s.metadata.cursor + th.pc.unclaimed < 2 ^ 64
  small : ∀ start data, th.pc.reserved? = some (start, data) → start + data.size < 2 ^ 32
  expand_le : ∀ e n, th.pc.expand? = some (e, .ftruncate n) →
    s.metadata.cursor ≤ n ∨ s.file.len ≤ n
  trim_le : ∀ h cursor, th.pc = .trimFtruncate h cursor → s.metadata.cursor ≤ cursor
  granted : ∀ h data start w id, th.pc = .insertMemcpy h data start w id →
    start + data.size ≤ s.file.len
  serves : ∀ h data start w id, th.pc = .insertMemcpy h data start w id →
    Serves (s.ring h) (currentCursor start w) id ∧
      Live s.metadata.chunkSize ((s.ring h).chunks id)

theorem keeps_ftruncate_of_le {f : DataFile} {c n : ℕ} (h : c ≤ n ∨ f.len ≤ n) :
    Keeps (· < c) f (f.ftruncate n) := by
  refine (keeps_ftruncate f n).mono fun i hi hc => ?_
  rcases h with h | h
  · exact hc.trans_le h
  · exact hi.trans_le h

theorem keeps_checkout {size c : ℕ} {m : LogMetadata} {f : DataFile} {errno : MmlogErr}
    {o : Outcome} {pc : CheckoutPc}
    (h : ∀ start n, pc = .expand start (.ftruncate n) → c ≤ n ∨ f.len ≤ n) :
    Keeps (· < c) f (mmlogCheckout size m f errno o pc).2.1 := by
  cases pc with
  | fetchAdd => exact Keeps.refl _ f
  | loadSize start =>
      simp only [mmlogCheckout]
      split <;> exact Keeps.refl _ f
  | expand start epc =>
      simp only [mmlogCheckout]
      rcases dataFileExpand_file (endOffset start size) m f errno o epc with
        hsame | ⟨n, rfl, hgrow⟩
      · rw [hsame]
        exact Keeps.refl _ f
      · rw [hgrow]
        exact keeps_ftruncate_of_le (h start n rfl)

/-- The steps of `mmlog_checkout` inside `mmlog_insert`. -/
theorem threadStep_content_checkout {s : Log} {a : ℕ} {data : Payload} {pc : CheckoutPc}
    {errno : MmlogErr} {todo : List Call} {results : List (Call × Value)} {o : Outcome}
    (h : ContentPre s ⟨.insertCheckout a data pc, errno, todo, results⟩) :
    ContentStep s.metadata.chunkSize s ⟨.insertCheckout a data pc, errno, todo, results⟩
      (threadStep s ⟨.insertCheckout a data pc, errno, todo, results⟩ o).1
      (threadStep s ⟨.insertCheckout a data pc, errno, todo, results⟩ o).2 := by
  cases hstart : pc.start? with
  | none =>
      cases pc with
      | fetchAdd =>
          refine .reserve data rfl rfl (Nat.mod_eq_of_lt h.noWrap) ?_ rfl rfl
          simp [threadStep, mmlogCheckout, Thread.goto, Thread.claimed, Thread.finished,
            Pc.reserved?, CheckoutPc.start?]
      | loadSize start => cases hstart
      | expand start epc => cases hstart
  | some start =>
      have hpos : 0 < data.size := h.point
      have hres : Pc.reserved? (.insertCheckout a data pc) = some (start, data) := by
        simp [Pc.reserved?, hstart]
      have hnext := mmlogCheckout_next data.size s.metadata s.file errno o hstart
      have hne : pc ≠ .fetchAdd := by
        rintro rfl
        cases hstart
      have hcursor := mmlogCheckout_cursor data.size s.metadata s.file errno o pc
      rw [if_neg hne] at hcursor
      have hkeeps : Keeps (· < s.metadata.cursor) s.file
          (mmlogCheckout data.size s.metadata s.file errno o pc).2.1 :=
        keeps_checkout fun start n hpc => h.expand_le _ n (by rw [hpc]; rfl)
      have hkeeps : Keeps (fun i => i < s.metadata.cursor ∧ Outside start data.size i) s.file
          (mmlogCheckout data.size s.metadata s.file errno o pc).2.1 :=
        hkeeps.mono fun _ _ hi => hi.1
      simp only [threadStep]
      split
      · rename_i pc' hgoto
        refine .goto hres hcursor hkeeps ?_ fun _ => stored_zero _ _ _
        simp [Pc.reserved?, hnext.1 pc' hgoto]
      · rename_i v hdone
        split
        · exact .finishFalse hres hcursor hkeeps hpos
        · rename_i hvalid
          obtain rfl := (hnext.2 v hdone).resolve_right hvalid
          split
          · exact .goto hres hcursor hkeeps rfl fun _ => stored_zero _ _ _
          · exact .insertLoop hres hcursor hkeeps (Nat.zero_le _) fun _ => stored_zero _ _ _

theorem threadStep_content_start {cs : ℕ} {s : Log} {call : Call} {errno : MmlogErr}
    {rest : List Call} {results : List (Call × Value)} (hcall : call.isAppend = true) :
    ContentStep cs s ⟨.idle, errno, call :: rest, results⟩ s
      (Thread.start ⟨.idle, errno, rest, results⟩ call) := by
  have hkeeps := Keeps.refl (· < s.metadata.cursor) s.file
  obtain ⟨hnone, v, e, heq⟩ | ⟨a, data, rfl, -, heq⟩ | ⟨a, rfl, heq⟩ :=
    start_append ⟨.idle, errno, rest, results⟩ hcall
  · rw [heq]
    have hidle : Pc.reserved? .idle = none := rfl
    refine .quiet rfl rfl rfl ?_ hkeeps
    simp [Thread.finish, Thread.claimed, Thread.finished, hidle, hnone]
  · rw [heq]
    exact .quiet rfl rfl rfl rfl hkeeps
  · rw [heq]
    exact .quiet rfl rfl rfl rfl hkeeps

theorem threadStep_content {s : Log} {th : Thread} {o : Outcome} (h : ContentPre s th) :
    ContentStep s.metadata.chunkSize s th (threadStep s th o).1 (threadStep s th o).2 := by
  have hpoint := h.point
  obtain ⟨p, errno, todo, results⟩ := th
  cases p with
  | idle =>
      cases todo with
      | nil => exact .quiet rfl rfl rfl rfl (Keeps.refl _ _)
      | cons call rest => exact threadStep_content_start (h.todo call (by simp))
  | insertCheckout a data pc => exact threadStep_content_checkout h
  | insertPwrite a data start =>
      have hend := h.small start data rfl
      have hkeeps : Keeps (fun i => i < s.metadata.cursor ∧ Outside start data.size i) s.file
          (s.file.pwrite start (pwriteResult data.size o).1 data.byte) := by
        refine (keeps_pwrite s.file start _ data.byte).mono fun i _ hi => ?_
        have hle := pwriteResult_le data.size o
        have hout := hi.2
        unfold Outside at hout ⊢
        omega
      simp only [threadStep]
      split
      · exact .finishFalse rfl rfl hkeeps hpoint
      · rename_i hall
        refine .finishTrue rfl rfl hkeeps hpoint fun _ => ?_
        have hfull : (pwriteResult data.size o).1 = data.size := by
          cases o with
          | succeed => rfl
          | fail =>
              simp only [pwriteResult] at hall
              omega
          | short n =>
              simp only [pwriteResult] at hall ⊢
              omega
        simp only [hfull]
        exact stored_pwrite s.file start data
  | insertRb a data start w pc =>
      have hkeeps := Keeps.refl
        (fun i => i < s.metadata.cursor ∧ Outside start data.size i) s.file
      simp only [threadStep]
      split
      · exact .goto rfl rfl hkeeps rfl fun hst => hst
      · exact .finishFalse rfl rfl hkeeps (Nat.zero_lt_of_lt hpoint)
      · exact .goto rfl rfl hkeeps rfl fun hst => hst
  | insertMemcpy a data start w id =>
      obtain ⟨hsv, hlive⟩ := h.serves a data start w id rfl
      have hend := h.small start data rfl
      have hroom := h.granted a data start w id rfl
      have hcs32 := h.chunkSize_lt
      have hfit : start + data.size + s.metadata.chunkSize < 2 ^ 64 := by omega
      obtain ⟨-, hpiece, -⟩ := bytesToWrite_spec h.chunkSize_pos hfit hpoint
      obtain ⟨limit, hlimit, hcopy⟩ := copyPiece_eq hsv hlive h.chunkSize_lt hend hpoint
      refine .goto rfl rfl ?_ rfl fun hst => ?_
      · change Keeps _ s.file (copyPiece s a data start w id)
        rw [hcopy]
        refine (keeps_store s.file limit (start + w) _ _).mono fun i _ hi => ?_
        have hout := hi.2
        unfold Outside at hout ⊢
        omega
      · change Stored (copyPiece s a data start w id) start data _
        rw [hcopy]
        exact stored_store hst hlimit (by omega)
  | insertRelease a data start w id =>
      have hend := h.small start data rfl
      have hcs32 := h.chunkSize_lt
      have hfit : start + data.size + s.metadata.chunkSize < 2 ^ 64 := by omega
      obtain ⟨-, hpiece, -⟩ := bytesToWrite_spec h.chunkSize_pos hfit hpoint
      have hw : u64 (w + bytesToWrite start data.size w s.metadata.chunkSize) =
          w + bytesToWrite start data.size w s.metadata.chunkSize :=
        Nat.mod_eq_of_lt (by omega)
      simp only [threadStep, hw]
      exact .insertLoop rfl rfl (Keeps.refl _ _) hpiece fun hst => hst
  | insertClean a data start pc =>
      have hkeeps := Keeps.refl
        (fun i => i < s.metadata.cursor ∧ Outside start data.size i) s.file
      simp only [threadStep]
      split
      · exact .goto rfl rfl hkeeps rfl fun hst => hst
      · exact .finishTrue rfl rfl hkeeps hpoint fun hst => hst
  | trimLoad a => exact .quiet rfl rfl rfl rfl (Keeps.refl _ _)
  | trimFtruncate a cursor =>
      cases o with
      | succeed =>
          exact .finishQuiet rfl rfl rfl
            (keeps_ftruncate_of_le (.inl (h.trim_le a cursor rfl)))
      | fail => exact .finishQuiet rfl rfl rfl (Keeps.refl _ _)
      | short n => exact .finishQuiet rfl rfl rfl (Keeps.refl _ _)
  | checkout a size pc => exact hpoint.elim
  | rbCheckout a cursor pc => exact hpoint.elim
  | clean a pc => exact hpoint.elim

theorem threadStep_failed {s : Log} {th : Thread} {o : Outcome} (h : th.Failed) :
    (threadStep s th o).2.Failed := by
  obtain ⟨r, hr, hfalse⟩ := h
  exact ⟨r, (threadStep_results s th o).subset hr, hfalse⟩

theorem written_le {cs : ℕ} {pc : Pc} {start : ℕ} {data : Payload} (hpos : 0 < cs)
    (hcs32 : cs < 2 ^ 32) (hpoint : InsertPoint pc)
    (hres : pc.reserved? = some (start, data)) (hend : start + data.size < 2 ^ 32) :
    pc.written cs ≤ data.size := by
  cases pc with
  | insertRb a d st w pc =>
      cases hres
      exact Nat.le_of_lt hpoint
  | insertMemcpy a d st w id =>
      cases hres
      exact Nat.le_of_lt hpoint
  | insertRelease a d st w id =>
      cases hres
      exact (bytesToWrite_spec hpos (by omega) hpoint).2.1
  | insertClean a d st pc =>
      cases hres
      exact le_rfl
  | _ => exact Nat.zero_le _

/-! ## Runs -/

abbrev recordSize (x : ℕ × Payload) : ℕ := x.2.size

/-- The records in the order of their reservations, each with its thread. -/
structure ContentInv (cs : ℕ) (s : System) (order : List (ℕ × Payload)) : Prop where
  cursor : s.shared.metadata.cursor = total recordSize order
  history : ∀ t, (order.filter fun x => x.1 = t).map Prod.snd = (s.thread t).claimed
  reserved : ∀ t start data, (s.thread t).pc.reserved? = some (start, data) →
    (start, (t, data)) ∈ layout recordSize 0 order ∧
      Stored s.shared.file start data ((s.thread t).pc.written cs)
  status : ∀ start t data, (start, (t, data)) ∈ layout recordSize 0 order →
    Stored s.shared.file start data data.size ∨
      (s.thread t).pc.reserved? = some (start, data) ∨ (s.thread t).Failed

/-- Every place ends at or before the cursor. -/
theorem ContentInv.place_le {cs : ℕ} {s : System} {order : List (ℕ × Payload)}
    (h : ContentInv cs s order) {start : ℕ} {x : ℕ × Payload}
    (hmem : (start, x) ∈ layout recordSize 0 order) :
    start + x.2.size ≤ s.shared.metadata.cursor := by
  have hplace := (layout_bounds hmem).2
  rw [h.cursor]
  simpa [recordSize] using hplace

/-- A record at another place is safe from a thread that writes within its own. -/
theorem ContentInv.stored_of_ne {cs : ℕ} {s : System} {order : List (ℕ × Payload)}
    (h : ContentInv cs s order) {f' : DataFile} {start start' w : ℕ} {x x' : ℕ × Payload}
    (hst : Stored s.shared.file start x.2 w) (hw : w ≤ x.2.size)
    (hmem : (start, x) ∈ layout recordSize 0 order)
    (hmem' : (start', x') ∈ layout recordSize 0 order) (hne : (start, x) ≠ (start', x'))
    (hk : Keeps (fun i => i < s.shared.metadata.cursor ∧ Outside start' x'.2.size i)
      s.shared.file f') : Stored f' start x.2 w := by
  refine hst.keeps hk fun i hi => ?_
  have hplace := h.place_le hmem
  have hapart := (layout_eq_or_disjoint hmem hmem').resolve_left hne
  simp only [recordSize] at hapart
  unfold Outside
  omega

section Step

variable {cs : ℕ} {s : System} {t : ℕ} {o : Outcome} {order : List (ℕ × Payload)}

/-- A step that reserves nothing keeps the order of the records. -/
theorem ContentInv.keep (hinv : ContentInv cs s order)
    (hcursor : (step threadStep s t o).shared.metadata.cursor = s.shared.metadata.cursor)
    (hclaimed : ((step threadStep s t o).thread t).claimed = (s.thread t).claimed)
    (hmine : ∀ start data,
      ((step threadStep s t o).thread t).pc.reserved? = some (start, data) →
      (start, (t, data)) ∈ layout recordSize 0 order ∧
        Stored (step threadStep s t o).shared.file start data
          (((step threadStep s t o).thread t).pc.written cs))
    (hothers : ∀ u start data, u ≠ t → (s.thread u).pc.reserved? = some (start, data) →
      Stored (step threadStep s t o).shared.file start data ((s.thread u).pc.written cs))
    (hstatus : ∀ start u data, (start, (u, data)) ∈ layout recordSize 0 order →
      Stored (step threadStep s t o).shared.file start data data.size ∨
        ((step threadStep s t o).thread u).pc.reserved? = some (start, data) ∨
        ((step threadStep s t o).thread u).Failed) :
    ContentInv cs (step threadStep s t o) order := by
  refine ⟨hcursor.trans hinv.cursor, fun u => ?_, fun u start data hres => ?_, hstatus⟩
  · by_cases hu : u = t
    · subst hu
      rw [hclaimed]
      exact hinv.history u
    · rw [step_thread_of_ne threadStep s o hu]
      exact hinv.history u
  · by_cases hu : u = t
    · subst hu
      exact hmine start data hres
    · rw [step_thread_of_ne threadStep s o hu] at hres ⊢
      exact ⟨(hinv.reserved u start data hres).1, hothers u start data hu hres⟩

theorem step_failed {u : ℕ} (h : (s.thread u).Failed) :
    ((step threadStep s t o).thread u).Failed := by
  by_cases hu : u = t
  · subst hu
    rw [step_thread_self]
    exact threadStep_failed h
  · rwa [step_thread_of_ne threadStep s o hu]

/-- A thread with a reservation is another one than the one without that moves. -/
theorem step_reserved {start u : ℕ} {data : Payload} (hres : (s.thread t).pc.reserved? = none)
    (hu : (s.thread u).pc.reserved? = some (start, data)) :
    ((step threadStep s t o).thread u).pc.reserved? = some (start, data) := by
  have hut : u ≠ t := by
    intro heq
    rw [heq, hres] at hu
    cases hu
  rw [step_thread_of_ne threadStep s o hut]
  exact hu

/-- A reservation adds one record at the cursor. -/
theorem ContentInv.reserve (hinv : ContentInv cs s order) {data : Payload}
    (hres : (s.thread t).pc.reserved? = none)
    (hres' : ((step threadStep s t o).thread t).pc.reserved? =
      some (s.shared.metadata.cursor, data))
    (hcursor : (step threadStep s t o).shared.metadata.cursor =
      s.shared.metadata.cursor + data.size)
    (hclaimed : ((step threadStep s t o).thread t).claimed = (s.thread t).claimed ++ [data])
    (hfile : (step threadStep s t o).shared.file = s.shared.file)
    (hwritten : ((step threadStep s t o).thread t).pc.written cs = 0) :
    ContentInv cs (step threadStep s t o) (order ++ [(t, data)]) := by
  have hplaces : layout recordSize 0 (order ++ [(t, data)]) =
      layout recordSize 0 order ++ [(s.shared.metadata.cursor, (t, data))] := by
    rw [layout_append, hinv.cursor, Nat.zero_add]
    rfl
  refine ⟨?_, fun u => ?_, fun u start d hu => ?_, fun start u d hmem => ?_⟩
  · rw [hcursor, total_append, hinv.cursor]
    rfl
  · rw [List.filter_append, List.map_append, hinv.history u]
    by_cases hu : u = t
    · subst hu
      rw [hclaimed]
      simp
    · rw [step_thread_of_ne threadStep s o hu]
      simp [Ne.symm hu]
  · rw [hplaces, hfile]
    by_cases hut : u = t
    · subst hut
      rw [hres'] at hu
      cases hu
      rw [hwritten]
      exact ⟨by simp, stored_zero _ _ _⟩
    · rw [step_thread_of_ne threadStep s o hut] at hu ⊢
      obtain ⟨hmem, hst⟩ := hinv.reserved u start d hu
      exact ⟨List.mem_append_left _ hmem, hst⟩
  · rw [hplaces] at hmem
    rw [hfile]
    rcases List.mem_append.mp hmem with hmem | hmem
    · rcases hinv.status start u d hmem with hst | hprog | hfail
      · exact .inl hst
      · exact .inr (.inl (step_reserved hres hprog))
      · exact .inr (.inr (step_failed hfail))
    · cases List.mem_singleton.mp hmem
      exact .inr (.inl hres')

/-- The places of other threads are safe from the step of a thread inside its own. -/
theorem ContentInv.stored_of_other (hinv : ContentInv cs s order) {start start' u : ℕ}
    {data data' : Payload} (hres : (s.thread t).pc.reserved? = some (start, data))
    (hkeeps : Keeps (fun i => i < s.shared.metadata.cursor ∧ Outside start data.size i)
      s.shared.file (step threadStep s t o).shared.file)
    (hut : u ≠ t) (hu : (s.thread u).pc.reserved? = some (start', data'))
    (hle : (s.thread u).pc.written cs ≤ data'.size) :
    Stored (step threadStep s t o).shared.file start' data' ((s.thread u).pc.written cs) := by
  have hmine := (hinv.reserved t start data hres).1
  obtain ⟨hplace, hst⟩ := hinv.reserved u start' data' hu
  refine hinv.stored_of_ne (x := (u, data')) hst hle hplace hmine ?_ hkeeps
  rintro ⟨⟩
  exact hut rfl

theorem ContentInv.status_of_other (hinv : ContentInv cs s order) {start start' u : ℕ}
    {data data' : Payload} (hres : (s.thread t).pc.reserved? = some (start, data))
    (hkeeps : Keeps (fun i => i < s.shared.metadata.cursor ∧ Outside start data.size i)
      s.shared.file (step threadStep s t o).shared.file)
    (hmem : (start', (u, data')) ∈ layout recordSize 0 order)
    (hne : (start', (u, data')) ≠ (start, (t, data))) :
    Stored (step threadStep s t o).shared.file start' data' data'.size ∨
      ((step threadStep s t o).thread u).pc.reserved? = some (start', data') ∨
      ((step threadStep s t o).thread u).Failed := by
  have hmine := (hinv.reserved t start data hres).1
  rcases hinv.status start' u data' hmem with hst | hprog | hfail
  · exact .inl (hinv.stored_of_ne (x := (u, data')) hst le_rfl hmem hmine hne hkeeps)
  · have hut : u ≠ t := by
      rintro rfl
      rw [hres] at hprog
      cases hprog
      exact hne rfl
    rw [step_thread_of_ne threadStep s o hut]
    exact .inr (.inl hprog)
  · exact .inr (.inr (step_failed hfail))

/-- What one step does to the records, seen from the whole system. -/
theorem contentInv_step (hinv : ContentInv cs s order)
    (hle : ∀ u start data, (s.thread u).pc.reserved? = some (start, data) →
      (s.thread u).pc.written cs ≤ data.size)
    (hstep : ContentStep cs s.shared (s.thread t) (step threadStep s t o).shared
      ((step threadStep s t o).thread t)) :
    ∃ order', ContentInv cs (step threadStep s t o) order' := by
  cases hstep with
  | quiet hres hres' hcursor hclaimed hkeeps =>
      have hstored : ∀ start x w, (start, x) ∈ layout recordSize 0 order → w ≤ x.2.size →
          Stored s.shared.file start x.2 w →
          Stored (step threadStep s t o).shared.file start x.2 w := by
        intro start x w hmem hw hst
        refine hst.keeps hkeeps fun i hi => ?_
        have hplace := hinv.place_le hmem
        omega
      refine ⟨order, hinv.keep hcursor hclaimed ?_ ?_ ?_⟩
      · intro start data hmine
        cases hres'.symm.trans hmine
      · intro u start data _ hu
        obtain ⟨hmem, hst⟩ := hinv.reserved u start data hu
        exact hstored start (u, data) _ hmem (hle u start data hu) hst
      · intro start u data hmem
        rcases hinv.status start u data hmem with hst | hprog | hfail
        · exact .inl (hstored start (u, data) _ hmem le_rfl hst)
        · exact .inr (.inl (step_reserved hres hprog))
        · exact .inr (.inr (step_failed hfail))
  | reserve data hres hres' hcursor hclaimed hfile hwritten =>
      exact ⟨_, hinv.reserve hres hres' hcursor hclaimed hfile hwritten⟩
  | work start data hres hres' hcursor hclaimed hkeeps hstored =>
      obtain ⟨hmine, hst⟩ := hinv.reserved t start data hres
      refine ⟨order, hinv.keep hcursor hclaimed ?_ ?_ ?_⟩
      · intro start' data' hnew
        rw [hres'] at hnew
        cases hnew
        exact ⟨hmine, hstored hst⟩
      · intro u start' data' hut hu
        exact hinv.stored_of_other hres hkeeps hut hu (hle u start' data' hu)
      · intro start' u data' hmem
        by_cases hown : (start', (u, data')) = (start, (t, data))
        · cases hown
          exact .inr (.inl hres')
        · exact hinv.status_of_other hres hkeeps hmem hown
  | leave start data hres hres' hcursor hclaimed hkeeps hstored =>
      obtain ⟨hmine, hst⟩ := hinv.reserved t start data hres
      refine ⟨order, hinv.keep hcursor hclaimed ?_ ?_ ?_⟩
      · intro start' data' hnew
        cases hres'.symm.trans hnew
      · intro u start' data' hut hu
        exact hinv.stored_of_other hres hkeeps hut hu (hle u start' data' hu)
      · intro start' u data' hmem
        by_cases hown : (start', (u, data')) = (start, (t, data))
        · cases hown
          rcases hstored hst with hfull | hfail
          · exact .inl hfull
          · exact .inr (.inr hfail)
        · exact hinv.status_of_other hres hkeeps hmem hown

end Step

/-- The cursor stays below the total, with the step that is about to be taken. -/
def WithinTotal (n : ℕ) (s : System) (t : ℕ) (_ : Outcome) : Prop :=
  s.shared.metadata.cursor + (s.thread t).pc.unclaimed ≤ n

/-- The file holds the records of the log, in this order and nothing between them. -/
def HoldsRecords (s : Log) (order : List (ℕ × Payload)) : Prop :=
  s.metadata.cursor ≤ s.file.len ∧
    s.file.content s.metadata.cursor = order.flatMap fun x => x.2.bytes

theorem ContentInv.holdsRecords {cs : ℕ} {s : System} {order : List (ℕ × Payload)}
    (h : ContentInv cs s order)
    (hall : ∀ start t data, (start, (t, data)) ∈ layout recordSize 0 order →
      Stored s.shared.file start data data.size) : HoldsRecords s.shared order := by
  refine ⟨?_, ?_⟩
  · rw [h.cursor, ← Nat.zero_add (total _ _)]
    refine total_le_of_forall (Nat.zero_le _) fun start x hmem hpos => ?_
    change 0 < x.2.size at hpos
    have hlast := (hall start x.1 x.2 hmem (x.2.size - 1) (by omega)).1
    change start + x.2.size ≤ _
    omega
  · rw [DataFile.content, h.cursor, List.range_eq_range']
    apply map_range'_eq_flatMap
    intro start x hmem i hi
    exact (hall start x.1 x.2 hmem i hi).2

end SystemsExperiments.Mmlog
