import SystemsExperiments.Verification.Mmlog.Align
import SystemsExperiments.Verification.Mmlog.Records

/-! # An insert that fails

The range is reserved by one `fetch_add` and never given back: a failed insert leaves the
cursor past its record. What was in the file below the reserved range stays. -/

namespace SystemsExperiments.Mmlog

open Interleaving

/-! ## Calls that run alone -/

def Pc.isIdle : Pc → Bool
  | .idle => true
  | _ => false

theorem isIdle_iff {pc : Pc} : pc.isIdle = true ↔ pc = .idle := by
  cases pc <;> simp [Pc.isIdle]

/-- The step is taken by the thread, in the middle of a call. -/
def RunsAlone (t : ℕ) (s : System) (u : ℕ) (_ : Outcome) : Prop :=
  u = t ∧ (s.thread t).pc.isIdle = false

instance (t : ℕ) (s : System) (u : ℕ) (o : Outcome) : Decidable (RunsAlone t s u o) :=
  inferInstanceAs (Decidable (_ ∧ _))

/-- One whole call `mmlog_insert(a, data)` that returns false, with no other call running
meanwhile. -/
structure FailedInsert (s : System) (t : ℕ) (a : Option ℕ) (data : Option Payload)
    (o : Outcome) (mid : Schedule) : Prop where
  idle : (s.thread t).pc = .idle
  next : ∃ rest, (s.thread t).todo = .insert a data :: rest
  alone : AllSteps threadStep (RunsAlone t) (step threadStep s t o) mid
  returned : ((run threadStep s ((t, o) :: mid)).thread t).pc = .idle
  failed : ((run threadStep s ((t, o) :: mid)).thread t).results.getLast? =
    some (.insert a data, .bool false)

/-! ## Steps inside a reservation -/

theorem insertPoint_insertLoop (th : Thread) (a : ℕ) {data : Payload} (start w : ℕ)
    (hpos : 0 < data.size) :
    (th.insertLoop a data start w).pc.reserved? = some (start, data) ∧
      InsertPoint (th.insertLoop a data start w).pc := by
  unfold Thread.insertLoop
  split
  · rename_i hw
    exact ⟨rfl, hw⟩
  · exact ⟨rfl, hpos⟩

/-- Inside a reservation the cursor is left alone, and the thread keeps the reservation
until it returns. -/
theorem threadStep_reserved {s : Log} {th : Thread} {o : Outcome} {start : ℕ}
    {data : Payload} (hres : th.pc.reserved? = some (start, data))
    (hpoint : InsertPoint th.pc) :
    (threadStep s th o).1.metadata.cursor = s.metadata.cursor ∧
      ((threadStep s th o).2.pc = .idle ∨
        (threadStep s th o).2.pc.reserved? = some (start, data) ∧
          InsertPoint (threadStep s th o).2.pc) := by
  obtain ⟨p, errno, todo, results⟩ := th
  cases p with
  | insertCheckout a d pc =>
      obtain ⟨st, hstart, heq⟩ := Option.map_eq_some_iff.mp hres
      cases heq
      have hne : pc ≠ .fetchAdd := by
        rintro rfl
        cases hstart
      have hcursor := mmlogCheckout_cursor data.size s.metadata s.file errno o pc
      rw [if_neg hne] at hcursor
      have hnext := mmlogCheckout_next data.size s.metadata s.file errno o hstart
      simp only [threadStep]
      refine ⟨hcursor, ?_⟩
      split
      · rename_i pc' hgoto
        refine .inr ⟨?_, hpoint⟩
        simp [Thread.goto, Pc.reserved?, hnext.1 pc' hgoto]
      · rename_i v hdone
        split
        · exact .inl rfl
        · rename_i hvalid
          obtain rfl := (hnext.2 v hdone).resolve_right hvalid
          split
          · exact .inr ⟨rfl, hpoint⟩
          · exact .inr (insertPoint_insertLoop _ _ _ _ hpoint)
  | insertPwrite a d st =>
      simp only [threadStep]
      refine ⟨trivial, .inl ?_⟩
      split <;> rfl
  | insertRb a d st w pc =>
      cases hres
      simp only [threadStep]
      refine ⟨rfl, ?_⟩
      split
      · exact .inr ⟨rfl, hpoint⟩
      · exact .inl rfl
      · exact .inr ⟨rfl, hpoint⟩
  | insertMemcpy a d st w id =>
      cases hres
      exact ⟨rfl, .inr ⟨rfl, hpoint⟩⟩
  | insertRelease a d st w id =>
      cases hres
      exact ⟨rfl, .inr (insertPoint_insertLoop _ _ _ _ (Nat.zero_lt_of_lt hpoint))⟩
  | insertClean a d st pc =>
      cases hres
      simp only [threadStep]
      refine ⟨rfl, ?_⟩
      split
      · exact .inr ⟨rfl, hpoint⟩
      · exact .inl rfl
  | _ => cases hres

/-- A thread reaches `ftruncate` with the aligned size of its end. -/
theorem threadStep_reaches_ftruncate {s : Log} {th : Thread} {o : Outcome} {e n : ℕ}
    (h : (threadStep s th o).2.pc.expand? = some (e, .ftruncate n)) :
    n = alignedSize e s.metadata.chunkSize ∧ s.metadata.fileSize < e := by
  obtain ⟨pc, hpc, hnext⟩ := exists_of_expand h (by simp)
  cases pc with
  | loadSize =>
      simp only [dataFileExpand] at hnext
      split at hnext
      · rename_i hgrow
        cases hnext
        exact ⟨rfl, hgrow⟩
      · cases hnext
  | tryLock =>
      simp only [dataFileExpand] at hnext
      split at hnext <;> cases hnext
  | retry => cases o <;> cases hnext
  | loadPanicked =>
      simp only [dataFileExpand] at hnext
      split at hnext <;> cases hnext
  | ftruncate n => cases o <;> cases hnext
  | storePanicked => cases hnext
  | unlockPanicked => cases hnext
  | storeSize n => cases hnext
  | unlock => cases hnext
  | checkPanicked => cases hnext

theorem expand_of_reserved {pc : Pc} {start e : ℕ} {data : Payload} {epc : ExpandPc}
    (hres : pc.reserved? = some (start, data)) (hpc : pc.expand? = some (e, epc)) :
    e = endOffset start data.size := by
  match pc, hpc with
  | .insertCheckout _ _ (.expand _ _), rfl =>
      cases hres
      rfl

/-- Nothing below the reserved range is touched inside the reservation. -/
theorem keeps_below_reserved {cfg : Config} {s : Log} {th : Thread} {o : Outcome}
    {start : ℕ} {data : Payload} (hcs : s.metadata.chunkSize = cfg.chunkSize)
    (hok : RingsOk cfg s.ring) (hring : PcRing s.ring th.pc)
    (hres : th.pc.reserved? = some (start, data)) (hpoint : InsertPoint th.pc)
    (hsmall : start + data.size < 2 ^ 32)
    (hgrow : ∀ e n, th.pc.expand? = some (e, .ftruncate n) → start ≤ n) :
    Keeps (· < start) s.file (threadStep s th o).1.file := by
  generalize hf : (threadStep s th o).1.file = f
  have hstep := threadStep_file s th o
  rw [hf] at hstep
  cases hstep with
  | same => exact Keeps.refl _ _
  | expand hpc => exact keeps_ftruncate_of_le (.inl (hgrow _ _ hpc))
  | trim hpc =>
      rw [hpc] at hres
      cases hres
  | pwrite hpc hk =>
      rw [hpc] at hres
      cases hres
      exact (keeps_pwrite s.file _ _ _).mono fun i _ hi => .inl hi
  | @copy a d st w id hpc =>
      rw [hpc] at hres hring hpoint
      cases hres
      have hlive : Live s.metadata.chunkSize ((s.ring a).chunks id) := by
        rw [hcs]
        exact (hok a).live id (Serves.created hring)
      have hcs32 : s.metadata.chunkSize < 2 ^ 32 := by
        rw [hcs]
        exact cfg.chunkSize_lt
      obtain ⟨limit, -, hcopy⟩ := copyPiece_eq hring hlive hcs32 hsmall hpoint
      rw [hcopy]
      refine (keeps_store s.file limit _ _ _).mono fun i _ hi => .inl ?_
      exact hi.trans_le (Nat.le_add_right _ _)

/-! ## The call as a whole -/

/-- The stages of an insert of `data` that runs alone from cursor `start` and file `f`. -/
inductive Alone (cs start : ℕ) (f : DataFile) (data : Payload) (s : Log) (pc : Pc) : Prop where
  | before (h : ℕ) (hpc : pc = .insertCheckout h data .fetchAdd) (hpos : 0 < data.size)
      (hcursor : s.metadata.cursor = start) (hfile : s.file = f)
  | inside (hres : pc.reserved? = some (start, data)) (hpoint : InsertPoint pc)
      (hcursor : s.metadata.cursor = u64 (start + data.size))
      (hkeeps : start + data.size + cs ≤ 2 ^ 32 → Keeps (· < start) f s.file)
      (hgrow : start + data.size + cs ≤ 2 ^ 32 →
        ∀ e n, pc.expand? = some (e, .ftruncate n) → start ≤ n)
  | returned (hpc : pc = .idle) (hcursor : s.metadata.cursor = u64 (start + data.size))
      (hkeeps : start + data.size + cs ≤ 2 ^ 32 → Keeps (· < start) f s.file)

theorem alone_step {cfg : Config} {s : Log} {th : Thread} {o : Outcome} {start : ℕ}
    {f : DataFile} {data : Payload} (hcs : s.metadata.chunkSize = cfg.chunkSize)
    (hok : RingsOk cfg s.ring) (hring : PcRing s.ring th.pc)
    (h : Alone cfg.chunkSize start f data s th.pc) (hbusy : th.pc.isIdle = false) :
    Alone cfg.chunkSize start f data (threadStep s th o).1 (threadStep s th o).2.pc := by
  cases h with
  | before a hpc hpos hcursor hfile =>
      obtain ⟨p, errno, todo, results⟩ := th
      cases hpc
      subst hcursor hfile
      exact .inside rfl hpos rfl (fun _ => Keeps.refl _ _) nofun
  | inside hres hpoint hcursor hkeeps hgrow =>
      obtain ⟨hcursor', hnext⟩ := threadStep_reserved (s := s) (o := o) hres hpoint
      have hkeeps' : start + data.size + cfg.chunkSize ≤ 2 ^ 32 →
          Keeps (· < start) f (threadStep s th o).1.file := by
        intro hsmall
        have hpos := cfg.chunkSize_pos
        exact (hkeeps hsmall).trans (keeps_below_reserved hcs hok hring hres hpoint
          (by omega) (hgrow hsmall))
      rcases hnext with hidle | ⟨hres', hpoint'⟩
      · exact .returned hidle (hcursor'.trans hcursor) hkeeps'
      · refine .inside hres' hpoint' (hcursor'.trans hcursor) hkeeps' fun hsmall e n hpc => ?_
        obtain ⟨rfl, hlt⟩ := threadStep_reaches_ftruncate hpc
        have he : e = start + data.size := by
          rw [expand_of_reserved hres' hpc]
          exact Nat.mod_eq_of_lt (by omega)
        rw [hcs]
        have hcover := le_alignedSize (e := e) cfg.chunkSize_pos (by omega) (by omega)
        omega
  | returned hpc _ _ =>
      rw [hpc] at hbusy
      cases hbusy

/-- A call that fails its argument checks returns at once. -/
theorem start_of_payload?_none {th : Thread} {a : Option ℕ} {data : Option Payload}
    (h : Call.payload? (.insert a data) = none) :
    (th.start (.insert a data)).pc = .idle := by
  obtain ⟨-, v, e, heq⟩ | ⟨b, p, hcall, hpos, -⟩ | ⟨b, hcall, -⟩ :=
    start_append th (show Call.isAppend (.insert a data) = true from rfl)
  · rw [heq]
    rfl
  · rw [hcall, payload?_insert hpos] at h
    cases h
  · cases hcall

theorem start_of_payload? (th : Thread) {a : Option ℕ} {data : Option Payload} {p : Payload}
    (h : Call.payload? (.insert a data) = some p) :
    0 < p.size ∧ ∃ h, (th.start (.insert a data)).pc = .insertCheckout h p .fetchAdd := by
  obtain ⟨hnone, -⟩ | ⟨b, q, hcall, hpos, heq⟩ | ⟨b, hcall, -⟩ :=
    start_append th (show Call.isAppend (.insert a data) = true from rfl)
  · cases hnone.symm.trans h
  · rw [hcall, payload?_insert hpos] at h
    cases h
    exact ⟨hpos, b, by rw [heq]; rfl⟩
  · cases hcall

theorem step_of_idle {s : System} {t : ℕ} {o : Outcome} {call : Call} {rest : List Call}
    (hidle : (s.thread t).pc = .idle) (htodo : (s.thread t).todo = call :: rest) :
    (step threadStep s t o).shared = s.shared ∧
      (step threadStep s t o).thread t = { s.thread t with todo := rest }.start call := by
  rw [step_shared, step_thread_self]
  revert hidle htodo
  generalize s.thread t = th
  intro hidle htodo
  obtain ⟨p, errno, todo, results⟩ := th
  cases hidle
  cases htodo
  exact ⟨rfl, rfl⟩

/-- The whole call, from any state of the ring that its invariant allows. -/
theorem FailedInsert.alone_run {cfg : Config} {s : System} {t : ℕ} {a : Option ℕ}
    {data : Option Payload} {o : Outcome} {mid : Schedule} {p : Payload}
    (h : FailedInsert s t a data o mid) (hinv : RingInv cfg s)
    (hp : Call.payload? (.insert a data) = some p) :
    (run threadStep s ((t, o) :: mid)).shared.metadata.cursor =
        u64 (s.shared.metadata.cursor + p.size) ∧
      (s.shared.metadata.cursor + p.size + cfg.chunkSize ≤ 2 ^ 32 →
        Keeps (· < s.shared.metadata.cursor) s.shared.file
          (run threadStep s ((t, o) :: mid)).shared.file) := by
  obtain ⟨rest, htodo⟩ := h.next
  obtain ⟨hshared, hthread⟩ := step_of_idle (o := o) h.idle htodo
  obtain ⟨hpos, b, hpc⟩ := start_of_payload? { s.thread t with todo := rest } hp
  have hfirst : Alone cfg.chunkSize s.shared.metadata.cursor s.shared.file p
      (step threadStep s t o).shared ((step threadStep s t o).thread t).pc := by
    rw [hshared, hthread]
    exact .before b hpc hpos rfl rfl
  have hrun := run_invariant_of threadStep
    (P := fun s' => RingInv cfg s' ∧ Alone cfg.chunkSize s.shared.metadata.cursor
      s.shared.file p s'.shared (s'.thread t).pc) ?_ ⟨ringInv_step s t o hinv, hfirst⟩ h.alone
  · have hreturned := h.returned
    rw [run_cons] at hreturned ⊢
    cases hrun.2 with
    | before b' hpc' _ _ _ => cases hreturned.symm.trans hpc'
    | inside hres _ _ _ _ =>
        rw [hreturned] at hres
        cases hres
    | returned _ hcursor hkeeps => exact ⟨hcursor, hkeeps⟩
  · rintro s' u o' ⟨hinv', hat⟩ ⟨rfl, hbusy⟩
    refine ⟨ringInv_step s' u o' hinv', ?_⟩
    rw [step_shared, step_thread_self]
    exact alone_step hinv'.chunkSize hinv'.ok (hinv'.point u).point hat hbusy

theorem FailedInsert.refused {s : System} {t : ℕ} {a : Option ℕ} {data : Option Payload}
    {o : Outcome} {mid : Schedule} (h : FailedInsert s t a data o mid)
    (hnone : Call.payload? (.insert a data) = none) :
    (run threadStep s ((t, o) :: mid)).shared = s.shared := by
  obtain ⟨rest, htodo⟩ := h.next
  obtain ⟨hshared, hthread⟩ := step_of_idle (o := o) h.idle htodo
  -- the call has returned with its first step, so there is no other
  cases mid with
  | nil => exact hshared
  | cons m mid =>
      have hbusy := h.alone.1.2
      rw [hthread, start_of_payload?_none hnone] at hbusy
      cases hbusy

/-- An insert that returns false while no other call runs has either been refused with
nothing changed, or has moved the cursor past its record; and as long as the end of the
record with one more chunk fits in 32 bits, every byte that was in the file below the old
cursor is still there. -/
theorem failed_insert_keeps_earlier_bytes (cfg : Config) (programs : List (List Call))
    (sched : Schedule) (t : ℕ) (a : Option ℕ) (data : Option Payload) (o : Outcome)
    (mid : Schedule) (h : FailedInsert (reached cfg programs sched) t a data o mid) :
    (Call.payload? (.insert a data) = none →
        (run threadStep (reached cfg programs sched) ((t, o) :: mid)).shared =
          (reached cfg programs sched).shared) ∧
      ∀ p, Call.payload? (.insert a data) = some p →
        (run threadStep (reached cfg programs sched) ((t, o) :: mid)).shared.metadata.cursor =
            u64 ((reached cfg programs sched).shared.metadata.cursor + p.size) ∧
          ((reached cfg programs sched).shared.metadata.cursor + p.size + cfg.chunkSize ≤
              2 ^ 32 →
            Keeps (· < (reached cfg programs sched).shared.metadata.cursor)
              (reached cfg programs sched).shared.file
              (run threadStep (reached cfg programs sched) ((t, o) :: mid)).shared.file) :=
  ⟨h.refused, fun _ hp => h.alone_run (ringInv_reached cfg programs sched) hp⟩

/-- A record of one byte. -/
def oneByte : Payload := ⟨1, fun _ => 7⟩

/-- A record of five thousand bytes. -/
def twoChunks : Payload := ⟨5000, fun _ => 8⟩

def oneByteThenTwoChunks : List (List Call) :=
  [[.insert (some 0) (some oneByte), .insert (some 0) (some twoChunks)]]

/-- The log after the first record. -/
def afterOneByte : System :=
  reached Config.least oneByteThenTwoChunks (List.replicate 18 (0, .succeed))

/-- The second chunk of the second record cannot be had. -/
def secondCallocFails : Schedule :=
  List.replicate 21 (0, .succeed) ++ [(0, .fail), (0, .succeed), (0, .succeed)]

/-- The first record is still there, and so is a part of the second. -/
theorem failed_insert_keeps_earlier_bytes_second :
    afterOneByte.shared.metadata.cursor = 1 ∧ afterOneByte.shared.file.byte 0 = 7 ∧
      (run threadStep afterOneByte ((0, .succeed) :: secondCallocFails)).shared.file.byte 1 = 8 ∧
      Keeps (· < 1) afterOneByte.shared.file
        (run threadStep afterOneByte ((0, .succeed) :: secondCallocFails)).shared.file := by
  have hfailed : FailedInsert afterOneByte 0 (some 0) (some twoChunks) .succeed
      secondCallocFails := ⟨rfl, ⟨[], rfl⟩, by decide +kernel, rfl, rfl⟩
  have hkept := ((failed_insert_keeps_earlier_bytes Config.least oneByteThenTwoChunks
    (List.replicate 18 (0, .succeed)) 0 (some 0) (some twoChunks) .succeed secondCallocFails
    hfailed).2 twoChunks rfl).2 (by decide +kernel)
  exact ⟨rfl, rfl, by decide +kernel, hkept⟩

/-- A record of one byte on a fresh log, with `calloc` failing. -/
def callocFails : Schedule :=
  List.replicate 6 (0, .succeed) ++ [(0, .fail), (0, .succeed), (0, .succeed)]

theorem failedInsert_oneByte :
    FailedInsert (initial Config.least [[.insert (some 0) (some oneByte)]]) 0 (some 0)
      (some oneByte) .succeed callocFails :=
  ⟨rfl, ⟨[], rfl⟩, by decide, rfl, rfl⟩

/-- The failed record leaves the cursor one byte further. -/
theorem failed_insert_moves_cursor :
    FailedInsert (initial Config.least [[.insert (some 0) (some oneByte)]]) 0 (some 0)
        (some oneByte) .succeed callocFails ∧
      (run threadStep (initial Config.least [[.insert (some 0) (some oneByte)]])
          ((0, .succeed) :: callocFails)).shared.metadata.cursor ≠
        (initial Config.least [[.insert (some 0) (some oneByte)]]).shared.metadata.cursor :=
  ⟨failedInsert_oneByte, by decide⟩

end SystemsExperiments.Mmlog
