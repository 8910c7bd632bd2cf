import SystemsExperiments.Model.Threads.StressTest
import SystemsExperiments.Verification.Mmlog.Client

/-! # The stress test does not pass twice

The metadata file of the first run makes all calls of `mmlog_open` in the second wait for a
data file that nobody creates. -/

namespace SystemsExperiments.Threads

open Interleaving Mmlog

/-! ## One call -/

/-- The call neither creates the files nor has come to the end of `files_open`. -/
def Waiting : OpenPc → Prop
  | .create _ | .storeHead | .returned true => False
  | _ => True

/-- A wait for a file that is not there does not succeed. -/
theorem waitFileReady_none {size : ℕ} {errno : MmlogErr} {o : Outcome} (pc : ReadyPc) :
    (waitFileReady none size errno o pc).2 ≠ .done true := by
  cases pc with
  | openFile => cases o <;> nofun
  | fstat => cases o <;> nofun
  | wait opened => cases o <;> nofun

/-- `files_open` does not succeed without a data file. -/
theorem filesOpen_none {f : Files} (h : f.data = none) (errno : MmlogErr) (o : Outcome)
    (pc : FilesOpenPc) : (filesOpen f errno o pc).2 ≠ .done true := by
  cases pc with
  | metaReady pc =>
      simp only [filesOpen]
      split <;> (intro hdone; cases hdone)
  | mmap => cases o <;> (intro hdone; cases hdone)
  | loadChunkSize =>
      simp only [filesOpen]
      split <;> (intro hdone; cases hdone)
  | loadReady size =>
      simp only [filesOpen]
      split
      · split <;> (intro hdone; cases hdone)
      · intro hdone
        cases hdone
  | waitReady size => cases o <;> (intro hdone; cases hdone)
  | loadVersion size =>
      simp only [filesOpen]
      split
      · split <;> (intro hdone; cases hdone)
      · intro hdone
        cases hdone
  | dataReady size pc =>
      simp only [filesOpen, h, Option.map_none]
      split
      · intro hdone
        cases hdone
      · rename_i hdone
        exact absurd hdone (waitFileReady_none pc)
      · intro hdone
        cases hdone
  | crashed =>
      intro hdone
      cases hdone

/-- With the metadata file there and the data file not, a call keeps waiting or gives up. -/
theorem mmlogOpen_waiting (filename : Option String) {f : Files} {c : Opener} {o : Outcome}
    (hmeta : f.metaFile ≠ .absent) (hdata : f.data = none) (h : Waiting c.pc) :
    (mmlogOpen filename f c o).1 = f ∧ Waiting (mmlogOpen filename f c o).2.pc := by
  obtain ⟨args, pc, errno⟩ := c
  cases pc with
  | checkArgs =>
      simp only [mmlogOpen]
      split <;> exact ⟨rfl, trivial⟩
  | callocHandle => cases o <;> exact ⟨rfl, trivial⟩
  | callocBuffer =>
      cases o with
      | succeed =>
          simp only [mmlogOpen, Opener.filesOpenOrCreate]
          split <;> exact ⟨trivial, trivial⟩
      | fail => exact ⟨rfl, trivial⟩
      | short n => exact ⟨rfl, trivial⟩
  | malloc => cases o <;> exact ⟨rfl, trivial⟩
  | snprintf => cases o <;> exact ⟨rfl, trivial⟩
  | openExclusive =>
      have hexists : ¬ (o = .succeed ∧ f.metaFile = .absent) := fun hboth => hmeta hboth.2
      simp only [mmlogOpen, if_neg hexists]
      exact ⟨trivial, trivial⟩
  | create pc => exact h.elim
  | filesOpen pc =>
      have hnot := filesOpen_none hdata errno o pc
      simp only [mmlogOpen]
      split
      · exact ⟨trivial, trivial⟩
      · rename_i hdone
        exact absurd hdone hnot
      · exact ⟨trivial, trivial⟩
  | storeHead => exact h.elim
  | returned handle =>
      cases handle with
      | true => exact h.elim
      | false => exact ⟨rfl, trivial⟩

/-! ## The test -/

/-- Nobody gets a handle, and the directory stays as it was. -/
structure Stuck (left : LogMetadata) (s : StressSystem) : Prop where
  files : s.shared.files = ⟨.sized left, none⟩
  waiting : ∀ t, Waiting (s.thread t).opener.pc
  failed : ∀ t, (s.thread t).vars.success = false

theorem stuck_step {k : Sizes} {left : LogMetadata} (s : StressSystem) (t : ℕ)
    (c : Outcome × Unit) (h : Stuck left s) :
    Stuck left (step (processStep (some "thread_test.log") (stressClient k)) s t c) := by
  have hpc : (s.thread t).opener.pc ≠ .returned true := by
    intro hreturned
    have hwaiting := h.waiting t
    rw [hreturned] at hwaiting
    exact hwaiting
  have hmeta : s.shared.files.metaFile ≠ .absent := by
    rw [h.files]
    nofun
  have hdata : s.shared.files.data = none := by rw [h.files]
  obtain ⟨hfiles, hwaiting⟩ := mmlogOpen_waiting (some "thread_test.log") (o := c.1) hmeta
    hdata (h.waiting t)
  refine ⟨?_, fun u => ?_, fun u => ?_⟩
  · rw [step_shared, processStep_opener hpc, hfiles]
    exact h.files
  · by_cases hu : u = t
    · subst hu
      rw [step_thread_self, processStep_opener hpc]
      exact hwaiting
    · rw [step_thread_of_ne _ s c hu]
      exact h.waiting u
  · by_cases hu : u = t
    · subst hu
      rw [step_thread_self, processStep_opener hpc]
      exact h.failed u
    · rw [step_thread_of_ne _ s c hu]
      exact h.failed u

/-- In a directory in which an earlier run has left its metadata file no thread ever gets a
handle, nothing is written, and the validator finds no file: the stress test fails in every
interleaving. -/
theorem stressTestAgain_fails (k : Sizes) (left : LogMetadata)
    (sched : List (ℕ × (Outcome × Unit))) (allocates : Bool) (store : ℤ → ℤ) :
    (∀ t, ((stressTestAgain k left sched).thread t).opener.pc ≠ .returned true ∧
      ((stressTestAgain k left sched).thread t).vars.success = false) ∧
      (stressTestAgain k left sched).shared.files = ⟨.sized left, none⟩ ∧
      validationResult k allocates store (stressTestAgain k left sched) = some false := by
  have hstuck : Stuck left (stressTestAgain k left sched) := by
    refine run_invariant _ stuck_step sched ⟨rfl, fun _ => trivial, fun t => ?_⟩
    change (startRole k t).success = false
    unfold startRole
    split <;> rfl
  refine ⟨fun t => ⟨fun hpc => ?_, hstuck.failed t⟩, hstuck.files, ?_⟩
  · have hwaiting := hstuck.waiting t
    rw [hpc] at hwaiting
    exact hwaiting
  · rw [validationResult, hstuck.files]
    rfl

end SystemsExperiments.Threads
