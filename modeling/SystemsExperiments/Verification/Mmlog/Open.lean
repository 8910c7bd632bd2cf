import SystemsExperiments.Model.Mmlog.Open
import SystemsExperiments.Verification.Mmlog.Steps

/-! # Agreement of the calls of `mmlog_open`

The exclusive creation of the metadata file elects one creator for good. While it builds
the two files nobody else writes them, its last store publishes them, and every other call
gets a handle only after it has loaded that store. -/

namespace SystemsExperiments.Mmlog

open Interleaving

/-! ## Views of a call and of the files -/

/-- The call is inside `files_create`. -/
def Opener.Creating (c : Opener) : Prop := ∃ pc, c.pc = .create pc

theorem Opener.not_creating {c : Opener} (h : ∀ pc, c.pc ≠ .create pc) : ¬ c.Creating := by
  rintro ⟨pc, hpc⟩
  exact h pc hpc

/-- The next step of the call truncates the data file. -/
def Opener.TruncatesData (c : Opener) : Prop :=
  c.pc = .create .ftruncateEmpty ∨ c.pc = .create .ftruncateChunk

theorem Opener.TruncatesData.creating {c : Opener} (h : c.TruncatesData) : c.Creating := by
  rcases h with h | h
  · exact ⟨_, h⟩
  · exact ⟨_, h⟩

/-- The call has found the log ready, or has made it so. -/
def OpenPc.pastReady : OpenPc → Bool
  | .filesOpen (.loadVersion _) => true
  | .filesOpen (.dataReady _ _) => true
  | .storeHead => true
  | .returned handle => handle
  | _ => false

/-- The value that `files_open` has loaded as the size of the data file. -/
def OpenPc.size? : OpenPc → Option ℕ
  | .filesOpen (.loadReady size) => some size
  | .filesOpen (.waitReady size) => some size
  | .filesOpen (.loadVersion size) => some size
  | .filesOpen (.dataReady size _) => some size
  | _ => none

def Files.isReady (f : Files) : Bool :=
  match f.metaFile with
  | .sized m => m.isReady
  | _ => false

/-- The files that a successful `files_create` leaves behind. -/
def Files.created (chunkSize : ℕ) : Files :=
  ⟨.sized (LogMetadata.created chunkSize), some (DataFile.created chunkSize)⟩

/-! ## The creator -/

/-- The metadata file at each point of `files_create`. -/
def CreatePc.metaFile (chunkSize : ℕ) : CreatePc → MetaFile
  | .ftruncateMeta => .empty
  | .mmap => .sized LogMetadata.zero
  | .storeVersion => .sized LogMetadata.zero
  | .storePageSize => .sized { LogMetadata.zero with version := mmlogVersion }
  | .storeChunkSize =>
      .sized { LogMetadata.zero with version := mmlogVersion, pageSize := logPageSize }
  | .storeReady => .sized { LogMetadata.created chunkSize with isReady := false }
  | _ => .sized { LogMetadata.created chunkSize with isReady := false, fileSize := 0 }

/-- What `files_create` has made of the data file at each point. -/
def CreatePc.DataAt (chunkSize : ℕ) (data : Option DataFile) : CreatePc → Prop
  | .ftruncateEmpty => data.isSome
  | .ftruncateChunk => ∃ f, data = some f ∧ f.len = 0
  | .storeFileSize => data = some (DataFile.created chunkSize)
  | .storeReady => data = some (DataFile.created chunkSize)
  | _ => True

/-- The files as `files_create` has built them up to a point. -/
structure CreateAt (chunkSize : ℕ) (pc : CreatePc) (f : Files) : Prop where
  metaFile : f.metaFile = pc.metaFile chunkSize
  data : pc.DataAt chunkSize f.data

theorem DataFile.ftruncate_of_len_zero {f : DataFile} (h : f.len = 0) (n : ℕ) :
    f.ftruncate n = DataFile.created n := by
  simp [DataFile.ftruncate, DataFile.created, h]

/-- One step of `files_create` builds on, publishes the finished log, or gives up and
leaves the files as they are. -/
def CreateStep (chunkSize : ℕ) (f f' : Files) : Next CreatePc Bool → Prop
  | .goto pc => CreateAt chunkSize pc f'
  | .done true => f' = Files.created chunkSize
  | .done false => f' = f

theorem filesCreate_spec {chunkSize : ℕ} {pc : CreatePc} {f : Files}
    (h : CreateAt chunkSize pc f) (errno : MmlogErr) (o : Outcome) :
    CreateStep chunkSize f (filesCreate chunkSize f errno o pc).1
      (filesCreate chunkSize f errno o pc).2.2 := by
  obtain ⟨metaFile, data⟩ := f
  obtain ⟨rfl : metaFile = pc.metaFile chunkSize, hdata⟩ := h
  cases pc with
  | ftruncateMeta => cases o <;> first | rfl | exact ⟨rfl, trivial⟩
  | mmap => cases o <;> first | rfl | exact ⟨rfl, trivial⟩
  | storeVersion => exact ⟨rfl, trivial⟩
  | storePageSize => exact ⟨rfl, trivial⟩
  | storeChunkSize => exact ⟨rfl, trivial⟩
  | openData => cases o <;> first | rfl | exact ⟨rfl, rfl⟩
  | ftruncateEmpty =>
      obtain ⟨d, rfl⟩ := Option.isSome_iff_exists.mp hdata
      cases o <;> first | rfl | exact ⟨rfl, _, rfl, rfl⟩
  | ftruncateChunk =>
      obtain ⟨d, rfl, hlen⟩ := hdata
      cases o with
      | succeed => exact ⟨rfl, congrArg some (DataFile.ftruncate_of_len_zero hlen chunkSize)⟩
      | fail => rfl
      | short n => rfl
  | storeFileSize => exact ⟨rfl, hdata⟩
  | storeReady =>
      obtain rfl : data = some (DataFile.created chunkSize) := hdata
      rfl

theorem CreateAt.isReady_eq_false {chunkSize : ℕ} {pc : CreatePc} {f : Files}
    (h : CreateAt chunkSize pc f) : f.isReady = false := by
  unfold Files.isReady
  rw [h.metaFile]
  cases pc <;> rfl

/-! ## What one step of a call can do -/

/-- Where `mmlog_open` goes on after a step of `files_create`. -/
def CreatePc.after : Next CreatePc Bool → OpenPc
  | .goto pc => .create pc
  | .done true => .storeHead
  | .done false => .returned false

/-- The steps of a call outside `files_create` leave the files alone, but for the one that
creates the metadata file and for the uses of a handle. -/
inductive OpenStep (f : Files) (c : Opener) : Files → Opener → Prop where
  | idle : OpenStep f c f c
  | quiet {c' : Opener} (hargs : c'.args = c.args) (hcreate : ¬ c'.Creating)
      (hpast : c'.pc.pastReady = true → c.pc.pastReady = true ∨ f.isReady = true)
      (hsize : ∀ n, c'.pc.size? = some n →
        c.pc.size? = some n ∨ ∃ m, f.metaFile = .sized m ∧ m.chunkSize = n) :
      OpenStep f c f c'
  | elected {c' : Opener} (hargs : c'.args = c.args) (habsent : f.metaFile = .absent)
      (hpc : c'.pc = .create .ftruncateMeta) :
      OpenStep f c { f with metaFile := .empty } c'
  | create {c' : Opener} {pc : CreatePc} (hargs : c'.args = c.args) (hpc : c.pc = .create pc)
      (errno : MmlogErr) (o : Outcome)
      (hpc' : c'.pc =
        CreatePc.after (filesCreate (u32 c.args.chunkSize) f errno o pc).2.2) :
      OpenStep f c (filesCreate (u32 c.args.chunkSize) f errno o pc).1 c'
  | use (u : HandleUse) (hpc : c.pc = .returned true) : OpenStep f c (f.use u) c

/-- A step to a point that is neither creating, nor past the wait, nor past the load. -/
theorem OpenStep.plain {f : Files} {c c' : Opener} (hargs : c'.args = c.args)
    (hcreate : ∀ pc, c'.pc ≠ .create pc) (hpast : c'.pc.pastReady = false)
    (hsize : c'.pc.size? = none) : OpenStep f c f c' := by
  apply OpenStep.quiet hargs (Opener.not_creating hcreate)
  · simp [hpast]
  · simp [hsize]

theorem MetaFile.metadata?_eq_some {x : MetaFile} {m : LogMetadata}
    (h : x.metadata? = some m) : x = .sized m := by
  cases x with
  | sized m' =>
      cases h
      rfl
  | absent => cases h
  | empty => cases h

/-- Outside its two loads `files_open` carries on with the size it has, and gets past the
wait only through a load of the ready flag. -/
def FilesOpenStep (f : Files) (pc : FilesOpenPc) : Next FilesOpenPc Bool → Prop
  | .goto pc' =>
      ((OpenPc.filesOpen pc').pastReady = true →
        (OpenPc.filesOpen pc).pastReady = true ∨ f.isReady = true) ∧
      ∀ n, (OpenPc.filesOpen pc').size? = some n →
        (OpenPc.filesOpen pc).size? = some n ∨ ∃ m, f.metaFile = .sized m ∧ m.chunkSize = n
  | .done true => (OpenPc.filesOpen pc).pastReady = true
  | .done false => True

theorem filesOpen_spec (f : Files) (errno : MmlogErr) (o : Outcome) (pc : FilesOpenPc) :
    FilesOpenStep f pc (filesOpen f errno o pc).2 := by
  cases pc with
  | metaReady pc =>
      simp only [filesOpen]
      split
      · exact ⟨nofun, nofun⟩
      · exact ⟨nofun, nofun⟩
      · trivial
  | mmap => cases o <;> exact ⟨nofun, nofun⟩
  | loadChunkSize =>
      simp only [filesOpen]
      split
      · rename_i m hm
        refine ⟨nofun, ?_⟩
        intro n hn
        cases hn
        exact .inr ⟨m, MetaFile.metadata?_eq_some hm, rfl⟩
      · exact ⟨nofun, nofun⟩
  | loadReady size =>
      simp only [filesOpen]
      split
      · rename_i m hm
        split
        · rename_i hready
          have hf : f.isReady = true := by
            rw [Files.isReady, MetaFile.metadata?_eq_some hm]
            exact hready
          exact ⟨fun _ => .inr hf, fun _ => .inl⟩
        · exact ⟨nofun, fun _ => .inl⟩
      · exact ⟨nofun, nofun⟩
  | waitReady size =>
      cases o with
      | succeed => exact ⟨nofun, fun _ => .inl⟩
      | fail => trivial
      | short n => trivial
  | loadVersion size =>
      simp only [filesOpen]
      split
      · split
        · trivial
        · exact ⟨.inl, fun _ => .inl⟩
      · exact ⟨nofun, nofun⟩
  | dataReady size pc =>
      simp only [filesOpen]
      split
      · exact ⟨.inl, fun _ => .inl⟩
      · rfl
      · trivial
  | crashed => exact ⟨nofun, nofun⟩

theorem openerStep_spec (filename : Option String) (f : Files) (c : Opener)
    (choice : OpenChoice) :
    OpenStep f c (openerStep filename f c choice).1 (openerStep filename f c choice).2 := by
  obtain ⟨args, pc, errno⟩ := c
  cases choice with
  | use u =>
      simp only [openerStep]
      split
      · rename_i hpc
        exact .use u hpc
      · exact .idle
  | answer o =>
      cases pc with
      | checkArgs =>
          simp only [openerStep, mmlogOpen]
          split <;> exact .plain rfl nofun rfl rfl
      | callocHandle => cases o <;> exact .plain rfl nofun rfl rfl
      | callocBuffer =>
          cases o with
          | succeed =>
              simp only [openerStep, mmlogOpen, Opener.filesOpenOrCreate]
              split <;> exact .plain rfl nofun rfl rfl
          | fail => exact .plain rfl nofun rfl rfl
          | short n => exact .plain rfl nofun rfl rfl
      | malloc => cases o <;> exact .plain rfl nofun rfl rfl
      | snprintf => cases o <;> exact .plain rfl nofun rfl rfl
      | openExclusive =>
          simp only [openerStep, mmlogOpen]
          split
          · rename_i h
            exact .elected rfl h.2 rfl
          · exact .plain rfl nofun rfl rfl
      | create pc =>
          have hpc' : (openerStep filename f ⟨args, .create pc, errno⟩ (.answer o)).2.pc =
              CreatePc.after (filesCreate (u32 args.chunkSize) f errno o pc).2.2 := by
            simp only [openerStep, mmlogOpen]
            split
            all_goals
              rename_i hnext
              rw [hnext]
              rfl
          have hargs : (openerStep filename f ⟨args, .create pc, errno⟩ (.answer o)).2.args =
              args := by
            simp only [openerStep, mmlogOpen]
            split <;> rfl
          exact .create hargs rfl errno o hpc'
      | filesOpen pc =>
          have hspec := filesOpen_spec f errno o pc
          simp only [openerStep, mmlogOpen]
          split
          · rename_i pc' hnext
            rw [hnext] at hspec
            exact .quiet rfl (Opener.not_creating nofun) hspec.1 hspec.2
          · rename_i hnext
            rw [hnext] at hspec
            exact .quiet rfl (Opener.not_creating nofun) (fun _ => .inl hspec) nofun
          · exact .plain rfl nofun rfl rfl
      | storeHead => exact .quiet rfl (Opener.not_creating nofun) (fun _ => .inl rfl) nofun
      | returned handle => exact .idle

/-! ## Once a creator is elected -/

/-- The files in the hands of the one creator, whose chunk size is `cs`: what an early
reader may find in `chunk_size`, and what holds once the log is ready. -/
structure FilesOf (cs : ℕ) (f : Files) : Prop where
  present : f.metaFile ≠ .absent
  chunkSize : ∀ m, f.metaFile = .sized m → m.chunkSize = 0 ∨ m.chunkSize = cs
  ready : ∀ m, f.metaFile = .sized m → m.isReady = true →
    m.version = mmlogVersion ∧ m.chunkSize = cs

theorem CreateAt.filesOf {cs : ℕ} {pc : CreatePc} {f : Files} (h : CreateAt cs pc f) :
    FilesOf cs f := by
  have hready := h.isReady_eq_false
  have hmeta := h.metaFile
  constructor
  · rw [hmeta]
    cases pc <;> nofun
  · intro m hm
    rw [hmeta] at hm
    cases pc with
    | ftruncateMeta => cases hm
    | mmap => cases hm; exact .inl rfl
    | storeVersion => cases hm; exact .inl rfl
    | storePageSize => cases hm; exact .inl rfl
    | storeChunkSize => cases hm; exact .inl rfl
    | openData => cases hm; exact .inr rfl
    | ftruncateEmpty => cases hm; exact .inr rfl
    | ftruncateChunk => cases hm; exact .inr rfl
    | storeFileSize => cases hm; exact .inr rfl
    | storeReady => cases hm; exact .inr rfl
  · intro m hm hr
    simp [Files.isReady, hm, hr] at hready

theorem filesOf_created (cs : ℕ) : FilesOf cs (Files.created cs) where
  present := nofun
  chunkSize := by
    intro m hm
    cases hm
    exact .inr rfl
  ready := by
    intro m hm _
    cases hm
    exact ⟨rfl, rfl⟩

theorem FilesOf.use {cs : ℕ} {f : Files} (h : FilesOf cs f) (u : HandleUse) :
    FilesOf cs (f.use u) ∧ (f.use u).isReady = f.isReady := by
  obtain ⟨metaFile, data⟩ := f
  cases metaFile with
  | absent => exact absurd rfl h.present
  | empty => exact ⟨⟨nofun, nofun, nofun⟩, rfl⟩
  | sized m =>
      refine ⟨⟨nofun, ?_, ?_⟩, rfl⟩
      · intro m' hm'
        cases hm'
        exact h.chunkSize m rfl
      · intro m' hm' hr
        cases hm'
        exact h.ready m rfl hr

/-- What a call knows at its program point. -/
structure OpenerAt (cs : ℕ) (f : Files) (c : Opener) : Prop where
  past : c.pc.pastReady = true → f.isReady = true
  size : ∀ n, c.pc.size? = some n → n = 0 ∨ n = cs

theorem OpenerAt.mono {cs : ℕ} {f f' : Files} {c : Opener} (h : OpenerAt cs f c)
    (hready : f.isReady = true → f'.isReady = true) : OpenerAt cs f' c :=
  ⟨fun hp => hready (h.past hp), h.size⟩

theorem OpenerAt.of_plain {cs : ℕ} {f : Files} {c : Opener} (hpast : c.pc.pastReady = false)
    (hsize : c.pc.size? = none) : OpenerAt cs f c := by
  constructor
  · simp [hpast]
  · simp [hsize]

/-- A step of a call after the election: nothing that the others rely on is undone, and
only the creator goes on creating. -/
structure OwnedMove (cs : ℕ) (f : Files) (c : Opener) (f' : Files) (c' : Opener) :
    Prop where
  args : c'.args = c.args
  files : FilesOf cs f'
  ready : f.isReady = true → f'.isReady = true
  building : ∀ pc, c'.pc = .create pc → c.Creating ∧ CreateAt cs pc f'
  frame : ¬ c.Creating → f' = f ∨ f.isReady = true
  point : OpenerAt cs f' c'

theorem CreateStep.owned {cs : ℕ} {f f' : Files} {c c' : Opener} {pc : CreatePc}
    {next : Next CreatePc Bool} (h : CreateStep cs f f' next) (hat : CreateAt cs pc f)
    (hargs : c'.args = c.args) (hpc : c.pc = .create pc)
    (hpc' : c'.pc = CreatePc.after next) : OwnedMove cs f c f' c' := by
  have hcreating : c.Creating := ⟨pc, hpc⟩
  have hmono : f.isReady = true → f'.isReady = true := by simp [hat.isReady_eq_false]
  have hframe : ¬ c.Creating → f' = f ∨ f.isReady = true := fun hno => (hno hcreating).elim
  cases next with
  | goto pc' =>
      have hat' : CreateAt cs pc' f' := h
      refine ⟨hargs, hat'.filesOf, hmono, ?_, hframe,
        .of_plain (by rw [hpc']; rfl) (by rw [hpc']; rfl)⟩
      intro pc'' hpc''
      cases hpc'.symm.trans hpc''
      exact ⟨hcreating, hat'⟩
  | done b =>
      cases b with
      | true =>
          obtain rfl : f' = Files.created cs := h
          refine ⟨hargs, filesOf_created cs, hmono, ?_, hframe, fun _ => rfl, ?_⟩
          · intro pc' hpc''
            cases hpc'.symm.trans hpc''
          · intro n hn
            rw [hpc'] at hn
            cases hn
      | false =>
          obtain rfl : f' = f := h
          refine ⟨hargs, hat.filesOf, hmono, ?_, hframe,
            .of_plain (by rw [hpc']; rfl) (by rw [hpc']; rfl)⟩
          intro pc' hpc''
          cases hpc'.symm.trans hpc''

theorem OpenStep.owned {cs : ℕ} {f f' : Files} {c c' : Opener} (h : OpenStep f c f' c')
    (hfiles : FilesOf cs f) (hpoint : OpenerAt cs f c)
    (hcreate : ∀ pc, c.pc = .create pc → u32 c.args.chunkSize = cs ∧ CreateAt cs pc f) :
    OwnedMove cs f c f' c' := by
  cases h with
  | idle =>
      exact ⟨rfl, hfiles, id, fun pc hpc => ⟨⟨pc, hpc⟩, (hcreate pc hpc).2⟩, fun _ => .inl rfl,
        hpoint⟩
  | quiet hargs hnot hpast hsize =>
      refine ⟨hargs, hfiles, id, fun pc hpc => (hnot ⟨pc, hpc⟩).elim, fun _ => .inl rfl, ?_, ?_⟩
      · intro hp
        exact (hpast hp).elim hpoint.past id
      · intro n hn
        obtain hn | ⟨m, hm, rfl⟩ := hsize n hn
        · exact hpoint.size n hn
        · exact hfiles.chunkSize m hm
  | elected _ habsent _ => exact (hfiles.present habsent).elim
  | @create _ pc hargs hpc errno o hpc' =>
      obtain ⟨rfl, hat⟩ := hcreate pc hpc
      exact (filesCreate_spec hat errno o).owned hat hargs hpc hpc'
  | use u hpc =>
      have hready := hpoint.past (by rw [hpc]; rfl)
      obtain ⟨hfiles', hsame⟩ := hfiles.use u
      refine ⟨rfl, hfiles', fun _ => hsame.trans hready, ?_, fun _ => .inr hready,
        hpoint.mono fun _ => hsame.trans hready⟩
      intro pc hpc'
      cases hpc.symm.trans hpc'

/-- The invariant from the election of call `c` on. -/
structure Owned (c cs : ℕ) (s : Sys Files Opener) : Prop where
  files : FilesOf cs s.shared
  only : ∀ t, (s.thread t).Creating → t = c
  args : u32 (s.thread c).args.chunkSize = cs
  building : ∀ pc, (s.thread c).pc = .create pc → CreateAt cs pc s.shared
  point : ∀ t, OpenerAt cs s.shared (s.thread t)

theorem Owned.move {c cs : ℕ} {s : Sys Files Opener} (h : Owned c cs s)
    (filename : Option String) (t : ℕ) (choice : OpenChoice) :
    OwnedMove cs s.shared (s.thread t) (step (openerStep filename) s t choice).shared
      ((step (openerStep filename) s t choice).thread t) := by
  rw [step_shared, step_thread_self]
  apply (openerStep_spec filename s.shared (s.thread t) choice).owned h.files (h.point t)
  intro pc hpc
  obtain rfl := h.only t ⟨pc, hpc⟩
  exact ⟨h.args, h.building pc hpc⟩

/-- While the creator is at work the log is not ready. -/
theorem Owned.not_creating {c cs : ℕ} {s : Sys Files Opener} (h : Owned c cs s)
    (hready : s.shared.isReady = true) (t : ℕ) : ¬ (s.thread t).Creating := by
  rintro ⟨pc, hpc⟩
  obtain rfl := h.only t ⟨pc, hpc⟩
  simp [(h.building pc hpc).isReady_eq_false] at hready

theorem Owned.step {c cs : ℕ} {filename : Option String} (s : Sys Files Opener) (t : ℕ)
    (choice : OpenChoice) (h : Owned c cs s) :
    Owned c cs (step (openerStep filename) s t choice) := by
  have hmove := h.move filename t choice
  have hother : ∀ u, u ≠ t → (Interleaving.step (openerStep filename) s t choice).thread u =
      s.thread u := fun u hu => step_thread_of_ne _ s choice hu
  refine ⟨hmove.files, ?_, ?_, ?_, ?_⟩
  · intro u hu
    by_cases hut : u = t
    · subst hut
      obtain ⟨pc, hpc⟩ := hu
      exact h.only u (hmove.building pc hpc).1
    · rw [hother u hut] at hu
      exact h.only u hu
  · by_cases hct : c = t
    · subst hct
      rw [hmove.args]
      exact h.args
    · rw [hother c hct]
      exact h.args
  · intro pc hpc
    by_cases hct : c = t
    · subst hct
      exact (hmove.building pc hpc).2
    · rw [hother c hct] at hpc
      -- another call moves while the creator is at work, so it leaves the files alone
      have hnot : ¬ (s.thread t).Creating := fun ht => hct (h.only t ht).symm
      obtain hsame | hready := hmove.frame hnot
      · rw [hsame]
        exact h.building pc hpc
      · exact (h.not_creating hready c ⟨pc, hpc⟩).elim
  · apply step_forall
    · rw [← step_shared, ← step_thread_self]
      exact hmove.point
    · intro u _
      exact (h.point u).mono hmove.ready

/-! ## Before the election -/

/-- The call has got no further than looking for the metadata file. -/
structure Opener.Early (c : Opener) : Prop where
  creating : ¬ c.Creating
  past : c.pc.pastReady = false
  size : c.pc.size? = none

/-- There is no metadata file. -/
structure Unclaimed (s : Sys Files Opener) : Prop where
  absent : s.shared.metaFile = .absent
  early : ∀ t, (s.thread t).Early

theorem unclaimed_unopened (calls : ℕ → OpenArgs) (data : Option DataFile) :
    Unclaimed (unopened calls data) :=
  ⟨rfl, fun _ => ⟨Opener.not_creating nofun, rfl, rfl⟩⟩

theorem Unclaimed.keep {s s' : Sys Files Opener} {t : ℕ} (h : Unclaimed s)
    (hshared : s'.shared = s.shared) (hearly : (s'.thread t).Early)
    (hother : ∀ u, u ≠ t → s'.thread u = s.thread u) : Unclaimed s' := by
  refine ⟨by rw [hshared, h.absent], fun u => ?_⟩
  by_cases hut : u = t
  · rw [hut]
    exact hearly
  · rw [hother u hut]
    exact h.early u

/-- The call that creates the metadata file is the creator from then on. -/
theorem Unclaimed.elect {s s' : Sys Files Opener} {t : ℕ} (h : Unclaimed s)
    (hshared : s'.shared = { s.shared with metaFile := .empty })
    (hpc : (s'.thread t).pc = .create .ftruncateMeta)
    (hother : ∀ u, u ≠ t → s'.thread u = s.thread u) :
    Owned t (u32 (s'.thread t).args.chunkSize) s' := by
  have hat : CreateAt (u32 (s'.thread t).args.chunkSize) .ftruncateMeta s'.shared :=
    ⟨by rw [hshared]; rfl, trivial⟩
  refine ⟨hat.filesOf, ?_, rfl, ?_, ?_⟩
  · intro u hu
    by_contra hut
    rw [hother u hut] at hu
    exact (h.early u).creating hu
  · intro pc hpc'
    cases hpc.symm.trans hpc'
    exact hat
  · intro u
    by_cases hut : u = t
    · subst hut
      exact .of_plain (by rw [hpc]; rfl) (by rw [hpc]; rfl)
    · rw [hother u hut]
      exact .of_plain (h.early u).past (h.early u).size

theorem Unclaimed.step {filename : Option String} {s : Sys Files Opener} (h : Unclaimed s)
    (t : ℕ) (choice : OpenChoice) :
    Unclaimed (step (openerStep filename) s t choice) ∨
      ((step (openerStep filename) s t choice).thread t).Creating ∧
        Owned t (u32 ((step (openerStep filename) s t choice).thread t).args.chunkSize)
          (step (openerStep filename) s t choice) := by
  have hspec := openerStep_spec filename s.shared (s.thread t) choice
  have hother : ∀ u, u ≠ t → (Interleaving.step (openerStep filename) s t choice).thread u =
      s.thread u := fun u hu => step_thread_of_ne _ s choice hu
  rw [← step_shared, ← step_thread_self] at hspec
  generalize Interleaving.step (openerStep filename) s t choice = s' at hspec hother ⊢
  generalize hf : s'.shared = f at hspec
  generalize hc : s'.thread t = c at hspec ⊢
  cases hspec with
  | idle => exact .inl (h.keep hf (by rw [hc]; exact h.early t) hother)
  | quiet hargs hnot hpast hsize =>
      have hready : s.shared.isReady = false := by simp [Files.isReady, h.absent]
      refine .inl (h.keep hf ?_ hother)
      rw [hc]
      refine ⟨hnot, ?_, ?_⟩
      · simpa [(h.early t).past, hready] using hpast
      · simpa [(h.early t).size, h.absent, Option.eq_none_iff_forall_ne_some] using hsize
  | elected hargs habsent hpc =>
      subst hc
      exact .inr ⟨⟨_, hpc⟩, h.elect hf hpc hother⟩
  | create hargs hpc errno o hpc' => exact ((h.early t).creating ⟨_, hpc⟩).elim
  | use u hpc =>
      have hpast := (h.early t).past
      rw [hpc] at hpast
      cases hpast

/-! ## Whole runs -/

theorem OpenStep.args {f f' : Files} {c c' : Opener} (h : OpenStep f c f' c') :
    c'.args = c.args := by
  cases h with
  | idle => rfl
  | quiet hargs => exact hargs
  | elected hargs => exact hargs
  | create hargs => exact hargs
  | use u hpc => rfl

section
variable (filename : Option String) (calls : ℕ → OpenArgs) (data : Option DataFile)

theorem opened_args (sched : List (ℕ × OpenChoice)) (t : ℕ) :
    ((opened filename calls data sched).thread t).args = calls t := by
  refine run_invariant (openerStep filename) (P := fun s => ∀ u, (s.thread u).args = calls u)
    ?_ sched (fun _ => rfl) t
  intro s u choice h v
  by_cases hvu : v = u
  · rw [hvu, step_thread_self, (openerStep_spec filename s.shared (s.thread u) choice).args, h u]
  · rw [step_thread_of_ne _ s choice hvu, h v]

theorem opened_append (front back : List (ℕ × OpenChoice)) :
    opened filename calls data (front ++ back) =
      run (openerStep filename) (opened filename calls data front) back :=
  run_append _ _ _ _

/-- Either no call has created the metadata file, or one has run `files_create` at some
point before and owns the files since. -/
theorem opened_phases (sched : List (ℕ × OpenChoice)) :
    Unclaimed (opened filename calls data sched) ∨
      ∃ c before after, sched = before ++ after ∧
        ((opened filename calls data before).thread c).Creating ∧
        Owned c (u32 (calls c).chunkSize) (opened filename calls data sched) := by
  obtain h | ⟨front, c, choice, back, rfl, hfront, hexit⟩ :=
    run_first_exit (openerStep filename) Unclaimed sched (unclaimed_unopened calls data)
  · exact .inl h
  · obtain hstay | ⟨hcreating, howned⟩ := hfront.step c choice
    · exact (hexit hstay).elim
    · have hstep : step (openerStep filename)
          (run (openerStep filename) (unopened calls data) front) c choice =
          opened filename calls data (front ++ [(c, choice)]) := by
        rw [opened_append]
        rfl
      rw [hstep] at hcreating howned
      rw [opened_args] at howned
      refine .inr ⟨c, front ++ [(c, choice)], back, by simp, hcreating, ?_⟩
      have hrun := run_invariant (openerStep filename) Owned.step back howned
      rwa [← opened_append, List.append_assoc] at hrun

/-- A call that creates, or that is past the wait, tells that the files have an owner. -/
theorem opened_owned {sched : List (ℕ × OpenChoice)} {t : ℕ}
    (h : ¬ ((opened filename calls data sched).thread t).Early) :
    ∃ c before after, sched = before ++ after ∧
      ((opened filename calls data before).thread c).Creating ∧
      Owned c (u32 (calls c).chunkSize) (opened filename calls data sched) := by
  obtain hnone | howned := opened_phases filename calls data sched
  · exact (h (hnone.early t)).elim
  · exact howned

theorem owned_append {c cs : ℕ} {front : List (ℕ × OpenChoice)}
    (h : Owned c cs (opened filename calls data front)) (back : List (ℕ × OpenChoice)) :
    Owned c cs (opened filename calls data (front ++ back)) := by
  rw [opened_append]
  exact run_invariant (openerStep filename) Owned.step back h

/-- A log that is ready stays ready. -/
theorem ready_append {c cs : ℕ} {front : List (ℕ × OpenChoice)}
    (h : Owned c cs (opened filename calls data front))
    (hready : (opened filename calls data front).shared.isReady = true)
    (back : List (ℕ × OpenChoice)) :
    (opened filename calls data (front ++ back)).shared.isReady = true := by
  rw [opened_append]
  have hrun := run_invariant (openerStep filename)
    (P := fun s => Owned c cs s ∧ s.shared.isReady = true) ?_ back ⟨h, hready⟩
  · exact hrun.2
  · intro s t choice ⟨hs, hr⟩
    exact ⟨hs.step s t choice, (hs.move filename t choice).ready hr⟩

end

/-- Outside `files_create` no step of `mmlog_open` touches the data file. -/
theorem mmlogOpen_data {filename : Option String} {f : Files} {c : Opener} {o : Outcome}
    (h : ¬ c.Creating) : (mmlogOpen filename f c o).1.data = f.data := by
  obtain ⟨args, pc, errno⟩ := c
  cases pc with
  | checkArgs =>
      simp only [mmlogOpen]
      split <;> rfl
  | callocHandle => cases o <;> rfl
  | callocBuffer => cases o <;> rfl
  | malloc => cases o <;> rfl
  | snprintf => cases o <;> rfl
  | openExclusive =>
      simp only [mmlogOpen]
      split <;> rfl
  | create pc => exact (h ⟨pc, rfl⟩).elim
  | filesOpen pc => rfl
  | storeHead => rfl
  | returned handle => rfl

theorem Files.isReady_iff {f : Files} :
    f.isReady = true ↔ ∃ m, f.metaFile = .sized m ∧ m.isReady = true := by
  unfold Files.isReady
  split
  · rename_i m hm
    simp [hm]
  · rename_i hm
    constructor
    · nofun
    · rintro ⟨m, h, -⟩
      exact (hm m h).elim

/-- Of any number of calls of `mmlog_open` on one path, at most one is ever inside
`files_create`. While a call holds a handle, the metadata is ready, of the current version
and with the chunk size that the one creator stored; and after a call has returned a
handle, no call is about to truncate the data file, nor does any step of `mmlog_open`
change it. -/
theorem open_agreement (filename : Option String) (calls : ℕ → OpenArgs)
    (data : Option DataFile) (front back : List (ℕ × OpenChoice)) (t u : ℕ) :
    (((opened filename calls data front).thread t).Creating →
      ((opened filename calls data (front ++ back)).thread u).Creating → t = u) ∧
    (((opened filename calls data front).thread t).pc = .returned true →
      (∃ c before after m, front = before ++ after ∧
        ((opened filename calls data before).thread c).Creating ∧
        (opened filename calls data front).shared.metaFile = .sized m ∧
        m.isReady = true ∧ m.version = mmlogVersion ∧
        m.chunkSize = u32 (calls c).chunkSize) ∧
      ¬ ((opened filename calls data (front ++ back)).thread u).TruncatesData ∧
      ∀ o, (step (openerStep filename) (opened filename calls data (front ++ back)) u
          (.answer o)).shared.data =
        (opened filename calls data (front ++ back)).shared.data) := by
  constructor
  · intro ht hu
    obtain ⟨c, -, -, -, -, howned⟩ := opened_owned filename calls data fun he => he.creating ht
    have hc : t = c := howned.only t ht
    have hc' : u = c := (owned_append filename calls data howned back).only u hu
    rw [hc, hc']
  · intro ht
    have hpast : ((opened filename calls data front).thread t).pc.pastReady = true := by
      rw [ht]
      rfl
    have hlate : ¬ ((opened filename calls data front).thread t).Early := by
      intro hearly
      simp [hearly.past] at hpast
    obtain ⟨c, before, after, hsplit, hcreating, howned⟩ :=
      opened_owned filename calls data hlate
    have hready : (opened filename calls data front).shared.isReady = true :=
      (howned.point t).past hpast
    have hnone : ¬ ((opened filename calls data (front ++ back)).thread u).Creating :=
      (owned_append filename calls data howned back).not_creating
        (ready_append filename calls data howned hready back) u
    obtain ⟨m, hm, hmready⟩ := Files.isReady_iff.mp hready
    obtain ⟨hversion, hchunk⟩ := howned.files.ready m hm hmready
    refine ⟨⟨c, before, after, m, hsplit, hcreating, hm, hmready, hversion, hchunk⟩, ?_, ?_⟩
    · intro htrunc
      exact hnone htrunc.creating
    · intro o
      exact mmlogOpen_data hnone

/-- Two processes with different chunk sizes: the second maps the metadata and loads its
size while the file is still all zero. -/
def raceCalls (t : ℕ) : OpenArgs := if t = 0 then ⟨8192, 2⟩ else ⟨4096, 3⟩

def raceSchedule : List (ℕ × OpenChoice) :=
  List.replicate 7 (0, .answer .succeed) ++ List.replicate 11 (1, .answer .succeed) ++
    List.replicate 10 (0, .answer .succeed) ++ List.replicate 6 (1, .answer .succeed)

theorem open_agreement_two_processes :
    ((opened (some "log") raceCalls none raceSchedule).thread 1).pc = .returned true ∧
      (∃ c before after m, raceSchedule = before ++ after ∧
        ((opened (some "log") raceCalls none before).thread c).Creating ∧
        (opened (some "log") raceCalls none raceSchedule).shared.metaFile = .sized m ∧
        m.isReady = true ∧ m.version = mmlogVersion ∧
        m.chunkSize = u32 (raceCalls c).chunkSize) ∧
      ¬ ((opened (some "log") raceCalls none (raceSchedule ++ [])).thread 0).TruncatesData := by
  have hreturned : ((opened (some "log") raceCalls none raceSchedule).thread 1).pc =
      .returned true := by decide
  obtain ⟨hseen, htrunc, -⟩ :=
    (open_agreement (some "log") raceCalls none raceSchedule [] 1 0).2 hreturned
  exact ⟨hreturned, hseen, htrunc⟩

/-! ## The size an opener checks for -/

/-- `files_open` loads `chunk_size` before it knows the log to be ready, and so may check
the data file against zero, but never against a size that the creator did not store. -/
theorem opened_size (filename : Option String) (calls : ℕ → OpenArgs)
    (data : Option DataFile) (sched : List (ℕ × OpenChoice)) {t n : ℕ}
    (h : ((opened filename calls data sched).thread t).pc.size? = some n) :
    ∃ c before after, sched = before ++ after ∧
      ((opened filename calls data before).thread c).Creating ∧
      (n = 0 ∨ n = u32 (calls c).chunkSize) := by
  have hlate : ¬ ((opened filename calls data sched).thread t).Early := by
    intro hearly
    simp [hearly.size] at h
  obtain ⟨c, before, after, hsplit, hcreating, howned⟩ := opened_owned filename calls data hlate
  exact ⟨c, before, after, hsplit, hcreating, (howned.point t).size n h⟩

example : ((opened (some "log") raceCalls none (raceSchedule.take 18)).thread 1).pc =
    .filesOpen (.waitReady 0) := by
  decide

/-- An opener that has loaded the size before it was stored. -/
theorem opened_size_early : ∃ c before after, raceSchedule.take 18 = before ++ after ∧
    ((opened (some "log") raceCalls none before).thread c).Creating ∧
      (0 = 0 ∨ 0 = u32 (raceCalls c).chunkSize) :=
  opened_size (some "log") raceCalls none (raceSchedule.take 18) (t := 1) (by decide)

/-! ## The log that the other operations start from -/

/-- What the argument checks have established at each point. -/
def OpenPc.Checked (args : OpenArgs) : OpenPc → Prop
  | .checkArgs => True
  | .returned false => True
  | .callocHandle =>
      args.chunkSize % logPageSize = 0 ∧ args.chunkSize ≠ 0 ∧ 2 ≤ args.chunkCount
  | .callocBuffer =>
      args.chunkSize % logPageSize = 0 ∧ args.chunkSize ≠ 0 ∧ 2 ≤ args.chunkCount
  | _ => openArgsError args.chunkSize args.chunkCount = none

theorem mmlogOpen_checked {filename : Option String} {f : Files} {c : Opener} {o : Outcome}
    (h : c.pc.Checked c.args) :
    (mmlogOpen filename f c o).2.pc.Checked (mmlogOpen filename f c o).2.args := by
  obtain ⟨args, pc, errno⟩ := c
  cases pc with
  | checkArgs =>
      simp only [mmlogOpen]
      split
      · trivial
      · rename_i hargs
        simp only [not_or, not_lt, ne_eq, not_not] at hargs
        exact hargs
  | callocHandle => cases o <;> first | exact h | trivial
  | callocBuffer =>
      cases o with
      | succeed =>
          simp only [mmlogOpen, Opener.filesOpenOrCreate]
          split
          · trivial
          · rename_i hargs
            have hnarrow : openArgsError args.chunkSize args.chunkCount = none := by
              obtain ⟨hpages, hpos, hcount⟩ :
                  args.chunkSize % logPageSize = 0 ∧ args.chunkSize ≠ 0 ∧
                    2 ≤ args.chunkCount := h
              simp only [not_or, ne_eq, not_not] at hargs
              rw [openArgsError, if_neg (by omega), if_neg (by omega)]
            exact hnarrow
      | fail => trivial
      | short n => trivial
  | malloc => cases o <;> first | exact h | trivial
  | snprintf => cases o <;> first | exact h | trivial
  | openExclusive =>
      simp only [mmlogOpen]
      split <;> exact h
  | create pc =>
      simp only [mmlogOpen]
      split <;> first | exact h | trivial
  | filesOpen pc =>
      simp only [mmlogOpen]
      split <;> first | exact h | trivial
  | storeHead => exact h
  | returned handle => exact h

theorem opened_checked (filename : Option String) (calls : ℕ → OpenArgs)
    (data : Option DataFile) (sched : List (ℕ × OpenChoice)) (t : ℕ) :
    ((opened filename calls data sched).thread t).pc.Checked (calls t) := by
  rw [← opened_args filename calls data sched t]
  have hinit : ∀ u, ((unopened calls data).thread u).pc.Checked
      ((unopened calls data).thread u).args := fun _ => trivial
  refine run_invariant (openerStep filename)
    (P := fun s => ∀ u, (s.thread u).pc.Checked (s.thread u).args) ?_ sched hinit t
  intro s u choice h
  refine step_forall (openerStep filename) (A := fun _ c => c.pc.Checked c.args) ?_
    fun v _ => h v
  cases choice with
  | answer o => exact mmlogOpen_checked (h u)
  | use x =>
      simp only [openerStep]
      split <;> exact h u

/-- Whatever a thread does with a handle is a use in the sense of the steps above. -/
theorem threadStep_use (s : Log) (th : Thread) (o : Outcome) :
    ∃ u, Files.use ⟨.sized s.metadata, some s.file⟩ u =
      ⟨.sized (threadStep s th o).1.metadata, some (threadStep s th o).1.file⟩ := by
  have hframe : (threadStep s th o).1.metadata =
      { s.metadata with
        isLocked := (threadStep s th o).1.metadata.isLocked
        isPanicked := (threadStep s th o).1.metadata.isPanicked
        fileSize := (threadStep s th o).1.metadata.fileSize
        cursor := (threadStep s th o).1.metadata.cursor } := by
    cases hpc : th.pc.expand? with
    | none => rw [(threadStep_outside hpc).1]
    | some p => rw [(threadStep_expand hpc).1, dataFileExpand_frame]
  generalize (threadStep s th o).1 = s' at hframe ⊢
  refine ⟨⟨s'.metadata.isLocked, s'.metadata.isPanicked, s'.metadata.fileSize,
    s'.metadata.cursor, s'.file⟩, ?_⟩
  rw [hframe]
  rfl

end SystemsExperiments.Mmlog
