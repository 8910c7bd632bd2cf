import SystemsExperiments.Model.SmapsSpy.App
import SystemsExperiments.Verification.SmapsSpy.Histogram
import SystemsExperiments.Verification.SmapsSpy.ParseFile

/-! # The selected rows

The two tables share a selection, and the details have an index of their own. What a key or a
reload does to the two is said once; that both stay in range follows for every run. -/

namespace SystemsExperiments.SmapsSpy

variable {filePath : List Char}

/-! ## Loaded statistics -/

theorem histogram_buildHistogram (stats : MemoryStats) :
    stats.buildHistogram.histogram = entryOf stats.buildHistogram.mappings := by
  rw [buildHistogram_eq]

theorem histogram_of_parseMapsFile {fs : FileSystem} {stats : MemoryStats}
    (h : parseMapsFile fs filePath = .ok stats) : stats.histogram = entryOf stats.mappings := by
  obtain ⟨reader, -, h⟩ := exists_of_bind_eq_ok h
  obtain ⟨mappings, -, h⟩ := exists_of_bind_eq_ok h
  cases h
  exact histogram_buildHistogram _

theorem histogram_of_parseSmapsFile {fs : FileSystem} {stats : MemoryStats}
    (h : parseSmapsFile fs filePath = .ok stats) : stats.histogram = entryOf stats.mappings := by
  obtain ⟨reader, -, h⟩ := exists_of_bind_eq_ok h
  obtain ⟨st, -, h⟩ := exists_of_bind_eq_ok h
  cases h
  exact histogram_buildHistogram _

/-- The statistics of a file have the histogram of their mappings. -/
theorem histogram_of_parseFile {fs : FileSystem} {stats : MemoryStats}
    (h : parseFile fs filePath = .ok stats) : stats.histogram = entryOf stats.mappings := by
  rw [parseFile_eq] at h
  obtain ⟨type, -, h⟩ := exists_of_bind_eq_ok h
  obtain ⟨parsed, hparsed, h⟩ := exists_of_bind_eq_ok h
  cases h
  rw [histogram_withProcess, mappings_withProcess]
  cases type with
  | maps => exact histogram_of_parseMapsFile hparsed
  | smaps => exact histogram_of_parseSmapsFile hparsed

theorem Iteration.length_le_of_eq {histogram : HistogramKey → Option HistogramEntry}
    (it : Iteration histogram) {ms : List MemoryMapping} (h : histogram = entryOf ms) :
    it.rows.length ≤ ms.length := by
  subst h
  exact it.length_le

theorem LoadedStats.length_rows_le (loaded : LoadedStats filePath) :
    loaded.order.rows.length ≤ loaded.stats.mappings.length := by
  obtain ⟨fs, hparsed⟩ := loaded.parsed
  exact loaded.order.length_le_of_eq (histogram_of_parseFile hparsed)

theorem AppState.tableLength_le (app : AppState filePath) (loaded : LoadedStats filePath) :
    app.tableLength loaded ≤ loaded.stats.mappings.length := by
  rw [AppState.tableLength]
  split
  · exact loaded.length_rows_le
  · exact le_refl _

/-! ## What a move does -/

/-- The view has a table. -/
def AppState.HasTable (app : AppState filePath) : Prop :=
  app.viewMode = .histogram ∨ app.viewMode = .mappings

instance (app : AppState filePath) : Decidable app.HasTable := inferInstanceAs (Decidable (_ ∨ _))

/-- The key opens the table of the mappings, or goes back to its top. -/
def OpensMappings (app : AppState filePath) (key : KeyCode) : Prop :=
  key = .char '2' ∨ (key = .tab ∧ app.viewMode = .histogram)

/-- An index of a list of this length, unless that is empty. -/
def IsIndex (i : Option ℕ) (length : ℕ) : Prop := 0 < length → ∃ row < length, i = some row

/-- What a key or a reload does to the data, the view and the two indices; `opens` says that
it opens the table of the mappings. -/
inductive Effect (opens : Prop) (app app' : AppState filePath) : Prop where
  | keep (hstats : app'.memoryStats = app.memoryStats) (htable : app'.tableState = app.tableState)
      (hmapping : app'.selectedMapping = app.selectedMapping)
      (hview : app'.HasTable → app'.viewMode = app.viewMode)
  | top (hstats : app'.memoryStats = app.memoryStats) (htable : app'.tableState = ⟨some 0⟩)
      (hmapping : app'.selectedMapping = app.selectedMapping)
      (hopens : app'.viewMode = .mappings → opens)
  | load (hstats : ∃ loaded, app'.memoryStats = some loaded)
      (htable : app'.tableState = ⟨some 0⟩) (hmapping : app'.selectedMapping = some 0)
      (hview : app'.viewMode = app.viewMode)
  | navigate (loaded : LoadedStats filePath) (row : ℕ) (hloaded : app.memoryStats = some loaded)
      (htable : app.HasTable)
      (hrow : IsIndex app.tableState.selected (app.tableLength loaded) →
        row < app.tableLength loaded)
      (hstats : app'.memoryStats = app.memoryStats)
      (hselected : app'.tableState = ⟨some row⟩) (hmapping : app'.selectedMapping = some row)
      (hview : app'.viewMode = app.viewMode)

variable {opens : Prop}

theorem Effect.refl (app : AppState filePath) : Effect opens app app :=
  .keep rfl rfl rfl fun _ => rfl

theorem exists_of_loadData {app app' : AppState filePath} {disk : Disk filePath}
    (h : loadData app disk = .ok app') :
    ∃ loaded, app' =
      { app.select 0 with memoryStats := some loaded, selectedMapping := some 0 } := by
  obtain ⟨loaded, -, h⟩ := exists_of_bind_eq_ok h
  cases h
  exact ⟨loaded, rfl⟩

theorem reload_effect (app : AppState filePath) (disk : Disk filePath) :
    Effect opens app (reload app disk) := by
  rw [reload]
  cases hload : loadData app disk with
  | ok app' =>
      obtain ⟨loaded, rfl⟩ := exists_of_loadData hload
      exact .load ⟨loaded, rfl⟩ rfl rfl rfl
  | error e => exact .keep rfl rfl rfl fun _ => rfl

theorem tableNext_effect {app : AppState filePath} (htable : app.HasTable) :
    Effect opens app app.tableNext := by
  rw [AppState.tableNext]
  cases hstats : app.memoryStats with
  | none => exact .refl app
  | some loaded =>
      dsimp only
      by_cases hpos : 0 < app.tableLength loaded
      · rw [if_pos hpos]
        refine .navigate loaded _ hstats htable ?_ rfl rfl rfl rfl
        intro _
        split
        · exact hpos
        · omega
      · rw [if_neg hpos]
        exact .refl app

theorem tablePrevious_effect {app : AppState filePath} (htable : app.HasTable) :
    Effect opens app app.tablePrevious := by
  rw [AppState.tablePrevious]
  cases hstats : app.memoryStats with
  | none => exact .refl app
  | some loaded =>
      dsimp only
      by_cases hpos : 0 < app.tableLength loaded
      · rw [if_pos hpos]
        refine .navigate loaded _ hstats htable ?_ rfl rfl rfl rfl
        -- a selection past the end would move to a row past the end
        intro hrange
        obtain ⟨i, hi, hselected⟩ := hrange hpos
        rw [hselected, Option.getD_some]
        split
        · omega
        · omega
      · rw [if_neg hpos]
        exact .refl app

theorem nextView_mappings {app : AppState filePath} (h : app.nextView.viewMode = .mappings) :
    app.viewMode = .histogram := by
  cases hview : app.viewMode with
  | histogram => rfl
  | mappings => simp [AppState.nextView, hview] at h
  | chart => simp [AppState.nextView, hview] at h
  | details => simp [AppState.nextView, hview] at h

theorem pressKey_effect {app app' : AppState filePath} {disk : Disk filePath} {key : KeyCode}
    (h : pressKey app disk key = some app') : Effect (OpensMappings app key) app app' := by
  revert h
  fun_cases pressKey app disk key with
  | case2 | case4 =>
      intro h
      cases h
  | case6 =>
      intro h
      cases h
      exact reload_effect app disk
  | case8 =>
      intro h
      cases h
      exact .top rfl rfl rfl fun hview => by cases hview
  | case9 =>
      intro h
      cases h
      exact .top rfl rfl rfl fun _ => .inl rfl
  | case10 | case11 =>
      intro h
      cases h
      exact .keep rfl rfl rfl fun htable => by rcases htable with hview | hview <;> cases hview
  | case14 =>
      intro h
      cases h
      exact .top rfl rfl rfl fun hview => .inr ⟨rfl, nextView_mappings hview⟩
  | case15 next htable =>
      intro h
      rw [← Option.some.inj h]
      exact .keep rfl rfl rfl fun h => absurd h htable
  | case16 htable | case18 htable =>
      intro h
      cases h
      exact tableNext_effect htable
  | case20 htable | case22 htable =>
      intro h
      cases h
      exact tablePrevious_effect htable
  | _ =>
      intro h
      rw [← Option.some.inj h]
      exact .keep rfl rfl rfl fun _ => rfl

/-- A draw hands the selection to the table, if there is one. -/
theorem draw_eq (app : AppState filePath) (render : ℕ → TableState → TableState) :
    draw app render = app ∨
      ∃ loaded, app.memoryStats = some loaded ∧ app.HasTable ∧
        draw app render =
          { app with tableState := render (app.tableLength loaded) app.tableState } := by
  fun_cases draw app render with
  | case1 => exact .inl rfl
  | case2 hhelp loaded hstats hview =>
      refine .inr ⟨loaded, hstats, .inl hview, ?_⟩
      rw [AppState.tableLength, if_pos hview]
  | case3 hhelp loaded hstats hview =>
      refine .inr ⟨loaded, hstats, .inr hview, ?_⟩
      have hne : ¬ app.viewMode = .histogram := by
        rw [hview]
        decide
      rw [AppState.tableLength, if_neg hne]
  | case4 => exact .inl rfl

/-! ## In range -/

/-- There is data, the row is one of the table, and the index of the details one of the
mappings. -/
structure InRange (app : AppState filePath) : Prop where
  loaded : ∃ loaded, app.memoryStats = some loaded
  row : ∀ loaded, app.memoryStats = some loaded → app.HasTable →
    IsIndex app.tableState.selected (app.tableLength loaded)
  mapping : ∀ loaded, app.memoryStats = some loaded →
    IsIndex app.selectedMapping loaded.stats.mappings.length

theorem isIndex_zero (length : ℕ) : IsIndex (some 0) length := fun hpos => ⟨0, hpos, rfl⟩

theorem isIndex_some {row length : ℕ} (h : row < length) : IsIndex (some row) length :=
  fun _ => ⟨row, h, rfl⟩

theorem tableLength_congr {app app' : AppState filePath} (h : app'.viewMode = app.viewMode)
    (loaded : LoadedStats filePath) : app'.tableLength loaded = app.tableLength loaded := by
  rw [AppState.tableLength, AppState.tableLength, h]

theorem InRange.effect {app app' : AppState filePath} (h : InRange app)
    (heffect : Effect opens app app') : InRange app' := by
  obtain ⟨hloaded, hrow, hmapping⟩ := h
  cases heffect with
  | keep hstats htable hmapping' hview =>
      refine ⟨hstats ▸ hloaded, ?_, ?_⟩
      · intro loaded hl ht
        rw [htable, tableLength_congr (hview ht)]
        apply hrow loaded (hstats ▸ hl)
        rw [AppState.HasTable, ← hview ht]
        exact ht
      · intro loaded hl
        rw [hmapping']
        exact hmapping loaded (hstats ▸ hl)
  | top hstats htable hmapping' hopens =>
      refine ⟨hstats ▸ hloaded, ?_, ?_⟩
      · intro loaded hl ht
        rw [htable]
        exact isIndex_zero _
      · intro loaded hl
        rw [hmapping']
        exact hmapping loaded (hstats ▸ hl)
  | load hstats htable hmapping' hview =>
      refine ⟨hstats, ?_, ?_⟩
      · intro loaded hl ht
        rw [htable]
        exact isIndex_zero _
      · intro loaded hl
        rw [hmapping']
        exact isIndex_zero _
  | navigate loaded row hl htable hlt hstats hselected hmapping' hview =>
      have hlt := hlt (hrow loaded hl htable)
      have hsame : ∀ {loaded'}, app'.memoryStats = some loaded' → loaded' = loaded := by
        intro loaded' hl'
        rw [hstats, hl] at hl'
        exact (Option.some.inj hl').symm
      refine ⟨hstats ▸ hloaded, ?_, ?_⟩
      · intro loaded' hl' _
        rw [hselected, tableLength_congr hview, hsame hl']
        exact isIndex_some hlt
      · intro loaded' hl'
        rw [hmapping', hsame hl']
        exact isIndex_some (hlt.trans_le (app.tableLength_le loaded))

/-- The renderer leaves a selection that is in range. -/
def Move.KeepsInRange : Move filePath → Prop
  | .draw render => ∀ rows i, i < rows → render rows ⟨some i⟩ = ⟨some i⟩
  | _ => True

theorem InRange.draw {app : AppState filePath} (h : InRange app)
    {render : ℕ → TableState → TableState}
    (hrender : (Move.draw render : Move filePath).KeepsInRange) :
    InRange (draw app render) := by
  rcases draw_eq app render with heq | ⟨loaded, hl, htable, heq⟩
  · rwa [heq]
  · rw [heq]
    refine ⟨h.loaded, ?_, h.mapping⟩
    intro loaded' hl' _ hpos
    have hsame : loaded' = loaded := Option.some.inj (hl'.symm.trans hl)
    subst hsame
    obtain ⟨row, hrow, hselected⟩ := h.row loaded' hl htable hpos
    refine ⟨row, hrow, ?_⟩
    have hstate : app.tableState = ⟨some row⟩ := congrArg TableState.mk hselected
    dsimp only
    rw [hstate, hrender _ row hrow]

theorem InRange.step {app app' : AppState filePath} {move : Move filePath} (h : InRange app)
    (hmove : move.KeepsInRange) (hstep : step app move = some app') : InRange app' := by
  cases move with
  | draw render =>
      cases hstep
      exact h.draw hmove
  | watch disk =>
      cases hstep
      have heffect : Effect False app (reload app disk) := reload_effect app disk
      exact h.effect heffect
  | press key disk => exact h.effect (pressKey_effect hstep)
  | clearStatus =>
      cases hstep
      exact ⟨h.loaded, h.row, h.mapping⟩

theorem inRange_of_loadData {app app' : AppState filePath} {disk : Disk filePath}
    (h : loadData app disk = .ok app') : InRange app' := by
  obtain ⟨loaded, rfl⟩ := exists_of_loadData h
  exact ⟨⟨loaded, rfl⟩, fun _ _ _ => isIndex_zero _, fun _ _ => isIndex_zero _⟩

theorem InRange.run {app app' : AppState filePath} {moves : List (Move filePath)} (h : InRange app)
    (hmoves : ∀ move ∈ moves, move.KeepsInRange) (hrun : runApp app moves = some app') :
    InRange app' := by
  induction moves generalizing app with
  | nil =>
      cases hrun
      exact h
  | cons move rest ih =>
      rw [runApp, Option.bind_eq_some_iff] at hrun
      obtain ⟨next, hstep, hrun⟩ := hrun
      have hnext := h.step (hmoves move List.mem_cons_self) hstep
      exact ih hnext (fun m hm => hmoves m (List.mem_cons_of_mem _ hm)) hrun

/-- In every run after the first load the selected row is one of the table in view and the
index of the details one of the mappings, unless these are empty. -/
theorem selection_in_range (disk : Disk filePath) (start app : AppState filePath)
    (moves : List (Move filePath)) (hload : loadData (AppState.new filePath) disk = .ok start)
    (hrender : ∀ move ∈ moves, move.KeepsInRange) (hrun : runApp start moves = some app) :
    ∃ loaded, app.memoryStats = some loaded ∧
      (app.viewMode = .histogram → loaded.order.rows ≠ [] →
        ∃ row < loaded.order.rows.length, app.tableState.selected = some row) ∧
      (app.viewMode = .mappings → loaded.stats.mappings ≠ [] →
        ∃ row < loaded.stats.mappings.length, app.tableState.selected = some row) ∧
      (loaded.stats.mappings ≠ [] →
        ∃ i < loaded.stats.mappings.length, app.selectedMapping = some i) := by
  have h := (inRange_of_loadData hload).run hrender hrun
  obtain ⟨loaded, hloaded⟩ := h.loaded
  have hrow := h.row loaded hloaded
  refine ⟨loaded, hloaded, ?_, ?_, ?_⟩
  · intro hview hne
    have hindex := hrow (.inl hview)
    rw [AppState.tableLength, if_pos hview] at hindex
    exact hindex (List.length_pos_iff.mpr hne)
  · intro hview hne
    have hindex := hrow (.inr hview)
    rw [AppState.tableLength, hview, if_neg (by decide)] at hindex
    exact hindex (List.length_pos_iff.mpr hne)
  · intro hne
    exact h.mapping loaded hloaded (List.length_pos_iff.mpr hne)

/-! ## A file with two mappings -/

theorem Iteration.mem_iff_of_eq {histogram histogram' : HistogramKey → Option HistogramEntry}
    (it : Iteration histogram) (h : histogram = histogram') (row : HistogramRow) :
    row ∈ it.rows ↔ histogram' row.1 = some row.2 := by
  rw [← h]
  exact it.mem_iff row

/-- The maps made from these files are read in the order of the mappings. -/
def Disk.ofFiles (fs : FileSystem) : Disk filePath where
  fs := fs
  order := fun stats h =>
    ⟨(iterationOf stats.mappings).rows, (iterationOf stats.mappings).nodup,
      (iterationOf stats.mappings).mem_iff_of_eq (histogram_of_parseFile h).symm⟩

/-- The lines `1-2 r` and `1-3 r`. -/
def twoMappings : Disk ['f'] :=
  Disk.ofFiles
    { openLines := fun _ => .ok [.ok ['1', '-', '2', ' ', 'r'], .ok ['1', '-', '3', ' ', 'r']]
      readToString := fun _ => .error (.os 2) }

/-- Down in the histogram, then over to the mappings. -/
def downAndOver : List (Move ['f']) :=
  [.draw fun _ state => state, .press (.char 'j') twoMappings, .draw fun _ state => state,
    .press (.char '2') twoMappings]

theorem selection_in_range_downAndOver :
    ∃ start app, loadData (AppState.new ['f']) twoMappings = .ok start ∧
      runApp start downAndOver = some app ∧ app.viewMode = .mappings ∧
      ∃ loaded, app.memoryStats = some loaded ∧ loaded.stats.mappings ≠ [] ∧
        ∃ row < loaded.stats.mappings.length, app.tableState.selected = some row := by
  refine ⟨_, _, rfl, rfl, rfl, ?_⟩
  obtain ⟨loaded, hloaded, -, hrow, -⟩ := selection_in_range twoMappings _ _ downAndOver rfl
    (by simp [downAndOver, Move.KeepsInRange]) rfl
  have hne : loaded.stats.mappings ≠ [] := by
    rw [← Option.some.inj hloaded]
    decide +kernel
  exact ⟨loaded, hloaded, hne, hrow rfl hne⟩

end SystemsExperiments.SmapsSpy
