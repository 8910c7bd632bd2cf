import SystemsExperiments.Model.SmapsSpy.Rows
import SystemsExperiments.Model.SmapsSpy.Chart

/-! # The terminal interface of `smaps_spy`

The loop of `run_app` draws the current view, reloads the file when it is watched, handles a
key and clears the status. The rows of both tables share one selection; the details show the
mapping of a second index. -/

namespace SystemsExperiments.SmapsSpy

/-! ## State -/

inductive ViewMode where
  | histogram
  | mappings
  | chart
  | details
  deriving DecidableEq

/-- What the table widget keeps between two draws. -/
structure TableState where
  selected : Option ℕ
  deriving DecidableEq

inductive StatusMessage where
  | empty
  /-- `Error reloading: {}` -/
  | errorReloading (failure : Failure)
  /-- `Reloaded` -/
  | reloaded
  /-- `Sort by: {:?}` -/
  | sortBy (sortBy : SortBy)
  /-- `Chart metric: {:?}` -/
  | chartMetric (metric : ChartMetric)

/-- Statistics of the file, with the order in which their map is read. -/
structure LoadedStats (filePath : List Char) where
  stats : MemoryStats
  parsed : ∃ fs, parseFile fs filePath = .ok stats
  order : Iteration stats.histogram

/-- The state of the interface to a file, whose path stays as it is. -/
structure AppState (filePath : List Char) where
  memoryStats : Option (LoadedStats filePath)
  viewMode : ViewMode
  chartMetric : ChartMetric
  sortBy : SortBy
  tableState : TableState
  selectedMapping : Option ℕ
  showHelp : Bool
  statusMessage : StatusMessage

namespace AppState

variable {filePath : List Char}

def new (filePath : List Char) : AppState filePath where
  memoryStats := none
  viewMode := .histogram
  chartMetric := .size
  sortBy := .count
  tableState := ⟨none⟩
  selectedMapping := none
  showHelp := false
  statusMessage := .empty

def nextSort (app : AppState filePath) : AppState filePath :=
  { app with
    sortBy := match app.sortBy with
      | .count => .size
      | .size => .permissions
      | .permissions => .totalRss
      | .totalRss => .avgRss
      | .avgRss => .totalPss
      | .totalPss => .avgPss
      | .avgPss => .count }

def nextView (app : AppState filePath) : AppState filePath :=
  { app with
    viewMode := match app.viewMode with
      | .histogram => .mappings
      | .mappings => .chart
      | .chart => .details
      | .details => .histogram }

def nextChartMetric (app : AppState filePath) : AppState filePath :=
  { app with
    chartMetric := match app.chartMetric with
      | .size => .count
      | .count => .totalSize
      | .totalSize => .totalRss
      | .totalRss => .averageRss
      | .averageRss => .size }

def select (app : AppState filePath) (row : ℕ) : AppState filePath :=
  { app with tableState := ⟨some row⟩ }

/-- The rows of the table that the keys move in. -/
def tableLength (app : AppState filePath) (loaded : LoadedStats filePath) : ℕ :=
  if app.viewMode = .histogram then loaded.order.rows.length else loaded.stats.mappings.length

def tableNext (app : AppState filePath) : AppState filePath :=
  match app.memoryStats with
  | some loaded =>
      let len := app.tableLength loaded
      if 0 < len then
        let current := app.tableState.selected.getD 0
        let next := if len - 1 ≤ current then 0 else current + 1
        { app.select next with selectedMapping := some next }
      else app
  | none => app

def tablePrevious (app : AppState filePath) : AppState filePath :=
  match app.memoryStats with
  | some loaded =>
      let len := app.tableLength loaded
      if 0 < len then
        let current := app.tableState.selected.getD 0
        let previous := if current = 0 then len - 1 else current - 1
        { app.select previous with selectedMapping := some previous }
      else app
  | none => app

end AppState

/-! ## Loading -/

variable {filePath : List Char}

/-- The files at one moment, with the order in which a map made from them is read. -/
structure Disk (filePath : List Char) where
  fs : FileSystem
  order : ∀ stats, parseFile fs filePath = .ok stats → Iteration stats.histogram

def Disk.parseFile (disk : Disk filePath) : Except Failure (LoadedStats filePath) :=
  match h : SmapsSpy.parseFile disk.fs filePath with
  | .ok stats => .ok ⟨stats, ⟨disk.fs, h⟩, disk.order stats h⟩
  | .error e => .error e

def loadData (app : AppState filePath) (disk : Disk filePath) :
    Except Failure (AppState filePath) := do
  let stats ← disk.parseFile
  return { app.select 0 with memoryStats := some stats, selectedMapping := some 0 }

/-- `load_data` with a message about it, for the key and for a watched file. -/
def reload (app : AppState filePath) (disk : Disk filePath) : AppState filePath :=
  match loadData app disk with
  | .ok app' => { app' with statusMessage := .reloaded }
  | .error e => { app with statusMessage := .errorReloading e }

/-! ## Drawing -/

/-- `draw`, as far as it changes the state: `render` is what the table widget makes of its
state, given the number of rows. -/
def draw (app : AppState filePath) (render : ℕ → TableState → TableState) : AppState filePath :=
  if app.showHelp then app
  else
    match app.viewMode, app.memoryStats with
    | .histogram, some loaded =>
        { app with tableState := render loaded.order.rows.length app.tableState }
    | .mappings, some loaded =>
        { app with tableState := render loaded.stats.mappings.length app.tableState }
    | _, _ => app

/-- The mapping that `draw_details_view` describes. -/
def detailsMapping (app : AppState filePath) : Option MemoryMapping := do
  let loaded ← app.memoryStats
  let selectedIdx ← app.selectedMapping
  loaded.stats.mappings[selectedIdx]?

/-- The mapping in the highlighted row of `draw_mappings_view`. -/
def highlightedMapping (app : AppState filePath) : Option MemoryMapping := do
  let loaded ← app.memoryStats
  let row ← app.tableState.selected
  loaded.stats.mappings[row]?

/-! ## Keys -/

inductive KeyCode where
  | char (c : Char)
  | esc
  | tab
  | down
  | up
  | other
  deriving DecidableEq

/-- One key is handled; `none` leaves the loop. -/
def pressKey (app : AppState filePath) (disk : Disk filePath) :
    KeyCode → Option (AppState filePath)
  | .char 'q' | .esc => if app.showHelp then some { app with showHelp := false } else none
  | .char 'h' => some { app with showHelp := !app.showHelp }
  | .char 'r' => some (reload app disk)
  | .char 's' =>
      let app := app.nextSort
      some { app with statusMessage := .sortBy app.sortBy }
  | .char '1' => some ({ app with viewMode := .histogram }.select 0)
  | .char '2' => some ({ app with viewMode := .mappings }.select 0)
  | .char '3' => some { app with viewMode := .chart }
  | .char '4' => some { app with viewMode := .details }
  | .char 'm' =>
      if app.viewMode = .chart then
        let app := app.nextChartMetric
        some { app with statusMessage := .chartMetric app.chartMetric }
      else some app
  | .tab =>
      let app := app.nextView
      if app.viewMode = .histogram ∨ app.viewMode = .mappings then some (app.select 0)
      else some app
  | .down | .char 'j' =>
      if app.viewMode = .histogram ∨ app.viewMode = .mappings then some app.tableNext
      else some app
  | .up | .char 'k' =>
      if app.viewMode = .histogram ∨ app.viewMode = .mappings then some app.tablePrevious
      else some app
  | _ => some app

/-! ## The loop -/

/-- What a turn of the loop is made of. Every turn draws; whether the file is reloaded, a key
comes and the status is cleared depends on the clock and on the user. -/
inductive Move (filePath : List Char) where
  | draw (render : ℕ → TableState → TableState)
  | watch (disk : Disk filePath)
  | press (key : KeyCode) (disk : Disk filePath)
  | clearStatus

def step (app : AppState filePath) : Move filePath → Option (AppState filePath)
  | .draw render => some (draw app render)
  | .watch disk => some (reload app disk)
  | .press key disk => pressKey app disk key
  | .clearStatus => some { app with statusMessage := .empty }

/-- The state after the moves, unless one of them left the loop. Turns are moves in a certain
order; every order is a run here. -/
def runApp (app : AppState filePath) : List (Move filePath) → Option (AppState filePath)
  | [] => some app
  | move :: rest => (step app move).bind fun app' => runApp app' rest

end SystemsExperiments.SmapsSpy
