import SystemsExperiments.Model.SmapsSpy.Parser

/-! # From a file to statistics

`parse_file` detects the type of the file, runs the parser for it and adds the process. -/

namespace SystemsExperiments.SmapsSpy

open Text

theorem exists_of_bind_eq_ok {ε α β : Type} {x : Except ε α} {f : α → Except ε β} {b : β}
    (h : x >>= f = .ok b) : ∃ a, x = .ok a ∧ f a = .ok b := by
  cases x with
  | ok a => exact ⟨a, rfl, h⟩
  | error e => cases h

/-- The file at `path` can be opened and holds the text. -/
def FileSystem.Holds (fs : FileSystem) (path text : List Char) : Prop :=
  fs.openLines path = .ok ((lines text).map .ok)

theorem openWith_of_holds {fs : FileSystem} {path text : List Char} (h : fs.Holds path text)
    (context : List Char → Context) : openWith fs context path = .ok ((lines text).map .ok) := by
  rw [openWith, h]

/-- The parser for a type. -/
def parseAs (fs : FileSystem) (path : List Char) : FileType → Except Failure MemoryStats
  | .maps => parseMapsFile fs path
  | .smaps => parseSmapsFile fs path

/-- The statistics with the process that the path names. -/
def MemoryStats.withProcess (stats : MemoryStats) (fs : FileSystem) (path : List Char) :
    MemoryStats :=
  match pidOfPath path with
  | some pid => { stats with pid := some pid, processName := (getProcessName fs pid).toOption }
  | none => stats

theorem parseFile_eq (fs : FileSystem) (path : List Char) :
    parseFile fs path = do
      let type ← detectFileType fs path
      let stats ← parseAs fs path type
      return stats.withProcess fs path := by
  rw [parseFile]
  congr 1
  funext type
  cases type with
  | maps =>
      simp only [parseAs, MemoryStats.withProcess]
      congr 1
      funext stats
      cases pidOfPath path with
      | none => rfl
      | some pid => rfl
  | smaps =>
      simp only [parseAs, MemoryStats.withProcess]
      congr 1
      funext stats
      cases pidOfPath path with
      | none => rfl
      | some pid => rfl

theorem mappings_withProcess (stats : MemoryStats) (fs : FileSystem) (path : List Char) :
    (stats.withProcess fs path).mappings = stats.mappings := by
  rw [MemoryStats.withProcess]
  split
  · rfl
  · rfl

theorem histogram_withProcess (stats : MemoryStats) (fs : FileSystem) (path : List Char) :
    (stats.withProcess fs path).histogram = stats.histogram := by
  rw [MemoryStats.withProcess]
  split
  · rfl
  · rfl

end SystemsExperiments.SmapsSpy
