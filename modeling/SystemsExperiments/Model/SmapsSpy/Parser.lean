import SystemsExperiments.Shared.Text
import Mathlib.Logic.Function.Basic

/-! # The parsers of `smaps_spy`

`/proc/<pid>/maps` has one line for each mapping; `/proc/<pid>/smaps` has further lines with
statistics below each of these. Both files are read line by line. -/

namespace SystemsExperiments.SmapsSpy

open Text

/-! ## Statistics -/

structure MemoryMapping where
  startAddr : UInt64
  endAddr : UInt64
  size : UInt64
  permissions : List Char
  rss : Option UInt64
  pss : Option UInt64
  path : Option (List Char)
  deriving DecidableEq

structure HistogramEntry where
  count : UInt32
  totalSize : UInt64
  totalRss : UInt64
  totalPss : UInt64
  deriving DecidableEq

structure MemoryStats where
  mappings : List MemoryMapping
  histogram : UInt64 × List Char → Option HistogramEntry
  totalVirtual : UInt64
  totalRss : UInt64
  totalPss : UInt64
  processName : Option (List Char)
  pid : Option ℕ

namespace MemoryStats

def new : MemoryStats := ⟨[], fun _ => none, 0, 0, 0, none, none⟩

/-- `if let Some(x) = value { total += x; }` -/
def addSome (total : UInt64) : Option UInt64 → UInt64
  | some x => total + x
  | none => total

/-- One turn of the loop of `build_histogram`. -/
def addMapping (stats : MemoryStats) (mapping : MemoryMapping) : MemoryStats :=
  let key := (mapping.size, mapping.permissions)
  let entry := (stats.histogram key).getD ⟨0, 0, 0, 0⟩
  { stats with
    histogram := Function.update stats.histogram key (some
      { count := entry.count + 1
        totalSize := entry.totalSize + mapping.size
        totalRss := addSome entry.totalRss mapping.rss
        totalPss := addSome entry.totalPss mapping.pss })
    totalVirtual := stats.totalVirtual + mapping.size
    totalRss := addSome stats.totalRss mapping.rss
    totalPss := addSome stats.totalPss mapping.pss }

def buildHistogram (stats : MemoryStats) : MemoryStats :=
  stats.mappings.foldl addMapping
    { stats with histogram := fun _ => none, totalVirtual := 0, totalRss := 0, totalPss := 0 }

end MemoryStats

/-! ## Errors -/

inductive IoError where
  | invalidData
  | os (code : ℕ)
  deriving DecidableEq

/-- The contexts that errors are given, with what their texts quote. -/
inductive Context where
  /-- `Failed to open file: {:?}` -/
  | openFile (path : List Char)
  /-- `Failed to open maps file: {:?}` -/
  | openMapsFile (path : List Char)
  /-- `Failed to open smaps file: {:?}` -/
  | openSmapsFile (path : List Char)
  /-- `Failed to parse start address: {}` -/
  | startAddress (text : List Char)
  /-- `Failed to parse end address: {}` -/
  | endAddress (text : List Char)
  deriving DecidableEq

inductive Cause where
  | io (error : IoError)
  | parseInt (error : ParseIntError)
  deriving DecidableEq

structure Error where
  context : Option Context
  cause : Cause
  deriving DecidableEq

/-- An error, with the number of the line at which it is met. -/
structure Failure where
  line : Option ℕ
  error : Error
  deriving DecidableEq

/-! ## Files -/

/-- What `reader.lines()` yields. -/
abbrev Reader := List (Except IoError (List Char))

structure FileSystem where
  openLines : List Char → Except IoError Reader
  readToString : List Char → Except IoError (List Char)

/-- `File::open` with a context. -/
def openWith (fs : FileSystem) (context : List Char → Context) (path : List Char) :
    Except Failure Reader :=
  match fs.openLines path with
  | .ok reader => .ok reader
  | .error e => .error ⟨none, some (context path), .io e⟩

/-- `for line in reader.lines()`, from line `n` on, with a body that may return an error. -/
def forLines {σ : Type} (body : σ → List Char → Except Error σ) :
    ℕ → σ → Reader → Except Failure σ
  | _, st, [] => .ok st
  | n, _, .error e :: _ => .error ⟨some n, none, .io e⟩
  | n, st, .ok line :: rest =>
      match body st line with
      | .ok st' => forLines body (n + 1) st' rest
      | .error e => .error ⟨some n, e⟩

/-! ## Detection -/

def maxLinesAfterMapping : ℕ := 20

inductive FileType where
  | maps
  | smaps
  deriving DecidableEq

def rssPrefix : List Char := ['R', 's', 's', ':']

def pssPrefix : List Char := ['P', 's', 's', ':']

/-- The loop of `detect_file_type`. -/
def detectLines (foundMapping : Bool) (linesAfterMapping : ℕ) :
    ℕ → Reader → Except Failure FileType
  | _, [] => .ok .maps
  | n, .error e :: _ => .error ⟨some n, none, .io e⟩
  | n, .ok line :: rest =>
      if rssPrefix.isPrefixOf line then .ok .smaps
      else if line.contains '-' ∧ 2 ≤ (splitWhitespace line).length then
        detectLines true 0 (n + 1) rest
      else if foundMapping then
        if maxLinesAfterMapping < linesAfterMapping + 1 then .ok .maps
        else detectLines foundMapping (linesAfterMapping + 1) (n + 1) rest
      else detectLines foundMapping linesAfterMapping (n + 1) rest

def detectFileType (fs : FileSystem) (path : List Char) : Except Failure FileType := do
  detectLines false 0 0 (← openWith fs .openFile path)

/-! ## Mapping lines -/

/-- `u64::from_str_radix(text, 16)` with a context. -/
def parseAddress (context : List Char → Context) (text : List Char) : Except Error UInt64 :=
  match fromStrRadix (2 ^ 64) 16 text with
  | .ok n => .ok (UInt64.ofNat n)
  | .error e => .error ⟨some (context text), .parseInt e⟩

/-- The mapping of a line with a dash in its first word, unless that word has several. -/
def parseMapping (parts : List (List Char)) : Except Error (Option MemoryMapping) :=
  let addressRange := parts.getD 0 []
  let permissions := parts.getD 1 []
  match addressRange.splitOn '-' with
  | [start, stop] => do
      let startAddr ← parseAddress .startAddress start
      let endAddr ← parseAddress .endAddress stop
      return some
        { startAddr, endAddr
          size := endAddr - startAddr
          permissions
          rss := none
          pss := none
          path := if 5 < parts.length then some ([' '].intercalate (parts.drop 5)) else none }
  | _ => return none

/-! ## `maps` -/

def mapsLine (mappings : List MemoryMapping) (line : List Char) :
    Except Error (List MemoryMapping) :=
  let parts := splitWhitespace line
  if parts.length < 2 then .ok mappings
  else if (parts.getD 0 []).contains '-' then do
    match ← parseMapping parts with
    | some mapping => return mappings ++ [mapping]
    | none => return mappings
  else .ok mappings

def parseMapsFile (fs : FileSystem) (path : List Char) : Except Failure MemoryStats := do
  let reader ← openWith fs .openMapsFile path
  let mappings ← forLines mapsLine 0 [] reader
  return { MemoryStats.new with mappings }.buildHistogram

/-! ## `smaps` -/

def bytesPerKb : UInt64 := 1024

/-- The mappings so far and the one whose statistics are being read. -/
structure SmapsState where
  mappings : List MemoryMapping
  currentMapping : Option MemoryMapping

/-- `parts[1].parse::<u64>()` in bytes, or the old value where it fails. -/
def parseKb (parts : List (List Char)) (old : Option UInt64) : Option UInt64 :=
  match fromStrRadix (2 ^ 64) 10 (parts.getD 1 []) with
  | .ok kb => some (UInt64.ofNat kb * bytesPerKb)
  | .error _ => old

def statisticsLine (mapping : MemoryMapping) (line : List Char) (parts : List (List Char)) :
    MemoryMapping :=
  if rssPrefix.isPrefixOf line ∧ 2 ≤ parts.length then
    { mapping with rss := parseKb parts mapping.rss }
  else if pssPrefix.isPrefixOf line ∧ 2 ≤ parts.length then
    { mapping with pss := parseKb parts mapping.pss }
  else mapping

def smapsLine (st : SmapsState) (line : List Char) : Except Error SmapsState :=
  let line := trim line
  let parts := splitWhitespace line
  if line = [] then .ok st
  else if 2 ≤ parts.length ∧ (parts.getD 0 []).contains '-' then do
    let mappings := st.mappings ++ st.currentMapping.toList
    let currentMapping ← parseMapping parts
    return ⟨mappings, currentMapping⟩
  else
    .ok ⟨st.mappings, st.currentMapping.map fun mapping => statisticsLine mapping line parts⟩

def parseSmapsFile (fs : FileSystem) (path : List Char) : Except Failure MemoryStats := do
  let reader ← openWith fs .openSmapsFile path
  let st ← forLines smapsLine 0 ⟨[], none⟩ reader
  return { MemoryStats.new with
    mappings := st.mappings ++ st.currentMapping.toList }.buildHistogram

/-! ## Any file -/

def procPrefix : List Char := ['/', 'p', 'r', 'o', 'c', '/']

def getProcessName (fs : FileSystem) (pid : ℕ) : Except IoError (List Char) := do
  let contents ← fs.readToString (procPrefix ++ Nat.toDigits 10 pid ++ ['/', 'c', 'o', 'm', 'm'])
  return trim contents

/-- The process that a path under `/proc` belongs to. -/
def pidOfPath (path : List Char) : Option ℕ :=
  if procPrefix.isPrefixOf path then
    (fromStrRadix (2 ^ 32) 10 (((path.drop procPrefix.length).splitOn '/').headD [])).toOption
  else none

def parseFile (fs : FileSystem) (path : List Char) : Except Failure MemoryStats := do
  let stats ←
    match ← detectFileType fs path with
    | .maps => parseMapsFile fs path
    | .smaps => parseSmapsFile fs path
  match pidOfPath path with
  | some pid =>
      return { stats with pid := some pid, processName := (getProcessName fs pid).toOption }
  | none => return stats

end SystemsExperiments.SmapsSpy
