import SystemsExperiments.Model.SmapsSpy.Parser
import Mathlib.Algebra.Order.Ring.Nat

/-! # The parsers in a build with overflow checks

The same functions, where an arithmetic step whose result does not fit its type ends the
program. A release build goes on with the result modulo `2 ^ 64` instead. -/

namespace SystemsExperiments.SmapsSpy.Checked

open Text

/-- How a run ends without a result. -/
inductive Halt (ε : Type) where
  | overflow
  | error (e : ε)
  deriving DecidableEq

/-! ## Arithmetic -/

def sub (a b : UInt64) : Option UInt64 := if b ≤ a then some (a - b) else none

def mul (a b : UInt64) : Option UInt64 :=
  if a.toNat * b.toNat < 2 ^ 64 then some (a * b) else none

def add (a b : UInt64) : Option UInt64 :=
  if a.toNat + b.toNat < 2 ^ 64 then some (a + b) else none

def add32 (a b : UInt32) : Option UInt32 :=
  if a.toNat + b.toNat < 2 ^ 32 then some (a + b) else none

/-- An arithmetic step. -/
def arith {ε α : Type} : Option α → Except (Halt ε) α
  | some a => .ok a
  | none => .error .overflow

/-- A step that may return an error. -/
def returning {ε α : Type} : Except ε α → Except (Halt ε) α
  | .ok a => .ok a
  | .error e => .error (.error e)

/-! ## The histogram -/

def addSome (total : UInt64) : Option UInt64 → Option UInt64
  | some x => add total x
  | none => some total

def addMapping (stats : MemoryStats) (mapping : MemoryMapping) : Option MemoryStats := do
  let key := (mapping.size, mapping.permissions)
  let entry := (stats.histogram key).getD ⟨0, 0, 0, 0⟩
  let count ← add32 entry.count 1
  let totalSize ← add entry.totalSize mapping.size
  let totalRss ← addSome entry.totalRss mapping.rss
  let totalPss ← addSome entry.totalPss mapping.pss
  let statsVirtual ← add stats.totalVirtual mapping.size
  let statsRss ← addSome stats.totalRss mapping.rss
  let statsPss ← addSome stats.totalPss mapping.pss
  return { stats with
    histogram := Function.update stats.histogram key
      (some { count, totalSize, totalRss, totalPss })
    totalVirtual := statsVirtual
    totalRss := statsRss
    totalPss := statsPss }

def buildHistogram (stats : MemoryStats) : Option MemoryStats :=
  stats.mappings.foldlM addMapping
    { stats with histogram := fun _ => none, totalVirtual := 0, totalRss := 0, totalPss := 0 }

/-! ## Lines -/

def forLines {σ : Type} (body : σ → List Char → Except (Halt Error) σ) :
    ℕ → σ → Reader → Except (Halt Failure) σ
  | _, st, [] => .ok st
  | n, _, .error e :: _ => .error (.error ⟨some n, none, .io e⟩)
  | n, st, .ok line :: rest =>
      match body st line with
      | .ok st' => forLines body (n + 1) st' rest
      | .error .overflow => .error .overflow
      | .error (.error e) => .error (.error ⟨some n, e⟩)

def parseMapping (parts : List (List Char)) : Except (Halt Error) (Option MemoryMapping) :=
  let addressRange := parts.getD 0 []
  let permissions := parts.getD 1 []
  match addressRange.splitOn '-' with
  | [start, stop] => do
      let startAddr ← returning (parseAddress .startAddress start)
      let endAddr ← returning (parseAddress .endAddress stop)
      let size ← arith (sub endAddr startAddr)
      return some
        { startAddr, endAddr, size, permissions
          rss := none
          pss := none
          path := if 5 < parts.length then some ([' '].intercalate (parts.drop 5)) else none }
  | _ => return none

def mapsLine (mappings : List MemoryMapping) (line : List Char) :
    Except (Halt Error) (List MemoryMapping) :=
  let parts := splitWhitespace line
  if parts.length < 2 then .ok mappings
  else if (parts.getD 0 []).contains '-' then do
    match ← parseMapping parts with
    | some mapping => return mappings ++ [mapping]
    | none => return mappings
  else .ok mappings

def parseKb (parts : List (List Char)) (old : Option UInt64) : Option (Option UInt64) :=
  match fromStrRadix (2 ^ 64) 10 (parts.getD 1 []) with
  | .ok kb => (mul (UInt64.ofNat kb) bytesPerKb).map some
  | .error _ => some old

def statisticsLine (mapping : MemoryMapping) (line : List Char) (parts : List (List Char)) :
    Option MemoryMapping :=
  if rssPrefix.isPrefixOf line ∧ 2 ≤ parts.length then do
    let rss ← parseKb parts mapping.rss
    return { mapping with rss }
  else if pssPrefix.isPrefixOf line ∧ 2 ≤ parts.length then do
    let pss ← parseKb parts mapping.pss
    return { mapping with pss }
  else some mapping

def smapsLine (st : SmapsState) (line : List Char) : Except (Halt Error) SmapsState :=
  let line := trim line
  let parts := splitWhitespace line
  if line = [] then .ok st
  else if 2 ≤ parts.length ∧ (parts.getD 0 []).contains '-' then do
    let mappings := st.mappings ++ st.currentMapping.toList
    let currentMapping ← parseMapping parts
    return ⟨mappings, currentMapping⟩
  else
    match st.currentMapping with
    | some mapping => do
        let mapping ← arith (statisticsLine mapping line parts)
        return ⟨st.mappings, some mapping⟩
    | none => .ok st

/-! ## Files -/

def parseMapsFile (fs : FileSystem) (path : List Char) : Except (Halt Failure) MemoryStats := do
  let reader ← returning (openWith fs .openMapsFile path)
  let mappings ← forLines mapsLine 0 [] reader
  arith (buildHistogram { MemoryStats.new with mappings })

def parseSmapsFile (fs : FileSystem) (path : List Char) : Except (Halt Failure) MemoryStats := do
  let reader ← returning (openWith fs .openSmapsFile path)
  let st ← forLines smapsLine 0 ⟨[], none⟩ reader
  arith (buildHistogram { MemoryStats.new with
    mappings := st.mappings ++ st.currentMapping.toList })

def parseFile (fs : FileSystem) (path : List Char) : Except (Halt Failure) MemoryStats := do
  let stats ←
    match ← returning (detectFileType fs path) with
    | .maps => parseMapsFile fs path
    | .smaps => parseSmapsFile fs path
  match pidOfPath path with
  | some pid =>
      return { stats with pid := some pid, processName := (getProcessName fs pid).toOption }
  | none => return stats

end SystemsExperiments.SmapsSpy.Checked
