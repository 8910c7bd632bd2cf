import SystemsExperiments.Model.SmapsSpy.Parser
import Mathlib.Data.List.Sort
import Mathlib.Data.UInt

/-! # The chart of `smaps_spy`

One bar for each of six ranges of sizes, unless the range has nothing to show. -/

namespace SystemsExperiments.SmapsSpy

inductive ChartMetric where
  | size
  | count
  | totalSize
  | totalRss
  | averageRss
  deriving DecidableEq

def topChartRanges : ℕ := 8

def size4KB : UInt64 := 4 * bytesPerKb

def size64KB : UInt64 := 64 * bytesPerKb

def size1MB : UInt64 := bytesPerKb * bytesPerKb

def size16MB : UInt64 := 16 * size1MB

def size256MB : UInt64 := 256 * size1MB

structure SizeRange where
  label : String
  minSize : UInt64
  maxSize : UInt64

def sizeRanges : List SizeRange :=
  [⟨"< 4KB", 0, size4KB⟩,
    ⟨"4KB-64KB", size4KB, size64KB⟩,
    ⟨"64KB-1MB", size64KB, size1MB⟩,
    ⟨"1MB-16MB", size1MB, size16MB⟩,
    ⟨"16MB-256MB", size16MB, size256MB⟩,
    ⟨">= 256MB", size256MB, 0xffffffffffffffff⟩]

def SizeRange.contains (range : SizeRange) (size : UInt64) : Bool :=
  range.minSize ≤ size ∧ size < range.maxSize

def SizeRange.mappings (range : SizeRange) (mappings : List MemoryMapping) : List MemoryMapping :=
  mappings.filter fun m => range.contains m.size

def sumSizes (mappings : List MemoryMapping) : UInt64 := (mappings.map fun m => m.size).sum

def sumRss (mappings : List MemoryMapping) : UInt64 := (mappings.map fun m => m.rss.getD 0).sum

abbrev Bar := String × UInt64

/-- A bar for each range with a value, with what `shown` makes of the value. -/
def barsOf (value : List MemoryMapping → UInt64) (shown : UInt64 → UInt64)
    (mappings : List MemoryMapping) : List Bar :=
  sizeRanges.filterMap fun range =>
    let v := value (range.mappings mappings)
    if 0 < v then some (range.label, shown v) else none

/-- The averages, which only ranges with mappings have. -/
def averageBars (mappings : List MemoryMapping) : List Bar :=
  sizeRanges.filterMap fun range =>
    let mappingsInRange := range.mappings mappings
    if mappingsInRange.isEmpty then none
    else
      let avgRss := sumRss mappingsInRange / UInt64.ofNat mappingsInRange.length
      if 0 < avgRss then some (range.label, avgRss / bytesPerKb) else none

/-- `data_vec` and the title. -/
def chartData : ChartMetric → List MemoryMapping → List Bar × String
  | .size, mappings =>
      (barsOf sumSizes (fun v => v / bytesPerKb / bytesPerKb) mappings,
        "Memory Usage by Size Range (MB)")
  | .count, mappings =>
      (barsOf (fun ms => UInt64.ofNat ms.length) id mappings, "Mapping Count by Size Range")
  | .totalSize, mappings =>
      (barsOf sumSizes (fun v => v / bytesPerKb / bytesPerKb) mappings,
        "Total Size by Range (MB)")
  | .totalRss, mappings =>
      (barsOf sumRss (fun v => v / bytesPerKb) mappings, "Total RSS by Size Range (KB)")
  | .averageRss, mappings => (averageBars mappings, "Average RSS by Size Range (KB)")

/-- The bars of `draw_chart_view`, the highest first, and the title. -/
def drawChartView (metric : ChartMetric) (mappings : List MemoryMapping) : List Bar × String :=
  let (dataVec, title) := chartData metric mappings
  ((dataVec.insertionSort fun a b => b.2 ≤ a.2).take topChartRanges, title)

end SystemsExperiments.SmapsSpy
