import SystemsExperiments.Model.SmapsSpy.Parser
import Mathlib.Data.Char
import Mathlib.Data.List.Lex
import Mathlib.Data.List.Sort

/-! # The rows of the histogram

The table of the histogram goes through a `HashMap` in whatever order its seed gives and sorts
what it finds. -/

namespace SystemsExperiments.SmapsSpy

abbrev HistogramKey := UInt64 × List Char

abbrev HistogramRow := HistogramKey × HistogramEntry

/-- An order in which `histogram.iter()` may go through a map: it yields every entry once. -/
structure Iteration (histogram : HistogramKey → Option HistogramEntry) where
  rows : List HistogramRow
  nodup : (rows.map Prod.fst).Nodup
  mem_iff : ∀ row, row ∈ rows ↔ histogram row.1 = some row.2

def calculateAverage (total : UInt64) (count : UInt32) : UInt64 :=
  if 0 < count then total / count.toUInt64 else 0

inductive SortBy where
  | count
  | size
  | permissions
  | totalRss
  | avgRss
  | totalPss
  | avgPss
  deriving DecidableEq

/-- The comparison of `sort_by` does not put `a` after `b`. Permissions are compared in the
order of their characters, the other keys downwards. -/
def SortBy.le : SortBy → HistogramRow → HistogramRow → Prop
  | .count, a, b => b.2.count ≤ a.2.count
  | .size, a, b => b.1.1 ≤ a.1.1
  | .permissions, a, b => a.1.2 ≤ b.1.2
  | .totalRss, a, b => b.2.totalRss ≤ a.2.totalRss
  | .avgRss, a, b =>
      calculateAverage b.2.totalRss b.2.count ≤ calculateAverage a.2.totalRss a.2.count
  | .totalPss, a, b => b.2.totalPss ≤ a.2.totalPss
  | .avgPss, a, b =>
      calculateAverage b.2.totalPss b.2.count ≤ calculateAverage a.2.totalPss a.2.count

instance (sortBy : SortBy) : DecidableRel sortBy.le := fun a b =>
  match sortBy with
  | .count => inferInstanceAs (Decidable (b.2.count ≤ a.2.count))
  | .size => inferInstanceAs (Decidable (b.1.1 ≤ a.1.1))
  | .permissions => inferInstanceAs (Decidable (a.1.2 ≤ b.1.2))
  | .totalRss => inferInstanceAs (Decidable (b.2.totalRss ≤ a.2.totalRss))
  | .avgRss => inferInstanceAs (Decidable
      (calculateAverage b.2.totalRss b.2.count ≤ calculateAverage a.2.totalRss a.2.count))
  | .totalPss => inferInstanceAs (Decidable (b.2.totalPss ≤ a.2.totalPss))
  | .avgPss => inferInstanceAs (Decidable
      (calculateAverage b.2.totalPss b.2.count ≤ calculateAverage a.2.totalPss a.2.count))

/-- The rows of `draw_histogram_view`. `sort_by` is stable, as insertion sort is. -/
def sortRows (sortBy : SortBy) (rows : List HistogramRow) : List HistogramRow :=
  rows.insertionSort sortBy.le

/-- The argument of `--sort`; anything else means `count`. -/
def SortBy.ofArgument (text : String) : SortBy :=
  if text = "size" then .size
  else if text = "perms" then .permissions
  else if text = "rss_total" then .totalRss
  else if text = "rss_avg" then .avgRss
  else if text = "pss_total" then .totalPss
  else if text = "pss_avg" then .avgPss
  else .count

def sortHistogramData (rows : List HistogramRow) (sortBy : String) : List HistogramRow :=
  sortRows (SortBy.ofArgument sortBy) rows

end SystemsExperiments.SmapsSpy
