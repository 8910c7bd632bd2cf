import SystemsExperiments.Shared.Sorting
import SystemsExperiments.Verification.SmapsSpy.Histogram

/-! # The order of the rows

The rows of the histogram are ordered by one key, and rows that agree in it stand as the
`HashMap` yields them. -/

namespace SystemsExperiments.SmapsSpy

open Sorting

instance (sortBy : SortBy) : Std.Total sortBy.le where
  total a b := by
    cases sortBy with
    | count => exact UInt32.le_total _ _
    | size => exact UInt64.le_total _ _
    | permissions => exact le_total _ _
    | totalRss => exact UInt64.le_total _ _
    | avgRss => exact UInt64.le_total _ _
    | totalPss => exact UInt64.le_total _ _
    | avgPss => exact UInt64.le_total _ _

instance (sortBy : SortBy) : IsTrans HistogramRow sortBy.le where
  trans a b c hab hbc := by
    cases sortBy with
    | count => exact UInt32.le_trans hbc hab
    | size => exact UInt64.le_trans hbc hab
    | permissions => exact le_trans hab hbc
    | totalRss => exact UInt64.le_trans hbc hab
    | avgRss => exact UInt64.le_trans hbc hab
    | totalPss => exact UInt64.le_trans hbc hab
    | avgPss => exact UInt64.le_trans hbc hab

/-! ## Iterations of one map -/

variable {histogram : HistogramKey → Option HistogramEntry}

theorem Iteration.nodup_rows (it : Iteration histogram) : it.rows.Nodup :=
  List.Nodup.of_map _ it.nodup

theorem Iteration.perm (it₁ it₂ : Iteration histogram) : it₁.rows.Perm it₂.rows := by
  rw [List.perm_ext_iff_of_nodup it₁.nodup_rows it₂.nodup_rows]
  intro row
  rw [it₁.mem_iff, it₂.mem_iff]

theorem Iteration.nodup_reverse (it : Iteration histogram) :
    (it.rows.reverse.map Prod.fst).Nodup := by
  rw [List.map_reverse, List.nodup_reverse]
  exact it.nodup

theorem Iteration.mem_reverse_iff (it : Iteration histogram) (row : HistogramRow) :
    row ∈ it.rows.reverse ↔ histogram row.1 = some row.2 := by
  rw [List.mem_reverse, it.mem_iff]

/-- A map may be read the other way round. -/
def Iteration.reverse (it : Iteration histogram) : Iteration histogram where
  rows := it.rows.reverse
  nodup := it.nodup_reverse
  mem_iff := it.mem_reverse_iff

/-! ## The table -/

/-- What a function that makes a table of a map keeps of the order in which the map is read. -/
structure SortsUpToTies (histogram : HistogramKey → Option HistogramEntry) (sortBy : SortBy)
    (sort : List HistogramRow → List HistogramRow) : Prop where
  perm : ∀ it : Iteration histogram, (sort it.rows).Perm it.rows
  ordered : ∀ it : Iteration histogram, (sort it.rows).Pairwise sortBy.le
  sameKeys : ∀ it₁ it₂ : Iteration histogram,
    List.Forall₂ (fun a b => sortBy.le a b ∧ sortBy.le b a) (sort it₁.rows) (sort it₂.rows)
  eq_iff : ∀ it₁ it₂ : Iteration histogram, sort it₁.rows = sort it₂.rows ↔
    ∀ row, (it₁.rows.filter fun b => sortBy.le row b ∧ sortBy.le b row) =
      it₂.rows.filter fun b => sortBy.le row b ∧ sortBy.le b row
  eq_all_iff : ∀ it : Iteration histogram,
    (∀ it' : Iteration histogram, sort it'.rows = sort it.rows) ↔
      it.rows.Pairwise fun a b => ¬ (sortBy.le a b ∧ sortBy.le b a)

theorem sortRows_sortsUpToTies (histogram : HistogramKey → Option HistogramEntry)
    (sortBy : SortBy) : SortsUpToTies histogram sortBy (sortRows sortBy) where
  perm it := List.perm_insertionSort sortBy.le it.rows
  ordered it := List.pairwise_insertionSort sortBy.le it.rows
  sameKeys it₁ it₂ := forall₂_tied_insertionSort (it₁.perm it₂)
  eq_iff it₁ it₂ := insertionSort_eq_iff
  eq_all_iff it := by
    constructor
    · intro h
      exact not_tied_of_insertionSort_reverse_eq it.nodup_rows (h it.reverse)
    · intro h it'
      exact (insertionSort_eq_of_perm (it.perm it') h).symm

/-- Both tables of the histogram, on the screen and in a dump: whatever the order in which the
map is read, all entries are there, ordered by the key; two orders give the same keys in every
row, and the same rows if they agree within each class of tied entries and only then. -/
theorem rows_up_to_ties (histogram : HistogramKey → Option HistogramEntry) :
    (∀ sortBy : SortBy, SortsUpToTies histogram sortBy (sortRows sortBy)) ∧
      ∀ text : String, SortsUpToTies histogram (SortBy.ofArgument text)
        fun rows => sortHistogramData rows text :=
  ⟨sortRows_sortsUpToTies histogram, fun _ => sortRows_sortsUpToTies histogram _⟩

/-- A read-only and a writable mapping of a page. -/
def twoAlike : MemoryStats :=
  { MemoryStats.new with
    mappings :=
      [⟨0x1000, 0x2000, 0x1000, ['r'], none, none, none⟩,
        ⟨0x2000, 0x3000, 0x1000, ['w'], none, none, none⟩] }

theorem rows_of_twoAlike_depend_on_order :
    ¬ ∀ it₁ it₂ : Iteration twoAlike.buildHistogram.histogram,
      sortHistogramData it₁.rows "count" = sortHistogramData it₂.rows "count" ∧
        sortRows .count it₁.rows = sortRows .count it₂.rows := by
  rw [buildHistogram_eq]
  intro h
  have hsame := (h (iterationOf twoAlike.mappings) (iterationOf twoAlike.mappings).reverse).2
  revert hsame
  decide +kernel

end SystemsExperiments.SmapsSpy
