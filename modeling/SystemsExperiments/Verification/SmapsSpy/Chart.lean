import SystemsExperiments.Model.SmapsSpy.Chart
import SystemsExperiments.Verification.SmapsSpy.Histogram
import Mathlib.Algebra.Order.Ring.Nat

/-! # The ranges of the chart

The ranges follow on one another from zero to the largest `u64`, which the last one leaves
out. -/

namespace SystemsExperiments.SmapsSpy

open Grouping

/-! ## Ranges -/

/-- The end of each range. -/
def sizeBounds : List ℕ := sizeRanges.map fun range => range.maxSize.toNat

theorem sizeRanges_eq_zip :
    sizeRanges.map (fun range => (range.minSize.toNat, range.maxSize.toNat)) =
      (0 :: sizeBounds).zip sizeBounds := by decide

theorem SizeRange.contains_iff (range : SizeRange) (size : UInt64) :
    range.contains size = true ↔
      range.minSize.toNat ≤ size.toNat ∧ size.toNat < range.maxSize.toNat := by
  rw [SizeRange.contains, decide_eq_true_eq, UInt64.le_iff_toNat_le, UInt64.lt_iff_toNat_lt]

/-- Every size is in one range, except for the largest. -/
theorem countP_sizeRanges (size : UInt64) :
    sizeRanges.countP (fun range => range.contains size) =
      if size = 0xffffffffffffffff then 0 else 1 := by
  have hsorted : (0 :: sizeBounds).Pairwise (· ≤ ·) := by decide
  have hcount := countP_ranges hsorted size.toNat
  have hlast : (0 :: sizeBounds).getLast (List.cons_ne_nil 0 sizeBounds) = 2 ^ 64 - 1 := by decide
  rw [← sizeRanges_eq_zip, List.countP_map, hlast] at hcount
  have hcontains : sizeRanges.countP (fun range => range.contains size) =
      sizeRanges.countP ((fun r : ℕ × ℕ => decide (r.1 ≤ size.toNat ∧ size.toNat < r.2)) ∘
        fun range => (range.minSize.toNat, range.maxSize.toNat)) := by
    apply List.countP_congr
    intro range _
    rw [range.contains_iff, Function.comp_apply, decide_eq_true_eq]
  rw [hcontains, hcount]
  have hlt : size.toNat < 2 ^ 64 := size.toNat_lt
  by_cases hsize : size = 0xffffffffffffffff
  · rw [if_pos hsize, hsize]
    decide
  · have hne : size.toNat ≠ 2 ^ 64 - 1 := by
      intro h
      exact hsize (UInt64.toNat_inj.mp h)
    rw [if_neg hsize, if_pos ⟨Nat.zero_le _, by omega⟩]

/-! ## Bars -/

theorem length_chartData_le (metric : ChartMetric) (mappings : List MemoryMapping) :
    (chartData metric mappings).1.length ≤ sizeRanges.length := by
  cases metric with
  | size => exact List.length_filterMap_le _ _
  | count => exact List.length_filterMap_le _ _
  | totalSize => exact List.length_filterMap_le _ _
  | totalRss => exact List.length_filterMap_le _ _
  | averageRss => exact List.length_filterMap_le _ _

/-- There are fewer ranges than bars that may be shown. -/
theorem bars_perm_chartData (metric : ChartMetric) (mappings : List MemoryMapping) :
    (drawChartView metric mappings).1.Perm (chartData metric mappings).1 := by
  have hlen : ((chartData metric mappings).1.insertionSort fun a b => b.2 ≤ a.2).length ≤
      topChartRanges := by
    rw [List.length_insertionSort]
    exact (length_chartData_le metric mappings).trans (by decide)
  have htake : (drawChartView metric mappings).1 =
      (chartData metric mappings).1.insertionSort fun a b => b.2 ≤ a.2 :=
    List.take_of_length_le hlen
  rw [htake]
  exact List.perm_insertionSort _ _

/-- The bars that are not shown have nothing to add. -/
theorem sum_barsOf (value : List MemoryMapping → UInt64) (mappings : List MemoryMapping) :
    ((barsOf value id mappings).map fun bar => bar.2.toNat).sum =
      (sizeRanges.map fun range => (value (range.mappings mappings)).toNat).sum := by
  rw [barsOf]
  induction sizeRanges with
  | nil => rfl
  | cons range ranges ih =>
      rw [List.filterMap_cons, List.map_cons, List.sum_cons, ← ih]
      by_cases hpos : 0 < value (range.mappings mappings)
      · simp [hpos]
      · have hzero : (value (range.mappings mappings)).toNat = 0 := by
          rw [UInt64.lt_iff_toNat_lt] at hpos
          exact Nat.eq_zero_of_not_pos hpos
        simp [hpos, hzero]

section Partition

variable {ms : List MemoryMapping}

/-- Sums over the ranges add up if no mapping has the largest size. -/
theorem sum_sizeRanges {M : Type} [AddCommMonoid M]
    (h : ∀ m ∈ ms, sizeRanges.countP (fun range => range.contains m.size) = 1)
    (w : MemoryMapping → M) :
    (sizeRanges.map fun range => ((range.mappings ms).map w).sum).sum = (ms.map w).sum := by
  have hone : ∀ m ∈ ms, (sizeRanges.map fun (range : SizeRange) (m : MemoryMapping) =>
      range.contains m.size).countP (fun p => p m) = 1 := by
    intro m hm
    rw [List.countP_map]
    exact h m hm
  have hsum := sum_groups_of_countP_eq_one hone w
  rw [List.map_map] at hsum
  exact hsum

theorem sum_countBars (h : ∀ m ∈ ms, sizeRanges.countP (fun range => range.contains m.size) = 1)
    (hlen : ms.length < 2 ^ 64) :
    ((drawChartView .count ms).1.map fun bar => bar.2.toNat).sum = ms.length := by
  have hcount : ∀ range : SizeRange, (UInt64.ofNat (range.mappings ms).length).toNat =
      ((range.mappings ms).map fun _ => 1).sum := by
    intro range
    have hle : (range.mappings ms).length ≤ ms.length := List.length_filter_le _ _
    rw [UInt64.toNat_ofNat', Nat.mod_eq_of_lt (hle.trans_lt hlen)]
    simp
  rw [((bars_perm_chartData .count ms).map _).sum_eq]
  have hbars := sum_barsOf (fun ms => UInt64.ofNat ms.length) ms
  simp only [hcount] at hbars
  rw [sum_sizeRanges h] at hbars
  rw [chartData, hbars]
  simp

end Partition

/-- The ranges partition the mappings, with the counts and the resident sizes that the
histogram has, exactly if no mapping has the largest size there is; no bar is cut off. -/
theorem chart_partition_iff (stats : MemoryStats) (hlen : stats.mappings.length < 2 ^ 64) :
    ((∀ m ∈ stats.mappings, sizeRanges.countP (fun range => range.contains m.size) = 1) ∧
        ((drawChartView .count stats.mappings).1.map fun bar => bar.2.toNat).sum =
          stats.mappings.length ∧
        (sizeRanges.map fun range => sumRss (range.mappings stats.mappings)).sum =
          stats.buildHistogram.totalRss ∧
        ∀ metric, (drawChartView metric stats.mappings).1.Perm
          (chartData metric stats.mappings).1) ↔
      ∀ m ∈ stats.mappings, m.size ≠ 0xffffffffffffffff := by
  constructor
  · intro h m hm hsize
    have hone := h.1 m hm
    rw [countP_sizeRanges, if_pos hsize] at hone
    exact absurd hone (by decide)
  · intro h
    have hone : ∀ m ∈ stats.mappings,
        sizeRanges.countP (fun range => range.contains m.size) = 1 := by
      intro m hm
      rw [countP_sizeRanges, if_neg (h m hm)]
    refine ⟨hone, sum_countBars hone hlen, ?_, fun metric => bars_perm_chartData metric _⟩
    rw [buildHistogram_eq]
    exact sum_sizeRanges hone _

/-- A page, two mappings of 256 KB and one of 64 MB. -/
def mixedSizes : MemoryStats :=
  { MemoryStats.new with
    mappings :=
      [⟨0x1000, 0x2000, 0x1000, ['r'], some 0x1000, none, none⟩,
        ⟨0x10000, 0x50000, 0x40000, ['r', 'w'], some 0x3000, none, none⟩,
        ⟨0x4000000, 0x8000000, 0x4000000, ['r', 'x'], some 0x200000, none, none⟩,
        ⟨0x60000, 0xa0000, 0x40000, ['r', 'w'], some 0x5000, none, none⟩] }

theorem chart_partition_mixedSizes :
    ((drawChartView .count mixedSizes.mappings).1.map fun bar => bar.2.toNat).sum = 4 ∧
      (sizeRanges.map fun range => sumRss (range.mappings mixedSizes.mappings)).sum =
        mixedSizes.buildHistogram.totalRss := by
  have hparts := (chart_partition_iff mixedSizes (by decide)).mpr (by decide)
  exact ⟨hparts.2.1, hparts.2.2.1⟩

/-- The mapping of the whole address space, from `0` to `ffffffffffffffff`. -/
def wholeSpace : MemoryStats :=
  { MemoryStats.new with
    mappings := [⟨0, 0xffffffffffffffff, 0xffffffffffffffff, ['r'], some 0x1000, none, none⟩] }

theorem chart_loses_wholeSpace :
    (∀ range ∈ sizeRanges, range.contains 0xffffffffffffffff = false) ∧
      ((drawChartView .count wholeSpace.mappings).1.map fun bar => bar.2.toNat).sum ≠
        wholeSpace.mappings.length ∧
      (sizeRanges.map fun range => sumRss (range.mappings wholeSpace.mappings)).sum ≠
        wholeSpace.buildHistogram.totalRss := by
  decide +kernel

end SystemsExperiments.SmapsSpy
