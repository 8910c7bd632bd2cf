import SystemsExperiments.Model.SmapsSpy.Rows
import SystemsExperiments.Shared.Grouping
import Mathlib.Data.UInt

/-! # What the histogram sums up

`build_histogram` keeps one entry for each size and permissions and totals beside them. After
each mapping the entries are the sums over the mappings so far with their key, and the totals
the sums over all of them. -/

namespace SystemsExperiments.SmapsSpy

open Grouping

/-! ## Sums over mappings -/

def MemoryMapping.key (m : MemoryMapping) : HistogramKey := (m.size, m.permissions)

/-- The entry for these mappings; absent `rss` and `pss` count nothing. -/
def HistogramEntry.sumOf (ms : List MemoryMapping) : HistogramEntry where
  count := UInt32.ofNat ms.length
  totalSize := (ms.map fun m => m.size).sum
  totalRss := (ms.map fun m => m.rss.getD 0).sum
  totalPss := (ms.map fun m => m.pss.getD 0).sum

theorem addSome_eq (total : UInt64) (value : Option UInt64) :
    MemoryStats.addSome total value = total + value.getD 0 := by
  cases value with
  | none => simp [MemoryStats.addSome]
  | some x => rfl

theorem sumOf_append_singleton (ms : List MemoryMapping) (m : MemoryMapping) :
    HistogramEntry.sumOf (ms ++ [m]) =
      { count := (HistogramEntry.sumOf ms).count + 1
        totalSize := (HistogramEntry.sumOf ms).totalSize + m.size
        totalRss := MemoryStats.addSome (HistogramEntry.sumOf ms).totalRss m.rss
        totalPss := MemoryStats.addSome (HistogramEntry.sumOf ms).totalPss m.pss } := by
  simp [HistogramEntry.sumOf, addSome_eq, UInt32.ofNat_add]

theorem sumOf_perm {ms ms' : List MemoryMapping} (h : ms.Perm ms') :
    HistogramEntry.sumOf ms = HistogramEntry.sumOf ms' := by
  simp only [HistogramEntry.sumOf, HistogramEntry.mk.injEq]
  exact ⟨by rw [h.length_eq], (h.map _).sum_eq, (h.map _).sum_eq, (h.map _).sum_eq⟩

/-- The entry of a histogram of these mappings. -/
def entryOf (ms : List MemoryMapping) (key : HistogramKey) : Option HistogramEntry :=
  if key ∈ ms.map MemoryMapping.key then
    some (HistogramEntry.sumOf (withKey MemoryMapping.key key ms))
  else none

theorem entryOf_getD (ms : List MemoryMapping) (key : HistogramKey) :
    (entryOf ms key).getD ⟨0, 0, 0, 0⟩ =
      HistogramEntry.sumOf (withKey MemoryMapping.key key ms) := by
  by_cases hmem : key ∈ ms.map MemoryMapping.key
  · rw [entryOf, if_pos hmem, Option.getD_some]
  · rw [entryOf, if_neg hmem, (withKey_eq_nil_iff _ _ _).mpr hmem]
    rfl

theorem entryOf_perm {ms ms' : List MemoryMapping} (h : ms.Perm ms') :
    entryOf ms = entryOf ms' := by
  funext key
  have hmem : key ∈ ms.map MemoryMapping.key ↔ key ∈ ms'.map MemoryMapping.key :=
    (h.map _).mem_iff
  simp only [entryOf, hmem, sumOf_perm (withKey_perm MemoryMapping.key key h)]

/-! ## The loop -/

/-- The histogram and the totals are those of the mappings `done`. -/
structure Tallied (done : List MemoryMapping) (stats : MemoryStats) : Prop where
  histogram : stats.histogram = entryOf done
  totalVirtual : stats.totalVirtual = (HistogramEntry.sumOf done).totalSize
  totalRss : stats.totalRss = (HistogramEntry.sumOf done).totalRss
  totalPss : stats.totalPss = (HistogramEntry.sumOf done).totalPss

theorem entryOf_append_singleton (ms : List MemoryMapping) (m : MemoryMapping) :
    entryOf (ms ++ [m]) = Function.update (entryOf ms) m.key
      (some (HistogramEntry.sumOf (withKey MemoryMapping.key m.key ms ++ [m]))) := by
  funext key
  by_cases hkey : key = m.key
  · subst hkey
    rw [Function.update_self, entryOf, if_pos (by simp)]
    simp [withKey]
  · have hne : ¬ m.key = key := fun h => hkey h.symm
    have hmem : key ∈ (ms ++ [m]).map MemoryMapping.key ↔ key ∈ ms.map MemoryMapping.key := by
      simp [hkey]
    rw [Function.update_of_ne hkey, entryOf, entryOf]
    simp only [hmem]
    simp [withKey, hne]

theorem Tallied.addMapping {done : List MemoryMapping} {stats : MemoryStats}
    (h : Tallied done stats) (m : MemoryMapping) :
    Tallied (done ++ [m]) (stats.addMapping m) := by
  obtain ⟨hhistogram, hvirtual, hrss, hpss⟩ := h
  refine ⟨?_, ?_, ?_, ?_⟩
  · rw [entryOf_append_singleton, sumOf_append_singleton, ← entryOf_getD, ← hhistogram]
    rfl
  · rw [sumOf_append_singleton, ← hvirtual]
    rfl
  · rw [sumOf_append_singleton, ← hrss]
    rfl
  · rw [sumOf_append_singleton, ← hpss]
    rfl

theorem tallied_foldl {done : List MemoryMapping} {stats : MemoryStats} (h : Tallied done stats)
    (ms : List MemoryMapping) : Tallied (done ++ ms) (ms.foldl MemoryStats.addMapping stats) := by
  induction ms generalizing done stats with
  | nil => simpa using h
  | cons m ms ih =>
      have hrest := ih (h.addMapping m)
      rw [List.append_assoc, List.singleton_append] at hrest
      exact hrest

theorem tallied_start (stats : MemoryStats) : Tallied []
    { stats with histogram := fun _ => none, totalVirtual := 0, totalRss := 0, totalPss := 0 } := by
  refine ⟨?_, rfl, rfl, rfl⟩
  funext key
  simp [entryOf]

/-- Whatever was there before, the result is that of the mappings. -/
theorem tallied_buildHistogram (stats : MemoryStats) :
    Tallied stats.mappings stats.buildHistogram :=
  tallied_foldl (tallied_start stats) stats.mappings

theorem foldl_addMapping_frame (ms : List MemoryMapping) (stats : MemoryStats) :
    (ms.foldl MemoryStats.addMapping stats).mappings = stats.mappings ∧
      (ms.foldl MemoryStats.addMapping stats).processName = stats.processName ∧
      (ms.foldl MemoryStats.addMapping stats).pid = stats.pid := by
  induction ms generalizing stats with
  | nil => exact ⟨rfl, rfl, rfl⟩
  | cons m ms ih => exact ih (stats.addMapping m)

/-- The result in full. -/
theorem buildHistogram_eq (stats : MemoryStats) :
    stats.buildHistogram =
      { stats with
        histogram := entryOf stats.mappings
        totalVirtual := (HistogramEntry.sumOf stats.mappings).totalSize
        totalRss := (HistogramEntry.sumOf stats.mappings).totalRss
        totalPss := (HistogramEntry.sumOf stats.mappings).totalPss } := by
  obtain ⟨hhistogram, hvirtual, hrss, hpss⟩ := tallied_buildHistogram stats
  obtain ⟨hmappings, hname, hpid⟩ := foldl_addMapping_frame stats.mappings
    { stats with histogram := fun _ => none, totalVirtual := 0, totalRss := 0, totalPss := 0 }
  rw [← hhistogram, ← hvirtual, ← hrss, ← hpss]
  cases hbuilt : stats.buildHistogram with
  | mk mappings histogram totalVirtual totalRss totalPss processName pid =>
      rw [MemoryStats.buildHistogram] at hbuilt
      rw [hbuilt] at hmappings hname hpid
      cases hmappings
      cases hname
      cases hpid
      rfl

theorem mappings_buildHistogram (stats : MemoryStats) :
    stats.buildHistogram.mappings = stats.mappings := by
  rw [buildHistogram_eq]

/-! ## Entries and totals -/

theorem entryOf_eq_some_iff (ms : List MemoryMapping) (key : HistogramKey)
    (entry : HistogramEntry) :
    entryOf ms key = some entry ↔
      key ∈ ms.map MemoryMapping.key ∧
        entry = HistogramEntry.sumOf (withKey MemoryMapping.key key ms) := by
  rw [entryOf]
  split
  next hmem =>
    rw [Option.some.injEq, eq_comm]
    exact (and_iff_right hmem).symm
  next hmem => simp [hmem]

/-- The row that sums up the mappings with the key. -/
def rowOf (ms : List MemoryMapping) (key : HistogramKey) : HistogramRow :=
  (key, HistogramEntry.sumOf (withKey MemoryMapping.key key ms))

theorem nodup_map_rowOf (ms : List MemoryMapping) {keys : List HistogramKey} (h : keys.Nodup) :
    ((keys.map (rowOf ms)).map Prod.fst).Nodup := by
  have hkeys : (keys.map (rowOf ms)).map Prod.fst = keys := by
    rw [List.map_map]
    exact List.map_id keys
  rwa [hkeys]

theorem mem_map_rowOf_iff (ms : List MemoryMapping) (row : HistogramRow) :
    row ∈ (ms.map MemoryMapping.key).dedup.map (rowOf ms) ↔ entryOf ms row.1 = some row.2 := by
  rw [entryOf_eq_some_iff, List.mem_map]
  constructor
  · rintro ⟨key, hmem, rfl⟩
    exact ⟨List.mem_dedup.mp hmem, rfl⟩
  · rintro ⟨hmem, hentry⟩
    exact ⟨row.1, List.mem_dedup.mpr hmem, Prod.ext rfl hentry.symm⟩

/-- One order of the entries. -/
def iterationOf (ms : List MemoryMapping) : Iteration (entryOf ms) where
  rows := (ms.map MemoryMapping.key).dedup.map (rowOf ms)
  nodup := nodup_map_rowOf ms (List.nodup_dedup _)
  mem_iff := mem_map_rowOf_iff ms

/-- Every row is the sum over the mappings with its key. -/
theorem Iteration.rows_eq {ms : List MemoryMapping} (it : Iteration (entryOf ms)) :
    it.rows = (it.rows.map Prod.fst).map (rowOf ms) := by
  rw [List.map_map]
  conv_lhs => rw [← List.map_id it.rows]
  apply List.map_congr_left
  intro row hrow
  have hentry := ((entryOf_eq_some_iff ms row.1 row.2).mp ((it.mem_iff row).mp hrow)).2
  exact Prod.ext rfl hentry

theorem Iteration.mem_keys_iff {ms : List MemoryMapping} (it : Iteration (entryOf ms))
    (key : HistogramKey) : key ∈ it.rows.map Prod.fst ↔ key ∈ ms.map MemoryMapping.key := by
  constructor
  · intro hmem
    obtain ⟨⟨key', entry⟩, hrow, rfl⟩ := List.mem_map.mp hmem
    exact ((entryOf_eq_some_iff ms key' entry).mp ((it.mem_iff _).mp hrow)).1
  · intro hmem
    have hsome := (entryOf_eq_some_iff ms key _).mpr ⟨hmem, rfl⟩
    exact List.mem_map.mpr ⟨(key, _), (it.mem_iff _).mpr hsome, rfl⟩

/-- There are at most as many rows as mappings. -/
theorem Iteration.length_le {ms : List MemoryMapping} (it : Iteration (entryOf ms)) :
    it.rows.length ≤ ms.length := by
  have hsub : it.rows.map Prod.fst ⊆ ms.map MemoryMapping.key :=
    fun key hkey => (it.mem_keys_iff key).mp hkey
  have hle := (it.nodup.subperm hsub).length_le
  rwa [List.length_map, List.length_map] at hle

/-- A sum over the rows is the sum over the mappings. -/
theorem Iteration.sum_rows {M : Type} [AddCommMonoid M] {ms : List MemoryMapping}
    (it : Iteration (entryOf ms)) {part : HistogramEntry → M} {w : MemoryMapping → M}
    (hpart : ∀ ms, part (HistogramEntry.sumOf ms) = (ms.map w).sum) :
    (it.rows.map fun row => part row.2).sum = (ms.map w).sum := by
  have hkeys : ∀ m ∈ ms, m.key ∈ it.rows.map Prod.fst := by
    intro m hm
    exact (it.mem_keys_iff m.key).mpr (List.mem_map_of_mem hm)
  rw [← sum_withKey it.nodup hkeys w, it.rows_eq, List.map_map]
  simp only [List.map_map, Function.comp_def, rowOf, hpart]

theorem count_sumOf (ms : List MemoryMapping) :
    (HistogramEntry.sumOf ms).count = (ms.map fun _ => (1 : UInt32)).sum := by
  induction ms with
  | nil => rfl
  | cons m ms ih =>
      rw [List.map_cons, List.sum_cons, ← ih]
      simp [HistogramEntry.sumOf, UInt32.ofNat_add, add_comm]

/-- `build_histogram` on any statistics: the keys are those of the mappings, each entry sums
up the mappings with its key, the entries add up to the totals in whatever order the map is
read, and neither the order of the mappings nor a second call changes the result. -/
theorem histogram_conservation (stats : MemoryStats) :
    (∀ key, stats.buildHistogram.histogram key ≠ none ↔
        ∃ m ∈ stats.mappings, (m.size, m.permissions) = key) ∧
      (∀ key entry, stats.buildHistogram.histogram key = some entry →
        let ms := stats.mappings.filter fun m => (m.size, m.permissions) = key
        entry.count = UInt32.ofNat ms.length ∧
          entry.totalSize = (ms.map fun m => m.size).sum ∧
          entry.totalRss = (ms.map fun m => m.rss.getD 0).sum ∧
          entry.totalPss = (ms.map fun m => m.pss.getD 0).sum) ∧
      (∀ it : Iteration stats.buildHistogram.histogram,
        (it.rows.map fun row => row.2.count).sum = UInt32.ofNat stats.mappings.length ∧
          (it.rows.map fun row => row.2.totalSize).sum = stats.buildHistogram.totalVirtual ∧
          (it.rows.map fun row => row.2.totalRss).sum = stats.buildHistogram.totalRss ∧
          (it.rows.map fun row => row.2.totalPss).sum = stats.buildHistogram.totalPss) ∧
      (∀ ms : List MemoryMapping, stats.mappings.Perm ms →
        { stats with mappings := ms }.buildHistogram =
          { stats.buildHistogram with mappings := ms }) ∧
      stats.buildHistogram.buildHistogram = stats.buildHistogram := by
  rw [buildHistogram_eq stats]
  refine ⟨?_, ?_, ?_, ?_, ?_⟩
  · intro key
    rw [Option.ne_none_iff_exists']
    simp only [entryOf_eq_some_iff, List.mem_map]
    constructor
    · rintro ⟨entry, hmem, -⟩
      exact hmem
    · intro hmem
      exact ⟨_, hmem, rfl⟩
  · intro key entry hentry
    obtain ⟨-, rfl⟩ := (entryOf_eq_some_iff _ _ _).mp hentry
    exact ⟨rfl, rfl, rfl, rfl⟩
  · intro it
    refine ⟨?_, it.sum_rows fun _ => rfl, it.sum_rows fun _ => rfl, it.sum_rows fun _ => rfl⟩
    rw [it.sum_rows count_sumOf, ← count_sumOf]
    rfl
  · intro ms hperm
    rw [buildHistogram_eq]
    simp only [entryOf_perm hperm, sumOf_perm hperm]
  · rw [buildHistogram_eq]

end SystemsExperiments.SmapsSpy
