import SystemsExperiments.Verification.SmapsSpy.Histogram
import Mathlib.Data.List.Forall2

/-! # The two parsers agree

`parse_maps_file` stores a mapping at once, `parse_smaps_file` keeps it until the next mapping
line or the end of the file. What the one has stored is at any line what the other has stored
and keeps, up to the statistics. -/

namespace SystemsExperiments.SmapsSpy

open Text

/-! ## What agrees -/

/-- Equal but for `rss` and `pss`. -/
structure SameMapping (m m' : MemoryMapping) : Prop where
  startAddr : m.startAddr = m'.startAddr
  endAddr : m.endAddr = m'.endAddr
  size : m.size = m'.size
  permissions : m.permissions = m'.permissions
  path : m.path = m'.path

/-- The part of an entry that does not depend on `rss` and `pss`. -/
def HistogramEntry.sizes (entry : HistogramEntry) : UInt32 × UInt64 :=
  (entry.count, entry.totalSize)

structure SameTotals (stats stats' : MemoryStats) : Prop where
  totalVirtual : stats.totalVirtual = stats'.totalVirtual
  histogram : ∀ key, (stats.histogram key).map HistogramEntry.sizes =
    (stats'.histogram key).map HistogramEntry.sizes

structure SameStats (stats stats' : MemoryStats) : Prop where
  mappings : List.Forall₂ SameMapping stats.mappings stats'.mappings
  totals : SameTotals stats stats'

/-- Both succeed with related results, or both fail alike. -/
def Related {ε α β : Type} (R : α → β → Prop) : Except ε α → Except ε β → Prop
  | .ok a, .ok b => R a b
  | .error e, .error e' => e = e'
  | _, _ => False

section Related

variable {ε α β α' β' : Type} {R : α → β → Prop} {R' : α' → β' → Prop}

theorem Related.refl (x : Except ε α) : Related Eq x x := by
  cases x with
  | ok a => exact rfl
  | error e => exact rfl

theorem Related.bind {x : Except ε α} {y : Except ε β} {f : α → Except ε α'}
    {g : β → Except ε β'} (h : Related R x y) (hfg : ∀ a b, R a b → Related R' (f a) (g b)) :
    Related R' (x >>= f) (y >>= g) := by
  cases x with
  | ok a =>
      cases y with
      | ok b => exact hfg a b h
      | error e => exact h.elim
  | error e =>
      cases y with
      | ok b => exact h.elim
      | error e' => exact h

end Related

/-- Two loops over the same lines agree if their bodies do. -/
theorem forLines_related {σ τ : Type} {R : σ → τ → Prop} {body : σ → List Char → Except Error σ}
    {body' : τ → List Char → Except Error τ}
    (hbody : ∀ st st' line, R st st' → Related R (body st line) (body' st' line))
    (n : ℕ) {st : σ} {st' : τ} (h : R st st') (reader : Reader) :
    Related R (forLines body n st reader) (forLines body' n st' reader) := by
  induction reader generalizing n st st' with
  | nil => exact h
  | cons line reader ih =>
      cases line with
      | error e => exact rfl
      | ok line =>
          have hline := hbody st st' line h
          simp only [forLines]
          cases hb : body st line with
          | ok next =>
              cases hb' : body' st' line with
              | ok next' =>
                  rw [hb, hb'] at hline
                  exact ih (n + 1) hline
              | error e => simp [hb, hb', Related] at hline
          | error e =>
              cases hb' : body' st' line with
              | ok next' => simp [hb, hb', Related] at hline
              | error e' =>
                  rw [hb, hb'] at hline
                  exact congrArg _ hline

/-! ## One line -/

/-- What a mapping line gives of a mapping. -/
def MemoryMapping.header (m : MemoryMapping) : MemoryMapping := { m with rss := none, pss := none }

theorem sameMapping_of_header_eq {m m' : MemoryMapping} (h : m.header = m'.header) :
    SameMapping m m' := by
  simp only [MemoryMapping.header, MemoryMapping.mk.injEq, true_and] at h
  obtain ⟨hstart, hend, hsize, hpermissions, hpath⟩ := h
  exact ⟨hstart, hend, hsize, hpermissions, hpath⟩

theorem forall₂_of_map_header_eq {ms ms' : List MemoryMapping}
    (h : ms.map MemoryMapping.header = ms'.map MemoryMapping.header) :
    List.Forall₂ SameMapping ms ms' := by
  rw [← List.forall₂_eq_eq_eq, List.forall₂_map_left_iff, List.forall₂_map_right_iff] at h
  exact h.imp fun m m' => sameMapping_of_header_eq

/-- A line of statistics touches nothing of the header. -/
theorem header_statisticsLine (m : MemoryMapping) (line : List Char) (parts : List (List Char)) :
    (statisticsLine m line parts).header = m.header := by
  rw [statisticsLine]
  split
  · rfl
  · split
    · rfl
    · rfl

/-- What the `smaps` parser has stored and keeps. -/
def SmapsState.all (st : SmapsState) : List MemoryMapping := st.mappings ++ st.currentMapping.toList

/-- Up to the statistics, the parsers have found the same mappings. -/
def InStep (ms : List MemoryMapping) (st : SmapsState) : Prop :=
  ms.map MemoryMapping.header = st.all.map MemoryMapping.header

theorem mapsLine_eq (ms : List MemoryMapping) (line : List Char) :
    mapsLine ms line =
      if 2 ≤ (splitWhitespace line).length ∧ ((splitWhitespace line).getD 0 []).contains '-' then do
        let mapping ← parseMapping (splitWhitespace line)
        return ms ++ mapping.toList
      else .ok ms := by
  simp only [mapsLine]
  by_cases hlen : (splitWhitespace line).length < 2
  · rw [if_pos hlen, if_neg (by omega)]
  · rw [if_neg hlen]
    by_cases hdash : ((splitWhitespace line).getD 0 []).contains '-' = true
    · rw [if_pos hdash, if_pos ⟨by omega, hdash⟩]
      congr 1
      funext mapping
      cases mapping with
      | none => simp
      | some mapping => rfl
    · rw [if_neg hdash, if_neg fun h => hdash h.2]

theorem smapsLine_eq (st : SmapsState) (line : List Char) :
    smapsLine st line =
      if 2 ≤ (splitWhitespace line).length ∧ ((splitWhitespace line).getD 0 []).contains '-' then do
        let currentMapping ← parseMapping (splitWhitespace line)
        return ⟨st.all, currentMapping⟩
      else if trim line = [] then .ok st
      else
        .ok ⟨st.mappings, st.currentMapping.map fun mapping =>
          statisticsLine mapping (trim line) (splitWhitespace line)⟩ := by
  simp only [smapsLine, splitWhitespace_trim]
  by_cases hempty : trim line = []
  · have hparts : splitWhitespace line = [] := by rw [← splitWhitespace_trim, hempty]; simp
    rw [if_pos hempty, if_pos hempty, if_neg (by simp [hparts])]
  · rw [if_neg hempty, if_neg hempty]
    rfl

/-- The parsers keep in step at every line. -/
theorem line_related (ms : List MemoryMapping) (st : SmapsState) (line : List Char)
    (h : InStep ms st) : Related InStep (mapsLine ms line) (smapsLine st line) := by
  rw [mapsLine_eq, smapsLine_eq]
  split
  · apply (Related.refl (parseMapping (splitWhitespace line))).bind
    rintro mapping _ rfl
    change (ms ++ mapping.toList).map MemoryMapping.header =
      (st.all ++ mapping.toList).map MemoryMapping.header
    rw [List.map_append, List.map_append, h]
  · split
    · exact h
    · refine h.trans ?_
      simp only [SmapsState.all, List.map_append]
      cases st.currentMapping with
      | none => rfl
      | some m => simp [header_statisticsLine]

/-! ## Totals -/

theorem sizes_getD {entry entry' : Option HistogramEntry}
    (h : entry.map HistogramEntry.sizes = entry'.map HistogramEntry.sizes) :
    (entry.getD ⟨0, 0, 0, 0⟩).sizes = (entry'.getD ⟨0, 0, 0, 0⟩).sizes := by
  cases entry with
  | none =>
      cases entry' with
      | none => rfl
      | some e' => cases h
  | some e =>
      cases entry' with
      | none => cases h
      | some e' => exact Option.some.inj h

theorem SameTotals.addMapping {stats stats' : MemoryStats} (h : SameTotals stats stats')
    {m m' : MemoryMapping} (hm : SameMapping m m') :
    SameTotals (stats.addMapping m) (stats'.addMapping m') := by
  obtain ⟨hvirtual, hhistogram⟩ := h
  constructor
  · simp only [MemoryStats.addMapping, hvirtual, hm.size]
  · intro key
    simp only [MemoryStats.addMapping, hm.size, hm.permissions]
    by_cases hkey : key = (m'.size, m'.permissions)
    · have hentry := sizes_getD (hhistogram (m'.size, m'.permissions))
      simp only [HistogramEntry.sizes, Prod.mk.injEq] at hentry
      subst hkey
      simp [HistogramEntry.sizes, hentry.1, hentry.2]
    · rw [Function.update_of_ne hkey, Function.update_of_ne hkey]
      exact hhistogram key

theorem sameStats_buildHistogram {ms ms' : List MemoryMapping}
    (h : List.Forall₂ SameMapping ms ms') :
    SameStats { MemoryStats.new with mappings := ms }.buildHistogram
      { MemoryStats.new with mappings := ms' }.buildHistogram := by
  constructor
  · rw [mappings_buildHistogram, mappings_buildHistogram]
    exact h
  · apply List.rel_foldl (P := SameTotals) (R := SameMapping) _ _ h
    · intro stats stats' hstats m m' hm
      exact hstats.addMapping hm
    · exact ⟨rfl, fun key => rfl⟩

/-- On every file that can be opened, whatever its lines and however reading them ends, both
parsers fail at the same line with the same error, or they return the same mappings up to
`rss` and `pss` and the same totals of what does not depend on these. -/
theorem parsers_agree (fs : FileSystem) (path : List Char) (reader : Reader)
    (hopen : fs.openLines path = .ok reader) :
    Related SameStats (parseMapsFile fs path) (parseSmapsFile fs path) := by
  have hstart : InStep [] ⟨[], none⟩ := rfl
  have hloop := forLines_related line_related 0 hstart reader
  have hmaps : openWith fs .openMapsFile path = .ok reader := by rw [openWith, hopen]
  have hsmaps : openWith fs .openSmapsFile path = .ok reader := by rw [openWith, hopen]
  rw [parseMapsFile, parseSmapsFile, hmaps, hsmaps]
  apply hloop.bind
  intro ms st hms
  exact sameStats_buildHistogram (forall₂_of_map_header_eq hms)

/-- A mapping, its statistics, a range of three parts, and a range without a start. -/
def malformedFile : FileSystem where
  openLines _ := .ok (["1-2 r-xp".toList, "Rss: 4 kB".toList, "1-2-3 rw-p".toList,
    "-7 rw-p".toList].map .ok)
  readToString _ := .error .invalidData

theorem parsers_agree_malformedFile :
    Related SameStats (parseMapsFile malformedFile []) (parseSmapsFile malformedFile []) :=
  parsers_agree malformedFile [] _ rfl

end SystemsExperiments.SmapsSpy
