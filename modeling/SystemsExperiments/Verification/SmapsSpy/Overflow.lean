import SystemsExperiments.Verification.SmapsSpy.Checked

/-! # When the parsers overflow

The numbers of a file are read off its lines as they stand. The parsers overflow exactly if
these do not fit, as single values or summed up. -/

namespace SystemsExperiments.SmapsSpy

open Text Checked Grouping

/-! ## What a file says -/

/-- A mapping with the numbers of its lines: each line of statistics adds a value in kB, of
which the last one counts. -/
structure Reading where
  startAddr : UInt64
  endAddr : UInt64
  permissions : List Char
  path : Option (List Char)
  rss : List UInt64
  pss : List UInt64
  deriving DecidableEq

namespace Reading

def size (r : Reading) : ℕ := r.endAddr.toNat - r.startAddr.toNat

def rssBytes (r : Reading) : ℕ := (r.rss.getLast?.getD 0).toNat * 1024

def pssBytes (r : Reading) : ℕ := (r.pss.getLast?.getD 0).toNat * 1024

def addStatistic (r : Reading) : Statistic → Reading
  | .rss kb => { r with rss := r.rss ++ [kb] }
  | .pss kb => { r with pss := r.pss ++ [kb] }

/-- What a release build makes of it. -/
def mapping (r : Reading) : MemoryMapping where
  startAddr := r.startAddr
  endAddr := r.endAddr
  size := r.endAddr - r.startAddr
  permissions := r.permissions
  rss := r.rss.getLast?.map fun kb => kb * bytesPerKb
  pss := r.pss.getLast?.map fun kb => kb * bytesPerKb
  path := r.path

end Reading

inductive Item where
  | other
  /-- A mapping line with an address that is no number. -/
  | bad
  /-- A mapping line with several dashes. -/
  | dashes
  | header (r : Reading)
  | statistic (s : Statistic)
  deriving DecidableEq

def headerItem (parts : List (List Char)) : Item :=
  match addressesOf parts with
  | .ok (some (startAddr, endAddr)) =>
      .header
        { startAddr, endAddr
          permissions := parts.getD 1 []
          path := if 5 < parts.length then some ([' '].intercalate (parts.drop 5)) else none
          rss := []
          pss := [] }
  | .ok none => .dashes
  | .error _ => .bad

def itemOf (type : FileType) (line : List Char) : Item :=
  if IsHeader (splitWhitespace line) then headerItem (splitWhitespace line)
  else
    match type with
    | .maps => .other
    | .smaps => (statisticOf (trim line) (splitWhitespace line)).elim .other .statistic

/-- The mappings that are complete, and the one whose statistics are being read. -/
structure ReadState where
  done : List Reading
  current : Option Reading

def ReadState.all (rs : ReadState) : List Reading := rs.done ++ rs.current.toList

def readItem (rs : ReadState) : Item → ReadState
  | .other | .bad => rs
  | .dashes => ⟨rs.all, none⟩
  | .header r => ⟨rs.all, some r⟩
  | .statistic s => ⟨rs.done, rs.current.map fun r => r.addStatistic s⟩

def itemsOf (type : FileType) (text : List Char) : List Item := (lines text).map (itemOf type)

/-- The mappings of the lines up to one with a bad address. -/
def readings (type : FileType) (text : List Char) : List Reading :=
  (((itemsOf type text).takeWhile (· ≠ .bad)).foldl readItem ⟨[], none⟩).all

/-- The type that `detect_file_type` finds. -/
def fileTypeOf (text : List Char) : FileType :=
  (detectLines false 0 0 ((lines text).map .ok)).toOption.getD .maps

/-- Everything in the file fits: addresses are in order, statistics fit in bytes, and unless
an address is bad, so do the totals and the numbers of mappings that are alike. -/
structure InBounds (type : FileType) (text : List Char) : Prop where
  ranges : ∀ r ∈ readings type text, r.startAddr ≤ r.endAddr
  statistics : ∀ r ∈ readings type text, ∀ kb ∈ r.rss ++ r.pss, kb.toNat * 1024 < 2 ^ 64
  totals : .bad ∉ itemsOf type text →
    ((readings type text).map Reading.size).sum < 2 ^ 64 ∧
      ((readings type text).map Reading.rssBytes).sum < 2 ^ 64 ∧
      ((readings type text).map Reading.pssBytes).sum < 2 ^ 64
  counts : .bad ∉ itemsOf type text → ∀ size permissions,
    ((readings type text).filter fun r =>
      r.size = size ∧ r.permissions = permissions).length < 2 ^ 32

/-! ## One line -/

/-- The values of one mapping fit. -/
structure Reading.Ok (r : Reading) : Prop where
  range : r.startAddr ≤ r.endAddr
  rss : ∀ kb ∈ r.rss, FitsBytes kb
  pss : ∀ kb ∈ r.pss, FitsBytes kb

theorem ok_addStatistic_iff (r : Reading) (s : Statistic) :
    (r.addStatistic s).Ok ↔ r.Ok ∧ FitsBytes s.kb := by
  cases s with
  | rss kb =>
      constructor
      · intro h
        have hrss := List.forall_mem_append.mp h.rss
        exact ⟨⟨h.range, hrss.1, h.pss⟩, hrss.2 kb List.mem_cons_self⟩
      · intro h
        refine ⟨h.1.range, List.forall_mem_append.mpr ⟨h.1.rss, ?_⟩, h.1.pss⟩
        exact List.forall_mem_singleton.mpr h.2
  | pss kb =>
      constructor
      · intro h
        have hpss := List.forall_mem_append.mp h.pss
        exact ⟨⟨h.range, h.rss, hpss.1⟩, hpss.2 kb List.mem_cons_self⟩
      · intro h
        refine ⟨h.1.range, h.1.rss, List.forall_mem_append.mpr ⟨h.1.pss, ?_⟩⟩
        exact List.forall_mem_singleton.mpr h.2

def ReadState.Sound (rs : ReadState) : Prop := ∀ r ∈ rs.all, r.Ok

/-- What an item adds fits. -/
def ItemOk (rs : ReadState) : Item → Prop
  | .header r => r.Ok
  | .statistic s => rs.current ≠ none → FitsBytes s.kb
  | _ => True

theorem sound_readItem_iff (rs : ReadState) (item : Item) :
    (readItem rs item).Sound ↔ rs.Sound ∧ ItemOk rs item := by
  cases item with
  | other => exact (and_iff_left trivial).symm
  | bad => exact (and_iff_left trivial).symm
  | dashes => simp [ReadState.Sound, readItem, ReadState.all, ItemOk]
  | header r =>
      have hall : (readItem rs (.header r)).all = rs.all ++ [r] := rfl
      rw [ReadState.Sound, hall, List.forall_mem_append, List.forall_mem_singleton]
      rfl
  | statistic s =>
      rw [ReadState.Sound, ReadState.Sound, ReadState.all, ReadState.all, List.forall_mem_append,
        List.forall_mem_append, readItem, ItemOk]
      cases rs.current with
      | none => simp
      | some r => simp [ok_addStatistic_iff, and_assoc]

theorem sound_of_foldl {rs : ReadState} {items : List Item} (h : (items.foldl readItem rs).Sound) :
    rs.Sound := by
  induction items generalizing rs with
  | nil => exact h
  | cons item items ih => exact ((sound_readItem_iff rs item).mp (ih h)).1

/-! ## The loop -/

section Loop

variable {σ : Type} {view : ReadState → σ} {body : σ → List Char → Except Error σ}
  {ok : σ → List Char → Prop} {item : List Char → Item}

/-- The state of a parser is a view of what has been read. -/
structure Follows (view : ReadState → σ) (body : σ → List Char → Except Error σ)
    (ok : σ → List Char → Prop) (item : List Char → Item) : Prop where
  bad : ∀ rs line, item line = .bad → ∃ e, body (view rs) line = .error e
  good : ∀ rs line, item line ≠ .bad →
    body (view rs) line = .ok (view (readItem rs (item line)))
  ok_iff : ∀ rs line, ok (view rs) line ↔ ItemOk rs (item line)

theorem Follows.forLines_eq (h : Follows view body ok item) (n : ℕ) (rs : ReadState)
    {ls : List (List Char)} (hgood : .bad ∉ ls.map item) :
    forLines body n (view rs) (ls.map .ok) = .ok (view ((ls.map item).foldl readItem rs)) := by
  induction ls generalizing n rs with
  | nil => rfl
  | cons line ls ih =>
      rw [List.map_cons, List.mem_cons, not_or] at hgood
      rw [List.map_cons, forLines, h.good rs line (Ne.symm hgood.1)]
      exact ih (n + 1) _ hgood.2

theorem Follows.forLines_error (h : Follows view body ok item) (n : ℕ) (rs : ReadState)
    {ls : List (List Char)} (hbad : .bad ∈ ls.map item) :
    ∃ e, forLines body n (view rs) (ls.map .ok) = .error e := by
  induction ls generalizing n rs with
  | nil => cases hbad
  | cons line ls ih =>
      rw [List.map_cons, forLines]
      by_cases hline : item line = .bad
      · obtain ⟨e, he⟩ := h.bad rs line hline
        rw [he]
        exact ⟨_, rfl⟩
      · rw [h.good rs line hline]
        rw [List.map_cons, List.mem_cons] at hbad
        exact ih (n + 1) _ (hbad.resolve_left (Ne.symm hline))

/-- Every line that is reached fits exactly if everything that is read does. -/
theorem Follows.linesOk_iff (h : Follows view body ok item) {rs : ReadState} (hrs : rs.Sound)
    (ls : List (List Char)) :
    LinesOk ok body (view rs) ls ↔
      (((ls.map item).takeWhile (· ≠ .bad)).foldl readItem rs).Sound := by
  induction ls generalizing rs with
  | nil => exact iff_of_true trivial hrs
  | cons line ls ih =>
      rw [LinesOk, h.ok_iff, List.map_cons]
      by_cases hline : item line = .bad
      · rw [List.takeWhile_cons_of_neg (by simp [hline])]
        obtain ⟨e, he⟩ := h.bad rs line hline
        refine iff_of_true ⟨?_, ?_⟩ hrs
        · rw [hline]
          trivial
        · intro st' heq
          rw [he] at heq
          cases heq
      · rw [List.takeWhile_cons_of_pos (by simp [hline]), List.foldl_cons, h.good rs line hline]
        have hnext := sound_readItem_iff rs (item line)
        constructor
        · intro hall
          have hsound := hnext.mpr ⟨hrs, hall.1⟩
          exact (ih hsound).mp (hall.2 _ rfl)
        · intro hall
          have hsound := sound_of_foldl hall
          refine ⟨(hnext.mp hsound).2, ?_⟩
          intro st' heq
          cases heq
          exact (ih hsound).mpr hall

end Loop

/-! ## The two parsers -/

theorem parseMapping_eq (parts : List (List Char)) :
    parseMapping parts = addressesOf parts >>= fun addresses =>
      .ok (addresses.map fun a =>
        { startAddr := a.1
          endAddr := a.2
          size := a.2 - a.1
          permissions := parts.getD 1 []
          rss := none
          pss := none
          path :=
            if 5 < parts.length then some ([' '].intercalate (parts.drop 5)) else none }) := by
  simp only [parseMapping, addressesOf]
  generalize (parts.getD 0 []).splitOn '-' = range
  rcases range with _ | ⟨start, _ | ⟨stop, _ | ⟨more, rest⟩⟩⟩
  · rfl
  · rfl
  · dsimp only
    cases parseAddress .startAddress start with
    | error e => rfl
    | ok startAddr =>
        cases parseAddress .endAddress stop with
        | error e => rfl
        | ok endAddr => rfl
  · rfl

/-- The mapping of a mapping line. -/
def Item.reading : Item → Option Reading
  | .header r => some r
  | _ => none

theorem parseMapping_of_bad {parts : List (List Char)} (h : headerItem parts = .bad) :
    ∃ e, parseMapping parts = .error e := by
  rw [parseMapping_eq]
  rw [headerItem] at h
  cases haddresses : addressesOf parts with
  | error e => exact ⟨e, rfl⟩
  | ok addresses =>
      rw [haddresses] at h
      cases addresses with
      | none => cases h
      | some addresses => cases h

theorem parseMapping_of_ne_bad {parts : List (List Char)} (h : headerItem parts ≠ .bad) :
    parseMapping parts = .ok ((headerItem parts).reading.map Reading.mapping) := by
  rw [parseMapping_eq]
  rw [headerItem] at h ⊢
  cases haddresses : addressesOf parts with
  | error e =>
      rw [haddresses] at h
      exact absurd rfl h
  | ok addresses =>
      cases addresses with
      | none => rfl
      | some addresses => rfl

theorem readItem_headerItem (rs : ReadState) {parts : List (List Char)}
    (h : headerItem parts ≠ .bad) :
    readItem rs (headerItem parts) = ⟨rs.all, (headerItem parts).reading⟩ := by
  rw [headerItem] at h ⊢
  cases haddresses : addressesOf parts with
  | error e =>
      rw [haddresses] at h
      exact absurd rfl h
  | ok addresses =>
      cases addresses with
      | none => rfl
      | some addresses => rfl

theorem rangeOk_iff (rs : ReadState) (parts : List (List Char)) :
    RangeOk parts ↔ ItemOk rs (headerItem parts) := by
  rw [RangeOk, headerItem]
  cases addressesOf parts with
  | error e => simp [ItemOk]
  | ok addresses =>
      cases addresses with
      | none => simp [ItemOk]
      | some addresses =>
          constructor
          · intro h
            exact ⟨h _ _ rfl, List.forall_mem_nil _, List.forall_mem_nil _⟩
          · intro h startAddr endAddr heq
            cases heq
            exact h.range

theorem itemOf_of_header (type : FileType) {line : List Char}
    (h : IsHeader (splitWhitespace line)) : itemOf type line = headerItem (splitWhitespace line) :=
  if_pos h

theorem itemOf_maps {line : List Char} (h : ¬ IsHeader (splitWhitespace line)) :
    itemOf .maps line = .other := if_neg h

theorem itemOf_smaps {line : List Char} (h : ¬ IsHeader (splitWhitespace line)) :
    itemOf .smaps line =
      (statisticOf (trim line) (splitWhitespace line)).elim .other .statistic := if_neg h

/-- The mappings that `parse_maps_file` has stored. -/
def mapsView (rs : ReadState) : List MemoryMapping := rs.all.map Reading.mapping

theorem follows_maps : Follows mapsView mapsLine MapsLineOk (itemOf .maps) where
  bad rs line hbad := by
    by_cases hheader : IsHeader (splitWhitespace line)
    · rw [itemOf_of_header _ hheader] at hbad
      obtain ⟨e, he⟩ := parseMapping_of_bad hbad
      rw [mapsLine_eq, if_pos hheader, he]
      exact ⟨e, rfl⟩
    · rw [itemOf_maps hheader] at hbad
      cases hbad
  good rs line hgood := by
    rw [mapsLine_eq]
    by_cases hheader : IsHeader (splitWhitespace line)
    · rw [itemOf_of_header _ hheader] at hgood ⊢
      rw [if_pos hheader, parseMapping_of_ne_bad hgood, readItem_headerItem rs hgood]
      cases (headerItem (splitWhitespace line)).reading with
      | none => simp [mapsView, ReadState.all, bind, Except.bind, pure, Except.pure]
      | some r => simp [mapsView, ReadState.all, bind, Except.bind, pure, Except.pure]
    · rw [if_neg hheader, itemOf_maps hheader]
      rfl
  ok_iff rs line := by
    by_cases hheader : IsHeader (splitWhitespace line)
    · rw [itemOf_of_header _ hheader, ← rangeOk_iff]
      exact ⟨fun h => h hheader, fun h _ => h⟩
    · rw [itemOf_maps hheader]
      exact iff_of_true (fun h => absurd h hheader) trivial

/-- What `parse_smaps_file` has stored and keeps. -/
def smapsView (rs : ReadState) : SmapsState :=
  ⟨rs.done.map Reading.mapping, rs.current.map Reading.mapping⟩

theorem all_smapsView (rs : ReadState) : (smapsView rs).all = rs.all.map Reading.mapping := by
  rw [SmapsState.all, smapsView, ReadState.all, List.map_append]
  cases rs.current with
  | none => rfl
  | some r => rfl

theorem mapping_addStatistic (r : Reading) (s : Statistic) :
    (r.addStatistic s).mapping = s.apply r.mapping := by
  cases s with
  | rss kb => simp [Reading.addStatistic, Reading.mapping, Statistic.apply]
  | pss kb => simp [Reading.addStatistic, Reading.mapping, Statistic.apply]

theorem smapsLine_of_not_header {line : List Char} (h : ¬ IsHeader (splitWhitespace line))
    (rs : ReadState) :
    smapsLine (smapsView rs) line = .ok (smapsView (readItem rs (itemOf .smaps line))) := by
  rw [smapsLine_eq, if_neg h, itemOf_smaps h]
  by_cases hblank : trim line = []
  · rw [if_pos hblank, statisticOf_of_trim_eq_nil hblank]
    rfl
  · rw [if_neg hblank]
    simp only [statisticsLine_eq]
    cases statisticOf (trim line) (splitWhitespace line) with
    | none => simp [smapsView, readItem, Function.comp_def]
    | some s => simp [smapsView, readItem, mapping_addStatistic, Function.comp_def]

theorem follows_smaps : Follows smapsView smapsLine SmapsLineOk (itemOf .smaps) where
  bad rs line hbad := by
    by_cases hheader : IsHeader (splitWhitespace line)
    · rw [itemOf_of_header _ hheader] at hbad
      obtain ⟨e, he⟩ := parseMapping_of_bad hbad
      rw [smapsLine_eq, if_pos hheader, he]
      exact ⟨e, rfl⟩
    · rw [itemOf_smaps hheader] at hbad
      cases hstatistic : statisticOf (trim line) (splitWhitespace line) with
      | none => simp [hstatistic] at hbad
      | some s => simp [hstatistic] at hbad
  good rs line hgood := by
    by_cases hheader : IsHeader (splitWhitespace line)
    · rw [itemOf_of_header _ hheader] at hgood ⊢
      rw [smapsLine_eq, if_pos hheader, all_smapsView, parseMapping_of_ne_bad hgood,
        readItem_headerItem rs hgood]
      rfl
    · exact smapsLine_of_not_header hheader rs
  ok_iff rs line := by
    by_cases hheader : IsHeader (splitWhitespace line)
    · rw [itemOf_of_header _ hheader, ← rangeOk_iff]
      exact ⟨fun h => h.range hheader, fun h => ⟨fun _ => h, fun hnot => absurd hheader hnot⟩⟩
    · have hcurrent : (smapsView rs).currentMapping ≠ none ↔ rs.current ≠ none := by
        simp [smapsView]
      have hiff : SmapsLineOk (smapsView rs) line ↔
          (rs.current ≠ none → StatisticOk (trim line) (splitWhitespace line)) := by
        rw [← hcurrent]
        exact ⟨fun h => h.statistic hheader, fun h => ⟨fun hnot => absurd hnot hheader, fun _ => h⟩⟩
      rw [hiff, itemOf_smaps hheader, StatisticOk]
      cases statisticOf (trim line) (splitWhitespace line) with
      | none => simp [ItemOk]
      | some s => simp [ItemOk]

/-! ## Totals -/

theorem toNat_mul_bytesPerKb {kb : UInt64} (h : FitsBytes kb) :
    (kb * bytesPerKb).toNat = kb.toNat * 1024 := by
  rw [UInt64.toNat_mul]
  exact Nat.mod_eq_of_lt h

theorem toNat_last {kbs : List UInt64} (h : ∀ kb ∈ kbs, FitsBytes kb) :
    ((kbs.getLast?.map fun kb => kb * bytesPerKb).getD 0).toNat =
      (kbs.getLast?.getD 0).toNat * 1024 := by
  cases hlast : kbs.getLast? with
  | none => rfl
  | some kb => exact toNat_mul_bytesPerKb (h kb (List.mem_of_getLast? hlast))

section Totals

variable {rs : List Reading} (hok : ∀ r ∈ rs, r.Ok)

theorem total_map_mapping {w : MemoryMapping → UInt64} {v : Reading → ℕ}
    (h : ∀ r ∈ rs, (w r.mapping).toNat = v r) :
    total w (rs.map Reading.mapping) = (rs.map v).sum := by
  rw [total, List.map_map]
  congr 1
  exact List.map_congr_left h

include hok

theorem toNat_size {r : Reading} (hr : r ∈ rs) : r.mapping.size.toNat = r.size :=
  UInt64.toNat_sub_of_le _ _ (hok r hr).range

theorem length_withKey_mapping (key : HistogramKey) :
    (withKey MemoryMapping.key key (rs.map Reading.mapping)).length =
      (rs.filter fun r => r.size = key.1.toNat ∧ r.permissions = key.2).length := by
  rw [withKey, List.filter_map, List.length_map]
  congr 1
  apply List.filter_congr
  intro r hr
  rw [Function.comp_apply, decide_eq_decide, MemoryMapping.key, Prod.ext_iff,
    ← UInt64.toNat_inj, toNat_size hok hr]
  rfl

theorem totalsOk_iff :
    TotalsOk (rs.map Reading.mapping) ↔
      ((rs.map Reading.size).sum < 2 ^ 64 ∧ (rs.map Reading.rssBytes).sum < 2 ^ 64 ∧
        (rs.map Reading.pssBytes).sum < 2 ^ 64) ∧
      ∀ size permissions,
        (rs.filter fun r => r.size = size ∧ r.permissions = permissions).length < 2 ^ 32 := by
  have hsize : total MemoryMapping.size (rs.map Reading.mapping) = (rs.map Reading.size).sum :=
    total_map_mapping fun r hr => toNat_size hok hr
  have hrss : total rssOf (rs.map Reading.mapping) = (rs.map Reading.rssBytes).sum :=
    total_map_mapping fun r hr => toNat_last (hok r hr).rss
  have hpss : total pssOf (rs.map Reading.mapping) = (rs.map Reading.pssBytes).sum :=
    total_map_mapping fun r hr => toNat_last (hok r hr).pss
  constructor
  · intro h
    rw [← hsize, ← hrss, ← hpss]
    refine ⟨⟨h.virtual, h.rss, h.pss⟩, ?_⟩
    intro size permissions
    by_cases hlt : size < 2 ^ 64
    · have hcount := h.count (UInt64.ofNat size, permissions)
      rw [length_withKey_mapping hok, UInt64.toNat_ofNat', Nat.mod_eq_of_lt hlt] at hcount
      exact hcount
    · -- no mapping is that large
      have hnil : (rs.filter fun r => r.size = size ∧ r.permissions = permissions) = [] := by
        rw [List.filter_eq_nil_iff]
        intro r hr hmatch
        have hbound := r.mapping.size.toNat_lt
        rw [toNat_size hok hr] at hbound
        have heq := (of_decide_eq_true hmatch).1
        omega
      rw [hnil]
      decide
  · intro h
    obtain ⟨⟨h₁, h₂, h₃⟩, hcount⟩ := h
    refine ⟨hsize ▸ h₁, hrss ▸ h₂, hpss ▸ h₃, ?_⟩
    intro key
    rw [length_withKey_mapping hok]
    exact hcount _ _

end Totals

/-! ## The file -/

/-- The state after the lines that are read. -/
def readTo (type : FileType) (text : List Char) : ReadState :=
  ((itemsOf type text).takeWhile (· ≠ .bad)).foldl readItem ⟨[], none⟩

theorem sound_start : (⟨[], none⟩ : ReadState).Sound := by
  intro r hr
  cases hr

theorem foldl_eq_readTo {type : FileType} {text : List Char} (h : .bad ∉ itemsOf type text) :
    (itemsOf type text).foldl readItem ⟨[], none⟩ = readTo type text := by
  have hall : (itemsOf type text).takeWhile (· ≠ .bad) = itemsOf type text := by
    rw [List.takeWhile_eq_self_iff]
    intro item hitem
    rw [decide_eq_true_eq]
    exact fun heq => h (heq ▸ hitem)
  rw [readTo, hall]

/-- Everything fits, in terms of the readings. -/
theorem inBounds_iff (type : FileType) (text : List Char) :
    InBounds type text ↔ (readTo type text).Sound ∧
      (.bad ∉ itemsOf type text → TotalsOk ((readTo type text).all.map Reading.mapping)) := by
  have hreadings : readings type text = (readTo type text).all := rfl
  constructor
  · intro h
    have hok : (readTo type text).Sound := by
      intro r hr
      have hstatistics := List.forall_mem_append.mp (h.statistics r hr)
      exact ⟨h.ranges r hr, hstatistics.1, hstatistics.2⟩
    exact ⟨hok, fun hbad => (totalsOk_iff hok).mpr ⟨h.totals hbad, h.counts hbad⟩⟩
  · intro h
    refine ⟨fun r hr => (h.1 r hr).range, ?_, ?_, ?_⟩
    · intro r hr
      exact List.forall_mem_append.mpr ⟨(h.1 r hr).rss, (h.1 r hr).pss⟩
    · intro hbad
      exact ((totalsOk_iff h.1).mp (h.2 hbad)).1
    · intro hbad
      exact ((totalsOk_iff h.1).mp (h.2 hbad)).2

/-- A loop that ends well has come by no item that is bad. -/
theorem Follows.eq_view {σ : Type} {view : ReadState → σ}
    {body : σ → List Char → Except Error σ} {ok : σ → List Char → Prop} {type : FileType}
    (h : Follows view body ok (itemOf type)) {text : List Char} {st : σ}
    (hst : forLines body 0 (view ⟨[], none⟩) ((lines text).map .ok) = .ok st) :
    .bad ∉ itemsOf type text ∧ st = view (readTo type text) := by
  by_cases hbad : .bad ∈ itemsOf type text
  · obtain ⟨e, he⟩ := h.forLines_error 0 ⟨[], none⟩ hbad
    rw [he] at hst
    cases hst
  · rw [h.forLines_eq 0 ⟨[], none⟩ hbad] at hst
    cases hst
    exact ⟨hbad, congrArg view (foldl_eq_readTo hbad)⟩

/-- The condition on the lines and on the mappings that they give. -/
theorem Follows.inBounds_iff {σ : Type} {view : ReadState → σ}
    {body : σ → List Char → Except Error σ} {ok : σ → List Char → Prop} {type : FileType}
    (h : Follows view body ok (itemOf type)) {mappings : σ → List MemoryMapping}
    (hview : ∀ rs, mappings (view rs) = rs.all.map Reading.mapping) (text : List Char) :
    (LinesOk ok body (view ⟨[], none⟩) (lines text) ∧
        ∀ st, forLines body 0 (view ⟨[], none⟩) ((lines text).map .ok) = .ok st →
          TotalsOk (mappings st)) ↔ InBounds type text := by
  rw [SmapsSpy.inBounds_iff, h.linesOk_iff sound_start]
  apply and_congr_right
  intro _
  constructor
  · intro hall hbad
    have hrun := h.forLines_eq 0 ⟨[], none⟩ hbad
    have htotals := hall _ hrun
    rw [hview] at htotals
    rw [← foldl_eq_readTo hbad]
    exact htotals
  · intro hall st hst
    have heq := h.eq_view hst
    rw [heq.2, hview]
    exact hall heq.1

theorem Follows.mappings_eq {σ : Type} {view : ReadState → σ}
    {body : σ → List Char → Except Error σ} {ok : σ → List Char → Prop} {type : FileType}
    (h : Follows view body ok (itemOf type)) {mappings : σ → List MemoryMapping}
    (hview : ∀ rs, mappings (view rs) = rs.all.map Reading.mapping) {text : List Char} {st : σ}
    (hst : forLines body 0 (view ⟨[], none⟩) ((lines text).map .ok) = .ok st) :
    mappings st = (readTo type text).all.map Reading.mapping := by
  rw [(h.eq_view hst).2, hview]

section File

variable {fs : FileSystem} {path text : List Char} (h : fs.Holds path text)

include h

theorem parseMapsFile_guards :
    Guards (InBounds .maps text) (Checked.parseMapsFile fs path) (parseMapsFile fs path) := by
  rw [Checked.parseMapsFile, parseMapsFile, openWith_of_holds h]
  have hguards := (forLines_guards mapsLine_guards 0 [] (lines text)).bind fun ms =>
    buildHistogram_guards { MemoryStats.new with mappings := ms }
  exact hguards.congr (follows_maps.inBounds_iff (fun _ => rfl) text)

theorem parseSmapsFile_guards :
    Guards (InBounds .smaps text) (Checked.parseSmapsFile fs path) (parseSmapsFile fs path) := by
  rw [Checked.parseSmapsFile, parseSmapsFile, openWith_of_holds h]
  have hguards := (forLines_guards smapsLine_guards 0 ⟨[], none⟩ (lines text)).bind fun st =>
    buildHistogram_guards { MemoryStats.new with mappings := st.all }
  exact hguards.congr (follows_smaps.inBounds_iff all_smapsView text)

/-- The mappings of the result are those that were read. -/
theorem mappings_of_parseMapsFile {stats : MemoryStats}
    (hparse : parseMapsFile fs path = .ok stats) :
    stats.mappings = (readTo .maps text).all.map Reading.mapping := by
  rw [parseMapsFile, openWith_of_holds h] at hparse
  obtain ⟨reader, hreader, hparse⟩ := exists_of_bind_eq_ok hparse
  cases hreader
  obtain ⟨ms, hlines, hparse⟩ := exists_of_bind_eq_ok hparse
  cases hparse
  rw [buildHistogram_eq]
  have hview : ∀ rs, id (mapsView rs) = rs.all.map Reading.mapping := fun _ => rfl
  exact follows_maps.mappings_eq hview hlines

theorem mappings_of_parseSmapsFile {stats : MemoryStats}
    (hparse : parseSmapsFile fs path = .ok stats) :
    stats.mappings = (readTo .smaps text).all.map Reading.mapping := by
  rw [parseSmapsFile, openWith_of_holds h] at hparse
  obtain ⟨reader, hreader, hparse⟩ := exists_of_bind_eq_ok hparse
  cases hreader
  obtain ⟨st, hlines, hparse⟩ := exists_of_bind_eq_ok hparse
  cases hparse
  rw [buildHistogram_eq]
  exact follows_smaps.mappings_eq all_smapsView hlines

omit h in
theorem detectLines_total (found : Bool) (after n : ℕ) (ls : List (List Char)) :
    ∃ type, detectLines found after n (ls.map .ok) = .ok type := by
  induction ls generalizing found after n with
  | nil => exact ⟨.maps, rfl⟩
  | cons line ls ih =>
      rw [List.map_cons, detectLines]
      split
      · exact ⟨.smaps, rfl⟩
      · split
        · exact ih _ _ _
        · split
          · split
            · exact ⟨.maps, rfl⟩
            · exact ih _ _ _
          · exact ih _ _ _

theorem detectFileType_eq : detectFileType fs path = .ok (fileTypeOf text) := by
  obtain ⟨type, htype⟩ := detectLines_total false 0 0 (lines text)
  rw [detectFileType, openWith_of_holds h, fileTypeOf, htype]
  exact htype

theorem parseFile_guards :
    Guards (InBounds (fileTypeOf text) text) (Checked.parseFile fs path) (parseFile fs path) := by
  have hparse : Guards (InBounds (fileTypeOf text) text)
      (Checked.parseAs fs path (fileTypeOf text)) (parseAs fs path (fileTypeOf text)) := by
    cases fileTypeOf text with
    | maps => exact parseMapsFile_guards h
    | smaps => exact parseSmapsFile_guards h
  rw [Checked.parseFile_eq, parseFile_eq, detectFileType_eq h]
  exact hparse.bind_true fun stats => guards_ok (stats.withProcess fs path)

theorem wellFormed_of_inBounds (hbounds : InBounds (fileTypeOf text) text) {stats : MemoryStats}
    (hparse : parseFile fs path = .ok stats) {m : MemoryMapping} (hm : m ∈ stats.mappings) :
    m.startAddr ≤ m.endAddr ∧ m.size.toNat = m.endAddr.toNat - m.startAddr.toNat := by
  have hmappings : stats.mappings = (readTo (fileTypeOf text) text).all.map Reading.mapping := by
    rw [parseFile_eq, detectFileType_eq h] at hparse
    obtain ⟨type, htype, hparse⟩ := exists_of_bind_eq_ok hparse
    cases htype
    obtain ⟨parsed, hparsed, hparse⟩ := exists_of_bind_eq_ok hparse
    cases hparse
    rw [mappings_withProcess]
    cases htype : fileTypeOf text with
    | maps =>
        rw [htype] at hparsed
        exact mappings_of_parseMapsFile h hparsed
    | smaps =>
        rw [htype] at hparsed
        exact mappings_of_parseSmapsFile h hparsed
  rw [hmappings] at hm
  obtain ⟨r, hr, rfl⟩ := List.mem_map.mp hm
  have hok := (inBounds_iff _ _).mp hbounds |>.1
  exact ⟨(hok r hr).range, toNat_size hok hr⟩

end File

/-- Nothing overflows in `parse_file` and the mappings of its result are well formed, exactly
if everything in the file fits. -/
theorem parse_without_overflow_iff (fs : FileSystem) (path text : List Char)
    (h : fs.Holds path text) :
    (Checked.parseFile fs path = Checked.returning (parseFile fs path) ∧
        ∀ stats, parseFile fs path = .ok stats → ∀ m ∈ stats.mappings,
          m.startAddr ≤ m.endAddr ∧ m.size.toNat = m.endAddr.toNat - m.startAddr.toNat) ↔
      InBounds (fileTypeOf text) text := by
  constructor
  · intro hall
    by_contra hbounds
    have hoverflow := (parseFile_guards h).overflows hbounds
    rw [hall.1] at hoverflow
    cases hresult : parseFile fs path with
    | ok stats =>
        rw [hresult] at hoverflow
        cases hoverflow
    | error e =>
        rw [hresult] at hoverflow
        cases hoverflow
  · intro hbounds
    refine ⟨(parseFile_guards h).agrees hbounds, ?_⟩
    intro stats hparse m hm
    exact wellFormed_of_inBounds h hbounds hparse hm

/-- A file system with one file. -/
def fileWith (text : List Char) : FileSystem where
  openLines := fun _ => .ok ((lines text).map .ok)
  readToString := fun _ => .error (.os 2)

/-- A mapping of one byte. -/
def oneByte : List Char := ['1', '-', '2', ' ', 'r']

theorem inBounds_oneByte : InBounds (fileTypeOf oneByte) oneByte := by
  apply (parse_without_overflow_iff (fileWith oneByte) ['f'] oneByte rfl).mp
  refine ⟨rfl, ?_⟩
  intro stats hparse
  cases hparse
  decide

/-- A mapping that ends before it starts. -/
def descending : List Char := ['2', '-', '1', ' ', 'r']

theorem parseFile_descending_overflows :
    (fileWith descending).Holds ['f'] descending ∧
      Checked.parseFile (fileWith descending) ['f'] = .error .overflow ∧
      ∃ stats, parseFile (fileWith descending) ['f'] = .ok stats ∧
        ∃ m ∈ stats.mappings, m.endAddr < m.startAddr ∧ m.size = 0xffffffffffffffff :=
  ⟨rfl, rfl, _, rfl, by decide⟩

end SystemsExperiments.SmapsSpy
