import SystemsExperiments.Verification.SmapsSpy.Agreement
import SystemsExperiments.Verification.SmapsSpy.ParseFile
import SystemsExperiments.Verification.SmapsSpy.Render

/-! # Rendered files are parsed back

A `smaps` file with the statistics of its records is recognised as such and gives the records
back; the mapping lines alone are recognised as a `maps` file. -/

namespace SystemsExperiments.SmapsSpy

open Text

/-! ## Mapping lines -/

theorem splitOn_addressRange (r : Record) (l : Layout) :
    (addressRange r l).splitOn '-' =
      [padded 16 l.width r.startAddr, padded 16 l.width r.endAddr] := by
  have hdash : ∀ n, '-' ∉ padded 16 l.width n := by
    intro n hmem
    obtain ⟨d, hd, heq⟩ := mem_numeral (by decide) (by decide) hmem
    have hdigits : ∀ d < 16, '-' ≠ Nat.digitChar d := by decide
    exact hdigits d hd heq
  rw [addressRange, List.splitOn_append_cons_self_of_not_mem (hdash _),
    List.splitOn_eq_singleton (hdash _)]

theorem parseAddress_padded (context : List Char → Context) (l : Layout) {n : ℕ} (hn : n < 2 ^ 64) :
    parseAddress context (padded 16 l.width n) = .ok (UInt64.ofNat n) := by
  have hparse : fromStrRadix (2 ^ 64) 16 (padded 16 l.width n) = .ok n :=
    fromStrRadix_numeral (by decide) (by decide) hn (padded_ne_nil l.width_pos 16 n)
  rw [parseAddress, hparse]

theorem size_eq (r : Record) :
    UInt64.ofNat r.endAddr - UInt64.ofNat r.startAddr = UInt64.ofNat (r.endAddr - r.startAddr) :=
  (UInt64.ofNat_sub r.start_le_end).symm

theorem path_headerWords (r : Record) (l : Layout) :
    (if 5 < (headerWords r l).length then some ([' '].intercalate ((headerWords r l).drop 5))
      else none) = r.path.map fun ws => pathText ws := by
  rw [headerWords]
  cases r.path with
  | none => rfl
  | some ws =>
      have hpos : 0 < ws.1.length := List.length_pos_of_ne_nil ws.2
      rw [if_pos (by simp [hpos])]
      rfl

theorem parseMapping_headerWords (r : Record) (l : Layout) :
    parseMapping (headerWords r l) = .ok (some r.mapsMapping) := by
  have hstart : r.startAddr < 2 ^ 64 := Nat.lt_of_le_of_lt r.start_le_end r.end_lt
  have hrange : (headerWords r l).getD 0 [] = addressRange r l := rfl
  simp only [parseMapping, hrange, splitOn_addressRange, parseAddress_padded _ l hstart,
    parseAddress_padded _ l r.end_lt, path_headerWords]
  simp only [Record.mapsMapping, Record.mapping, ← size_eq]
  rfl

/-- A mapping line is one for both parsers. -/
theorem isHeader_headerWords (r : Record) (l : Layout) :
    2 ≤ (headerWords r l).length ∧ ((headerWords r l).getD 0 []).contains '-' := by
  have hrange : (headerWords r l).getD 0 [] = addressRange r l := rfl
  constructor
  · simp [headerWords]
  · rw [hrange]
    simp [addressRange]

theorem mapsLine_headerLine (ms : List MemoryMapping) (r : Record) (l : Layout) :
    mapsLine ms (headerLine r l) = .ok (ms ++ [r.mapsMapping]) := by
  rw [mapsLine_eq, splitWhitespace_headerLine, if_pos (isHeader_headerWords r l),
    parseMapping_headerWords]
  rfl

theorem smapsLine_headerLine (st : SmapsState) (r : Record) (l : Layout) :
    smapsLine st (headerLine r l) = .ok ⟨st.all, some r.mapsMapping⟩ := by
  rw [smapsLine_eq, splitWhitespace_headerLine, if_pos (isHeader_headerWords r l),
    parseMapping_headerWords]
  rfl

/-! ## Lines with a key -/

structure IsKey (k : List Char) : Prop where
  no_whitespace : NoWhitespace k
  no_dash : '-' ∉ k
  no_colon : ':' ∉ k

theorem Key.isKey (key : Key) : IsKey key.text := ⟨key.no_whitespace, key.no_dash, key.no_colon⟩

theorem isKey_rss : IsKey rssKey := ⟨by decide, by decide, by decide⟩

theorem isKey_pss : IsKey pssKey := ⟨by decide, by decide, by decide⟩

theorem isKey_vmFlags : IsKey vmFlagsKey := ⟨by decide, by decide, by decide⟩

section Key

variable {k : List Char} (hk : IsKey k) (rest : List Char)

include hk

theorem isWord_key_colon : IsWord (k ++ [':']) := by
  constructor
  · simp
  · intro c hc
    rcases List.mem_append.mp hc with hkey | hcolon
    · exact hk.no_whitespace c hkey
    · rw [List.mem_singleton.mp hcolon]
      decide

theorem splitWhitespace_key :
    splitWhitespace (k ++ ':' :: ' ' :: rest) = (k ++ [':']) :: splitWhitespace rest := by
  rw [List.append_cons]
  exact splitWhitespace_word_cons (isWord_key_colon hk) (by decide) rest

/-- A line starts with a key and a colon exactly if that is its key. -/
theorem prefix_key_iff {p : List Char} (hp : ':' ∉ p) :
    p ++ [':'] <+: k ++ ':' :: rest ↔ p = k := by
  constructor
  · rintro ⟨t, ht⟩
    rw [List.append_assoc, List.singleton_append] at ht
    have hsplit := congrArg (List.splitOn ':') ht
    rw [List.splitOn_append_cons_self_of_not_mem hp,
      List.splitOn_append_cons_self_of_not_mem hk.no_colon] at hsplit
    exact (List.cons_eq_cons.mp hsplit).1
  · rintro rfl
    exact ⟨rest, by simp⟩

theorem prefix_trim_key_iff {p : List Char} (hp : ':' ∉ p) :
    p ++ [':'] <+: trim (k ++ ':' :: ' ' :: rest) ↔ p = k := by
  have hword := isWord_key_colon hk
  have hline : k ++ ':' :: ' ' :: rest = k ++ [':'] ++ ' ' :: rest := List.append_cons _ _ _
  constructor
  · intro h
    rw [← prefix_key_iff hk (' ' :: rest) hp]
    apply h.trans
    rw [hline]
    exact trim_prefix hword _
  · rintro rfl
    rw [hline]
    exact word_prefix_trim hword _

theorem isPrefixOf_trim_key_iff {p : List Char} (hp : ':' ∉ p) :
    (p ++ [':']).isPrefixOf (trim (k ++ ':' :: ' ' :: rest)) = true ↔ p = k := by
  rw [List.isPrefixOf_iff_prefix, prefix_trim_key_iff hk rest hp]

/-- A line with a key is no mapping line. -/
theorem smapsLine_key (st : SmapsState) :
    smapsLine st (k ++ ':' :: ' ' :: rest) =
      .ok ⟨st.mappings, st.currentMapping.map fun m =>
        statisticsLine m (trim (k ++ ':' :: ' ' :: rest))
          ((k ++ [':']) :: splitWhitespace rest)⟩ := by
  have hne : trim (k ++ ':' :: ' ' :: rest) ≠ [] := by
    intro h
    have hself := (prefix_trim_key_iff hk rest hk.no_colon).mpr rfl
    rw [h] at hself
    simp at hself
  have hdash : ((k ++ [':']).contains '-') = false := by simp [hk.no_dash]
  rw [smapsLine_eq, splitWhitespace_key hk, if_neg, if_neg hne]
  rintro ⟨-, hcontains⟩
  rw [List.getD_cons_zero, hdash] at hcontains
  cases hcontains

end Key

theorem statisticsLine_other {k : List Char} (hk : IsKey k) (hrss : k ≠ rssKey) (hpss : k ≠ pssKey)
    (m : MemoryMapping) (rest : List Char) (parts : List (List Char)) :
    statisticsLine m (trim (k ++ ':' :: ' ' :: rest)) parts = m := by
  have hr : ¬ rssPrefix.isPrefixOf (trim (k ++ ':' :: ' ' :: rest)) = true := fun h =>
    hrss ((isPrefixOf_trim_key_iff hk rest isKey_rss.no_colon).mp h).symm
  have hp : ¬ pssPrefix.isPrefixOf (trim (k ++ ':' :: ' ' :: rest)) = true := fun h =>
    hpss ((isPrefixOf_trim_key_iff hk rest isKey_pss.no_colon).mp h).symm
  rw [statisticsLine, if_neg fun h => hr h.1, if_neg fun h => hp h.1]

theorem parseKb_decimal {n : ℕ} (hn : n < 2 ^ 64) (w : List Char) (ws : List (List Char))
    (old : Option UInt64) :
    parseKb (w :: padded 10 1 n :: ws) old = some (UInt64.ofNat (n * 1024)) := by
  have hparse : fromStrRadix (2 ^ 64) 10 (padded 10 1 n) = .ok n :=
    fromStrRadix_numeral (by decide) (by decide) hn (padded_ne_nil (by decide) 10 n)
  have hsecond : (w :: padded 10 1 n :: ws).getD 1 [] = padded 10 1 n := rfl
  rw [parseKb, hsecond, hparse, UInt64.ofNat_mul]
  rfl

/-! ## Lines of statistics -/

/-- What a line of statistics says of the mapping. -/
def applyAttribute (r : Record) (m : MemoryMapping) : Attribute → MemoryMapping
  | .rss _ => { m with rss := some (UInt64.ofNat (r.rss * 1024)) }
  | .pss _ => { m with pss := some (UInt64.ofNat (r.pss * 1024)) }
  | .other _ _ _ => m

theorem splitWhitespace_value {value : List Char} (hvalue : IsWord value) (gap : ℕ) :
    splitWhitespace (List.replicate gap ' ' ++ (value ++ [' ', 'k', 'B'])) =
      [value, ['k', 'B']] := by
  rw [splitWhitespace_blank_append (isWhitespace_spaces gap),
    splitWhitespace_word_cons hvalue (by decide)]
  rfl

theorem statisticsLine_rss (r : Record) (m : MemoryMapping) (rest : List Char)
    (ws : List (List Char)) :
    statisticsLine m (trim (rssKey ++ ':' :: ' ' :: rest))
        ((rssKey ++ [':']) :: padded 10 1 r.rss :: ws) =
      { m with rss := some (UInt64.ofNat (r.rss * 1024)) } := by
  have hstarts : rssPrefix.isPrefixOf (trim (rssKey ++ ':' :: ' ' :: rest)) = true :=
    (isPrefixOf_trim_key_iff isKey_rss rest isKey_rss.no_colon).mpr rfl
  rw [statisticsLine, if_pos ⟨hstarts, by simp⟩, parseKb_decimal (r.rss_lt.trans (by decide))]

theorem statisticsLine_pss (r : Record) (m : MemoryMapping) (rest : List Char)
    (ws : List (List Char)) :
    statisticsLine m (trim (pssKey ++ ':' :: ' ' :: rest))
        ((pssKey ++ [':']) :: padded 10 1 r.pss :: ws) =
      { m with pss := some (UInt64.ofNat (r.pss * 1024)) } := by
  have hstarts : pssPrefix.isPrefixOf (trim (pssKey ++ ':' :: ' ' :: rest)) = true :=
    (isPrefixOf_trim_key_iff isKey_pss rest isKey_pss.no_colon).mpr rfl
  have hrss : ¬ rssPrefix.isPrefixOf (trim (pssKey ++ ':' :: ' ' :: rest)) = true := by
    intro h
    have hkey := (isPrefixOf_trim_key_iff isKey_pss rest isKey_rss.no_colon).mp h
    exact absurd hkey (by decide)
  rw [statisticsLine, if_neg fun h => hrss h.1, if_pos ⟨hstarts, by simp⟩,
    parseKb_decimal (r.pss_lt.trans (by decide))]

theorem smapsLine_attributeLine (st : SmapsState) (r : Record) (a : Attribute) :
    smapsLine st (attributeLine r a) =
      .ok ⟨st.mappings, st.currentMapping.map fun m => applyAttribute r m a⟩ := by
  cases a with
  | rss gap =>
      rw [attributeLine, keyLine, smapsLine_key isKey_rss,
        splitWhitespace_value (isWord_padded_decimal r.rss)]
      simp only [statisticsLine_rss]
      rfl
  | pss gap =>
      rw [attributeLine, keyLine, smapsLine_key isKey_pss,
        splitWhitespace_value (isWord_padded_decimal r.pss)]
      simp only [statisticsLine_pss]
      rfl
  | other key gap value =>
      rw [attributeLine, keyLine, smapsLine_key key.isKey]
      simp only [statisticsLine_other key.isKey key.ne_rss key.ne_pss]
      rfl

theorem smapsLine_vmFlagsLine (st : SmapsState) (l : Layout) :
    smapsLine st (vmFlagsLine l) = .ok st := by
  rw [vmFlagsLine, smapsLine_key isKey_vmFlags]
  simp only [statisticsLine_other isKey_vmFlags (by decide) (by decide), Option.map_id_fun']
  rfl

/-- Once all lines of statistics are read, the mapping is the record's. -/
theorem foldl_applyAttribute (r : Record) (l : Layout) :
    l.attributes.foldl (applyAttribute r) r.mapsMapping = r.smapsMapping := by
  have hgen : ∀ (attributes : List Attribute) (rss pss : Option UInt64),
      attributes.foldl (applyAttribute r) (r.mapping rss pss) =
        r.mapping
          (if attributes.any Attribute.isRss then some (UInt64.ofNat (r.rss * 1024)) else rss)
          (if attributes.any Attribute.isPss then some (UInt64.ofNat (r.pss * 1024)) else pss) := by
    intro attributes
    induction attributes with
    | nil => intro rss pss; rfl
    | cons a attributes ih =>
        intro rss pss
        cases a with
        | rss gap =>
            refine (ih _ pss).trans ?_
            simp [Attribute.isRss, Attribute.isPss]
        | pss gap =>
            refine (ih rss _).trans ?_
            simp [Attribute.isRss, Attribute.isPss]
        | other key gap value =>
            refine (ih rss pss).trans ?_
            simp [Attribute.isRss, Attribute.isPss]
  have hany : ∀ p : Attribute → Bool, l.attributes.countP p = 1 → l.attributes.any p = true := by
    intro p hp
    rw [List.any_eq_true, ← List.countP_pos_iff, hp]
    decide
  have hrss := hany _ l.one_rss
  have hpss := hany _ l.one_pss
  rw [Record.mapsMapping, hgen, if_pos hrss, if_pos hpss]
  rfl

/-! ## Runs over lines -/

/-- The lines are read without an error and lead from the one state to the other. -/
def Reads {σ : Type} (body : σ → List Char → Except Error σ) (st : σ) (ls : List (List Char))
    (st' : σ) : Prop :=
  ∀ n rest, forLines body n st (ls.map .ok ++ rest) = forLines body (n + ls.length) st' rest

section Reads

variable {σ : Type} {body : σ → List Char → Except Error σ} {st st' st'' : σ}
  {ls ls' : List (List Char)}

theorem reads_nil (st : σ) : Reads body st [] st := fun _ _ => rfl

theorem reads_cons {line : List Char} (hline : body st line = .ok st')
    (h : Reads body st' ls st'') :
    Reads body st (line :: ls) st'' := by
  intro n rest
  rw [List.map_cons, List.cons_append, forLines, hline]
  simp only
  rw [h (n + 1) rest, List.length_cons, Nat.add_right_comm, Nat.add_assoc]

theorem Reads.append (h : Reads body st ls st') (h' : Reads body st' ls' st'') :
    Reads body st (ls ++ ls') st'' := by
  intro n rest
  rw [List.map_append, List.append_assoc, h n, h' (n + ls.length), List.length_append,
    Nat.add_assoc]

theorem Reads.forLines_eq (h : Reads body st ls st') (n : ℕ) :
    forLines body n st (ls.map .ok) = .ok st' := by
  have hrun := h n []
  rw [List.append_nil] at hrun
  exact hrun

end Reads

theorem reads_attributes (r : Record) (mappings : List MemoryMapping) (m : MemoryMapping)
    (attributes : List Attribute) :
    Reads smapsLine ⟨mappings, some m⟩ (attributes.map (attributeLine r))
      ⟨mappings, some (attributes.foldl (applyAttribute r) m)⟩ := by
  induction attributes generalizing m with
  | nil => exact reads_nil _
  | cons a attributes ih =>
      rw [List.map_cons, List.foldl_cons]
      exact reads_cons (smapsLine_attributeLine _ r a) (ih (applyAttribute r m a))

/-- A record flushes the one before it and is kept. -/
theorem reads_recordLines (st : SmapsState) (r : Record) (l : Layout) :
    Reads smapsLine st (recordLines r l) ⟨st.all, some r.smapsMapping⟩ := by
  have hattributes := reads_attributes r st.all r.mapsMapping l.attributes
  rw [foldl_applyAttribute] at hattributes
  apply reads_cons (smapsLine_headerLine st r l)
  apply hattributes.append
  exact reads_cons (smapsLine_vmFlagsLine _ l) (reads_nil _)

theorem reads_records (st : SmapsState) (rs : List (Record × Layout)) :
    ∃ st', Reads smapsLine st (rs.flatMap fun r => recordLines r.1 r.2) st' ∧
      st'.all = st.all ++ rs.map fun r => r.1.smapsMapping := by
  induction rs generalizing st with
  | nil => exact ⟨st, reads_nil st, by simp⟩
  | cons r rs ih =>
      obtain ⟨st', hreads, hall⟩ := ih ⟨st.all, some r.1.smapsMapping⟩
      refine ⟨st', (reads_recordLines st r.1 r.2).append hreads, ?_⟩
      rw [hall]
      simp [SmapsState.all]

theorem reads_headers (ms : List MemoryMapping) (rs : List (Record × Layout)) :
    Reads mapsLine ms (rs.map fun r => headerLine r.1 r.2)
      (ms ++ rs.map fun r => r.1.mapsMapping) := by
  induction rs generalizing ms with
  | nil => simpa using reads_nil ms
  | cons r rs ih =>
      have hrest := ih (ms ++ [r.1.mapsMapping])
      rw [List.append_assoc, List.singleton_append] at hrest
      exact reads_cons (mapsLine_headerLine ms r.1 r.2) hrest

/-! ## Detection -/

/-- A mapping line starts with a digit. -/
theorem not_rssPrefix_headerLine (r : Record) (l : Layout) :
    ¬ rssPrefix.isPrefixOf (headerLine r l) = true := by
  intro h
  obtain ⟨c, cs, hdigits⟩ := List.exists_cons_of_ne_nil (padded_ne_nil l.width_pos 16 r.startAddr)
  obtain ⟨t, ht⟩ := List.isPrefixOf_iff_prefix.mp h
  rw [headerLine, addressRange, hdigits] at ht
  obtain ⟨hc, -⟩ := List.cons_eq_cons.mp ht
  obtain ⟨d, hd, heq⟩ := mem_numeral (by decide) (by decide)
    (hdigits ▸ List.mem_cons_self : c ∈ padded 16 l.width r.startAddr)
  have hnot : ∀ d < 16, 'R' ≠ Nat.digitChar d := by decide
  exact hnot d hd (hc.trans heq)

/-- A mapping line starts the count of lines again. -/
theorem detectLines_headerLine (found : Bool) (after n : ℕ) (r : Record) (l : Layout)
    (rest : Reader) :
    detectLines found after n (.ok (headerLine r l) :: rest) = detectLines true 0 (n + 1) rest := by
  have hdash : (headerLine r l).contains '-' = true := by simp [headerLine, addressRange]
  have hwords := (isHeader_headerWords r l).1
  rw [← splitWhitespace_headerLine] at hwords
  rw [detectLines, if_neg (not_rssPrefix_headerLine r l), if_pos ⟨hdash, hwords⟩]

theorem detectLines_rss (found : Bool) (after n : ℕ) (r : Record) (gap : ℕ) (rest : Reader) :
    detectLines found after n (.ok (attributeLine r (.rss gap)) :: rest) = .ok .smaps := by
  have hstarts : rssPrefix.isPrefixOf (attributeLine r (.rss gap)) = true :=
    List.isPrefixOf_iff_prefix.mpr ⟨_, rfl⟩
  rw [detectLines, if_pos hstarts]

theorem not_rssPrefix_attributeLine (r : Record) {a : Attribute} (ha : a.isRss = false) :
    ¬ rssPrefix.isPrefixOf (attributeLine r a) = true := by
  rw [List.isPrefixOf_iff_prefix]
  intro h
  cases a with
  | rss gap => cases ha
  | pss gap =>
      have hkey := (prefix_key_iff isKey_pss _ isKey_rss.no_colon).mp h
      exact absurd hkey (by decide)
  | other key gap value =>
      have hkey := (prefix_key_iff key.isKey _ isKey_rss.no_colon).mp h
      exact key.ne_rss hkey.symm

/-- The line for `rss` is found as long as the count leaves room for it. -/
theorem detectLines_attributes (r : Record) (attributes : List Attribute) (after n : ℕ)
    (rest : Reader) (hrss : (attributes.take (20 - after)).any Attribute.isRss = true) :
    detectLines true after n ((attributes.map (attributeLine r)).map .ok ++ rest) = .ok .smaps := by
  induction attributes generalizing after n with
  | nil => simp at hrss
  | cons a attributes ih =>
      have hroom : after < 20 := by
        by_contra hge
        rw [Nat.sub_eq_zero_of_le (by omega), List.take_zero] at hrss
        cases hrss
      by_cases ha : a.isRss = true
      · cases a with
        | rss gap => exact detectLines_rss true after n r gap _
        | pss gap => cases ha
        | other key gap value => cases ha
      · rw [Bool.not_eq_true] at ha
        have hnext : (attributes.take (20 - (after + 1))).any Attribute.isRss = true := by
          rw [show 20 - after = 20 - (after + 1) + 1 by omega, List.take_succ_cons,
            List.any_cons, ha, Bool.false_or] at hrss
          exact hrss
        rw [List.map_cons, List.map_cons, List.cons_append, detectLines,
          if_neg (not_rssPrefix_attributeLine r ha)]
        split
        · apply ih 0
          obtain ⟨a', hmem, ha'⟩ := List.any_eq_true.mp hnext
          exact List.any_eq_true.mpr ⟨a', (List.take_subset_take_left _ (by omega)) hmem, ha'⟩
        · rw [if_pos rfl, if_neg (by simp only [maxLinesAfterMapping]; omega)]
          exact ih (after + 1) (n + 1) hnext

theorem detectLines_headers (found : Bool) (after n : ℕ) (rs : List (Record × Layout)) :
    detectLines found after n ((rs.map fun r => headerLine r.1 r.2).map .ok) = .ok .maps := by
  induction rs generalizing found after n with
  | nil => rfl
  | cons r rs ih =>
      rw [List.map_cons, List.map_cons, detectLines_headerLine]
      exact ih true 0 (n + 1)

/-! ## Files -/

/-- `parse_file` adds the process to what the parser for the type returns. -/
theorem parseFile_of_type {fs : FileSystem} {path : List Char} {type : FileType}
    {stats : MemoryStats} (htype : detectFileType fs path = .ok type)
    (hparse : (match type with
      | .maps => parseMapsFile fs path
      | .smaps => parseSmapsFile fs path) = .ok stats) :
    ∃ stats', parseFile fs path = .ok stats' ∧ stats'.mappings = stats.mappings := by
  have hparse' : parseAs fs path type = .ok stats := by
    cases type with
    | maps => exact hparse
    | smaps => exact hparse
  refine ⟨stats.withProcess fs path, ?_, mappings_withProcess stats fs path⟩
  rw [parseFile_eq, htype]
  simp only [bind, Except.bind, hparse']
  rfl

theorem lines_smapsText (rs : List (Record × Layout)) :
    lines (smapsText rs) = rs.flatMap fun r => recordLines r.1 r.2 := by
  apply lines_unlines
  intro line hline
  obtain ⟨r, -, hr⟩ := List.mem_flatMap.mp hline
  exact isPlain_recordLines r.1 r.2 line hr

theorem lines_mapsText (rs : List (Record × Layout)) :
    lines (mapsText rs) = rs.map fun r => headerLine r.1 r.2 := by
  apply lines_unlines
  intro line hline
  obtain ⟨r, -, rfl⟩ := List.mem_map.mp hline
  exact isPlain_headerLine r.1 r.2

theorem detectFileType_smapsText {fs : FileSystem} {path : List Char} {rs : List (Record × Layout)}
    (hne : rs ≠ []) (h : fs.Holds path (smapsText rs)) : detectFileType fs path = .ok .smaps := by
  obtain ⟨r, rs, rfl⟩ := List.exists_cons_of_ne_nil hne
  rw [detectFileType, openWith_of_holds h, lines_smapsText]
  simp only [List.flatMap_cons, recordLines, List.map_cons, List.map_append, List.cons_append,
    List.append_assoc]
  refine (detectLines_headerLine false 0 0 r.1 r.2 _).trans ?_
  exact detectLines_attributes r.1 r.2.attributes 0 1 _ r.2.early_rss

theorem detectFileType_mapsText {fs : FileSystem} {path : List Char} {rs : List (Record × Layout)}
    (h : fs.Holds path (mapsText rs)) : detectFileType fs path = .ok .maps := by
  rw [detectFileType, openWith_of_holds h, lines_mapsText]
  exact detectLines_headers false 0 0 rs

theorem parseSmapsFile_smapsText {fs : FileSystem} {path : List Char}
    {rs : List (Record × Layout)} (h : fs.Holds path (smapsText rs)) :
    ∃ stats, parseSmapsFile fs path = .ok stats ∧
      stats.mappings = rs.map fun r => r.1.smapsMapping := by
  obtain ⟨st, hreads, hall⟩ := reads_records ⟨[], none⟩ rs
  refine ⟨{ MemoryStats.new with mappings := st.all }.buildHistogram, ?_, ?_⟩
  · rw [parseSmapsFile, openWith_of_holds h, lines_smapsText]
    simp only [bind, Except.bind, hreads.forLines_eq 0]
    rfl
  · rw [mappings_buildHistogram, hall]
    simp [SmapsState.all]

theorem parseMapsFile_mapsText {fs : FileSystem} {path : List Char}
    {rs : List (Record × Layout)} (h : fs.Holds path (mapsText rs)) :
    ∃ stats, parseMapsFile fs path = .ok stats ∧
      stats.mappings = rs.map fun r => r.1.mapsMapping := by
  have hreads := reads_headers [] rs
  refine ⟨{ MemoryStats.new with
    mappings := rs.map fun r : Record × Layout => r.1.mapsMapping }.buildHistogram, ?_, ?_⟩
  · rw [parseMapsFile, openWith_of_holds h, lines_mapsText]
    simp only [bind, Except.bind, hreads.forLines_eq 0]
    rfl
  · rw [mappings_buildHistogram]

/-- Records written as a `smaps` file are recognised and read back with `rss` and `pss` in
bytes; their mapping lines alone are recognised as a `maps` file and read back without. -/
theorem render_round_trip (fs : FileSystem) (path : List Char) (rs : List (Record × Layout))
    (hne : rs ≠ []) :
    (fs.Holds path (smapsText rs) →
      detectFileType fs path = .ok .smaps ∧
        ∃ stats, parseFile fs path = .ok stats ∧
          stats.mappings = rs.map fun r => r.1.smapsMapping) ∧
      (fs.Holds path (mapsText rs) →
        detectFileType fs path = .ok .maps ∧
          ∃ stats, parseFile fs path = .ok stats ∧
            stats.mappings = rs.map fun r => r.1.mapsMapping) := by
  constructor
  · intro h
    have htype := detectFileType_smapsText hne h
    obtain ⟨stats, hparse, hmappings⟩ := parseSmapsFile_smapsText h
    obtain ⟨stats', hfile, hsame⟩ := parseFile_of_type htype hparse
    exact ⟨htype, stats', hfile, hsame.trans hmappings⟩
  · intro h
    have htype := detectFileType_mapsText h
    obtain ⟨stats, hparse, hmappings⟩ := parseMapsFile_mapsText h
    obtain ⟨stats', hfile, hsame⟩ := parseFile_of_type htype hparse
    exact ⟨htype, stats', hfile, hsame.trans hmappings⟩

/-- A mapping of two pages, half of which are resident. -/
def sampleRecord : Record where
  startAddr := 0x1000
  endAddr := 0x3000
  start_le_end := by decide
  end_lt := by decide
  permissions := ⟨['r', 'w', '-', 'p'], by decide, by decide⟩
  offset := ⟨['0'], by decide, by decide⟩
  device := ⟨['0', '0', ':', '0', '0'], by decide, by decide⟩
  inode := ⟨['0'], by decide, by decide⟩
  path := some ⟨[⟨['[', 'h', 'e', 'a', 'p', ']'], by decide, by decide⟩], by simp⟩
  rss := 4
  rss_lt := by decide
  pss := 2
  pss_lt := by decide

/-- A file with a blank in its name. -/
def libraryRecord : Record where
  startAddr := 0x7f0000000000
  endAddr := 0x7f0000100000
  start_le_end := by decide
  end_lt := by decide
  permissions := ⟨['r', '-', 'x', 'p'], by decide, by decide⟩
  offset := ⟨['0'], by decide, by decide⟩
  device := ⟨['8', ':', '1'], by decide, by decide⟩
  inode := ⟨['7'], by decide, by decide⟩
  path := some ⟨[⟨['/', 'm', 'y'], by decide, by decide⟩, ⟨['l', 'i', 'b'], by decide, by decide⟩],
    by simp⟩
  rss := 512
  rss_lt := by decide
  pss := 100
  pss_lt := by decide

/-- `SizeA`, `SizeB` and so on. -/
def sampleKey (c : Char) (hc : isWhitespace c = false ∧ c ≠ '-' ∧ c ≠ ':') : Key where
  text := ['S', 'i', 'z', 'e', c]
  no_whitespace := by
    simpa [NoWhitespace] using ⟨by decide, by decide, by decide, by decide, hc.1⟩
  no_dash := by simpa using Ne.symm hc.2.1
  no_colon := by simpa using Ne.symm hc.2.2
  ne_rss := by simp [rssKey]
  ne_pss := by simp [pssKey]

/-- A line before, between and behind those of the two statistics, and two flags. -/
def sampleLayout : Layout where
  width := 8
  width_pos := by decide
  gap := 10
  attributes :=
    [.other (sampleKey 'A' (by decide)) 12 ⟨['8'], by decide, by decide⟩, .pss 4,
      .other (sampleKey 'B' (by decide)) 0 ⟨['0'], by decide, by decide⟩, .rss 4,
      .other (sampleKey 'C' (by decide)) 3 ⟨['0'], by decide, by decide⟩]
  one_rss := by decide
  early_rss := by decide
  one_pss := by decide
  flags := [⟨['r', 'd'], by decide, by decide⟩, ⟨['m', 'r'], by decide, by decide⟩]

/-- The two statistics alone. -/
def shortLayout : Layout where
  width := 12
  width_pos := by decide
  gap := 0
  attributes := [.rss 4, .pss 4]
  one_rss := by decide
  early_rss := by decide
  one_pss := by decide
  flags := []

def sampleRecords : List (Record × Layout) :=
  [(sampleRecord, sampleLayout), (libraryRecord, shortLayout), (sampleRecord, shortLayout)]

/-- Every path leads to the same text. -/
def sampleFiles (text : List Char) : FileSystem where
  openLines _ := .ok ((lines text).map .ok)
  readToString _ := .error .invalidData

theorem render_round_trip_sample :
    (∃ stats, parseFile (sampleFiles (smapsText sampleRecords)) [] = .ok stats ∧
        stats.mappings = [sampleRecord.smapsMapping, libraryRecord.smapsMapping,
          sampleRecord.smapsMapping]) ∧
      ∃ stats, parseFile (sampleFiles (mapsText sampleRecords)) [] = .ok stats ∧
        stats.mappings = [sampleRecord.mapsMapping, libraryRecord.mapsMapping,
          sampleRecord.mapsMapping] := by
  have hsmaps := render_round_trip (sampleFiles (smapsText sampleRecords)) [] sampleRecords
    (by simp [sampleRecords])
  have hmaps := render_round_trip (sampleFiles (mapsText sampleRecords)) [] sampleRecords
    (by simp [sampleRecords])
  exact ⟨(hsmaps.1 rfl).2, (hmaps.2 rfl).2⟩

end SystemsExperiments.SmapsSpy
