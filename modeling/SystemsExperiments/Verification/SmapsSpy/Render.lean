import SystemsExperiments.Model.SmapsSpy.Parser

/-! # Files as the kernel writes them

The records that `maps` and `smaps` files list, and the lines that they are written as. -/

namespace SystemsExperiments.SmapsSpy

open Text

/-! ## Records -/

abbrev Word := { s : List Char // IsWord s }

/-- What a file says of one mapping; `rss` and `pss` are in kB. -/
structure Record where
  startAddr : ℕ
  endAddr : ℕ
  start_le_end : startAddr ≤ endAddr
  end_lt : endAddr < 2 ^ 64
  permissions : Word
  offset : Word
  device : Word
  inode : Word
  path : Option { ws : List Word // ws ≠ [] }
  rss : ℕ
  rss_lt : rss < 2 ^ 54
  pss : ℕ
  pss_lt : pss < 2 ^ 54

/-- The words of the path, with one space between any two of them. -/
def pathText (ws : List Word) : List Char := [' '].intercalate (ws.map Subtype.val)

/-- The mapping that a parser should return for the record. -/
def Record.mapping (r : Record) (rss pss : Option UInt64) : MemoryMapping where
  startAddr := UInt64.ofNat r.startAddr
  endAddr := UInt64.ofNat r.endAddr
  size := UInt64.ofNat (r.endAddr - r.startAddr)
  permissions := r.permissions
  rss := rss
  pss := pss
  path := r.path.map fun ws => pathText ws

def Record.mapsMapping (r : Record) : MemoryMapping := r.mapping none none

def Record.smapsMapping (r : Record) : MemoryMapping :=
  r.mapping (some (UInt64.ofNat (r.rss * 1024))) (some (UInt64.ofNat (r.pss * 1024)))

/-! ## Layouts -/

def rssKey : List Char := ['R', 's', 's']

def pssKey : List Char := ['P', 's', 's']

/-- The key of a line other than those for `rss` and `pss`. -/
structure Key where
  text : List Char
  no_whitespace : NoWhitespace text
  no_dash : '-' ∉ text
  no_colon : ':' ∉ text
  ne_rss : text ≠ rssKey
  ne_pss : text ≠ pssKey

/-- A line of statistics, with the number of further spaces before its value. -/
inductive Attribute where
  | rss (gap : ℕ)
  | pss (gap : ℕ)
  | other (key : Key) (gap : ℕ) (value : Word)

def Attribute.isRss : Attribute → Bool
  | .rss _ => true
  | _ => false

def Attribute.isPss : Attribute → Bool
  | .pss _ => true
  | _ => false

/-- What the record leaves open: the number of digits of the addresses, further spaces behind
the inode, the lines of statistics and the flags. -/
structure Layout where
  width : ℕ
  width_pos : 0 < width
  gap : ℕ
  attributes : List Attribute
  one_rss : attributes.countP Attribute.isRss = 1
  early_rss : (attributes.take 20).any Attribute.isRss = true
  one_pss : attributes.countP Attribute.isPss = 1
  flags : List Word

/-! ## Lines -/

def addressRange (r : Record) (l : Layout) : List Char :=
  padded 16 l.width r.startAddr ++ '-' :: padded 16 l.width r.endAddr

def headerLine (r : Record) (l : Layout) : List Char :=
  addressRange r l ++ ' ' :: (r.permissions ++ ' ' :: (r.offset ++ ' ' :: (r.device ++ ' ' ::
    (r.inode ++ (List.replicate l.gap ' ' ++
      match r.path with
      | some ws => ' ' :: pathText ws
      | none => [])))))

/-- `Key: value kB` -/
def keyLine (key : List Char) (gap : ℕ) (value : List Char) : List Char :=
  key ++ ':' :: ' ' :: (List.replicate gap ' ' ++ (value ++ [' ', 'k', 'B']))

def attributeLine (r : Record) : Attribute → List Char
  | .rss gap => keyLine rssKey gap (padded 10 1 r.rss)
  | .pss gap => keyLine pssKey gap (padded 10 1 r.pss)
  | .other key gap value => keyLine key.text gap value

def vmFlagsKey : List Char := ['V', 'm', 'F', 'l', 'a', 'g', 's']

def vmFlagsLine (l : Layout) : List Char :=
  vmFlagsKey ++ ':' :: ' ' :: l.flags.flatMap fun flag => flag.1 ++ [' ']

/-- All lines of one record in a `smaps` file. -/
def recordLines (r : Record) (l : Layout) : List (List Char) :=
  headerLine r l :: (l.attributes.map (attributeLine r) ++ [vmFlagsLine l])

def smapsText (rs : List (Record × Layout)) : List Char :=
  unlines (rs.flatMap fun r => recordLines r.1 r.2)

def mapsText (rs : List (Record × Layout)) : List Char :=
  unlines (rs.map fun r => headerLine r.1 r.2)

/-! ## Whitespace

Every line is plain, so that it is a line of the file again. -/

theorem isPlain_spaces (n : ℕ) : IsPlain (List.replicate n ' ') := by
  intro c hc _
  exact List.eq_of_mem_replicate hc

theorem isWhitespace_spaces (n : ℕ) : ∀ c ∈ List.replicate n ' ', isWhitespace c = true := by
  intro c hc
  rw [List.eq_of_mem_replicate hc]
  decide

theorem isPlain_pathText (ws : List Word) : IsPlain (pathText ws) := by
  induction ws with
  | nil => simp [pathText, List.intercalate]
  | cons w ws ih =>
      cases ws with
      | nil => simpa [pathText] using w.2.isPlain
      | cons w' ws =>
          rw [pathText, List.map_cons, List.map_cons, List.intercalate_cons_cons,
            isPlain_append, isPlain_append]
          exact ⟨⟨w.2.isPlain, by simp [isPlain_cons]⟩, ih⟩

theorem isWord_padded_hex (l : Layout) (n : ℕ) : IsWord (padded 16 l.width n) :=
  isWord_padded (by decide) (by decide) l.width_pos n

theorem isWord_padded_decimal (n : ℕ) : IsWord (padded 10 1 n) :=
  isWord_padded (by decide) (by decide) (by decide) n

theorem isWord_addressRange (r : Record) (l : Layout) : IsWord (addressRange r l) := by
  constructor
  · simp [addressRange]
  · intro c hc
    rw [addressRange, List.mem_append, List.mem_cons] at hc
    rcases hc with hstart | rfl | hend
    · exact (isWord_padded_hex l _).no_whitespace c hstart
    · decide
    · exact (isWord_padded_hex l _).no_whitespace c hend

theorem isPlain_headerLine (r : Record) (l : Layout) : IsPlain (headerLine r l) := by
  have hpath : IsPlain (match r.path with
      | some ws => ' ' :: pathText ws
      | none => []) := by
    cases r.path with
    | none => exact isPlain_nil
    | some ws => exact (isPlain_cons ' ' _).mpr ⟨fun _ => rfl, isPlain_pathText ws⟩
  simp only [headerLine, isPlain_append, isPlain_cons, implies_true, true_and]
  exact ⟨(isWord_addressRange r l).isPlain, r.permissions.2.isPlain, r.offset.2.isPlain,
    r.device.2.isPlain, r.inode.2.isPlain, isPlain_spaces l.gap, hpath⟩

theorem isPlain_keyLine {key value : List Char} (hkey : NoWhitespace key) (gap : ℕ)
    (hvalue : IsWord value) : IsPlain (keyLine key gap value) := by
  simp only [keyLine, isPlain_append, isPlain_cons, implies_true, true_and]
  exact ⟨hkey.isPlain, by decide, isPlain_spaces gap, hvalue.isPlain, by decide, by decide,
    isPlain_nil⟩

theorem isPlain_recordLines (r : Record) (l : Layout) : ∀ line ∈ recordLines r l, IsPlain line := by
  intro line hline
  rw [recordLines, List.mem_cons, List.mem_append, List.mem_map, List.mem_singleton] at hline
  rcases hline with rfl | ⟨a, -, rfl⟩ | rfl
  · exact isPlain_headerLine r l
  · cases a with
    | rss gap => exact isPlain_keyLine (by decide) gap (isWord_padded_decimal r.rss)
    | pss gap => exact isPlain_keyLine (by decide) gap (isWord_padded_decimal r.pss)
    | other key gap value => exact isPlain_keyLine key.no_whitespace gap value.2
  · have hflags : IsPlain (l.flags.flatMap fun flag => flag.1 ++ [' ']) := by
      induction l.flags with
      | nil => exact isPlain_nil
      | cons flag flags ih =>
          rw [List.flatMap_cons, isPlain_append, isPlain_append]
          exact ⟨⟨flag.2.isPlain, isPlain_spaces 1⟩, ih⟩
    have hkey : NoWhitespace vmFlagsKey := by decide
    rw [vmFlagsLine, isPlain_append, isPlain_cons, isPlain_cons]
    exact ⟨hkey.isPlain, by decide, fun _ => rfl, hflags⟩

/-! ## Words -/

/-- The words of a mapping line. -/
def headerWords (r : Record) (l : Layout) : List (List Char) :=
  [addressRange r l, r.permissions, r.offset, r.device, r.inode] ++
    match r.path with
    | some ws => ws.1.map Subtype.val
    | none => []

theorem splitWhitespace_headerLine (r : Record) (l : Layout) :
    splitWhitespace (headerLine r l) = headerWords r l := by
  have hblank := isWhitespace_spaces l.gap
  rw [headerLine, headerWords, splitWhitespace_word_cons (isWord_addressRange r l) (by decide),
    splitWhitespace_word_cons r.permissions.2 (by decide),
    splitWhitespace_word_cons r.offset.2 (by decide),
    splitWhitespace_word_cons r.device.2 (by decide)]
  cases r.path with
  | none =>
      rw [List.append_nil, splitWhitespace_append_blank _ hblank, splitWhitespace_word r.inode.2]
      rfl
  | some ws =>
      have hwords : ∀ w ∈ ws.1.map Subtype.val, IsWord w := by
        intro w hw
        obtain ⟨w', -, rfl⟩ := List.mem_map.mp hw
        exact w'.2
      rw [← List.append_assoc, splitWhitespace_append_cons _ _ (by decide),
        splitWhitespace_append_blank _ hblank, splitWhitespace_word r.inode.2, pathText,
        splitWhitespace_intercalate hwords]
      rfl

end SystemsExperiments.SmapsSpy
