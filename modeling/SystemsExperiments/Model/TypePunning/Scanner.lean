import SystemsExperiments.Shared.Bytes

/-! # The scanners of `type_punning`

Mangled names hold codes such as `$SP$`. Both scanners count them from left to right and stop
15 bytes before the end: one compares a word of eight bytes with a table, the other compares
strings. -/

namespace SystemsExperiments.TypePunning

open Bytes

/-! ## Codes -/

def bytesOf (text : List Char) : List UInt8 := text.map Char.toUInt8

def dollar : UInt8 := '$'.toUInt8

/-- Eight bytes, with zeros after the code, and the length of the code. -/
structure ControlCode where
  bytes : List UInt8
  length : ℕ
  deriving DecidableEq

/-- `unsigned char[8]` initialised with a string. -/
def padded (text : List Char) : List UInt8 := bytesOf text ++ List.replicate (8 - text.length) 0

def simpleCodes : List (List Char) :=
  [['$', 'S', 'P', '$'],
    ['$', 'B', 'P', '$'],
    ['$', 'R', 'F', '$'],
    ['$', 'L', 'T', '$'],
    ['$', 'G', 'T', '$'],
    ['$', 'R', 'P', '$']]

def uniCodes : List (List Char) :=
  [['$', 'u', '2', '0', '$'],
    ['$', 'u', '2', '7', '$'],
    ['$', 'u', '5', 'b', '$'],
    ['$', 'u', '5', 'd', '$'],
    ['$', 'u', '7', 'b', '$'],
    ['$', 'u', '7', 'd', '$'],
    ['$', 'u', '7', 'e', '$']]

def initLookupPre : List ControlCode :=
  simpleCodes.map (fun code => ⟨padded code, 4⟩) ++ uniCodes.map fun code => ⟨padded code, 5⟩

/-- The word at the start of these bytes, on a little-endian machine. -/
def wordAt (bytes : List UInt8) : UInt64 := UInt64.ofNat (ofLE (bytes.take 8))

def initLookup : List (UInt64 × ℕ) :=
  initLookupPre.map fun code => (wordAt code.bytes, code.length)

def initMask : List UInt64 :=
  [0x0000000000000000,
    0x00000000000000ff,
    0x000000000000ffff,
    0x0000000000ffffff,
    0x00000000ffffffff,
    0x000000ffffffffff,
    0x0000ffffffffffff,
    0x00ffffffffffffff,
    0xffffffffffffffff]

/-! ## Steps that may go wrong -/

inductive Fault where
  /-- A load that is not inside the string. -/
  | outside
  /-- `hits` does not fit an `int`. -/
  | overflow
  deriving DecidableEq

/-- `*reinterpret_cast<const unsigned long *>(str)` -/
def load (str : List UInt8) : Except Fault UInt64 :=
  if 8 ≤ str.length then .ok (wordAt str) else .error .outside

/-- `hits++` -/
def increment (hits : ℕ) : Except Fault ℕ :=
  if hits + 1 < 2 ^ 31 then .ok (hits + 1) else .error .overflow

/-! ## By words -/

/-- The loop over the table: the length of the first code that the word starts with. -/
def findCode (word : UInt64) : Option ℕ :=
  (initLookup.find? fun entry => word &&& initMask.getD entry.2 0 == entry.1).map Prod.snd

theorem length_drop_lt {str : List UInt8} (h : 15 < str.length) {n : ℕ} (hn : 0 < n) :
    (str.drop n).length < str.length := by
  rw [List.length_drop]
  omega

theorem length_drop_drop_lt {str : List UInt8} (h : 15 < str.length) (n : ℕ) :
    ((str.drop n).drop 1).length < str.length := by
  rw [List.drop_drop]
  exact length_drop_lt h (Nat.succ_pos n)

/-- The loop of `count_hits`; `str` is what is left of the string. -/
def countHitsFrom (str : List UInt8) (hits : ℕ) : Except Fault ℕ :=
  if 15 < str.length then
    if str.headD 0 = dollar then
      match load str with
      | .error e => .error e
      | .ok word =>
          match findCode word with
          | some length =>
              match increment hits with
              | .error e => .error e
              | .ok hits => countHitsFrom ((str.drop (length - 1)).drop 1) hits
          | none => countHitsFrom (str.drop 1) hits
    else countHitsFrom (str.drop 1) hits
  else .ok hits
termination_by str.length
decreasing_by
  · exact length_drop_drop_lt ‹_› _
  · exact length_drop_lt ‹_› Nat.one_pos
  · exact length_drop_lt ‹_› Nat.one_pos

def countHits (str : List UInt8) : Except Fault ℕ := countHitsFrom str 0

/-! ## By strings -/

/-- `strncmp`, with what follows a string read as its terminator. -/
def strncmp (s t : List UInt8) : ℕ → ℤ
  | 0 => 0
  | n + 1 =>
      if s.headD 0 ≠ t.headD 0 then (s.headD 0).toNat - (t.headD 0).toNat
      else if s.headD 0 = 0 then 0
      else strncmp s.tail t.tail n

def badSimpleCodes : List (List Char) :=
  [['$', 'S', 'P', '$'],
    ['$', 'B', 'P', '$'],
    ['$', 'R', 'F', '$'],
    ['$', 'L', 'T', '$'],
    ['$', 'G', 'T', '$'],
    ['$', 'L', 'P', '$'],
    ['$', 'R', 'P', '$']]

def startsWithAny (str : List UInt8) (codes : List (List Char)) (n : ℕ) : Bool :=
  codes.any fun code => strncmp str (bytesOf code) n == 0

def countHitsBadFrom (str : List UInt8) (hits : ℕ) : Except Fault ℕ :=
  if 15 < str.length then
    if str.headD 0 = dollar then
      if startsWithAny str badSimpleCodes 4 then
        match increment hits with
        | .error e => .error e
        | .ok hits => countHitsBadFrom (str.drop 4) hits
      else if startsWithAny str uniCodes 5 then
        match increment hits with
        | .error e => .error e
        | .ok hits => countHitsBadFrom (str.drop 4) hits
      else countHitsBadFrom (str.drop 1) hits
    else countHitsBadFrom (str.drop 1) hits
  else .ok hits
termination_by str.length
decreasing_by
  · exact length_drop_lt ‹_› (Nat.succ_pos 3)
  · exact length_drop_lt ‹_› (Nat.succ_pos 3)
  · exact length_drop_lt ‹_› Nat.one_pos
  · exact length_drop_lt ‹_› Nat.one_pos

def countHitsBad (str : List UInt8) : Except Fault ℕ := countHitsBadFrom str 0

end SystemsExperiments.TypePunning
