import SystemsExperiments.Model.TypePunning.Scanner
import Mathlib.Data.List.Find

/-! # The scanner by words is a tokenizer

Masking a little-endian word leaves its first bytes, so comparing with the table is comparing
the beginning of the string with a code. -/

namespace SystemsExperiments.TypePunning

open Bytes

/-! ## Codes -/

def ControlCode.text (code : ControlCode) : List UInt8 := code.bytes.take code.length

/-- The code is padded to eight bytes, starts with a dollar, and its length has a mask. -/
structure ControlCode.WellFormed (code : ControlCode) : Prop where
  length_pos : 0 < code.length
  length_le : code.length ≤ 8
  bytes_eq : code.bytes = code.text ++ List.replicate (8 - code.length) 0
  length_text : code.text.length = code.length
  mask : (initMask.getD code.length 0).toNat = 256 ^ code.length - 1
  head : code.text.head? = some dollar

theorem wellFormed_of_mem : ∀ code ∈ initLookupPre, code.WellFormed := by
  have hall : ∀ code ∈ initLookupPre, 0 < code.length ∧ code.length ≤ 8 ∧
      code.bytes = code.text ++ List.replicate (8 - code.length) 0 ∧
      code.text.length = code.length ∧
      (initMask.getD code.length 0).toNat = 256 ^ code.length - 1 ∧
      code.text.head? = some dollar := by decide
  intro code hcode
  obtain ⟨hpos, hle, hbytes, htext, hmask, hhead⟩ := hall code hcode
  exact ⟨hpos, hle, hbytes, htext, hmask, hhead⟩

theorem toNat_wordAt (bytes : List UInt8) : (wordAt bytes).toNat = ofLE (bytes.take 8) := by
  have hlt := ofLE_lt (bytes.take 8)
  have hlen : (bytes.take 8).length ≤ 8 := List.length_take_le 8 bytes
  have hle : 256 ^ (bytes.take 8).length ≤ 256 ^ 8 := Nat.pow_le_pow_right (by decide) hlen
  rw [wordAt, UInt64.toNat_ofNat']
  apply Nat.mod_eq_of_lt
  exact hlt.trans_le hle

/-- The masked word is the word of the table exactly if the string starts with the code. -/
theorem masked_eq_iff {code : ControlCode} (hcode : code.WellFormed) {str : List UInt8}
    (hstr : 8 ≤ str.length) :
    wordAt str &&& initMask.getD code.length 0 = wordAt code.bytes ↔ code.text <+: str := by
  have hbytes : code.bytes.take 8 = code.bytes := by
    apply List.take_of_length_le
    rw [hcode.bytes_eq, List.length_append, hcode.length_text, List.length_replicate]
    have := hcode.length_le
    omega
  have hpow : 256 ^ code.length = 2 ^ (8 * code.length) := by
    rw [Nat.pow_mul]
  rw [← UInt64.toNat_inj, UInt64.toNat_and, hcode.mask, toNat_wordAt, toNat_wordAt, hbytes,
    hcode.bytes_eq, ofLE_append_zeros, hpow, Nat.and_two_pow_sub_one_eq_mod, ← hpow,
    ← hcode.length_text, ofLE_mod_eq_iff]
  · rw [List.prefix_take_iff, hcode.length_text]
    exact and_iff_left hcode.length_le
  · rw [List.length_take, hcode.length_text]
    have := hcode.length_le
    omega

/-- The code that the string starts with. -/
def codeAt (str : List UInt8) : Option ControlCode :=
  initLookupPre.find? fun code => code.text.isPrefixOf str

theorem findCode_wordAt {str : List UInt8} (hstr : 8 ≤ str.length) :
    findCode (wordAt str) = (codeAt str).map ControlCode.length := by
  rw [findCode, codeAt, initLookup, List.find?_map, Option.map_map]
  congr 1
  apply List.find?_congr
  intro code hcode
  rw [Bool.eq_iff_iff, Function.comp_apply, beq_iff_eq, List.isPrefixOf_iff_prefix]
  exact masked_eq_iff (wellFormed_of_mem code hcode) hstr

/-- A string that does not start with a dollar starts with no code. -/
theorem codeAt_eq_none {str : List UInt8} (h : str.headD 0 ≠ dollar) : codeAt str = none := by
  rw [codeAt, List.find?_eq_none]
  intro code hcode hmatch
  obtain ⟨rest, hrest⟩ := List.isPrefixOf_iff_prefix.mp hmatch
  have hhead := (wellFormed_of_mem code hcode).head
  apply h
  cases htext : code.text with
  | nil => simp [htext] at hhead
  | cons b text =>
      rw [htext] at hhead hrest
      rw [← hrest, List.cons_append, List.headD_cons]
      exact Option.some.inj hhead

/-! ## Tokens -/

theorem length_drop_codeAt_lt {str : List UInt8} {code : ControlCode} (h : 15 < str.length)
    (hcode : codeAt str = some code) : (str.drop code.length).length < str.length := by
  apply length_drop_lt h
  exact (wellFormed_of_mem code (List.mem_of_find?_eq_some hcode)).length_pos

/-- The number of codes that a scan from left to right finds: at each position more than 15
bytes before the end it takes a code that the string goes on with, or one byte. -/
def tokens (str : List UInt8) : ℕ :=
  if 15 < str.length then
    match h : codeAt str with
    | some code => tokens (str.drop code.length) + 1
    | none => tokens (str.drop 1)
  else 0
termination_by str.length
decreasing_by
  · exact length_drop_codeAt_lt ‹_› h
  · exact length_drop_lt ‹_› Nat.one_pos

theorem tokens_of_codeAt {str : List UInt8} {code : ControlCode} (hlen : 15 < str.length)
    (h : codeAt str = some code) : tokens str = tokens (str.drop code.length) + 1 := by
  rw [tokens, if_pos hlen]
  split
  next code' heq =>
    rw [h] at heq
    cases heq
    rfl
  next heq =>
    rw [h] at heq
    cases heq

theorem tokens_of_none {str : List UInt8} (hlen : 15 < str.length) (h : codeAt str = none) :
    tokens str = tokens (str.drop 1) := by
  rw [tokens, if_pos hlen]
  split
  next code heq =>
    rw [h] at heq
    cases heq
  next => rfl

theorem tokens_of_short {str : List UInt8} (hlen : ¬ 15 < str.length) : tokens str = 0 := by
  rw [tokens, if_neg hlen]

/-- What is returned after so many hits, if they fit an `int`. -/
def returned (hits : ℕ) : Except Fault ℕ := if hits < 2 ^ 31 then .ok hits else .error .overflow

theorem returned_eq_ok {n hits : ℕ} (h : returned n = .ok hits) : n < 2 ^ 31 ∧ hits = n := by
  rw [returned] at h
  split at h
  next hlt =>
    cases h
    exact ⟨hlt, rfl⟩
  next => cases h

theorem load_eq {str : List UInt8} (h : 15 < str.length) : load str = .ok (wordAt str) :=
  if_pos (by omega)

theorem increment_eq_ok {hits hits' : ℕ} (h : increment hits = .ok hits') :
    hits + 1 < 2 ^ 31 ∧ hits' = hits + 1 := by
  rw [increment] at h
  split at h
  next hlt =>
    cases h
    exact ⟨hlt, rfl⟩
  next => cases h

theorem increment_eq_error {hits : ℕ} {e : Fault} (h : increment hits = .error e) :
    ¬ hits + 1 < 2 ^ 31 ∧ e = .overflow := by
  rw [increment] at h
  split at h
  next => cases h
  next hlt =>
    cases h
    exact ⟨hlt, rfl⟩

/-- The word of the table is that of a code that the string starts with. -/
theorem exists_code {str : List UInt8} {word : UInt64} {length : ℕ} (hlen : 15 < str.length)
    (hload : load str = .ok word) (hfind : findCode word = some length) :
    ∃ code, codeAt str = some code ∧ code.length = length := by
  rw [load_eq hlen] at hload
  cases hload
  rw [findCode_wordAt (by omega), Option.map_eq_some_iff] at hfind
  exact hfind

theorem countHitsFrom_eq (str : List UInt8) {hits : ℕ} (hhits : hits < 2 ^ 31) :
    countHitsFrom str hits = returned (hits + tokens str) := by
  fun_induction countHitsFrom str hits with
  | case1 str hits hlen hhead e hload =>
      rw [load_eq hlen] at hload
      cases hload
  | case2 str hits hlen hhead word hload length hfind e hincrement =>
      obtain ⟨code, hcode, -⟩ := exists_code hlen hload hfind
      obtain ⟨hlt, rfl⟩ := increment_eq_error hincrement
      rw [tokens_of_codeAt hlen hcode, returned, if_neg (by omega)]
  | case3 str hits hlen hhead word hload length hfind hits' hincrement ih =>
      obtain ⟨code, hcode, rfl⟩ := exists_code hlen hload hfind
      obtain ⟨hlt, rfl⟩ := increment_eq_ok hincrement
      have hpos := (wellFormed_of_mem code (List.mem_of_find?_eq_some hcode)).length_pos
      have hdrop : code.length - 1 + 1 = code.length := by omega
      rw [ih hlt, List.drop_drop, hdrop, tokens_of_codeAt hlen hcode]
      congr 1
      omega
  | case4 str hits hlen hhead word hload hfind ih =>
      have hnone : codeAt str = none := by
        rw [load_eq hlen] at hload
        cases hload
        rwa [findCode_wordAt (by omega), Option.map_eq_none_iff] at hfind
      rw [ih hhits, tokens_of_none hlen hnone]
  | case5 str hits hlen hhead ih =>
      rw [ih hhits, tokens_of_none hlen (codeAt_eq_none hhead)]
  | case6 str hits hlen =>
      rw [tokens_of_short hlen, returned, Nat.add_zero, if_pos hhits]

theorem countHits_eq_returned (str : List UInt8) : countHits str = returned (tokens str) := by
  rw [countHits, countHitsFrom_eq str (by decide), Nat.zero_add]

/-- `count_hits` finds the codes that the scan does, with loads that lie inside the string, and
returns their number if that fits an `int`. -/
theorem countHits_eq_tokens (str : List UInt8) :
    countHits str = (if tokens str < 2 ^ 31 then .ok (tokens str) else .error .overflow) ∧
      countHits str ≠ .error .outside := by
  refine ⟨countHits_eq_returned str, ?_⟩
  rw [countHits_eq_returned, returned]
  split
  · exact fun h => by cases h
  · exact fun h => by cases h

/-! ## Too many codes -/

def spCode : List UInt8 := bytesOf ['$', 'S', 'P', '$']

/-- So many codes, and the bytes that are not scanned. -/
def manyCodes (n : ℕ) : List UInt8 := (List.replicate n spCode).flatten ++ List.replicate 15 0

theorem codeAt_spCode (rest : List UInt8) :
    codeAt (spCode ++ rest) = some ⟨padded ['$', 'S', 'P', '$'], 4⟩ := rfl

theorem tokens_manyCodes (n : ℕ) : tokens (manyCodes n) = n := by
  induction n with
  | zero =>
      apply tokens_of_short
      decide
  | succ n ih =>
      have hcons : manyCodes (n + 1) = spCode ++ manyCodes n := by
        rw [manyCodes, List.replicate_succ, List.flatten_cons, List.append_assoc]
        rfl
      have hlen : 15 < (spCode ++ manyCodes n).length := by
        have hcode : spCode.length = 4 := rfl
        rw [List.length_append, hcode, manyCodes, List.length_append, List.length_replicate]
        omega
      rw [hcons, tokens_of_codeAt hlen (codeAt_spCode _)]
      exact congrArg (· + 1) ih

/-- With `2 ^ 31` codes the number of hits does not fit. -/
theorem countHits_overflows :
    tokens (manyCodes (2 ^ 31)) = 2 ^ 31 ∧
      countHits (manyCodes (2 ^ 31)) ≠ .ok (tokens (manyCodes (2 ^ 31))) := by
  refine ⟨tokens_manyCodes _, ?_⟩
  rw [countHits_eq_returned, tokens_manyCodes, returned, if_neg (Nat.lt_irrefl _)]
  exact fun h => by cases h

end SystemsExperiments.TypePunning
