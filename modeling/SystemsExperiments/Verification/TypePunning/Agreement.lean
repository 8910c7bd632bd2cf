import SystemsExperiments.Verification.TypePunning.Tokens
import Mathlib.Algebra.Group.Nat.Even

/-! # Where the two scanners agree

A code goes from one dollar to the next, so both scanners are determined by what starts at
each dollar. After a code of five characters the scanner by strings comes back to the closing
dollar, and it knows `$LP$`, which the table lacks. -/

namespace SystemsExperiments.TypePunning

open Bytes

/-! ## Dollars -/

/-- What starts at a dollar. -/
inductive Kind where
  | simple
  | lp
  | uni
  | other
  deriving DecidableEq

def Kind.inTable : Kind → Bool
  | .simple | .uni => true
  | .lp | .other => false

/-- Hits of the scanner by words, by dollars; `used` says that the first one closes a code. -/
def fastCount : Bool → List Kind → ℕ
  | _, [] => 0
  | true, _ :: ks => fastCount false ks
  | false, .simple :: ks | false, .uni :: ks => fastCount true ks + 1
  | false, .lp :: ks | false, .other :: ks => fastCount false ks

/-- Hits of the scanner by strings. -/
def plainCount : Bool → List Kind → ℕ
  | _, [] => 0
  | true, _ :: ks => plainCount false ks
  | false, .simple :: ks | false, .lp :: ks => plainCount true ks + 1
  | false, .uni :: ks => plainCount false ks + 1
  | false, .other :: ks => plainCount false ks

/-- The codes of the table that follow on one another, each at the closing dollar of the one
before. -/
def chain (ks : List Kind) : ℕ := (ks.takeWhile Kind.inTable).length

/-- At the dollars that the scanner by strings comes to, an even chain follows each code of
five characters, and an odd one each `$LP$`. -/
def Balanced : Bool → List Kind → Prop
  | _, [] => True
  | true, _ :: ks => Balanced false ks
  | false, .simple :: ks => Balanced true ks
  | false, .lp :: ks => Odd (chain ks) ∧ Balanced true ks
  | false, .uni :: ks => Even (chain ks) ∧ Balanced false ks
  | false, .other :: ks => Balanced false ks

theorem chain_cons (k : Kind) (ks : List Kind) :
    chain (k :: ks) = if k.inTable then chain ks + 1 else 0 := by
  rw [chain, List.takeWhile_cons]
  split
  · rfl
  · rfl

/-- To start one dollar later loses a hit exactly if the chain is odd. -/
theorem fastCount_false (ks : List Kind) :
    fastCount false ks = fastCount true ks + chain ks % 2 := by
  induction ks with
  | nil => rfl
  | cons k ks ih =>
      rw [chain_cons]
      cases k with
      | simple =>
          simp only [fastCount, Kind.inTable, if_true]
          omega
      | uni =>
          simp only [fastCount, Kind.inTable, if_true]
          omega
      | lp => rfl
      | other => rfl

/-- The scanner by strings finds no fewer codes, and as many exactly if all is balanced. -/
theorem plainCount_compare (used : Bool) (ks : List Kind) :
    fastCount used ks ≤ plainCount used ks ∧
      (plainCount used ks = fastCount used ks ↔ Balanced used ks) := by
  induction ks generalizing used with
  | nil => cases used <;> simp [fastCount, plainCount, Balanced]
  | cons k ks ih =>
      cases used with
      | true => exact ih false
      | false =>
          have hskip := fastCount_false ks
          obtain ⟨hle, hiff⟩ := ih false
          obtain ⟨hle', hiff'⟩ := ih true
          cases k with
          | simple =>
              simp only [fastCount, plainCount, Balanced, ← hiff']
              omega
          | lp =>
              simp only [fastCount, plainCount, Balanced, ← hiff', Nat.odd_iff]
              omega
          | uni =>
              simp only [fastCount, plainCount, Balanced, ← hiff, Nat.even_iff]
              omega
          | other =>
              simp only [fastCount, plainCount, Balanced]
              exact ⟨hle, hiff⟩

/-! ## Codes at a dollar -/

def lpCode : List Char := ['$', 'L', 'P', '$']

def startsWith (str : List UInt8) (codes : List (List Char)) : Bool :=
  codes.any fun code => (bytesOf code).isPrefixOf str

def kindAt (str : List UInt8) : Kind :=
  if startsWith str simpleCodes then .simple
  else if startsWith str [lpCode] then .lp
  else if startsWith str uniCodes then .uni
  else .other

/-- What starts at the dollars that are scanned. -/
def kinds : List UInt8 → List Kind
  | [] => []
  | b :: rest =>
      if 15 < rest.length + 1 then
        if b = dollar then kindAt (b :: rest) :: kinds rest else kinds rest
      else []

theorem kinds_of_short {str : List UInt8} (h : ¬ 15 < str.length) : kinds str = [] := by
  cases str with
  | nil => rfl
  | cons b rest => exact if_neg h

theorem kinds_dollar {rest : List UInt8} (h : 15 < rest.length + 1) :
    kinds (dollar :: rest) = kindAt (dollar :: rest) :: kinds rest := by
  rw [kinds, if_pos h, if_pos rfl]

theorem kinds_of_ne {b : UInt8} (hb : b ≠ dollar) (rest : List UInt8) :
    kinds (b :: rest) = kinds rest := by
  rw [kinds, if_neg hb]
  split
  · rfl
  · rw [kinds_of_short (by omega)]

theorem kinds_append {mid : List UInt8} (h : dollar ∉ mid) (rest : List UInt8) :
    kinds (mid ++ rest) = kinds rest := by
  induction mid with
  | nil => rfl
  | cons b mid ih =>
      rw [List.mem_cons, not_or] at h
      rw [List.cons_append, kinds_of_ne (Ne.symm h.1), ih h.2]

/-- A dollar that is used up is passed over. -/
theorem fastCount_used (rest : List UInt8) :
    fastCount true (kinds (dollar :: rest)) = fastCount false (kinds rest) := by
  by_cases h : 15 < rest.length + 1
  · rw [kinds_dollar h, fastCount]
  · have hshort : kinds (dollar :: rest) = [] := kinds_of_short h
    rw [hshort, kinds_of_short (by omega)]
    rfl

theorem plainCount_used (rest : List UInt8) :
    plainCount true (kinds (dollar :: rest)) = plainCount false (kinds rest) := by
  by_cases h : 15 < rest.length + 1
  · rw [kinds_dollar h, plainCount]
  · have hshort : kinds (dollar :: rest) = [] := kinds_of_short h
    rw [hshort, kinds_of_short (by omega)]
    rfl

/-- A code goes from a dollar to the next one. -/
def IsSpan (code : List UInt8) : Prop :=
  ∃ mid, dollar ∉ mid ∧ code = dollar :: (mid ++ [dollar])

theorem kinds_span {code rest : List UInt8} (h : IsSpan code) (hlen : 15 < (code ++ rest).length) :
    kinds (code ++ rest) = kindAt (code ++ rest) :: kinds (dollar :: rest) := by
  obtain ⟨mid, hmid, rfl⟩ := h
  have happend : dollar :: (mid ++ [dollar]) ++ rest = dollar :: (mid ++ dollar :: rest) := by simp
  rw [happend] at hlen ⊢
  rw [kinds_dollar hlen, kinds_append hmid]

theorem isSpan_of_mem {code : List Char} (h : code ∈ simpleCodes ++ lpCode :: uniCodes) :
    IsSpan (bytesOf code) := by
  have hall : ∀ code ∈ simpleCodes ++ lpCode :: uniCodes,
      dollar ∉ (bytesOf code).tail.dropLast ∧
        bytesOf code = dollar :: ((bytesOf code).tail.dropLast ++ [dollar]) := by decide
  exact ⟨_, hall code h⟩

theorem startsWith_iff {str : List UInt8} {codes : List (List Char)} :
    startsWith str codes = true ↔ ∃ code ∈ codes, bytesOf code <+: str := by
  simp [startsWith]

/-- No code of the table goes on with `$LP$`. -/
theorem not_lp_of_uni {str : List UInt8} (h : startsWith str uniCodes = true) :
    ¬ startsWith str [lpCode] = true := by
  intro hlp
  obtain ⟨code, hcode, hstr⟩ := startsWith_iff.mp h
  obtain ⟨lp, hmem, hlp⟩ := startsWith_iff.mp hlp
  have hdiffer : ∀ code ∈ uniCodes, ∀ lp ∈ [lpCode],
      (bytesOf lp).length ≤ (bytesOf code).length ∧ ¬ bytesOf lp <+: bytesOf code := by decide
  obtain ⟨hle, hnot⟩ := hdiffer code hcode lp hmem
  exact hnot (List.prefix_of_prefix_length_le hlp hstr hle)

theorem inTable_kindAt (str : List UInt8) :
    (kindAt str).inTable = (startsWith str simpleCodes || startsWith str uniCodes) := by
  rw [kindAt]
  by_cases hsimple : startsWith str simpleCodes = true
  · simp [hsimple, Kind.inTable]
  · by_cases huni : startsWith str uniCodes = true
    · simp [hsimple, huni, not_lp_of_uni huni, Kind.inTable]
    · by_cases hlp : startsWith str [lpCode] = true
      · simp [hsimple, huni, hlp, Kind.inTable]
      · simp [hsimple, huni, hlp, Kind.inTable]

theorem isSome_codeAt (str : List UInt8) : (codeAt str).isSome = (kindAt str).inTable := by
  have htext : initLookupPre.map ControlCode.text = (simpleCodes ++ uniCodes).map bytesOf := by
    decide
  have hany : (codeAt str).isSome =
      (initLookupPre.map ControlCode.text).any fun text => text.isPrefixOf str := by
    rw [Bool.eq_iff_iff, codeAt, List.find?_isSome, List.any_map, List.any_eq_true]
    rfl
  rw [hany, htext, List.any_map, List.any_append, inTable_kindAt]
  rfl

/-- A code of the table ends at the next dollar. -/
theorem span_of_codeAt {str : List UInt8} {code : ControlCode} (h : codeAt str = some code) :
    IsSpan code.text ∧ str = code.text ++ str.drop code.length := by
  have hmem := List.mem_of_find?_eq_some h
  have hmatch : code.text.isPrefixOf str = true :=
    List.find?_some (p := fun code : ControlCode => code.text.isPrefixOf str) h
  refine ⟨?_, ?_⟩
  · have htext : ∀ code ∈ initLookupPre, ∃ text ∈ simpleCodes ++ lpCode :: uniCodes,
        bytesOf text = code.text := by decide
    obtain ⟨text, htext, heq⟩ := htext code hmem
    rw [← heq]
    exact isSpan_of_mem htext
  · rw [← (wellFormed_of_mem code hmem).length_text]
    exact (List.prefix_iff_eq_append.mp (List.isPrefixOf_iff_prefix.mp hmatch)).symm

/-! ## Counts by dollars -/

theorem fastCount_of_inTable {k : Kind} (h : k.inTable = true) (ks : List Kind) :
    fastCount false (k :: ks) = fastCount true ks + 1 := by
  cases k with
  | simple => rfl
  | uni => rfl
  | lp => cases h
  | other => cases h

theorem fastCount_of_not_inTable {k : Kind} (h : k.inTable = false) (ks : List Kind) :
    fastCount false (k :: ks) = fastCount false ks := by
  cases k with
  | simple => cases h
  | uni => cases h
  | lp => rfl
  | other => rfl

theorem tokens_eq_fastCount (str : List UInt8) : tokens str = fastCount false (kinds str) := by
  fun_induction tokens str with
  | case1 str hlen code hcode ih =>
      obtain ⟨hspan, hstr⟩ := span_of_codeAt hcode
      have htable : (kindAt str).inTable = true := by
        rw [← isSome_codeAt, hcode]
        rfl
      have hkinds := kinds_span hspan (hstr ▸ hlen)
      rw [← hstr] at hkinds
      rw [ih, hkinds, fastCount_of_inTable htable, fastCount_used]
  | case2 str hlen hcode ih =>
      have htable : (kindAt str).inTable = false := by
        rw [← isSome_codeAt, hcode]
        rfl
      cases str with
      | nil => cases hlen
      | cons b rest =>
          rw [ih, List.drop_one, List.tail_cons]
          by_cases hb : b = dollar
          · subst hb
            rw [kinds_dollar hlen, fastCount_of_not_inTable htable]
          · rw [kinds_of_ne hb]
  | case3 str hlen => rw [kinds_of_short hlen, fastCount]

/-! ## Comparing strings -/

/-- Up to the length of a code without zeros, `strncmp` compares with its bytes. -/
theorem strncmp_eq_zero_iff {code : List UInt8} (hcode : 0 ∉ code) (str : List UInt8) :
    strncmp str code code.length = 0 ↔ code <+: str := by
  induction code generalizing str with
  | nil => simp [strncmp]
  | cons b code ih =>
      rw [List.mem_cons, not_or] at hcode
      rw [List.length_cons, strncmp, List.headD_cons, List.tail_cons]
      cases str with
      | nil =>
          have hb : (0 : UInt8) ≠ b := hcode.1
          have hnat : b.toNat ≠ 0 := fun h => hb (UInt8.toNat_inj.mp h.symm)
          simp [hb]
          omega
      | cons c str =>
          rw [List.headD_cons, List.tail_cons, List.cons_prefix_cons]
          by_cases hcb : c = b
          · subst hcb
            have hc : ¬ c = 0 := fun h => hcode.1 h.symm
            simp [hc, ih hcode.2]
          · have hnat : c.toNat ≠ b.toNat := fun h => hcb (UInt8.toNat_inj.mp h)
            have hbc : ¬ b = c := fun h => hcb h.symm
            simp [hcb, hbc]
            omega

theorem startsWithAny_eq {codes : List (List Char)} {n : ℕ}
    (hcodes : ∀ code ∈ codes, (bytesOf code).length = n ∧ 0 ∉ bytesOf code) (str : List UInt8) :
    startsWithAny str codes n = startsWith str codes := by
  rw [Bool.eq_iff_iff, startsWithAny, startsWith, List.any_eq_true, List.any_eq_true]
  apply exists_congr
  intro code
  apply and_congr_right
  intro hmem
  obtain ⟨hlen, hzero⟩ := hcodes code hmem
  rw [beq_iff_eq, ← hlen, strncmp_eq_zero_iff hzero, List.isPrefixOf_iff_prefix]

theorem startsWithAny_badSimple (str : List UInt8) :
    startsWithAny str badSimpleCodes 4 =
      (startsWith str simpleCodes || startsWith str [lpCode]) := by
  have hperm : badSimpleCodes.Perm (simpleCodes ++ [lpCode]) := by decide
  rw [startsWithAny_eq (by decide), startsWith, hperm.any_eq, List.any_append]
  rfl

theorem startsWithAny_uni (str : List UInt8) :
    startsWithAny str uniCodes 5 = startsWith str uniCodes :=
  startsWithAny_eq (by decide) str

/-- The code that a string starts with, and what follows it. -/
theorem exists_span {str : List UInt8} {codes : List (List Char)} {n : ℕ}
    (hcodes : ∀ code ∈ codes, code ∈ simpleCodes ++ lpCode :: uniCodes ∧
      (bytesOf code).length = n) (h : startsWith str codes = true) :
    ∃ code, IsSpan code ∧ code.length = n ∧ str = code ++ str.drop n := by
  obtain ⟨code, hmem, hcode⟩ := startsWith_iff.mp h
  obtain ⟨hall, hlen⟩ := hcodes code hmem
  refine ⟨bytesOf code, isSpan_of_mem hall, hlen, ?_⟩
  rw [← hlen]
  exact (List.prefix_iff_eq_append.mp hcode).symm

/-- At a code of four characters. -/
theorem plainCount_simple {str : List UInt8} (hlen : 15 < str.length)
    (h : startsWithAny str badSimpleCodes 4 = true) :
    plainCount false (kinds str) = plainCount false (kinds (str.drop 4)) + 1 := by
  rw [startsWithAny_badSimple, Bool.or_eq_true] at h
  have hspan : ∃ code, IsSpan code ∧ code.length = 4 ∧ str = code ++ str.drop 4 := by
    rcases h with h | h
    · exact exists_span (by decide) h
    · exact exists_span (by decide) h
  have hkind : ∀ ks, plainCount false (kindAt str :: ks) = plainCount true ks + 1 := by
    intro ks
    rw [kindAt]
    by_cases hsimple : startsWith str simpleCodes = true
    · rw [if_pos hsimple, plainCount]
    · rw [if_neg hsimple, if_pos (h.resolve_left hsimple), plainCount]
  obtain ⟨code, hcode, -, hstr⟩ := hspan
  have hkinds := kinds_span hcode (hstr ▸ hlen)
  rw [← hstr] at hkinds
  rw [hkinds, hkind, plainCount_used]

/-- At a code of five characters. -/
theorem plainCount_uni {str : List UInt8} (hlen : 15 < str.length)
    (hnot : ¬ startsWithAny str badSimpleCodes 4 = true)
    (h : startsWithAny str uniCodes 5 = true) :
    plainCount false (kinds str) = plainCount false (kinds (str.drop 4)) + 1 := by
  rw [startsWithAny_badSimple, Bool.or_eq_true, not_or] at hnot
  rw [startsWithAny_uni] at h
  have hkind : kindAt str = .uni := by
    rw [kindAt, if_neg hnot.1, if_neg hnot.2, if_pos h]
  obtain ⟨code, hcode, hfive, hstr⟩ := exists_span (n := 5) (by decide) h
  have hkinds := kinds_span hcode (hstr ▸ hlen)
  have hclosing : str.drop 4 = dollar :: str.drop 5 := by
    obtain ⟨mid, -, rfl⟩ := hcode
    have hmid : mid.length = 3 := by simpa using hfive
    conv_lhs => rw [hstr]
    simp [hmid]
  rw [← hstr, hkind] at hkinds
  rw [hkinds, plainCount, hclosing]

/-- Where no code starts. -/
theorem plainCount_other {str : List UInt8} (hlen : 15 < str.length)
    (h : str.headD 0 = dollar → ¬ startsWithAny str badSimpleCodes 4 = true ∧
      ¬ startsWithAny str uniCodes 5 = true) :
    plainCount false (kinds str) = plainCount false (kinds (str.drop 1)) := by
  cases str with
  | nil => cases hlen
  | cons b rest =>
      rw [List.drop_one, List.tail_cons]
      by_cases hb : b = dollar
      · subst hb
        obtain ⟨hsimple, huni⟩ := h rfl
        rw [startsWithAny_badSimple, Bool.or_eq_true, not_or] at hsimple
        rw [startsWithAny_uni] at huni
        have hkind : kindAt (dollar :: rest) = .other := by
          rw [kindAt, if_neg hsimple.1, if_neg hsimple.2, if_neg huni]
        rw [kinds_dollar hlen, hkind, plainCount]
      · rw [kinds_of_ne hb]

theorem countHitsBadFrom_eq (str : List UInt8) {hits : ℕ} (hhits : hits < 2 ^ 31) :
    countHitsBadFrom str hits = returned (hits + plainCount false (kinds str)) := by
  fun_induction countHitsBadFrom str hits with
  | case1 str hits hlen hhead hsimple e hincrement =>
      obtain ⟨hlt, rfl⟩ := increment_eq_error hincrement
      rw [plainCount_simple hlen hsimple, returned, if_neg (by omega)]
  | case2 str hits hlen hhead hsimple hits' hincrement ih =>
      obtain ⟨hlt, rfl⟩ := increment_eq_ok hincrement
      rw [ih hlt, plainCount_simple hlen hsimple]
      congr 1
      omega
  | case3 str hits hlen hhead hsimple huni e hincrement =>
      obtain ⟨hlt, rfl⟩ := increment_eq_error hincrement
      rw [plainCount_uni hlen hsimple huni, returned, if_neg (by omega)]
  | case4 str hits hlen hhead hsimple huni hits' hincrement ih =>
      obtain ⟨hlt, rfl⟩ := increment_eq_ok hincrement
      rw [ih hlt, plainCount_uni hlen hsimple huni]
      congr 1
      omega
  | case5 str hits hlen hhead hsimple huni ih =>
      rw [ih hhits, plainCount_other hlen fun _ => ⟨hsimple, huni⟩]
  | case6 str hits hlen hhead ih =>
      rw [ih hhits, plainCount_other hlen fun h => absurd h hhead]
  | case7 str hits hlen =>
      rw [kinds_of_short hlen, plainCount, returned, Nat.add_zero, if_pos hhits]

/-- The scanners return the same number exactly if all is balanced and the codes are fewer
than an `int` can count. -/
theorem scanners_agree_iff (str : List UInt8) :
    (∃ hits, countHits str = .ok hits ∧ countHitsBad str = .ok hits) ↔
      Balanced false (kinds str) ∧ fastCount false (kinds str) < 2 ^ 31 := by
  obtain ⟨hle, hiff⟩ := plainCount_compare false (kinds str)
  have hbad : countHitsBad str = returned (plainCount false (kinds str)) := by
    rw [countHitsBad, countHitsBadFrom_eq str (by decide), Nat.zero_add]
  rw [← hiff, countHits_eq_returned, tokens_eq_fastCount, hbad]
  constructor
  · rintro ⟨hits, hfast, hplain⟩
    obtain ⟨hlt, rfl⟩ := returned_eq_ok hfast
    exact ⟨(returned_eq_ok hplain).2.symm, hlt⟩
  · rintro ⟨heq, hlt⟩
    rw [heq, returned, if_pos hlt]
    exact ⟨_, rfl, rfl⟩

/-- Fifteen bytes that are not scanned, after one that is. -/
def afterwards : List UInt8 := List.replicate 16 0

/-- The table lacks `$LP$`, and two codes of which the first has five characters may share a
dollar. -/
theorem scanners_disagree :
    countHits (bytesOf ['$', 'L', 'P', '$'] ++ afterwards) = .ok 0 ∧
      countHitsBad (bytesOf ['$', 'L', 'P', '$'] ++ afterwards) = .ok 1 ∧
      countHits (bytesOf ['$', 'u', '2', '0', '$', 'S', 'P', '$'] ++ afterwards) = .ok 1 ∧
      countHitsBad (bytesOf ['$', 'u', '2', '0', '$', 'S', 'P', '$'] ++ afterwards) = .ok 2 := by
  decide +kernel

end SystemsExperiments.TypePunning
