import Mathlib.Algebra.Order.Ring.Nat
import Mathlib.Data.List.DropRight
import Mathlib.Data.Nat.Digits.Defs

/-! # Text

Lines, words and numbers of a text, as the string functions of a standard library for Unicode
text take it apart. -/

namespace SystemsExperiments.Text

/-! ## Words -/

/-- The characters with the Unicode property `White_Space`. -/
def isWhitespace (c : Char) : Bool :=
  let n := c.toNat
  (0x9 ≤ n && n ≤ 0xD) || n == 0x20 || n == 0x85 || n == 0xA0 || n == 0x1680 ||
    (0x2000 ≤ n && n ≤ 0x200A) || n == 0x2028 || n == 0x2029 || n == 0x202F || n == 0x205F ||
    n == 0x3000

/-- The words between whitespace. -/
def splitWhitespace (s : List Char) : List (List Char) :=
  (s.splitOnP isWhitespace).filter (· ≠ [])

/-- The text without the whitespace at both of its ends. -/
def trim (s : List Char) : List Char := (s.dropWhile isWhitespace).rdropWhile isWhitespace

@[simp] theorem splitWhitespace_nil : splitWhitespace [] = [] := by simp [splitWhitespace]

theorem splitWhitespace_append_cons (s t : List Char) {c : Char} (hc : isWhitespace c = true) :
    splitWhitespace (s ++ c :: t) = splitWhitespace s ++ splitWhitespace t := by
  rw [splitWhitespace, List.splitOnP_append_cons s t hc, List.filter_append]
  rfl

theorem splitWhitespace_cons (s : List Char) {c : Char} (hc : isWhitespace c = true) :
    splitWhitespace (c :: s) = splitWhitespace s := by
  simpa using splitWhitespace_append_cons [] s hc

theorem splitWhitespace_blank {s : List Char} (hs : ∀ c ∈ s, isWhitespace c = true) :
    splitWhitespace s = [] := by
  induction s with
  | nil => simp
  | cons c s ih =>
      rw [splitWhitespace_cons s (hs c List.mem_cons_self)]
      exact ih fun c' hc' => hs c' (List.mem_cons_of_mem c hc')

theorem splitWhitespace_blank_append {s : List Char} (hs : ∀ c ∈ s, isWhitespace c = true)
    (t : List Char) : splitWhitespace (s ++ t) = splitWhitespace t := by
  induction s with
  | nil => rfl
  | cons c s ih =>
      rw [List.cons_append, splitWhitespace_cons _ (hs c List.mem_cons_self)]
      exact ih fun c' hc' => hs c' (List.mem_cons_of_mem c hc')

theorem splitWhitespace_append_blank (t : List Char) {s : List Char}
    (hs : ∀ c ∈ s, isWhitespace c = true) : splitWhitespace (t ++ s) = splitWhitespace t := by
  cases s with
  | nil => rw [List.append_nil]
  | cons c s =>
      rw [splitWhitespace_append_cons t s (hs c List.mem_cons_self),
        splitWhitespace_blank fun c' hc' => hs c' (List.mem_cons_of_mem c hc'), List.append_nil]

theorem splitWhitespace_trim (s : List Char) : splitWhitespace (trim s) = splitWhitespace s := by
  have hright : ∀ t : List Char,
      splitWhitespace (t.rdropWhile isWhitespace) = splitWhitespace t := by
    intro t
    have hsplit : t.rdropWhile isWhitespace ++ t.rtakeWhile isWhitespace = t := by
      rw [List.rdropWhile, List.rtakeWhile, ← List.reverse_append,
        List.takeWhile_append_dropWhile, List.reverse_reverse]
    conv_rhs => rw [← hsplit]
    exact (splitWhitespace_append_blank _ fun c hc => List.mem_rtakeWhile_imp hc).symm
  rw [trim, hright]
  conv_rhs => rw [← List.takeWhile_append_dropWhile (p := isWhitespace) (l := s)]
  exact (splitWhitespace_blank_append (fun c hc => List.mem_takeWhile_imp hc) _).symm

def NoWhitespace (s : List Char) : Prop := ∀ c ∈ s, isWhitespace c = false

instance (s : List Char) : Decidable (NoWhitespace s) :=
  List.decidableBAll (fun c => isWhitespace c = false) s

structure IsWord (s : List Char) : Prop where
  ne_nil : s ≠ []
  no_whitespace : NoWhitespace s

theorem splitWhitespace_word {s : List Char} (hs : IsWord s) : splitWhitespace s = [s] := by
  rw [splitWhitespace, List.splitOnP_eq_singleton hs.no_whitespace]
  simp [hs.ne_nil]

theorem splitWhitespace_word_cons {s : List Char} (hs : IsWord s) {c : Char}
    (hc : isWhitespace c = true) (t : List Char) :
    splitWhitespace (s ++ c :: t) = s :: splitWhitespace t := by
  rw [splitWhitespace_append_cons s t hc, splitWhitespace_word hs, List.singleton_append]

/-- Text that starts with a word loses nothing of it. -/
theorem word_prefix_trim {w : List Char} (hw : IsWord w) (t : List Char) : w <+: trim (w ++ t) := by
  obtain ⟨c, w', rfl⟩ := List.exists_cons_of_ne_nil hw.ne_nil
  have hc : isWhitespace c = false := hw.no_whitespace c List.mem_cons_self
  rw [trim, List.cons_append, List.dropWhile_cons_of_neg (by simp [hc]), ← List.cons_append]
  induction t using List.reverseRecOn with
  | nil =>
      have hself : (c :: w').rdropWhile isWhitespace = c :: w' := by
        rw [List.rdropWhile_eq_self_iff]
        intro hne
        simp [hw.no_whitespace _ (List.getLast_mem hne)]
      rw [List.append_nil]
      exact ⟨[], by rw [List.append_nil, hself]⟩
  | append_singleton t x ih =>
      rw [← List.append_assoc, List.rdropWhile_concat]
      split
      · exact ih
      · rw [List.append_assoc]
        exact List.prefix_append _ _

theorem trim_prefix {w : List Char} (hw : IsWord w) (t : List Char) : trim (w ++ t) <+: w ++ t := by
  obtain ⟨c, w', rfl⟩ := List.exists_cons_of_ne_nil hw.ne_nil
  have hc : isWhitespace c = false := hw.no_whitespace c List.mem_cons_self
  rw [trim, List.cons_append, List.dropWhile_cons_of_neg (by simp [hc])]
  exact List.rdropWhile_prefix _ _

/-- Words with one space between any two of them are found again. -/
theorem splitWhitespace_intercalate {ws : List (List Char)} (hws : ∀ w ∈ ws, IsWord w) :
    splitWhitespace ([' '].intercalate ws) = ws := by
  induction ws with
  | nil => simp [List.intercalate]
  | cons w ws ih =>
      have hw := hws w List.mem_cons_self
      have hrest := ih fun w' hw' => hws w' (List.mem_cons_of_mem w hw')
      cases ws with
      | nil => rw [List.intercalate_singleton, splitWhitespace_word hw]
      | cons w' ws =>
          rw [List.intercalate_cons_cons, List.append_assoc, List.singleton_append,
            splitWhitespace_word_cons hw (by decide), hrest]

/-! ## Lines -/

/-- A line that ends in a line feed may have a carriage return before it. -/
def stripCr (line : List Char) : List Char :=
  if line.getLast? = some '\r' then line.dropLast else line

/-- The lines of a text; what follows the last line feed is a line unless it is empty. -/
def lines (text : List Char) : List (List Char) :=
  let pieces := text.splitOn '\n'
  pieces.dropLast.map stripCr ++ pieces.getLast?.toList.filter (· ≠ [])

/-- Lines, each with a line feed behind it. -/
def unlines (ls : List (List Char)) : List Char := ls.flatMap (· ++ ['\n'])

theorem splitOn_unlines {ls : List (List Char)} (hls : ∀ l ∈ ls, '\n' ∉ l) :
    (unlines ls).splitOn '\n' = ls ++ [[]] := by
  induction ls with
  | nil => rfl
  | cons l ls ih =>
      have hl : '\n' ∉ l := hls l List.mem_cons_self
      have hrest := ih fun l' hl' => hls l' (List.mem_cons_of_mem l hl')
      rw [unlines, List.flatMap_cons, List.append_assoc, List.singleton_append,
        List.splitOn_append_cons_self_of_not_mem hl]
      exact congrArg (List.cons l) hrest

/-- Text whose only whitespace are spaces. -/
def IsPlain (s : List Char) : Prop := ∀ c ∈ s, isWhitespace c = true → c = ' '

theorem NoWhitespace.isPlain {s : List Char} (hs : NoWhitespace s) : IsPlain s := by
  intro c hc hspace
  rw [hs c hc] at hspace
  cases hspace

theorem IsWord.isPlain {s : List Char} (hs : IsWord s) : IsPlain s := hs.no_whitespace.isPlain

@[simp] theorem isPlain_nil : IsPlain [] := by simp [IsPlain]

@[simp] theorem isPlain_append (s t : List Char) : IsPlain (s ++ t) ↔ IsPlain s ∧ IsPlain t := by
  simp only [IsPlain, List.mem_append]
  constructor
  · intro h
    exact ⟨fun c hc => h c (.inl hc), fun c hc => h c (.inr hc)⟩
  · rintro ⟨hs, ht⟩ c (hc | hc)
    · exact hs c hc
    · exact ht c hc

theorem isPlain_cons (c : Char) (s : List Char) :
    IsPlain (c :: s) ↔ (isWhitespace c = true → c = ' ') ∧ IsPlain s := by
  simp [IsPlain]

/-- Plain lines, each with a line feed, are found again. -/
theorem lines_unlines {ls : List (List Char)} (hplain : ∀ l ∈ ls, IsPlain l) :
    lines (unlines ls) = ls := by
  have hls : ∀ l ∈ ls, '\n' ∉ l := by
    intro l hl hmem
    have hspace := hplain l hl '\n' hmem (by decide)
    exact absurd hspace (by decide)
  have hcr : ∀ l ∈ ls, l.getLast? ≠ some '\r' := by
    intro l hl hlast
    have hspace := hplain l hl '\r' (List.mem_of_getLast? hlast) (by decide)
    exact absurd hspace (by decide)
  have hstrip : ls.map stripCr = ls := by
    conv_rhs => rw [← List.map_id ls]
    apply List.map_congr_left
    intro l hl
    rw [stripCr, if_neg (hcr l hl)]
    rfl
  simp only [lines, splitOn_unlines hls]
  simp [hstrip]

/-! ## Numbers -/

inductive ParseIntError where
  | empty
  | invalidDigit
  | posOverflow
  deriving DecidableEq

/-- The value of a digit; letters of either case stand for the digits from ten on. -/
def toDigit (radix : ℕ) (c : Char) : Option ℕ :=
  let n := c.toNat
  let d :=
    if 0x30 ≤ n ∧ n ≤ 0x39 then n - 0x30
    else if 0x61 ≤ n ∧ n ≤ 0x7A then n - 0x61 + 10
    else if 0x41 ≤ n ∧ n ≤ 0x5A then n - 0x41 + 10
    else radix
  if d < radix then some d else none

/-- The digits one after another; neither the product nor the sum may reach the bound. -/
def parseDigits (bound radix : ℕ) : ℕ → List Char → Except ParseIntError ℕ
  | acc, [] => .ok acc
  | acc, c :: cs =>
      match toDigit radix c with
      | none => .error .invalidDigit
      | some x =>
          if acc * radix < bound ∧ acc * radix + x < bound then
            parseDigits bound radix (acc * radix + x) cs
          else .error .posOverflow

/-- An unsigned number below the bound, which may have a plus sign. -/
def fromStrRadix (bound radix : ℕ) (s : List Char) : Except ParseIntError ℕ :=
  match s with
  | [] => .error .empty
  | ['+'] => .error .invalidDigit
  | ['-'] => .error .invalidDigit
  | '+' :: digits => parseDigits bound radix 0 digits
  | digits => parseDigits bound radix 0 digits

/-- A number, most significant digit first, behind `pad` zeros. -/
def numeral (radix pad n : ℕ) : List Char :=
  List.replicate pad '0' ++ (Nat.digits radix n).reverse.map Nat.digitChar

theorem toDigit_digitChar {radix d : ℕ} (hradix : radix ≤ 16) (hd : d < radix) :
    toDigit radix (Nat.digitChar d) = some d := by
  have hdecide : ∀ r ≤ 16, ∀ d < r, toDigit r (Nat.digitChar d) = some d := by decide
  exact hdecide radix hradix d hd

section Numeral

variable {bound radix : ℕ}

theorem le_foldl_digits (hradix : 0 < radix) (ds : List ℕ) (acc : ℕ) :
    acc ≤ ds.foldl (fun n d => n * radix + d) acc := by
  induction ds generalizing acc with
  | nil => exact le_rfl
  | cons d ds ih =>
      calc acc ≤ acc * radix := Nat.le_mul_of_pos_right acc hradix
        _ ≤ acc * radix + d := Nat.le_add_right _ _
        _ ≤ _ := ih (acc * radix + d)

/-- Digits are read as the number they stand for. -/
theorem parseDigits_map (hpos : 0 < radix) (hradix : radix ≤ 16) {ds : List ℕ}
    (hds : ∀ d ∈ ds, d < radix) {acc : ℕ}
    (hlt : ds.foldl (fun n d => n * radix + d) acc < bound) :
    parseDigits bound radix acc (ds.map Nat.digitChar) =
      .ok (ds.foldl (fun n d => n * radix + d) acc) := by
  induction ds generalizing acc with
  | nil => rfl
  | cons d ds ih =>
      have hnext := le_foldl_digits hpos ds (acc * radix + d)
      rw [List.foldl_cons] at hlt ⊢
      rw [List.map_cons, parseDigits, toDigit_digitChar hradix (hds d List.mem_cons_self)]
      simp only
      rw [if_pos (by omega)]
      exact ih (fun d' hd' => hds d' (List.mem_cons_of_mem d hd')) hlt

theorem foldl_digits (radix pad n : ℕ) :
    (List.replicate pad 0 ++ (Nat.digits radix n).reverse).foldl (fun n d => n * radix + d) 0 =
      n := by
  have hzeros : (List.replicate pad 0).foldl (fun n d => n * radix + d) 0 = 0 := by
    induction pad with
    | zero => rfl
    | succ pad ih => simpa [List.replicate_succ] using ih
  rw [List.foldl_append, hzeros, List.foldl_reverse]
  conv_rhs => rw [← Nat.ofDigits_digits radix n, Nat.ofDigits_eq_foldr]
  congr 1
  funext x y
  rw [Nat.mul_comm, Nat.add_comm]
  rfl

theorem numeral_eq_map (radix pad n : ℕ) :
    numeral radix pad n =
      (List.replicate pad 0 ++ (Nat.digits radix n).reverse).map Nat.digitChar := by
  simp [numeral, Nat.digitChar]

/-- Without a sign the digits are read from the start. -/
theorem fromStrRadix_of_digit {c : Char} {x : ℕ} (hc : toDigit radix c = some x)
    (hradix : radix ≤ 16) (cs : List Char) :
    fromStrRadix bound radix (c :: cs) = parseDigits bound radix 0 (c :: cs) := by
  have hsign : ∀ r ≤ 16, toDigit r '+' = none ∧ toDigit r '-' = none := by decide
  have hplus : c ≠ '+' := by
    rintro rfl
    simp [(hsign radix hradix).1] at hc
  have hminus : c ≠ '-' := by
    rintro rfl
    simp [(hsign radix hradix).2] at hc
  rw [fromStrRadix]
  all_goals simp [hplus, hminus]

/-- A number is read back from its numeral. -/
theorem fromStrRadix_numeral (hpos : 1 < radix) (hradix : radix ≤ 16) {pad n : ℕ}
    (hn : n < bound) (hne : numeral radix pad n ≠ []) :
    fromStrRadix bound radix (numeral radix pad n) = .ok n := by
  have hdigits : ∀ d ∈ List.replicate pad 0 ++ (Nat.digits radix n).reverse, d < radix := by
    intro d hd
    rcases List.mem_append.mp hd with hzero | hdigit
    · rw [List.eq_of_mem_replicate hzero]
      omega
    · exact Nat.digits_lt_base hpos (List.mem_reverse.mp hdigit)
  have hvalue := foldl_digits radix pad n
  rw [numeral_eq_map] at hne ⊢
  generalize List.replicate pad 0 ++ (Nat.digits radix n).reverse = ds at *
  cases ds with
  | nil => simp at hne
  | cons d ds =>
      have hparse := parseDigits_map (by omega) hradix hdigits (hvalue.symm ▸ hn)
      rw [hvalue] at hparse
      rw [List.map_cons, fromStrRadix_of_digit
        (toDigit_digitChar hradix (hdigits d List.mem_cons_self)) hradix]
      exact hparse

theorem mem_numeral (hpos : 1 < radix) (hradix : radix ≤ 16) {pad n : ℕ} {c : Char}
    (hc : c ∈ numeral radix pad n) : ∃ d < 16, c = Nat.digitChar d := by
  rw [numeral_eq_map, List.mem_map] at hc
  obtain ⟨d, hd, rfl⟩ := hc
  refine ⟨d, ?_, rfl⟩
  rcases List.mem_append.mp hd with hzero | hdigit
  · rw [List.eq_of_mem_replicate hzero]
    decide
  · have := Nat.digits_lt_base hpos (List.mem_reverse.mp hdigit)
    omega

/-- A number with at least `width` digits. -/
def padded (radix width n : ℕ) : List Char :=
  numeral radix (width - (Nat.digits radix n).length) n

theorem padded_ne_nil {width : ℕ} (hwidth : 0 < width) (radix n : ℕ) :
    padded radix width n ≠ [] := by
  intro h
  have hlength := congrArg List.length h
  simp only [padded, numeral, List.length_append, List.length_replicate, List.length_map,
    List.length_reverse, List.length_nil] at hlength
  omega

theorem isWord_padded (hpos : 1 < radix) (hradix : radix ≤ 16) {width : ℕ} (hwidth : 0 < width)
    (n : ℕ) : IsWord (padded radix width n) := by
  refine ⟨padded_ne_nil hwidth radix n, ?_⟩
  intro c hc
  obtain ⟨d, hd, rfl⟩ := mem_numeral hpos hradix hc
  have hdigits : ∀ d < 16, isWhitespace (Nat.digitChar d) = false := by decide
  exact hdigits d hd

end Numeral

end SystemsExperiments.Text
