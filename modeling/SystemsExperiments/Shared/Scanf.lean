import SystemsExperiments.Shared.Printing

/-! # Text taken apart by a format

The directives of `sscanf` for whitespace, for one character and for a number. `Reads` says how
a text is laid out for the directives, and the numbers in such a text are read back. -/

namespace SystemsExperiments.Scanf

open Printing

def isSpace (c : UInt8) : Bool := c = 32 ∨ (9 ≤ c ∧ c ≤ 13)

/-- The value of a digit in a base up to sixteen. -/
def digitValue (base : ℕ) (c : UInt8) : Option ℕ :=
  let n := c.toNat
  let d :=
    if 48 ≤ n ∧ n ≤ 57 then n - 48
    else if 97 ≤ n ∧ n ≤ 102 then n - 87
    else if 65 ≤ n ∧ n ≤ 70 then n - 55
    else base
  if d < base then some d else none

def isDigit (base : ℕ) (c : UInt8) : Bool := (digitValue base c).isSome

def value (base : ℕ) (digits : List UInt8) : ℕ :=
  digits.foldl (fun n c => n * base + (digitValue base c).getD 0) 0

inductive Directive where
  | space
  | char (c : UInt8)
  /-- A number of at most so many characters, which is assigned or not. -/
  | number (base : ℕ) (width : Option ℕ) (assign : Bool)
  deriving DecidableEq

/-! ## Scanning -/

/-- Whether a minus stands before the number, and what follows the sign. -/
def scanSign : List UInt8 → Bool × List UInt8
  | [] => (false, [])
  | c :: s => if c = 45 then (true, s) else if c = 43 then (false, s) else (false, c :: s)

/-- `0x` may stand before a number in base sixteen. -/
def skipPrefix (base : ℕ) : List UInt8 → List UInt8
  | 48 :: c :: s => if base = 16 ∧ (c = 120 ∨ c = 88) then s else 48 :: c :: s
  | s => s

/-- The characters a directive may take, and the others. -/
def limited (width : Option ℕ) (text : List UInt8) : List UInt8 × List UInt8 :=
  match width with
  | none => (text, [])
  | some w => (text.take w, text.drop w)

def scanNumber (base : ℕ) (width : Option ℕ) (text : List UInt8) : Option (ℤ × List UInt8) :=
  let field := limited width (text.dropWhile isSpace)
  let signed := scanSign field.1
  let body := skipPrefix base signed.2
  let digits := body.takeWhile (isDigit base)
  if digits = [] then none
  else
    let n : ℤ := value base digits
    some (if signed.1 then -n else n, body.dropWhile (isDigit base) ++ field.2)

/-- The numbers that are assigned until a directive fails. -/
def scan : List Directive → List UInt8 → List ℤ
  | [], _ => []
  | .space :: ds, text => scan ds (text.dropWhile isSpace)
  | .char c :: ds, text =>
      match text with
      | [] => []
      | a :: rest => if a = c then scan ds rest else []
  | .number base width assign :: ds, text =>
      match scanNumber base width text with
      | none => []
      | some (n, rest) => if assign then n :: scan ds rest else scan ds rest

/-! ## Text that is laid out for a format -/

/-- What a number without a width has to be followed by. -/
def EndsNumber (rest : List UInt8) : Prop :=
  ∀ c ∈ rest.head?, digitValue 16 c = none ∧ c ≠ 120 ∧ c ≠ 88

/-- The text has blanks, characters and digits where the directives look for them. -/
inductive Reads : List Directive → List UInt8 → List ℕ → Prop where
  | nil (rest : List UInt8) : Reads [] rest []
  | space {ds text ns} (h : Reads ds text ns) (blanks : List UInt8)
      (hblanks : ∀ c ∈ blanks, isSpace c = true) (hnext : ∀ c ∈ text.head?, isSpace c = false) :
      Reads (.space :: ds) (blanks ++ text) ns
  | char {ds text ns} (h : Reads ds text ns) (c : UInt8) : Reads (.char c :: ds) (c :: text) ns
  | number {ds text ns} (h : Reads ds text ns) (base : ℕ)
      (width : Option ℕ) (assign : Bool) (blanks digits : List UInt8)
      (hblanks : ∀ c ∈ blanks, isSpace c = true) (hdigits : ∀ c ∈ digits, isDigit base c = true)
      (hne : digits ≠ []) (hwidth : width = some digits.length ∨
        (∀ w ∈ width, digits.length ≤ w) ∧ EndsNumber text) :
      Reads (.number base width assign :: ds) (blanks ++ digits ++ text)
        (if assign then value base digits :: ns else ns)

/-! ## What is laid out is read -/

section Runs

variable {p : UInt8 → Bool} {run rest : List UInt8}

theorem takeWhile_run (hrun : ∀ c ∈ run, p c = true) (hrest : ∀ c ∈ rest.head?, p c = false) :
    (run ++ rest).takeWhile p = run := by
  rw [List.takeWhile_append_of_pos hrun]
  cases rest with
  | nil => simp
  | cons c rest => simp [hrest c rfl]

theorem dropWhile_run (hrun : ∀ c ∈ run, p c = true) (hrest : ∀ c ∈ rest.head?, p c = false) :
    (run ++ rest).dropWhile p = rest := by
  rw [List.dropWhile_append_of_pos hrun]
  cases rest with
  | nil => rfl
  | cons c rest => simp [hrest c rfl]

end Runs

/-- A digit is neither a blank nor a sign nor the letter of a prefix. -/
theorem isDigit_plain {base : ℕ} {c : UInt8} (hc : isDigit base c = true) :
    isSpace c = false ∧ c ≠ 45 ∧ c ≠ 43 ∧ c ≠ 120 ∧ c ≠ 88 := by
  have hrange : (48 ≤ c.toNat ∧ c.toNat ≤ 57) ∨ (97 ≤ c.toNat ∧ c.toNat ≤ 102) ∨
      65 ≤ c.toNat ∧ c.toNat ≤ 70 := by
    simp only [isDigit, digitValue] at hc
    grind
  have hne : ∀ b : UInt8, (b = 45 ∨ b = 43 ∨ b = 120 ∨ b = 88) → c ≠ b := by
    intro b hb heq
    rw [heq] at hrange
    rcases hb with rfl | rfl | rfl | rfl
    all_goals revert hrange; decide
  refine ⟨?_, hne 45 (by simp), hne 43 (by simp), hne 120 (by simp), hne 88 (by simp)⟩
  simp only [isSpace, ← UInt8.toNat_inj, UInt8.le_iff_toNat_le, UInt8.reduceToNat,
    decide_eq_false_iff_not]
  omega

theorem digitValue_eq_none {base : ℕ} {c : UInt8}
    (hc : digitValue 16 c = none) : digitValue base c = none := by
  simp only [digitValue] at hc ⊢
  grind

theorem scanSign_digits {base : ℕ} {digits : List UInt8}
    (hdigits : ∀ c ∈ digits, isDigit base c = true) (hne : digits ≠ []) (rest : List UInt8) :
    scanSign (digits ++ rest) = (false, digits ++ rest) := by
  cases digits with
  | nil => exact absurd rfl hne
  | cons c digits =>
      have hplain := isDigit_plain (hdigits c List.mem_cons_self)
      rw [List.cons_append, scanSign, if_neg hplain.2.1, if_neg hplain.2.2.1]

theorem skipPrefix_digits {base : ℕ} {digits rest : List UInt8}
    (hdigits : ∀ c ∈ digits, isDigit base c = true) (hne : digits ≠ [])
    (hrest : ∀ c ∈ rest.head?, c ≠ 120 ∧ c ≠ 88) :
    skipPrefix base (digits ++ rest) = digits ++ rest := by
  have hsecond : ∀ c s, digits ++ rest = 48 :: c :: s → c ≠ 120 ∧ c ≠ 88 := by
    intro c s heq
    cases digits with
    | nil => exact absurd rfl hne
    | cons d digits =>
        rw [List.cons_append, List.cons.injEq] at heq
        cases digits with
        | nil =>
            rw [List.nil_append] at heq
            exact hrest c (by rw [heq.2]; rfl)
        | cons d' digits =>
            have hd' : d' = c := by
              rw [List.cons_append] at heq
              exact (List.cons.inj heq.2).1
            have hplain := isDigit_plain (hdigits d' (by simp))
            rw [← hd']
            exact hplain.2.2.2
  unfold skipPrefix
  split
  · rename_i c s heq
    have hc := hsecond c s heq
    rw [if_neg (by simp [hc]), heq]
  · rfl

/-- The digits are taken whole, whether they end the field or something else does. -/
theorem limited_digits {base : ℕ} {width : Option ℕ}
    {digits text : List UInt8}
    (hwidth : width = some digits.length ∨ (∀ w ∈ width, digits.length ≤ w) ∧ EndsNumber text) :
    ∃ front back, text = front ++ back ∧ limited width (digits ++ text) = (digits ++ front, back) ∧
      ∀ c ∈ front.head?, isDigit base c = false ∧ c ≠ 120 ∧ c ≠ 88 := by
  have hends : EndsNumber text → ∀ k, ∀ c ∈ (text.take k).head?,
      isDigit base c = false ∧ c ≠ 120 ∧ c ≠ 88 := by
    intro hend k c hc
    have hhead : c ∈ text.head? := by
      rw [List.head?_take] at hc
      split at hc
      · cases hc
      · exact hc
    have hc := hend c hhead
    exact ⟨by rw [isDigit, digitValue_eq_none hc.1]; rfl, hc.2⟩
  cases hwidth with
  | inl hwidth => exact ⟨[], text, rfl, by simp [hwidth, limited], by simp⟩
  | inr hwidth =>
      cases width with
      | none =>
          refine ⟨text, [], by simp, by simp [limited], ?_⟩
          simpa using hends hwidth.2 text.length
      | some w =>
          have hw := hwidth.1 w rfl
          refine ⟨text.take (w - digits.length), text.drop (w - digits.length), by simp, ?_,
            hends hwidth.2 _⟩
          simp only [limited, List.take_append, List.drop_append, List.take_of_length_le hw,
            List.drop_of_length_le hw, List.nil_append]

theorem scanNumber_digits {base : ℕ} {width : Option ℕ}
    {blanks digits text : List UInt8} (hblanks : ∀ c ∈ blanks, isSpace c = true)
    (hdigits : ∀ c ∈ digits, isDigit base c = true) (hne : digits ≠ [])
    (hwidth : width = some digits.length ∨ (∀ w ∈ width, digits.length ≤ w) ∧ EndsNumber text) :
    scanNumber base width (blanks ++ digits ++ text) = some ((value base digits : ℤ), text) := by
  obtain ⟨front, back, htext, hlimited, hfront⟩ := limited_digits hwidth
  have hdrop : (blanks ++ digits ++ text).dropWhile isSpace = digits ++ text := by
    rw [List.append_assoc]
    apply dropWhile_run hblanks
    intro c hc
    cases digits with
    | nil => exact absurd rfl hne
    | cons d digits =>
        cases hc
        exact (isDigit_plain (hdigits _ List.mem_cons_self)).1
  have hstop : ∀ c ∈ front.head?, isDigit base c = false := fun c hc => (hfront c hc).1
  have htake := takeWhile_run hdigits hstop
  have hrest := dropWhile_run hdigits hstop
  simp only [scanNumber, hdrop, hlimited, scanSign_digits hdigits hne,
    skipPrefix_digits hdigits hne fun c hc => (hfront c hc).2, htake, hrest]
  rw [if_neg hne, htext]
  rfl

/-- The numbers of a text are read as they are laid out. -/
theorem scan_of_reads {ds : List Directive} {text : List UInt8} {ns : List ℕ}
    (h : Reads ds text ns) : scan ds text = ns.map Nat.cast := by
  induction h with
  | nil rest => rfl
  | space h blanks hblanks hnext ih => rw [scan, dropWhile_run hblanks hnext, ih]
  | char h c ih => rw [scan, if_pos rfl, ih]
  | number h base width assign blanks digits hblanks hdigits hne hwidth ih =>
      rw [scan, scanNumber_digits hblanks hdigits hne hwidth]
      cases assign with
      | false => exact ih
      | true => simp only [if_true, List.map_cons, ih]

/-! ## Printed numbers -/

theorem digitValue_hexByte {base d : ℕ} (hd : d < base) (hbase : base ≤ 16) :
    digitValue base (hexByte d) = some d := by
  have hnat : (hexByte d).toNat = if d < 10 then 48 + d else 55 + d := by
    rw [hexByte, UInt8.toNat_ofNat_of_lt']
    simp only [UInt8.size]
    split <;> omega
  simp only [digitValue, hnat]
  grind

theorem isDigit_map_hexByte {base : ℕ} (hbase : base ≤ 16) {ds : List ℕ}
    (hds : ∀ d ∈ ds, d < base) : ∀ c ∈ ds.map hexByte, isDigit base c = true := by
  intro c hc
  obtain ⟨d, hd, rfl⟩ := List.mem_map.mp hc
  rw [isDigit, digitValue_hexByte (hds d hd) hbase]
  rfl

theorem value_map_hexByte {base : ℕ} (hbase : base ≤ 16) {ds : List ℕ}
    (hds : ∀ d ∈ ds, d < base) :
    value base (ds.map hexByte) = ds.foldl (fun n d => n * base + d) 0 := by
  rw [value, List.foldl_map]
  apply List.foldl_ext
  intro n d hd
  rw [digitValue_hexByte (hds d hd) hbase]
  rfl

/-- A number is printed as its digits, and they have its value. -/
theorem hexadecimal_digits (width n : ℕ) :
    (∀ c ∈ hexadecimal width n, isDigit 16 c = true) ∧ value 16 (hexadecimal width n) = n := by
  have hlt := paddedDigits_lt (show 1 < 16 by decide) width n
  refine ⟨isDigit_map_hexByte le_rfl hlt, ?_⟩
  rw [hexadecimal, value_map_hexByte le_rfl hlt]
  exact Text.foldl_digits 16 (width - (Nat.digits 16 n).length) n

theorem decimal_digits (n : ℕ) :
    decimal n ≠ [] ∧ (∀ c ∈ decimal n, isDigit 10 c = true) ∧ value 10 (decimal n) = n := by
  obtain ⟨ds, hne, hlt, hvalue, heq⟩ := decimal_eq n
  have hhex : decimal n = ds.map hexByte := by
    rw [heq]
    apply List.map_congr_left
    intro d hd
    rw [digitByte, hexByte, if_pos (hlt d hd)]
  refine ⟨by simpa [heq] using hne, hhex ▸ isDigit_map_hexByte (by decide) hlt, ?_⟩
  rw [hhex, value_map_hexByte (by decide) hlt, hvalue]

section Printed

variable {ds : List Directive} {text : List UInt8} {ns : List ℕ}

/-- Blanks before a number. -/
theorem Reads.blanks {base : ℕ} {width : Option ℕ} {assign : Bool} {digits : List UInt8}
    (h : Reads (.number base width assign :: ds) (digits ++ text) ns)
    (hdigits : ∀ c ∈ digits, isDigit base c = true) (hne : digits ≠ []) (k : ℕ) :
    Reads (.space :: .number base width assign :: ds)
      (List.replicate k 32 ++ (digits ++ text)) ns := by
  refine h.space (List.replicate k 32) (fun c hc => ?_) fun c hc => ?_
  · rw [List.eq_of_mem_replicate hc]
    rfl
  · cases digits with
    | nil => exact absurd rfl hne
    | cons d digits =>
        cases hc
        exact (isDigit_plain (hdigits _ List.mem_cons_self)).1

theorem Reads.decimal (h : Reads ds text ns) (hend : EndsNumber text) (k n : ℕ)
    (assign : Bool) : Reads (.space :: .number 10 none assign :: ds)
      (List.replicate k 32 ++ (Printing.decimal n ++ text))
      (if assign then n :: ns else ns) := by
  have hdigits := decimal_digits n
  have hread := h.number 10 none assign [] (Printing.decimal n) (by simp) hdigits.2.1 hdigits.1
    (.inr ⟨by simp, hend⟩)
  rw [hdigits.2.2] at hread
  exact hread.blanks hdigits.2.1 hdigits.1 k

theorem hexadecimal_ne_nil {width : ℕ} (hwidth : 0 < width) (n : ℕ) :
    Printing.hexadecimal width n ≠ [] := by
  intro hnil
  have hlen := congrArg List.length hnil
  simp only [Printing.hexadecimal, paddedDigits, List.length_map, List.length_append,
    List.length_replicate, List.length_reverse, List.length_nil] at hlen
  omega

theorem Reads.hexadecimal (h : Reads ds text ns) (hend : EndsNumber text) {width : ℕ}
    (hwidth : 0 < width) (n : ℕ) (assign : Bool) : Reads (.number 16 none assign :: ds)
      (Printing.hexadecimal width n ++ text) (if assign then n :: ns else ns) := by
  have hdigits := hexadecimal_digits width n
  have hread := h.number 16 none assign [] (Printing.hexadecimal width n) (by simp) hdigits.1
    (hexadecimal_ne_nil hwidth n) (.inr ⟨by simp, hend⟩)
  rw [hdigits.2] at hread
  exact hread

theorem Reads.spacedHexadecimal (h : Reads ds text ns) (hend : EndsNumber text) {width : ℕ}
    (hwidth : 0 < width) (k n : ℕ) (assign : Bool) :
    Reads (.space :: .number 16 none assign :: ds)
      (List.replicate k 32 ++ (Printing.hexadecimal width n ++ text))
      (if assign then n :: ns else ns) :=
  (h.hexadecimal hend hwidth n assign).blanks (hexadecimal_digits width n).1
    (hexadecimal_ne_nil hwidth n) k

/-- A number of a fixed width, which needs nothing behind it. -/
theorem Reads.lowDigits (h : Reads ds text ns) {width : ℕ} (hwidth : 0 < width) (n : ℕ)
    (assign : Bool) : Reads (.number 16 (some width) assign :: ds)
      ((lowDigits 16 width n).map hexByte ++ text)
      (if assign then n % 16 ^ width :: ns else ns) := by
  have hlt := lowDigits_lt (show 0 < 16 by decide) width n
  have hlen : ((Printing.lowDigits 16 width n).map hexByte).length = width := by simp
  have hread := h.number 16 (some width) assign [] ((Printing.lowDigits 16 width n).map hexByte)
    (by simp) (isDigit_map_hexByte le_rfl hlt) (by rw [← List.length_pos_iff, hlen]; exact hwidth)
    (.inl (by rw [hlen]))
  rw [value_map_hexByte le_rfl hlt, foldl_lowDigits] at hread
  exact hread

end Printed

end SystemsExperiments.Scanf
