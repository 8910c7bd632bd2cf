import SystemsExperiments.Verification.GetpwuidR.Scan
import Mathlib.Data.List.TakeWhile

/-! # The real user of a process

The kernel writes one line for each key. The search finds the line of the user unless `Uid` with
a number behind it comes before, and the name of the process comes before. -/

namespace SystemsExperiments.GetpwuidR

open Scanning

/-! ## The status of a process -/

def newline : UInt8 := 10

def colon : UInt8 := 58

def tab : UInt8 := 9

structure Line where
  key : List UInt8
  value : List UInt8
  newline_notMem_key : newline ∉ key
  colon_notMem_key : colon ∉ key
  newline_notMem_value : newline ∉ value

def Line.text (line : Line) : List UInt8 := line.key ++ colon :: line.value ++ [newline]

structure Number where
  digits : List UInt8
  digits_ne_nil : digits ≠ []
  isDigit_of_mem : ∀ b ∈ digits, isDigit b = true

/-- The name of the process, the lines up to the one with the four numbers, and the others. -/
structure Report where
  name : List UInt8
  newline_notMem_name : newline ∉ name
  lines : List Line
  key_ne_uid : ∀ line ∈ lines, line.key ≠ uidText
  real : Number
  effective : Number
  saved : Number
  filesystem : Number
  others : List Line

namespace Report

/-- What comes before the line of the user. -/
def before (report : Report) : List UInt8 :=
  bytesOf ['N', 'a', 'm', 'e', ':'] ++ report.name ++ [newline] ++ report.lines.flatMap Line.text

def afterReal (report : Report) : List UInt8 :=
  report.effective.digits ++ [tab] ++ report.saved.digits ++ [tab] ++ report.filesystem.digits ++
    [newline] ++ report.others.flatMap Line.text

/-- The line of the user and what comes after it. -/
def fromUid (report : Report) : List UInt8 :=
  uidText ++ [colon, tab] ++ report.real.digits ++ tab :: report.afterReal

def text (report : Report) : List UInt8 := report.before ++ report.fromUid

end Report

/-- The string in an array, if it has an end. -/
def cString (array : List UInt8) : Option (List UInt8) :=
  if 0 ∈ array then some (array.takeWhile fun b => b ≠ 0) else none

/-! ## The lines before -/

theorem exists_append_newline (front : List UInt8) (lines : List Line) :
    ∃ front', front ++ [newline] ++ lines.flatMap Line.text = front' ++ [newline] := by
  induction lines generalizing front with
  | nil => exact ⟨front, by simp⟩
  | cons line lines ih =>
      obtain ⟨front', hfront'⟩ := ih (front ++ [newline] ++ line.key ++ colon :: line.value)
      refine ⟨front', ?_⟩
      rw [← hfront', List.flatMap_cons, Line.text]
      simp

theorem exists_before_eq (report : Report) : ∃ front, report.before = front ++ [newline] :=
  exists_append_newline _ _

/-! ## The first number -/

theorem firstNumber_digits (number : Number) : firstNumber number.digits = number.digits := by
  have hdigits := number.isDigit_of_mem
  have hskip : number.digits.dropWhile (fun b => !isDigit b) = number.digits := by
    cases hnumber : number.digits with
    | nil => rfl
    | cons d digits =>
        have hd := hdigits d (by rw [hnumber]; exact List.mem_cons_self)
        simp [hd]
  rw [firstNumber, hskip]
  exact List.takeWhile_eq_self_iff.mpr hdigits

theorem firstNumber_real (report : Report) :
    firstNumber (uidText ++ [colon, tab] ++ report.real.digits) = report.real.digits := by
  have hlabel : firstNumber (uidText ++ [colon]) = [] := rfl
  have happend := firstNumber_append_cons (c := tab) rfl (uidText ++ [colon]) report.real.digits
  rw [if_pos hlabel, firstNumber_digits] at happend
  exact happend

theorem firstNumber_fromUid (report : Report) :
    firstNumber report.fromUid = report.real.digits := by
  rw [Report.fromUid, firstNumber_append_cons rfl, firstNumber_real,
    if_neg report.real.digits_ne_nil]

/-- Behind the first number there is at least the end of that of the real user. -/
theorem behindNumber_append_fromUid (rest : List UInt8) (report : Report) :
    behindNumber (rest ++ newline :: report.fromUid) ≠ [] := by
  have hne : firstNumber (rest ++ newline :: (uidText ++ [colon, tab] ++ report.real.digits)) ≠
      [] := by
    rw [firstNumber_append_cons rfl, firstNumber_real]
    split
    · exact report.real.digits_ne_nil
    · assumption
  have hbehind := behindNumber_append_cons (c := tab) rfl hne report.afterReal
  rw [List.append_assoc, List.cons_append] at hbehind
  rw [Report.fromUid, hbehind]
  simp

/-! ## What is copied -/

/-- The number that the function finds. -/
def Report.found (report : Report) : List UInt8 :=
  match fromFirst uidText report.before with
  | none => report.real.digits
  | some rest => if firstNumber rest = [] then report.real.digits else firstNumber rest

theorem found_eq_iff (report : Report) : report.found = report.real.digits ↔
    ∀ rest, fromFirst uidText report.before = some rest →
      firstNumber rest = [] ∨ firstNumber rest = report.real.digits := by
  rw [Report.found]
  cases fromFirst uidText report.before with
  | none => simp
  | some rest =>
      by_cases hnone : firstNumber rest = []
      · simp [hnone]
      · simp [hnone]

theorem exists_fromFirst_text (report : Report) :
    ∃ rest, fromFirst uidText report.text = some rest ∧ firstNumber rest = report.found ∧
      behindNumber rest ≠ [] := by
  have hnewline : newline ∉ uidText := by decide
  obtain ⟨front, hfront⟩ := exists_before_eq report
  have htext : report.text = front ++ newline :: report.fromUid := by
    rw [Report.text, hfront, List.append_assoc, List.singleton_append]
  rw [htext, Report.found, hfront]
  cases hfirst : fromFirst uidText front with
  | none =>
      have hbefore := fromFirst_append_cons_of_none hnewline (by decide) hfirst []
      have hall := fromFirst_append_cons_of_none hnewline (by decide) hfirst report.fromUid
      have hlabel : uidText <+: report.fromUid := by
        rw [Report.fromUid, List.append_assoc, List.append_assoc]
        exact List.prefix_append _ _
      rw [hbefore, hall, fromFirst_self (by decide) hlabel]
      exact ⟨_, rfl, firstNumber_fromUid report, behindNumber_append_fromUid [] report⟩
  | some rest =>
      have hend : firstNumber (rest ++ [newline]) = firstNumber rest := by
        rw [firstNumber_append_cons rfl]
        split
        · exact Eq.symm ‹_›
        · rfl
      rw [fromFirst_append_cons_of_some hnewline hfirst,
        fromFirst_append_cons_of_some hnewline hfirst]
      refine ⟨_, rfl, ?_, behindNumber_append_fromUid rest report⟩
      simp only [hend]
      rw [firstNumber_append_cons rfl, firstNumber_fromUid]

/-! ## The string -/

theorem isDigit_of_mem_found (report : Report) : ∀ b ∈ report.found, isDigit b = true := by
  intro b hb
  rw [Report.found] at hb
  split at hb
  · exact report.real.isDigit_of_mem b hb
  · split at hb
    · exact report.real.isDigit_of_mem b hb
    · exact List.mem_takeWhile_imp hb

/-- The string in the array is all that is copied into it if there is room for its end. -/
theorem cString_append_zeros {digits : List UInt8} (h : ∀ b ∈ digits, isDigit b = true) (k : ℕ) :
    cString (digits ++ List.replicate k 0) = if k = 0 then none else some digits := by
  have hne : ∀ b ∈ digits, b ≠ 0 := by
    intro b hb heq
    rw [heq] at hb
    exact absurd (h 0 hb) (by decide)
  cases k with
  | zero =>
      rw [List.replicate_zero, List.append_nil, cString, if_neg]
      · rfl
      · exact fun hzero => hne 0 hzero rfl
  | succ k =>
      rw [cString, if_pos (by simp [List.replicate_succ]), if_neg (Nat.succ_ne_zero k),
        List.takeWhile_append_of_pos (by simpa using hne)]
      simp [List.replicate_succ]

theorem uidFromPid_report (report : Report) (hlen : report.text.length ≤ bufSize)
    {pid : List UInt8} (hpid : pid.length ≤ 4) :
    uidFromPid pid (.content report.text hlen) =
      if report.found.length ≤ uidSize then
        .ok (some (report.found ++ List.replicate (uidSize - report.found.length) 0))
      else .error .uid := by
  obtain ⟨rest, hrest, hnumber, hbehind⟩ := exists_fromFirst_text report
  have hne : firstNumber rest ≠ [] := by
    intro hnil
    rw [firstNumber_eq_nil] at hnil
    rw [behindNumber, hnil] at hbehind
    exact hbehind rfl
  have hzeros := (behindNumber_append_zeros rest (bufSize - report.text.length)).not.mpr
    (by simp [hne, hbehind])
  rw [uidFromPid_present hpid hlen hrest, copyNumber_eq, if_neg hzeros, firstNumber_append_zeros,
    hnumber]
  split
  · rfl
  · rfl

/-- The function finds the user of a process with a number of up to four digits, unless its name
or a line before has another number behind the first `Uid`. -/
theorem uidFromPid_real_iff (n : ℕ) (report : Report) (hlen : report.text.length ≤ bufSize) :
    (∃ uid, uidFromPid (decimal n) (.content report.text hlen) = .ok (some uid) ∧
        cString uid = some report.real.digits) ↔
      n ≤ 9999 ∧ report.real.digits.length ≤ 20 ∧
        ∀ rest, fromFirst uidText report.before = some rest →
          firstNumber rest = [] ∨ firstNumber rest = report.real.digits := by
  rw [← length_decimal_le, ← found_eq_iff]
  by_cases hpid : (decimal n).length ≤ 4
  · rw [uidFromPid_report report hlen hpid, and_iff_right hpid]
    split
    · have hstring := cString_append_zeros (isDigit_of_mem_found report)
        (uidSize - report.found.length)
      simp only [Except.ok.injEq, Option.some.injEq, exists_eq_left', hstring]
      constructor
      · intro heq
        split at heq
        · cases heq
        · have hfound := Option.some.inj heq
          rw [uidSize] at *
          exact ⟨by rw [← hfound]; omega, hfound⟩
      · intro hreal
        rw [hreal.2, uidSize, if_neg (by omega)]
    · rw [uidSize] at *
      simp only [reduceCtorEq, false_and, exists_false, false_iff, not_and]
      intro hshort hfound
      have hlength := congrArg List.length hfound
      omega
  · refine iff_of_false ?_ (fun h => hpid h.1)
    rw [uidFromPid_of_lt (Nat.lt_of_not_le hpid)]
    simp

/-- A process with a name. -/
def called (name : List UInt8) (hname : newline ∉ tab :: name) : Report where
  name := tab :: name
  newline_notMem_name := hname
  lines := [⟨bytesOf ['U', 'm', 'a', 's', 'k'], tab :: [48, 48, 50, 50], by decide, by decide,
    by decide⟩]
  key_ne_uid := by decide
  real := ⟨[49, 48, 48, 48], by decide, List.all_eq_true.mp (by decide)⟩
  effective := ⟨[48], by decide, List.all_eq_true.mp (by decide)⟩
  saved := ⟨[48], by decide, List.all_eq_true.mp (by decide)⟩
  filesystem := ⟨[48], by decide, List.all_eq_true.mp (by decide)⟩
  others := []

theorem uidFromPid_real_sh :
    ∃ uid, uidFromPid (decimal 1) (.content (called [115, 104] (by decide)).text (by decide)) =
        .ok (some uid) ∧ cString uid = some [49, 48, 48, 48] :=
  (uidFromPid_real_iff 1 (called [115, 104] (by decide)) (by decide)).mpr
    ⟨by decide, by decide, by decide +kernel⟩

/-- Of a process that calls itself `Uid`, the mask is taken for the user. -/
theorem uidFromPid_uid :
    ∃ uid, uidFromPid (decimal 1) (.content (called uidText (by decide)).text (by decide)) =
        .ok (some uid) ∧ cString uid = some [48, 48, 50, 50] ∧
      (called uidText (by decide)).real.digits = [49, 48, 48, 48] :=
  ⟨[48, 48, 50, 50] ++ List.replicate 17 0, by decide +kernel⟩

end SystemsExperiments.GetpwuidR
