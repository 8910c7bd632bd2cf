import SystemsExperiments.Model.GetpwuidR.PollProc
import SystemsExperiments.Verification.GetpwuidR.RealUid

/-! # Every process is looked up by its real user

The number of the user goes from the status of a process through text, number and text again
and comes out as it was. -/

namespace SystemsExperiments.GetpwuidR

open Printing Scanning

/-! ## Printing a number -/

theorem digitOf_natCast (n : ℕ) : digitOf n = digitByte (n % 10) := by
  have hmod : (48 + (n : ℤ).tmod 10).toNat = 48 + n % 10 := by
    rw [Int.tmod_eq_emod_of_nonneg (Int.natCast_nonneg n)]
    omega
  rw [digitOf, hmod, digitByte]

/-- The digits are put before what is already in the array, as long as there is room. -/
theorem fillDigits_natCast (room n : ℕ) (back : List UInt8)
    (hroom : (Nat.digits 10 n).length ≤ room) :
    fillDigits room n (List.replicate room 0 ++ back) =
      .ok (room - (Nat.digits 10 n).length,
        List.replicate (room - (Nat.digits 10 n).length) 0 ++
          ((Nat.digits 10 n).reverse.map digitByte ++ back)) := by
  induction room generalizing n back with
  | zero =>
      have hzero : n = 0 := by
        rwa [Nat.le_zero, List.length_eq_zero_iff, Nat.digits_eq_nil_iff_eq_zero] at hroom
      rw [hzero]
      rfl
  | succ room ih =>
      rw [fillDigits]
      cases Nat.eq_zero_or_pos n with
      | inl hzero => simp [hzero]
      | inr hpos =>
          have hdigits := Nat.digits_def' (show 1 < 10 by decide) hpos
          have hset : (List.replicate (room + 1) 0 ++ back).set room (digitOf n) =
              List.replicate room 0 ++ (digitByte (n % 10) :: back) := by
            rw [List.replicate_succ', List.append_assoc, digitOf_natCast,
              List.set_append_right _ _ (by simp)]
            simp
          have hdiv : (n : ℤ).tdiv 10 = ((n / 10 : ℕ) : ℤ) := by
            rw [Int.tdiv_eq_ediv_of_nonneg (Int.natCast_nonneg n)]
            omega
          have hlen : (Nat.digits 10 (n / 10)).length ≤ room := by
            rw [hdigits, List.length_cons] at hroom
            omega
          rw [if_neg (by omega), hset, hdiv, ih (n / 10) _ hlen, hdigits, List.length_cons,
            Nat.add_sub_add_right, List.reverse_cons, List.map_append, List.append_assoc]
          rfl

/-- A NUL is written before the number. -/
theorem writeNumber_natCast {n : ℕ} (hn : n < 2 ^ 63) :
    writeNumber n = .ok (0 :: Printing.decimal n) := by
  cases Nat.eq_zero_or_pos n with
  | inl hzero =>
      rw [hzero]
      decide +kernel
  | inr hpos =>
      have hlen : (Nat.digits 10 n).length ≤ 19 :=
        (Nat.digits_length_le_iff (by decide) n).mpr (by omega)
      have hfill := fillDigits_natCast uidSize n [] (hlen.trans (by decide))
      have hdecimal : Printing.decimal n = (Nat.digits 10 n).reverse.map digitByte := by
        have hne : Nat.digits 10 n ≠ [] := by
          rw [ne_eq, Nat.digits_eq_nil_iff_eq_zero]
          omega
        have hpos' := List.length_pos_iff.mpr hne
        rw [decimal_eq_map, paddedDigits, Nat.sub_eq_zero_of_le hpos']
        rfl
      obtain ⟨k, hk⟩ : ∃ k, uidSize - (Nat.digits 10 n).length = k + 1 :=
        ⟨uidSize - (Nat.digits 10 n).length - 1, by rw [uidSize]; omega⟩
      rw [List.append_nil, List.append_nil, ← hdecimal, hk] at hfill
      simp only [writeNumber]
      rw [if_neg (by omega), hfill, ok_bind, if_neg (Nat.succ_ne_zero k), Nat.add_sub_cancel,
        List.replicate_succ', List.append_assoc, List.drop_left' (List.length_replicate ..)]
      rfl

/-! ## Processes -/

/-- A process whose number has up to four digits and whose status fits into the buffer of a page,
with no other number behind a `Uid` before the line of its user. -/
structure Process where
  pid : ℕ
  pid_le : pid ≤ 9999
  uid : ℕ
  uid_lt : uid < 2 ^ 32
  report : Report
  length_le : report.text.length ≤ bufSize
  real_eq : report.real.digits = Printing.decimal uid
  plain : ∀ rest, fromFirst uidText report.before = some rest →
    firstNumber rest = [] ∨ firstNumber rest = report.real.digits

def Process.dirent (p : Process) : Dirent where
  name := GetpwuidR.decimal p.pid
  isDir := true
  status := .content p.report.text p.length_le

/-- What is printed for a process, and what is looked up. -/
def Process.lookup (p : Process) : Lookup :=
  .uid (literal "Running test on UID: " ++ (0 :: Printing.decimal p.uid) ++ literal "\n")
    (UInt32.ofNat p.uid)

/-- The number that was found as text is looked up and printed. -/
theorem processArgument_decimal {uid : ℕ} (huid : uid < 2 ^ 32) :
    processArgument (some (Printing.decimal uid)) =
      .ok (.uid (literal "Running test on UID: " ++ (0 :: Printing.decimal uid) ++ literal "\n")
        (UInt32.ofNat uid)) := by
  have hdigits := Scanf.decimal_digits uid
  have hall : (Printing.decimal uid).all isDigit = true :=
    List.all_eq_true.mpr (forall_mem_decimal (p := fun c => isDigit c = true) (by decide) uid)
  have hnumber : isNumber (Printing.decimal uid) = true := by
    rw [isNumber, hall]
    simpa using hdigits.1
  have hstrtol : strtol (Printing.decimal uid) = uid := by
    rw [strtol, hdigits.2.2]
    exact min_eq_left (by rw [longMax]; omega)
  have hnat : (UInt32.ofNat uid).toNat = uid := by
    rw [UInt32.toNat_ofNat']
    exact Nat.mod_eq_of_lt huid
  have hwrite := writeNumber_natCast (show uid < 2 ^ 63 by omega)
  simp only [processArgument, hstrtol, hnat, hwrite]
  rw [if_neg hdigits.1, if_pos hnumber]
  rfl

theorem pollEntry_process (p : Process) : pollEntry p.dirent = .ok p.lookup := by
  have hfound := (found_eq_iff p.report).mpr p.plain
  have hpid : (GetpwuidR.decimal p.pid).length ≤ 4 := (length_decimal_le p.pid).mpr p.pid_le
  have hlen : (Printing.decimal p.uid).length ≤ 10 := by
    have hlt : p.uid < 10 ^ 10 := by
      have := p.uid_lt
      omega
    exact Printing.length_decimal_le hlt (by decide)
  have hreport := uidFromPid_report p.report p.length_le hpid
  have hstring := cString_append_zeros p.report.real.isDigit_of_mem
    (uidSize - p.report.real.digits.length)
  rw [hfound, p.real_eq, if_pos (by rw [uidSize]; omega)] at hreport
  rw [p.real_eq, if_neg (by rw [uidSize]; omega), cString] at hstring
  simp only [pollEntry, Process.dirent, hreport, ok_bind]
  split at hstring
  · rename_i hmem
    rw [if_pos hmem, Option.some.inj hstring]
    exact processArgument_decimal p.uid_lt
  · cases hstring

/-- Whatever else is in `/proc`, each process is looked up once, by the number of its real user,
in the order of the directory; the number that is printed is that number behind a NUL. -/
theorem pollProc_processes (entries : List Dirent) (processes : List Process)
    (h : entries.filter Dirent.isProcess = processes.map Process.dirent) :
    pollProc entries = .ok (processes.map Process.lookup) := by
  rw [pollProc, h]
  clear h
  induction processes with
  | nil => rfl
  | cons p processes ih =>
      rw [List.map_cons, List.mapM_cons, pollEntry_process, ok_bind, ih, ok_bind]
      rfl

/-- A shell of user 1000. -/
def shell : Process where
  pid := 1
  pid_le := Nat.le_of_ble_eq_true rfl
  uid := 1000
  uid_lt := Nat.le_of_ble_eq_true rfl
  report := called [115, 104] (by decide)
  length_le := Nat.le_of_ble_eq_true rfl
  real_eq := by decide +kernel
  plain := by decide +kernel

theorem pollProc_processes_shell :
    pollProc [⟨[46], true, .notOpened⟩, shell.dirent] = .ok [shell.lookup] := by
  have hprocess : shell.dirent.isProcess = true := by decide +kernel
  apply pollProc_processes _ [shell]
  rw [List.filter_cons_of_neg (by decide), List.filter_cons_of_pos hprocess]
  rfl

end SystemsExperiments.GetpwuidR
