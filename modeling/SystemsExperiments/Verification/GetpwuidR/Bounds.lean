import SystemsExperiments.Verification.GetpwuidR.Scan

/-! # Accesses inside the arrays

The path has room for four digits. The text has to be short, or to have a number behind its
first `Uid` that ends in the buffer and fits into the array for it. -/

namespace SystemsExperiments.GetpwuidR

open Scanning

/-- What is read does not lead out of the buffer or of the array for the number. -/
def Status.Harmless : Status → Prop
  | .notOpened | .notRead => True
  | .content bytes _ =>
      match fromFirst uidText bytes with
      | none => bytes.length ≤ 4091
      | some rest => firstNumber rest ≠ [] ∧ (firstNumber rest).length ≤ uidSize ∧
          (behindNumber rest = [] → bytes.length < bufSize)

theorem uidFromPid_notRead {pid : List UInt8} (hpid : pid.length ≤ 4) :
    uidFromPid pid .notRead = .ok none := by
  obtain ⟨path, hpath⟩ := procpathFromPid_of_le hpid
  have hlimit : (Status.notRead.size + 5).toNat = 0 + 4 := by decide
  have hzeros : Status.notRead.buffer = List.replicate (4 + 4092) 0 := rfl
  have hfind := findUid_zeros 0 4 4092
  rw [← hlimit, ← hzeros] at hfind
  rw [uidFromPid, hpath, ok_bind, if_neg (by simp)]
  simp only [hfind, ok_bind]
  rfl

theorem uidFromPid_notOpened {pid : List UInt8} (hpid : pid.length ≤ 4) :
    uidFromPid pid .notOpened = .ok none := by
  obtain ⟨path, hpath⟩ := procpathFromPid_of_le hpid
  rw [uidFromPid, hpath]
  rfl

theorem copyNumber_isOk (rest : List UInt8) (k : ℕ) :
    (∃ uid, copyNumber (List.replicate uidSize 0) (rest ++ List.replicate k 0) = .ok uid) ↔
      firstNumber rest ≠ [] ∧ (firstNumber rest).length ≤ uidSize ∧
        (behindNumber rest = [] → k ≠ 0) := by
  have hbehind := behindNumber_append_zeros rest k
  rw [copyNumber_eq, firstNumber_append_zeros]
  split
  · have hnone := hbehind.mp ‹_›
    simp
    tauto
  · have hsome := hbehind.not.mp ‹_›
    split
    · simp
      tauto
    · simp
      tauto

theorem uidFromPid_content_isOk {pid bytes : List UInt8} (hpid : pid.length ≤ 4)
    (hlen : bytes.length ≤ bufSize) :
    (∃ result, uidFromPid pid (.content bytes hlen) = .ok result) ↔
      (Status.content bytes hlen).Harmless := by
  rw [Status.Harmless]
  cases hfirst : fromFirst uidText bytes with
  | none =>
      by_cases hshort : bytes.length ≤ 4091
      · exact iff_of_true ⟨none, uidFromPid_absent hpid hshort hfirst⟩ hshort
      · rw [uidFromPid_overrun hpid hlen (Nat.lt_of_not_le hshort) hfirst]
        simpa using Nat.lt_of_not_le hshort
  | some rest =>
      have hroom : bufSize - bytes.length ≠ 0 ↔ bytes.length < bufSize := by omega
      have hcopy := copyNumber_isOk rest (bufSize - bytes.length)
      rw [hroom] at hcopy
      rw [uidFromPid_present hpid hlen hfirst]
      refine Iff.trans ?_ hcopy
      cases copyNumber (List.replicate uidSize 0)
          (rest ++ List.replicate (bufSize - bytes.length) 0) with
      | error fault => simp [Functor.map, Except.map]
      | ok uid => simp [Functor.map, Except.map]

/-- The accesses are inside the arrays for numbers of up to four digits and harmless texts. -/
theorem uidFromPid_inBounds_iff (n : ℕ) (status : Status) :
    (∃ result, uidFromPid (decimal n) status = .ok result) ↔ n ≤ 9999 ∧ status.Harmless := by
  rw [← length_decimal_le]
  by_cases hpid : (decimal n).length ≤ 4
  · cases status with
    | notOpened => exact iff_of_true ⟨none, uidFromPid_notOpened hpid⟩ ⟨hpid, trivial⟩
    | notRead => exact iff_of_true ⟨none, uidFromPid_notRead hpid⟩ ⟨hpid, trivial⟩
    | content bytes hlen => rw [uidFromPid_content_isOk hpid hlen, and_iff_right hpid]
  · refine iff_of_false ?_ (fun h => hpid h.1)
    rw [uidFromPid_of_lt (Nat.lt_of_not_le hpid)]
    simp

/-- Five digits are one too many for the path, a short read may end in front of every digit, a
full one without an occurrence is searched to its end and further, and there are long numbers. -/
theorem uidFromPid_faults :
    uidFromPid (decimal 10000) .notOpened = .error .path ∧
      uidFromPid (decimal 1) (.content uidText (by decide)) = .error .buf ∧
      uidFromPid (decimal 1) (.content (List.replicate bufSize 32) (by simp)) = .error .buf ∧
      uidFromPid (decimal 1) (.content (uidText ++ List.replicate 22 48) (by decide)) =
        .error .uid := by
  decide +kernel

end SystemsExperiments.GetpwuidR
