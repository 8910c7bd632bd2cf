import SystemsExperiments.Model.GetpwuidR.UidFromPid
import SystemsExperiments.Shared.Scanning

/-! # What the loops find

The text from its first `Uid` on, and the first number of that text. Behind what was read the
buffer holds zeros, in which there is neither. -/

namespace SystemsExperiments.GetpwuidR

open Scanning

/-! ## In the text -/

def uidText : List UInt8 := bytesOf ['U', 'i', 'd']

def firstNumber (text : List UInt8) : List UInt8 :=
  (text.dropWhile fun b => !isDigit b).takeWhile isDigit

def behindNumber (text : List UInt8) : List UInt8 :=
  (text.dropWhile fun b => !isDigit b).dropWhile isDigit

/-! ## In the buffer -/

@[simp] theorem ok_bind {α β : Type} (a : α) (f : α → Except Fault β) :
    (Except.ok a >>= f) = f a := rfl

@[simp] theorem error_bind {α β : Type} (fault : Fault) (f : α → Except Fault β) :
    (Except.error fault >>= f) = .error fault := rfl

theorem prefix_append_zeros {pattern : List UInt8} (h : 0 ∉ pattern) (text : List UInt8) (k : ℕ) :
    pattern <+: text ++ List.replicate k 0 ↔ pattern <+: text := by
  cases k with
  | zero => rw [List.replicate_zero, List.append_nil]
  | succ k => exact prefix_append_cons h text _

/-- The three bytes are compared, or the end of the buffer is too near. -/
theorem atUid_spec (buf : List UInt8) :
    atUid buf = .ok (decide (uidText <+: buf)) ∨ atUid buf = .error .buf ∧ buf.length < 3 := by
  have huid : uidText = [85, 105, 100] := rfl
  cases buf with
  | nil => exact .inr ⟨rfl, by decide⟩
  | cons a buf =>
      by_cases ha : a = 85
      · subst ha
        cases buf with
        | nil => exact .inr ⟨rfl, by decide⟩
        | cons b buf =>
            by_cases hb : b = 105
            · subst hb
              cases buf with
              | nil => exact .inr ⟨rfl, by decide⟩
              | cons c buf =>
                  left
                  simp [atUid, byteAt, huid, pure, Except.pure, eq_comm]
            · left
              simp [atUid, byteAt, huid, pure, Except.pure, hb, Ne.symm hb]
      · left
        simp [atUid, byteAt, huid, pure, Except.pure, ha, Ne.symm ha]

theorem atUid_append_zeros (text : List UInt8) {k : ℕ} (h : 3 ≤ text.length + k) :
    atUid (text ++ List.replicate k 0) = .ok (decide (uidText <+: text)) := by
  cases atUid_spec (text ++ List.replicate k 0) with
  | inl heq =>
      rw [heq]
      simp only [prefix_append_zeros (show 0 ∉ uidText by decide)]
  | inr hshort =>
      rw [List.length_append, List.length_replicate] at hshort
      omega

theorem findUid_present {text rest : List UInt8} (h : fromFirst uidText text = some rest) (k : ℕ)
    {limit n : ℕ} (hlimit : n + text.length ≤ limit) :
    findUid limit n (text ++ List.replicate k 0) =
      .ok (n + (text.length - rest.length) + 1, rest ++ List.replicate k 0) := by
  induction text generalizing n with
  | nil => cases h
  | cons a text ih =>
      have hpos : n < limit := by simp at hlimit; omega
      have hlen := (isPrefix_fromFirst h).length_le.trans (isSuffix_fromFirst h).length_le
      have hat := atUid_append_zeros (a :: text) (k := k) (hlen.trans (Nat.le_add_right _ k))
      rw [fromFirst] at h
      rw [List.cons_append] at hat ⊢
      rw [findUid, if_pos hpos, hat]
      split at h
      · cases h
        simp [*, pure, Except.pure]
      · have hrest := ih h (n := n + 1) (by simp at hlimit; omega)
        have hle := (isSuffix_fromFirst h).length_le
        have hn : n + 1 + (text.length - rest.length) = n + (text.length + 1 - rest.length) := by
          omega
        simp [*]

theorem atUid_zero (buf : List UInt8) : atUid (0 :: buf) = .ok false := rfl

theorem findUid_zeros (n i k : ℕ) :
    findUid (n + i) n (List.replicate (i + k) 0) = .ok (n + i + 1, List.replicate k 0) := by
  induction i generalizing n with
  | zero =>
      rw [Nat.zero_add]
      cases k with
      | zero => rw [List.replicate_zero, findUid, if_neg (by omega), Nat.add_zero]
      | succ k => rw [List.replicate_succ, findUid, if_neg (by omega), Nat.add_zero]
  | succ i ih =>
      have hnext := ih (n + 1)
      rw [Nat.add_right_comm] at hnext
      rw [Nat.add_right_comm i 1 k, List.replicate_succ, findUid, if_pos (by omega), atUid_zero]
      exact hnext

theorem findUid_zeros_overrun (n : ℕ) {i k : ℕ} (h : k < i) :
    findUid (n + i) n (List.replicate k 0) = .error .buf := by
  induction k generalizing n i with
  | zero => rw [List.replicate_zero, findUid, if_pos (by omega)]
  | succ k ih =>
      obtain ⟨i, rfl⟩ : ∃ j, i = j + 1 := ⟨i - 1, by omega⟩
      have hnext := ih (n + 1) (Nat.lt_of_succ_lt_succ h)
      rw [Nat.add_right_comm] at hnext
      rw [List.replicate_succ, findUid, if_pos (by omega), atUid_zero]
      exact hnext

/-- Without an occurrence the loop goes on for five bytes behind the text. -/
theorem findUid_absent {text : List UInt8} (h : fromFirst uidText text = none) (n k : ℕ) :
    findUid (n + (text.length + 5)) n (text ++ List.replicate (5 + k) 0) =
      .ok (n + (text.length + 5) + 1, List.replicate k 0) := by
  induction text generalizing n with
  | nil => simpa using findUid_zeros n 5 k
  | cons a text ih =>
      have hat := atUid_append_zeros (a :: text) (k := 5 + k) (by simp; omega)
      have hlimit : n + ((a :: text).length + 5) = n + 1 + (text.length + 5) := by simp; omega
      rw [fromFirst] at h
      split at h
      · cases h
      · have hnext := ih h (n + 1)
        rw [hlimit, List.cons_append, findUid, if_pos (by omega), ← List.cons_append, hat]
        simp [*]

theorem findUid_overrun {text : List UInt8} (h : fromFirst uidText text = none) (n : ℕ) {k : ℕ}
    (hk : k < 5) :
    findUid (n + (text.length + 5)) n (text ++ List.replicate k 0) = .error .buf := by
  induction text generalizing n with
  | nil => simpa using findUid_zeros_overrun n hk
  | cons a text ih =>
      have hlimit : n + ((a :: text).length + 5) = n + 1 + (text.length + 5) := by simp; omega
      rw [fromFirst] at h
      split at h
      · cases h
      · have hnext := ih h (n + 1)
        rw [hlimit, List.cons_append, findUid, if_pos (by omega), ← List.cons_append]
        cases atUid_spec (a :: text ++ List.replicate k 0) with
        | inl hat =>
            simp only [prefix_append_zeros (show 0 ∉ uidText by decide)] at hat
            rw [hat]
            simp [*]
        | inr hat =>
            rw [hat.1]
            rfl

/-! ## The number -/

theorem skipWhile_eq (p : UInt8 → Bool) (buf : List UInt8) :
    skipWhile p buf =
      if buf.dropWhile p = [] then .error .buf else .ok (buf.dropWhile p) := by
  induction buf with
  | nil => rfl
  | cons b buf ih =>
      rw [skipWhile, List.dropWhile_cons]
      split
      · exact ih
      · rfl

/-- The number has to be there, to end in the buffer, and to be short enough. -/
theorem copyNumber_eq (buf : List UInt8) :
    copyNumber (List.replicate uidSize 0) buf =
      if behindNumber buf = [] then .error .buf
      else if (firstNumber buf).length ≤ uidSize then
        .ok (firstNumber buf ++ List.replicate (uidSize - (firstNumber buf).length) 0)
      else .error .uid := by
  rw [copyNumber, skipWhile_eq, behindNumber, firstNumber]
  generalize hdigits : buf.dropWhile (fun b => !isDigit b) = digits
  cases digits with
  | nil => rfl
  | cons d digits =>
      rw [if_neg (List.cons_ne_nil d digits), ok_bind, skipWhile_eq]
      by_cases hend : (d :: digits).dropWhile isDigit = []
      · rw [if_pos hend, if_pos hend, error_bind]
      · rw [if_neg hend, if_neg hend, ok_bind, take_sub_dropWhile, memcpy, List.length_replicate,
          Nat.zero_add]
        simp

theorem firstNumber_eq_nil (text : List UInt8) :
    firstNumber text = [] ↔ text.dropWhile (fun b => !isDigit b) = [] := by
  rw [firstNumber]
  generalize hdigits : text.dropWhile (fun b => !isDigit b) = digits
  cases digits with
  | nil => simp
  | cons d digits =>
      have hd := List.head_dropWhile_not (fun b => !isDigit b) (l := text) (by simp [hdigits])
      simp only [hdigits, List.head_cons, Bool.not_eq_false'] at hd
      simp [hd]

/-- Text without a number is passed over. -/
theorem dropWhile_not_digit_append (text back : List UInt8) :
    (text ++ back).dropWhile (fun b => !isDigit b) =
      if firstNumber text = [] then back.dropWhile (fun b => !isDigit b)
      else text.dropWhile (fun b => !isDigit b) ++ back := by
  rw [List.dropWhile_append]
  simp only [firstNumber_eq_nil, List.isEmpty_iff]

theorem firstNumber_append_cons {c : UInt8} (hc : isDigit c = false) (text back : List UInt8) :
    firstNumber (text ++ c :: back) =
      if firstNumber text = [] then firstNumber back else firstNumber text := by
  conv_lhs => rw [firstNumber, dropWhile_not_digit_append]
  split
  · rw [List.dropWhile_cons, if_pos (by rw [hc]; rfl), firstNumber]
  · rw [takeWhile_append_cons hc, firstNumber]

theorem behindNumber_append_cons {c : UInt8} (hc : isDigit c = false) {text : List UInt8}
    (hne : firstNumber text ≠ []) (back : List UInt8) :
    behindNumber (text ++ c :: back) = behindNumber text ++ c :: back := by
  conv_lhs => rw [behindNumber, dropWhile_not_digit_append, if_neg hne, dropWhile_append_cons hc]
  rfl

theorem firstNumber_zeros (k : ℕ) : firstNumber (List.replicate k 0) = [] := by
  have hzero : (!isDigit 0) = true := rfl
  rw [firstNumber_eq_nil, List.dropWhile_replicate, if_pos hzero]

theorem firstNumber_append_zeros (text : List UInt8) (k : ℕ) :
    firstNumber (text ++ List.replicate k 0) = firstNumber text := by
  cases k with
  | zero => rw [List.replicate_zero, List.append_nil]
  | succ k =>
      rw [List.replicate_succ, firstNumber_append_cons rfl, firstNumber_zeros]
      split
      · exact Eq.symm ‹_›
      · rfl

/-- The number ends in the buffer if it ends in the text, or if there are zeros behind it. -/
theorem behindNumber_append_zeros (text : List UInt8) (k : ℕ) :
    behindNumber (text ++ List.replicate k 0) = [] ↔
      firstNumber text = [] ∨ behindNumber text = [] ∧ k = 0 := by
  by_cases hne : firstNumber text = []
  · have hzeros := firstNumber_append_zeros text k
    rw [hne, firstNumber_eq_nil] at hzeros
    simp [behindNumber, hzeros, hne]
  · cases k with
    | zero => simp [hne]
    | succ k =>
        rw [List.replicate_succ, behindNumber_append_cons (c := 0) rfl hne]
        simp [hne]

/-! ## The whole function -/

theorem length_of_memcpy {fault : Fault} {array bytes result : List UInt8} {index : ℕ}
    (h : memcpy fault array index bytes = .ok result) : result.length = array.length := by
  rw [memcpy] at h
  split at h
  · cases h
    simp
    omega
  · cases h

theorem memcpy_of_le (fault : Fault) (array bytes : List UInt8) (index : ℕ)
    (h : index + bytes.length ≤ array.length) :
    ∃ result, memcpy fault array index bytes = .ok result ∧ result.length = array.length := by
  have hok : memcpy fault array index bytes = .ok _ := if_pos h
  exact ⟨_, hok, length_of_memcpy hok⟩

theorem memcpy_of_lt (fault : Fault) {array bytes : List UInt8} {index : ℕ}
    (h : array.length < index + bytes.length) : memcpy fault array index bytes = .error fault :=
  if_neg (Nat.not_le.mpr h)

/-- A process number as the name of a directory. -/
def decimal (n : ℕ) : List UInt8 := bytesOf (Nat.toDigits 10 n)

theorem length_decimal_le (n : ℕ) : (decimal n).length ≤ 4 ↔ n ≤ 9999 := by
  rw [decimal, bytesOf, List.length_map, Nat.length_toDigits_le_iff (by decide) (by decide)]
  omega

/-- What is behind the number has to fit, too. -/
theorem procpathFromPid_eq (pid : List UInt8) : ∃ path : List UInt8, path.length = pathSize ∧
    procpathFromPid pid = memcpy .path path 6 pid >>= fun path =>
      memcpy .path path (6 + pid.length)
        (bytesOf ['/', 's', 't', 'a', 't', 'u', 's'] ++ [0]) := by
  obtain ⟨path, hpath, hlen⟩ := memcpy_of_le .path (List.replicate pathSize 32)
    (bytesOf ['/', 'p', 'r', 'o', 'c', '/'] ++ [0]) 0 (by decide)
  refine ⟨path, hlen, ?_⟩
  rw [procpathFromPid, hpath, ok_bind]

/-- There is room for four digits. -/
theorem procpathFromPid_of_le {pid : List UInt8} (h : pid.length ≤ 4) :
    ∃ path, procpathFromPid pid = .ok path := by
  obtain ⟨path, hlen, heq⟩ := procpathFromPid_eq pid
  obtain ⟨path', hpath', hlen'⟩ := memcpy_of_le .path path pid 6 (by rw [hlen, pathSize]; omega)
  obtain ⟨path'', hpath'', -⟩ := memcpy_of_le .path path'
    (bytesOf ['/', 's', 't', 'a', 't', 'u', 's'] ++ [0]) (6 + pid.length)
    (by rw [hlen', hlen, pathSize, bytesOf]; simp; omega)
  exact ⟨path'', by rw [heq, hpath', ok_bind, hpath'']⟩

theorem procpathFromPid_of_lt {pid : List UInt8} (h : 4 < pid.length) :
    procpathFromPid pid = .error .path := by
  obtain ⟨path, hlen, heq⟩ := procpathFromPid_eq pid
  rw [heq]
  by_cases hpid : 6 + pid.length ≤ path.length
  · obtain ⟨path', hpath', hlen'⟩ := memcpy_of_le .path path pid 6 hpid
    rw [hpath', ok_bind]
    exact memcpy_of_lt .path (by rw [hlen', hlen, pathSize, bytesOf]; simp; omega)
  · rw [memcpy_of_lt .path (by omega), error_bind]

theorem uidFromPid_of_lt {pid : List UInt8} (hpid : 4 < pid.length) (status : Status) :
    uidFromPid pid status = .error .path := by
  rw [uidFromPid, procpathFromPid_of_lt hpid, error_bind]

theorem toNat_size {n : ℕ} (h : n ≤ bufSize) : (UInt64.ofNat n).toNat = n :=
  Nat.mod_eq_of_lt (h.trans_lt (by decide))

theorem toNat_size_add {n : ℕ} (h : n ≤ bufSize) : (UInt64.ofNat n + 5).toNat = n + 5 := by
  rw [UInt64.toNat_add, toNat_size h]
  exact Nat.mod_eq_of_lt ((Nat.add_le_add_right h 5).trans_lt (by decide))

/-- The function behind its first lines. -/
theorem uidFromPid_content {pid bytes : List UInt8} (hpid : pid.length ≤ 4) (hne : bytes ≠ [])
    (hlen : bytes.length ≤ bufSize) :
    uidFromPid pid (.content bytes hlen) =
      findUid (bytes.length + 5) 0 (bytes ++ List.replicate (bufSize - bytes.length) 0) >>=
        fun found =>
          if found.1 ≥ bytes.length + 5 then .ok none
          else some <$> copyNumber (List.replicate uidSize 0) found.2 := by
  obtain ⟨path, hpath⟩ := procpathFromPid_of_le hpid
  have hpos : ¬ UInt64.ofNat bytes.length ≤ 0 := by
    rw [UInt64.le_iff_toNat_le, toNat_size hlen]
    exact Nat.not_le.mpr (List.length_pos_iff.mpr hne)
  rw [uidFromPid, hpath, ok_bind, if_neg (by simp)]
  simp only [Status.size, Status.buffer, if_neg hpos, toNat_size_add hlen]
  rfl

theorem uidFromPid_present {pid bytes rest : List UInt8} (hpid : pid.length ≤ 4)
    (hlen : bytes.length ≤ bufSize) (hrest : fromFirst uidText bytes = some rest) :
    uidFromPid pid (.content bytes hlen) =
      some <$> copyNumber (List.replicate uidSize 0)
        (rest ++ List.replicate (bufSize - bytes.length) 0) := by
  have hne : bytes ≠ [] := by
    intro heq
    rw [heq] at hrest
    cases hrest
  have hpresent := (isPrefix_fromFirst hrest).length_le
  rw [show uidText.length = 3 from rfl] at hpresent
  rw [uidFromPid_content hpid hne hlen, findUid_present hrest _ (by omega), ok_bind]
  exact if_neg (by omega)

theorem uidFromPid_absent {pid bytes : List UInt8} (hpid : pid.length ≤ 4)
    (hlen : bytes.length ≤ 4091) (habsent : fromFirst uidText bytes = none) :
    uidFromPid pid (.content bytes (hlen.trans (by decide))) = .ok none := by
  by_cases hne : bytes = []
  · subst hne
    obtain ⟨path, hpath⟩ := procpathFromPid_of_le hpid
    rw [uidFromPid, hpath]
    rfl
  · have hzeros : bufSize - bytes.length = 5 + (bufSize - bytes.length - 5) := by
      rw [bufSize]
      omega
    have hfind := findUid_absent habsent 0 (bufSize - bytes.length - 5)
    rw [Nat.zero_add, ← hzeros] at hfind
    rw [uidFromPid_content hpid hne, hfind, ok_bind]
    exact if_pos (by omega)

theorem uidFromPid_overrun {pid bytes : List UInt8} (hpid : pid.length ≤ 4)
    (hlen : bytes.length ≤ bufSize) (hlong : 4091 < bytes.length)
    (habsent : fromFirst uidText bytes = none) :
    uidFromPid pid (.content bytes hlen) = .error .buf := by
  have hfind := findUid_overrun habsent 0 (k := bufSize - bytes.length) (by rw [bufSize]; omega)
  rw [Nat.zero_add] at hfind
  rw [uidFromPid_content hpid (by rintro rfl; cases hlong) hlen, hfind, error_bind]

end SystemsExperiments.GetpwuidR
