import SystemsExperiments.Model.FasterHexdig.Bench
import Mathlib.Tactic.Ring

/-! # The three counts

A byte from 128 on is negative as a `char`, and only the last of them, which looks like `EOF`, may
be given to `isxdigit`. For all others the three ways agree. -/

namespace SystemsExperiments.FasterHexdig

/-- What `isxdigit` may be given. -/
def Defined (c : UInt8) : Prop := c.toNat < 128 ∨ c.toNat = 255

instance (c : UInt8) : Decidable (Defined c) :=
  inferInstanceAs (Decidable (c.toNat < 128 ∨ c.toNat = 255))

def isDigit (c : UInt8) : Bool := lowerCond (char c)

/-! ## One character -/

theorem defined_iff (c : UInt8) : Defined c ↔ -1 ≤ char c ∧ char c < 256 := by
  have hlt := c.toNat_lt
  rw [Defined, char]
  split <;> omega

/-- A digit that is not upper case is a digit, or a letter from `a` on. -/
theorem lowerCond_eq (c : ℤ) : lowerCond c =
    (((48 ≤ c && c ≤ 57) || (65 ≤ c && c ≤ 70) || (97 ≤ c && c ≤ 102)) &&
      !(65 ≤ c && c ≤ 90)) := by
  rw [Bool.eq_iff_iff, lowerCond]
  simp only [Bool.or_eq_true, Bool.and_eq_true, decide_eq_true_eq, Bool.not_eq_true',
    Bool.and_eq_false_iff, decide_eq_false_iff_not]
  omega

theorem lowerIsm_of_defined {c : UInt8} (hc : Defined c) :
    lowerIsm (char c) = .ok (isDigit c) := by
  have hrange := (defined_iff c).mp hc
  rw [isDigit, lowerCond_eq, lowerIsm, isxdigit, isupper, ctype, if_pos hrange, ctype,
    if_pos hrange]
  cases (48 ≤ char c && char c ≤ 57) || (65 ≤ char c && char c ≤ 70) ||
      (97 ≤ char c && char c ≤ 102) with
  | true => rfl
  | false => rfl

theorem lowerIsm_of_not_defined {c : UInt8} (hc : ¬ Defined c) :
    lowerIsm (char c) = .error .undefined := by
  rw [defined_iff] at hc
  rw [lowerIsm, isxdigit, ctype, if_neg hc]
  rfl

theorem lowerLu_eq (c : UInt8) : lowerLu c = isDigit c := by
  have hlt := c.toNat_lt
  simp [lowerLu, lookup, isDigit, hlt]

/-! ## One loop -/

theorem countLoop_eq {lower : UInt8 → Except Fault Bool} {sv : List UInt8}
    (hlower : ∀ c ∈ sv, lower c = .ok (isDigit c)) (n : ℕ) :
    countLoop lower sv (UInt64.ofNat n) = .ok (UInt64.ofNat (n + sv.countP isDigit)) := by
  induction sv generalizing n with
  | nil => rfl
  | cons c sv ih =>
      rw [List.forall_mem_cons] at hlower
      have hnext : UInt64.ofNat n + (if isDigit c then 1 else 0) =
          UInt64.ofNat (n + if isDigit c then 1 else 0) := by
        rw [UInt64.ofNat_add]
        split <;> rfl
      have hcount : n + (c :: sv).countP isDigit =
          n + (if isDigit c then 1 else 0) + sv.countP isDigit := by
        rw [List.countP_cons]
        omega
      rw [countLoop, hlower.1, hcount]
      exact (congrArg _ hnext).trans (ih hlower.2 _)

theorem countLoop_undefined {sv : List UInt8} (hsv : ∃ c ∈ sv, ¬ Defined c) (count : UInt64) :
    countLoop (fun c => lowerIsm (char c)) sv count = .error .undefined := by
  induction sv generalizing count with
  | nil => simp at hsv
  | cons c sv ih =>
      rw [countLoop]
      by_cases hc : Defined c
      · have hrest : ∃ d ∈ sv, ¬ Defined d := by simpa [hc] using hsv
        rw [lowerIsm_of_defined hc]
        exact ih hrest _
      · rw [lowerIsm_of_not_defined hc]
        rfl

theorem trial_eq (lower : UInt8 → Except Fault Bool) {sv : List UInt8}
    (hlower : ∀ c ∈ sv, lower c = .ok (isDigit c)) (n : ℕ) :
    trial lower sv (UInt64.ofNat n) = .ok (UInt64.ofNat (n + 3 * sv.countP isDigit)) := by
  have hsum : n + 3 * sv.countP isDigit =
      n + sv.countP isDigit + sv.countP isDigit + sv.countP isDigit := by ring
  rw [trial, countLoop_eq hlower, hsum]
  show (countLoop lower sv _ >>= _) = _
  rw [countLoop_eq hlower]
  exact countLoop_eq hlower _

theorem trial_cond (sv : List UInt8) (n : ℕ) :
    trial (fun c => .ok (lowerCond (char c))) sv (UInt64.ofNat n) =
      .ok (UInt64.ofNat (n + 3 * sv.countP isDigit)) :=
  trial_eq _ (fun _ _ => rfl) n

theorem trial_undefined {sv : List UInt8} (hsv : ∃ c ∈ sv, ¬ Defined c) (count : UInt64) :
    trial (fun c => lowerIsm (char c)) sv count = .error .undefined := by
  rw [trial, countLoop_undefined hsv]
  rfl

/-! ## All lines -/

/-- The state with three equal counts. -/
def agreed (count trials characters : ℕ) : BenchState :=
  ⟨UInt64.ofNat count, UInt64.ofNat count, UInt64.ofNat count, UInt64.ofNat trials,
    UInt64.ofNat characters⟩

section Run

variable {line : List UInt8}

theorem run_agreed (hline : ∀ c ∈ line, Defined c) (count trials characters : ℕ) :
    (agreed count trials characters).run line =
      .ok (agreed (count + 3 * line.countP isDigit) (trials + 1) (characters + line.length)) := by
  have hcond := trial_cond line count
  have hism := trial_eq (fun c => lowerIsm (char c))
    (fun c hc => lowerIsm_of_defined (hline c hc)) count
  have hlu := trial_eq (fun c => .ok (lowerLu c))
    (fun c (_ : c ∈ line) => congrArg _ (lowerLu_eq c)) count
  simp [BenchState.run, agreed, hcond, hism, hlu, bind, Except.bind]

theorem run_undefined (hline : ∃ c ∈ line, ¬ Defined c) (count trials characters : ℕ) :
    (agreed count trials characters).run line = .error .undefined := by
  have hcond := trial_cond line count
  have hism := trial_undefined hline (UInt64.ofNat count)
  simp [BenchState.run, agreed, hcond, hism, bind, Except.bind]

end Run

theorem runLines_agreed (lines : List (List UInt8)) (count trials characters : ℕ) :
    runLines lines (agreed count trials characters) =
      if lines.flatten.all fun c => Defined c then
        .ok (agreed (count + 3 * lines.flatten.countP isDigit) (trials + lines.length)
          (characters + lines.flatten.length))
      else .error .undefined := by
  induction lines generalizing count trials characters with
  | nil => simp [runLines]
  | cons line lines ih =>
      rw [runLines]
      by_cases hline : ∀ c ∈ line, Defined c
      · have hall : (line :: lines).flatten.all (fun c => Defined c) =
            lines.flatten.all fun c => Defined c := by
          have hfirst : line.all (fun c => Defined c) = true := by simpa using hline
          rw [List.flatten_cons, List.all_append, hfirst, Bool.true_and]
        have hcount : count + 3 * (line :: lines).flatten.countP isDigit =
            count + 3 * line.countP isDigit + 3 * lines.flatten.countP isDigit := by
          rw [List.flatten_cons, List.countP_append]
          ring
        have htrials : trials + (line :: lines).length = trials + 1 + lines.length := by
          rw [List.length_cons]
          ring
        have hcharacters : characters + (line :: lines).flatten.length =
            characters + line.length + lines.flatten.length := by
          rw [List.flatten_cons, List.length_append]
          ring
        rw [run_agreed hline, hall, hcount, htrials, hcharacters]
        exact ih _ _ _
      · have hundefined : ∃ c ∈ line, ¬ Defined c := by simpa using hline
        rw [run_undefined hundefined, if_neg]
        · rfl
        · intro hall
          rw [List.flatten_cons, List.all_append, Bool.and_eq_true] at hall
          exact hline (by simpa using hall.1)

/-- The benchmark never breaks: it counts every digit three times in each way, or it reads a
character that `isxdigit` is not defined for. -/
theorem runLines_counts (lines : List (List UInt8)) :
    runLines lines benchAtStart =
      if lines.flatten.all fun c => Defined c then
        .ok (agreed (3 * lines.flatten.countP isDigit) lines.length lines.flatten.length)
      else .error .undefined := by
  have hrun := runLines_agreed lines 0 0 0
  simp only [Nat.zero_add] at hrun
  exact hrun

end SystemsExperiments.FasterHexdig
