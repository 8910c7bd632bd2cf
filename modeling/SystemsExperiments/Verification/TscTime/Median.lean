import SystemsExperiments.Verification.TscTime.Calibration
import Mathlib.Data.List.GetD
import Mathlib.Data.Rat.Floor
import Mathlib.Tactic.Linarith

/-! # What disturbs less than half of the samples does not disturb the scale -/

namespace SystemsExperiments.TscTime

open Interleaving Sorting

variable {F : Type} [Field F] [LinearOrder F] {n : ℕ} {lo hi : F}

/-- The samples that are not between two bounds. -/
def outliers (lo hi : F) (samples : List F) : ℕ := samples.countP fun x => x < lo ∨ hi < x

omit [Field F] in
theorem countP_lt_le_outliers (lo hi : F) (samples : List F) :
    samples.countP (fun x => x < lo) ≤ outliers lo hi samples := by
  refine List.countP_mono_left fun x _ hx => ?_
  exact decide_eq_true (.inl (of_decide_eq_true hx))

omit [Field F] in
theorem countP_gt_le_outliers (lo hi : F) (samples : List F) :
    samples.countP (fun x => hi < x) ≤ outliers lo hi samples := by
  refine List.countP_mono_left fun x _ hx => ?_
  exact decide_eq_true (.inr (of_decide_eq_true hx))

/-- With less outliers on either side than samples there, a sample is between the bounds. -/
theorem between_of_rank {samples : List F} {k : ℕ}
    (hlow : outliers lo hi samples ≤ k) (hhigh : outliers lo hi samples + k < samples.length) :
    lo ≤ (samples.insertionSort (· ≤ ·)).getD k 0 ∧
      (samples.insertionSort (· ≤ ·)).getD k 0 ≤ hi := by
  have hperm := List.perm_insertionSort (· ≤ ·) samples
  have hsorted : (samples.insertionSort (· ≤ ·)).Pairwise (· ≤ ·) :=
    List.pairwise_insertionSort (· ≤ ·) samples
  have hlen := hperm.length_eq
  have hk : k < (samples.insertionSort (· ≤ ·)).length := by omega
  rw [List.getD_eq_getElem _ _ hk]
  refine ⟨le_getElem_of_countP hsorted hk ?_, getElem_le_of_countP hsorted hk ?_⟩
  · rw [hperm.countP_eq]
    exact (countP_lt_le_outliers lo hi samples).trans hlow
  · rw [hperm.countP_eq, hlen]
    have hcount := countP_gt_le_outliers lo hi samples
    omega

variable [IsStrictOrderedRing F]

theorem middle_between {samples : List F} (hlen : samples.length = n)
    (hfew : 2 * outliers lo hi samples < n) :
    lo ≤ middle (samples.insertionSort (· ≤ ·)) n ∧
      middle (samples.insertionSort (· ≤ ·)) n ≤ hi := by
  have hupper : lo ≤ (samples.insertionSort (· ≤ ·)).getD (n / 2) 0 ∧
      (samples.insertionSort (· ≤ ·)).getD (n / 2) 0 ≤ hi :=
    between_of_rank (by omega) (by omega)
  rw [middle]
  by_cases heven : n % 2 = 0
  · have hlower : lo ≤ (samples.insertionSort (· ≤ ·)).getD (n / 2 - 1) 0 ∧
        (samples.insertionSort (· ≤ ·)).getD (n / 2 - 1) 0 ≤ hi :=
      between_of_rank (by omega) (by omega)
    rw [if_pos heven, Nat.cast_ofNat]
    constructor
    · linarith [hupper.1, hlower.1]
    · linarith [hupper.2, hlower.2]
  · rw [if_neg heven]
    exact hupper

/-- As long as less than half of the samples are disturbed, every conversion that is not zero
is by a scale between the bounds of the others. -/
theorem conversion_robust (n : ℕ) (truncate : F → UInt64) (sched : List (ℕ × CounterChoice F))
    {t : ℕ} {cycles ns : UInt64} (hne : ns ≠ 0)
    (hresult : .cyclesToNs cycles ns ∈ ((calibrating n truncate sched).thread t).results)
    (hfew : 2 * outliers lo hi (calibrating n truncate sched).shared.taken < n) :
    ∃ scale, lo ≤ scale ∧ scale ≤ hi ∧ ns = truncate ((cycles.toNat : F) / scale) := by
  obtain ⟨hlen, hns⟩ := (counterInv_calibrating n truncate sched).converted hresult hne
  obtain ⟨hlow, hhigh⟩ := middle_between hlen hfew
  exact ⟨_, hlow, hhigh, hns⟩

/-- Three samples of which one is disturbed, and a conversion. -/
def oneDisturbed : List (ℕ × CounterChoice ℚ) :=
  [(0, ⟨.initializeCounter, 0, 1⟩), (0, ⟨.initializeCounter, 0, 1⟩),
    (0, ⟨.initializeCounter, 3, 1⟩), (0, ⟨.initializeCounter, 900, 1⟩),
    (0, ⟨.initializeCounter, 2, 1⟩), (0, ⟨.initializeCounter, 0, 1⟩),
    (0, ⟨.initializeCounter, 0, 1⟩), (0, ⟨.initializeCounter, 0, 1⟩),
    (1, ⟨.cyclesToNs 12, 0, 1⟩), (1, ⟨.cyclesToNs 12, 0, 1⟩), (1, ⟨.cyclesToNs 12, 0, 1⟩)]

def truncateRat (q : ℚ) : UInt64 := UInt64.ofNat q.floor.toNat

theorem conversion_robust_oneDisturbed :
    ∃ scale : ℚ, 2 ≤ scale ∧ scale ≤ 3 ∧ 4 = truncateRat (((12 : UInt64).toNat : ℚ) / scale) :=
  conversion_robust 3 truncateRat oneDisturbed (by decide) (t := 1)
    (by decide +kernel) (by decide +kernel)

end SystemsExperiments.TscTime
