import SystemsExperiments.Shared.Mutex
import SystemsExperiments.Shared.Sorting
import SystemsExperiments.Model.TscTime.CycleCounter
import Mathlib.Algebra.Order.Field.Basic

/-! # The scale is set once

The flag in `initialize` lets one thread in, for good. It alone writes the scale, and nobody
reads the scale before it has come out: every conversion is by the median of the samples. -/

namespace SystemsExperiments.TscTime

open Interleaving Mutex

variable {F : Type}

/-- A thread in `calibrate`. -/
def CounterPc.calibrates : CounterPc F → Prop
  | .measure _ | .storeMiddle _ | .storeAverage _ | .storeCalibrated => True
  | _ => False

def CounterPc.writesScale : CounterPc F → Prop
  | .storeMiddle _ | .storeAverage _ => True
  | _ => False

def CounterPc.readsScale : CounterPc F → Prop
  | .readScale _ => True
  | _ => False

variable [Zero F] [Add F] [Div F] [NatCast F] [LE F] [DecidableLE F]

def Calibrated (n : ℕ) (s : CycleCounter F) : Prop :=
  s.taken.length = n ∧ s.cyclesPerNs = middle (s.taken.insertionSort (· ≤ ·)) n

/-- While nobody is in `calibrate`, nobody has begun or somebody has ended. -/
def Settled (n : ℕ) (s : CycleCounter F) : Prop :=
  (s.isCalibrated = false ∧ s.taken = []) ∨
    (s.initialized = true ∧ s.isCalibrated = true ∧ Calibrated n s)

/-- What the thread in `calibrate` knows. -/
def Calibrating (n : ℕ) (s : CycleCounter F) (p : CounterThread F) : Prop :=
  s.isCalibrated = false ∧
    match p.pc with
    | .measure samples => samples = s.taken ∧ samples.length ≤ n
    | .storeMiddle samples => samples = s.taken.insertionSort (· ≤ ·) ∧ s.taken.length = n
    | .storeAverage samples =>
        samples = s.taken.insertionSort (· ≤ ·) ∧ s.taken.length = n ∧ n % 2 = 0
    | .storeCalibrated => Calibrated n s
    | _ => True

/-- A result that is right by the scale that has been set. -/
def CounterResult.Sound (truncate : F → UInt64) (s : CycleCounter F) : CounterResult → Prop
  | .initializeCounter calibrated => calibrated = true → s.isCalibrated = true
  | .cyclesToNs cycles ns =>
      ns ≠ 0 → s.isCalibrated = true ∧ ns = truncate ((cycles.toNat : F) / s.cyclesPerNs)

/-- What any thread has seen of the scale. -/
structure KnowsScale (truncate : F → UInt64) (s : CycleCounter F) (p : CounterThread F) : Prop where
  reads : p.pc.readsScale → s.isCalibrated = true
  sound : ∀ r ∈ p.results, r.Sound truncate s

variable {n : ℕ} {truncate : F → UInt64}

/-! ## One step -/

variable (n truncate) in
theorem counterStep_move (s : CycleCounter F) (p : CounterThread F) (c : CounterChoice F) :
    Move s.initialized p.pc.calibrates (counterStep n truncate s p c).1.initialized
      (counterStep n truncate s p c).2.pc.calibrates := by
  obtain ⟨pc, results⟩ := p
  cases pc with
  | idle =>
      simp only [counterStep]
      split
      · exact .keep Iff.rfl
      · exact .keep Iff.rfl
  | compareExchange =>
      simp only [counterStep]
      split
      · exact .keep Iff.rfl
      · have hfree : s.initialized = false := Bool.eq_false_of_not_eq_true ‹_›
        rw [hfree]
        exact .acquire id trivial
  | loadCalibrated => exact .keep Iff.rfl
  | measure samples =>
      simp only [counterStep]
      split
      · exact .keep Iff.rfl
      · exact .keep Iff.rfl
  | storeMiddle samples =>
      simp only [counterStep]
      split
      · exact .keep Iff.rfl
      · exact .keep Iff.rfl
  | storeAverage samples => exact .keep Iff.rfl
  | storeCalibrated => exact .leave trivial id
  | checkCalibrated cycles =>
      simp only [counterStep]
      split
      · exact .keep Iff.rfl
      · exact .keep Iff.rfl
  | readScale cycles => exact .keep Iff.rfl

variable (n truncate) in
/-- A thread that does not calibrate changes nothing but the flag, which nobody has set. -/
theorem counterStep_outside {s : CycleCounter F} {p : CounterThread F}
    (h : ¬ p.pc.calibrates) (c : CounterChoice F) :
    ((counterStep n truncate s p c).1 = s ∧ ¬ (counterStep n truncate s p c).2.pc.calibrates) ∨
      (s.initialized = false ∧ (counterStep n truncate s p c).1 = { s with initialized := true } ∧
        (counterStep n truncate s p c).2 = p.goto (.measure [])) := by
  obtain ⟨pc, results⟩ := p
  cases pc with
  | idle =>
      simp only [counterStep]
      split
      · exact .inl ⟨rfl, id⟩
      · exact .inl ⟨rfl, id⟩
  | compareExchange =>
      simp only [counterStep]
      split
      · exact .inl ⟨rfl, id⟩
      · exact .inr ⟨Bool.eq_false_of_not_eq_true ‹_›, rfl, rfl⟩
  | loadCalibrated => exact .inl ⟨rfl, id⟩
  | measure samples => exact absurd trivial h
  | storeMiddle samples => exact absurd trivial h
  | storeAverage samples => exact absurd trivial h
  | storeCalibrated => exact absurd trivial h
  | checkCalibrated cycles =>
      simp only [counterStep]
      split
      · exact .inl ⟨rfl, id⟩
      · exact .inl ⟨rfl, id⟩
  | readScale cycles => exact .inl ⟨rfl, id⟩

theorem counterStep_storeMiddle (s : CycleCounter F) (samples : List F)
    (results : List CounterResult) (c : CounterChoice F) :
    counterStep n truncate s ⟨.storeMiddle samples, results⟩ c =
      ({ s with cyclesPerNs := samples.getD (n / 2) 0 },
        ⟨if n % 2 = 0 then .storeAverage samples else .storeCalibrated, results⟩) := rfl

variable (truncate) in
/-- A thread in `calibrate` goes on in it, or leaves the scale behind. -/
theorem counterStep_calibrating {s : CycleCounter F} {p : CounterThread F}
    (hin : p.pc.calibrates) (h : Calibrating n s p) (c : CounterChoice F) :
    (counterStep n truncate s p c).1.initialized = s.initialized ∧
      (counterStep n truncate s p c).2.results = p.results ∧
      (((counterStep n truncate s p c).2.pc.calibrates ∧
          Calibrating n (counterStep n truncate s p c).1 (counterStep n truncate s p c).2) ∨
        ((counterStep n truncate s p c).2.pc = .loadCalibrated ∧
          (counterStep n truncate s p c).1.isCalibrated = true ∧
          Calibrated n (counterStep n truncate s p c).1)) := by
  obtain ⟨pc, results⟩ := p
  obtain ⟨hcalibrated, hpc⟩ := h
  cases pc with
  | idle => exact hin.elim
  | compareExchange => exact hin.elim
  | loadCalibrated => exact hin.elim
  | measure samples =>
      obtain ⟨rfl, hlen⟩ := hpc
      simp only [counterStep]
      by_cases hless : s.taken.length < n
      · rw [if_pos hless]
        refine ⟨rfl, rfl, .inl ⟨trivial, hcalibrated, rfl, ?_⟩⟩
        rw [List.length_append]
        exact hless
      · rw [if_neg hless]
        exact ⟨rfl, rfl, .inl ⟨trivial, hcalibrated, rfl, Nat.le_antisymm hlen (not_lt.mp hless)⟩⟩
  | storeMiddle samples =>
      obtain ⟨rfl, hlen⟩ := hpc
      rw [counterStep_storeMiddle]
      by_cases heven : n % 2 = 0
      · rw [if_pos heven]
        exact ⟨rfl, rfl, .inl ⟨trivial, hcalibrated, rfl, hlen, heven⟩⟩
      · rw [if_neg heven]
        refine ⟨rfl, rfl, .inl ⟨trivial, hcalibrated, hlen, ?_⟩⟩
        rw [middle, if_neg heven]
  | storeAverage samples =>
      obtain ⟨rfl, hlen, heven⟩ := hpc
      refine ⟨rfl, rfl, .inl ⟨trivial, hcalibrated, hlen, ?_⟩⟩
      rw [middle, if_pos heven]
      rfl
  | storeCalibrated => exact ⟨rfl, rfl, .inr ⟨rfl, rfl, hpc⟩⟩
  | checkCalibrated cycles => exact hin.elim
  | readScale cycles => exact hin.elim

/-- What a thread outside adds to its results is right. -/
theorem counterStep_knows {s : CycleCounter F} {p : CounterThread F}
    (hout : ¬ p.pc.calibrates) (h : KnowsScale truncate s p) (c : CounterChoice F) :
    KnowsScale truncate s (counterStep n truncate s p c).2 := by
  obtain ⟨pc, results⟩ := p
  obtain ⟨hreads, hsound⟩ := h
  cases pc with
  | idle =>
      simp only [counterStep]
      split
      · exact ⟨False.elim, hsound⟩
      · exact ⟨False.elim, hsound⟩
  | compareExchange =>
      simp only [counterStep]
      split
      · exact ⟨False.elim, hsound⟩
      · exact ⟨False.elim, hsound⟩
  | loadCalibrated =>
      exact ⟨False.elim, List.forall_mem_append.mpr ⟨hsound, List.forall_mem_singleton.mpr id⟩⟩
  | measure samples => exact absurd trivial hout
  | storeMiddle samples => exact absurd trivial hout
  | storeAverage samples => exact absurd trivial hout
  | storeCalibrated => exact absurd trivial hout
  | checkCalibrated cycles =>
      simp only [counterStep]
      split
      · exact ⟨fun _ => ‹_›, hsound⟩
      · refine ⟨False.elim, List.forall_mem_append.mpr ⟨hsound, ?_⟩⟩
        exact List.forall_mem_singleton.mpr fun hne => absurd rfl hne
  | readScale cycles =>
      refine ⟨False.elim, List.forall_mem_append.mpr ⟨hsound, ?_⟩⟩
      exact List.forall_mem_singleton.mpr fun _ => ⟨hreads trivial, rfl⟩

omit [Zero F] [Add F] [LE F] [DecidableLE F] in
/-- As long as the scale is not set there is nothing that could go wrong. -/
theorem KnowsScale.of_uncalibrated {s s' : CycleCounter F} {p p' : CounterThread F}
    (h : KnowsScale truncate s p) (hs : s.isCalibrated = false) (hresults : p'.results = p.results)
    (hreads : p'.pc.readsScale → p.pc.readsScale) : KnowsScale truncate s' p' := by
  refine ⟨fun hr => ?_, fun r hr => ?_⟩
  · have hcalibrated := h.reads (hreads hr)
    rw [hs] at hcalibrated
    cases hcalibrated
  · have hsound := h.sound r (hresults ▸ hr)
    cases r with
    | initializeCounter calibrated =>
        intro htrue
        have hcalibrated := hsound htrue
        rw [hs] at hcalibrated
        cases hcalibrated
    | cyclesToNs cycles ns =>
        intro hne
        have hcalibrated := (hsound hne).1
        rw [hs] at hcalibrated
        cases hcalibrated

/-! ## All threads -/

structure CounterInv (n : ℕ) (truncate : F → UInt64) (s : CounterSystem F) : Prop where
  exclusive : Exclusive CycleCounter.initialized (fun p => p.pc.calibrates) s
  guards : Guards (fun p : CounterThread F => p.pc.calibrates) (Settled n) (Calibrating n) s
  knows : ∀ t, KnowsScale truncate s.shared (s.thread t)

theorem counterInv_uncalibrated : CounterInv n truncate (uncalibrated (F := F)) := by
  refine ⟨⟨nofun, nofun⟩, ⟨fun _ => .inl ⟨rfl, rfl⟩, nofun⟩, fun t => ⟨nofun, nofun⟩⟩

omit [Zero F] [Add F] [LE F] [DecidableLE F] in
/-- The flag alone tells nothing about the scale. -/
theorem KnowsScale.claim {s : CycleCounter F} {p : CounterThread F} (h : KnowsScale truncate s p) :
    KnowsScale truncate { s with initialized := true } p := ⟨h.reads, h.sound⟩

theorem knowsScale_step (s : CounterSystem F) (t : ℕ) (c : CounterChoice F)
    (h : CounterInv n truncate s) (u : ℕ) :
    KnowsScale truncate (step (counterStep n truncate) s t c).shared
      ((step (counterStep n truncate) s t c).thread u) := by
  revert u
  by_cases hin : (s.thread t).pc.calibrates
  · have hheld := h.guards.held t hin
    obtain ⟨-, hresults, hnext⟩ := counterStep_calibrating truncate hin hheld c
    refine step_forall _ ?_ fun u hu => (h.knows u).of_uncalibrated hheld.1 rfl id
    refine (h.knows t).of_uncalibrated hheld.1 hresults fun hreads => ?_
    cases hnext with
    | inl hinside =>
        generalize (counterStep n truncate s.shared (s.thread t) c).2.pc = pc at hinside hreads
        cases pc with
        | readScale cycles => exact hinside.1.elim
        | _ => exact hreads.elim
    | inr houtside =>
        rw [houtside.1] at hreads
        exact hreads.elim
  · cases counterStep_outside n truncate hin c with
    | inl hsame =>
        have hself := counterStep_knows (n := n) hin (h.knows t) c
        refine step_forall _ ?_ fun u _ => ?_
        · rw [hsame.1]
          exact hself
        · rw [hsame.1]
          exact h.knows u
    | inr henter =>
        obtain ⟨-, hshared, hthread⟩ := henter
        refine step_forall _ ?_ fun u _ => ?_
        · rw [hshared, hthread]
          exact ⟨False.elim, (h.knows t).claim.sound⟩
        · rw [hshared]
          exact (h.knows u).claim

theorem counterInv_step (s : CounterSystem F) (t : ℕ) (c : CounterChoice F)
    (h : CounterInv n truncate s) :
    CounterInv n truncate (step (counterStep n truncate) s t c) := by
  have hmove := counterStep_move n truncate s.shared (s.thread t) c
  rw [← step_shared, ← step_thread_self] at hmove
  refine ⟨h.exclusive.step hmove, ?_, knowsScale_step s t c h⟩
  refine h.guards.step h.exclusive hmove ?_ ?_ ?_ ?_ ?_
  · intro hout hfree
    cases counterStep_outside n truncate hout c with
    | inl hsame =>
        rw [step_shared, hsame.1]
        exact hfree
    | inr henter =>
        rw [step_shared, henter.2.1]
        cases hfree with
        | inl hbefore => exact .inl hbefore
        | inr hafter => exact .inr ⟨rfl, hafter.2⟩
  · intro u hout hheld
    cases counterStep_outside n truncate hout c with
    | inl hsame =>
        rw [step_shared, hsame.1]
        exact hheld
    | inr henter =>
        rw [step_shared, henter.2.1]
        exact hheld
  · intro hout hin hfree
    rw [step_thread_self] at hin ⊢
    cases counterStep_outside n truncate hout c with
    | inl hsame => exact absurd hin hsame.2
    | inr henter =>
        rw [step_shared, henter.2.1, henter.2.2]
        cases hfree with
        | inl hbefore => exact ⟨hbefore.1, hbefore.2.symm, Nat.zero_le n⟩
        | inr hafter =>
            have hinit := hafter.1
            rw [henter.1] at hinit
            cases hinit
  · intro hin hheld hstay
    rw [step_thread_self] at hstay ⊢
    cases (counterStep_calibrating truncate hin hheld c).2.2 with
    | inl hinside => exact hinside.2
    | inr houtside =>
        rw [houtside.1] at hstay
        exact hstay.elim
  · intro hin hheld hleave
    rw [step_thread_self] at hleave
    have hflag := h.exclusive.flag_of_inside t hin
    obtain ⟨hinit, -, hnext⟩ := counterStep_calibrating truncate hin hheld c
    cases hnext with
    | inl hinside => exact absurd hinside.1 hleave
    | inr houtside => exact .inr ⟨hinit.trans hflag, houtside.2⟩

theorem counterInv_calibrating (n : ℕ) (truncate : F → UInt64)
    (sched : List (ℕ × CounterChoice F)) :
    CounterInv n truncate (calibrating n truncate sched) :=
  run_invariant _ counterInv_step sched counterInv_uncalibrated

/-- Once the scale is set nobody calibrates. -/
theorem CounterInv.calibrated {s : CounterSystem F} (h : CounterInv n truncate s)
    (hcalibrated : s.shared.isCalibrated = true) :
    (∀ t, ¬ (s.thread t).pc.calibrates) ∧ Calibrated n s.shared := by
  have hnone : ∀ t, ¬ (s.thread t).pc.calibrates := by
    intro t hin
    have huncalibrated := (h.guards.held t hin).1
    rw [hcalibrated] at huncalibrated
    cases huncalibrated
  refine ⟨hnone, ?_⟩
  cases h.guards.free hnone with
  | inl hbefore =>
      rw [hcalibrated] at hbefore
      cases hbefore.1
  | inr hafter => exact hafter.2.2

theorem CounterInv.length_taken_le {s : CounterSystem F} (h : CounterInv n truncate s) :
    s.shared.taken.length ≤ n := by
  by_cases hsomebody : ∃ t, (s.thread t).pc.calibrates
  · obtain ⟨t, hin⟩ := hsomebody
    have hpc := (h.guards.held t hin).2
    generalize (s.thread t).pc = pc at hin hpc
    cases pc with
    | measure samples => exact hpc.1 ▸ hpc.2
    | storeMiddle samples => exact hpc.2.le
    | storeAverage samples => exact hpc.2.1.le
    | storeCalibrated => exact hpc.1.le
    | _ => exact hin.elim
  · cases h.guards.free (not_exists.mp hsomebody) with
    | inl hbefore =>
        rw [hbefore.2]
        exact Nat.zero_le n
    | inr hafter => exact hafter.2.2.1.le

omit [Zero F] [Add F] [Div F] [NatCast F] [LE F] [DecidableLE F] in
theorem CounterPc.calibrates_of_writesScale {pc : CounterPc F} (h : pc.writesScale) :
    pc.calibrates := by
  cases pc with
  | storeMiddle samples => trivial
  | storeAverage samples => trivial
  | _ => exact h.elim

/-- All calls see one scale, or none. -/
structure OneScale (n : ℕ) (truncate : F → UInt64) (s : CounterSystem F) : Prop where
  /-- The samples are taken once. -/
  taken_le : s.shared.taken.length ≤ n
  /-- Nobody is at the scale while another thread writes it. -/
  race_free : ∀ t u, (s.thread t).pc.writesScale →
    (s.thread u).pc.writesScale ∨ (s.thread u).pc.readsScale → t = u
  initialized : ∀ t, .initializeCounter true ∈ (s.thread t).results → s.shared.isCalibrated = true
  converted : ∀ t cycles ns, .cyclesToNs cycles ns ∈ (s.thread t).results → ns ≠ 0 →
    s.shared.taken.length = n ∧
      ns = truncate ((cycles.toNat : F) / middle (s.shared.taken.insertionSort (· ≤ ·)) n)

theorem CounterInv.converted {s : CounterSystem F} (h : CounterInv n truncate s) {t : ℕ}
    {cycles ns : UInt64} (hresult : .cyclesToNs cycles ns ∈ (s.thread t).results)
    (hne : ns ≠ 0) :
    s.shared.taken.length = n ∧
      ns = truncate ((cycles.toNat : F) /
        middle (s.shared.taken.insertionSort (· ≤ ·)) n) := by
  obtain ⟨hcalibrated, hns⟩ := (h.knows t).sound _ hresult hne
  obtain ⟨hlen, hscale⟩ := (h.calibrated hcalibrated).2
  rw [hscale] at hns
  exact ⟨hlen, hns⟩

/-- However many threads call `initialize` and `cycles_to_ns`, and in whatever order their
steps come: every conversion that is not zero is by the median of the samples of one thread. -/
theorem calibrated_once (n : ℕ) (truncate : F → UInt64) (sched : List (ℕ × CounterChoice F)) :
    OneScale n truncate (calibrating n truncate sched) := by
  have hinv := counterInv_calibrating n truncate sched
  refine ⟨hinv.length_taken_le, fun t u hwrites haccess => ?_, fun t hresult => ?_,
    fun t cycles ns => hinv.converted⟩
  · have hin := CounterPc.calibrates_of_writesScale hwrites
    cases haccess with
    | inl hwrites' =>
        exact hinv.exclusive.unique t u hin (CounterPc.calibrates_of_writesScale hwrites')
    | inr hreads =>
        have hcalibrated := (hinv.knows u).reads hreads
        rw [(hinv.guards.held t hin).1] at hcalibrated
        cases hcalibrated
  · exact (hinv.knows t).sound _ hresult rfl

end SystemsExperiments.TscTime
