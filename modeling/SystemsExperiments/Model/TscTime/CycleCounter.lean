import SystemsExperiments.Shared.Interleaving
import Mathlib.Data.List.Sort
import Mathlib.Data.Nat.Cast.Defs

/-! # The cycle counter and its scale

One thread calibrates: it takes samples of cycles for each nanosecond and keeps their median.
The others go on meanwhile, and convert to nothing until that is done. -/

namespace SystemsExperiments.TscTime

open Interleaving

variable {F : Type} [Zero F] [Add F] [Div F] [NatCast F] [LE F] [DecidableLE F]

/-- What `calibrate` leaves in `cycles_per_ns`, from its samples in order. -/
def middle (samples : List F) (n : ℕ) : F :=
  if n % 2 = 0 then (samples.getD (n / 2) 0 + samples.getD (n / 2 - 1) 0) / (2 : ℕ)
  else samples.getD (n / 2) 0

/-- The static members, `initialized` in `initialize`, and all samples that were taken. -/
structure CycleCounter (F : Type) where
  cyclesPerNs : F
  isCalibrated : Bool
  initialized : Bool
  taken : List F

inductive CounterCall where
  | initializeCounter
  | cyclesToNs (cycles : UInt64)

/-- A call that has returned, with its result. -/
inductive CounterResult where
  | initializeCounter (calibrated : Bool)
  | cyclesToNs (cycles ns : UInt64)
  deriving DecidableEq

inductive CounterPc (F : Type) where
  | idle
  -- `initialize`
  | compareExchange
  | loadCalibrated
  -- `calibrate`
  | measure (samples : List F)
  | storeMiddle (samples : List F)
  | storeAverage (samples : List F)
  | storeCalibrated
  -- `cycles_to_ns`
  | checkCalibrated (cycles : UInt64)
  | readScale (cycles : UInt64)

structure CounterThread (F : Type) where
  pc : CounterPc F
  results : List CounterResult

/-- What an idle thread calls next, and what a round of the loop in `calibrate` measures. -/
structure CounterChoice (F : Type) where
  call : CounterCall
  elapsedCycles : UInt64
  elapsedNs : F

namespace CounterThread

def goto (p : CounterThread F) (pc : CounterPc F) : CounterThread F := { p with pc := pc }

def finish (p : CounterThread F) (r : CounterResult) : CounterThread F := ⟨.idle, p.results ++ [r]⟩

end CounterThread

/-- One step of a thread; `calibrate` takes `n` samples (25 when `initialize` calls it), and
`truncate` is the conversion of a `double` to `uint64_t`. -/
def counterStep (n : ℕ) (truncate : F → UInt64) (s : CycleCounter F) (p : CounterThread F)
    (c : CounterChoice F) : CycleCounter F × CounterThread F :=
  match p.pc with
  | .idle =>
      match c.call with
      | .initializeCounter => (s, p.goto .compareExchange)
      | .cyclesToNs cycles => (s, p.goto (.checkCalibrated cycles))
  | .compareExchange =>
      if s.initialized then (s, p.goto .loadCalibrated)
      else ({ s with initialized := true }, p.goto (.measure []))
  | .measure samples =>
      if samples.length < n then
        let sample := (c.elapsedCycles.toNat : F) / c.elapsedNs
        ({ s with taken := s.taken ++ [sample] }, p.goto (.measure (samples ++ [sample])))
      else (s, p.goto (.storeMiddle (samples.insertionSort (· ≤ ·))))
  | .storeMiddle samples =>
      ({ s with cyclesPerNs := samples.getD (n / 2) 0 },
        p.goto (if n % 2 = 0 then .storeAverage samples else .storeCalibrated))
  | .storeAverage samples =>
      ({ s with
          cyclesPerNs := (samples.getD (n / 2) 0 + samples.getD (n / 2 - 1) 0) / (2 : ℕ) },
        p.goto .storeCalibrated)
  | .storeCalibrated => ({ s with isCalibrated := true }, p.goto .loadCalibrated)
  | .loadCalibrated => (s, p.finish (.initializeCounter s.isCalibrated))
  | .checkCalibrated cycles =>
      if s.isCalibrated then (s, p.goto (.readScale cycles))
      else (s, p.finish (.cyclesToNs cycles 0))
  | .readScale cycles =>
      (s, p.finish (.cyclesToNs cycles (truncate ((cycles.toNat : F) / s.cyclesPerNs))))

abbrev CounterSystem (F : Type) := Sys (CycleCounter F) (CounterThread F)

/-- Before the first call. -/
def uncalibrated : CounterSystem F where
  shared := ⟨0, false, false, []⟩
  thread := fun _ => ⟨.idle, []⟩

/-- The state that a schedule of the threads leads to. -/
def calibrating (n : ℕ) (truncate : F → UInt64) (sched : List (ℕ × CounterChoice F)) :
    CounterSystem F :=
  run (counterStep n truncate) uncalibrated sched

end SystemsExperiments.TscTime
