import SystemsExperiments.Shared.Interleaving
import Mathlib.Data.Nat.Cast.Defs

/-! # Performance accounting

Every hundredth operation feeds its latency into the first of a row of buckets, and what is in
a bucket for too long goes on into the next one as an average. The floating-point numbers are
of any type with their operations. -/

namespace SystemsExperiments.TscTime

open Interleaving

variable {F : Type} [Zero F] [Add F] [Div F] [NatCast F] [LT F] [DecidableLT F]

/-! ## Buckets -/

structure TimeBucket (F : Type) where
  sumLatencyMs : F
  count : UInt64
  lastUpdateTime : UInt64
  timeSpan : F

/-- The part of the configuration that the buckets are made from; the constructor writes to
the first bucket. -/
structure Config (F : Type) where
  numBuckets : ℕ
  numBuckets_pos : 0 < numBuckets
  /-- `base_resolution` times `coarsening_factor` to this power. -/
  timeSpan : ℕ → F
  maxHistory : F
  cyclesToNs : UInt64 → F

def initializeBuckets (config : Config F) : List (TimeBucket F) :=
  (List.range config.numBuckets).map fun i => ⟨0, 0, 0, config.timeSpan i⟩

/-- What `update_buckets` does besides: the subtractions it evaluates, and the buckets that it
shifts with their counts. -/
inductive Event where
  | elapsed (currentTime lastUpdateTime : UInt64)
  | shift (bucket : ℕ) (count : UInt64)
  deriving DecidableEq

namespace TimeBucket

def feed (bucket : TimeBucket F) (currentTime : UInt64) (latency : F) : TimeBucket F :=
  { bucket with
    sumLatencyMs := bucket.sumLatencyMs + latency
    count := bucket.count + 1
    lastUpdateTime := currentTime }

def reset (bucket : TimeBucket F) : TimeBucket F := { bucket with sumLatencyMs := 0, count := 0 }

def avgLatency (bucket : TimeBucket F) : F :=
  if 0 < bucket.count then bucket.sumLatencyMs / (bucket.count.toNat : F) else 0

end TimeBucket

/-- The loop of `update_buckets` from a bucket on, and the check of the last one. -/
def shiftFrom (config : Config F) (currentTime : UInt64) :
    ℕ → TimeBucket F → List (TimeBucket F) → List (TimeBucket F) × List Event
  | _, bucket, [] =>
      if 0 < bucket.count then
        ([if config.maxHistory < config.cyclesToNs (currentTime - bucket.lastUpdateTime) then
            bucket.reset
          else bucket],
          [.elapsed currentTime bucket.lastUpdateTime])
      else ([bucket], [])
  | i, bucket, next :: rest =>
      if bucket.timeSpan < config.cyclesToNs (currentTime - next.lastUpdateTime) then
        let shifted := shiftFrom config currentTime (i + 1)
          (next.feed currentTime bucket.avgLatency) rest
        (bucket.reset :: shifted.1,
          .elapsed currentTime next.lastUpdateTime :: .shift i bucket.count :: shifted.2)
      else
        let shifted := shiftFrom config currentTime (i + 1) next rest
        (bucket :: shifted.1, .elapsed currentTime next.lastUpdateTime :: shifted.2)

def updateBuckets (config : Config F) (currentTime : UInt64) (durationMs : F) :
    List (TimeBucket F) → List (TimeBucket F) × List Event
  | [] => ([], [])
  | bucket :: rest => shiftFrom config currentTime 0 (bucket.feed currentTime durationMs) rest

/-- One call after the other. -/
def updateAll (config : Config F) (buckets : List (TimeBucket F)) :
    List (UInt64 × F) → List (TimeBucket F) × List Event
  | [] => (buckets, [])
  | (currentTime, durationMs) :: calls =>
      let first := updateBuckets config currentTime durationMs buckets
      let others := updateAll config first.1 calls
      (others.1, first.2 ++ others.2)

/-! ## Operations -/

/-- What the threads share. Besides the members of the class there are the last value of the
cycle counter, the number of calls of `update_buckets`, and all their events. -/
structure Accounting (F : Type) where
  currentLatency : F
  operationCount : UInt64
  opStart : UInt64
  locked : Bool
  buckets : List (TimeBucket F)
  cycles : UInt64
  updateCalls : ℕ
  events : List Event

/-- The points of `end_operation`. A thread at `load` knows what its own `fetch_add` left,
which the code has no use for. -/
inductive Pc (F : Type) where
  | idle
  | readStart (endTime : UInt64)
  | storeLatency (endTime : UInt64) (durationMs : F)
  | fetchAdd (endTime : UInt64) (durationMs : F)
  | load (endTime : UInt64) (durationMs : F) (mine : UInt64)
  | lock (endTime : UInt64) (durationMs : F)
  | update (endTime : UInt64) (durationMs : F)
  | unlock
  deriving DecidableEq

/-- What an idle thread does next, with the value that it reads from the cycle counter. -/
inductive Call where
  | startOperation (reading : UInt64)
  | endOperation (reading : UInt64)
  deriving DecidableEq

def Call.reading : Call → UInt64
  | .startOperation reading | .endOperation reading => reading

/-- One step of a thread. The cycle counter does not go back, so a lower reading is none. -/
def accountingStep (config : Config F) (s : Accounting F) (pc : Pc F) (call : Call) :
    Accounting F × Pc F :=
  match pc with
  | .idle =>
      if s.cycles ≤ call.reading then
        match call with
        | .startOperation reading => ({ s with cycles := reading, opStart := reading }, .idle)
        | .endOperation reading => ({ s with cycles := reading }, .readStart reading)
      else (s, .idle)
  | .readStart endTime => (s, .storeLatency endTime (config.cyclesToNs (endTime - s.opStart)))
  | .storeLatency endTime durationMs =>
      ({ s with currentLatency := durationMs }, .fetchAdd endTime durationMs)
  | .fetchAdd endTime durationMs =>
      ({ s with operationCount := s.operationCount + 1 },
        .load endTime durationMs (s.operationCount + 1))
  | .load endTime durationMs _ =>
      if s.operationCount % 100 = 0 then
        ({ s with updateCalls := s.updateCalls + 1 }, .lock endTime durationMs)
      else (s, .idle)
  | .lock endTime durationMs =>
      if s.locked then (s, .lock endTime durationMs)
      else ({ s with locked := true }, .update endTime durationMs)
  | .update endTime durationMs =>
      let updated := updateBuckets config endTime durationMs s.buckets
      ({ s with buckets := updated.1, events := s.events ++ updated.2 }, .unlock)
  | .unlock => ({ s with locked := false }, .idle)

/-- A new object: nobody has called it yet, and the cycle counter is anywhere. -/
def constructed (config : Config F) (startTime : UInt64) : Sys (Accounting F) (Pc F) where
  shared := ⟨0, 0, 0, false, initializeBuckets config, startTime, 0, []⟩
  thread := fun _ => .idle

/-- The state that a schedule of calls leads to. -/
def accounted (config : Config F) (startTime : UInt64) (sched : List (ℕ × Call)) :
    Sys (Accounting F) (Pc F) :=
  run (accountingStep config) (constructed config startTime) sched

end SystemsExperiments.TscTime
