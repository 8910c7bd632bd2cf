import SystemsExperiments.Model.TscTime.Accounting

/-! # Metrics of the accounting -/

namespace SystemsExperiments.TscTime

variable {F : Type} [Zero F] [Add F] [Div F] [NatCast F]

/-- `sum_latency` and `total_count` after the loop of `calculateAverageLatency`. -/
def totals (window : List (TimeBucket F)) : F × UInt64 :=
  window.foldl (fun total bucket => (total.1 + bucket.sumLatencyMs, total.2 + bucket.count)) (0, 0)

def calculateAverageLatency (buckets : List (TimeBucket F)) (startIdx endIdx : ℕ) : F :=
  let window := (buckets.take (min endIdx buckets.length)).drop startIdx
  let total := totals window
  if 0 < total.2 then total.1 / (total.2.toNat : F) else 0

structure Metrics (F : Type) where
  currentLatencyMs : F
  avgLatencyMsShortTerm : F
  avgLatencyMsLongTerm : F

/-- Under the mutex, as the updates of the buckets are. -/
def getMetrics (s : Accounting F) : Metrics F where
  currentLatencyMs := s.currentLatency
  avgLatencyMsShortTerm := calculateAverageLatency s.buckets 0 4
  avgLatencyMsLongTerm := calculateAverageLatency s.buckets 0 s.buckets.length

end SystemsExperiments.TscTime
