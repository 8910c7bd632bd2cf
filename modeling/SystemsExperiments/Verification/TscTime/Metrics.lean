import SystemsExperiments.Model.TscTime.Metrics
import SystemsExperiments.Verification.TscTime.Ageing
import Mathlib.Algebra.Order.Field.Basic
import Mathlib.Tactic.Linarith

/-! # Averages stay between the latencies

A bucket that takes the average of another one takes a latency between the bounds of what that
one had taken, as long as there was something in it. -/

namespace SystemsExperiments.TscTime

open Interleaving

variable {F : Type} [Field F] [LinearOrder F] {lo hi : F}

/-! ## One bucket -/

/-- What is in the bucket could be as many latencies between two bounds. -/
def Between (lo hi : F) (bucket : TimeBucket F) : Prop :=
  lo * (bucket.count.toNat : F) ≤ bucket.sumLatencyMs ∧
    bucket.sumLatencyMs ≤ hi * (bucket.count.toNat : F)

theorem between_of_empty {bucket : TimeBucket F} (hcount : bucket.count = 0)
    (hsum : bucket.sumLatencyMs = 0) : Between lo hi bucket := by
  rw [Between, hcount, hsum]
  simp

variable [IsStrictOrderedRing F]

theorem Between.feed {bucket : TimeBucket F} (h : Between lo hi bucket) {calls : ℕ}
    (hcount : bucket.count.toNat ≤ calls) (hcalls : calls + 1 < 2 ^ 64) {latency : F}
    (hlatency : lo ≤ latency ∧ latency ≤ hi) (now : UInt64) :
    Between lo hi (bucket.feed now latency) := by
  have hsucc : ((bucket.feed now latency).count.toNat : F) = (bucket.count.toNat : F) + 1 := by
    rw [TimeBucket.feed, toNat_count_succ hcount hcalls]
    push_cast
    rfl
  rw [Between, hsucc, mul_add, mul_add, mul_one, mul_one]
  exact ⟨add_le_add h.1 hlatency.1, add_le_add h.2 hlatency.2⟩

theorem quotient_between {sum : F} {count : UInt64} (hcount : 0 < count)
    (h : lo * (count.toNat : F) ≤ sum ∧ sum ≤ hi * (count.toNat : F)) :
    lo ≤ sum / (count.toNat : F) ∧ sum / (count.toNat : F) ≤ hi := by
  have hpos : (0 : F) < (count.toNat : F) := Nat.cast_pos.mpr (UInt64.lt_iff_toNat_lt.mp hcount)
  exact ⟨(le_div_iff₀ hpos).mpr h.1, (div_le_iff₀ hpos).mpr h.2⟩

theorem Between.avgLatency {bucket : TimeBucket F} (h : Between lo hi bucket)
    (hcount : 0 < bucket.count) : lo ≤ bucket.avgLatency ∧ bucket.avgLatency ≤ hi := by
  rw [TimeBucket.avgLatency, if_pos hcount]
  exact quotient_between hcount h

/-! ## The row -/

variable {config : Config F} {now : UInt64} {calls : ℕ}

omit [IsStrictOrderedRing F] in
theorem length_shiftFrom (i : ℕ) (bucket : TimeBucket F) (rest : List (TimeBucket F)) :
    (shiftFrom config now i bucket rest).1.length = rest.length + 1 := by
  induction rest generalizing i bucket with
  | nil =>
      rw [shiftFrom]
      split
      · rfl
      · rfl
  | cons next rest ih =>
      rw [shiftFrom]
      split
      · exact congrArg (· + 1) (ih (i + 1) _)
      · exact congrArg (· + 1) (ih (i + 1) _)

/-- If only buckets with something in them are shifted, all that is passed on is between the
bounds. -/
theorem between_shiftFrom (hcalls : calls + 1 < 2 ^ 64) (i : ℕ) {bucket : TimeBucket F}
    {rest : List (TimeBucket F)}
    (hpositive : ∀ j count, .shift j count ∈ (shiftFrom config now i bucket rest).2 → 0 < count)
    (hcounts : ∀ b ∈ rest, b.count.toNat ≤ calls) (hbucket : Between lo hi bucket)
    (hrest : ∀ b ∈ rest, Between lo hi b) :
    ∀ b ∈ (shiftFrom config now i bucket rest).1, Between lo hi b := by
  induction rest generalizing i bucket with
  | nil =>
      rw [shiftFrom]
      split
      · split
        · exact List.forall_mem_singleton.mpr (between_of_empty rfl rfl)
        · exact List.forall_mem_singleton.mpr hbucket
      · exact List.forall_mem_singleton.mpr hbucket
  | cons next rest ih =>
      rw [List.forall_mem_cons] at hcounts hrest
      rw [shiftFrom] at hpositive ⊢
      by_cases hspan : bucket.timeSpan < config.cyclesToNs (now - next.lastUpdateTime)
      · rw [if_pos hspan] at hpositive ⊢
        have hcount := hpositive i bucket.count (by simp)
        have hnext := hrest.1.feed hcounts.1 hcalls (hbucket.avgLatency hcount) now
        refine List.forall_mem_cons.mpr ⟨between_of_empty rfl rfl, ?_⟩
        refine ih (i + 1) (fun j count hmem => hpositive j count ?_) hcounts.2 hnext hrest.2
        exact List.mem_cons_of_mem _ (List.mem_cons_of_mem _ hmem)
      · rw [if_neg hspan] at hpositive ⊢
        refine List.forall_mem_cons.mpr ⟨hbucket, ?_⟩
        refine ih (i + 1) (fun j count hmem => hpositive j count ?_) hcounts.2 hrest.1 hrest.2
        exact List.mem_cons_of_mem _ hmem

/-- The row after some calls. -/
structure Row (config : Config F) (lo hi : F) (calls : ℕ) (buckets : List (TimeBucket F)) :
    Prop where
  length_eq : buckets.length = config.numBuckets
  fed : ∀ last, buckets.head?.map TimeBucket.lastUpdateTime = some last → Fed last calls buckets
  between : ∀ b ∈ buckets, Between lo hi b

omit [IsStrictOrderedRing F] in
theorem row_initializeBuckets
    (hspans : ∀ i, i + 1 < config.numBuckets → config.timeSpan i ≤ config.timeSpan (i + 1)) :
    Row config lo hi 0 (initializeBuckets config) := by
  refine ⟨?_, fun last _ => fed_initializeBuckets hspans last, ?_⟩
  · rw [initializeBuckets, List.length_map, List.length_range]
  · rw [initializeBuckets, List.forall_mem_map]
    intro i _
    exact between_of_empty rfl rfl

omit [IsStrictOrderedRing F] in
theorem Row.succ {buckets : List (TimeBucket F)} (h : Row config lo hi calls buckets) :
    Row config lo hi (calls + 1) buckets := by
  refine ⟨h.length_eq, fun last hlast => ?_, h.between⟩
  have hfed := h.fed last hlast
  exact ⟨hfed.fedBefore, hfed.coarser, hfed.last_le,
    fun b hb => (hfed.count_le b hb).trans (Nat.le_succ calls)⟩

theorem Row.update {buckets : List (TimeBucket F)} (h : Row config lo hi calls buckets)
    (hmono : ∀ a b : UInt64, a ≤ b → config.cyclesToNs a ≤ config.cyclesToNs b)
    (hcalls : calls + 1 < 2 ^ 64) {latency : F} (hlatency : lo ≤ latency ∧ latency ≤ hi)
    (horder : ∀ last, buckets.head?.map TimeBucket.lastUpdateTime = some last → last ≤ now) :
    Row config lo hi (calls + 1) (updateBuckets config now latency buckets).1 := by
  cases buckets with
  | nil => exact ⟨h.length_eq, nofun, List.forall_mem_nil _⟩
  | cons bucket rest =>
      have hfed := h.fed bucket.lastUpdateTime rfl
      have hcounts := List.forall_mem_cons.mp hfed.count_le
      have hspec := updateBuckets_spec hmono hcalls (horder bucket.lastUpdateTime rfl) latency hfed
      have hbetween := List.forall_mem_cons.mp h.between
      refine ⟨?_, fun last hlast => ?_, ?_⟩
      · rw [updateBuckets, length_shiftFrom]
        exact h.length_eq
      · rw [updateBuckets, head_shiftFrom] at hlast
        cases hlast
        exact hspec.2
      · exact between_shiftFrom hcalls 0 hspec.1 hcounts.2
          (hbetween.1.feed hcounts.1 hcalls hlatency now) hbetween.2

/-! ## The metrics -/

theorem totals_between {window : List (TimeBucket F)} (hbetween : ∀ b ∈ window, Between lo hi b)
    (hcounts : ∀ b ∈ window, b.count.toNat ≤ calls) (hlen : window.length * calls < 2 ^ 64) :
    lo * ((totals window).2.toNat : F) ≤ (totals window).1 ∧
      (totals window).1 ≤ hi * ((totals window).2.toNat : F) := by
  -- the accumulator counts for so many latencies, too
  suffices h : ∀ (sum : F) (count : UInt64), count.toNat + window.length * calls < 2 ^ 64 →
      lo * (count.toNat : F) ≤ sum ∧ sum ≤ hi * (count.toNat : F) →
      lo * ((window.foldl (fun total bucket =>
          (total.1 + bucket.sumLatencyMs, total.2 + bucket.count)) (sum, count)).2.toNat : F) ≤
        (window.foldl (fun total bucket =>
          (total.1 + bucket.sumLatencyMs, total.2 + bucket.count)) (sum, count)).1 ∧
      (window.foldl (fun total bucket =>
          (total.1 + bucket.sumLatencyMs, total.2 + bucket.count)) (sum, count)).1 ≤
        hi * ((window.foldl (fun total bucket =>
          (total.1 + bucket.sumLatencyMs, total.2 + bucket.count)) (sum, count)).2.toNat : F) by
    exact h 0 0 (by simpa using hlen) (by simp)
  clear hlen
  induction window with
  | nil => exact fun sum count _ h => h
  | cons bucket window ih =>
      intro sum count hlen hacc
      rw [List.forall_mem_cons] at hbetween hcounts
      rw [List.length_cons, Nat.succ_mul] at hlen
      have hsum : (count + bucket.count).toNat = count.toNat + bucket.count.toNat := by
        rw [UInt64.toNat_add]
        exact Nat.mod_eq_of_lt (by omega)
      refine ih hbetween.2 hcounts.2 (sum + bucket.sumLatencyMs) (count + bucket.count)
        (by omega) ?_
      rw [hsum, Nat.cast_add, mul_add, mul_add]
      exact ⟨add_le_add hacc.1 hbetween.1.1, add_le_add hacc.2 hbetween.1.2⟩

theorem Row.average_between {buckets : List (TimeBucket F)} (h : Row config lo hi calls buckets)
    (hcalls : config.numBuckets * calls < 2 ^ 64) (startIdx endIdx : ℕ) :
    calculateAverageLatency buckets startIdx endIdx = 0 ∨
      lo ≤ calculateAverageLatency buckets startIdx endIdx ∧
        calculateAverageLatency buckets startIdx endIdx ≤ hi := by
  have hmem : ∀ b ∈ (buckets.take (min endIdx buckets.length)).drop startIdx, b ∈ buckets :=
    fun b hb => List.mem_of_mem_take (List.mem_of_mem_drop hb)
  have hcounts : ∀ b ∈ buckets, b.count.toNat ≤ calls := by
    cases buckets with
    | nil => exact List.forall_mem_nil _
    | cons bucket rest => exact (h.fed bucket.lastUpdateTime rfl).count_le
  have hlen : ((buckets.take (min endIdx buckets.length)).drop startIdx).length ≤
      config.numBuckets := by
    rw [List.length_drop, List.length_take, ← h.length_eq]
    omega
  have htotals := totals_between (fun b hb => h.between b (hmem b hb))
    (fun b hb => hcounts b (hmem b hb))
    (lt_of_le_of_lt (Nat.mul_le_mul_right calls hlen) hcalls)
  simp only [calculateAverageLatency]
  split
  · exact .inr (quotient_between ‹_› htotals)
  · exact .inl rfl

/-! ## All calls -/

/-- A latency that a thread is about to feed into the buckets is between the bounds. -/
def Pc.FeedsBetween (lo hi : F) : Pc F → Prop
  | .update _ durationMs => lo ≤ durationMs ∧ durationMs ≤ hi
  | _ => True

instance (lo hi : F) (pc : Pc F) : Decidable (pc.FeedsBetween lo hi) :=
  match pc with
  | .update _ durationMs => inferInstanceAs (Decidable (lo ≤ durationMs ∧ durationMs ≤ hi))
  | .idle | .readStart _ | .storeLatency _ _ | .fetchAdd _ _ | .load _ _ _ | .lock _ _
  | .unlock => isTrue trivial

/-- The thread feeds the buckets in order, and with latencies between the bounds. -/
def Orderly (lo hi : F) (s : Sys (Accounting F) (Pc F)) (t : ℕ) (call : Call) : Prop :=
  InOrder s t call ∧ (s.thread t).FeedsBetween lo hi

instance (lo hi : F) (s : Sys (Accounting F) (Pc F)) (t : ℕ) (call : Call) :
    Decidable (Orderly lo hi s t call) :=
  inferInstanceAs (Decidable (_ ∧ _))

theorem Row.step {s : Accounting F} {pc : Pc F} (h : Row config lo hi calls s.buckets)
    (hmono : ∀ a b : UInt64, a ≤ b → config.cyclesToNs a ≤ config.cyclesToNs b)
    (hcalls : calls + 1 < 2 ^ 64) (horder : pc.InOrder s.buckets)
    (hlatency : pc.FeedsBetween lo hi) (call : Call) :
    Row config lo hi (calls + 1) (accountingStep config s pc call).1.buckets := by
  cases pc with
  | idle =>
      simp only [accountingStep]
      split
      · cases call with
        | startOperation reading => exact h.succ
        | endOperation reading => exact h.succ
      · exact h.succ
  | readStart endTime => exact h.succ
  | storeLatency endTime durationMs => exact h.succ
  | fetchAdd endTime durationMs => exact h.succ
  | load endTime durationMs mine =>
      simp only [accountingStep]
      split
      · exact h.succ
      · exact h.succ
  | lock endTime durationMs =>
      simp only [accountingStep]
      split
      · exact h.succ
      · exact h.succ
  | update endTime durationMs => exact h.update hmono hcalls hlatency horder
  | unlock => exact h.succ

/-- The averages that the metrics report at any time are zero or between the latencies that
have been fed into the buckets, if these were fed in the order of their times. -/
theorem metrics_between (config : Config F)
    (hspans : ∀ i, i + 1 < config.numBuckets → config.timeSpan i ≤ config.timeSpan (i + 1))
    (hmono : ∀ a b : UInt64, a ≤ b → config.cyclesToNs a ≤ config.cyclesToNs b)
    (startTime : UInt64) (sched : List (ℕ × Call))
    (hlen : config.numBuckets * sched.length < 2 ^ 64)
    (hsteps : AllSteps (accountingStep config) (Orderly lo hi) (constructed config startTime)
      sched) {avg : F}
    (havg : avg ∈ [(getMetrics (accounted config startTime sched).shared).avgLatencyMsShortTerm,
      (getMetrics (accounted config startTime sched).shared).avgLatencyMsLongTerm]) :
    avg = 0 ∨ lo ≤ avg ∧ avg ≤ hi := by
  have hpos := config.numBuckets_pos
  have hrow := run_invariant_counted (accountingStep config)
    (P := fun calls s => calls < 2 ^ 64 → Row config lo hi calls s.shared.buckets) (k := 0)
    (fun calls s t call h horderly hcalls =>
      (h (by omega)).step hmono hcalls horderly.1 horderly.2 call)
    (fun _ => row_initializeBuckets hspans) hsteps
  rw [Nat.zero_add] at hrow
  have hsched : sched.length < 2 ^ 64 :=
    lt_of_le_of_lt (Nat.le_mul_of_pos_left _ hpos) hlen
  have hwindow := (hrow hsched).average_between hlen
  rw [List.mem_pair] at havg
  cases havg with
  | inl hshort =>
      rw [hshort]
      exact hwindow 0 4
  | inr hlong =>
      rw [hlong]
      exact hwindow 0 _

/-- Three buckets that shift with every cycle. -/
def threeBuckets : Config ℚ where
  numBuckets := 3
  numBuckets_pos := by decide
  timeSpan := fun _ => 0
  maxHistory := 0
  cyclesToNs := fun cycles => cycles.toNat

theorem threeBuckets_mono (a b : UInt64) (h : a ≤ b) :
    threeBuckets.cyclesToNs a ≤ threeBuckets.cyclesToNs b :=
  Nat.cast_le.mpr (UInt64.le_iff_toNat_le.mp h)

/-- A hundred operations of three cycles. -/
theorem metrics_between_hundred : (3 : ℚ) = 0 ∨ (2 : ℚ) ≤ 3 ∧ (3 : ℚ) ≤ 4 :=
  metrics_between threeBuckets (fun _ _ => le_rfl) threeBuckets_mono 0
    (List.replicate 503 (0, .endOperation 3)) (by decide +kernel) (by decide +kernel)
    (by decide +kernel)

end SystemsExperiments.TscTime
