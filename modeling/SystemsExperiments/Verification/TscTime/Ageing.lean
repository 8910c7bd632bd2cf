import SystemsExperiments.Verification.TscTime.Sampling

/-! # The age of a bucket

While the calls come in the order of their times, the first bucket is the one fed last, and no
bucket is younger than it. -/

namespace SystemsExperiments.TscTime

open Interleaving

variable {F : Type}

/-! ## The order of the calls -/

/-- A thread feeds the buckets no earlier than the one before it. -/
def Pc.InOrder (buckets : List (TimeBucket F)) : Pc F → Prop
  | .update endTime _ =>
      ∀ last, buckets.head?.map TimeBucket.lastUpdateTime = some last → last ≤ endTime
  | _ => True

def InOrder (s : Sys (Accounting F) (Pc F)) (t : ℕ) (_ : Call) : Prop :=
  (s.thread t).InOrder s.shared.buckets

theorem Pc.inOrder_update_nil (endTime : UInt64) (durationMs : F) :
    (Pc.update endTime durationMs).InOrder [] := by
  simp [Pc.InOrder]

theorem Pc.inOrder_update_cons (endTime : UInt64) (durationMs : F) (bucket : TimeBucket F)
    (rest : List (TimeBucket F)) : bucket.lastUpdateTime ≤ endTime ↔
      (Pc.update endTime durationMs).InOrder (bucket :: rest) := by
  simp [Pc.InOrder]

instance (buckets : List (TimeBucket F)) (pc : Pc F) : Decidable (pc.InOrder buckets) :=
  match pc, buckets with
  | .update endTime durationMs, [] => isTrue (Pc.inOrder_update_nil endTime durationMs)
  | .update endTime durationMs, bucket :: rest =>
      decidable_of_iff _ (Pc.inOrder_update_cons endTime durationMs bucket rest)
  | .idle, _ | .readStart _, _ | .storeLatency _ _, _ | .fetchAdd _ _, _ | .load _ _ _, _
  | .lock _ _, _ | .unlock, _ => isTrue trivial

instance (s : Sys (Accounting F) (Pc F)) (t : ℕ) (call : Call) : Decidable (InOrder s t call) :=
  inferInstanceAs (Decidable ((s.thread t).InOrder s.shared.buckets))

/-! ## One call -/

/-- No subtraction is of a later time from an earlier one. -/
def NoWrap (events : List Event) : Prop :=
  ∀ currentTime lastUpdateTime, .elapsed currentTime lastUpdateTime ∈ events →
    lastUpdateTime ≤ currentTime

def FedBy (now : UInt64) (buckets : List (TimeBucket F)) : Prop :=
  ∀ bucket ∈ buckets, bucket.lastUpdateTime ≤ now

theorem noWrap_nil : NoWrap [] := by simp [NoWrap]

theorem noWrap_append {front back : List Event} :
    NoWrap (front ++ back) ↔ NoWrap front ∧ NoWrap back := by
  simp only [NoWrap, List.mem_append, or_imp, forall_and]

theorem noWrap_elapsed_cons {currentTime lastUpdateTime : UInt64} {events : List Event} :
    NoWrap (.elapsed currentTime lastUpdateTime :: events) ↔
      lastUpdateTime ≤ currentTime ∧ NoWrap events := by
  simp [NoWrap, or_imp, forall_and]

theorem noWrap_shift_cons {i : ℕ} {count : UInt64} {events : List Event} :
    NoWrap (.shift i count :: events) ↔ NoWrap events := by
  simp [NoWrap]

theorem fedBy_cons {now : UInt64} {bucket : TimeBucket F} {rest : List (TimeBucket F)} :
    FedBy now (bucket :: rest) ↔ bucket.lastUpdateTime ≤ now ∧ FedBy now rest :=
  List.forall_mem_cons

/-- The first bucket is none of those fed before another. -/
def YoungestFirst (buckets : List (TimeBucket F)) : Prop :=
  ∀ last, buckets.head?.map TimeBucket.lastUpdateTime = some last → FedBy last buckets

variable {now : UInt64}

theorem YoungestFirst.fedBy {buckets : List (TimeBucket F)} (h : YoungestFirst buckets)
    (hnow : ∀ last, buckets.head?.map TimeBucket.lastUpdateTime = some last → last ≤ now) :
    FedBy now buckets := by
  cases buckets with
  | nil => exact List.forall_mem_nil _
  | cons bucket rest =>
      intro b hb
      exact UInt64.le_trans (h bucket.lastUpdateTime rfl b hb) (hnow bucket.lastUpdateTime rfl)

variable [Zero F]

theorem youngestFirst_initializeBuckets (config : Config F) :
    YoungestFirst (initializeBuckets config) := by
  intro last _
  rw [FedBy, initializeBuckets, List.forall_mem_map]
  intro i _
  exact UInt64.zero_le

variable [Add F] [Div F] [NatCast F] [LT F] [DecidableLT F] {config : Config F}

theorem noWrap_shiftFrom (i : ℕ) {bucket : TimeBucket F} {rest : List (TimeBucket F)}
    (h : FedBy now (bucket :: rest)) : NoWrap (shiftFrom config now i bucket rest).2 := by
  induction rest generalizing i bucket with
  | nil =>
      rw [shiftFrom]
      split
      · exact noWrap_elapsed_cons.mpr ⟨(fedBy_cons.mp h).1, noWrap_nil⟩
      · exact noWrap_nil
  | cons next rest ih =>
      have hnext := fedBy_cons.mp (fedBy_cons.mp h).2
      rw [shiftFrom]
      split
      · refine noWrap_elapsed_cons.mpr ⟨hnext.1, noWrap_shift_cons.mpr ?_⟩
        exact ih (i + 1) (fedBy_cons.mpr ⟨UInt64.le_rfl, hnext.2⟩)
      · exact noWrap_elapsed_cons.mpr ⟨hnext.1, ih (i + 1) (fedBy_cons.mpr hnext)⟩

theorem fedBy_shiftFrom (i : ℕ) {bucket : TimeBucket F} {rest : List (TimeBucket F)}
    (h : FedBy now (bucket :: rest)) : FedBy now (shiftFrom config now i bucket rest).1 := by
  induction rest generalizing i bucket with
  | nil =>
      rw [shiftFrom]
      split
      · split
        · exact fedBy_cons.mpr ⟨(fedBy_cons.mp h).1, (fedBy_cons.mp h).2⟩
        · exact h
      · exact h
  | cons next rest ih =>
      have hbucket := fedBy_cons.mp h
      have hnext := fedBy_cons.mp hbucket.2
      rw [shiftFrom]
      split
      · refine fedBy_cons.mpr ⟨hbucket.1, ?_⟩
        exact ih (i + 1) (fedBy_cons.mpr ⟨UInt64.le_rfl, hnext.2⟩)
      · exact fedBy_cons.mpr ⟨hbucket.1, ih (i + 1) hbucket.2⟩

theorem head_shiftFrom (i : ℕ) (bucket : TimeBucket F) (rest : List (TimeBucket F)) :
    (shiftFrom config now i bucket rest).1.head?.map TimeBucket.lastUpdateTime =
      some bucket.lastUpdateTime := by
  cases rest with
  | nil =>
      rw [shiftFrom]
      split
      · split
        · rfl
        · rfl
      · rfl
  | cons next rest =>
      rw [shiftFrom]
      split
      · rfl
      · rfl

theorem updateBuckets_aged (config : Config F) (durationMs : F) {buckets : List (TimeBucket F)}
    (h : FedBy now buckets) : NoWrap (updateBuckets config now durationMs buckets).2 ∧
      YoungestFirst (updateBuckets config now durationMs buckets).1 := by
  cases buckets with
  | nil => exact ⟨noWrap_nil, by simp [YoungestFirst, updateBuckets]⟩
  | cons bucket rest =>
      have hfed : FedBy now (bucket.feed now durationMs :: rest) :=
        fedBy_cons.mpr ⟨UInt64.le_rfl, (fedBy_cons.mp h).2⟩
      refine ⟨noWrap_shiftFrom 0 hfed, ?_⟩
      intro last hlast
      rw [updateBuckets, head_shiftFrom] at hlast
      cases hlast
      exact fedBy_shiftFrom 0 hfed

/-! ## All calls -/

structure Aged (s : Accounting F) : Prop where
  noWrap : NoWrap s.events
  youngestFirst : YoungestFirst s.buckets

theorem accountingStep_aged {s : Accounting F} {pc : Pc F} (h : Aged s)
    (horder : pc.InOrder s.buckets) (call : Call) :
    Aged (accountingStep config s pc call).1 := by
  cases pc with
  | idle =>
      simp only [accountingStep]
      split
      · cases call with
        | startOperation reading => exact ⟨h.noWrap, h.youngestFirst⟩
        | endOperation reading => exact ⟨h.noWrap, h.youngestFirst⟩
      · exact h
  | readStart endTime => exact h
  | storeLatency endTime durationMs => exact ⟨h.noWrap, h.youngestFirst⟩
  | fetchAdd endTime durationMs => exact ⟨h.noWrap, h.youngestFirst⟩
  | load endTime durationMs mine =>
      simp only [accountingStep]
      split
      · exact ⟨h.noWrap, h.youngestFirst⟩
      · exact h
  | lock endTime durationMs =>
      simp only [accountingStep]
      split
      · exact h
      · exact ⟨h.noWrap, h.youngestFirst⟩
  | update endTime durationMs =>
      have haged := updateBuckets_aged config durationMs (h.youngestFirst.fedBy horder)
      exact ⟨noWrap_append.mpr ⟨h.noWrap, haged.1⟩, haged.2⟩
  | unlock => exact ⟨h.noWrap, h.youngestFirst⟩

/-- Calls that get the mutex in the order of their end times take no later time from an
earlier one. -/
theorem elapsed_le (config : Config F) (startTime : UInt64) (sched : List (ℕ × Call))
    (hsteps : AllSteps (accountingStep config) InOrder (constructed config startTime) sched)
    (currentTime lastUpdateTime : UInt64)
    (hmem : .elapsed currentTime lastUpdateTime ∈
      (accounted config startTime sched).shared.events) :
    lastUpdateTime ≤ currentTime := by
  have haged : Aged (accounted config startTime sched).shared := by
    refine run_invariant_of (accountingStep config) (P := fun s => Aged s.shared) ?_ ?_ hsteps
    · intro s t call h horder
      exact accountingStep_aged h horder call
    · exact ⟨noWrap_nil, youngestFirst_initializeBuckets config⟩
  exact haged.noWrap currentTime lastUpdateTime hmem

/-- A hundred operations of one thread. -/
theorem elapsed_le_hundred : (0 : UInt64) ≤ 1 :=
  elapsed_le twoBuckets 0 (List.replicate 503 (0, .endOperation 1)) (by decide +kernel) 1 0
    (by decide +kernel)

/-- A thread that is overtaken subtracts the time of the other from its own. -/
theorem elapsed_wraps :
    .elapsed 10 20 ∈ (accounted twoBuckets 0 overtaking).shared.events ∧
      ¬ (20 : UInt64) ≤ 10 := by
  rw [accounted_overtaking]
  decide +kernel

end SystemsExperiments.TscTime
