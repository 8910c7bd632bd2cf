import SystemsExperiments.Verification.TscTime.Buckets

/-! # One sample for a hundred operations

An operation whose own increment makes a hundred owes a call of `update_buckets` until it reads
the counter back. It makes the call then if it reads what it left there, or at least another
multiple of a hundred. -/

namespace SystemsExperiments.TscTime

open Interleaving

variable {F : Type} [Zero F] [Add F] [Div F] [NatCast F] [LT F] [DecidableLT F]

/-! ## What the counter counts -/

theorem mod_hundred_eq_zero (count : UInt64) : count % 100 = 0 ↔ count.toNat % 100 = 0 := by
  rw [← UInt64.toNat_inj, UInt64.toNat_mod]
  rfl

theorem div_hundred_succ {count : UInt64} (h : count.toNat + 1 < 2 ^ 64) :
    (count + 1).toNat / 100 = count.toNat / 100 + if (count + 1) % 100 = 0 then 1 else 0 := by
  have hsucc : (count + 1).toNat = count.toNat + 1 := toNat_count_succ le_rfl h
  simp only [mod_hundred_eq_zero, hsucc, Nat.succ_div, Nat.dvd_iff_mod_eq_zero]

/-! ## The balance -/

/-- The calls that a thread is about to make. -/
def Pc.owed : Pc F → ℕ
  | .load _ _ mine => if mine % 100 = 0 then 1 else 0
  | _ => 0

/-- The counter does not start again from zero, and a thread that reads it back reads a
multiple of a hundred exactly if its own increment made one. -/
def Pc.ReadsBack (count : UInt64) : Pc F → Prop
  | .fetchAdd _ _ => count.toNat + 1 < 2 ^ 64
  | .load _ _ mine => count % 100 = 0 ↔ mine % 100 = 0
  | _ => True

instance (count : UInt64) (pc : Pc F) : Decidable (pc.ReadsBack count) :=
  match pc with
  | .fetchAdd _ _ => inferInstanceAs (Decidable (_ < _))
  | .load _ _ _ => inferInstanceAs (Decidable (_ ↔ _))
  | .idle | .readStart _ | .storeLatency _ _ | .lock _ _ | .update _ _ | .unlock => isTrue trivial

def ReadsBack (s : Sys (Accounting F) (Pc F)) (t : ℕ) (_ : Call) : Prop :=
  (s.thread t).ReadsBack s.shared.operationCount

instance (s : Sys (Accounting F) (Pc F)) (t : ℕ) (call : Call) : Decidable (ReadsBack s t call) :=
  inferInstanceAs (Decidable ((s.thread t).ReadsBack s.shared.operationCount))

variable {config : Config F}

theorem accountingStep_balance {s : Accounting F} {pc : Pc F}
    (h : pc.ReadsBack s.operationCount) (call : Call) :
    (accountingStep config s pc call).1.updateCalls + (accountingStep config s pc call).2.owed +
        s.operationCount.toNat / 100 =
      s.updateCalls + pc.owed + (accountingStep config s pc call).1.operationCount.toNat / 100 := by
  cases pc with
  | idle =>
      simp only [accountingStep]
      split
      · cases call with
        | startOperation reading => rfl
        | endOperation reading => rfl
      · rfl
  | readStart endTime => rfl
  | storeLatency endTime durationMs => rfl
  | fetchAdd endTime durationMs =>
      simp only [accountingStep, Pc.owed, div_hundred_succ h]
      omega
  | load endTime durationMs mine =>
      simp only [accountingStep, Pc.owed, ← show _ ↔ _ from h]
      split
      · rfl
      · rfl
  | lock endTime durationMs =>
      rw [accountingStep]
      split
      · rfl
      · rfl
  | update endTime durationMs => rfl
  | unlock => rfl

theorem step_balance (s : Sys (Accounting F) (Pc F)) (t : ℕ) (call : Call)
    (h : ReadsBack s t call) :
    (step (accountingStep config) s t call).shared.updateCalls +
        ((step (accountingStep config) s t call).thread t).owed +
        s.shared.operationCount.toNat / 100 =
      s.shared.updateCalls + (s.thread t).owed +
        (step (accountingStep config) s t call).shared.operationCount.toNat / 100 := by
  rw [step_shared, step_thread_self]
  exact accountingStep_balance h call

/-- When nobody is in an operation, one in a hundred of them has been sampled. -/
theorem updateCalls_eq (config : Config F) (startTime : UInt64) (sched : List (ℕ × Call))
    (hsteps : AllSteps (accountingStep config) ReadsBack (constructed config startTime) sched)
    (hidle : ∀ t, (accounted config startTime sched).thread t = .idle) :
    (accounted config startTime sched).shared.updateCalls =
      (accounted config startTime sched).shared.operationCount.toNat / 100 := by
  obtain ⟨n, hn⟩ := exists_thread_bound sched
  have hbalance := run_balance (accountingStep config) Accounting.updateCalls
    (fun s => s.operationCount.toNat / 100) Pc.owed step_balance hsteps hn
  have howed : ∑ t ∈ Finset.range n, ((accounted config startTime sched).thread t).owed = 0 := by
    refine Finset.sum_eq_zero ?_
    intro t _
    rw [hidle t]
    rfl
  have hstart : ∑ t ∈ Finset.range n, ((constructed config startTime).thread t).owed = 0 :=
    Finset.sum_eq_zero fun _ _ => rfl
  rw [hstart] at hbalance
  rw [accounted] at howed ⊢
  rw [howed] at hbalance
  simpa [constructed] using hbalance

/-- Two threads that are idle in the end leave nobody in an operation. -/
theorem run_idle_of_two {s : Sys (Accounting F) (Pc F)} (hidle : ∀ t, s.thread t = .idle)
    {sched : List (ℕ × Call)} (hthreads : ∀ m ∈ sched, m.1 = 1 ∨ m.1 = 2)
    (hone : (run (accountingStep config) s sched).thread 1 = .idle)
    (htwo : (run (accountingStep config) s sched).thread 2 = .idle) (t : ℕ) :
    (run (accountingStep config) s sched).thread t = .idle := by
  by_cases ht : t = 1 ∨ t = 2
  · cases ht with
    | inl ht => rw [ht, hone]
    | inr ht => rw [ht, htwo]
  · rw [run_thread_of_forall_ne, hidle]
    intro m hm heq
    exact ht (heq ▸ hthreads m hm)

/-- Two operations at once, both far from a hundred. -/
def together : List (ℕ × Call) :=
  (1, .endOperation 0) :: (2, .endOperation 0) :: List.replicate 3 (1, .endOperation 0) ++
    List.replicate 3 (2, .endOperation 0) ++ [(1, .endOperation 0), (2, .endOperation 0)]

theorem accounted_together_idle (t : ℕ) : (accounted twoBuckets 0 together).thread t = .idle :=
  run_idle_of_two (fun _ => rfl) (by decide) (by decide +kernel) (by decide +kernel) t

theorem updateCalls_eq_together : (accounted twoBuckets 0 together).shared.updateCalls =
    (accounted twoBuckets 0 together).shared.operationCount.toNat / 100 :=
  updateCalls_eq twoBuckets 0 together (by decide +kernel) accounted_together_idle

/-! ## Apart -/

/-- No increment makes or leaves a multiple of a hundred while another thread has not read the
counter back yet. -/
def Apart (s : Sys (Accounting F) (Pc F)) (t : ℕ) (_ : Call) : Prop :=
  match s.thread t with
  | .fetchAdd _ _ => s.shared.operationCount.toNat + 1 < 2 ^ 64 ∧
      ∀ u, u ≠ t → ∀ endTime durationMs mine, s.thread u = .load endTime durationMs mine →
        s.shared.operationCount % 100 ≠ 0 ∧ (s.shared.operationCount + 1) % 100 ≠ 0
  | _ => True

/-- What a thread is about to read back says about its own increment what it should. -/
def Knows (s : Accounting F) (pc : Pc F) : Prop :=
  ∀ endTime durationMs mine, pc = .load endTime durationMs mine →
    (s.operationCount % 100 = 0 ↔ mine % 100 = 0)

theorem accountingStep_cases (config : Config F) (s : Accounting F) (pc : Pc F) (call : Call) :
    (∃ endTime durationMs, pc = .fetchAdd endTime durationMs ∧
      accountingStep config s pc call = ({ s with operationCount := s.operationCount + 1 },
        .load endTime durationMs (s.operationCount + 1))) ∨
    ((accountingStep config s pc call).1.operationCount = s.operationCount ∧
      ∀ endTime durationMs mine,
        (accountingStep config s pc call).2 ≠ .load endTime durationMs mine) := by
  cases pc with
  | idle =>
      right
      simp only [accountingStep]
      split
      · cases call with
        | startOperation reading => simp
        | endOperation reading => simp
      · simp
  | readStart endTime => exact .inr (by simp [accountingStep])
  | storeLatency endTime durationMs => exact .inr (by simp [accountingStep])
  | fetchAdd endTime durationMs => exact .inl ⟨endTime, durationMs, rfl, rfl⟩
  | load endTime durationMs mine =>
      right
      simp only [accountingStep]
      split
      · simp
      · simp
  | lock endTime durationMs =>
      right
      simp only [accountingStep]
      split
      · simp
      · simp
  | update endTime durationMs => exact .inr (by simp [accountingStep])
  | unlock => exact .inr (by simp [accountingStep])

theorem knows_step {s : Sys (Accounting F) (Pc F)} {t : ℕ} {call : Call}
    (h : ∀ u, Knows s.shared (s.thread u)) (hapart : Apart s t call) (u : ℕ) :
    Knows (step (accountingStep config) s t call).shared
      ((step (accountingStep config) s t call).thread u) := by
  cases accountingStep_cases config s.shared (s.thread t) call with
  | inl hfetch =>
      obtain ⟨endTime, durationMs, hpc, hstep⟩ := hfetch
      rw [Apart, hpc] at hapart
      refine step_forall (accountingStep config) ?_ ?_ u
      · rw [hstep]
        intro endTime' durationMs' mine heq
        cases heq
        rfl
      · intro v hv endTime' durationMs' mine heq
        have hne := hapart.2 v hv endTime' durationMs' mine heq
        have hmine := (h v endTime' durationMs' mine heq).not.mp hne.1
        rw [hstep]
        exact iff_of_false hne.2 hmine
  | inr hother =>
      refine step_forall (accountingStep config) ?_ ?_ u
      · intro endTime durationMs mine heq
        exact absurd heq (hother.2 endTime durationMs mine)
      · intro v _ endTime durationMs mine heq
        rw [hother.1]
        exact h v endTime durationMs mine heq

theorem readsBack_of_apart (startTime : UInt64) {sched : List (ℕ × Call)}
    (h : AllSteps (accountingStep config) Apart (constructed config startTime) sched) :
    AllSteps (accountingStep config) ReadsBack (constructed config startTime) sched := by
  refine AllSteps.of_invariant (P := fun s => ∀ u, Knows s.shared (s.thread u))
    (fun s t call => knows_step) ?_ ?_ h
  · intro s t call hknows hapart
    rw [Apart] at hapart
    rw [ReadsBack]
    cases hpc : s.thread t with
    | fetchAdd endTime durationMs =>
        rw [hpc] at hapart
        exact hapart.1
    | load endTime durationMs mine => exact hknows t endTime durationMs mine hpc
    | _ => trivial
  · intro u endTime durationMs mine heq
    cases heq

/-! ## Two threads at once -/

/-- An operation that no other thread comes between, and that no sample is taken of. -/
theorem run_operation (config : Config F) {s : Sys (Accounting F) (Pc F)} {t : ℕ}
    (hidle : s.thread t = .idle) (hcount : (s.shared.operationCount + 1) % 100 ≠ 0) :
    run (accountingStep config) s (List.replicate 5 (t, .endOperation s.shared.cycles)) =
      ⟨{ s.shared with
          currentLatency := config.cyclesToNs (s.shared.cycles - s.shared.opStart)
          operationCount := s.shared.operationCount + 1 }, s.thread⟩ := by
  have hself : Function.update s.thread t .idle = s.thread := by
    rw [← hidle, Function.update_eq_self]
  simp [List.replicate, step, accountingStep, Call.reading, hidle, hcount, hself]

theorem ofNat_succ_mod_hundred {k : ℕ} (hk : k + 1 < 100) : UInt64.ofNat (k + 1) % 100 ≠ 0 := by
  rw [Ne, mod_hundred_eq_zero, UInt64.toNat_ofNat', Nat.mod_eq_of_lt (hk.trans (by decide))]
  omega

/-- Up to ninety-nine operations that take no time. -/
theorem run_operations {config : Config F} {startTime : UInt64}
    (hzero : config.cyclesToNs startTime = 0) (t : ℕ) {k : ℕ} (hk : k < 100) :
    run (accountingStep config) (constructed config startTime)
        (List.replicate (5 * k) (t, .endOperation startTime)) =
      ⟨⟨0, UInt64.ofNat k, 0, false, initializeBuckets config, startTime, 0, []⟩,
        fun _ => .idle⟩ := by
  induction k with
  | zero => rfl
  | succ k ih =>
      have hone := run_operation config (t := t)
        (s := ⟨⟨0, UInt64.ofNat k, 0, false, initializeBuckets config, startTime, 0, []⟩,
          fun _ => .idle⟩) rfl (by simpa using ofNat_succ_mod_hundred hk)
      rw [Nat.mul_succ, ← List.replicate_append_replicate, run_append, ih (by omega), hone]
      simp [hzero]

/-- The second of two threads ends its operation between the increment and the test of the
first, and is done with it before. -/
def race : List (ℕ × Call) :=
  (1, .endOperation 10) :: (2, .endOperation 20) :: List.replicate 3 (1, .endOperation 10) ++
    List.replicate 3 (2, .endOperation 20) ++ (1, .endOperation 10) ::
    List.replicate 4 (2, .endOperation 20) ++ List.replicate 3 (1, .endOperation 10)

def overtaking : List (ℕ × Call) := List.replicate (5 * 98) (0, .endOperation 0) ++ race

theorem accounted_overtaking : accounted twoBuckets 0 overtaking =
    run (accountingStep twoBuckets)
      ⟨⟨0, 98, 0, false, initializeBuckets twoBuckets, 0, 0, []⟩, fun _ => .idle⟩ race := by
  rw [accounted, overtaking, run_append, run_operations rfl 0 (by decide)]
  rfl

theorem accounted_overtaking_idle (t : ℕ) :
    (accounted twoBuckets 0 overtaking).thread t = .idle := by
  rw [accounted_overtaking]
  exact run_idle_of_two (fun _ => rfl) (by decide) (by decide +kernel) (by decide +kernel) t

/-- Two samples are taken of a hundred operations. -/
theorem hundred_sampled_twice :
    (∀ t, (accounted twoBuckets 0 overtaking).thread t = .idle) ∧
      (accounted twoBuckets 0 overtaking).shared.updateCalls ≠
        (accounted twoBuckets 0 overtaking).shared.operationCount.toNat / 100 := by
  refine ⟨accounted_overtaking_idle, ?_⟩
  rw [accounted_overtaking]
  decide +kernel

end SystemsExperiments.TscTime
