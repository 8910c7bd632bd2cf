import SystemsExperiments.Model.TscTime.Accounting
import Mathlib.Data.List.Chain
import Mathlib.Data.List.Range
import Mathlib.Order.Defs.LinearOrder

/-! # No empty bucket goes on

A bucket that is empty was last fed no later than its successor. If it was not fed by the call
itself, too little time has passed since for its predecessor's span, and its own is longer; so
it is not its turn. -/

namespace SystemsExperiments.TscTime

/-! ## What holds of the row -/

def FedBefore {F : Type} (bucket next : TimeBucket F) : Prop :=
  bucket.count = 0 → bucket.lastUpdateTime ≤ next.lastUpdateTime

def CoarserThan {F : Type} [LE F] (bucket next : TimeBucket F) : Prop :=
  bucket.timeSpan ≤ next.timeSpan

/-- The buckets after some calls, the last of them at `now`. -/
structure Fed {F : Type} [LE F] (now : UInt64) (calls : ℕ) (buckets : List (TimeBucket F)) :
    Prop where
  fedBefore : buckets.IsChain FedBefore
  coarser : buckets.IsChain CoarserThan
  last_le : ∀ bucket ∈ buckets, bucket.lastUpdateTime ≤ now
  count_le : ∀ bucket ∈ buckets, bucket.count.toNat ≤ calls

theorem elapsed_antitone {t u now : UInt64} (htu : t ≤ u) (hu : u ≤ now) : now - u ≤ now - t := by
  rw [UInt64.le_iff_toNat_le, UInt64.toNat_sub_of_le _ _ hu,
    UInt64.toNat_sub_of_le _ _ (UInt64.le_trans htu hu)]
  rw [UInt64.le_iff_toNat_le] at htu
  omega

theorem toNat_count_succ {count : UInt64} {calls : ℕ} (h : count.toNat ≤ calls)
    (hcalls : calls + 1 < 2 ^ 64) : (count + 1).toNat = count.toNat + 1 := by
  rw [UInt64.toNat_add]
  exact Nat.mod_eq_of_lt (by simpa using Nat.lt_of_le_of_lt (Nat.succ_le_succ h) hcalls)

theorem count_succ_ne_zero {count : UInt64} {calls : ℕ} (h : count.toNat ≤ calls)
    (hcalls : calls + 1 < 2 ^ 64) : count + 1 ≠ 0 := by
  intro heq
  have hnat := congrArg UInt64.toNat heq
  rw [toNat_count_succ h hcalls] at hnat
  cases hnat

/-! ## Feeding a bucket -/

section Feed

variable {F : Type} [Add F] {now : UInt64} {calls : ℕ}

theorem fedBefore_feed {bucket : TimeBucket F} {rest : List (TimeBucket F)}
    (h : (bucket :: rest).IsChain FedBefore) (hfull : bucket.count + 1 ≠ 0) (latency : F) :
    (bucket.feed now latency :: rest).IsChain FedBefore :=
  h.cons_of_imp fun _ _ hzero => absurd hzero hfull

theorem coarser_feed [LE F] {bucket : TimeBucket F} {rest : List (TimeBucket F)}
    (h : (bucket :: rest).IsChain CoarserThan) (latency : F) :
    (bucket.feed now latency :: rest).IsChain CoarserThan :=
  h.cons_of_imp fun b (hb : bucket.timeSpan ≤ b.timeSpan) => hb

theorem count_feed_le {bucket : TimeBucket F} (h : bucket.count.toNat ≤ calls)
    (hcalls : calls + 1 < 2 ^ 64) (latency : F) :
    (bucket.feed now latency).count.toNat ≤ calls + 1 := by
  rw [TimeBucket.feed, toNat_count_succ h hcalls]
  exact Nat.succ_le_succ h

end Feed

/-! ## One call -/

variable {F : Type} [LinearOrder F]

/-- What the loop makes of a bucket and the coarser ones. -/
structure Shifted (now : UInt64) (calls : ℕ) (bucket : TimeBucket F)
    (result : List (TimeBucket F) × List Event) : Prop where
  positive : ∀ i count, .shift i count ∈ result.2 → 0 < count
  head : ∃ bucket' rest, result.1 = bucket' :: rest ∧
    bucket'.lastUpdateTime = bucket.lastUpdateTime ∧ bucket'.timeSpan = bucket.timeSpan
  fed : Fed now (calls + 1) result.1

variable {now : UInt64} {calls : ℕ}

theorem fed_singleton {bucket : TimeBucket F} (hlast : bucket.lastUpdateTime ≤ now)
    (hcount : bucket.count.toNat ≤ calls) : Fed now calls [bucket] where
  fedBefore := List.isChain_singleton _
  coarser := List.isChain_singleton _
  last_le := List.forall_mem_singleton.mpr hlast
  count_le := List.forall_mem_singleton.mpr hcount

theorem Fed.cons {bucket next : TimeBucket F} {rest : List (TimeBucket F)}
    (h : Fed now calls (next :: rest)) (hbefore : FedBefore bucket next)
    (hcoarser : CoarserThan bucket next) (hlast : bucket.lastUpdateTime ≤ now)
    (hcount : bucket.count.toNat ≤ calls) : Fed now calls (bucket :: next :: rest) where
  fedBefore := List.isChain_cons_cons.mpr ⟨hbefore, h.fedBefore⟩
  coarser := List.isChain_cons_cons.mpr ⟨hcoarser, h.coarser⟩
  last_le := List.forall_mem_cons.mpr ⟨hlast, h.last_le⟩
  count_le := List.forall_mem_cons.mpr ⟨hcount, h.count_le⟩

/-- The rest of the loop behind a bucket that is done with. -/
theorem Shifted.cons {bucket bucket' next : TimeBucket F}
    {result : List (TimeBucket F) × List Event} {events : List Event}
    (h : Shifted now calls next result)
    (hevents : ∀ i count, .shift i count ∈ events → 0 < count)
    (hlast : bucket'.lastUpdateTime = bucket.lastUpdateTime)
    (hspan : bucket'.timeSpan = bucket.timeSpan) (hbefore : FedBefore bucket' next)
    (hcoarser : CoarserThan bucket' next) (hnow : bucket.lastUpdateTime ≤ now)
    (hcount : bucket'.count.toNat ≤ calls + 1) :
    Shifted now calls bucket (bucket' :: result.1, events ++ result.2) := by
  refine ⟨?_, ⟨bucket', result.1, rfl, hlast, hspan⟩, ?_⟩
  · intro i count hmem
    cases List.mem_append.mp hmem with
    | inl hmem => exact hevents i count hmem
    | inr hmem => exact h.positive i count hmem
  · obtain ⟨next', rest, heq, hnext, hspan'⟩ := h.head
    have hfed := h.fed
    rw [heq] at hfed ⊢
    refine hfed.cons ?_ ?_ (hlast ▸ hnow) hcount
    · intro hzero
      rw [hnext]
      exact hbefore hzero
    · rw [CoarserThan, hspan']
      exact hcoarser

section Loop

variable [Zero F] [Add F] [Div F] [NatCast F] {config : Config F}

theorem shiftFrom_spec (hmono : ∀ a b : UInt64, a ≤ b → config.cyclesToNs a ≤ config.cyclesToNs b)
    (hcalls : calls + 1 < 2 ^ 64) (i : ℕ) {bucket : TimeBucket F} {rest : List (TimeBucket F)}
    (hbefore : (bucket :: rest).IsChain FedBefore) (hcoarser : (bucket :: rest).IsChain CoarserThan)
    (hlast : bucket.lastUpdateTime ≤ now) (hlasts : ∀ b ∈ rest, b.lastUpdateTime ≤ now)
    (hcount : bucket.count.toNat ≤ calls + 1) (hcounts : ∀ b ∈ rest, b.count.toNat ≤ calls)
    (hturn : bucket.count ≠ 0 ∨
      config.cyclesToNs (now - bucket.lastUpdateTime) ≤ bucket.timeSpan) :
    Shifted now calls bucket (shiftFrom config now i bucket rest) := by
  induction rest generalizing i bucket with
  | nil =>
      rw [shiftFrom]
      split
      · refine ⟨by simp, ⟨_, [], rfl, ?_, ?_⟩, ?_⟩
        · split
          · rfl
          · rfl
        · split
          · rfl
          · rfl
        · split
          · exact fed_singleton hlast (Nat.zero_le _)
          · exact fed_singleton hlast hcount
      · exact ⟨by simp, ⟨bucket, [], rfl, rfl, rfl⟩, fed_singleton hlast hcount⟩
  | cons next rest ih =>
      rw [List.isChain_cons_cons] at hbefore hcoarser
      rw [List.forall_mem_cons] at hlasts hcounts
      rw [shiftFrom]
      by_cases hspan : bucket.timeSpan < config.cyclesToNs (now - next.lastUpdateTime)
      · rw [if_pos hspan]
        -- a bucket that is empty has not been full for long enough
        have hpos : bucket.count ≠ 0 := by
          intro hzero
          have hturn := hturn.resolve_left (fun hne => hne hzero)
          have hle := hmono _ _ (elapsed_antitone (hbefore.1 hzero) hlasts.1)
          exact absurd (hle.trans hturn) (not_le.mpr hspan)
        have hfull := count_succ_ne_zero hcounts.1 hcalls
        have hnext := ih (i + 1) (fedBefore_feed hbefore.2 hfull bucket.avgLatency)
          (coarser_feed hcoarser.2 bucket.avgLatency) UInt64.le_rfl hlasts.2
          (count_feed_le hcounts.1 hcalls bucket.avgLatency) hcounts.2 (.inl hfull)
        have hevents : ∀ j count, Event.shift j count ∈
            [.elapsed now next.lastUpdateTime, .shift i bucket.count] → 0 < count := by
          intro j count hmem
          simp only [List.mem_cons, reduceCtorEq, Event.shift.injEq, List.not_mem_nil, or_false,
            false_or] at hmem
          rw [hmem.2]
          exact UInt64.pos_iff_ne_zero.mpr hpos
        exact hnext.cons hevents rfl rfl (fun _ => hlast) hcoarser.1 hlast (Nat.zero_le _)
      · rw [if_neg hspan]
        have hnext := ih (i + 1) hbefore.2 hcoarser.2 hlasts.1 hlasts.2
          (hcounts.1.trans (Nat.le_succ _)) hcounts.2
          (.inr ((not_lt.mp hspan).trans hcoarser.1))
        have hevents : ∀ j count, Event.shift j count ∈
            [.elapsed now next.lastUpdateTime] → 0 < count := by
          intro j count hmem
          cases List.mem_singleton.mp hmem
        exact hnext.cons hevents rfl rfl hbefore.1 hcoarser.1 hlast hcount

end Loop

/-! ## All calls -/

section Calls

variable [Zero F]

theorem fed_initializeBuckets {config : Config F}
    (hspans : ∀ i, i + 1 < config.numBuckets → config.timeSpan i ≤ config.timeSpan (i + 1))
    (now : UInt64) : Fed now 0 (initializeBuckets config) := by
  refine ⟨?_, ?_, ?_, ?_⟩
  · rw [initializeBuckets, List.isChain_map, List.isChain_range]
    intro i hi hzero
    exact UInt64.le_rfl
  · rw [initializeBuckets, List.isChain_map, List.isChain_range]
    intro i hi
    exact hspans i (by omega)
  · rw [initializeBuckets, List.forall_mem_map]
    intro i hi
    exact UInt64.zero_le
  · rw [initializeBuckets, List.forall_mem_map]
    intro i hi
    exact le_rfl

variable [Add F] [Div F] [NatCast F] {config : Config F}

theorem updateBuckets_spec
    (hmono : ∀ a b : UInt64, a ≤ b → config.cyclesToNs a ≤ config.cyclesToNs b)
    (hcalls : calls + 1 < 2 ^ 64) {last : UInt64} (hnow : last ≤ now) (durationMs : F)
    {buckets : List (TimeBucket F)} (h : Fed last calls buckets) :
    (∀ i count, .shift i count ∈ (updateBuckets config now durationMs buckets).2 → 0 < count) ∧
      Fed now (calls + 1) (updateBuckets config now durationMs buckets).1 := by
  cases buckets with
  | nil =>
      refine ⟨by simp [updateBuckets], ?_⟩
      exact ⟨.nil, .nil, List.forall_mem_nil _, List.forall_mem_nil _⟩
  | cons bucket rest =>
      have hlasts := List.forall_mem_cons.mp h.last_le
      have hcounts := List.forall_mem_cons.mp h.count_le
      have hfull := count_succ_ne_zero hcounts.1 hcalls
      have hshifted := shiftFrom_spec hmono hcalls 0 (fedBefore_feed h.fedBefore hfull durationMs)
        (coarser_feed h.coarser durationMs) UInt64.le_rfl
        (fun b hb => UInt64.le_trans (hlasts.2 b hb) hnow)
        (count_feed_le hcounts.1 hcalls durationMs) hcounts.2 (.inl hfull)
      exact ⟨hshifted.positive, hshifted.fed⟩

theorem updateAll_positive
    (hmono : ∀ a b : UInt64, a ≤ b → config.cyclesToNs a ≤ config.cyclesToNs b)
    {last : UInt64} {buckets : List (TimeBucket F)} (h : Fed last calls buckets)
    {updates : List (UInt64 × F)} (hlast : ∀ update ∈ updates, last ≤ update.1)
    (hsorted : updates.Pairwise fun a b => a.1 ≤ b.1) (hlen : calls + updates.length < 2 ^ 64)
    {i : ℕ} {count : UInt64} (hmem : .shift i count ∈ (updateAll config buckets updates).2) :
    0 < count := by
  induction updates generalizing last calls buckets with
  | nil => cases hmem
  | cons update updates ih =>
      rw [List.length_cons] at hlen
      rw [List.pairwise_cons] at hsorted
      have hspec := updateBuckets_spec hmono (by omega) (hlast update List.mem_cons_self) update.2 h
      cases List.mem_append.mp hmem with
      | inl hmem => exact hspec.1 i count hmem
      | inr hmem => exact ih hspec.2 hsorted.1 hsorted.2 (by omega) hmem

/-- Only a bucket with something in it is shifted. -/
theorem shifted_count_pos (config : Config F)
    (hspans : ∀ i, i + 1 < config.numBuckets → config.timeSpan i ≤ config.timeSpan (i + 1))
    (hmono : ∀ a b : UInt64, a ≤ b → config.cyclesToNs a ≤ config.cyclesToNs b)
    (updates : List (UInt64 × F)) (hsorted : updates.Pairwise fun a b => a.1 ≤ b.1)
    (hlen : updates.length < 2 ^ 64) (i : ℕ) (count : UInt64)
    (hmem : .shift i count ∈ (updateAll config (initializeBuckets config) updates).2) :
    0 < count :=
  updateAll_positive hmono (fed_initializeBuckets hspans 0) (fun _ _ => UInt64.zero_le) hsorted
    (by omega) hmem

end Calls

/-- Two buckets that shift with every cycle. -/
def twoBuckets : Config ℕ where
  numBuckets := 2
  numBuckets_pos := Nat.two_pos
  timeSpan := fun _ => 0
  maxHistory := 0
  cyclesToNs := UInt64.toNat

theorem shifted_count_pos_oneUpdate : (0 : UInt64) < 1 :=
  shifted_count_pos twoBuckets (fun _ _ => le_rfl) (fun _ _ h => UInt64.le_iff_toNat_le.mp h)
    [(1, 5)] (List.pairwise_singleton _ _) (by decide) 0 1 (by decide)

/-- At one time the count of the first bucket goes up alone. -/
theorem updateBuckets_zero (count : UInt64) :
    updateBuckets twoBuckets 0 0 [⟨0, count, 0, 0⟩, ⟨0, 0, 0, 0⟩] =
      ([⟨0, count + 1, 0, 0⟩, ⟨0, 0, 0, 0⟩], [.elapsed 0 0]) := rfl

theorem updateBuckets_one (count : UInt64) :
    (updateBuckets twoBuckets 1 0 [⟨0, count, 0, 0⟩, ⟨0, 0, 0, 0⟩]).2 =
      [.elapsed 1 0, .shift 0 (count + 1), .elapsed 1 1] := rfl

theorem shift_after_replicate (k : ℕ) (count : UInt64) :
    .shift 0 (count + UInt64.ofNat k + 1) ∈ (updateAll twoBuckets
      [⟨0, count, 0, 0⟩, ⟨0, 0, 0, 0⟩] (List.replicate k (0, 0) ++ [(1, 0)])).2 := by
  induction k generalizing count with
  | zero =>
      rw [List.replicate_zero, List.nil_append, updateAll]
      refine List.mem_append_left _ ?_
      simp [updateBuckets_one]
  | succ k ih =>
      rw [List.replicate_succ, List.cons_append, updateAll, updateBuckets_zero]
      refine List.mem_append_right _ ?_
      have hcount : count + 1 + UInt64.ofNat k = count + UInt64.ofNat (k + 1) := by
        rw [UInt64.ofNat_add, UInt64.add_assoc, UInt64.add_comm 1]
        rfl
      simpa [hcount] using ih (count + 1)

/-- Its count is back at zero when it has been fed `2 ^ 64` times. -/
theorem shifted_count_wraps :
    (List.replicate (2 ^ 64 - 1) ((0 : UInt64), 0) ++ [((1 : UInt64), 0)]).Pairwise
        (fun (a b : UInt64 × ℕ) => a.1 ≤ b.1) ∧
      .shift 0 0 ∈ (updateAll twoBuckets (initializeBuckets twoBuckets)
        (List.replicate (2 ^ 64 - 1) (0, 0) ++ [(1, 0)])).2 := by
  refine ⟨?_, ?_⟩
  · rw [List.pairwise_append]
    refine ⟨List.pairwise_replicate.mpr (.inr UInt64.le_rfl), List.pairwise_singleton _ _, ?_⟩
    intro a ha b _
    rw [List.eq_of_mem_replicate ha]
    exact UInt64.zero_le
  · exact shift_after_replicate (2 ^ 64 - 1) 0

end SystemsExperiments.TscTime
