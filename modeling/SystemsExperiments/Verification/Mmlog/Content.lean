import SystemsExperiments.Verification.Mmlog.Growth
import SystemsExperiments.Verification.Mmlog.Records

/-! # Concurrent inserts lose nothing -/

namespace SystemsExperiments.Mmlog

open Interleaving Layout

/-- The log under programs of inserts that fit, with the order of the reservations. -/
structure InsertsInv (cfg : Config) (programs : List (List Call)) (s : System)
    (order : List (ℕ × Payload)) : Prop where
  growth : GrowthInv cfg s
  ring : RingInv cfg s
  thread : ∀ t, InsertThread ((programs.getD t []).filterMap Call.payload?) (s.thread t)
  content : ContentInv cfg.chunkSize s order

theorem OnlyInserts.getD {programs : List (List Call)} (h : OnlyInserts programs) (t : ℕ) :
    ∀ call ∈ programs.getD t [], call.isInsert = true :=
  forall_mem_getD h t

theorem OnlyInserts.noTrim {programs : List (List Call)} (h : OnlyInserts programs) :
    NoTrim programs := by
  intro p hp call hcall
  obtain ⟨a, data, rfl, -⟩ := isInsert_iff (h p hp call hcall)
  rfl

theorem insertsInv_initial (cfg : Config) {programs : List (List Call)}
    (h : OnlyInserts programs) : InsertsInv cfg programs (initial cfg programs) [] where
  growth := growthInv_initial cfg h.noTrim
  ring := ringInv_initial cfg programs
  thread := fun t => ⟨trivial, fun call hcall => isAppend_of_isInsert (h.getD t call hcall), rfl⟩
  content := ⟨rfl, fun _ => rfl, nofun, nofun⟩

section Inserts

variable {cfg : Config} {programs : List (List Call)} {s : System}
variable {order : List (ℕ × Payload)}

/-- Every reserved place ends at or before the cursor. -/
theorem InsertsInv.reserved_le (h : InsertsInv cfg programs s order) {t start : ℕ}
    {data : Payload} (hres : (s.thread t).pc.reserved? = some (start, data)) :
    start + data.size ≤ s.shared.metadata.cursor := by
  exact h.content.place_le (h.content.reserved t start data hres).1

theorem InsertsInv.fits (h : InsertsInv cfg programs s order) {t : ℕ} {o : Outcome}
    (hsmall : totalBytes programs + cfg.chunkSize < 2 ^ 32)
    (hwithin : WithinTotal (totalBytes programs) s t o) : Fits s.shared (s.thread t) := by
  unfold WithinTotal at hwithin
  apply fits_of_growsInRange (o := o)
  · omega
  · intro e he hgrow
    have hpoint := (h.thread t).point
    have hres : ∀ start data, (s.thread t).pc.reserved? = some (start, data) →
        start + data.size ≤ s.shared.metadata.cursor := fun _ _ hr => h.reserved_le hr
    rw [h.growth.chunkSize]
    cases hpc : (s.thread t).pc with
    | insertCheckout a data pc =>
        rw [hpc] at he hres
        cases pc with
        | fetchAdd => cases he
        | loadSize start => cases he
        | expand start epc =>
            have hle := hres start data rfl
            cases epc with
            | loadSize =>
                cases he
                rw [endOffset_eq (by omega)]
                omega
            | _ => cases he
    | checkout a size pc =>
        rw [hpc] at hpoint
        exact hpoint.elim
    | _ =>
        rw [hpc] at he
        cases he

theorem InsertsInv.pre (h : InsertsInv cfg programs s order) {t : ℕ} {o : Outcome}
    (hsmall : totalBytes programs + cfg.chunkSize < 2 ^ 32)
    (hwithin : WithinTotal (totalBytes programs) s t o) :
    ContentPre s.shared (s.thread t) := by
  unfold WithinTotal at hwithin
  have hcs := h.growth.chunkSize
  have hgrowth := (h.growth.point t).point
  refine ⟨(h.thread t).point, (h.thread t).todo, ?_, ?_, ?_, ?_, ?_, ?_, ?_, ?_⟩
  · rw [hcs]
    exact cfg.chunkSize_pos
  · rw [hcs]
    exact cfg.chunkSize_lt
  · omega
  · intro start data hres
    have hle := h.reserved_le hres
    omega
  · intro e n hpc
    exact .inr (hgrowth.len_le_of_ftruncate hpc)
  · intro a cursor hpc
    rw [hpc] at hgrowth
    exact hgrowth.elim
  · intro a data start w id hpc
    rw [hpc] at hgrowth
    exact le_trans hgrowth h.growth.agree.le_len
  · intro a data start w id hpc
    have hserves := (h.ring.point t).point
    rw [hpc] at hserves
    rw [hcs]
    exact ⟨hserves, (h.ring.ok a).live id (Serves.created hserves)⟩

theorem insertsInv_step {t : ℕ} {o : Outcome}
    (hsmall : totalBytes programs + cfg.chunkSize < 2 ^ 32)
    (h : InsertsInv cfg programs s order) (hwithin : WithinTotal (totalBytes programs) s t o) :
    ∃ order', InsertsInv cfg programs (step threadStep s t o) order' := by
  obtain ⟨hgrowth, -⟩ := growthInv_step t o h.growth (h.fits hsmall hwithin)
  have hstep := threadStep_content (o := o) (h.pre hsmall hwithin)
  rw [h.growth.chunkSize, ← step_thread_self, ← step_shared] at hstep
  have hle : ∀ u start data, (s.thread u).pc.reserved? = some (start, data) →
      (s.thread u).pc.written cfg.chunkSize ≤ data.size := by
    intro u start data hres
    unfold WithinTotal at hwithin
    have hend := h.reserved_le hres
    exact written_le cfg.chunkSize_pos cfg.chunkSize_lt (h.thread u).point hres (by omega)
  obtain ⟨order', hcontent⟩ := contentInv_step h.content hle hstep
  refine ⟨order', hgrowth, ringInv_step s t o h.ring, fun u => ?_, hcontent⟩
  by_cases hu : u = t
  · subst hu
    rw [step_thread_self]
    exact threadStep_insertThread (h.thread u)
  · rw [step_thread_of_ne threadStep s o hu]
    exact h.thread u

end Inserts

theorem insertsInv_reached (cfg : Config) {programs : List (List Call)}
    (honly : OnlyInserts programs) (hsmall : totalBytes programs + cfg.chunkSize < 2 ^ 32)
    (sched : Schedule) : ∃ order, InsertsInv cfg programs (reached cfg programs sched) order := by
  have hwithin : AllSteps threadStep (WithinTotal (totalBytes programs))
      (initial cfg programs) sched :=
    allSteps_of_forall threadStep
      (fun front t _ => cursor_add_unclaimed_le cfg programs front t) sched
  refine run_invariant_of threadStep (P := fun s => ∃ order, InsertsInv cfg programs s order)
    ?_ ⟨[], insertsInv_initial cfg honly⟩ hwithin
  rintro s t o ⟨order, h⟩ hstep
  exact insertsInv_step hsmall h hstep

/-- Whatever the interleaving of the inserts of any number of threads and processes: once
all have finished and all returned true, the bytes below the cursor are the records, each
once and whole, in an order that extends the program order of each thread. -/
theorem no_lost_record (cfg : Config) (programs : List (List Call))
    (honly : OnlyInserts programs) (hsmall : totalBytes programs + cfg.chunkSize < 2 ^ 32)
    (sched : Schedule)
    (hidle : ∀ t, ((reached cfg programs sched).thread t).pc = .idle ∧
      ((reached cfg programs sched).thread t).todo = [])
    (htrue : ∀ t, ∀ r ∈ ((reached cfg programs sched).thread t).results, r.2 = .bool true) :
    ∃ order : List (ℕ × Payload),
      (∀ t, (order.filter fun x => x.1 = t).map Prod.snd =
        (programs.getD t []).filterMap Call.payload?) ∧
      HoldsRecords (reached cfg programs sched).shared order := by
  obtain ⟨order, h⟩ := insertsInv_reached cfg honly hsmall sched
  have hres : ∀ t, ((reached cfg programs sched).thread t).pc.reserved? = none := by
    intro t
    rw [(hidle t).1]
    rfl
  refine ⟨order, fun t => ?_, h.content.holdsRecords fun start t data hmem => ?_⟩
  · have hprog := (h.thread t).program_eq
    rw [h.content.history t, ← hprog, (hidle t).1, (hidle t).2]
    simp [Thread.claimed, hres t, Pc.data?]
  · rcases h.content.status start t data hmem with hst | hprog | ⟨r, hr, hfalse⟩
    · exact hst
    · cases (hres t).symm.trans hprog
    · cases (htrue t r hr).symm.trans hfalse.2

theorem halted_iff {th : Thread} : th.halted = true ↔ th.pc = .idle ∧ th.todo = [] := by
  obtain ⟨p, errno, todo, results⟩ := th
  cases p <;> simp [Thread.halted]

theorem threadStep_halted (l : Log) {th : Thread} (o : Outcome) (h : th.halted = true) :
    threadStep l th o = (l, th) := by
  obtain ⟨hpc, htodo⟩ := halted_iff.mp h
  unfold threadStep
  rw [hpc, htodo]

/-- Two processes insert one record each, step by step in turn. -/
def twoWriters : List (List Call) :=
  [[.insert (some 0) (some ⟨3000, fun _ => 1⟩)], [.insert (some 1) (some ⟨3000, fun _ => 2⟩)]]

def inTurn : Schedule := (List.replicate 40 [(0, .succeed), (1, .succeed)]).flatten

theorem no_lost_record_two_writers :
    ∃ order : List (ℕ × Payload),
      (∀ t, (order.filter fun x => x.1 = t).map Prod.snd =
        (twoWriters.getD t []).filterMap Call.payload?) ∧
      HoldsRecords (reached Config.least twoWriters inTurn).shared order := by
  have hothers : ∀ t, 2 ≤ t → (reached Config.least twoWriters inTurn).thread t =
      ⟨.idle, .ok, [], []⟩ := by
    intro t ht
    have hsched : ∀ m ∈ inTurn, m.1 < 2 := by decide
    exact reached_thread_of_le (fun m hm => (hsched m hm).trans_le ht) ht
  have hhalted : ∀ t < 2, ((reached Config.least twoWriters inTurn).thread t).halted = true := by
    decide +kernel
  have htrue : ∀ t < 2, ∀ v ∈
      ((reached Config.least twoWriters inTurn).thread t).results.map Prod.snd,
      v = .bool true := by
    decide +kernel
  refine no_lost_record Config.least twoWriters (by decide) (by decide) inTurn ?_ ?_
  · intro t
    rcases Nat.lt_or_ge t 2 with ht | ht
    · exact halted_iff.mp (hhalted t ht)
    · rw [hothers t ht]
      exact ⟨rfl, rfl⟩
  · intro t r hr
    rcases Nat.lt_or_ge t 2 with ht | ht
    · exact htrue t ht r.2 (List.mem_map_of_mem hr)
    · rw [hothers t ht] at hr
      exact (List.not_mem_nil hr).elim

end SystemsExperiments.Mmlog
