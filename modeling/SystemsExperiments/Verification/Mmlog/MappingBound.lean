import SystemsExperiments.Verification.Mmlog.Ring
import Mathlib.Order.Interval.Finset.Nat

/-! # How many chunks stay mapped

No chunk is ever unmapped, so the bound by the capacity lasts only until the head has
gone once around the ring: from then on every miss overwrites a slot. -/

namespace SystemsExperiments.Mmlog

open Interleaving

/-! ## Filled slots -/

def ChunkBuffer.filled (r : ChunkBuffer) : Finset ℕ :=
  (Finset.range r.capacity).filter fun i => r.buffer i ≠ .null

theorem SameHead.filled {r r' : ChunkBuffer} (h : SameHead r r')
    (hcap : r'.capacity = r.capacity) : r'.filled = r.filled := by
  simp only [ChunkBuffer.filled, h.buffer, hcap]

/-- An empty slot leaves room for one more chunk. -/
theorem card_filled_lt {r : ChunkBuffer} {i : ℕ} (hi : i < r.capacity)
    (hslot : r.buffer i = .null) : r.filled.card + 1 ≤ r.capacity := by
  have hsub : r.filled ⊆ (Finset.range r.capacity).erase i := by
    intro j hj
    obtain ⟨hj, hne⟩ := Finset.mem_filter.mp hj
    refine Finset.mem_erase.mpr ⟨?_, hj⟩
    rintro rfl
    exact hne hslot
  have hcard := Finset.card_le_card hsub
  rw [Finset.card_erase_of_mem (Finset.mem_range.mpr hi), Finset.card_range] at hcard
  omega

theorem card_filled_le (r : ChunkBuffer) : r.filled.card ≤ r.capacity := by
  have hcard := Finset.card_filter_le (Finset.range r.capacity) fun i => r.buffer i ≠ .null
  rwa [Finset.card_range] at hcard

theorem card_filled_setSlot {r : ChunkBuffer} {i id : ℕ} (hi : i < r.capacity)
    (hslot : r.buffer i = .null) :
    r.filled.card + 1 ≤ (r.setSlot i (.chunk id)).filled.card := by
  have hnot : i ∉ r.filled := fun hmem => (Finset.mem_filter.mp hmem).2 hslot
  have hsub : insert i r.filled ⊆ (r.setSlot i (.chunk id)).filled := by
    intro j hj
    rcases Finset.mem_insert.mp hj with rfl | hmem
    · exact Finset.mem_filter.mpr ⟨Finset.mem_range.mpr hi, by simp [ChunkBuffer.setSlot]⟩
    · obtain ⟨hrange, hne⟩ := Finset.mem_filter.mp hmem
      have hji : j ≠ i := fun heq => hnot (heq ▸ hmem)
      exact Finset.mem_filter.mpr
        ⟨hrange, by simpa [ChunkBuffer.setSlot, Function.update_of_ne hji] using hne⟩
  have hcard := Finset.card_le_card hsub
  rwa [Finset.card_insert_of_notMem hnot] at hcard

theorem setSlot_null {r : ChunkBuffer} {i : ℕ} (hslot : r.buffer i = .null) :
    r.setSlot i .null = r := by
  simp [ChunkBuffer.setSlot, ← hslot]

/-! ## The holder of the head lock -/

/-- The slot that `add_new_chunk` is going to store into. -/
def RbPc.target? : RbPc → Option ℕ
  | .calloc _ next | .mmap _ next | .storeRef _ next _ | .storeSlot _ next _
  | .clearSlot next => some next
  | _ => none

/-- The chunks that are mapped and not yet in a slot. -/
def RbPc.unstored : RbPc → ℕ
  | .storeRef _ _ _ | .storeSlot _ _ _ => 1
  | _ => 0

structure RoomAt (r : ChunkBuffer) (pc : RbPc) : Prop where
  target : ∀ next, pc.target? = some next → r.buffer next = .null
  created_le : r.created ≤ r.filled.card + pc.unstored

/-- Whether `mmlog_rb_checkout` finds its cursor outside the chunk at the head. -/
def missesHead (r : ChunkBuffer) (cursor head : ℕ) : Bool :=
  match r.buffer head with
  | .chunk id => !isCursorInChunk (r.chunks id) cursor
  | _ => true

theorem RoomAt.of_le {r : ChunkBuffer} {pc : RbPc} (h : r.created ≤ r.filled.card)
    (hpc : pc.target? = none) : RoomAt r pc :=
  ⟨fun _ hnext => (nomatch hpc.symm.trans hnext), h.trans (Nat.le_add_right _ _)⟩

/-- What a step of the holder leaves to its next point, or to the caller. -/
structure RoomStep (r : ChunkBuffer) (next : Next RbPc (Option ℕ)) : Prop where
  point : ∀ pc, next = .goto pc → RoomAt r pc
  done : ∀ v, next = .done v → r.created ≤ r.filled.card

theorem RoomStep.goto {r : ChunkBuffer} {pc : RbPc} (h : RoomAt r pc) :
    RoomStep r (.goto pc) := by
  refine ⟨?_, nofun⟩
  rintro _ ⟨⟩
  exact h

theorem RoomStep.ret {r : ChunkBuffer} {v : Option ℕ} (h : r.created ≤ r.filled.card) :
    RoomStep r (.done v) :=
  ⟨nofun, fun _ _ => h⟩

theorem mmlogRbCheckout_room {cs count cursor : ℕ} {r : ChunkBuffer} (errno : MmlogErr)
    (o : Outcome) {pc : RbPc} (hcount : 2 ≤ count) (h : RingOk cs count r)
    (hpc : RbAt r cursor pc) (hroom : RoomAt r pc)
    (hempty : ∀ head tail, pc = .loadSlot head tail → missesHead r cursor head = true →
      r.buffer (r.getNextHeadPtr head) = .null) :
    RoomStep (mmlogRbCheckout cs cursor r errno o pc).1
      (mmlogRbCheckout cs cursor r errno o pc).2.2 := by
  have hpos : 0 < r.capacity := by
    rw [h.capacity]
    omega
  have hlt : ∀ head, r.getNextHeadPtr head < r.capacity := fun head => Nat.mod_lt _ hpos
  obtain ⟨htarget, hle⟩ := hroom
  cases pc with
  | lock =>
      simp only [mmlogRbCheckout]
      split
      · exact .goto (.of_le hle rfl)
      · exact .goto (.of_le hle rfl)
  | retry =>
      cases o with
      | succeed => exact .goto (.of_le hle rfl)
      | fail => exact .ret hle
      | short n => exact .ret hle
  | loadHead => exact .goto (.of_le hle rfl)
  | loadTail head => exact .goto (.of_le hle rfl)
  | loadSlot head tail =>
      obtain ⟨-, rfl⟩ := hpc
      have hempty := hempty head none rfl
      -- a miss goes on to the slot after the head
      have hmiss : missesHead r cursor head = true →
          RoomAt r (addNewChunk r head none) := by
        intro hmiss
        rw [addNewChunk_of_tail_none hpos]
        refine ⟨?_, hle⟩
        rintro _ ⟨⟩
        exact hempty hmiss
      simp only [mmlogRbCheckout]
      split
      · rename_i id hslot
        split
        · exact .goto (.of_le hle rfl)
        · rename_i hout
          exact .goto (hmiss (by simpa [missesHead, hslot] using hout))
      · rename_i hslot
        refine .goto (hmiss ?_)
        unfold missesHead
        split
        · rename_i id hchunk
          exact (hslot id hchunk).elim
        · rfl
  | addRefHead id => exact .goto (.of_le hle rfl)
  | unlockHead id => exact .ret hle
  | clean pc => exact hpc.elim
  | reloadHead => exact hpc.elim
  | reloadTail head => exact hpc.elim
  | calloc head next =>
      cases o with
      | succeed => exact .goto ⟨htarget, hle⟩
      | fail => exact .goto ⟨htarget, hle⟩
      | short n => exact .goto ⟨htarget, hle⟩
  | mmap head next =>
      cases o with
      | succeed => exact .goto ⟨htarget, Nat.succ_le_succ hle⟩
      | fail => exact .goto ⟨htarget, hle⟩
      | short n => exact .goto ⟨htarget, hle⟩
  | storeRef head next id => exact .goto ⟨htarget, hle⟩
  | storeSlot head next id =>
      have hslot := htarget next rfl
      have hnext : next < r.capacity := hpc.2.1 ▸ hlt head
      exact .goto (.of_le (hle.trans (card_filled_setSlot hnext hslot)) rfl)
  | casHead head next id =>
      simp only [mmlogRbCheckout]
      split
      · exact .goto (.of_le hle rfl)
      · exact .goto (.of_le hle rfl)
  | clearSlot next =>
      simp only [mmlogRbCheckout, setSlot_null (htarget next rfl)]
      exact .goto (.of_le hle rfl)
  | unlockFailed => exact .ret hle
  | unlockNew id => exact .goto (.of_le hle rfl)
  | addRefNew id => exact .ret hle

/-! ## Runs -/

/-- Every chunk of the ring has a slot, one that is being added apart. -/
abbrev RoomGuarded (h : ℕ) (s : System) : Prop :=
  Mutex.Guards (HoldsHead h) (fun l : Log => (l.ring h).created ≤ (l.ring h).filled.card)
    (fun l th => ∀ cursor pc, th.pc.rb? = some (h, cursor, pc) → RoomAt (l.ring h) pc) s

/-- The handle, the cursor and the head slot of a thread that is about to look at the
chunk at the head. -/
def Pc.looksUp? (pc : Pc) : Option (ℕ × ℕ × ℕ) :=
  match pc.rb? with
  | some (h, cursor, .loadSlot head _) => some (h, cursor, head)
  | _ => none

/-- A thread that misses the chunk at the head finds the next slot still empty. -/
def MissesIntoEmpty (s : System) (t : ℕ) (_ : Outcome) : Prop :=
  ∀ p ∈ (s.thread t).pc.looksUp?, missesHead (s.shared.ring p.1) p.2.1 p.2.2 = true →
    (s.shared.ring p.1).buffer ((s.shared.ring p.1).getNextHeadPtr p.2.2) = .null

instance (s : System) (t : ℕ) (o : Outcome) : Decidable (MissesIntoEmpty s t o) :=
  inferInstanceAs (Decidable (∀ p ∈ (s.thread t).pc.looksUp?, _))

theorem roomGuarded_step {cfg : Config} {s : System} {t : ℕ} {o : Outcome} {h : ℕ}
    (hinv : RingInv cfg s) (hroom : RoomGuarded h s) (hc : MissesIntoEmpty s t o) :
    RoomGuarded h (step threadStep s t o) := by
  refine ringGuarded_step (fun r => r.created ≤ r.filled.card) RoomAt hinv hroom ?_ ?_ ?_ ?_
  · intro r r' hsame hcap hle
    rwa [hsame.filled hcap, hsame.created]
  · intro r r' pc hsame hcap hat
    obtain ⟨htarget, hle⟩ := hat
    refine ⟨?_, ?_⟩
    · rwa [hsame.buffer]
    · rwa [hsame.filled hcap, hsame.created]
  · intro r hle
    exact .of_le hle rfl
  · intro cursor pc hpc hat
    have hnext := mmlogRbCheckout_room (s.thread t).errno o (cfg.two_le_chunkCount h)
      (hinv.ok h) ((hinv.point t).point.rbAt hpc).2 hat ?_
    · refine ⟨fun pc' heq _ => hnext.point pc' heq, ?_⟩
      revert hnext
      generalize (mmlogRbCheckout cfg.chunkSize cursor (s.shared.ring h) (s.thread t).errno o
        pc).2.2 = n
      intro hnext hout
      cases n with
      | goto pc' =>
          have hle := (hnext.point _ rfl).created_le
          have hzero : pc'.unstored = 0 := by
            cases pc' with
            | storeRef head next id => exact (hout trivial).elim
            | storeSlot head next id => exact (hout trivial).elim
            | _ => rfl
          rwa [hzero] at hle
      | done v => exact hnext.done v rfl
    · rintro head tail rfl
      exact hc (h, cursor, head) (by rw [Pc.looksUp?, hpc]; rfl)

theorem roomGuarded_initial (cfg : Config) (programs : List (List Call)) (h : ℕ) :
    RoomGuarded h (initial cfg programs) :=
  ⟨fun _ => Nat.zero_le _, fun _ hin => (not_holdsHead_of_none rfl hin).elim⟩

theorem roomGuarded_run (cfg : Config) (programs : List (List Call)) {sched : Schedule}
    (hc : AllSteps threadStep MissesIntoEmpty (initial cfg programs) sched) (h : ℕ) :
    RoomGuarded h (reached cfg programs sched) := by
  have hrun : RingInv cfg (reached cfg programs sched) ∧
      RoomGuarded h (reached cfg programs sched) := by
    refine run_invariant_of threadStep (P := fun s => RingInv cfg s ∧ RoomGuarded h s) ?_
      ⟨ringInv_initial cfg programs, roomGuarded_initial cfg programs h⟩ hc
    intro s t o ⟨hinv, hroom⟩ hstep
    exact ⟨ringInv_step s t o hinv, roomGuarded_step hinv hroom hstep⟩
  exact hrun.2

theorem mappedCount_le_created (r : ChunkBuffer) : r.mappedCount ≤ r.created := by
  have hle := List.length_filter_le (fun i => (r.chunks i).isMapped) (List.range r.created)
  rwa [List.length_range] at hle

/-- Whoever holds the lock, the chunks made so far fit into the slots. -/
theorem RoomAt.created_le_capacity {cs count cursor : ℕ} {r : ChunkBuffer} {pc : RbPc}
    (hroom : RoomAt r pc) (h : RingOk cs count r) (hcount : 2 ≤ count)
    (hpc : RbAt r cursor pc) : r.created ≤ r.capacity := by
  have hlt : ∀ head, r.getNextHeadPtr head < r.capacity := by
    intro head
    refine Nat.mod_lt _ ?_
    rw [h.capacity]
    omega
  have hfull := card_filled_le r
  have hle := hroom.created_le
  cases pc with
  | storeRef head next id =>
      exact hle.trans (card_filled_lt (hpc.2.1 ▸ hlt head) (hroom.target next rfl))
  | storeSlot head next id =>
      exact hle.trans (card_filled_lt (hpc.2.1 ▸ hlt head) (hroom.target next rfl))
  | _ => exact hle.trans hfull

/-- The slot that the next step of `add_new_chunk` stores into. -/
def RbPc.stores? : RbPc → Option ℕ
  | .storeSlot _ next _ | .clearSlot next => some next
  | _ => none

/-- With its next step the thread overwrites a slot of ring `h` that holds a mapped
chunk. -/
def Overwrites (s : System) (t h : ℕ) : Prop :=
  ∃ cursor pc next id, (s.thread t).pc.rb? = some (h, cursor, pc) ∧ pc.stores? = some next ∧
    (s.shared.ring h).buffer next = .chunk id ∧
    ((s.shared.ring h).chunks id).isMapped = true

/-- In a run in which every miss on a head chunk finds the next slot empty, no more chunks
are mapped than the ring has slots, and no slot that holds a mapped chunk is
overwritten. -/
theorem mapping_bound (cfg : Config) (programs : List (List Call)) (sched : Schedule)
    (hc : AllSteps threadStep MissesIntoEmpty (initial cfg programs) sched) (h : ℕ) :
    ((reached cfg programs sched).shared.ring h).capacity = cfg.chunkCount h ∧
      ((reached cfg programs sched).shared.ring h).mappedCount ≤
        ((reached cfg programs sched).shared.ring h).capacity ∧
      ∀ t, ¬ Overwrites (reached cfg programs sched) t h := by
  have hinv := ringInv_reached cfg programs sched
  have hroom := roomGuarded_run cfg programs hc h
  refine ⟨(hinv.ok h).capacity, (mappedCount_le_created _).trans ?_, ?_⟩
  · by_cases hin : ∃ t, HoldsHead h ((reached cfg programs sched).thread t)
    · obtain ⟨t, cursor, pc, hpc, hpcin⟩ := hin
      have hat := hroom.held t ⟨cursor, pc, hpc, hpcin⟩ cursor pc hpc
      exact hat.created_le_capacity (hinv.ok h) (cfg.two_le_chunkCount h)
        ((hinv.point t).point.rbAt hpc).2
    · exact (hroom.free fun t ht => hin ⟨t, ht⟩).trans (card_filled_le _)
  · rintro t ⟨cursor, pc, next, id, hpc, hstores, hslot, -⟩
    have hin : pc.holdsHead ∧ pc.target? = some next := by
      cases pc with
      | storeSlot head next' id' => exact ⟨trivial, hstores⟩
      | clearSlot next' => exact ⟨trivial, hstores⟩
      | _ => cases hstores
    have hat := hroom.held t ⟨cursor, pc, hpc, hin.1⟩ cursor pc hpc
    cases hslot.symm.trans (hat.target next hin.2)

/-- Two records of 3000 bytes on a ring of two slots map two chunks. -/
def twoRecords : List (List Call) :=
  [[.insert (some 0) (some ⟨3000, fun _ => 1⟩), .insert (some 0) (some ⟨3000, fun _ => 2⟩)]]

theorem mapping_bound_two_records :
    ((reached Config.least twoRecords (List.replicate 50 (0, .succeed))).shared.ring
        0).mappedCount ≤
      ((reached Config.least twoRecords (List.replicate 50 (0, .succeed))).shared.ring
        0).capacity :=
  (mapping_bound Config.least twoRecords (List.replicate 50 (0, .succeed))
    (by decide +kernel) 0).2.1

/-- A third record needs a third chunk, which goes into the slot of the first. -/
def threeRecords : List (List Call) :=
  [[.insert (some 0) (some ⟨3000, fun _ => 1⟩), .insert (some 0) (some ⟨3000, fun _ => 2⟩),
    .insert (some 0) (some ⟨3000, fun _ => 3⟩)]]

theorem mapping_bound_fails_after_three_records :
    ((reached Config.least threeRecords (List.replicate 100 (0, .succeed))).shared.ring
        0).capacity <
      ((reached Config.least threeRecords (List.replicate 100 (0, .succeed))).shared.ring
        0).mappedCount := by
  decide +kernel

end SystemsExperiments.Mmlog
