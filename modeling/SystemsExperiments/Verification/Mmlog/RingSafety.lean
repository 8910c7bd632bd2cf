import SystemsExperiments.Verification.Mmlog.Ring

/-! # Reclamation and mutual exclusion on the ring -/

namespace SystemsExperiments.Mmlog

open Interleaving

/-! ## Use of chunks -/

def RbPc.touches : RbPc → Option ℕ
  | .addRefHead id | .storeRef _ _ id | .addRefNew id => some id
  | _ => none

/-- The handle and the chunk that the next step of a thread copies into, or whose
`ref_count` it changes. -/
def Pc.touches : Pc → Option (ℕ × ℕ)
  | .rbCheckout h _ pc | .insertRb h _ _ _ pc => pc.touches.map fun id => (h, id)
  | .insertMemcpy h _ _ _ id | .insertRelease h _ _ _ id => some (h, id)
  | _ => none

theorem RbAt.serves_of_touches {r : ChunkBuffer} {cursor id : ℕ} {pc : RbPc}
    (h : RbAt r cursor pc) (htouch : pc.touches = some id) : Serves r cursor id := by
  cases pc with
  | addRefHead i =>
      cases htouch
      exact h
  | addRefNew i =>
      cases htouch
      exact h
  | storeRef head next i =>
      cases htouch
      exact h.2.2
  | _ => cases htouch

theorem PcRing.created_of_touches {ring : ℕ → ChunkBuffer} {pc : Pc} {h id : ℕ}
    (hpc : PcRing ring pc) (htouch : pc.touches = some (h, id)) : id < (ring h).created := by
  cases pc with
  | rbCheckout a cursor pc =>
      obtain ⟨i, hi, heq⟩ := Option.map_eq_some_iff.mp htouch
      cases heq
      exact (hpc.2.serves_of_touches hi).created
  | insertRb a data start written pc =>
      obtain ⟨i, hi, heq⟩ := Option.map_eq_some_iff.mp htouch
      cases heq
      exact (RbAt.serves_of_touches hpc hi).created
  | insertMemcpy a data start written i =>
      cases htouch
      exact Serves.created hpc
  | insertRelease a data start written i =>
      cases htouch
      exact Serves.created hpc
  | _ => cases htouch

theorem modifyChunk_chunks_of_ne {r : ChunkBuffer} {id i : ℕ} {g : ChunkInfo → ChunkInfo}
    (h : i ≠ id) : (r.modifyChunk id g).chunks i = r.chunks i := by
  simp [ChunkBuffer.modifyChunk, Function.update_of_ne h]

theorem cleanChunks_refCount (r : ChunkBuffer) (pc : CleanPc) (i : ℕ) :
    ((cleanChunks r pc).1.chunks i).refCount = (r.chunks i).refCount := by
  have hmodify : ∀ id (g : ChunkInfo → ChunkInfo), (∀ c, (g c).refCount = c.refCount) →
      ((r.modifyChunk id g).chunks i).refCount = (r.chunks i).refCount := by
    intro id g hg
    by_cases hi : i = id
    · subst hi
      simpa [ChunkBuffer.modifyChunk] using hg (r.chunks i)
    · rw [modifyChunk_chunks_of_ne hi]
  cases pc with
  | loadTail => rfl
  | loadHead tail => cases tail <;> rfl
  | loadSlot tail head =>
      simp only [cleanChunks]
      split
      · split <;> rfl
      · rfl
  | loadRef tail id =>
      simp only [cleanChunks]
      split <;> rfl
  | casTail tail id =>
      simp only [cleanChunks]
      split <;> rfl
  | munmap id => exact hmodify id (fun c => { c with isMapped := false }) fun _ => rfl
  | free id => exact hmodify id (fun c => { c with isFreed := true }) fun _ => rfl

theorem mmlogRbCheckout_refCount {cs cursor i : ℕ} {r : ChunkBuffer} {errno : MmlogErr}
    {o : Outcome} {pc : RbPc} (hi : i < r.created) (htouch : pc.touches ≠ some i) :
    ((mmlogRbCheckout cs cursor r errno o pc).1.chunks i).refCount =
      (r.chunks i).refCount := by
  have hne : ∀ id, pc.touches = some id → i ≠ id := by
    rintro id hid rfl
    exact htouch hid
  cases pc with
  | lock =>
      simp only [mmlogRbCheckout]
      split <;> rfl
  | retry => cases o <;> rfl
  | loadSlot head tail =>
      simp only [mmlogRbCheckout]
      split
      · split <;> rfl
      · rfl
  | addRefHead id =>
      simp only [mmlogRbCheckout, ChunkBuffer.addRef, modifyChunk_chunks_of_ne (hne id rfl)]
  | addRefNew id =>
      simp only [mmlogRbCheckout, ChunkBuffer.addRef, modifyChunk_chunks_of_ne (hne id rfl)]
  | storeRef head next id =>
      simp only [mmlogRbCheckout, modifyChunk_chunks_of_ne (hne id rfl)]
  | clean pc => exact cleanChunks_refCount r pc i
  | reloadTail head =>
      simp only [mmlogRbCheckout]
      split <;> rfl
  | calloc head next => cases o <;> rfl
  | mmap head next =>
      cases o with
      | succeed => simp [mmlogRbCheckout, ChunkBuffer.mapChunk, Nat.ne_of_lt hi]
      | fail => rfl
      | short n => rfl
  | casHead head next id =>
      simp only [mmlogRbCheckout]
      split <;> rfl
  | _ => rfl

theorem touches_of_rb {pc : Pc} {h cursor : ℕ} {rpc : RbPc}
    (hpc : pc.rb? = some (h, cursor, rpc)) : pc.touches = rpc.touches.map fun id => (h, id) := by
  cases pc with
  | rbCheckout a c p =>
      cases hpc
      rfl
  | insertRb a data start written p =>
      cases hpc
      rfl
  | _ => cases hpc

/-- Only a step that touches an existing chunk changes its `ref_count`. -/
theorem threadStep_refCount {s : Log} {th : Thread} {o : Outcome} {h i : ℕ}
    (hi : i < (s.ring h).created) (htouch : th.pc.touches ≠ some (h, i)) :
    (((threadStep s th o).1.ring h).chunks i).refCount = ((s.ring h).chunks i).refCount := by
  cases hrb : th.pc.rb? with
  | none =>
      cases threadStep_ring (s := s) (o := o) hrb with
      | @clean a pc _ _ hring =>
          rw [hring]
          by_cases ha : h = a
          · subst ha
            rw [Function.update_self, cleanChunks_refCount]
          · rw [Function.update_of_ne ha]
      | @release a data start written id _ hpc hring =>
          rw [hring]
          by_cases ha : h = a
          · subst ha
            have hne : i ≠ id := by
              rintro rfl
              exact htouch (by rw [hpc]; rfl)
            rw [Function.update_self, ChunkBuffer.subRef, modifyChunk_chunks_of_ne hne]
          · rw [Function.update_of_ne ha]
      | quiet hring => rw [hring]
  | some p =>
      obtain ⟨a, cursor, pc⟩ := p
      rw [(threadStep_rb hrb).1]
      by_cases ha : h = a
      · subst ha
        rw [Log.setRing_ring_self]
        apply mmlogRbCheckout_refCount hi
        intro hpc
        exact htouch (by rw [touches_of_rb hrb, hpc]; rfl)
      · rw [Log.setRing_ring_of_ne _ _ ha]

/-- Whenever a thread is about to copy into a chunk or to change its `ref_count`, the
chunk is mapped and not freed. -/
theorem reclamation_safety (cfg : Config) (programs : List (List Call)) (sched : Schedule)
    (t h id : ℕ)
    (htouch : ((reached cfg programs sched).thread t).pc.touches = some (h, id)) :
    (((reached cfg programs sched).shared.ring h).chunks id).isMapped = true ∧
      (((reached cfg programs sched).shared.ring h).chunks id).isFreed = false := by
  have hinv := ringInv_reached cfg programs sched
  have hlive := (hinv.ok h).live id ((hinv.point t).point.created_of_touches htouch)
  exact ⟨hlive.mapped, hlive.notFreed⟩

/-- One record of one byte, stopped right before its copy. -/
theorem reclamation_safety_first_copy :
    (((reached Config.least [[.insert (some 0) (some ⟨1, fun _ => 7⟩)]]
        (List.replicate 14 (0, .succeed))).shared.ring 0).chunks 0).isMapped = true ∧
      (((reached Config.least [[.insert (some 0) (some ⟨1, fun _ => 7⟩)]]
        (List.replicate 14 (0, .succeed))).shared.ring 0).chunks 0).isFreed = false :=
  reclamation_safety Config.least [[.insert (some 0) (some ⟨1, fun _ => 7⟩)]]
    (List.replicate 14 (0, .succeed)) 0 0 0 rfl

/-! ## Returning from `mmlog_rb_checkout` -/

/-- With its next step the thread returns `v` from `mmlog_rb_checkout(h, cursor)`. -/
def RbReturns (s : System) (t : ℕ) (o : Outcome) (h cursor : ℕ) (v : Option ℕ) : Prop :=
  ∃ pc, (s.thread t).pc.rb? = some (h, cursor, pc) ∧
    (mmlogRbCheckout s.shared.metadata.chunkSize cursor (s.shared.ring h) (s.thread t).errno
      o pc).2.2 = .done v

/-- The thread is inside one call `mmlog_rb_checkout(h, cursor)`. -/
def InRb (t h cursor : ℕ) (s : System) (_ : ℕ) (_ : Outcome) : Prop :=
  ∃ pc, (s.thread t).pc.rb? = some (h, cursor, pc)

/-- The head and the slot it points to are the same in both rings. -/
structure HeadKept (r r' : ChunkBuffer) : Prop where
  head : r'.head = r.head
  slot : ∀ i, r.head = some i → r'.buffer i = r.buffer i

theorem HeadKept.refl (r : ChunkBuffer) : HeadKept r r := ⟨rfl, fun _ _ => rfl⟩

theorem SameHead.headKept {r r' : ChunkBuffer} (h : SameHead r r') : HeadKept r r' :=
  ⟨h.head, fun _ _ => by rw [h.buffer]⟩

/-- The points from which NULL may still be returned. -/
def RbPc.mayFail : RbPc → Prop
  | .addRefHead _ | .unlockHead _ | .storeRef _ _ _ | .storeSlot _ _ _ | .casHead _ _ _
  | .unlockNew _ | .addRefNew _ => False
  | _ => True

/-- Past the last failure, every way leads to a chunk. -/
theorem mmlogRbCheckout_of_not_mayFail (cs cursor : ℕ) (r : ChunkBuffer) (errno : MmlogErr)
    (o : Outcome) {pc : RbPc} (h : ¬ pc.mayFail) :
    (∃ id, (mmlogRbCheckout cs cursor r errno o pc).2.2 = .done (some id)) ∨
      ∃ pc', (mmlogRbCheckout cs cursor r errno o pc).2.2 = .goto pc' ∧ ¬ pc'.mayFail := by
  cases pc with
  | addRefHead id => exact .inr ⟨_, rfl, not_false⟩
  | unlockHead id => exact .inl ⟨id, rfl⟩
  | storeRef head next id => exact .inr ⟨_, rfl, not_false⟩
  | storeSlot head next id => exact .inr ⟨_, rfl, not_false⟩
  | casHead head next id =>
      simp only [mmlogRbCheckout]
      split
      · exact .inr ⟨_, rfl, not_false⟩
      · exact .inr ⟨_, rfl, not_false⟩
  | unlockNew id => exact .inr ⟨_, rfl, not_false⟩
  | addRefNew id => exact .inl ⟨id, rfl⟩
  | _ => exact (h trivial).elim

theorem getNextHeadPtr_ne {r : ChunkBuffer} (hcap : 2 ≤ r.capacity) (head : ℕ) :
    head ≠ r.getNextHeadPtr head := by
  intro heq
  have hlt : head < r.capacity := by
    rw [heq]
    exact Nat.mod_lt _ (by omega)
  unfold ChunkBuffer.getNextHeadPtr at heq
  by_cases hwrap : head + 1 = r.capacity
  · rw [hwrap, Nat.mod_self] at heq
    omega
  · rw [Nat.mod_eq_of_lt (by omega)] at heq
    omega

/-- A step from which NULL may still be returned leaves the head and its slot alone. -/
theorem mmlogRbCheckout_headKept {cs count cursor : ℕ} {r : ChunkBuffer} (errno : MmlogErr)
    (o : Outcome) {pc : RbPc} (h : RingOk cs count r) (hcount : 2 ≤ count)
    (hpc : RbAt r cursor pc) (hfail : pc.mayFail) :
    HeadKept r (mmlogRbCheckout cs cursor r errno o pc).1 := by
  cases pc with
  | lock =>
      simp only [mmlogRbCheckout]
      split
      · exact HeadKept.refl r
      · exact ⟨rfl, fun _ _ => rfl⟩
  | retry => cases o <;> exact HeadKept.refl r
  | loadHead => exact HeadKept.refl r
  | loadTail head => exact HeadKept.refl r
  | loadSlot head tail =>
      simp only [mmlogRbCheckout]
      split
      · split <;> exact HeadKept.refl r
      · exact HeadKept.refl r
  | calloc head next => cases o <;> exact HeadKept.refl r
  | mmap head next => cases o <;> exact ⟨rfl, fun _ _ => rfl⟩
  | clearSlot next =>
      obtain ⟨head, hhead, hnext⟩ := hpc
      refine ⟨rfl, fun i hi => ?_⟩
      rw [hhead] at hi
      cases hi
      -- the slot that is cleared is the one after the head
      have hne := getNextHeadPtr_ne (by rw [h.capacity]; exact hcount) head
      rw [← hnext] at hne
      simp [mmlogRbCheckout, ChunkBuffer.setSlot, Function.update_of_ne hne]
  | unlockFailed => exact ⟨rfl, fun _ _ => rfl⟩
  | clean pc => exact hpc.elim
  | reloadHead => exact hpc.elim
  | reloadTail head => exact hpc.elim
  | addRefHead id => exact hfail.elim
  | unlockHead id => exact hfail.elim
  | storeRef head next id => exact hfail.elim
  | storeSlot head next id => exact hfail.elim
  | casHead head next id => exact hfail.elim
  | unlockNew id => exact hfail.elim
  | addRefNew id => exact hfail.elim

/-- The steps of the thread itself, and those of anyone while it holds the lock, leave the
head and its slot alone. -/
def KeepsHead (t h : ℕ) (s : System) (u : ℕ) (o : Outcome) : Prop :=
  u = t ∨ HoldsHead h (s.thread t) →
    HeadKept (s.shared.ring h) ((step threadStep s u o).shared.ring h)

theorem RingInv.keepsHead {cfg : Config} {s : System} (hinv : RingInv cfg s) {t h cursor : ℕ}
    {pc : RbPc} (hpc : (s.thread t).pc.rb? = some (h, cursor, pc)) (hfail : pc.mayFail)
    (u : ℕ) (o : Outcome) : KeepsHead t h s u o := by
  intro hor
  by_cases hu : u = t
  · subst hu
    rw [step_shared, (threadStep_rb hpc).1, Log.setRing_ring_self, hinv.chunkSize]
    exact mmlogRbCheckout_headKept _ o (hinv.ok h) (cfg.two_le_chunkCount h)
      ((hinv.point u).point.rbAt hpc).2 hfail
  · have hin : HoldsHead h (s.thread t) := hor.resolve_left hu
    have hout := (hinv.exclusive h).1.keep_of_other hin (Ne.symm hu)
    exact ((hinv.stepRing u o).same h hout).headKept

/-- A call that is going to return NULL is, all along, at a point that may still fail. -/
theorem failing_call {cfg : Config} {t h cursor : ℕ} {o : Outcome} (mid : Schedule)
    {s : System} (hinv : RingInv cfg s) (hmid : AllSteps threadStep (InRb t h cursor) s mid)
    (hret : RbReturns (run threadStep s mid) t o h cursor none) :
    (∃ pc, (s.thread t).pc.rb? = some (h, cursor, pc) ∧ pc.mayFail) ∧
      AllSteps threadStep (KeepsHead t h) s (mid ++ [(t, o)]) := by
  induction mid generalizing s with
  | nil =>
      obtain ⟨pc, hpc, hdone⟩ := hret
      have hfail : pc.mayFail := by
        by_contra hno
        rcases mmlogRbCheckout_of_not_mayFail _ _ _ _ _ hno with ⟨id, heq⟩ | ⟨pc', heq, _⟩
        · cases hdone.symm.trans heq
        · cases hdone.symm.trans heq
      exact ⟨⟨pc, hpc, hfail⟩, hinv.keepsHead hpc hfail t o, trivial⟩
  | cons m rest ih =>
      obtain ⟨u, o'⟩ := m
      obtain ⟨⟨pc, hpc⟩, hrest⟩ := hmid
      obtain ⟨⟨pc', hpc', hfail'⟩, hkeep⟩ := ih (ringInv_step s u o' hinv) hrest hret
      have hfail : pc.mayFail := by
        by_cases hu : u = t
        · subst hu
          by_contra hno
          rw [step_thread_self, (threadStep_rb hpc).2] at hpc'
          rcases mmlogRbCheckout_of_not_mayFail s.shared.metadata.chunkSize cursor
            (s.shared.ring h) (s.thread u).errno o' hno with ⟨id, heq⟩ | ⟨pc'', heq, hno'⟩
          · rw [heq] at hpc'
            cases hpc'
          · rw [heq] at hpc'
            cases hpc'
            exact hno' hfail'
        · rw [step_thread_of_ne threadStep s o' (Ne.symm hu), hpc] at hpc'
          cases hpc'
          exact hfail'
      exact ⟨⟨pc, hpc, hfail⟩, hinv.keepsHead hpc hfail u o', hkeep⟩

theorem RbReturns.not_holdsHead {s : System} {t h cursor : ℕ} {o : Outcome} {v : Option ℕ}
    (hret : RbReturns s t o h cursor v) :
    ¬ HoldsHead h ((step threadStep s t o).thread t) := by
  obtain ⟨pc, hpc, hdone⟩ := hret
  have hnext := (threadStep_rb (s := s.shared) (o := o) hpc).2
  rw [hdone] at hnext
  rw [step_thread_self]
  exact not_holdsHead_of_none hnext

theorem RingInv.serves_of_returns {cfg : Config} {s : System} (hinv : RingInv cfg s)
    {t h cursor id : ℕ} {o : Outcome} (hret : RbReturns s t o h cursor (some id)) :
    Serves ((step threadStep s t o).shared.ring h) cursor id := by
  obtain ⟨pc, hpc, hdone⟩ := hret
  obtain ⟨hcur, hat⟩ := (hinv.point t).point.rbAt hpc
  have hstep := mmlogRbCheckout_ring (s.thread t).errno o cfg.chunkSize_pos
    (cfg.two_le_chunkCount h) hcur (hinv.ok h) hat
  rw [hinv.chunkSize] at hdone
  rw [step_shared, (threadStep_rb hpc).1, Log.setRing_ring_self, hinv.chunkSize]
  exact hstep.serves id hdone

/-- The head lock of every ring, in every run: at most one thread is inside, and the flag
is up exactly while one is; the compare-exchange on the head finds what it expects; every
return has given the lock back; a call that returns NULL never moved the head nor its
slot; and the chunk that a call returns contains the cursor. -/
theorem ring_mutual_exclusion (cfg : Config) (programs : List (List Call)) (sched : Schedule)
    (h : ℕ) :
    (∀ t u, HoldsHead h ((reached cfg programs sched).thread t) →
        HoldsHead h ((reached cfg programs sched).thread u) → t = u) ∧
      (((reached cfg programs sched).shared.ring h).headLocked = true ↔
        ∃! t, HoldsHead h ((reached cfg programs sched).thread t)) ∧
      (∀ t cursor head next id,
        ((reached cfg programs sched).thread t).pc.rb? =
          some (h, cursor, .casHead head next id) →
        ((reached cfg programs sched).shared.ring h).head = some head) ∧
      (∀ t o cursor v, RbReturns (reached cfg programs sched) t o h cursor v →
        ¬ HoldsHead h ((step threadStep (reached cfg programs sched) t o).thread t)) ∧
      (∀ t o, HoldsHead h ((reached cfg programs sched).thread t) →
        ¬ HoldsHead h ((step threadStep (reached cfg programs sched) t o).thread t) →
        ((step threadStep (reached cfg programs sched) t o).shared.ring h).headLocked =
          false) ∧
      (∀ t o cursor mid,
        AllSteps threadStep (InRb t h cursor) (reached cfg programs sched) mid →
        RbReturns (run threadStep (reached cfg programs sched) mid) t o h cursor none →
        AllSteps threadStep (KeepsHead t h) (reached cfg programs sched)
          (mid ++ [(t, o)])) ∧
      ∀ t o cursor id, RbReturns (reached cfg programs sched) t o h cursor (some id) →
        let chunk :=
          ((step threadStep (reached cfg programs sched) t o).shared.ring h).chunks id
        chunk.startOffset ≤ cursor ∧ cursor < chunk.startOffset + chunk.size := by
  have hinv := ringInv_reached cfg programs sched
  refine ⟨(hinv.exclusive h).1.unique, (hinv.exclusive h).2, ?_, ?_, ?_, ?_, ?_⟩
  · intro t cursor head next id hpc
    exact ((hinv.point t).point.rbAt hpc).2.1
  · intro t o cursor v hret
    exact hret.not_holdsHead
  · intro t o hin hout
    rw [step_thread_self] at hout
    exact threadStep_leaves_head hin hout
  · intro t o cursor mid hmid hret
    exact (failing_call mid hinv hmid hret).2
  · intro t o cursor id hret
    have hserves := hinv.serves_of_returns hret
    exact ⟨hserves.start_le, hserves.lt_end⟩

/-- A call that runs out of memory is about to return NULL. -/
example : RbReturns (reached Config.least [[.rbCheckout (some 0) 0]]
    (List.replicate 5 (0, .succeed) ++ [(0, .fail), (0, .succeed)])) 0 .succeed 0 0 none :=
  ⟨.unlockFailed, rfl, rfl⟩

end SystemsExperiments.Mmlog
