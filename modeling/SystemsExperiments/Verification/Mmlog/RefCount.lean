import SystemsExperiments.Verification.Mmlog.RingSafety

/-! # Reference counts

`create_chunk_at_cursor` starts a chunk with one reference, and `mmlog_rb_checkout` adds
one for its caller, which `write_to_chunk` gives back. Nobody gives the first one back, so
a chunk that no thread uses is left with a count of one. -/

namespace SystemsExperiments.Mmlog

open Interleaving

/-! ## Programs -/

/-- A call that never hands a chunk to its caller. -/
def Call.keepsChunks : Call → Bool
  | .rbCheckout _ _ => false
  | _ => true

/-- A thread that calls `mmlog_rb_checkout` through `write_to_chunk` only. -/
structure WritesOnly (th : Thread) : Prop where
  point : ∀ h cursor pc, th.pc ≠ .rbCheckout h cursor pc
  todo : ∀ call ∈ th.todo, call.keepsChunks = true

/-- The thread is inside `write_to_chunk`. -/
def Pc.inWriteToChunk : Pc → Prop
  | .insertRb _ _ _ _ _ | .insertMemcpy _ _ _ _ _ | .insertRelease _ _ _ _ _ => True
  | _ => False

theorem WritesOnly.start {th : Thread} {call : Call} (hcall : call.keepsChunks = true)
    (htodo : ∀ call ∈ th.todo, call.keepsChunks = true) : WritesOnly (th.start call) := by
  unfold Thread.start
  split
  all_goals try split
  all_goals first | exact (Bool.noConfusion hcall) | exact ⟨by rintro _ _ _ ⟨⟩, htodo⟩

theorem WritesOnly.call_ne {th : Thread} (hth : WritesOnly th) (h cursor : ℕ) :
    th.pc.call? ≠ some (.rbCheckout (some h) cursor) := by
  intro hcall
  cases hpc : th.pc with
  | rbCheckout a cursor' pc => exact hth.point a cursor' pc hpc
  | _ =>
      rw [hpc] at hcall
      cases hcall

theorem threadStep_writesOnly (s : Log) {th : Thread} (o : Outcome) (hth : WritesOnly th) :
    WritesOnly (threadStep s th o).2 := by
  have hgoes := threadStep_goes s th o
  generalize (threadStep s th o).2 = th' at hgoes ⊢
  cases hgoes with
  | rest _ => exact hth
  | start call rest _ htodo =>
      have hkeeps : ∀ c ∈ call :: rest, c.keepsChunks = true := htodo ▸ hth.todo
      exact WritesOnly.start (hkeeps call List.mem_cons_self)
        fun c hc => hkeeps c (List.mem_cons_of_mem _ hc)
  | goto pc errno hcall =>
      refine ⟨?_, hth.todo⟩
      rintro h cursor pc' rfl
      exact hth.call_ne h cursor hcall.symm
  | finish call v errno _ => exact ⟨by rintro _ _ _ ⟨⟩, hth.todo⟩

/-! ## References held by a thread -/

/-- The chunk that a thread inside `mmlog_rb_checkout` has in hand, once it is set up. -/
def RbPc.uses? : RbPc → Option ℕ
  | .addRefHead id | .unlockHead id | .storeSlot _ _ id | .casHead _ _ id | .unlockNew id
  | .addRefNew id => some id
  | _ => none

/-- The handle and the number of the chunk that a thread of inserts has in hand. -/
def Pc.uses? : Pc → Option (ℕ × ℕ)
  | .insertRb h _ _ _ pc => pc.uses?.map fun id => (h, id)
  | .insertMemcpy h _ _ _ id | .insertRelease h _ _ _ id => some (h, id)
  | _ => none

/-- The chunk whose count is yet to be stored by the thread that maps it. -/
def RbPc.maps? : RbPc → Option ℕ
  | .storeRef _ _ id => some id
  | _ => none

def Pc.maps? : Pc → Option (ℕ × ℕ)
  | .insertRb h _ _ _ pc => pc.maps?.map fun id => (h, id)
  | _ => none

/-- The reference to the chunk that the point owns: it was added and not given back. -/
def RbPc.refs (id : ℕ) : RbPc → ℕ
  | .unlockHead i => if i = id then 1 else 0
  | _ => 0

def Pc.refs (h id : ℕ) : Pc → ℕ
  | .insertRb a _ _ _ pc => if a = h then pc.refs id else 0
  | .insertMemcpy a _ _ _ i | .insertRelease a _ _ _ i => if a = h ∧ i = id then 1 else 0
  | _ => 0

def Next.refs (id : ℕ) : Next RbPc (Option ℕ) → ℕ
  | .goto pc => pc.refs id
  | .done (some i) => if i = id then 1 else 0
  | .done none => 0

theorem Pc.refs_eq_zero {pc : Pc} (hpc : ¬ pc.inWriteToChunk) (h id : ℕ) :
    pc.refs h id = 0 := by
  cases pc with
  | insertRb a data start written pc => exact (hpc trivial).elim
  | insertMemcpy a data start written i => exact (hpc trivial).elim
  | insertRelease a data start written i => exact (hpc trivial).elim
  | _ => rfl

/-- How a step changes the count of a chunk and the references of the thread that moves. -/
inductive RefMove (count : ℕ) : ℕ → ℕ → ℕ → Prop where
  | keep (refs : ℕ) : RefMove count refs count refs
  | add : RefMove count 0 (u32 (count + 1)) 1
  | sub : RefMove count 1 (u32 (count + (2 ^ 32 - 1))) 0

theorem RefMove.of_eq {count refs count' refs' : ℕ} (hcount : count' = count)
    (hrefs : refs' = refs) : RefMove count refs count' refs' := by
  subst hcount hrefs
  exact .keep _

/-- A count of one more than all references goes on being that. -/
theorem RefMove.balance {count refs count' refs' total total' : ℕ}
    (h : RefMove count refs count' refs') (hcount : count = u32 (1 + total))
    (htotal : total' + refs = total + refs') : count' = u32 (1 + total') := by
  simp only [u32] at hcount
  cases h with
  | keep =>
      simp only [u32]
      omega
  | add =>
      simp only [u32]
      omega
  | sub =>
      simp only [u32]
      omega

theorem addRef_refCount (r : ChunkBuffer) (id : ℕ) :
    ((r.addRef id).chunks id).refCount = u32 ((r.chunks id).refCount + 1) := by
  simp [ChunkBuffer.addRef, ChunkBuffer.modifyChunk]

theorem subRef_refCount (r : ChunkBuffer) (id : ℕ) :
    ((r.subRef id).chunks id).refCount = u32 ((r.chunks id).refCount + (2 ^ 32 - 1)) := by
  simp [ChunkBuffer.subRef, ChunkBuffer.modifyChunk]

theorem addNewChunk_refs (r : ChunkBuffer) (head : ℕ) (tail : Option ℕ) (id : ℕ) :
    (addNewChunk r head tail).refs id = 0 := by
  unfold addNewChunk
  simp only
  split
  · split <;> rfl
  · split <;> rfl

theorem mmlogRbCheckout_refMove (cs cursor : ℕ) {id : ℕ} {r : ChunkBuffer} (errno : MmlogErr)
    (o : Outcome) {pc : RbPc} (hid : id < r.created) (hmaps : pc.maps? ≠ some id) :
    RefMove (r.chunks id).refCount (pc.refs id)
      ((mmlogRbCheckout cs cursor r errno o pc).1.chunks id).refCount
      ((mmlogRbCheckout cs cursor r errno o pc).2.2.refs id) := by
  by_cases htouch : pc.touches = some id
  · cases pc with
    | addRefHead i =>
        cases htouch
        simp only [mmlogRbCheckout, addRef_refCount, Next.refs, RbPc.refs, if_true]
        exact .add
    | addRefNew i =>
        cases htouch
        simp only [mmlogRbCheckout, addRef_refCount, Next.refs, RbPc.refs, if_true]
        exact .add
    | storeRef head next i => exact (hmaps htouch).elim
    | _ => cases htouch
  · refine .of_eq (mmlogRbCheckout_refCount hid htouch) ?_
    cases pc with
    | lock =>
        simp only [mmlogRbCheckout]
        split <;> rfl
    | retry => cases o <;> rfl
    | loadSlot head tail =>
        simp only [mmlogRbCheckout]
        split
        · split
          · rfl
          · exact addNewChunk_refs r head tail id
        · exact addNewChunk_refs r head tail id
    | addRefHead i =>
        have hne : i ≠ id := fun heq => htouch (by rw [heq]; rfl)
        exact if_neg hne
    | addRefNew i =>
        have hne : i ≠ id := fun heq => htouch (by rw [heq]; rfl)
        exact if_neg hne
    | clean pc =>
        simp only [mmlogRbCheckout]
        split <;> rfl
    | reloadTail head =>
        simp only [mmlogRbCheckout]
        split <;> rfl
    | calloc head next => cases o <;> rfl
    | mmap head next => cases o <;> rfl
    | casHead head next i =>
        simp only [mmlogRbCheckout]
        split <;> rfl
    | _ => rfl

/-- The thread has no chunk in hand: it is outside `write_to_chunk`, or at its start. -/
def Pc.NoChunk : Pc → Prop
  | .insertRb _ _ _ _ pc => pc = .lock
  | .insertMemcpy _ _ _ _ _ | .insertRelease _ _ _ _ _ => False
  | _ => True

theorem Pc.NoChunk.refs {pc : Pc} (hpc : pc.NoChunk) (h id : ℕ) : pc.refs h id = 0 := by
  cases pc with
  | insertRb a data start written pc =>
      cases hpc
      exact ite_self 0
  | insertMemcpy a data start written i => exact hpc.elim
  | insertRelease a data start written i => exact hpc.elim
  | _ => rfl

theorem Pc.NoChunk.uses {pc : Pc} (hpc : pc.NoChunk) : pc.uses? = none := by
  cases pc with
  | insertRb a data start written pc =>
      cases hpc
      rfl
  | insertMemcpy a data start written i => exact hpc.elim
  | insertRelease a data start written i => exact hpc.elim
  | _ => rfl

theorem noChunk_insertLoop (th : Thread) (a : ℕ) (data : Payload) (start w : ℕ) :
    (th.insertLoop a data start w).pc.NoChunk := by
  unfold Thread.insertLoop
  split
  · rfl
  · trivial

theorem noChunk_start (th : Thread) (call : Call) : (th.start call).pc.NoChunk := by
  unfold Thread.start
  split <;> first | trivial | (split <;> trivial)

/-- A thread outside `write_to_chunk` gets no chunk by one step. -/
theorem threadStep_noChunk (s : Log) {th : Thread} (o : Outcome)
    (hout : ¬ th.pc.inWriteToChunk) : (threadStep s th o).2.pc.NoChunk := by
  obtain ⟨p, errno, todo, results⟩ := th
  cases p with
  | idle =>
      cases todo with
      | nil => trivial
      | cons call rest => exact noChunk_start _ call
  | checkout a size pc =>
      simp only [threadStep]
      split <;> trivial
  | rbCheckout a cursor pc =>
      simp only [threadStep]
      split <;> trivial
  | clean a pc =>
      simp only [threadStep]
      split <;> trivial
  | insertCheckout a data pc =>
      simp only [threadStep]
      split
      · trivial
      · split
        · trivial
        · split
          · trivial
          · exact noChunk_insertLoop _ _ _ _ _
  | insertPwrite a data start =>
      simp only [threadStep]
      split <;> trivial
  | insertClean a data start pc =>
      simp only [threadStep]
      split <;> trivial
  | trimLoad a => trivial
  | trimFtruncate a cursor => cases o <;> trivial
  | _ => exact (hout trivial).elim

theorem WritesOnly.touches_eq_none {th : Thread} (hth : WritesOnly th)
    (hout : ¬ th.pc.inWriteToChunk) : th.pc.touches = none := by
  obtain ⟨p, errno, todo, results⟩ := th
  cases p with
  | rbCheckout a cursor pc => exact (hth.point a cursor pc rfl).elim
  | insertRb a data start written pc => exact (hout trivial).elim
  | insertMemcpy a data start written i => exact (hout trivial).elim
  | insertRelease a data start written i => exact (hout trivial).elim
  | _ => rfl

/-- Every step but the store of the first count moves a count together with the references
of the thread. -/
theorem threadStep_refMove {s : Log} {th : Thread} {o : Outcome} {h id : ℕ}
    (hth : WritesOnly th) (hid : id < (s.ring h).created)
    (hmaps : th.pc.maps? ≠ some (h, id)) :
    RefMove ((s.ring h).chunks id).refCount (th.pc.refs h id)
      (((threadStep s th o).1.ring h).chunks id).refCount
      ((threadStep s th o).2.pc.refs h id) := by
  by_cases hin : th.pc.inWriteToChunk
  · obtain ⟨p, errno, todo, results⟩ := th
    cases p with
    | insertRb a data start written pc =>
        simp only [threadStep]
        by_cases ha : a = h
        · subst ha
          have hmine : pc.maps? ≠ some id := fun heq => hmaps (by simp [Pc.maps?, heq])
          have hmove := mmlogRbCheckout_refMove s.metadata.chunkSize
            (currentCursor start written) errno o hid hmine
          have hbefore : (Pc.insertRb a data start written pc).refs a id = pc.refs id := if_pos rfl
          rw [Log.setRing_ring_self, hbefore]
          revert hmove
          generalize (mmlogRbCheckout s.metadata.chunkSize (currentCursor start written)
            (s.ring a) errno o pc).2.2 = n
          intro hmove
          cases n with
          | goto pc' => simpa [Thread.goto, Pc.refs, Next.refs] using hmove
          | done v =>
              cases v with
              | none => exact hmove
              | some i => simpa [Thread.goto, Pc.refs, Next.refs] using hmove
        · rw [Log.setRing_ring_of_ne _ _ (Ne.symm ha)]
          refine .of_eq rfl ?_
          split <;> simp [Thread.goto, Thread.finish, Pc.refs, ha]
    | insertMemcpy a data start written i => exact .keep _
    | insertRelease a data start written i =>
        have hafter := (noChunk_insertLoop ⟨.insertRelease a data start written i, errno, todo,
          results⟩ a data start (u64 (written + bytesToWrite start data.size written
            s.metadata.chunkSize))).refs h id
        by_cases ha : a = h ∧ i = id
        · obtain ⟨rfl, rfl⟩ := ha
          simp only [threadStep, hafter, Log.setRing_ring_self, subRef_refCount]
          simp only [Pc.refs, and_self, if_true]
          exact .sub
        · have htouch : (Pc.insertRelease a data start written i).touches ≠ some (h, id) := by
            intro heq
            simp only [Pc.touches, Option.some.injEq, Prod.mk.injEq] at heq
            exact ha heq
          refine .of_eq (threadStep_refCount hid htouch) ?_
          simp only [threadStep, hafter]
          simp only [Pc.refs, if_neg ha]
    | _ => exact hin.elim
  · refine .of_eq (threadStep_refCount hid ?_) ?_
    · rw [hth.touches_eq_none hin]
      simp
    · rw [(threadStep_noChunk s o hin).refs h id, Pc.refs_eq_zero hin]

/-! ## The chunk that is being set up -/

def Next.uses? : Next RbPc (Option ℕ) → Option ℕ
  | .goto pc => pc.uses?
  | .done v => v

theorem refs_of_uses {pc : Pc} {h id : ℕ} (huse : pc.uses? ≠ some (h, id)) :
    pc.refs h id = 0 := by
  have hne : ∀ a i, pc.uses? = some (a, i) → ¬ (a = h ∧ i = id) := by
    rintro a i heq ⟨rfl, rfl⟩
    exact huse heq
  cases pc with
  | insertRb a data start written pc =>
      cases pc with
      | unlockHead i =>
          have hne := hne a i rfl
          simp only [Pc.refs, RbPc.refs]
          split
          · rename_i ha
            exact if_neg fun hi => hne ⟨ha, hi⟩
          · rfl
      | _ => exact ite_self 0
  | insertMemcpy a data start written i => exact if_neg (hne a i rfl)
  | insertRelease a data start written i => exact if_neg (hne a i rfl)
  | _ => rfl

theorem RbAt.created_of_uses {r : ChunkBuffer} {cursor id : ℕ} {pc : RbPc}
    (h : RbAt r cursor pc) (huse : pc.uses? = some id) : id < r.created := by
  cases pc with
  | addRefHead i =>
      cases huse
      exact Serves.created h
  | unlockHead i =>
      cases huse
      exact Serves.created h
  | unlockNew i =>
      cases huse
      exact Serves.created h
  | addRefNew i =>
      cases huse
      exact Serves.created h
  | storeSlot head next i =>
      cases huse
      exact h.2.2.created
  | casHead head next i =>
      cases huse
      exact h.2.2.created
  | _ => cases huse

theorem PcRing.created_of_uses {ring : ℕ → ChunkBuffer} {pc : Pc} {h id : ℕ}
    (hpc : PcRing ring pc) (huse : pc.uses? = some (h, id)) : id < (ring h).created := by
  cases pc with
  | insertRb a data start written pc =>
      obtain ⟨i, hi, heq⟩ := Option.map_eq_some_iff.mp huse
      cases heq
      exact RbAt.created_of_uses hpc hi
  | insertMemcpy a data start written i =>
      cases huse
      exact Serves.created hpc
  | insertRelease a data start written i =>
      cases huse
      exact Serves.created hpc
  | _ => cases huse

/-- A thread that sets up a chunk is about to store its first count. -/
theorem exists_of_maps {pc : Pc} {h id : ℕ} (hmaps : pc.maps? = some (h, id)) :
    ∃ data start written head next,
      pc = .insertRb h data start written (.storeRef head next id) := by
  cases pc with
  | insertRb a data start written pc =>
      obtain ⟨i, hi, heq⟩ := Option.map_eq_some_iff.mp hmaps
      cases heq
      cases pc with
      | storeRef head next i =>
          cases hi
          exact ⟨data, start, written, head, next, rfl⟩
      | _ => cases hi
  | _ => cases hmaps

theorem holdsHead_of_maps {th : Thread} {h id : ℕ} (hmaps : th.pc.maps? = some (h, id)) :
    HoldsHead h th := by
  obtain ⟨pc, errno, todo, results⟩ := th
  obtain ⟨data, start, written, head, next, rfl⟩ := exists_of_maps hmaps
  exact ⟨_, _, rfl, trivial⟩

/-- Outside the lock a thread gets hold of no chunk that it did not have. -/
theorem mmlogRbCheckout_uses {cs cursor id : ℕ} {r : ChunkBuffer} {errno : MmlogErr}
    {o : Outcome} {pc : RbPc} (hout : ¬ pc.holdsHead)
    (huse : (mmlogRbCheckout cs cursor r errno o pc).2.2.uses? = some id) :
    pc.uses? = some id := by
  cases pc with
  | lock =>
      simp only [mmlogRbCheckout] at huse
      split at huse <;> cases huse
  | retry => cases o <;> cases huse
  | addRefNew i => exact huse
  | _ => exact (hout trivial).elim

theorem threadStep_uses {s : Log} {th : Thread} {o : Outcome} {h id : ℕ}
    (huse : (threadStep s th o).2.pc.uses? = some (h, id)) :
    th.pc.uses? = some (h, id) ∨ HoldsHead h th := by
  by_cases hin : th.pc.inWriteToChunk
  · obtain ⟨p, errno, todo, results⟩ := th
    cases p with
    | insertRb a data start written pc =>
        have hnext : (mmlogRbCheckout s.metadata.chunkSize (currentCursor start written)
            (s.ring a) errno o pc).2.2.uses? = some id ∧ a = h := by
          simp only [threadStep] at huse
          generalize (mmlogRbCheckout s.metadata.chunkSize (currentCursor start written)
            (s.ring a) errno o pc).2.2 = n at huse ⊢
          cases n with
          | goto pc' =>
              obtain ⟨i, hi, heq⟩ := Option.map_eq_some_iff.mp huse
              cases heq
              exact ⟨hi, rfl⟩
          | done v =>
              cases v with
              | none => cases huse
              | some i =>
                  cases huse
                  exact ⟨rfl, rfl⟩
        obtain ⟨hnext, rfl⟩ := hnext
        by_cases hlocked : pc.holdsHead
        · exact .inr ⟨_, _, rfl, hlocked⟩
        · left
          simp only [Pc.uses?, mmlogRbCheckout_uses hlocked hnext, Option.map_some]
    | insertMemcpy a data start written i => exact .inl huse
    | insertRelease a data start written i =>
        simp only [threadStep, (noChunk_insertLoop _ _ _ _ _).uses] at huse
        cases huse
    | _ => exact hin.elim
  · rw [(threadStep_noChunk s o hin).uses] at huse
    cases huse

def Next.maps? : Next RbPc (Option ℕ) → Option ℕ
  | .goto pc => pc.maps?
  | .done _ => none

/-- A step of the chunk checkout leaves the number of chunks as it is, or maps the next one
and is about to store its count. -/
theorem mmlogRbCheckout_created (cs : ℕ) {cursor : ℕ} {r : ChunkBuffer} (errno : MmlogErr)
    (o : Outcome) {pc : RbPc} (hpc : RbAt r cursor pc) :
    ((mmlogRbCheckout cs cursor r errno o pc).1.created = r.created ∧
        (mmlogRbCheckout cs cursor r errno o pc).2.2.maps? = none) ∨
      ((mmlogRbCheckout cs cursor r errno o pc).1.created = r.created + 1 ∧
        (mmlogRbCheckout cs cursor r errno o pc).2.2.maps? = some r.created) := by
  have hadd : ∀ head tail, (addNewChunk r head tail).maps? = none := by
    intro head tail
    unfold addNewChunk
    simp only
    split
    · split <;> rfl
    · split <;> rfl
  cases pc with
  | mmap head next =>
      cases o with
      | succeed => exact .inr ⟨rfl, rfl⟩
      | fail => exact .inl ⟨rfl, rfl⟩
      | short n => exact .inl ⟨rfl, rfl⟩
  | lock =>
      left
      simp only [mmlogRbCheckout]
      split <;> exact ⟨rfl, rfl⟩
  | retry => cases o <;> exact .inl ⟨rfl, rfl⟩
  | loadSlot head tail =>
      left
      simp only [mmlogRbCheckout]
      split
      · split
        · exact ⟨rfl, rfl⟩
        · exact ⟨rfl, hadd head tail⟩
      · exact ⟨rfl, hadd head tail⟩
  | clean pc => exact hpc.elim
  | reloadTail head => exact hpc.elim
  | calloc head next => cases o <;> exact .inl ⟨rfl, rfl⟩
  | casHead head next id =>
      left
      simp only [mmlogRbCheckout]
      split <;> exact ⟨rfl, rfl⟩
  | _ => exact .inl ⟨rfl, rfl⟩

/-- Elsewhere no chunk is mapped. -/
theorem threadStep_maps_of_rb_none {s : Log} {th : Thread} {o : Outcome}
    (hrb : th.pc.rb? = none) : (threadStep s th o).2.pc.maps? = none := by
  have henters := threadStep_enters_rb (s := s) (o := o) hrb
  generalize (threadStep s th o).2.pc = pc at henters
  cases pc with
  | insertRb a data start written pc =>
      rcases henters with hnone | ⟨h, cursor, hlock⟩
      · cases hnone
      · cases hlock
        rfl
  | _ => rfl

/-- The chunks of a ring grow by the one that the step maps. -/
theorem threadStep_created {cfg : Config} {s : Log} {th : Thread} (o : Outcome) (h : ℕ)
    (hcs : s.metadata.chunkSize = cfg.chunkSize) (ok : RingsOk cfg s.ring)
    (hat : RingAt s.ring th) (hth : WritesOnly th) :
    (((threadStep s th o).1.ring h).created = (s.ring h).created ∧
        ∀ id, (threadStep s th o).2.pc.maps? ≠ some (h, id)) ∨
      (((threadStep s th o).1.ring h).created = (s.ring h).created + 1 ∧
        (threadStep s th o).2.pc.maps? = some (h, (s.ring h).created)) := by
  by_cases hrb : th.pc.rb? = none
  · have hsame := (threadStep_rings (o := o) hcs ok hat).same h (not_holdsHead_of_none hrb)
    refine .inl ⟨hsame.created, fun id => ?_⟩
    rw [threadStep_maps_of_rb_none hrb]
    simp
  · obtain ⟨p, errno, todo, results⟩ := th
    cases p with
    | insertRb a data start written pc =>
        have hcreated := mmlogRbCheckout_created s.metadata.chunkSize errno o hat.point
        simp only [threadStep]
        by_cases ha : a = h
        · subst ha
          rw [Log.setRing_ring_self]
          revert hcreated
          generalize (mmlogRbCheckout s.metadata.chunkSize (currentCursor start written)
            (s.ring a) errno o pc).2.2 = n
          intro hcreated
          cases n with
          | goto pc' =>
              rcases hcreated with ⟨hsame, hnone⟩ | ⟨hnew, hmaps⟩
              · exact .inl ⟨hsame, fun id => by simp_all [Thread.goto, Pc.maps?, Next.maps?]⟩
              · exact .inr ⟨hnew, by simp_all [Thread.goto, Pc.maps?, Next.maps?]⟩
          | done v =>
              rcases hcreated with ⟨hsame, -⟩ | ⟨-, hmaps⟩
              · refine .inl ⟨hsame, fun id => ?_⟩
                cases v <;> simp [Thread.goto, Thread.finish, Pc.maps?]
              · cases hmaps
        · left
          rw [Log.setRing_ring_of_ne _ _ (Ne.symm ha)]
          refine ⟨rfl, fun id => ?_⟩
          split <;> simp [Thread.goto, Thread.finish, Pc.maps?, ha]
    | rbCheckout a cursor pc => exact (hth.point a cursor pc rfl).elim
    | _ => exact (hrb rfl).elim

theorem uses_of_maps {pc : Pc} {p : ℕ × ℕ} (hmaps : pc.maps? = some p) : pc.uses? = none := by
  obtain ⟨data, start, written, head, next, rfl⟩ := exists_of_maps hmaps
  rfl

theorem inWriteToChunk_of_maps {pc : Pc} {p : ℕ × ℕ} (hmaps : pc.maps? = some p) :
    pc.inWriteToChunk := by
  obtain ⟨data, start, written, head, next, rfl⟩ := exists_of_maps hmaps
  trivial

/-- The store of the first count. -/
theorem threadStep_stores_first {s : Log} {th : Thread} {o : Outcome} {h id : ℕ}
    (hmaps : th.pc.maps? = some (h, id)) :
    (((threadStep s th o).1.ring h).chunks id).refCount = 1 ∧
      (threadStep s th o).2.pc.refs h id = 0 := by
  obtain ⟨pc, errno, todo, results⟩ := th
  obtain ⟨data, start, written, head, next, rfl⟩ := exists_of_maps hmaps
  simp [threadStep, mmlogRbCheckout, ChunkBuffer.modifyChunk, Thread.goto, Pc.refs, RbPc.refs]

/-! ## Runs -/

/-- No thread has the chunk in hand whose count is yet to be stored. -/
def SetUpAlone (h : ℕ) (s : System) : Prop :=
  ∀ t u id, (s.thread t).pc.maps? = some (h, id) → (s.thread u).pc.uses? ≠ some (h, id)

/-- Each chunk that is set up counts one more than the references to it. -/
def Counted (n h : ℕ) (s : System) : Prop :=
  ∀ id < (s.shared.ring h).created, (∀ t, (s.thread t).pc.maps? ≠ some (h, id)) →
    ((s.shared.ring h).chunks id).refCount =
      u32 (1 + ∑ u ∈ Finset.range n, (s.thread u).pc.refs h id)

structure RefInv (cfg : Config) (n h : ℕ) (s : System) : Prop where
  ring : RingInv cfg s
  writes : ∀ t, WritesOnly (s.thread t)
  alone : SetUpAlone h s
  counted : Counted n h s

variable {cfg : Config} {n h : ℕ}

theorem setUpAlone_step {s : System} (t : ℕ) (o : Outcome) (hs : RefInv cfg n h s) :
    SetUpAlone h (step threadStep s t o) := by
  intro v u id hmaps huse
  have hnew := threadStep_created o h hs.ring.chunkSize hs.ring.ok (hs.ring.point t)
    (hs.writes t)
  by_cases hv : v = t
  · -- the mover has just mapped a chunk that nobody can know of
    subst hv
    rw [step_thread_self] at hmaps
    rcases hnew with ⟨-, hnone⟩ | ⟨-, hsome⟩
    · exact hnone id hmaps
    · by_cases hu : u = v
      · subst hu
        rw [step_thread_self, uses_of_maps hmaps] at huse
        cases huse
      · rw [step_thread_of_ne threadStep s o hu] at huse
        rw [hsome] at hmaps
        cases hmaps
        exact lt_irrefl _ ((hs.ring.point u).point.created_of_uses huse)
  · rw [step_thread_of_ne threadStep s o hv] at hmaps
    by_cases hu : u = t
    · subst hu
      rw [step_thread_self] at huse
      rcases threadStep_uses huse with huse | hin
      · exact hs.alone v u id hmaps huse
      · exact hv ((hs.ring.exclusive h).1.unique v u (holdsHead_of_maps hmaps) hin)
    · rw [step_thread_of_ne threadStep s o hu] at huse
      exact hs.alone v u id hmaps huse

theorem counted_step {s : System} {t : ℕ} (o : Outcome) (hs : RefInv cfg n h s) (ht : t < n) :
    Counted n h (step threadStep s t o) := by
  intro id hid hnobody
  have hnew := threadStep_created o h hs.ring.chunkSize hs.ring.ok (hs.ring.point t)
    (hs.writes t)
  by_cases hmaps : (s.thread t).pc.maps? = some (h, id)
  · obtain ⟨hone, hzero⟩ := threadStep_stores_first (s := s.shared) (o := o) hmaps
    have hsum : ∑ u ∈ Finset.range n, ((step threadStep s t o).thread u).pc.refs h id = 0 := by
      apply Finset.sum_eq_zero
      intro u _
      by_cases hu : u = t
      · subst hu
        rw [step_thread_self]
        exact hzero
      · rw [step_thread_of_ne threadStep s o hu]
        exact refs_of_uses (hs.alone t u id hmaps)
    rw [step_shared, hone, hsum]
    rfl
  · have hold : id < (s.shared.ring h).created := by
      rw [step_shared] at hid
      rcases hnew with ⟨hsame, -⟩ | ⟨hgrown, hsome⟩
      · rwa [hsame] at hid
      · have hne : id ≠ (s.shared.ring h).created := by
          rintro rfl
          exact hnobody t (by rw [step_thread_self]; exact hsome)
        omega
    have hbefore := hs.counted id hold ?_
    · have hmove := threadStep_refMove (o := o) (hs.writes t) hold hmaps
      exact hmove.balance hbefore (sum_step threadStep (fun th => th.pc.refs h id) s o ht)
    · intro u
      by_cases hu : u = t
      · subst hu
        exact hmaps
      · rw [← step_thread_of_ne threadStep s o hu]
        exact hnobody u

theorem refInv_step {s : System} {t : ℕ} (o : Outcome) (hs : RefInv cfg n h s) (ht : t < n) :
    RefInv cfg n h (step threadStep s t o) where
  ring := ringInv_step s t o hs.ring
  writes := step_forall threadStep (A := fun _ th => WritesOnly th)
    (threadStep_writesOnly s.shared o (hs.writes t)) fun u _ => hs.writes u
  alone := setUpAlone_step t o hs
  counted := counted_step o hs ht

theorem refInv_initial {programs : List (List Call)} (n h : ℕ)
    (hprog : ∀ p ∈ programs, ∀ call ∈ p, call.keepsChunks = true) :
    RefInv cfg n h (initial cfg programs) where
  ring := ringInv_initial cfg programs
  writes := by
    intro t
    refine ⟨by rintro _ _ _ ⟨⟩, fun call hcall => ?_⟩
    by_cases ht : t < programs.length
    · exact hprog programs[t] (List.getElem_mem ht) call (by simpa [initial, ht] using hcall)
    · simp [initial, ht] at hcall
  alone := by rintro t u id ⟨⟩
  counted := fun id hid => (Nat.not_lt_zero id hid).elim

theorem refInv_reached (cfg : Config) {programs : List (List Call)} (sched : Schedule) (h : ℕ)
    (hprog : ∀ p ∈ programs, ∀ call ∈ p, call.keepsChunks = true) :
    ∃ n, RefInv cfg n h (reached cfg programs sched) := by
  obtain ⟨n, hall⟩ := allSteps_thread_lt threadStep (initial cfg programs) sched
  refine ⟨n, ?_⟩
  exact run_invariant_of threadStep (fun s t o hs ht => refInv_step o hs ht)
    (refInv_initial n h hprog) hall

/-! ## Chunks besides the head -/

/-- No thread is inside `write_to_chunk`. -/
def NoneWriting (s : System) : Prop := ∀ t, ¬ (s.thread t).pc.inWriteToChunk

/-- Once nobody writes, every chunk in the ring still counts one reference. -/
theorem RefInv.refCount_eq_one {s : System} (hs : RefInv cfg n h s) (hquiet : NoneWriting s)
    {i id : ℕ} (hslot : (s.shared.ring h).buffer i = .chunk id) :
    ((s.shared.ring h).chunks id).refCount = 1 := by
  rw [hs.counted id ((hs.ring.ok h).slot i id hslot) ?_, Finset.sum_eq_zero]
  · rfl
  · intro u _
    exact Pc.refs_eq_zero (hquiet u) h id
  · intro t hmaps
    exact hquiet t (inWriteToChunk_of_maps hmaps)

/-- The head is the only slot that holds a chunk. -/
def HeadOnly (r : ChunkBuffer) : Prop :=
  ∀ i id, r.buffer i = .chunk id → r.head = some i

/-- While the new chunk is in the ring and the head has not moved, it is the only one. -/
def HeadOnlyAt (r : ChunkBuffer) : RbPc → Prop
  | .casHead _ next _ => ∀ i id, r.buffer i = .chunk id → i = next
  | _ => HeadOnly r

/-- The handle and the head slot of a thread that is about to store a new chunk. -/
def Pc.links? (pc : Pc) : Option (ℕ × ℕ) :=
  match pc.rb? with
  | some (h, _, .storeSlot head _ _) => some (h, head)
  | _ => none

def ChunkPtr.isChunk : ChunkPtr → Bool
  | .chunk _ => true
  | _ => false

/-- A thread that stores a new chunk into the ring of `h` finds no chunk at the head. -/
def LinksFirst (h : ℕ) (s : System) (t : ℕ) (_ : Outcome) : Prop :=
  ∀ p ∈ (s.thread t).pc.links?, p.1 = h → ((s.shared.ring h).buffer p.2).isChunk = false

instance (h : ℕ) (s : System) (t : ℕ) (o : Outcome) : Decidable (LinksFirst h s t o) :=
  inferInstanceAs (Decidable (∀ p ∈ (s.thread t).pc.links?, _ → _))

theorem HeadOnly.of_same {r r' : ChunkBuffer} (h : HeadOnly r) (hbuffer : r'.buffer = r.buffer)
    (hhead : r'.head = r.head) : HeadOnly r' := by
  intro i id hslot
  rw [hbuffer] at hslot
  rw [hhead]
  exact h i id hslot

theorem GuardStep.headOnly {r : ChunkBuffer} {next : Next RbPc (Option ℕ)}
    (h : HeadOnly r) (hnext : ∀ head nextSlot id, next ≠ .goto (.casHead head nextSlot id)) :
    GuardStep HeadOnly HeadOnlyAt r next := by
  refine ⟨fun pc hpc _ => ?_, fun _ => h⟩
  cases pc with
  | casHead head nextSlot id => exact (hnext _ _ _ hpc).elim
  | _ => exact h

theorem mmlogRbCheckout_headOnly {cs count cursor : ℕ} {r : ChunkBuffer} (errno : MmlogErr)
    (o : Outcome) {pc : RbPc} (hcount : 2 ≤ count) (h : RingOk cs count r)
    (hpc : RbAt r cursor pc) (honly : HeadOnlyAt r pc)
    (hfirst : ∀ head next id, pc = .storeSlot head next id → (r.buffer head).isChunk = false) :
    GuardStep HeadOnly HeadOnlyAt (mmlogRbCheckout cs cursor r errno o pc).1
      (mmlogRbCheckout cs cursor r errno o pc).2.2 := by
  have hadd : ∀ head, addNewChunk r head none = .calloc head (r.getNextHeadPtr head) :=
    fun head => addNewChunk_of_tail_none (by rw [h.capacity]; omega)
  cases pc with
  | lock =>
      simp only [mmlogRbCheckout]
      split
      · exact .headOnly honly (by simp)
      · exact .headOnly honly (by simp)
  | retry => cases o <;> exact .headOnly honly (by simp [mmlogRbCheckout])
  | loadHead => exact .headOnly honly (by simp [mmlogRbCheckout])
  | loadTail head => exact .headOnly honly (by simp [mmlogRbCheckout])
  | loadSlot head tail =>
      obtain ⟨-, rfl⟩ := hpc
      simp only [mmlogRbCheckout, hadd]
      split
      · split
        · exact .headOnly honly (by simp)
        · exact .headOnly honly (by simp)
      · exact .headOnly honly (by simp)
  | addRefHead id => exact .headOnly honly (by simp [mmlogRbCheckout])
  | unlockHead id => exact .headOnly honly (by simp [mmlogRbCheckout])
  | clean pc => exact hpc.elim
  | reloadHead => exact hpc.elim
  | reloadTail head => exact hpc.elim
  | calloc head next => cases o <;> exact .headOnly honly (by simp [mmlogRbCheckout])
  | mmap head next => cases o <;> exact .headOnly honly (by simp [mmlogRbCheckout])
  | storeRef head next id => exact .headOnly honly (by simp [mmlogRbCheckout])
  | storeSlot head next id =>
      -- the ring was empty: the head slot holds no chunk, and no other slot did
      have hempty := hfirst head next id rfl
      refine ⟨?_, fun hout => (hout trivial).elim⟩
      rintro _ ⟨⟩ -
      intro i id' hslot
      by_contra hi
      simp only [mmlogRbCheckout, ChunkBuffer.setSlot, Function.update_of_ne hi] at hslot
      have hhead := honly i id' hslot
      rw [hpc.1] at hhead
      cases hhead
      rw [hslot] at hempty
      cases hempty
  | casHead head next id =>
      simp only [mmlogRbCheckout, hpc.1, if_true]
      refine .headOnly ?_ (by simp)
      intro i id' hslot
      rw [honly i id' hslot]
  | clearSlot next =>
      refine .headOnly ?_ (by simp [mmlogRbCheckout])
      intro i id hslot
      by_cases hi : i = next
      · subst hi
        simp [mmlogRbCheckout, ChunkBuffer.setSlot] at hslot
      · simp only [mmlogRbCheckout, ChunkBuffer.setSlot, Function.update_of_ne hi] at hslot
        exact honly i id hslot
  | unlockFailed => exact .headOnly honly (by simp [mmlogRbCheckout])
  | unlockNew id => exact .headOnly honly (by simp [mmlogRbCheckout])
  | addRefNew id => exact .headOnly honly (by simp [mmlogRbCheckout])

theorem headOnly_step {s : System} {t : ℕ} {o : Outcome} (hinv : RingInv cfg s)
    (hg : RingGuarded h HeadOnly HeadOnlyAt s) (hc : LinksFirst h s t o) :
    RingGuarded h HeadOnly HeadOnlyAt (step threadStep s t o) := by
  refine ringGuarded_step HeadOnly HeadOnlyAt hinv hg ?_ ?_ ?_ ?_
  · intro r r' hsame _ honly
    exact honly.of_same hsame.buffer hsame.head
  · intro r r' pc hsame _ honly
    cases pc with
    | casHead head next id =>
        intro i id' hslot
        rw [hsame.buffer] at hslot
        exact honly i id' hslot
    | _ => exact HeadOnly.of_same honly hsame.buffer hsame.head
  · exact fun r honly => honly
  · intro cursor pc hpc honly
    refine mmlogRbCheckout_headOnly _ o (cfg.two_le_chunkCount h) (hinv.ok h)
      ((hinv.point t).point.rbAt hpc).2 honly ?_
    rintro head next id rfl
    exact hc (h, head) (by rw [Pc.links?, hpc]; rfl) rfl

theorem headOnly_run {programs : List (List Call)} {sched : Schedule} (h : ℕ)
    (hc : AllSteps threadStep (LinksFirst h) (initial cfg programs) sched) :
    RingGuarded h HeadOnly HeadOnlyAt (reached cfg programs sched) := by
  have hrun := run_invariant_of threadStep
    (P := fun s => RingInv cfg s ∧ RingGuarded h HeadOnly HeadOnlyAt s) ?_
    ⟨ringInv_initial cfg programs, ?_⟩ hc
  · exact hrun.2
  · intro s t o hs hstep
    exact ⟨ringInv_step s t o hs.1, headOnly_step hs.1 hs.2 hstep⟩
  · refine ⟨fun _ => ?_, fun t hin => (not_holdsHead_of_none rfl hin).elim⟩
    rintro i id ⟨⟩

/-- While nobody writes, every chunk in the ring besides the head has a `ref_count` of 0. -/
def RefCountsExact (h : ℕ) (s : System) : Prop :=
  NoneWriting s → ∀ i id, (s.shared.ring h).buffer i = .chunk id →
    (s.shared.ring h).head ≠ some i → ((s.shared.ring h).chunks id).refCount = 0

theorem NoneWriting.not_holdsHead {s : System} (hs : ∀ t, WritesOnly (s.thread t))
    (hquiet : NoneWriting s) (h t : ℕ) : ¬ HoldsHead h (s.thread t) := by
  rintro ⟨cursor, pc, hpc, -⟩
  have hpoint := (hs t).point
  have hout := hquiet t
  cases hp : (s.thread t).pc with
  | rbCheckout a c p => exact hpoint a c p hp
  | insertRb a data start written p =>
      rw [hp] at hout
      exact hout trivial
  | _ =>
      rw [hp] at hpc
      cases hpc

/-- The counts of the ring are exact in every state of a run that stores a chunk only while
the head holds none; and in any state they are exact only if, once nobody writes, the head
is the only slot with a chunk. -/
theorem refCounts_exact (cfg : Config) (programs : List (List Call)) (sched : Schedule) (h : ℕ)
    (hprog : ∀ p ∈ programs, ∀ call ∈ p, call.keepsChunks = true) :
    (AllSteps threadStep (LinksFirst h) (initial cfg programs) sched →
        RefCountsExact h (reached cfg programs sched)) ∧
      (RefCountsExact h (reached cfg programs sched) ↔
        (NoneWriting (reached cfg programs sched) →
          HeadOnly ((reached cfg programs sched).shared.ring h))) := by
  obtain ⟨n, hinv⟩ := refInv_reached cfg sched h hprog
  have hiff : RefCountsExact h (reached cfg programs sched) ↔
      (NoneWriting (reached cfg programs sched) →
        HeadOnly ((reached cfg programs sched).shared.ring h)) := by
    constructor
    · intro hexact hquiet i id hslot
      by_contra hhead
      have hzero := hexact hquiet i id hslot hhead
      rw [hinv.refCount_eq_one hquiet hslot] at hzero
      cases hzero
    · intro honly hquiet i id hslot hhead
      exact (hhead (honly hquiet i id hslot)).elim
  refine ⟨fun hc => hiff.mpr fun hquiet => ?_, hiff⟩
  exact (headOnly_run h hc).free fun t => hquiet.not_holdsHead hinv.writes h t

/-- The counts are exact after one record of one byte: its chunk is the head. -/
theorem refCounts_exact_one_chunk :
    RefCountsExact 0 (reached Config.least [[.insert (some 0) (some ⟨1, fun _ => 7⟩)]]
      (List.replicate 18 (0, .succeed))) :=
  (refCounts_exact Config.least [[.insert (some 0) (some ⟨1, fun _ => 7⟩)]]
    (List.replicate 18 (0, .succeed)) 0 (by decide)).1 (by decide)

/-- After one record across two chunks nobody writes, and the chunk behind the head still
counts a reference. -/
theorem refCounts_exact_fails_behind_head :
    ¬ RefCountsExact 0 (reached Config.least [[.insert (some 0) (some ⟨5000, fun _ => 7⟩)]]
      (List.replicate 38 (0, .succeed))) := by
  intro hexact
  have hzero := hexact ?_ 1 0 rfl (by decide)
  · exact absurd hzero (by decide)
  · intro t
    cases t with
    | zero =>
        have hidle : ((reached Config.least [[.insert (some 0) (some ⟨5000, fun _ => 7⟩)]]
            (List.replicate 38 (0, .succeed))).thread 0).pc = .idle := rfl
        rw [hidle]
        exact not_false
    | succ t =>
        rw [reached_thread_of_le (by simp) (by simp)]
        exact not_false

end SystemsExperiments.Mmlog
