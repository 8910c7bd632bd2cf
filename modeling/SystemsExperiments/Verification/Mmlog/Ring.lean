import SystemsExperiments.Verification.Mmlog.Align
import SystemsExperiments.Verification.Mmlog.HeadLock

/-! # The ring of chunks

The tail that `mmlog_open` leaves NULL stays NULL, so `clean_chunks` never gets past its
first test: chunks are created, published and reused, and none is ever reclaimed. -/

namespace SystemsExperiments.Mmlog

open Interleaving

/-! ## Chunks and rings -/

/-- What never changes about a chunk that is not reclaimed. -/
def ChunkInfo.place (c : ChunkInfo) : ℕ × ℕ × Bool × Bool :=
  (c.startOffset, c.size, c.isMapped, c.isFreed)

/-- The chunk is mapped, not freed, and shows one aligned chunk of the file. -/
structure Live (cs : ℕ) (c : ChunkInfo) : Prop where
  mapped : c.isMapped = true
  notFreed : c.isFreed = false
  size : c.size = cs
  aligned : c.startOffset % cs = 0

theorem Live.of_place {cs : ℕ} {c c' : ChunkInfo} (h : Live cs c) (heq : c'.place = c.place) :
    Live cs c' := by
  simp only [ChunkInfo.place, Prod.mk.injEq] at heq
  obtain ⟨hstart, hsize, hmap, hfree⟩ := heq
  exact ⟨hmap.trans h.mapped, hfree.trans h.notFreed, hsize.trans h.size, hstart ▸ h.aligned⟩

/-- The chunk exists and contains the cursor. -/
structure Serves (r : ChunkBuffer) (cursor id : ℕ) : Prop where
  created : id < r.created
  start_le : (r.chunks id).startOffset ≤ cursor
  lt_end : cursor < (r.chunks id).startOffset + (r.chunks id).size

structure RingOk (cs count : ℕ) (r : ChunkBuffer) : Prop where
  tail : r.tail = none
  capacity : r.capacity = count
  head : ∃ head, r.head = some head
  live : ∀ id < r.created, Live cs (r.chunks id)
  slot : ∀ i id, r.buffer i = .chunk id → id < r.created

theorem ringOk_opened (cs count : ℕ) : RingOk cs count (ChunkBuffer.opened count) where
  tail := rfl
  capacity := rfl
  head := ⟨0, rfl⟩
  live := fun _ h => (Nat.not_lt_zero _ h).elim
  slot := fun _ _ h => by cases h

/-- A later state of the same ring: no chunk of the earlier one has moved or gone. -/
structure Extends (r r' : ChunkBuffer) : Prop where
  capacity : r'.capacity = r.capacity
  created_le : r.created ≤ r'.created
  place : ∀ id < r.created, (r'.chunks id).place = (r.chunks id).place

theorem Extends.refl (r : ChunkBuffer) : Extends r r := ⟨rfl, le_rfl, fun _ _ => rfl⟩

theorem Serves.mono {r r' : ChunkBuffer} {cursor id : ℕ} (h : Serves r cursor id)
    (he : Extends r r') : Serves r' cursor id := by
  have hplace := he.place id h.created
  simp only [ChunkInfo.place, Prod.mk.injEq] at hplace
  refine ⟨h.created.trans_le he.created_le, ?_, ?_⟩
  · rw [hplace.1]
    exact h.start_le
  · rw [hplace.1, hplace.2.1]
    exact h.lt_end

/-- The parts of a ring that only the holder of the head lock changes. -/
structure SameHead (r r' : ChunkBuffer) : Prop where
  head : r'.head = r.head
  buffer : r'.buffer = r.buffer
  created : r'.created = r.created

theorem SameHead.refl (r : ChunkBuffer) : SameHead r r := ⟨rfl, rfl, rfl⟩

/-- A change of reference counts only. -/
def KeepsPlace (g : ChunkInfo → ChunkInfo) : Prop := ∀ c, (g c).place = c.place

theorem keepsPlace_refCount (n : ChunkInfo → ℕ) :
    KeepsPlace fun c => { c with refCount := n c } := fun _ => rfl

section Modify

variable {cs count : ℕ} {r : ChunkBuffer} {g : ChunkInfo → ChunkInfo}
variable (hg : KeepsPlace g)

include hg

theorem place_modifyChunk (id i : ℕ) :
    ((r.modifyChunk id g).chunks i).place = (r.chunks i).place := by
  by_cases h : i = id
  · subst h
    simpa [ChunkBuffer.modifyChunk] using hg (r.chunks i)
  · simp [ChunkBuffer.modifyChunk, Function.update_of_ne h]

theorem extends_modifyChunk (id : ℕ) : Extends r (r.modifyChunk id g) :=
  ⟨rfl, le_rfl, fun i _ => place_modifyChunk hg id i⟩

theorem RingOk.modifyChunk (h : RingOk cs count r) (id : ℕ) :
    RingOk cs count (r.modifyChunk id g) where
  tail := h.tail
  capacity := h.capacity
  head := h.head
  live := fun i hi => (h.live i hi).of_place (place_modifyChunk hg id i)
  slot := h.slot

end Modify

theorem RingOk.setSlot {cs count : ℕ} {r : ChunkBuffer} (h : RingOk cs count r) (i : ℕ)
    {p : ChunkPtr} (hp : ∀ id, p = .chunk id → id < r.created) :
    RingOk cs count (r.setSlot i p) := by
  refine ⟨h.tail, h.capacity, h.head, h.live, fun j id hslot => ?_⟩
  by_cases hj : j = i
  · subst hj
    simp only [ChunkBuffer.setSlot, Function.update_self] at hslot
    exact hp id hslot
  · simp only [ChunkBuffer.setSlot, Function.update_of_ne hj] at hslot
    exact h.slot j id hslot

theorem extends_setSlot (r : ChunkBuffer) (i : ℕ) (p : ChunkPtr) :
    Extends r (r.setSlot i p) := ⟨rfl, le_rfl, fun _ _ => rfl⟩

/-! ## Cleaning does nothing -/

/-- The only points that `clean_chunks` reaches while the tail is NULL. -/
def CleanAt : CleanPc → Prop
  | .loadTail => True
  | .loadHead tail => tail = none
  | _ => False

def Next.CleanAt : Next CleanPc Unit → Prop
  | .goto pc => Mmlog.CleanAt pc
  | .done _ => True

theorem cleanChunks_idle {r : ChunkBuffer} {pc : CleanPc} (ht : r.tail = none)
    (hpc : CleanAt pc) : (cleanChunks r pc).1 = r ∧ (cleanChunks r pc).2.CleanAt := by
  cases pc with
  | loadTail => exact ⟨rfl, ht⟩
  | loadHead tail =>
      cases hpc
      exact ⟨rfl, trivial⟩
  | loadSlot tail head => exact hpc.elim
  | loadRef tail id => exact hpc.elim
  | casTail tail id => exact hpc.elim
  | munmap id => exact hpc.elim
  | free id => exact hpc.elim

/-! ## Checking out -/

/-- What `mmlog_rb_checkout` knows about its ring at each of its points. -/
def RbAt (r : ChunkBuffer) (cursor : ℕ) : RbPc → Prop
  | .lock | .retry | .loadHead | .unlockFailed => True
  | .loadTail head => r.head = head
  | .loadSlot head tail => r.head = some head ∧ tail = none
  | .addRefHead id | .unlockHead id | .unlockNew id | .addRefNew id => Serves r cursor id
  | .clean _ | .reloadHead | .reloadTail _ => False
  | .calloc head next | .mmap head next => r.head = some head ∧ next = r.getNextHeadPtr head
  | .storeRef head next id | .storeSlot head next id | .casHead head next id =>
      r.head = some head ∧ next = r.getNextHeadPtr head ∧ Serves r cursor id
  | .clearSlot next => ∃ head, r.head = some head ∧ next = r.getNextHeadPtr head

theorem RbAt.mono {r r' : ChunkBuffer} {cursor : ℕ} {pc : RbPc} (h : RbAt r cursor pc)
    (he : Extends r r') (hkeep : pc.holdsHead → r'.head = r.head) : RbAt r' cursor pc := by
  have hnext : ∀ head, r'.getNextHeadPtr head = r.getNextHeadPtr head := fun head => by
    simp only [ChunkBuffer.getNextHeadPtr, he.capacity]
  cases pc with
  | lock => trivial
  | retry => trivial
  | loadHead => trivial
  | unlockFailed => trivial
  | addRefNew id => exact Serves.mono h he
  | addRefHead id => exact Serves.mono h he
  | unlockHead id => exact Serves.mono h he
  | unlockNew id => exact Serves.mono h he
  | loadTail head => exact (hkeep trivial).trans h
  | loadSlot head tail => exact ⟨(hkeep trivial).trans h.1, h.2⟩
  | clean pc => exact h.elim
  | reloadHead => exact h.elim
  | reloadTail head => exact h.elim
  | calloc head next => exact ⟨(hkeep trivial).trans h.1, h.2.trans (hnext head).symm⟩
  | mmap head next => exact ⟨(hkeep trivial).trans h.1, h.2.trans (hnext head).symm⟩
  | storeRef head next id =>
      exact ⟨(hkeep trivial).trans h.1, h.2.1.trans (hnext head).symm, h.2.2.mono he⟩
  | storeSlot head next id =>
      exact ⟨(hkeep trivial).trans h.1, h.2.1.trans (hnext head).symm, h.2.2.mono he⟩
  | casHead head next id =>
      exact ⟨(hkeep trivial).trans h.1, h.2.1.trans (hnext head).symm, h.2.2.mono he⟩
  | clearSlot next =>
      obtain ⟨head, hhead, hslot⟩ := h
      exact ⟨head, (hkeep trivial).trans hhead, hslot.trans (hnext head).symm⟩

/-- With a NULL tail the ring never looks full. -/
theorem addNewChunk_of_tail_none {r : ChunkBuffer} {head : ℕ} (hpos : 0 < r.capacity) :
    addNewChunk r head none = .calloc head (r.getNextHeadPtr head) := by
  have hlt : r.getNextHeadPtr head < r.capacity := Nat.mod_lt _ hpos
  simp [addNewChunk, Nat.not_le.mpr hlt]

theorem serves_of_isCursorInChunk {r : ChunkBuffer} {cursor id : ℕ} (hid : id < r.created)
    (h : isCursorInChunk (r.chunks id) cursor = true) : Serves r cursor id := by
  simp only [isCursorInChunk, Bool.and_eq_true, decide_eq_true_eq] at h
  exact ⟨hid, h.1, h.2.trans_le (Nat.mod_le _ _)⟩

/-- The chunk that `create_chunk_at_cursor` maps contains the cursor it was made for. -/
theorem mapChunk_serves {cs cursor : ℕ} (r : ChunkBuffer) (hpos : 0 < cs)
    (hcur : cursor < 2 ^ 64) :
    Serves (r.mapChunk (u64 (cursor / cs * cs)) cs) cursor r.created := by
  have hle : cursor / cs * cs ≤ cursor := Nat.div_mul_le_self cursor cs
  have hstart : u64 (cursor / cs * cs) = cursor / cs * cs := Nat.mod_eq_of_lt (by omega)
  have hlt : cursor < cursor / cs * cs + cs := Nat.lt_div_mul_add hpos
  refine ⟨Nat.lt_succ_self _, ?_, ?_⟩
  · simp [ChunkBuffer.mapChunk, hstart, hle]
  · simp [ChunkBuffer.mapChunk, hstart, hlt]

theorem extends_mapChunk (r : ChunkBuffer) (start size : ℕ) :
    Extends r (r.mapChunk start size) := by
  refine ⟨rfl, Nat.le_succ _, fun id hid => ?_⟩
  simp [ChunkBuffer.mapChunk, Function.update_of_ne (Nat.ne_of_lt hid)]

theorem RingOk.mapChunk {cs count cursor : ℕ} {r : ChunkBuffer} (h : RingOk cs count r)
    (hcur : cursor < 2 ^ 64) :
    RingOk cs count (r.mapChunk (u64 (cursor / cs * cs)) cs) where
  tail := h.tail
  capacity := h.capacity
  head := h.head
  live := by
    intro id hid
    by_cases hnew : id = r.created
    · subst hnew
      have hle : cursor / cs * cs ≤ cursor := Nat.div_mul_le_self cursor cs
      have hstart : u64 (cursor / cs * cs) = cursor / cs * cs := Nat.mod_eq_of_lt (by omega)
      have hnew : (r.mapChunk (u64 (cursor / cs * cs)) cs).chunks r.created =
          ⟨false, cursor / cs * cs, cs, 0, true, false⟩ := by
        simp [ChunkBuffer.mapChunk, hstart]
      rw [hnew]
      exact ⟨rfl, rfl, rfl, Nat.mul_mod_left _ _⟩
    · have hold : id < r.created := Nat.lt_of_le_of_ne (Nat.le_of_lt_succ hid) hnew
      exact (h.live id hold).of_place ((extends_mapChunk r _ _).place id hold)
  slot := fun i id hslot => (h.slot i id hslot).trans (Nat.lt_succ_self _)

/-- What one step of `mmlog_rb_checkout` keeps true. -/
structure RbStep (cs count cursor : ℕ) (r : ChunkBuffer) (pc : RbPc) (r' : ChunkBuffer)
    (next : Next RbPc (Option ℕ)) : Prop where
  ok : RingOk cs count r'
  ext : Extends r r'
  point : ∀ pc', next = .goto pc' → RbAt r' cursor pc'
  serves : ∀ id, next = .done (some id) → Serves r' cursor id
  same : ¬ pc.holdsHead → SameHead r r'

namespace RbStep

variable {cs count cursor : ℕ} {r r' : ChunkBuffer} {pc pc' : RbPc}

theorem goto (ok : RingOk cs count r') (ext : Extends r r') (hpc : RbAt r' cursor pc')
    (same : ¬ pc.holdsHead → SameHead r r') :
    RbStep cs count cursor r pc r' (.goto pc') := by
  refine ⟨ok, ext, ?_, ?_, same⟩
  · rintro _ ⟨⟩
    exact hpc
  · rintro _ ⟨⟩

theorem ret (ok : RingOk cs count r') (ext : Extends r r') {v : Option ℕ}
    (hserves : ∀ id, v = some id → Serves r' cursor id)
    (same : ¬ pc.holdsHead → SameHead r r') :
    RbStep cs count cursor r pc r' (.done v) := by
  refine ⟨ok, ext, ?_, ?_, same⟩
  · rintro _ ⟨⟩
  · rintro id ⟨⟩
    exact hserves id rfl

/-- A step that only reads. -/
theorem read (ok : RingOk cs count r) (hpc : RbAt r cursor pc') :
    RbStep cs count cursor r pc r (.goto pc') :=
  .goto ok (Extends.refl r) hpc fun _ => SameHead.refl r

end RbStep

theorem mmlogRbCheckout_ring {cs count cursor : ℕ} {r : ChunkBuffer} (errno : MmlogErr)
    (o : Outcome) {pc : RbPc} (hcs : 0 < cs) (hcount : 2 ≤ count) (hcur : cursor < 2 ^ 64)
    (h : RingOk cs count r) (hpc : RbAt r cursor pc) :
    RbStep cs count cursor r pc (mmlogRbCheckout cs cursor r errno o pc).1
      (mmlogRbCheckout cs cursor r errno o pc).2.2 := by
  have hadd : ∀ head, addNewChunk r head none = .calloc head (r.getNextHeadPtr head) :=
    fun head => addNewChunk_of_tail_none (by rw [h.capacity]; omega)
  have hunlock : RingOk cs count { r with headLocked := false } :=
    ⟨h.tail, h.capacity, h.head, h.live, h.slot⟩
  have hunlockExt : Extends r { r with headLocked := false } := ⟨rfl, le_rfl, fun _ _ => rfl⟩
  cases pc with
  | lock =>
      simp only [mmlogRbCheckout]
      split
      · exact .read h trivial
      · exact .goto ⟨h.tail, h.capacity, h.head, h.live, h.slot⟩ ⟨rfl, le_rfl, fun _ _ => rfl⟩
          trivial fun _ => ⟨rfl, rfl, rfl⟩
  | retry =>
      cases o with
      | succeed => exact .read h trivial
      | fail => exact .ret h (Extends.refl r) (by simp) fun _ => SameHead.refl r
      | short n => exact .ret h (Extends.refl r) (by simp) fun _ => SameHead.refl r
  | loadHead => exact .read h rfl
  | loadTail head =>
      obtain ⟨hd, hhd⟩ := h.head
      refine .read h ⟨?_, h.tail⟩
      have hpc : r.head = head := hpc
      rw [← hpc, hhd]
      rfl
  | loadSlot head tail =>
      obtain ⟨hhead, rfl⟩ := hpc
      simp only [mmlogRbCheckout, hadd]
      split
      · rename_i id hslot
        split
        · rename_i hin
          exact .read h (serves_of_isCursorInChunk (h.slot head id hslot) hin)
        · exact .read h ⟨hhead, rfl⟩
      · exact .read h ⟨hhead, rfl⟩
  | addRefHead id =>
      have hg := keepsPlace_refCount fun c => u32 (c.refCount + 1)
      exact .goto (h.modifyChunk hg id) (extends_modifyChunk hg id)
        (Serves.mono hpc (extends_modifyChunk hg id)) fun hout => (hout trivial).elim
  | unlockHead id =>
      refine .ret hunlock hunlockExt ?_ fun hout => (hout trivial).elim
      rintro _ ⟨⟩
      exact Serves.mono hpc hunlockExt
  | clean pc => exact hpc.elim
  | reloadHead => exact hpc.elim
  | reloadTail head => exact hpc.elim
  | calloc head next =>
      cases o with
      | succeed => exact .read h hpc
      | fail => exact .read h ⟨head, hpc⟩
      | short n => exact .read h ⟨head, hpc⟩
  | mmap head next =>
      cases o with
      | succeed =>
          exact .goto (h.mapChunk hcur) (extends_mapChunk r _ _)
            ⟨hpc.1, hpc.2, mapChunk_serves r hcs hcur⟩ fun hout => (hout trivial).elim
      | fail => exact .read h ⟨head, hpc⟩
      | short n => exact .read h ⟨head, hpc⟩
  | storeRef head next id =>
      have hg := keepsPlace_refCount fun _ => 1
      exact .goto (h.modifyChunk hg id) (extends_modifyChunk hg id)
        ⟨hpc.1, hpc.2.1, hpc.2.2.mono (extends_modifyChunk hg id)⟩
        fun hout => (hout trivial).elim
  | storeSlot head next id =>
      refine .goto (h.setSlot next ?_) (extends_setSlot r next _)
        ⟨hpc.1, hpc.2.1, hpc.2.2.mono (extends_setSlot r next _)⟩ fun hout => (hout trivial).elim
      rintro _ ⟨⟩
      exact hpc.2.2.created
  | casHead head next id =>
      simp only [mmlogRbCheckout, hpc.1, if_true]
      exact .goto ⟨h.tail, h.capacity, ⟨next, rfl⟩, h.live, h.slot⟩ ⟨rfl, le_rfl, fun _ _ => rfl⟩
        (hpc.2.2.mono ⟨rfl, le_rfl, fun _ _ => rfl⟩) fun hout => (hout trivial).elim
  | clearSlot next =>
      exact .goto (h.setSlot next (by simp)) (extends_setSlot r next _) trivial
        fun hout => (hout trivial).elim
  | unlockFailed => exact .ret hunlock hunlockExt (by simp) fun hout => (hout trivial).elim
  | unlockNew id =>
      exact .goto hunlock hunlockExt (Serves.mono hpc hunlockExt) fun hout => (hout trivial).elim
  | addRefNew id =>
      have hg := keepsPlace_refCount fun c => u32 (c.refCount + 1)
      refine .ret (h.modifyChunk hg id) (extends_modifyChunk hg id) ?_ fun _ => ⟨rfl, rfl, rfl⟩
      rintro _ ⟨⟩
      exact Serves.mono hpc (extends_modifyChunk hg id)

/-! ## One step of a thread -/

/-- What a thread knows about the ring it works on. -/
def PcRing (ring : ℕ → ChunkBuffer) : Pc → Prop
  | .rbCheckout h cursor pc => cursor < 2 ^ 64 ∧ RbAt (ring h) cursor pc
  | .clean _ pc => CleanAt pc
  | .insertRb h _ start written pc => RbAt (ring h) (currentCursor start written) pc
  | .insertMemcpy h _ start written id => Serves (ring h) (currentCursor start written) id
  | .insertRelease h _ start written id => Serves (ring h) (currentCursor start written) id
  | .insertClean _ _ _ pc => CleanAt pc
  | _ => True

theorem currentCursor_lt (start written : ℕ) : currentCursor start written < 2 ^ 64 :=
  Nat.mod_lt _ (by decide)

theorem PcRing.rbAt {ring : ℕ → ChunkBuffer} {pc : Pc} {h cursor : ℕ} {rpc : RbPc}
    (hpc : PcRing ring pc) (hrb : pc.rb? = some (h, cursor, rpc)) :
    cursor < 2 ^ 64 ∧ RbAt (ring h) cursor rpc := by
  cases pc with
  | rbCheckout a c p =>
      cases hrb
      exact hpc
  | insertRb a data start written p =>
      cases hrb
      exact ⟨currentCursor_lt start written, hpc⟩
  | _ => cases hrb

/-- Every chunk that `mmlog_rb_checkout` returned contains the cursor it was asked for. -/
def ResultsServed (ring : ℕ → ChunkBuffer) (results : List (Call × Value)) : Prop :=
  ∀ h cursor id, (Call.rbCheckout (some h) cursor, Value.chunk (some id)) ∈ results →
    Serves (ring h) cursor id

structure RingAt (ring : ℕ → ChunkBuffer) (th : Thread) : Prop where
  point : PcRing ring th.pc
  served : ResultsServed ring th.results

def RingsExtend (ring ring' : ℕ → ChunkBuffer) : Prop := ∀ a, Extends (ring a) (ring' a)

theorem RingsExtend.refl (ring : ℕ → ChunkBuffer) : RingsExtend ring ring :=
  fun a => Extends.refl (ring a)

theorem ResultsServed.mono {ring ring' : ℕ → ChunkBuffer} {results : List (Call × Value)}
    (h : ResultsServed ring results) (he : RingsExtend ring ring') :
    ResultsServed ring' results :=
  fun a cursor id hmem => (h a cursor id hmem).mono (he a)

namespace RingAt

variable {ring ring' : ℕ → ChunkBuffer} {th : Thread}

theorem goto (h : RingAt ring th) (he : RingsExtend ring ring') {pc : Pc} {errno : MmlogErr}
    (hpc : PcRing ring' pc) : RingAt ring' (th.goto pc errno) :=
  ⟨hpc, h.served.mono he⟩

theorem finish (h : RingAt ring th) (he : RingsExtend ring ring') {call : Call} {v : Value}
    {errno : MmlogErr}
    (hnew : ∀ a cursor id, call = .rbCheckout (some a) cursor → v = .chunk (some id) →
      Serves (ring' a) cursor id) : RingAt ring' (th.finish call v errno) := by
  refine ⟨trivial, fun a cursor id hmem => ?_⟩
  rcases List.mem_append.mp hmem with hmem | hmem
  · exact (h.served a cursor id hmem).mono (he a)
  · simp only [List.mem_singleton, Prod.mk.injEq] at hmem
    exact hnew a cursor id hmem.1.symm hmem.2.symm

theorem insertLoop (h : RingAt ring th) (he : RingsExtend ring ring') {a : ℕ}
    {data : Payload} {start w : ℕ} : RingAt ring' (th.insertLoop a data start w) := by
  unfold Thread.insertLoop
  split
  · exact h.goto he trivial
  · exact h.goto he trivial

theorem start (h : RingAt ring th) (call : Call) : RingAt ring (th.start call) := by
  have he := RingsExtend.refl ring
  unfold Thread.start
  split
  · exact h.finish he (by simp)
  · exact h.goto he trivial
  · exact h.finish he (by simp)
  · exact h.goto he ⟨Nat.mod_lt _ (by decide), trivial⟩
  · exact h.finish he (by simp)
  · exact h.goto he trivial
  · split
    · exact h.finish he (by simp)
    · exact h.goto he trivial
  · exact h.finish he (by simp)
  · exact h.finish he (by simp)
  · exact h.goto he trivial

/-- A step of another thread keeps what a thread knows, if it leaves the head alone while
the thread holds the lock. -/
theorem mono (h : RingAt ring th) (he : RingsExtend ring ring')
    (hkeep : ∀ a, HoldsHead a th → (ring' a).head = (ring a).head) : RingAt ring' th := by
  refine ⟨?_, h.served.mono he⟩
  have hpt := h.point
  obtain ⟨p, errno, todo, results⟩ := th
  cases p with
  | rbCheckout a cursor pc =>
      exact ⟨hpt.1, RbAt.mono hpt.2 (he a) fun hin => hkeep a ⟨_, _, rfl, hin⟩⟩
  | insertRb a data start w pc =>
      exact RbAt.mono hpt (he a) fun hin => hkeep a ⟨_, _, rfl, hin⟩
  | insertMemcpy a data start w id => exact Serves.mono hpt (he a)
  | insertRelease a data start w id => exact Serves.mono hpt (he a)
  | clean a pc => exact hpt
  | insertClean a data start pc => exact hpt
  | _ => trivial

end RingAt

def RingsOk (cfg : Config) (ring : ℕ → ChunkBuffer) : Prop :=
  ∀ a, RingOk cfg.chunkSize (cfg.chunkCount a) (ring a)

/-- What a step of a thread keeps true of all rings. -/
structure StepRing (cfg : Config) (ring : ℕ → ChunkBuffer) (th : Thread)
    (ring' : ℕ → ChunkBuffer) (th' : Thread) : Prop where
  ok : RingsOk cfg ring'
  ext : RingsExtend ring ring'
  same : ∀ a, ¬ HoldsHead a th → SameHead (ring a) (ring' a)
  point : RingAt ring' th'

namespace StepRing

variable {cfg : Config} {ring ring' : ℕ → ChunkBuffer} {th th' : Thread}

theorem quiet (ok : RingsOk cfg ring) (hring : ring' = ring) (h : RingAt ring' th') :
    StepRing cfg ring th ring' th' := by
  subst hring
  exact ⟨ok, RingsExtend.refl _, fun a _ => SameHead.refl _, h⟩

/-- A step that changes the ring of one handle. -/
theorem update (ok : RingsOk cfg ring) {h : ℕ} {r : ChunkBuffer}
    (okr : RingOk cfg.chunkSize (cfg.chunkCount h) r) (ext : Extends (ring h) r)
    (same : ¬ HoldsHead h th → SameHead (ring h) r)
    (hpt : RingsExtend ring (Function.update ring h r) →
      RingAt (Function.update ring h r) th') :
    StepRing cfg ring th (Function.update ring h r) th' := by
  have hext : RingsExtend ring (Function.update ring h r) := by
    intro a
    by_cases ha : a = h
    · subst ha
      rw [Function.update_self]
      exact ext
    · rw [Function.update_of_ne ha]
      exact Extends.refl _
  refine ⟨fun a => ?_, hext, fun a hout => ?_, hpt hext⟩
  · by_cases ha : a = h
    · subst ha
      rw [Function.update_self]
      exact okr
    · rw [Function.update_of_ne ha]
      exact ok a
  · by_cases ha : a = h
    · subst ha
      rw [Function.update_self]
      exact same hout
    · rw [Function.update_of_ne ha]
      exact SameHead.refl _

/-- `clean_chunks` finds a NULL tail and leaves its ring alone. -/
theorem clean (ok : RingsOk cfg ring) {h : ℕ} {pc : CleanPc} (hpc : CleanAt pc)
    (hpt : RingAt ring th') :
    StepRing cfg ring th (Function.update ring h (cleanChunks (ring h) pc).1) th' := by
  rw [(cleanChunks_idle (ok h).tail hpc).1, Function.update_eq_self]
  exact .quiet ok rfl hpt

end StepRing

theorem threadStep_rings {cfg : Config} {s : Log} {th : Thread} {o : Outcome}
    (hcs : s.metadata.chunkSize = cfg.chunkSize) (ok : RingsOk cfg s.ring)
    (ha : RingAt s.ring th) :
    StepRing cfg s.ring th (threadStep s th o).1.ring (threadStep s th o).2 := by
  have hpt := ha.point
  have he := RingsExtend.refl s.ring
  obtain ⟨p, errno, todo, results⟩ := th
  cases p with
  | idle =>
      cases todo with
      | nil => exact .quiet ok rfl ha
      | cons call rest =>
          have hrest : RingAt s.ring ⟨.idle, errno, rest, results⟩ := ⟨trivial, ha.served⟩
          exact .quiet ok rfl (hrest.start call)
  | checkout h size pc =>
      refine .quiet ok rfl ?_
      simp only [threadStep]
      split
      · exact ha.goto he trivial
      · exact ha.finish he (by simp)
  | rbCheckout h cursor pc =>
      have hstep := mmlogRbCheckout_ring errno o cfg.chunkSize_pos (cfg.two_le_chunkCount h)
        hpt.1 (ok h) hpt.2
      simp only [threadStep, hcs, Log.setRing]
      refine .update ok hstep.ok hstep.ext ?_ fun hext => ?_
      · exact fun hout => hstep.same fun hin => hout ⟨cursor, pc, rfl, hin⟩
      · split
        · rename_i pc' hnext
          refine ha.goto hext ⟨hpt.1, ?_⟩
          rw [Function.update_self]
          exact hstep.point pc' hnext
        · rename_i v hnext
          refine ha.finish hext fun a cursor' id hcall hv => ?_
          cases hcall
          cases hv
          rw [Function.update_self]
          exact hstep.serves id hnext
  | clean h pc =>
      have hnext := (cleanChunks_idle (ok h).tail hpt).2
      simp only [threadStep, Log.setRing]
      refine .clean ok hpt ?_
      split
      · rename_i pc' heq
        rw [heq] at hnext
        exact ha.goto he hnext
      · exact ha.finish he (by simp)
  | insertCheckout h data pc =>
      refine .quiet ok rfl ?_
      simp only [threadStep]
      split
      · exact ha.goto he trivial
      · split
        · exact ha.finish he (by simp)
        · split
          · exact ha.goto he trivial
          · exact ha.insertLoop he
  | insertPwrite h data start =>
      refine .quiet ok rfl ?_
      simp only [threadStep]
      split
      · exact ha.finish he (by simp)
      · exact ha.finish he (by simp)
  | insertRb h data start written pc =>
      have hstep := mmlogRbCheckout_ring errno o cfg.chunkSize_pos (cfg.two_le_chunkCount h)
        (currentCursor_lt start written) (ok h) hpt
      simp only [threadStep, hcs, Log.setRing]
      refine .update ok hstep.ok hstep.ext ?_ fun hext => ?_
      · exact fun hout => hstep.same fun hin => hout ⟨_, pc, rfl, hin⟩
      · split
        · rename_i pc' hnext
          refine ha.goto hext ?_
          simp only [PcRing, Function.update_self]
          exact hstep.point pc' hnext
        · exact ha.finish hext (by simp)
        · rename_i id hnext
          refine ha.goto hext ?_
          simp only [PcRing, Function.update_self]
          exact hstep.serves id hnext
  | insertMemcpy h data start written id => exact .quiet ok rfl ⟨hpt, ha.served⟩
  | insertRelease h data start written id =>
      have hg := keepsPlace_refCount fun c => u32 (c.refCount + (2 ^ 32 - 1))
      exact .update ok ((ok h).modifyChunk hg id) (extends_modifyChunk hg id)
        (fun _ => ⟨rfl, rfl, rfl⟩) fun hext => ha.insertLoop hext
  | insertClean h data start pc =>
      have hnext := (cleanChunks_idle (ok h).tail hpt).2
      simp only [threadStep, Log.setRing]
      refine .clean ok hpt ?_
      split
      · rename_i pc' heq
        rw [heq] at hnext
        exact ha.goto he hnext
      · exact ha.finish he (by simp)
  | trimLoad h => exact .quiet ok rfl ⟨trivial, ha.served⟩
  | trimFtruncate h cursor =>
      cases o with
      | succeed => exact .quiet ok rfl (ha.finish he (by simp))
      | fail => exact .quiet ok rfl (ha.finish he (by simp))
      | short n => exact .quiet ok rfl (ha.finish he (by simp))

/-! ## Runs -/

structure RingInv (cfg : Config) (s : System) : Prop where
  exclusive : ∀ h, HeadExclusive h s ∧ HeadTight h s
  chunkSize : s.shared.metadata.chunkSize = cfg.chunkSize
  ok : RingsOk cfg s.shared.ring
  point : ∀ t, RingAt s.shared.ring (s.thread t)

theorem ringInv_initial (cfg : Config) (programs : List (List Call)) :
    RingInv cfg (initial cfg programs) where
  exclusive := fun h => headLock_initial h cfg programs
  chunkSize := rfl
  ok := fun _ => ringOk_opened _ _
  point := fun _ => ⟨trivial, fun _ _ _ hmem => (List.not_mem_nil hmem).elim⟩

theorem RingInv.stepRing {cfg : Config} {s : System} (h : RingInv cfg s) (t : ℕ)
    (o : Outcome) :
    StepRing cfg s.shared.ring (s.thread t) (step threadStep s t o).shared.ring
      ((step threadStep s t o).thread t) := by
  rw [step_thread_self]
  exact threadStep_rings h.chunkSize h.ok (h.point t)

theorem ringInv_step {cfg : Config} (s : System) (t : ℕ) (o : Outcome) (h : RingInv cfg s) :
    RingInv cfg (step threadStep s t o) := by
  have hstep := threadStep_rings (o := o) h.chunkSize h.ok (h.point t)
  refine ⟨fun a => headLock_step a s t o (h.exclusive a), ?_, hstep.ok, ?_⟩
  · exact (threadStep_chunkSize s.shared (s.thread t) o).trans h.chunkSize
  · refine step_forall threadStep (A := fun l th => RingAt l.ring th) hstep.point fun u hu => ?_
    refine (h.point u).mono hstep.ext fun a hin => ?_
    exact (hstep.same a ((h.exclusive a).1.keep_of_other hin hu)).head

theorem ringInv_reached (cfg : Config) (programs : List (List Call)) (sched : Schedule) :
    RingInv cfg (reached cfg programs sched) :=
  run_invariant threadStep ringInv_step sched (ringInv_initial cfg programs)

/-! ## What the head lock guards -/

/-- A fact about the ring of a handle that holds while its head is not locked, and what the
holder of the lock knows at each of its points. -/
abbrev RingGuarded (h : ℕ) (free : ChunkBuffer → Prop) (held : ChunkBuffer → RbPc → Prop)
    (s : System) : Prop :=
  Mutex.Guards (HoldsHead h) (fun l : Log => free (l.ring h))
    (fun l th => ∀ cursor pc, th.pc.rb? = some (h, cursor, pc) → held (l.ring h) pc) s

/-- What a step of the holder leaves to its next point, or to whoever comes next. -/
structure GuardStep (free : ChunkBuffer → Prop) (held : ChunkBuffer → RbPc → Prop)
    (r : ChunkBuffer) (next : Next RbPc (Option ℕ)) : Prop where
  point : ∀ pc, next = .goto pc → pc.holdsHead → held r pc
  release : ¬ next.holdsHead → free r

/-- The rule for such a fact: it rests on what the holder alone changes, and each step of
the holder carries it on or hands it back. -/
theorem ringGuarded_step {cfg : Config} {s : System} {t : ℕ} {o : Outcome} {h : ℕ}
    (free : ChunkBuffer → Prop) (held : ChunkBuffer → RbPc → Prop) (hinv : RingInv cfg s)
    (hg : RingGuarded h free held s)
    (hfree : ∀ r r', SameHead r r' → r'.capacity = r.capacity → free r → free r')
    (hheld : ∀ r r' pc, SameHead r r' → r'.capacity = r.capacity → held r pc → held r' pc)
    (henter : ∀ r, free r → held r .loadHead)
    (hmine : ∀ cursor pc, (s.thread t).pc.rb? = some (h, cursor, pc) →
      held (s.shared.ring h) pc →
      GuardStep free held
        (mmlogRbCheckout cfg.chunkSize cursor (s.shared.ring h) (s.thread t).errno o pc).1
        (mmlogRbCheckout cfg.chunkSize cursor (s.shared.ring h) (s.thread t).errno o pc).2.2) :
    RingGuarded h free held (step threadStep s t o) := by
  have hstep := hinv.stepRing t o
  have hring : ∀ cursor pc, (s.thread t).pc.rb? = some (h, cursor, pc) →
      (step threadStep s t o).shared.ring h =
        (mmlogRbCheckout cfg.chunkSize cursor (s.shared.ring h) (s.thread t).errno o pc).1 := by
    intro cursor pc hpc
    rw [step_shared, (threadStep_rb hpc).1, Log.setRing_ring_self, hinv.chunkSize]
  have hmove := threadStep_headMove h s.shared (s.thread t) o
  rw [← step_thread_self, ← step_shared] at hmove
  apply hg.step (hinv.exclusive h).1 hmove
  · intro hout hf
    exact hfree _ _ (hstep.same h hout) (hstep.ext h).capacity hf
  · intro u hout hat cursor pc hpc
    exact hheld _ _ pc (hstep.same h hout) (hstep.ext h).capacity (hat cursor pc hpc)
  · intro hout hin hf cursor pc hpc
    rw [step_thread_self] at hin hpc
    obtain rfl := threadStep_enters_head hout hin hpc
    exact henter _ (hfree _ _ (hstep.same h hout) (hstep.ext h).capacity hf)
  · intro hin hat hin' cursor pc hpc
    obtain ⟨cursor', pc', hpc', -⟩ := hin
    have hnext := hmine cursor' pc' hpc' (hat cursor' pc' hpc')
    rw [holdsHead_iff hpc] at hin'
    rw [step_thread_self, (threadStep_rb hpc').2, hinv.chunkSize] at hpc
    rw [hring cursor' pc' hpc']
    revert hpc hnext
    generalize (mmlogRbCheckout cfg.chunkSize cursor' (s.shared.ring h) (s.thread t).errno o
      pc').2.2 = n
    intro hpc hnext
    cases n with
    | goto pc'' =>
        cases hpc
        exact hnext.point _ rfl hin'
    | done v => cases hpc
  · intro hin hat hout
    obtain ⟨cursor', pc', hpc', -⟩ := hin
    have hnext := hmine cursor' pc' hpc' (hat cursor' pc' hpc')
    rw [step_thread_self, holdsHead_step_iff hpc', hinv.chunkSize] at hout
    rw [hring cursor' pc' hpc']
    exact hnext.release hout

end SystemsExperiments.Mmlog
