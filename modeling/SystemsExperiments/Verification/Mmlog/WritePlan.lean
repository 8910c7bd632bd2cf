import SystemsExperiments.Verification.Mmlog.FileSteps

/-! # The pieces of a record

The loop of `mmlog_insert` cuts a record at the chunk boundaries. Whatever the chunk size,
its pieces are the record in order, each inside one chunk, so copying them has the effect
of one `pwrite`. -/

namespace SystemsExperiments.Mmlog

open Interleaving

/-- The offsets of the file that a piece covers. -/
def Piece.offsets (p : Piece) : List ℕ := List.range' p.cursor p.size

/-- The bytes that a piece puts at file offsets. -/
def Piece.writes (p : Piece) (data : Payload) : List (ℕ × UInt8) :=
  (List.range p.size).map fun i => (p.cursor + i, data.byte (p.offset + i))

/-- A piece of the record at `start`: it is not empty, takes its own slice of the payload,
and ends in the chunk of its first byte. -/
structure Piece.Fits (start size cs : ℕ) (p : Piece) : Prop where
  pos : 0 < p.size
  cursor_eq : p.cursor = start + p.offset
  le_size : p.offset + p.size ≤ size
  le_chunk : p.cursor + p.size ≤ p.cursor / cs * cs + cs

section Loop

variable {start size cs : ℕ} (hcs : 0 < cs) (hend : start + size + cs < 2 ^ 64)

include hcs hend

/-- The loop ends within as many turns as bytes are left, with the pieces of those bytes. -/
theorem insertPieces_spec {w left : ℕ} (hleft : w + left = size) :
    ∃ pieces, (∀ fuel, left ≤ fuel → insertPieces start size cs fuel w = some pieces) ∧
      (∀ p ∈ pieces, p.Fits start size cs) ∧
      pieces.flatMap Piece.offsets = List.range' (start + w) left ∧
      pieces.flatMap (fun p => List.range' p.offset p.size) = List.range' w left := by
  induction left using Nat.strong_induction_on generalizing w with
  | _ left ih =>
      by_cases hw : w < size
      · obtain ⟨hpos, hle, hchunk⟩ := bytesToWrite_spec hcs hend hw
        generalize hn : bytesToWrite start size w cs = n at hpos hle hchunk
        have hcur : currentCursor start w = start + w := currentCursor_eq (by omega)
        have hnext : u64 (w + n) = w + n := Nat.mod_eq_of_lt (by omega)
        have hsum : n + (left - n) = left := by omega
        obtain ⟨pieces, hrun, hfits, hoffsets, hslices⟩ :=
          ih (left - n) (by omega) (w := w + n) (by omega)
        refine ⟨⟨start + w, w, n⟩ :: pieces, ?_, ?_, ?_, ?_⟩
        · intro fuel hfuel
          obtain ⟨fuel, rfl⟩ : ∃ k, fuel = k + 1 := ⟨fuel - 1, by omega⟩
          simp only [insertPieces, if_pos hw, hn, hnext, hcur, hrun fuel (by omega),
            Option.map_some]
        · intro p hp
          rcases List.mem_cons.mp hp with rfl | hp
          · exact ⟨hpos, rfl, hle, hchunk⟩
          · exact hfits p hp
        · rw [List.flatMap_cons, hoffsets, Piece.offsets, ← Nat.add_assoc,
            List.range'_append_1, hsum]
        · rw [List.flatMap_cons, hslices, List.range'_append_1, hsum]
      · have hzero : left = 0 := by omega
        subst hzero
        refine ⟨[], fun fuel _ => ?_, by simp, rfl, rfl⟩
        cases fuel with
        | zero => simp only [insertPieces, if_neg hw]
        | succ fuel => simp only [insertPieces, if_neg hw]

end Loop

/-- The writes of a piece are the writes of its slice of the record. -/
theorem Piece.Fits.writes_eq {start size cs : ℕ} {p : Piece} (h : p.Fits start size cs)
    (data : Payload) :
    p.writes data = (List.range' p.offset p.size).map fun i => (start + i, data.byte i) := by
  rw [List.range'_eq_map_range, List.map_map, Piece.writes, h.cursor_eq]
  apply List.map_congr_left
  intro i _
  simp [Nat.add_assoc]

/-- The chunk of a piece's first byte is the only live one that is found for it, and it
holds the whole piece. -/
theorem Piece.Fits.in_chunk {start size cs : ℕ} {p : Piece} (h : p.Fits start size cs)
    {c : ChunkInfo} (hlive : Live cs c) (hin : isCursorInChunk c p.cursor = true) :
    c.startOffset = p.cursor / cs * cs ∧ c.startOffset ≤ p.cursor ∧
      p.cursor + p.size ≤ c.startOffset + c.size := by
  simp only [isCursorInChunk, Bool.and_eq_true, decide_eq_true_eq] at hin
  have hlt : p.cursor < c.startOffset + cs := by
    rw [← hlive.size]
    exact hin.2.trans_le (Nat.mod_le _ _)
  have hstart := startOffset_eq hlive.aligned hin.1 hlt
  refine ⟨hstart, hin.1, ?_⟩
  rw [hlive.size, hstart]
  exact h.le_chunk

/-- `create_chunk_at_cursor` maps that chunk. -/
theorem mapChunk_in_chunk (r : ChunkBuffer) {cursor cs : ℕ} (hcs : 0 < cs)
    (hcur : cursor + cs < 2 ^ 64) :
    Live cs ((r.mapChunk (u64 (cursor / cs * cs)) cs).chunks r.created) ∧
      isCursorInChunk ((r.mapChunk (u64 (cursor / cs * cs)) cs).chunks r.created) cursor =
        true := by
  have hle : cursor / cs * cs ≤ cursor := Nat.div_mul_le_self cursor cs
  have hlt : cursor < cursor / cs * cs + cs := Nat.lt_div_mul_add hcs
  have hstart : u64 (cursor / cs * cs) = cursor / cs * cs := Nat.mod_eq_of_lt (by omega)
  have hend : u64 (cursor / cs * cs + cs) = cursor / cs * cs + cs := Nat.mod_eq_of_lt (by omega)
  have hchunk : (r.mapChunk (u64 (cursor / cs * cs)) cs).chunks r.created =
      ⟨false, cursor / cs * cs, cs, 0, true, false⟩ := by
    simp [ChunkBuffer.mapChunk, hstart]
  rw [hchunk]
  refine ⟨⟨rfl, rfl, rfl, Nat.mul_mod_left _ _⟩, ?_⟩
  simp only [isCursorInChunk, hend, hle, hlt, decide_true, Bool.and_self]

/-! ## Threads follow the pieces -/

/-- The record, its place and the bytes written so far, of a thread inside a turn of the
loop. -/
def Pc.turn? : Pc → Option (Payload × ℕ × ℕ)
  | .insertRb _ data start w _ | .insertMemcpy _ data start w _
  | .insertRelease _ data start w _ => some (data, start, w)
  | _ => none

/-- The turn that starts after `w` bytes is the next of the loop. -/
def OnPlan (cs : ℕ) (data : Payload) (start w : ℕ) : Prop :=
  start + data.size + cs < 2 ^ 64 →
    ∃ front rest, ∀ fuel, data.size ≤ fuel →
      insertPieces start data.size cs fuel 0 = some (front ++ rest) ∧
        insertPieces start data.size cs fuel w = some rest

theorem onPlan_zero {cs : ℕ} (hcs : 0 < cs) (data : Payload) (start : ℕ) :
    OnPlan cs data start 0 := by
  intro hend
  obtain ⟨pieces, hrun, -⟩ := insertPieces_spec hcs hend (Nat.zero_add data.size)
  exact ⟨[], pieces, fun fuel hfuel => ⟨hrun fuel hfuel, hrun fuel hfuel⟩⟩

theorem insertPieces_succ {start size cs w fuel : ℕ} {rest : List Piece} (hw : w < size)
    (h : insertPieces start size cs (fuel + 1) w = some rest) :
    ∃ rest', rest = ⟨currentCursor start w, w, bytesToWrite start size w cs⟩ :: rest' ∧
      insertPieces start size cs fuel (u64 (w + bytesToWrite start size w cs)) = some rest' := by
  simp only [insertPieces, if_pos hw, Option.map_eq_some_iff] at h
  obtain ⟨rest', hrest, rfl⟩ := h
  exact ⟨rest', rfl, hrest⟩

theorem OnPlan.next {cs start w : ℕ} {data : Payload} (h : OnPlan cs data start w)
    (hw : w < data.size) :
    OnPlan cs data start (u64 (w + bytesToWrite start data.size w cs)) := by
  intro hend
  obtain ⟨front, rest, hplan⟩ := h hend
  obtain ⟨rest', rfl, -⟩ := insertPieces_succ hw (hplan (data.size + 1) (by omega)).2
  refine ⟨front ++ [⟨currentCursor start w, w, bytesToWrite start data.size w cs⟩], rest',
    fun fuel hfuel => ⟨?_, ?_⟩⟩
  · rw [List.append_assoc]
    exact (hplan fuel hfuel).1
  · obtain ⟨rest'', heq, hrest⟩ := insertPieces_succ hw (hplan (fuel + 1) (by omega)).2
    cases heq
    exact hrest

/-- A thread of the log takes the turns of the loop one after the other. -/
structure TurnAt (cs : ℕ) (th : Thread) : Prop where
  turn : ∀ data start w, th.pc.turn? = some (data, start, w) →
    w < data.size ∧ OnPlan cs data start w

theorem TurnAt.of_none {cs : ℕ} {th : Thread} (h : th.pc.turn? = none) : TurnAt cs th := by
  refine ⟨fun data start w heq => ?_⟩
  rw [h] at heq
  cases heq

theorem TurnAt.insertLoop {cs : ℕ} {data : Payload} {start w : ℕ} (th : Thread) (a : ℕ)
    (h : OnPlan cs data start w) : TurnAt cs (th.insertLoop a data start w) := by
  unfold Thread.insertLoop
  split
  · rename_i hw
    constructor
    rintro _ _ _ ⟨⟩
    exact ⟨hw, h⟩
  · exact .of_none rfl

theorem threadStep_turn {cs : ℕ} {s : Log} {th : Thread} (o : Outcome) (hcs : 0 < cs)
    (hs : s.metadata.chunkSize = cs) (h : TurnAt cs th) : TurnAt cs (threadStep s th o).2 := by
  obtain ⟨p, errno, todo, results⟩ := th
  cases p with
  | idle =>
      cases todo with
      | nil => exact h
      | cons call rest =>
          refine .of_none ?_
          simp only [threadStep, Thread.start]
          split <;> first | rfl | (split <;> rfl)
  | checkout a size pc =>
      simp only [threadStep]
      split <;> exact .of_none rfl
  | rbCheckout a cursor pc =>
      simp only [threadStep]
      split <;> exact .of_none rfl
  | clean a pc =>
      simp only [threadStep]
      split <;> exact .of_none rfl
  | insertCheckout a data pc =>
      simp only [threadStep]
      split
      · exact .of_none rfl
      · split
        · exact .of_none rfl
        · split
          · exact .of_none rfl
          · exact .insertLoop _ a (onPlan_zero hcs data _)
  | insertPwrite a data start =>
      simp only [threadStep]
      split <;> exact .of_none rfl
  | insertRb a data start w pc =>
      simp only [threadStep]
      split
      · exact ⟨h.turn⟩
      · exact .of_none rfl
      · exact ⟨h.turn⟩
  | insertMemcpy a data start w id => exact ⟨h.turn⟩
  | insertRelease a data start w id =>
      obtain ⟨hw, hplan⟩ := h.turn data start w rfl
      simp only [threadStep, hs]
      exact .insertLoop _ a (hplan.next hw)
  | insertClean a data start pc =>
      simp only [threadStep]
      split <;> exact .of_none rfl
  | trimLoad a => exact .of_none rfl
  | trimFtruncate a cursor => cases o <;> exact .of_none rfl

/-- Whatever the interleaving, each copy of a thread is a piece of the loop. -/
theorem copies_are_pieces (cfg : Config) (programs : List (List Call)) (sched : Schedule)
    {t start w : ℕ} {data : Payload}
    (hturn : ((reached cfg programs sched).thread t).pc.turn? = some (data, start, w))
    (hend : start + data.size + cfg.chunkSize < 2 ^ 64) :
    ∃ pieces, insertPieces start data.size cfg.chunkSize data.size 0 = some pieces ∧
      ⟨currentCursor start w, w, bytesToWrite start data.size w cfg.chunkSize⟩ ∈ pieces := by
  have hrun := run_invariant threadStep
    (P := fun s => s.shared.metadata.chunkSize = cfg.chunkSize ∧
      ∀ t, TurnAt cfg.chunkSize (s.thread t)) ?_ sched
    (s := initial cfg programs) ⟨rfl, fun t => .of_none rfl⟩
  · obtain ⟨hw, hplan⟩ := (hrun.2 t).turn data start w hturn
    obtain ⟨front, rest, hrest⟩ := hplan hend
    obtain ⟨rest', rfl, -⟩ := insertPieces_succ hw (hrest (data.size + 1) (by omega)).2
    exact ⟨_, (hrest data.size le_rfl).1, by simp⟩
  · intro s t o hs
    refine ⟨(threadStep_chunkSize s.shared (s.thread t) o).trans hs.1, ?_⟩
    exact step_forall threadStep (A := fun _ th => TurnAt cfg.chunkSize th)
      (threadStep_turn o cfg.chunkSize_pos hs.1 (hs.2 t)) fun u _ => hs.2 u

/-- The second copy of a record of six thousand bytes. -/
theorem copies_are_pieces_second :
    ∃ pieces, insertPieces 0 6000 4096 6000 0 = some pieces ∧ ⟨4096, 4096, 1904⟩ ∈ pieces := by
  have hturn : ((reached Config.least [[.insert (some 0) (some ⟨6000, fun _ => 7⟩)]]
      (List.replicate 23 (0, .succeed))).thread 0).pc.turn? =
        some (⟨6000, fun _ => 7⟩, 0, 4096) := rfl
  exact copies_are_pieces Config.least _ _ hturn (by decide)

/-! ## The ring path and `pwrite` -/

/-- A copy of a piece changes the bytes of the piece and nothing else. -/
theorem writeToChunk_byte {start size cs : ℕ} {p : Piece} {c : ChunkInfo} (data : Payload)
    (f : DataFile) (h : p.Fits start size cs) (hend : start + size < 2 ^ 64)
    (hlive : Live cs c) (hin : isCursorInChunk c p.cursor = true) :
    (writeToChunk f c p data).len = f.len ∧ ∀ i < f.len,
      (writeToChunk f c p data).byte i =
        if i ∈ p.offsets then data.byte (i - start) else f.byte i := by
  obtain ⟨-, hle, hchunk⟩ := h.in_chunk hlive hin
  have hcur := h.cursor_eq
  have hsize := h.le_size
  refine ⟨rfl, fun i hi => ?_⟩
  simp only [writeToChunk, DataFile.store]
  rw [chunkOffset_eq hle (by omega)]
  simp only [Piece.offsets, List.mem_range'_1]
  by_cases hmem : p.cursor ≤ i ∧ i < p.cursor + p.size
  · rw [if_pos hmem, if_pos ⟨hmem.1, hmem.2, by omega, hi⟩]
    congr 1
    omega
  · rw [if_neg hmem, if_neg fun h => hmem ⟨h.1, h.2.1⟩]

/-- The file after the copies of all pieces, each through the chunk that was found for it. -/
def writePieces (f : DataFile) (chunk : Piece → ChunkInfo) (data : Payload) :
    List Piece → DataFile
  | [] => f
  | p :: pieces => writePieces (writeToChunk f (chunk p) p data) chunk data pieces

theorem writePieces_byte {start size cs : ℕ} {pieces : List Piece} (data : Payload)
    {chunk : Piece → ChunkInfo} (hend : start + size < 2 ^ 64)
    (hfits : ∀ p ∈ pieces, p.Fits start size cs)
    (hchunk : ∀ p ∈ pieces, Live cs (chunk p) ∧ isCursorInChunk (chunk p) p.cursor = true)
    (f : DataFile) :
    (writePieces f chunk data pieces).len = f.len ∧ ∀ i < f.len,
      (writePieces f chunk data pieces).byte i =
        if i ∈ pieces.flatMap Piece.offsets then data.byte (i - start) else f.byte i := by
  induction pieces generalizing f with
  | nil => exact ⟨rfl, fun i _ => by simp [writePieces]⟩
  | cons p pieces ih =>
      obtain ⟨hlive, hin⟩ := hchunk p List.mem_cons_self
      obtain ⟨hlen, hbyte⟩ := writeToChunk_byte data f (hfits p List.mem_cons_self) hend hlive
        hin
      obtain ⟨hlen', hbyte'⟩ := ih (fun q hq => hfits q (List.mem_cons_of_mem _ hq))
        (fun q hq => hchunk q (List.mem_cons_of_mem _ hq)) (writeToChunk f (chunk p) p data)
      refine ⟨hlen'.trans hlen, fun i hi => ?_⟩
      rw [writePieces, hbyte' i (by rwa [hlen]), hbyte i hi]
      simp only [List.flatMap_cons, List.mem_append]
      by_cases hrest : i ∈ pieces.flatMap Piece.offsets
      · simp [hrest]
      · simp [hrest]

/-- For a record at any cursor the loop ends, and its pieces are not empty, cover the record
in order, take the matching slices of the payload and lie each in the one chunk that is
found or mapped for it; a file that reaches to the end of the record ends up as after one
`pwrite`. -/
theorem insert_write_plan (cfg : Config) (cursor : ℕ) (data : Payload)
    (hend : cursor + data.size + cfg.chunkSize < 2 ^ 64) :
    ∃ pieces,
      (∀ fuel, data.size ≤ fuel →
        insertPieces cursor data.size cfg.chunkSize fuel 0 = some pieces) ∧
      (∀ p ∈ pieces, 0 < p.size ∧ p.cursor = cursor + p.offset ∧
        (∀ c, Live cfg.chunkSize c → isCursorInChunk c p.cursor = true →
          c.startOffset = p.cursor / cfg.chunkSize * cfg.chunkSize ∧
            c.startOffset ≤ p.cursor ∧ p.cursor + p.size ≤ c.startOffset + c.size) ∧
        ∀ r : ChunkBuffer,
          let c := (r.mapChunk (u64 (p.cursor / cfg.chunkSize * cfg.chunkSize))
            cfg.chunkSize).chunks r.created
          Live cfg.chunkSize c ∧ isCursorInChunk c p.cursor = true) ∧
      pieces.flatMap Piece.offsets = List.range' cursor data.size ∧
      (pieces.flatMap fun p => p.writes data) =
        (List.range data.size).map (fun i => (cursor + i, data.byte i)) ∧
      ∀ (f : DataFile) (chunk : Piece → ChunkInfo), cursor + data.size ≤ f.len →
        (∀ p ∈ pieces, Live cfg.chunkSize (chunk p) ∧
          isCursorInChunk (chunk p) p.cursor = true) →
        (writePieces f chunk data pieces).len = (f.pwrite cursor data.size data.byte).len ∧
          ∀ i < f.len, (writePieces f chunk data pieces).byte i =
            (f.pwrite cursor data.size data.byte).byte i := by
  have hcs := cfg.chunkSize_pos
  obtain ⟨pieces, hrun, hfits, hoffsets, hslices⟩ :=
    insertPieces_spec hcs hend (Nat.zero_add data.size)
  rw [Nat.add_zero] at hoffsets
  refine ⟨pieces, hrun, fun p hp => ?_, hoffsets, ?_, fun f chunk hlen hchunk => ?_⟩
  · have hfit := hfits p hp
    have hcur := hfit.cursor_eq
    have hsize := hfit.le_size
    exact ⟨hfit.pos, hcur, fun c hlive hin => hfit.in_chunk hlive hin,
      fun r => mapChunk_in_chunk r hcs (by omega)⟩
  · calc
      (pieces.flatMap fun p => p.writes data)
          = pieces.flatMap fun p =>
              (List.range' p.offset p.size).map fun i => (cursor + i, data.byte i) :=
            List.flatMap_congr fun p hp => (hfits p hp).writes_eq data
      _ = (pieces.flatMap fun p => List.range' p.offset p.size).map
              fun i => (cursor + i, data.byte i) := by rw [List.map_flatMap]
      _ = (List.range data.size).map fun i => (cursor + i, data.byte i) := by
            rw [hslices, List.range_eq_range']
  · obtain ⟨hsame, hbyte⟩ := writePieces_byte data (by omega) hfits hchunk f
    rw [hsame, DataFile.pwrite]
    split
    · rename_i hzero
      refine ⟨rfl, fun i hi => ?_⟩
      rw [hbyte i hi, hoffsets, hzero]
      simp
    · refine ⟨(max_eq_left hlen).symm, fun i hi => ?_⟩
      rw [hbyte i hi, hoffsets]
      simp only [List.mem_range'_1, hi, if_true]

/-- Ten bytes across a chunk boundary are six and then four. -/
theorem insert_write_plan_two_chunks :
    insertPieces 4090 10 4096 10 0 = some [⟨4090, 0, 6⟩, ⟨4096, 6, 4⟩] ∧
      [⟨4090, 0, 6⟩, ⟨4096, 6, 4⟩].flatMap Piece.offsets = List.range' 4090 10 := by
  obtain ⟨pieces, hrun, -, hoffsets, -⟩ :=
    insert_write_plan Config.least 4090 ⟨10, fun _ => 7⟩ (by decide)
  have hplan : insertPieces 4090 10 4096 10 0 = some [⟨4090, 0, 6⟩, ⟨4096, 6, 4⟩] := by decide
  have hpieces : pieces = [⟨4090, 0, 6⟩, ⟨4096, 6, 4⟩] :=
    Option.some.inj ((hrun 10 (by decide)).symm.trans hplan)
  rw [hpieces] at hoffsets
  exact ⟨hplan, hoffsets⟩

end SystemsExperiments.Mmlog
