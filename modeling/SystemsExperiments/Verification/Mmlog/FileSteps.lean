import SystemsExperiments.Verification.Mmlog.Ring

/-! # What one step does to the data file -/

namespace SystemsExperiments.Mmlog

open Interleaving

/-! ## Bytes in the file -/

/-- The first `w` bytes of the record are in the file at `start`. -/
def Stored (f : DataFile) (start : ℕ) (data : Payload) (w : ℕ) : Prop :=
  ∀ i < w, start + i < f.len ∧ f.byte (start + i) = data.byte i

/-- Every byte of the file at a safe offset is still there. -/
def Keeps (safe : ℕ → Prop) (f f' : DataFile) : Prop :=
  ∀ i < f.len, safe i → i < f'.len ∧ f'.byte i = f.byte i

theorem Keeps.refl (safe : ℕ → Prop) (f : DataFile) : Keeps safe f f :=
  fun _ hi _ => ⟨hi, rfl⟩

theorem Keeps.trans {safe : ℕ → Prop} {f f' f'' : DataFile} (h : Keeps safe f f')
    (h' : Keeps safe f' f'') : Keeps safe f f'' := by
  intro i hi hsafe
  obtain ⟨hi', hbyte⟩ := h i hi hsafe
  obtain ⟨hi'', hbyte'⟩ := h' i hi' hsafe
  exact ⟨hi'', hbyte'.trans hbyte⟩

theorem Keeps.mono {safe safe' : ℕ → Prop} {f f' : DataFile} (h : Keeps safe f f')
    (hsafe : ∀ i < f.len, safe' i → safe i) : Keeps safe' f f' :=
  fun i hi hi' => h i hi (hsafe i hi hi')

theorem Stored.keeps {safe : ℕ → Prop} {f f' : DataFile} {start w : ℕ} {data : Payload}
    (h : Stored f start data w) (hk : Keeps safe f f') (hsafe : ∀ i < w, safe (start + i)) :
    Stored f' start data w := by
  intro i hi
  obtain ⟨hlen, hbyte⟩ := h i hi
  obtain ⟨hlen', hbyte'⟩ := hk (start + i) hlen (hsafe i hi)
  exact ⟨hlen', hbyte'.trans hbyte⟩

theorem stored_zero (f : DataFile) (start : ℕ) (data : Payload) : Stored f start data 0 :=
  fun _ hi => (Nat.not_lt_zero _ hi).elim

theorem keeps_ftruncate (f : DataFile) (n : ℕ) : Keeps (· < n) f (f.ftruncate n) := by
  intro i hi hn
  exact ⟨hn, by simp [DataFile.ftruncate, hi, hn]⟩

/-- Outside the range of `n` bytes at `off`. -/
def Outside (off n i : ℕ) : Prop := i < off ∨ off + n ≤ i

theorem keeps_pwrite (f : DataFile) (off n : ℕ) (src : ℕ → UInt8) :
    Keeps (Outside off n) f (f.pwrite off n src) := by
  intro i hi hout
  unfold DataFile.pwrite
  split
  · exact ⟨hi, rfl⟩
  · have hnot : ¬ (off ≤ i ∧ i < off + n) := by
      unfold Outside at hout
      omega
    refine ⟨hi.trans_le (le_max_left _ _), ?_⟩
    simp [hnot, hi]

theorem keeps_store (f : DataFile) (limit off n : ℕ) (src : ℕ → UInt8) :
    Keeps (Outside off n) f (f.store limit off n src) := by
  intro i hi hout
  have hnot : ¬ (off ≤ i ∧ i < off + n ∧ i < limit ∧ i < f.len) := by
    unfold Outside at hout
    omega
  exact ⟨hi, by simp [DataFile.store, hnot]⟩

theorem stored_pwrite (f : DataFile) (start : ℕ) (data : Payload) :
    Stored (f.pwrite start data.size data.byte) start data data.size := by
  intro i hi
  have hne : data.size ≠ 0 := by omega
  simp only [DataFile.pwrite, if_neg hne]
  refine ⟨by omega, ?_⟩
  rw [if_pos ⟨by omega, by omega⟩, Nat.add_sub_cancel_left]

/-- A copy that ends inside its mapping and inside the file adds its bytes to those that
were stored before. -/
theorem stored_store {f : DataFile} {limit start w n : ℕ} {data : Payload}
    (h : Stored f start data w) (hlimit : start + w + n ≤ limit)
    (hlen : start + w + n ≤ f.len) :
    Stored (f.store limit (start + w) n fun i => data.byte (w + i)) start data (w + n) := by
  intro i hi
  refine ⟨by simp only [DataFile.store]; omega, ?_⟩
  by_cases hold : i < w
  · have hnot : ¬ (start + w ≤ start + i) := by omega
    simp [DataFile.store, hnot, (h i hold).2]
  · have hin : start + w ≤ start + i ∧ start + i < start + w + n ∧ start + i < limit ∧
        start + i < f.len := by omega
    have hidx : w + (start + i - (start + w)) = i := by omega
    simp only [DataFile.store, if_pos hin, hidx]

/-! ## Pieces of a record -/

theorem currentCursor_eq {start w : ℕ} (h : start + w < 2 ^ 64) :
    currentCursor start w = start + w := Nat.mod_eq_of_lt h

/-- Each turn of the loop in `mmlog_insert` writes something, stays within the record and
stops at the next chunk boundary. -/
theorem bytesToWrite_spec {start size w cs : ℕ} (hcs : 0 < cs)
    (hend : start + size + cs < 2 ^ 64) (hw : w < size) :
    0 < bytesToWrite start size w cs ∧ w + bytesToWrite start size w cs ≤ size ∧
      start + w + bytesToWrite start size w cs ≤ (start + w) / cs * cs + cs := by
  have hcur : currentCursor start w = start + w := currentCursor_eq (by omega)
  have hdiv : (start + w) / cs * cs ≤ start + w := Nat.div_mul_le_self _ _
  have hlt : start + w < (start + w) / cs * cs + cs := Nat.lt_div_mul_add hcs
  have hnext : ((start + w) / cs + 1) * cs = (start + w) / cs * cs + cs := by
    rw [Nat.add_mul, Nat.one_mul]
  have hchunkEnd : u64 (((start + w) / cs + 1) * cs) = (start + w) / cs * cs + cs := by
    rw [hnext]
    exact Nat.mod_eq_of_lt (by omega)
  have hrest : u64 (start + w + (size - w)) = start + size := by
    rw [u64, Nat.mod_eq_of_lt (by omega)]
    omega
  simp only [bytesToWrite, hcur, hchunkEnd, hrest]
  generalize (start + w) / cs * cs = base at hdiv hlt ⊢
  split
  · have hsub : u64 (base + cs + (2 ^ 64 - (start + w))) = base + cs - (start + w) := by
      rw [u64, show base + cs + (2 ^ 64 - (start + w)) = base + cs - (start + w) + 2 ^ 64 by
        omega, Nat.add_mod_right, Nat.mod_eq_of_lt (by omega)]
    rw [hsub]
    omega
  · omega

/-- An aligned chunk that contains an offset is the chunk of that offset. -/
theorem startOffset_eq {cs start cur : ℕ} (halign : start % cs = 0) (hle : start ≤ cur)
    (hlt : cur < start + cs) : start = cur / cs * cs := by
  obtain ⟨k, rfl⟩ := Nat.dvd_of_mod_eq_zero halign
  have hcs : 0 < cs := by omega
  have hk : cur / cs = k := by
    apply Nat.div_eq_of_lt_le
    · rwa [Nat.mul_comm]
    · rw [Nat.add_mul, Nat.one_mul, Nat.mul_comm]
      exact hlt
  rw [hk, Nat.mul_comm]

/-- The copy of `write_to_chunk` lands where the record is to go. -/
theorem chunkOffset_eq {start cur : ℕ} (hle : start ≤ cur) (hcur : cur < 2 ^ 64) :
    start + u64 (cur + (2 ^ 64 - start)) = cur := by
  have hsum : cur + (2 ^ 64 - start) = cur - start + 2 ^ 64 := by omega
  rw [u64, hsum, Nat.add_mod_right, Nat.mod_eq_of_lt (by omega)]
  omega

/-! ## Steps -/

theorem pwriteResult_le (size : ℕ) (o : Outcome) : (pwriteResult size o).1 ≤ size := by
  cases o with
  | succeed => exact le_rfl
  | fail => exact Nat.zero_le _
  | short n => exact Nat.min_le_right _ _

/-- The file after the copy of one piece. -/
def copyPiece (s : Log) (h : ℕ) (data : Payload) (start w id : ℕ) : DataFile :=
  let chunk := (s.ring h).chunks id
  s.file.store (chunk.startOffset + chunk.size)
    (chunk.startOffset + u64 (currentCursor start w + (2 ^ 64 - chunk.startOffset)))
    (bytesToWrite start data.size w s.metadata.chunkSize) fun i => data.byte (w + i)

/-- The copy of one piece goes to the place of the piece, and its chunk reaches at least to
the end of the piece. -/
theorem copyPiece_eq {s : Log} {h start w id : ℕ} {data : Payload}
    (hserves : Serves (s.ring h) (currentCursor start w) id)
    (hlive : Live s.metadata.chunkSize ((s.ring h).chunks id))
    (hcs32 : s.metadata.chunkSize < 2 ^ 32) (hend : start + data.size < 2 ^ 32)
    (hw : w < data.size) :
    ∃ limit, start + w + bytesToWrite start data.size w s.metadata.chunkSize ≤ limit ∧
      copyPiece s h data start w id = s.file.store limit (start + w)
        (bytesToWrite start data.size w s.metadata.chunkSize) fun i => data.byte (w + i) := by
  have hcur : currentCursor start w = start + w := currentCursor_eq (by omega)
  obtain ⟨-, hle, hlt⟩ := hserves
  rw [hcur] at hle hlt
  rw [hlive.size] at hlt
  have hpos : 0 < s.metadata.chunkSize := by omega
  have hstart := startOffset_eq hlive.aligned hle hlt
  have hfit : start + data.size + s.metadata.chunkSize < 2 ^ 64 := by omega
  obtain ⟨-, -, hpiece⟩ := bytesToWrite_spec hpos hfit hw
  refine ⟨((s.ring h).chunks id).startOffset + s.metadata.chunkSize, ?_, ?_⟩
  · omega
  · simp only [copyPiece, hcur, hlive.size]
    rw [chunkOffset_eq hle (by omega)]

/-- All that one step can do to the data file. -/
inductive FileStep (s : Log) (th : Thread) : DataFile → Prop where
  | same : FileStep s th s.file
  | expand {e n : ℕ} (hpc : th.pc.expand? = some (e, .ftruncate n)) :
      FileStep s th (s.file.ftruncate n)
  | trim {h cursor : ℕ} (hpc : th.pc = .trimFtruncate h cursor) :
      FileStep s th (s.file.ftruncate cursor)
  | pwrite {h : ℕ} {data : Payload} {start k : ℕ} (hpc : th.pc = .insertPwrite h data start)
      (hk : k ≤ data.size) : FileStep s th (s.file.pwrite start k data.byte)
  | copy {h : ℕ} {data : Payload} {start w id : ℕ}
      (hpc : th.pc = .insertMemcpy h data start w id) :
      FileStep s th (copyPiece s h data start w id)

theorem dataFileExpand_file (e : ℕ) (m : LogMetadata) (f : DataFile) (errno : MmlogErr)
    (o : Outcome) (pc : ExpandPc) :
    (dataFileExpand e m f errno o pc).2.1 = f ∨
      ∃ n, pc = .ftruncate n ∧ (dataFileExpand e m f errno o pc).2.1 = f.ftruncate n := by
  cases pc with
  | tryLock =>
      simp only [dataFileExpand]
      split <;> exact .inl rfl
  | retry => cases o <;> exact .inl rfl
  | loadPanicked =>
      simp only [dataFileExpand]
      split <;> exact .inl rfl
  | loadSize =>
      simp only [dataFileExpand]
      split <;> exact .inl rfl
  | ftruncate n =>
      cases o with
      | succeed => exact .inr ⟨n, rfl, rfl⟩
      | fail => exact .inl rfl
      | short k => exact .inl rfl
  | storePanicked => exact .inl rfl
  | unlockPanicked => exact .inl rfl
  | storeSize n => exact .inl rfl
  | unlock => exact .inl rfl
  | checkPanicked => exact .inl rfl

theorem threadStep_file (s : Log) (th : Thread) (o : Outcome) :
    FileStep s th (threadStep s th o).1.file := by
  cases hexp : th.pc.expand? with
  | some p =>
      obtain ⟨e, pc⟩ := p
      rw [(threadStep_expand hexp).1]
      rcases dataFileExpand_file e s.metadata s.file th.errno o pc with hsame | ⟨n, rfl, hgrow⟩
      · simp only [hsame]
        exact .same
      · simp only [hgrow]
        exact .expand hexp
  | none =>
      obtain ⟨p, errno, todo, results⟩ := th
      cases p with
      | idle => cases todo <;> exact .same
      | checkout h size pc =>
          cases pc with
          | fetchAdd => exact .same
          | loadSize start =>
              simp only [threadStep, mmlogCheckout]
              split <;> exact .same
          | expand start pc => cases hexp
      | insertCheckout h data pc =>
          cases pc with
          | fetchAdd => exact .same
          | loadSize start =>
              simp only [threadStep, mmlogCheckout]
              split <;> exact .same
          | expand start pc => cases hexp
      | insertPwrite h data start => exact .pwrite rfl (pwriteResult_le _ o)
      | insertMemcpy h data start w id => exact .copy rfl
      | trimFtruncate h cursor =>
          cases o with
          | succeed => exact .trim rfl
          | fail => exact .same
          | short n => exact .same
      | rbCheckout h cursor pc => exact .same
      | clean h pc => exact .same
      | insertRb h data start w pc => exact .same
      | insertRelease h data start w id => exact .same
      | insertClean h data start pc => exact .same
      | trimLoad h => exact .same

end SystemsExperiments.Mmlog
