import SystemsExperiments.Model.SimpleRingbuffer.Entry

/-! # The entry codec

What `RBIn::serialize` writes is as long as `serializedSize` says, and an `RBOut` on it calls
back with what was pushed. -/

namespace SystemsExperiments.SimpleRingbuffer

open Bytes

variable {mem : ℕ → Option UInt8}

/-! ## Integers -/

theorem usize_eq {n : ℕ} (h : n < 2 ^ 64) : usize n = n := Nat.mod_eq_of_lt h

@[simp] theorem length_int64Bytes (x : Int64) : (int64Bytes x).length = sizeofSize := by
  simp [int64Bytes]

theorem length_flatMap_int64Bytes (xs : List Int64) :
    (xs.flatMap int64Bytes).length = sizeofSize * xs.length := by
  induction xs with
  | nil => rfl
  | cons x xs ih =>
      rw [List.flatMap_cons, List.length_append, ih, length_int64Bytes, List.length_cons,
        Nat.mul_succ, Nat.add_comm]

theorem run_readSize {addr n : ℕ} (hn : n < 2 ^ 64) (h : Holds mem addr (toLE sizeofSize n)) :
    (RBOut.readSize addr).run mem = some n :=
  Reader.run_readLE_toLE hn h

theorem run_readInt64 {addr : ℕ} {x : Int64} (h : Holds mem addr (int64Bytes x)) :
    (RBOut.readInt64 addr).run mem = some x := by
  rw [RBOut.readInt64, Reader.run_bind_of_eq (run_readSize (UInt64.toNat_lt _) h)]
  simp

/-! ## Pushed entries -/

/-- `e'` is `e` after the pushes. -/
structure Pushed (e : RBIn) (pushes : List Location) (e' : RBIn) : Prop where
  lines : e'.lines = e.lines ++ pushes.map Location.line
  filenames : e'.filenames.buffer = e.filenames.buffer ++ pushes.flatMap fun l => l.filename ++ [0]
  names : e'.names.buffer = e.names.buffer ++ pushes.flatMap fun l => l.name ++ [0]
  values : e'.values = e.values

theorem alloc_eq_some {lines values : List Int64} {filenames names : StringBuffer} {e : RBIn}
    (h : RBIn.alloc lines filenames names values = some e) :
    e.lines = lines ∧ e.filenames = filenames ∧ e.names = names ∧ e.values = values := by
  rw [RBIn.alloc] at h
  split at h
  · cases h
    exact ⟨rfl, rfl, rfl, rfl⟩
  · cases h

theorem pushed_of_foldlM {e e' : RBIn} {pushes : List Location}
    (h : pushes.foldlM RBIn.push e = some e') : Pushed e pushes e' := by
  induction pushes generalizing e with
  | nil =>
      cases h
      exact ⟨by simp, by simp, by simp, rfl⟩
  | cons l pushes ih =>
      rw [List.foldlM_cons] at h
      obtain ⟨e₁, hpush, hrest⟩ := Option.bind_eq_some_iff.mp h
      obtain ⟨hlines, hfilenames, hnames, hvalues⟩ := alloc_eq_some hpush
      have hlater := ih hrest
      constructor
      · simp [hlater.lines, hlines]
      · simp [hlater.filenames, hfilenames, StringBuffer.add]
      · simp [hlater.names, hnames, StringBuffer.add]
      · rw [hlater.values, hvalues]

/-- What an entry holds after its pushes. -/
structure Gathered (values : List Int64) (pushes : List Location) (e : RBIn) : Prop where
  lines : e.lines = pushes.map Location.line
  filenames : e.filenames.buffer = pushes.flatMap fun l => l.filename ++ [0]
  names : e.names.buffer = pushes.flatMap fun l => l.name ++ [0]
  values : e.values = values

theorem gathered_of_build {values : List Int64} {pushes : List Location} {e : RBIn}
    (h : RBIn.build values pushes = some e) : Gathered values pushes e := by
  obtain ⟨e₀, halloc, hfold⟩ := Option.bind_eq_some_iff.mp h
  obtain ⟨hlines, hfilenames, hnames, hvalues⟩ := alloc_eq_some halloc
  have hpushed := pushed_of_foldlM hfold
  constructor
  · simp [hpushed.lines, hlines]
  · simp [hpushed.filenames, hfilenames, StringBuffer.empty]
  · simp [hpushed.names, hnames, StringBuffer.empty]
  · rw [hpushed.values, hvalues]

/-! ## The block -/

namespace RBIn

variable (e : RBIn)

theorem serializedSize_eq :
    e.serializedSize = blockSize e.lines e.filenames e.names e.values :=
  usize_eq (e.inMemory.trans (by decide))

theorem serializedSize_lt : e.serializedSize < userSpace := by
  rw [serializedSize_eq]
  exact e.inMemory

theorem length_serialize : e.serialize.length = e.serializedSize := by
  rw [serializedSize_eq]
  simp only [serialize, List.flatMap_cons, List.flatMap_nil, List.length_append, length_toLE,
    length_flatMap_int64Bytes, List.length_nil, blockSize, StringBuffer.serializedSize]
  omega

/-! The offsets that the header announces. -/

def filenamesOffset : ℕ := 7 * sizeofSize + sizeofSize * e.lines.length

def namesOffset : ℕ := e.filenamesOffset + e.filenames.buffer.length

def valuesOffset : ℕ := e.namesOffset + e.names.buffer.length

def header : List ℕ :=
  [e.serializedSize, e.lines.length, e.values.length, 7 * sizeofSize, e.filenamesOffset,
    e.namesOffset, e.valuesOffset]

theorem serializedSize_eq_valuesOffset :
    e.serializedSize = e.valuesOffset + sizeofSize * e.values.length := by
  rw [serializedSize_eq]
  simp only [blockSize, StringBuffer.serializedSize, valuesOffset, namesOffset, filenamesOffset]
  omega

theorem header_lt (n : ℕ) (hn : n ∈ e.header) : n < 2 ^ 64 := by
  have hsize := e.serializedSize_eq_valuesOffset
  have hfit := e.serializedSize_lt
  simp only [header, valuesOffset, namesOffset, filenamesOffset, sizeofSize, userSpace,
    List.mem_cons, List.not_mem_nil, or_false] at *
  omega

theorem length_header : (e.header.flatMap (toLE sizeofSize)).length = 7 * sizeofSize := by
  simp [header, sizeofSize]

theorem serialize_eq :
    e.serialize = e.header.flatMap (toLE sizeofSize) ++ (e.lines.flatMap int64Bytes ++
      (e.filenames.buffer ++ (e.names.buffer ++ e.values.flatMap int64Bytes))) := by
  have hsize := e.serializedSize_eq_valuesOffset
  have hfit := e.serializedSize_lt
  simp only [valuesOffset, namesOffset, filenamesOffset, userSpace] at hsize hfit
  simp only [serialize, StringBuffer.serializedSize, getSize]
  rw [usize_eq (by omega), usize_eq (by omega), usize_eq (by omega)]
  rfl

end RBIn

/-! ## Reading a block back -/

theorem run_readString {addr : ℕ} {s : List UInt8} (hnul : 0 ∉ s) (hlen : s.length < 2 ^ 64)
    (h : Holds mem addr (s ++ [0])) : (RBOut.readString addr).run mem = some s :=
  Reader.run_readCString hnul hlen h

theorem run_readValues {valuesOffset i : ℕ} {vs : List Int64}
    (hfit : valuesOffset + (i + vs.length) * sizeofSize < 2 ^ 64)
    (h : Holds mem (valuesOffset + i * sizeofSize) (vs.flatMap int64Bytes)) :
    (RBOut.readValues valuesOffset vs.length i).run mem = some vs := by
  induction vs generalizing i with
  | nil => rfl
  | cons v vs ih =>
      rw [List.flatMap_cons] at h
      have hnext := h.right
      rw [length_int64Bytes, Nat.add_assoc, ← Nat.succ_mul] at hnext
      have hfit' : valuesOffset + (i + 1 + vs.length) * sizeofSize < 2 ^ 64 := by
        rwa [List.length_cons, Nat.add_comm vs.length, ← Nat.add_assoc] at hfit
      have hlt : valuesOffset + i * sizeofSize < 2 ^ 64 := by
        simp only [sizeofSize] at *
        omega
      rw [List.length_cons, RBOut.readValues, usize_eq hlt,
        Reader.run_bind_of_eq (run_readInt64 h.left), Reader.run_bind_of_eq (ih hfit' hnext)]
      rfl

/-- The pushed strings hold no NUL, so that each ends where it was made to end. -/
def NulFree (pushes : List Location) : Prop := ∀ l ∈ pushes, 0 ∉ l.filename ∧ 0 ∉ l.name

instance (pushes : List Location) : Decidable (NulFree pushes) :=
  inferInstanceAs (Decidable (∀ l ∈ pushes, 0 ∉ l.filename ∧ 0 ∉ l.name))

theorem run_iterate {linesOffset i filenames names : ℕ} {pushes : List Location}
    (hnul : NulFree pushes)
    (hlines : linesOffset + (i + pushes.length) * sizeofSize < 2 ^ 64)
    (hfilenames : filenames + (pushes.flatMap fun l => l.filename ++ [0]).length < 2 ^ 64)
    (hnames : names + (pushes.flatMap fun l => l.name ++ [0]).length < 2 ^ 64)
    (hl : Holds mem (linesOffset + i * sizeofSize)
      ((pushes.map Location.line).flatMap int64Bytes))
    (hf : Holds mem filenames (pushes.flatMap fun l => l.filename ++ [0]))
    (hn : Holds mem names (pushes.flatMap fun l => l.name ++ [0])) :
    (RBOut.iterate linesOffset pushes.length i filenames names).run mem = some pushes := by
  induction pushes generalizing i filenames names with
  | nil => rfl
  | cons l pushes ih =>
      obtain ⟨hfilename, hname⟩ := hnul l List.mem_cons_self
      rw [List.flatMap_cons] at hf hn hfilenames hnames
      rw [List.map_cons, List.flatMap_cons] at hl
      have hnextLine := hl.right
      have hnextFilename := hf.right
      have hnextName := hn.right
      rw [length_int64Bytes, Nat.add_assoc, ← Nat.succ_mul] at hnextLine
      simp only [List.length_append, List.length_cons, List.length_nil] at hfilenames hnames
      simp only [List.length_append, List.length_cons, List.length_nil] at hnextFilename hnextName
      have hlines' : linesOffset + (i + 1 + pushes.length) * sizeofSize < 2 ^ 64 := by
        rwa [List.length_cons, Nat.add_comm pushes.length, ← Nat.add_assoc] at hlines
      have hlt : linesOffset + i * sizeofSize < 2 ^ 64 := by
        simp only [sizeofSize] at *
        omega
      have hreadFilename := run_readString hfilename (by omega) hf.left
      have hreadName := run_readString hname (by omega) hn.left
      have hrest := ih (fun x hx => hnul x (List.mem_cons_of_mem l hx)) hlines' (by omega)
        (by omega) hnextLine hnextFilename hnextName
      rw [List.length_cons, RBOut.iterate, Reader.run_bind_of_eq hreadFilename,
        Reader.run_bind_of_eq hreadName, usize_eq hlt,
        Reader.run_bind_of_eq (run_readInt64 hl.left), Reader.run_bind_of_eq hreadFilename,
        Reader.run_bind_of_eq hreadName, usize_eq (by omega), usize_eq (by omega),
        Reader.run_bind_of_eq hrest]
      rfl

/-- The words of the header are read as they were written. -/
theorem run_header {e : RBIn} (h : Holds mem 0 (e.header.flatMap (toLE sizeofSize))) {i n : ℕ}
    (hi : e.header[i]? = some n) : (RBOut.readSize (i * sizeofSize)).run mem = some n := by
  obtain ⟨hlt, rfl⟩ := List.getElem?_eq_some_iff.mp hi
  have hword := h.item (length_toLE sizeofSize) i hlt
  rw [Nat.zero_add] at hword
  exact run_readSize (e.header_lt _ (List.getElem_mem hlt)) hword

/-- The sections stand where the header says. -/
theorem holds_sections {e : RBIn} (h : Holds mem 0 e.serialize) :
    Holds mem 0 (e.header.flatMap (toLE sizeofSize)) ∧
      Holds mem (7 * sizeofSize) (e.lines.flatMap int64Bytes) ∧
      Holds mem e.filenamesOffset e.filenames.buffer ∧
      Holds mem e.namesOffset e.names.buffer ∧
      Holds mem e.valuesOffset (e.values.flatMap int64Bytes) := by
  rw [e.serialize_eq] at h
  have hlines := h.right
  rw [e.length_header, Nat.zero_add] at hlines
  have hfilenames := hlines.right
  rw [length_flatMap_int64Bytes] at hfilenames
  have hnames := hfilenames.right
  exact ⟨h.left, hlines.left, hfilenames.left, hnames.left, hnames.right⟩

/-- An `RBOut` on the bytes of an entry, wherever they are, reports their number and gives
back the values and the pushed locations. -/
theorem run_deserialize {values : List Int64} {pushes : List Location} {e : RBIn}
    (hbuild : RBIn.build values pushes = some e) (hnul : NulFree pushes)
    (h : Holds mem 0 e.serialize) :
    RBOut.deserialize.run mem = some ⟨e.serializedSize, values, pushes⟩ := by
  obtain ⟨hlines, hfilenames, hnames, hvalues⟩ := gathered_of_build hbuild
  have hcount : e.lines.length = pushes.length := by rw [hlines, List.length_map]
  have hfit := e.serializedSize_lt
  rw [e.serializedSize_eq_valuesOffset] at hfit
  simp only [RBIn.valuesOffset, RBIn.namesOffset, RBIn.filenamesOffset, sizeofSize,
    userSpace] at hfit
  obtain ⟨hheader, hl, hf, hn, hv⟩ := holds_sections h
  have hreadValues : (RBOut.readValues e.valuesOffset e.values.length 0).run mem =
      some e.values := by
    apply run_readValues
    · simp only [RBIn.valuesOffset, RBIn.namesOffset, RBIn.filenamesOffset, sizeofSize]
      omega
    · rwa [Nat.zero_mul]
  have hiterate : (RBOut.iterate (7 * sizeofSize) e.lines.length 0 e.filenamesOffset
      e.namesOffset).run mem = some pushes := by
    rw [hcount]
    apply run_iterate hnul
    · simp only [sizeofSize]
      omega
    · rw [← hfilenames]
      simp only [RBIn.filenamesOffset, sizeofSize]
      omega
    · rw [← hnames]
      simp only [RBIn.namesOffset, RBIn.filenamesOffset, sizeofSize]
      omega
    · rwa [Nat.zero_mul, ← hlines]
    · rwa [← hfilenames]
    · rwa [← hnames]
  have hword : ∀ {i n : ℕ}, e.header[i]? = some n →
      (RBOut.readSize (i * sizeofSize)).run mem = some n := run_header hheader
  have hfirst : (RBOut.readSize 0).run mem = some e.serializedSize := by
    rw [← Nat.zero_mul sizeofSize]
    exact hword rfl
  rw [RBOut.deserialize, Reader.run_bind_of_eq hfirst, Reader.run_bind_of_eq (hword rfl),
    Reader.run_bind_of_eq (hword rfl), Reader.run_bind_of_eq (hword rfl),
    Reader.run_bind_of_eq (hword rfl), Reader.run_bind_of_eq (hword rfl),
    Reader.run_bind_of_eq (hword rfl), Reader.run_bind_of_eq hreadValues,
    Reader.run_bind_of_eq hiterate, Reader.run_pure, hvalues]

/-- For every sequence of pushes of NUL-free strings, `serialize` writes as many bytes as
`serializedSize` says, and an `RBOut` on these bytes calls back once for each push, in order
and with its arguments, and reports that size. -/
theorem entry_codec (values : List Int64) (pushes : List Location) (e : RBIn)
    (hbuild : RBIn.build values pushes = some e) (hnul : NulFree pushes) :
    e.serialize.length = e.serializedSize ∧
      ∀ mem, Holds mem 0 e.serialize → ∃ out, RBOut.deserialize.run mem = some out ∧
        out.calls = pushes ∧ out.bufferSize = e.serializedSize ∧ out.values = values := by
  refine ⟨e.length_serialize, ?_⟩
  intro mem hmem
  exact ⟨_, run_deserialize hbuild hnul hmem, rfl, rfl, rfl⟩

/-- Two pushes, one of them with an empty name, read back from their bytes alone. -/
theorem entry_codec_empty_name :
    ∃ e, RBIn.build [5] [⟨[97, 46, 99], [109], 7⟩, ⟨[98], [], -1⟩] = some e ∧
      e.serialize.length = 89 ∧ ∃ out, RBOut.deserialize.run (only e.serialize) = some out ∧
        out.calls = [⟨[97, 46, 99], [109], 7⟩, ⟨[98], [], -1⟩] := by
  refine ⟨_, rfl, ?_⟩
  obtain ⟨hlength, hread⟩ := entry_codec [5] [⟨[97, 46, 99], [109], 7⟩, ⟨[98], [], -1⟩] _ rfl
    (by decide)
  obtain ⟨out, hrun, hcalls, -⟩ := hread _ (holds_only _)
  exact ⟨hlength, out, hrun, hcalls⟩

/-- An entry without locations and values. -/
def emptyEntry : RBIn := ⟨[], StringBuffer.empty, StringBuffer.empty, [], by decide⟩

end SystemsExperiments.SimpleRingbuffer
