import SystemsExperiments.Model.StartSo.ScrubArgs
import Mathlib.Data.List.Count

/-! # What the loop counts

It looks at the byte behind a piece and not at the first one. The byte behind is what an earlier
piece left there. -/

namespace SystemsExperiments.StartSo

open ProcessStack Bytes

/-! ## The buffer -/

/-- What the latest of the earlier pieces that is long enough has at an index. -/
def behind : List (List UInt8) → ℕ → UInt8
  | [], _ => 0
  | chunk :: earlier, n => if n < chunk.length then chunk.getD n 0 else behind earlier n

/-- The buffer after some pieces, the latest first. -/
structure Buffered (buf : List UInt8) (earlier : List (List UInt8)) : Prop where
  length_eq : buf.length = bufSize
  getElem_eq : ∀ n, n < bufSize → buf[n]? = some (behind earlier n)

theorem buffered_replicate : Buffered (List.replicate bufSize 0) [] where
  length_eq := List.length_replicate
  getElem_eq := fun n hn => by
    rw [List.getElem?_replicate, if_pos hn]
    rfl

theorem Buffered.readInto {buf : List UInt8} {earlier : List (List UInt8)}
    (h : Buffered buf earlier) {chunk : List UInt8} (hchunk : chunk.length ≤ bufSize) :
    Buffered (readInto buf chunk) (chunk :: earlier) := by
  refine ⟨?_, ?_⟩
  · rw [StartSo.readInto, List.length_append, List.length_drop, h.length_eq]
    omega
  · intro n hn
    rw [StartSo.readInto, behind]
    by_cases hin : n < chunk.length
    · rw [if_pos hin, List.getElem?_append_left hin, List.getD_eq_getElem?_getD]
      simp [hin]
    · rw [if_neg hin, List.getElem?_append_right (by omega), List.getElem?_drop,
        ← h.getElem_eq n hn]
      congr 1
      omega

/-! ## One piece -/

/-- The first byte is left out. -/
theorem countZeros_eq {buf : List UInt8} {n : ℕ} (hn : n < buf.length) (argc : ℕ) :
    countZeros buf n argc = .ok (argc + ((buf.drop 1).take n).count 0) := by
  induction n generalizing argc with
  | zero => simp [countZeros]
  | succ n ih =>
      have htake : (buf.drop 1).take (n + 1) = (buf.drop 1).take n ++ [buf[n + 1]] := by
        rw [List.take_add_one, List.getElem?_drop, Nat.add_comm 1 n, List.getElem?_eq_getElem hn]
        rfl
      rw [countZeros, List.getElem?_eq_getElem hn, htake, List.count_append]
      simp only [ih (Nat.lt_of_succ_lt hn)]
      by_cases hzero : buf[n + 1] = 0
      · simp [hzero]
        omega
      · simp [hzero]

theorem countZeros_overrun {buf : List UInt8} {n : ℕ} (hn : buf.length = n) (hpos : 0 < n)
    (argc : ℕ) : countZeros buf n argc = .error .buf := by
  obtain ⟨n, rfl⟩ : ∃ k, n = k + 1 := ⟨n - 1, by omega⟩
  rw [countZeros, List.getElem?_eq_none (by omega)]

def nulAt (b : UInt8) : ℕ := if b = 0 then 1 else 0

theorem count_singleton_zero (b : UInt8) : [b].count 0 = nulAt b := by
  rw [List.count_singleton, nulAt]
  simp only [beq_iff_eq]

theorem count_behind {buf : List UInt8} {earlier : List (List UInt8)} (h : Buffered buf earlier)
    (c : UInt8) (chunk : List UInt8) (hchunk : (c :: chunk).length < bufSize) :
    (((readInto buf (c :: chunk)).drop 1).take (c :: chunk).length).count 0 + nulAt c =
      (c :: chunk).count 0 + nulAt (behind earlier (c :: chunk).length) := by
  have hlast := (h.readInto (Nat.le_of_lt hchunk)).getElem_eq (c :: chunk).length hchunk
  rw [behind, if_neg (Nat.lt_irrefl _)] at hlast
  have htake : (readInto buf (c :: chunk)).take ((c :: chunk).length + 1) =
      (c :: chunk) ++ [behind earlier (c :: chunk).length] := by
    rw [List.take_add_one, hlast, readInto, List.take_left]
    rfl
  have hcount := congrArg (List.count 0) htake
  rw [List.count_append, count_singleton_zero, readInto, List.cons_append, List.take_succ_cons,
    List.count_cons] at hcount
  rw [← hcount, readInto, List.cons_append, List.drop_one, List.tail_cons, nulAt]
  simp

/-! ## All pieces -/

/-- The pieces that start with a NUL, which is not counted. -/
def nulsFirst : List (List UInt8) → ℕ
  | [] => 0
  | chunk :: chunks => (if chunk.head? = some 0 then 1 else 0) + nulsFirst chunks

/-- The pieces behind which a NUL is counted. -/
def nulsBehind (earlier : List (List UInt8)) : List (List UInt8) → ℕ
  | [] => 0
  | chunk :: chunks =>
      (if behind earlier chunk.length = 0 then 1 else 0) + nulsBehind (chunk :: earlier) chunks

theorem countChunks_eq {buf : List UInt8} {earlier : List (List UInt8)} (h : Buffered buf earlier)
    {chunks : List (List UInt8)} (hne : ∀ chunk ∈ chunks, chunk ≠ [])
    (hlt : ∀ chunk ∈ chunks, chunk.length < bufSize) (argc : ℕ) :
    ∃ counted, countChunks buf argc chunks = .ok counted ∧
      counted + nulsFirst chunks = argc + chunks.flatten.count 0 + nulsBehind earlier chunks := by
  induction chunks generalizing buf earlier argc with
  | nil => exact ⟨argc, rfl, rfl⟩
  | cons chunk chunks ih =>
      rw [List.forall_mem_cons] at hne hlt
      have hbuf := h.readInto (Nat.le_of_lt hlt.1)
      have hroom : chunk.length < (readInto buf chunk).length := by
        rw [hbuf.length_eq]
        exact hlt.1
      obtain ⟨counted, hcounted, hsum⟩ :=
        ih hbuf hne.2 hlt.2 (argc + (((readInto buf chunk).drop 1).take chunk.length).count 0)
      refine ⟨counted, ?_, ?_⟩
      · rw [countChunks, countZeros_eq hroom]
        exact hcounted
      · cases chunk with
        | nil => exact absurd rfl hne.1
        | cons c chunk =>
            have hone := count_behind h c chunk hlt.1
            rw [nulAt, nulAt] at hone
            rw [List.flatten_cons, List.count_append, nulsFirst, nulsBehind, List.head?_cons]
            simp only [Option.some.injEq]
            omega

theorem countChunks_overrun {buf : List UInt8} {earlier : List (List UInt8)}
    (h : Buffered buf earlier) {chunks : List (List UInt8)}
    (hle : ∀ chunk ∈ chunks, chunk.length ≤ bufSize)
    (hfull : ∃ chunk ∈ chunks, chunk.length = bufSize) (argc : ℕ) :
    countChunks buf argc chunks = .error .buf := by
  induction chunks generalizing buf earlier argc with
  | nil => simp at hfull
  | cons chunk chunks ih =>
      rw [List.forall_mem_cons] at hle
      have hbuf := h.readInto hle.1
      rw [countChunks]
      by_cases hone : chunk.length = bufSize
      · rw [countZeros_overrun (by rw [hbuf.length_eq, hone]) (by rw [hone]; decide)]
        rfl
      · have hrest : ∃ chunk ∈ chunks, chunk.length = bufSize := by
          obtain ⟨full, hmem, hlen⟩ := hfull
          cases List.mem_cons.mp hmem with
          | inl heq => exact absurd (heq ▸ hlen) hone
          | inr hmem => exact ⟨full, hmem, hlen⟩
        rw [countZeros_eq (by rw [hbuf.length_eq]; omega)]
        exact ih hbuf hle.2 hrest _

/-! ## The command line -/

/-- The pieces that the calls of `read` give. -/
structure Reads (args : List StringAt) where
  chunks : List (List UInt8)
  ne_nil : ∀ chunk ∈ chunks, chunk ≠ []
  length_le : ∀ chunk ∈ chunks, chunk.length ≤ bufSize
  flatten_eq : chunks.flatten = args.flatMap fun s => s.bytes ++ [0]

theorem count_cmdline (args : List StringAt) :
    (args.flatMap fun s => s.bytes ++ [0]).count 0 = args.length := by
  induction args with
  | nil => rfl
  | cons s args ih =>
      rw [List.flatMap_cons, List.count_append, List.count_append, ih,
        List.count_eq_zero.mpr s.zero_notMem, List.length_cons]
      simp
      omega

/-- Which pieces are counted right together. -/
def Balanced (chunks : List (List UInt8)) : Prop :=
  (∀ chunk ∈ chunks, chunk.length < bufSize) ∧ nulsFirst chunks = nulsBehind [] chunks

theorem countArgs_eq_iff {args : List StringAt} (reads : Reads args) :
    countArgs reads.chunks = .ok args.length ↔ Balanced reads.chunks := by
  rw [countArgs, Balanced]
  by_cases hlt : ∀ chunk ∈ reads.chunks, chunk.length < bufSize
  · obtain ⟨counted, hcounted, hsum⟩ := countChunks_eq buffered_replicate reads.ne_nil hlt 0
    rw [reads.flatten_eq, count_cmdline] at hsum
    rw [hcounted, Except.ok.injEq, and_iff_right hlt]
    omega
  · have hfull : ∃ chunk ∈ reads.chunks, chunk.length = bufSize := by
      simp only [not_forall] at hlt
      obtain ⟨chunk, hmem, hlen⟩ := hlt
      exact ⟨chunk, hmem, Nat.le_antisymm (reads.length_le chunk hmem) (Nat.le_of_not_lt hlen)⟩
    rw [countChunks_overrun buffered_replicate reads.length_le hfull 0]
    exact iff_of_false (by simp) (fun h => hlt h.1)

/-! ## Scrubbing -/

variable {stack : InitialStack}

/-- The arguments from `i` on, when as many are to be done. -/
theorem scrubFrom_stack {memory : Memory} (argc i : ℕ) (hi : argc + i = stack.args.length + 1)
    (hpos : 0 < i) (h : stack.Untouched memory i) :
    scrubFrom stack.environ argc memory = .ok (mask 63 memory (stack.args.drop i)) := by
  induction argc generalizing memory i with
  | zero =>
      rw [List.drop_eq_nil_of_le (by omega)]
      rfl
  | succ argc ih =>
      rw [scrubFrom]
      by_cases hone : argc = 0
      · rw [if_pos hone, List.drop_eq_nil_of_le (by omega)]
        rfl
      · have hlt : i < stack.args.length := by omega
        have haddr : stack.environ - 8 * (argc + 1) = stack.argv + 8 * i := by
          rw [InitialStack.environ, InitialStack.argv]
          omega
        have hpointer : argAt memory stack.environ (argc + 1) = .ok stack.args[i].addr := by
          rw [argAt, haddr, InitialStack.loadWord_arg h.intact i hlt]
        have hlen : strlen memory stack.args[i].addr = .ok stack.args[i].bytes.length := by
          have hshort := (stack.args[i]).length_lt
          rw [strlen, Reader.run_readCString (stack.args[i]).zero_notMem (by omega)
            (h.string_at hlt)]
        have hrest := ih (i + 1) (by omega) (Nat.succ_pos i) (h.fill hlt 63)
        rw [if_neg hone, hpointer, List.drop_eq_getElem_cons hlt]
        simp only [bind, Except.bind, hlen]
        exact hrest

/-- The count is right, no index is outside the buffer, and only arguments are overwritten, if
no piece fills the buffer and as many zeros are counted behind pieces as are left out. -/
theorem scrubArgs_right_iff (stack : InitialStack) (reads : Reads stack.args) :
    (∃ memory, countArgs reads.chunks = .ok stack.args.length ∧
        scrubArgs stack.memory stack.environ reads.chunks = .ok memory ∧
        ∀ a, memory a ≠ stack.memory a → ∃ s ∈ stack.args, s.Covers a) ↔
      (∀ chunk ∈ reads.chunks, chunk.length < bufSize) ∧
        nulsFirst reads.chunks = nulsBehind [] reads.chunks := by
  rw [← Balanced, ← countArgs_eq_iff]
  constructor
  · intro h
    obtain ⟨memory, hcount, -⟩ := h
    exact hcount
  · intro hcount
    refine ⟨mask 63 stack.memory (stack.args.drop 1), hcount, ?_, ?_⟩
    · rw [scrubArgs, hcount]
      exact scrubFrom_stack _ 1 rfl Nat.one_pos (stack.untouched_memory 1)
    · intro a hne
      by_contra hnone
      refine hne (mask_of_outside ?_)
      intro s hs hcovers
      exact hnone ⟨s, List.mem_of_mem_drop hs, hcovers⟩

/-- The usual way: all of a short command line at once. -/
def smallReads : Reads smallStack.args where
  chunks := [[97, 0, 98, 0]]
  ne_nil := by decide
  length_le := by decide
  flatten_eq := by decide

/-- The zero behind it is counted, too; and behind a full buffer there is nothing. -/
theorem countArgs_wrong :
    countArgs smallReads.chunks = .ok (smallStack.args.length + 1) ∧
      countArgs [List.replicate 1023 97 ++ [0]] = .error .buf := by
  decide +kernel

end SystemsExperiments.StartSo
