import SystemsExperiments.Model.NotMySegfault.MemcpySafe

/-! # What `memcpy_safe` copies

Each `writev` goes on where the one before it has stopped, but the copy is always taken from
the start of the file. So a call delivers the first bytes that were ever written. -/

namespace SystemsExperiments.NotMySegfault

/-- The `n` bytes at `src`. -/
def bytesAt (mem : ℕ → UInt8) (src n : ℕ) : List UInt8 := (List.range n).map fun i => mem (src + i)

/-- A call that returns `true` leaves at `dst` what was at `src`. -/
def Copies (p : Process) : Event → Prop
  | .memcpySafe dst src n ok =>
      (memcpySafe p dst src n ok).2 = true →
        bytesAt (memcpySafe p dst src n ok).1.mem dst n = bytesAt p.mem src n
  | _ => True

def AllCopies (p : Process) : List Event → Prop
  | [] => True
  | e :: rest => Copies p e ∧ AllCopies (step p e) rest

/-- The bytes that an event adds to the file. -/
def written (p : Process) : Event → List UInt8
  | .store _ _ => []
  | .memgetSafe src n ok => if ok then bytesAt p.mem src n else []
  | .memcpySafe _ src n ok =>
      if p.gBuffer ∧ n ≤ gBufferSize ∧ ok then bytesAt p.mem src n else []

/-- What a call writes is also what the file begins with, once it is written behind the bytes
`earlier` of the calls before. -/
def Agrees (p : Process) (earlier : List UInt8) : Event → Prop
  | .memcpySafe dst src n ok =>
      written p (.memcpySafe dst src n ok) <+: earlier ++ written p (.memcpySafe dst src n ok)
  | _ => True

def AllAgree (p : Process) (earlier : List UInt8) : List Event → Prop
  | [] => True
  | e :: rest => Agrees p earlier e ∧ AllAgree (step p e) (earlier ++ written p e) rest

/-! ## The file -/

/-- The file begins with `bs`, and the next `writev` goes on behind them. -/
structure Recorded (p : Process) (bs : List UInt8) : Prop where
  offset : p.offset = bs.length
  file : ∀ i (h : i < bs.length), p.file i = bs[i]

theorem recorded_init (mem : ℕ → UInt8) (mkstemp ftruncate mmap : Bool) :
    Recorded (initMemcpySafe mem mkstemp ftruncate mmap) [] := by
  refine ⟨rfl, ?_⟩
  intro i hi
  simp at hi

@[simp] theorem length_bytesAt (mem : ℕ → UInt8) (src n : ℕ) : (bytesAt mem src n).length = n := by
  simp [bytesAt]

theorem recorded_writev {p : Process} {bs : List UInt8} (h : Recorded p bs) (src n : ℕ) :
    Recorded (writev p src n true).1 (bs ++ bytesAt p.mem src n) := by
  simp only [writev, if_true]
  constructor
  · simp [h.offset]
  · intro i hi
    rw [List.length_append, length_bytesAt] at hi
    simp only [overwrite, h.offset]
    by_cases hlt : i < bs.length
    · rw [if_neg (by omega), h.file i hlt, List.getElem_append_left hlt]
    · rw [if_pos (by omega), List.getElem_append_right (by omega)]
      simp [bytesAt]

/-- The file begins with what is recorded of it. -/
theorem bytesAt_file {p : Process} {bs : List UInt8} (h : Recorded p bs) {n : ℕ}
    (hn : n ≤ bs.length) : bytesAt p.file 0 n = bs.take n := by
  apply List.ext_getElem
  · simp [hn]
  · intro i hi _
    rw [length_bytesAt] at hi
    simp [bytesAt, h.file i (by omega)]

/-! ## One call -/

/-- The cases of `memcpy_safe`: nothing is written, or the source is recorded and the copy is
taken from the start of the file. -/
theorem memcpySafe_cases (p : Process) (dst src n : ℕ) (ok : Bool) :
    (written p (.memcpySafe dst src n ok) = [] ∧ (memcpySafe p dst src n ok).1 = p ∧
        ((memcpySafe p dst src n ok).2 = true → n = 0)) ∨
      (written p (.memcpySafe dst src n ok) = bytesAt p.mem src n ∧
        memcpySafe p dst src n ok =
          ({ (writev p src n true).1 with
              mem := overwrite p.mem dst n (writev p src n true).1.file }, true)) := by
  by_cases hguard : p.gBuffer = false ∨ gBufferSize < n
  · refine .inl ⟨?_, ?_, ?_⟩
    · rw [written, if_neg]
      rintro ⟨hbuffer, hsize, -⟩
      rcases hguard with hnull | hlarge
      · simp [hnull] at hbuffer
      · omega
    · rw [memcpySafe, if_pos hguard]
    · rw [memcpySafe, if_pos hguard]
      simp
  · obtain ⟨hbuffer, hsize⟩ := not_or.mp hguard
    rw [Bool.not_eq_false] at hbuffer
    by_cases hn : n = 0
    · subst hn
      refine .inl ⟨?_, ?_, ?_⟩
      · simp [written, bytesAt]
      · rw [memcpySafe, if_neg hguard, if_pos rfl]
      · intro _
        rfl
    · cases ok with
      | false =>
          refine .inl ⟨?_, ?_, ?_⟩
          · simp [written]
          · simp [memcpySafe, hguard, hn, memgetSafe, writev]
          · simp [memcpySafe, hguard, hn, memgetSafe, writev]
      | true =>
          refine .inr ⟨?_, ?_⟩
          · rw [written, if_pos ⟨hbuffer, by omega, rfl⟩]
          · simp [memcpySafe, hn, memgetSafe, writev, hbuffer, Nat.le_of_not_lt hsize]

theorem bytesAt_overwrite (mem data : ℕ → UInt8) (dst n : ℕ) :
    bytesAt (overwrite mem dst n data) dst n = bytesAt data 0 n := by
  apply List.map_congr_left
  intro i hi
  rw [List.mem_range] at hi
  rw [overwrite, if_pos (by omega)]
  congr 1
  omega

/-- A call copies what it is told exactly if its source agrees with the start of the file. -/
theorem copies_iff_agrees {p : Process} {bs : List UInt8} (h : Recorded p bs) (e : Event) :
    Copies p e ↔ Agrees p bs e := by
  cases e with
  | store addr byte => exact Iff.rfl
  | memgetSafe src n ok => exact Iff.rfl
  | memcpySafe dst src n ok =>
      rcases memcpySafe_cases p dst src n ok with ⟨hnil, -, hzero⟩ | ⟨hwritten, hcall⟩
      · refine iff_of_true ?_ ?_
        · intro htrue
          rw [hzero htrue]
          rfl
        · rw [Agrees, hnil]
          exact List.nil_prefix
      · have hrecorded := recorded_writev h src n
        have hcopied : bytesAt (memcpySafe p dst src n ok).1.mem dst n =
            (bs ++ bytesAt p.mem src n).take n := by
          rw [hcall, bytesAt_overwrite]
          exact bytesAt_file hrecorded (by simp)
        rw [Copies, Agrees, hwritten, List.prefix_iff_eq_take, length_bytesAt, hcopied, hcall]
        simp [eq_comm]

theorem recorded_step {p : Process} {bs : List UInt8} (h : Recorded p bs) (e : Event) :
    Recorded (step p e) (bs ++ written p e) := by
  cases e with
  | store addr byte => simpa [written, step] using ⟨h.offset, h.file⟩
  | memgetSafe src n ok =>
      cases ok with
      | false => simpa [written, step, memgetSafe, writev] using h
      | true => simpa [written, step, memgetSafe, writev] using recorded_writev h src n
  | memcpySafe dst src n ok =>
      rcases memcpySafe_cases p dst src n ok with ⟨hnil, hsame, -⟩ | ⟨hwritten, hcall⟩
      · simpa [step, hnil, hsame] using h
      · obtain ⟨hoffset, hfile⟩ := recorded_writev h src n
        rw [hwritten, step, hcall]
        exact ⟨hoffset, hfile⟩

/-! ## Runs -/

theorem allCopies_iff_allAgree {p : Process} {bs : List UInt8} (h : Recorded p bs)
    (events : List Event) : AllCopies p events ↔ AllAgree p bs events := by
  induction events generalizing p bs with
  | nil => exact Iff.rfl
  | cons e events ih =>
      rw [AllCopies, AllAgree, copies_iff_agrees h e, ih (recorded_step h e)]

/-- Whatever a process does after `init_memcpy_safe`: all its calls copy what they are told
exactly if each of them gives as its source what the file begins with, that is, the start of
all sources so far. -/
theorem memcpySafe_copies_iff (mem : ℕ → UInt8) (mkstemp ftruncate mmap : Bool)
    (events : List Event) :
    AllCopies (initMemcpySafe mem mkstemp ftruncate mmap) events ↔
      AllAgree (initMemcpySafe mem mkstemp ftruncate mmap) [] events :=
  allCopies_iff_allAgree (recorded_init mem mkstemp ftruncate mmap) events

/-- Two calls for different bytes: the second delivers the first one's byte. -/
theorem memcpySafe_copies_fails_on_second_source :
    ¬ ∀ (mem : ℕ → UInt8) (mkstemp ftruncate mmap : Bool) (events : List Event),
      AllCopies (initMemcpySafe mem mkstemp ftruncate mmap) events := by
  intro h
  obtain ⟨-, hsecond, -⟩ := h (fun a => UInt8.ofNat a) true true true
    [.memcpySafe 100 1 1 true, .memcpySafe 101 2 1 true]
  have hbyte := hsecond rfl
  revert hbyte
  decide

end SystemsExperiments.NotMySegfault
