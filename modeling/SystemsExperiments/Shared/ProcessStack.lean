import SystemsExperiments.Shared.Bytes

/-! # The stack of a new process

The number of arguments, a pointer to each of them, a null pointer, and in the same way the
environment; the strings themselves are somewhere else. -/

namespace SystemsExperiments.ProcessStack

open Bytes

abbrev Memory := ℕ → Option UInt8

/-! ## Words -/

def loadWord (memory : Memory) (addr : ℕ) : Option ℕ := (Reader.readLE 8 addr).run memory

theorem loadWord_item {memory : Memory} {start : ℕ} {words : List ℕ}
    (hlt : ∀ word ∈ words, word < 2 ^ 64) (h : Holds memory start (words.flatMap (toLE 8)))
    (i : ℕ) (hi : i < words.length) : loadWord memory (start + 8 * i) = some words[i] := by
  have hword := h.item (length_toLE 8) i hi
  rw [Nat.mul_comm] at hword
  exact Reader.run_readLE_toLE (hlt _ (List.getElem_mem hi)) hword

/-! ## Setting bytes -/

theorem holds_update {memory : Memory} {addr a : ℕ} {bs : List UInt8} (h : Holds memory addr bs)
    (ha : a < addr ∨ addr + bs.length ≤ a) (b : Option UInt8) :
    Holds (Function.update memory a b) addr bs := by
  intro i hi
  rw [Function.update_of_ne (by omega)]
  exact h i hi

/-- The memory with `count` bytes from an address on set to one value. -/
def fill (memory : Memory) (addr count : ℕ) (value : UInt8) : Memory := fun a =>
  if addr ≤ a ∧ a < addr + count then some value else memory a

section Fill

variable {memory : Memory} {addr count : ℕ} {value : UInt8}

@[simp] theorem fill_zero : fill memory addr 0 value = memory := by
  funext a
  exact if_neg (by omega)

theorem fill_update : fill (Function.update memory addr value) (addr + 1) count value =
    fill memory addr (count + 1) value := by
  funext a
  rw [fill, fill]
  by_cases ha : a = addr
  · subst ha
    rw [if_neg (by omega), if_pos (by omega), Function.update_self]
  · by_cases hin : addr + 1 ≤ a ∧ a < addr + 1 + count
    · rw [if_pos hin, if_pos (by omega)]
    · rw [if_neg hin, if_neg (by omega), Function.update_of_ne ha]

theorem fill_of_outside {a : ℕ} (h : a < addr ∨ addr + count ≤ a) :
    fill memory addr count value a = memory a :=
  if_neg (by omega)

theorem holds_fill_apart {addr' : ℕ} {bs : List UInt8} (h : Holds memory addr' bs)
    (hapart : addr' + bs.length ≤ addr ∨ addr + count ≤ addr') :
    Holds (fill memory addr count value) addr' bs := by
  intro i hi
  rw [fill_of_outside (by omega)]
  exact h i hi

theorem holds_fill {rest : List UInt8} (h : Holds memory (addr + count) rest) :
    Holds (fill memory addr count value) addr (List.replicate count value ++ rest) := by
  intro i hi
  by_cases hlt : i < count
  · rw [fill, if_pos (by omega), List.getElem_append_left (by simpa using hlt)]
    simp
  · rw [fill_of_outside (by omega), List.getElem_append_right (by simpa using hlt)]
    have hnext := h (i - count) (by simp at hi; omega)
    have haddr : addr + count + (i - count) = addr + i := by omega
    rw [haddr] at hnext
    simpa using hnext

end Fill

/-! ## Strings -/

/-- A string without its NUL, and where it is; `execve` takes no longer ones. -/
structure StringAt where
  addr : ℕ
  bytes : List UInt8
  addr_lt : addr < 2 ^ 64
  zero_notMem : 0 ∉ bytes
  length_lt : bytes.length < 2 ^ 31

namespace StringAt

/-- The address of the NUL. -/
def last (s : StringAt) : ℕ := s.addr + s.bytes.length

/-- No byte of the one is a byte of the other. -/
def Apart (s t : StringAt) : Prop := s.last < t.addr ∨ t.last < s.addr

theorem Apart.symm {s t : StringAt} (h : s.Apart t) : t.Apart s := Or.symm h

def Covers (s : StringAt) (a : ℕ) : Prop := s.addr ≤ a ∧ a < s.last

end StringAt

/-- The memory with all bytes of some strings replaced. -/
def mask (value : UInt8) (memory : Memory) (strings : List StringAt) : Memory :=
  strings.foldl (fun memory s => fill memory s.addr s.bytes.length value) memory

section Mask

variable {value : UInt8} {memory : Memory}

theorem mask_of_outside {strings : List StringAt} {a : ℕ} (h : ∀ s ∈ strings, ¬ s.Covers a) :
    mask value memory strings a = memory a := by
  induction strings generalizing memory with
  | nil => rfl
  | cons s strings ih =>
      rw [List.forall_mem_cons] at h
      have hs : a < s.addr ∨ s.addr + s.bytes.length ≤ a := by
        have hcovers := h.1
        rw [StringAt.Covers, StringAt.last] at hcovers
        omega
      rw [mask, List.foldl_cons]
      exact (ih h.2).trans (fill_of_outside hs)

theorem holds_mask_apart {strings : List StringAt} {addr : ℕ} {bs : List UInt8}
    (h : Holds memory addr bs)
    (hapart : ∀ s ∈ strings, s.last < addr ∨ addr + bs.length ≤ s.addr) :
    Holds (mask value memory strings) addr bs := by
  intro i hi
  rw [mask_of_outside, h i hi]
  intro s hs hcovers
  have haway := hapart s hs
  rw [StringAt.Covers] at hcovers
  omega

theorem holds_fill_of_apart {s t : StringAt} (hapart : s.Apart t)
    (h : Holds memory t.addr (t.bytes ++ [0])) :
    Holds (fill memory s.addr s.bytes.length value) t.addr (t.bytes ++ [0]) := by
  rw [StringAt.Apart, StringAt.last, StringAt.last] at hapart
  refine holds_fill_apart h ?_
  rw [List.length_append, List.length_singleton]
  omega

theorem holds_mask {strings : List StringAt} (hpairwise : strings.Pairwise StringAt.Apart)
    (h : ∀ s ∈ strings, Holds memory s.addr (s.bytes ++ [0])) {s : StringAt} (hs : s ∈ strings) :
    Holds (mask value memory strings) s.addr
      (List.replicate s.bytes.length value ++ [0]) := by
  induction strings generalizing memory with
  | nil => cases hs
  | cons t strings ih =>
      rw [List.pairwise_cons] at hpairwise
      rw [List.forall_mem_cons] at h
      rw [mask, List.foldl_cons]
      cases List.mem_cons.mp hs with
      | inl hst =>
          subst hst
          refine holds_mask_apart (holds_fill h.1.right) ?_
          intro u hu
          have hsu := hpairwise.1 u hu
          rw [StringAt.Apart, StringAt.last, StringAt.last] at hsu
          rw [StringAt.last, List.length_append, List.length_replicate, List.length_singleton]
          omega
      | inr hs =>
          exact ih hpairwise.2 (fun u hu => holds_fill_of_apart (hpairwise.1 u hu) (h.2 u hu)) hs

end Mask

/-! ## The stack -/

/-- What is on the stack. -/
def vector (args envs : List StringAt) : List ℕ :=
  args.length :: args.map StringAt.addr ++ 0 :: envs.map StringAt.addr ++ [0]

structure InitialStack where
  memory : Memory
  start : ℕ
  args : List StringAt
  envs : List StringAt
  length_args_lt : args.length < 2 ^ 31
  vector_at : Holds memory start ((vector args envs).flatMap (toLE 8))
  strings_at : ∀ s ∈ args ++ envs, Holds memory s.addr (s.bytes ++ [0])
  pairwise_apart : (args ++ envs).Pairwise StringAt.Apart
  apart_vector : ∀ s ∈ args ++ envs,
    s.last < start ∨ start + 8 * (vector args envs).length ≤ s.addr

namespace InitialStack

/-- Where the pointer to the first argument is. -/
def argv (stack : InitialStack) : ℕ := stack.start + 8

/-- Where the pointer to the first string of the environment is. -/
def environ (stack : InitialStack) : ℕ := stack.start + 8 * (stack.args.length + 2)

variable (stack : InitialStack)

theorem vector_lt : ∀ word ∈ vector stack.args stack.envs, word < 2 ^ 64 := by
  have hlen := stack.length_args_lt
  intro word hword
  simp only [vector, List.cons_append, List.mem_cons, List.mem_append, List.mem_map,
    List.not_mem_nil, or_false] at hword
  obtain rfl | (⟨s, -, rfl⟩ | rfl | ⟨s, -, rfl⟩) | rfl := hword
  · omega
  · exact s.addr_lt
  · decide
  · exact s.addr_lt
  · decide

/-- The memory may have changed, but not there. -/
def Intact (memory : Memory) : Prop :=
  Holds memory stack.start ((vector stack.args stack.envs).flatMap (toLE 8))

variable {stack} {memory : Memory}

theorem loadWord_count (h : stack.Intact memory) :
    loadWord memory stack.start = some stack.args.length :=
  loadWord_item stack.vector_lt h 0 (by simp [vector])

theorem loadWord_arg (h : stack.Intact memory) (i : ℕ) (hi : i < stack.args.length) :
    loadWord memory (stack.argv + 8 * i) = some stack.args[i].addr := by
  have hword := loadWord_item stack.vector_lt h (i + 1) (by simp [vector]; omega)
  rw [Nat.mul_succ, Nat.add_comm (8 * i), ← Nat.add_assoc] at hword
  rw [argv, hword]
  simp [vector, hi]

/-- The word behind the pointers to the arguments. -/
theorem loadWord_null (h : stack.Intact memory) :
    loadWord memory (stack.argv + 8 * stack.args.length) = some 0 := by
  have hword := loadWord_item stack.vector_lt h (stack.args.length + 1) (by simp [vector])
  rw [Nat.mul_succ, Nat.add_comm (8 * stack.args.length), ← Nat.add_assoc] at hword
  rw [argv, hword]
  simp [vector]

theorem length_flatMap_vector : ((vector stack.args stack.envs).flatMap (toLE 8)).length =
    8 * (vector stack.args stack.envs).length := by
  simp [List.length_flatMap, Nat.mul_comm]

theorem intact_update (h : stack.Intact memory) {s : StringAt} (hs : s ∈ stack.args ++ stack.envs)
    {a : ℕ} (ha : s.Covers a) (b : Option UInt8) : stack.Intact (Function.update memory a b) := by
  have hapart := stack.apart_vector s hs
  rw [StringAt.Covers] at ha
  refine holds_update h ?_ b
  rw [length_flatMap_vector]
  omega

theorem intact_mask (value : UInt8) (h : stack.Intact memory) {strings : List StringAt}
    (hstrings : ∀ s ∈ strings, s ∈ stack.args ++ stack.envs) :
    stack.Intact (mask value memory strings) := by
  refine holds_mask_apart h ?_
  intro s hs
  rw [length_flatMap_vector]
  exact stack.apart_vector s (hstrings s hs)

/-- The words and the strings from the argument `i` on are as they were. -/
structure Untouched (stack : InitialStack) (memory : Memory) (i : ℕ) : Prop where
  intact : stack.Intact memory
  strings_at : ∀ s ∈ stack.args.drop i, Holds memory s.addr (s.bytes ++ [0])

theorem untouched_memory (stack : InitialStack) (i : ℕ) : stack.Untouched stack.memory i where
  intact := stack.vector_at
  strings_at := fun s hs => stack.strings_at s (List.mem_append_left _ (List.mem_of_mem_drop hs))

theorem Untouched.string_at {i : ℕ} (h : stack.Untouched memory i) (hi : i < stack.args.length) :
    Holds memory stack.args[i].addr (stack.args[i].bytes ++ [0]) := by
  refine h.strings_at _ ?_
  rw [List.drop_eq_getElem_cons hi]
  exact List.mem_cons_self

theorem Untouched.fill {i : ℕ} (h : stack.Untouched memory i) (hi : i < stack.args.length)
    (value : UInt8) : stack.Untouched
      (ProcessStack.fill memory stack.args[i].addr stack.args[i].bytes.length value) (i + 1) := by
  have hmem : stack.args[i] ∈ stack.args ++ stack.envs :=
    List.mem_append_left _ (List.getElem_mem hi)
  have hpairwise := (stack.pairwise_apart.sublist (List.sublist_append_left _ _)).sublist
    (List.drop_sublist i stack.args)
  have hstrings := h.strings_at
  rw [List.drop_eq_getElem_cons hi] at hpairwise hstrings
  rw [List.pairwise_cons] at hpairwise
  rw [List.forall_mem_cons] at hstrings
  exact ⟨intact_mask value h.intact (List.forall_mem_singleton.mpr hmem),
    fun s hs => holds_fill_of_apart (hpairwise.1 s hs) (hstrings.2 s hs)⟩

end InitialStack

/-! ## An example -/

instance (memory : Memory) (addr : ℕ) (bs : List UInt8) : Decidable (Holds memory addr bs) :=
  inferInstanceAs (Decidable (∀ i (_ : i < bs.length), memory (addr + i) = some bs[i]))

instance (s t : StringAt) : Decidable (s.Apart t) :=
  inferInstanceAs (Decidable (s.last < t.addr ∨ t.last < s.addr))

def smallArgs : List StringAt :=
  [⟨2096, [97], by decide, by decide, by decide⟩, ⟨2098, [98], by decide, by decide, by decide⟩]

def smallEnvs : List StringAt := [⟨2100, [99], by decide, by decide, by decide⟩]

/-- Two arguments and one string of the environment, right behind the words. -/
def smallStack : InitialStack where
  memory := fun addr =>
    if addr < 2048 then none
    else ((vector smallArgs smallEnvs).flatMap (toLE 8) ++ [97, 0, 98, 0, 99, 0])[addr - 2048]?
  start := 2048
  args := smallArgs
  envs := smallEnvs
  length_args_lt := by decide
  vector_at := by decide +kernel
  strings_at := by decide +kernel
  pairwise_apart := by decide
  apart_vector := by decide

end SystemsExperiments.ProcessStack
