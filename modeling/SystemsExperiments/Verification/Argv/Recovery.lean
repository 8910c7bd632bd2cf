import SystemsExperiments.Model.Argv.Lib

/-! # The arguments of a process

The words below the environment are a null pointer and the pointers to the arguments, last one
first, all of them above any count that the walk compares them with; so it stops at the number
of arguments. Masking changes no word of the stack and no other string. -/

namespace SystemsExperiments.Argv

open ProcessStack Bytes

variable {stack : InitialStack}

/-! ## The walk -/

/-- From the last argument but `argc` on. -/
theorem walk_stack (hpointers : ∀ s ∈ stack.args, 1024 ≤ s.addr) (left argc : ℕ)
    (hleft : stack.args.length - argc < left) (hargc : argc ≤ stack.args.length)
    (hbound : argc + left ≤ 1024) :
    walk stack.memory left argc (stack.argv + 8 * (stack.args.length - argc)) =
      some ⟨true, stack.args.length, stack.argv⟩ := by
  induction left generalizing argc with
  | zero => omega
  | succ left ih =>
      by_cases heq : argc = stack.args.length
      · have haddr : stack.argv + 8 * (stack.args.length - argc) - 8 = stack.start := by
          rw [InitialStack.argv]
          omega
        rw [walk, haddr, InitialStack.loadWord_count stack.vector_at]
        simp [heq]
      · have hlt : stack.args.length - (argc + 1) < stack.args.length := by omega
        have haddr : stack.argv + 8 * (stack.args.length - argc) - 8 =
            stack.argv + 8 * (stack.args.length - (argc + 1)) := by omega
        have hnext := ih (argc + 1) (by omega) (by omega) (by omega)
        have hpointer := hpointers _ (List.getElem_mem hlt)
        have hne : argc ≠ (stack.args[stack.args.length - (argc + 1)]).addr := by omega
        rw [walk, haddr, InitialStack.loadWord_arg stack.vector_at _ hlt]
        simpa [hne] using hnext

theorem walk_environ (hargc : stack.args.length < 1024)
    (hpointers : ∀ s ∈ stack.args, 1024 ≤ s.addr) :
    walk stack.memory 1024 0 (stack.environ - 8) =
      some ⟨true, stack.args.length, stack.argv⟩ := by
  have haddr : stack.environ - 8 = stack.argv + 8 * (stack.args.length - 0) := by
    rw [InitialStack.environ, InitialStack.argv]
    omega
  rw [haddr]
  exact walk_stack hpointers 1024 0 (by omega) (Nat.zero_le _) (Nat.le_refl _)

/-! ## Masking -/

/-- The rest of a string, from the byte `j` on. -/
theorem sanitizeArg_stack {memory : Memory} (hintact : stack.Intact memory) (i : ℕ)
    (hi : i < stack.args.length) (left j : ℕ) {rest : List UInt8}
    (hrest : Holds memory (stack.args[i].addr + j) (rest ++ [0])) (hzero : 0 ∉ rest)
    (hlast : j + rest.length = stack.args[i].bytes.length) (hleft : rest.length < left) :
    sanitizeArg ⟨stack.args.length, stack.argv⟩ i left j memory =
      some (fill memory (stack.args[i].addr + j) rest.length 42) := by
  have hmem : stack.args[i] ∈ stack.args ++ stack.envs :=
    List.mem_append_left _ (List.getElem_mem hi)
  induction rest generalizing memory j left with
  | nil =>
      obtain ⟨left, rfl⟩ : ∃ k, left = k + 1 := ⟨left - 1, by omega⟩
      rw [sanitizeArg, InitialStack.loadWord_arg hintact i hi]
      simp [hrest.head]
  | cons c rest ih =>
      obtain ⟨left, rfl⟩ : ∃ k, left = k + 1 := ⟨left - 1, by omega⟩
      rw [List.mem_cons, not_or] at hzero
      rw [List.length_cons] at hlast hleft
      have hcovers : stack.args[i].Covers (stack.args[i].addr + j) := by
        rw [StringAt.Covers, StringAt.last]
        omega
      have htail : Holds (Function.update memory (stack.args[i].addr + j) (some 42))
          (stack.args[i].addr + (j + 1)) (rest ++ [0]) :=
        holds_update hrest.tail (.inl (Nat.lt_succ_self _)) _
      have hintact' := InitialStack.intact_update hintact hmem hcovers (some 42)
      have hnext := ih hintact' left (j + 1) htail hzero.2 (by omega) (by omega)
      rw [← Nat.add_assoc, fill_update] at hnext
      rw [sanitizeArg, InitialStack.loadWord_arg hintact i hi]
      simpa [hrest.head, Ne.symm hzero.1] using hnext

/-- The strings from the argument `i` on. -/
theorem sanitizeFrom_stack {memory : Memory} (left i : ℕ) (hleft : i + left = stack.args.length)
    (h : stack.Untouched memory i) :
    sanitizeFrom ⟨stack.args.length, stack.argv⟩ left i memory =
      some (mask 42 memory (stack.args.drop i)) := by
  induction left generalizing memory i with
  | zero =>
      rw [List.drop_eq_nil_of_le (by omega)]
      rfl
  | succ left ih =>
      have hi : i < stack.args.length := by omega
      have hone := sanitizeArg_stack h.intact i hi (2 ^ 31) 0 (h.string_at hi)
        (stack.args[i]).zero_notMem (Nat.zero_add _) (stack.args[i]).length_lt
      rw [List.drop_eq_getElem_cons hi, sanitizeFrom, hone]
      exact ih (i + 1) (by omega) (h.fill hi 42)

theorem sanitizeArgs_stack (stack : InitialStack) :
    sanitizeArgs ⟨stack.args.length, stack.argv⟩ stack.memory =
      some (mask 42 stack.memory (stack.args.drop 1)) := by
  rw [sanitizeArgs]
  by_cases hnone : stack.args.length = 0
  · rw [List.drop_eq_nil_of_le (by omega), hnone]
    rfl
  · exact sanitizeFrom_stack _ 1 (by simp; omega) (stack.untouched_memory 1)

theorem apart_of_drop {s t : StringAt} (hs : s ∈ stack.args.take 1 ++ stack.envs)
    (ht : t ∈ stack.args.drop 1) : t.Apart s := by
  have hpairwise := stack.pairwise_apart
  rw [← List.take_append_drop 1 stack.args, List.append_assoc, List.pairwise_append,
    List.pairwise_append] at hpairwise
  cases List.mem_append.mp hs with
  | inl hs => exact (hpairwise.2.2 s hs t (List.mem_append_left _ ht)).symm
  | inr hs => exact hpairwise.2.1.2.2 t ht s hs

/-- The arguments are found by either library, and all but the first are replaced by stars. -/
theorem getArgs_sanitizeArgs (stack : InitialStack) (hargc : stack.args.length < 1024)
    (hpointers : ∀ s ∈ stack.args, 1024 ≤ s.addr) :
    getArgs stack.memory stack.environ = some ⟨stack.args.length, stack.argv⟩ ∧
      getArgc stack.memory stack.environ globalsAtStart =
        some (stack.args.length, ⟨true, 0, stack.argv⟩) ∧
      ∃ memory,
        sanitizeArgs ⟨stack.args.length, stack.argv⟩ stack.memory = some memory ∧
          (∀ s ∈ stack.args.drop 1,
            Holds memory s.addr (List.replicate s.bytes.length 42 ++ [0])) ∧
          (∀ s ∈ stack.args.take 1 ++ stack.envs, Holds memory s.addr (s.bytes ++ [0])) ∧
          ∀ a, (∀ s ∈ stack.args.drop 1, ¬ s.Covers a) → memory a = stack.memory a := by
  have hwalk := walk_environ hargc hpointers
  have hdrop : (stack.args.drop 1).Sublist (stack.args ++ stack.envs) :=
    (List.drop_sublist 1 _).trans (List.sublist_append_left _ _)
  refine ⟨?_, ?_, mask 42 stack.memory (stack.args.drop 1), sanitizeArgs_stack stack, ?_, ?_, ?_⟩
  · rw [getArgs, hwalk]
    rfl
  · rw [getArgc, hwalk]
    rfl
  · intro s hs
    exact holds_mask (stack.pairwise_apart.sublist hdrop)
      (fun t ht => stack.strings_at t (hdrop.subset ht)) hs
  · intro s hs
    have hmem : s ∈ stack.args ++ stack.envs := by
      cases List.mem_append.mp hs with
      | inl hs => exact List.mem_append_left _ (List.mem_of_mem_take hs)
      | inr hs => exact List.mem_append_right _ hs
    refine holds_mask_apart (stack.strings_at s hmem) ?_
    intro t ht
    have hapart := apart_of_drop hs ht
    rw [StringAt.Apart, StringAt.last, StringAt.last] at hapart
    rw [StringAt.last, List.length_append, List.length_singleton]
    omega
  · intro a ha
    exact mask_of_outside ha

theorem getArgs_sanitizeArgs_small :
    getArgs smallStack.memory smallStack.environ = some ⟨2, 2056⟩ ∧
      getArgc smallStack.memory smallStack.environ globalsAtStart = some (2, ⟨true, 0, 2056⟩) ∧
      ∃ memory,
        sanitizeArgs ⟨2, 2056⟩ smallStack.memory = some memory ∧
          (∀ s ∈ smallStack.args.drop 1,
            Holds memory s.addr (List.replicate s.bytes.length 42 ++ [0])) ∧
          (∀ s ∈ smallStack.args.take 1 ++ smallStack.envs, Holds memory s.addr (s.bytes ++ [0])) ∧
          ∀ a, (∀ s ∈ smallStack.args.drop 1, ¬ s.Covers a) →
            memory a = smallStack.memory a :=
  getArgs_sanitizeArgs smallStack (by decide) (by decide)

/-! ## The library that is loaded first -/

theorem initForFun_stack (hargc : stack.args.length < 1024)
    (hpointers : ∀ s ∈ stack.args, 1024 ≤ s.addr) :
    initForFun stack.memory stack.environ globalsAtStart =
      some ⟨true, stack.args.length, stack.argv⟩ := by
  rw [initForFun, getArgc, walk_environ hargc hpointers]
  rfl

end SystemsExperiments.Argv
