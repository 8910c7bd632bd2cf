import SystemsExperiments.Verification.Argv.Recovery

/-! # The library over several calls

The number of arguments is kept by the constructor only, and the walk is made once. So whoever
calls first decides: after the constructor all arguments are known, and after a `get_argc` before
it none but the first, for ever. -/

namespace SystemsExperiments.Argv

open ProcessStack

/-! ## The answers -/

/-- The pointer to an argument, or the null pointer behind them. -/
def pointer (args : List StringAt) (i : ℕ) : ℕ := (args[i]?.map StringAt.addr).getD 0

/-- What a call gives that knows some number of arguments. -/
def Call.expected (args : List StringAt) (known : ℕ) : Call → List ℕ
  | .getArgc => [known]
  | .getArgv idx => [if idx < 0 ∨ known < idx then 0 else pointer args idx.toNat]
  | .initForFun => if 1 < known then [pointer args 0, pointer args 1] else [pointer args 0]

variable {stack : InitialStack} {memory : Memory}

theorem loadWord_pointer (h : stack.Intact memory) {i : ℕ} (hi : i ≤ stack.args.length) :
    loadWord memory (stack.argv + 8 * i) = some (pointer stack.args i) := by
  rw [pointer]
  by_cases hlt : i < stack.args.length
  · rw [InitialStack.loadWord_arg h i hlt, List.getElem?_eq_getElem hlt]
    rfl
  · have heq : i = stack.args.length := by omega
    rw [heq, InitialStack.loadWord_null h, List.getElem?_eq_none (Nat.le_refl _)]
    rfl

section Known

variable {known : ℕ} (hknown : known ≤ stack.args.length) (hintact : stack.Intact memory)

include hknown hintact

theorem getArgv_known (idx : ℤ) : getArgv memory ⟨true, known, stack.argv⟩ idx =
    some (if idx < 0 ∨ known < idx then 0 else pointer stack.args idx.toNat) := by
  rw [getArgv]
  by_cases houtside : idx < 0 ∨ known < idx
  · rw [if_pos houtside, if_pos houtside]
  · rw [if_neg houtside, if_neg houtside]
    exact loadWord_pointer hintact (by omega)

theorem printed_known : printed memory ⟨true, known, stack.argv⟩ =
    some (Call.initForFun.expected stack.args known) := by
  have hfirst := getArgv_known hknown hintact 0
  have hsecond := getArgv_known hknown hintact 1
  rw [if_neg (by omega)] at hfirst
  rw [printed, hfirst, Call.expected]
  by_cases hmore : 1 < known
  · rw [if_neg (by omega)] at hsecond
    simp [hmore, hsecond]
  · simp [hmore]

/-- Nothing is forgotten and nothing is found out any more. -/
theorem answer_known (environ : ℕ) (call : Call) :
    answer ⟨true, known, stack.argv⟩ ⟨memory, environ, call⟩ =
      some (call.expected stack.args known, ⟨true, known, stack.argv⟩) := by
  cases call with
  | getArgc => rfl
  | getArgv idx =>
      have hpointer := getArgv_known hknown hintact idx
      simp [answer, hpointer, Call.expected]
  | initForFun =>
      have hprinted := printed_known hknown hintact
      simp [answer, initForFun, getArgc, hprinted]

end Known

theorem answers_known {known : ℕ} (hknown : known ≤ stack.args.length) (calls : List Called)
    (hintact : ∀ called ∈ calls, stack.Intact called.memory) :
    answers ⟨true, known, stack.argv⟩ calls =
      some (calls.map (fun called => called.call.expected stack.args known)) := by
  induction calls with
  | nil => rfl
  | cons called calls ih =>
      rw [List.forall_mem_cons] at hintact
      rw [answers, answer_known hknown hintact.1]
      simp [ih hintact.2]

/-! ## The first call -/

/-- After the constructor every answer is right, wherever the program moves its environment and
whatever it writes over the strings; after an early `get_argc` nothing but the first argument is
ever found again. -/
theorem first_call_decides (stack : InitialStack) (hargc : stack.args.length < 1024)
    (hpointers : ∀ s ∈ stack.args, 1024 ≤ s.addr) (calls : List Called)
    (hintact : ∀ called ∈ calls, stack.Intact called.memory) :
    answers globalsAtStart (⟨stack.memory, stack.environ, .initForFun⟩ :: calls) =
        some (Call.initForFun.expected stack.args stack.args.length ::
          calls.map (fun called => called.call.expected stack.args stack.args.length)) ∧
      answers globalsAtStart (⟨stack.memory, stack.environ, .getArgc⟩ :: calls) =
        some ([stack.args.length] ::
          calls.map (fun called => called.call.expected stack.args 0)) := by
  constructor
  · have hprinted := printed_known (Nat.le_refl stack.args.length) stack.vector_at
    have hrest := answers_known (Nat.le_refl stack.args.length) calls hintact
    simp [answers, answer, initForFun_stack hargc hpointers, hprinted, hrest]
  · have hrest := answers_known (Nat.zero_le stack.args.length) calls hintact
    have hfirst : getArgc stack.memory stack.environ globalsAtStart =
        some (stack.args.length, ⟨true, 0, stack.argv⟩) := by
      rw [getArgc, walk_environ hargc hpointers]
      rfl
    simp [answers, answer, hfirst, hrest]

/-- The second argument is handed out, or not. -/
theorem first_call_decides_small :
    answers globalsAtStart (⟨smallStack.memory, smallStack.environ, .initForFun⟩ ::
          [⟨smallStack.memory, 0, .getArgc⟩, ⟨smallStack.memory, 0, .getArgv 1⟩]) =
        some [[2096, 2098], [2], [2098]] ∧
      answers globalsAtStart (⟨smallStack.memory, smallStack.environ, .getArgc⟩ ::
          [⟨smallStack.memory, 0, .initForFun⟩, ⟨smallStack.memory, 0, .getArgv 1⟩]) =
        some [[2], [2096], [0]] :=
  ⟨(first_call_decides smallStack (by decide) (by decide) _
      (by simp [InitialStack.Intact, smallStack.vector_at])).1,
    (first_call_decides smallStack (by decide) (by decide) _
      (by simp [InitialStack.Intact, smallStack.vector_at])).2⟩

end SystemsExperiments.Argv
