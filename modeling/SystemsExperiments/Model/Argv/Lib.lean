import SystemsExperiments.Shared.ProcessStack

/-! # Arguments found from the environment

Both libraries walk from `environ` downwards until a word is the number of words passed. A fault
is an access to memory that is not there. -/

namespace SystemsExperiments.Argv

open ProcessStack

/-! ## The walk -/

/-- Where the loop ends, and whether it ends before its bound. -/
structure Walk where
  found : Bool
  argc : ℕ
  argv : ℕ
  deriving DecidableEq

/-- `for (; argc < 1024; argc++, argv--)`, with the rounds that are left. -/
def walk (memory : Memory) : ℕ → ℕ → ℕ → Option Walk
  | 0, argc, argv => some ⟨false, argc, argv⟩
  | left + 1, argc, argv => do
      let word ← loadWord memory (argv - 8)
      if argc = word then some ⟨true, argc, argv⟩
      else walk memory left (argc + 1) (argv - 8)

/-! ## `argv/lib.c` -/

structure Args where
  argc : ℕ
  argv : ℕ
  deriving DecidableEq

def getArgs (memory : Memory) (environ : ℕ) : Option Args := do
  let result ← walk memory 1024 0 (environ - 8)
  if result.found then some ⟨result.argc, result.argv⟩ else some ⟨0, 0⟩

/-- The inner loop over a string; the pointer to it is read again each time, and there is an
`int` less for each round that is left. -/
def sanitizeArg (args : Args) (i : ℕ) : ℕ → ℕ → Memory → Option Memory
  | 0, _, _ => none
  | left + 1, j, memory => do
      let arg ← loadWord memory (args.argv + 8 * i)
      let c ← memory (arg + j)
      if c = 0 then some memory
      else sanitizeArg args i left (j + 1) (Function.update memory (arg + j) (some 42))

/-- The outer loop. -/
def sanitizeFrom (args : Args) : ℕ → ℕ → Memory → Option Memory
  | 0, _, memory => some memory
  | left + 1, i, memory => do
      let memory ← sanitizeArg args i (2 ^ 31) 0 memory
      sanitizeFrom args left (i + 1) memory

def sanitizeArgs (args : Args) (memory : Memory) : Option Memory :=
  sanitizeFrom args (args.argc - 1) 1 memory

/-! ## `argv0/lib.c` -/

/-- The globals, and the flag of `get_argc`. -/
structure Globals where
  hasRun : Bool
  thisArgc : ℕ
  thisArgv : ℕ
  deriving DecidableEq

def getArgc (memory : Memory) (environ : ℕ) (globals : Globals) : Option (ℕ × Globals) :=
  if globals.hasRun then some (globals.thisArgc, globals)
  else do
    let result ← walk memory 1024 0 (environ - 8)
    let globals := { globals with hasRun := true, thisArgv := result.argv }
    if result.found then some (result.argc, globals) else some (0, globals)

/-- The pointer that is returned. -/
def getArgv (memory : Memory) (globals : Globals) (idx : ℤ) : Option ℕ :=
  if idx < 0 ∨ globals.thisArgc < idx then some 0
  else loadWord memory (globals.thisArgv + 8 * idx.toNat)

/-- The constructor, without what it prints. -/
def initForFun (memory : Memory) (environ : ℕ) (globals : Globals) : Option Globals := do
  let (argc, globals) ← getArgc memory environ globals
  some { globals with thisArgc := argc }

/-- Before any of the library has run. -/
def globalsAtStart : Globals := ⟨false, 0, 0⟩

/-! ### Its calls -/

inductive Call where
  | getArgc
  | getArgv (idx : ℤ)
  | initForFun
  deriving DecidableEq

/-- A call, with what is in memory and where the environment is by then. -/
structure Called where
  memory : Memory
  environ : ℕ
  call : Call

/-- The pointers that the constructor prints the strings of. -/
def printed (memory : Memory) (globals : Globals) : Option (List ℕ) := do
  let first ← getArgv memory globals 0
  if 1 < globals.thisArgc then
    let second ← getArgv memory globals 1
    some [first, second]
  else some [first]

/-- What a call gives or prints. -/
def answer (globals : Globals) (called : Called) : Option (List ℕ × Globals) :=
  match called.call with
  | .getArgc => do
      let (argc, globals) ← getArgc called.memory called.environ globals
      some ([argc], globals)
  | .getArgv idx => do
      let pointer ← getArgv called.memory globals idx
      some ([pointer], globals)
  | .initForFun => do
      let globals ← initForFun called.memory called.environ globals
      let pointers ← printed called.memory globals
      some (pointers, globals)

def answers (globals : Globals) : List Called → Option (List (List ℕ))
  | [] => some []
  | called :: rest => do
      let (given, globals) ← answer globals called
      let others ← answers globals rest
      some (given :: others)

end SystemsExperiments.Argv
