import Mathlib.Algebra.Order.Ring.Int

/-! # Lowercase hexadecimal digits

Three ways to tell them, and a benchmark that compares what each has counted. A `char` is
signed. -/

namespace SystemsExperiments.FasterHexdig

inductive Fault where
  /-- A value that the functions of `<ctype.h>` are not defined for. -/
  | undefined
  /-- The counts differ, and the program exits. -/
  | broke
  deriving DecidableEq

/-- A byte as a `char`. -/
def char (byte : UInt8) : ℤ := if byte.toNat < 128 then byte.toNat else byte.toNat - 256

def lowerCond (c : ℤ) : Bool := (97 ≤ c && c ≤ 102) || (48 ≤ c && c ≤ 57)

/-! ## With `<ctype.h>` -/

/-- The value of a byte, or `EOF`. -/
def ctype (p : ℤ → Bool) (c : ℤ) : Except Fault Bool :=
  if -1 ≤ c ∧ c < 256 then .ok (p c) else .error .undefined

def isxdigit : ℤ → Except Fault Bool :=
  ctype fun c => (48 ≤ c && c ≤ 57) || (65 ≤ c && c ≤ 70) || (97 ≤ c && c ≤ 102)

def isupper : ℤ → Except Fault Bool := ctype fun c => 65 ≤ c && c ≤ 90

def lowerIsm (c : ℤ) : Except Fault Bool := do
  let digit ← isxdigit c
  if digit then
    let upper ← isupper c
    return !upper
  else return false

/-! ## With a table -/

/-- `lookup`, after `init_lu`. -/
def lookup : List Bool := (List.range 256).map fun i => lowerCond (char (UInt8.ofNat i))

def lowerLu (c : UInt8) : Bool := c.toNat < 256 && lookup.getD c.toNat false

/-! ## The benchmark -/

structure BenchState where
  countCond : UInt64
  countIsm : UInt64
  countLu : UInt64
  trialsRan : UInt64
  charactersProcessed : UInt64
  deriving DecidableEq

/-- `for (const auto &c : sv) count += lower(c)`. -/
def countLoop (lower : UInt8 → Except Fault Bool) : List UInt8 → UInt64 → Except Fault UInt64
  | [], count => .ok count
  | c :: sv, count => do
      let isLower ← lower c
      countLoop lower sv (count + if isLower then 1 else 0)

/-- The warmup and the trial. -/
def trial (lower : UInt8 → Except Fault Bool) (sv : List UInt8) (count : UInt64) :
    Except Fault UInt64 := do
  let count ← countLoop lower sv count
  let count ← countLoop lower sv count
  countLoop lower sv count

def BenchState.run (bench : BenchState) (sv : List UInt8) : Except Fault BenchState := do
  let countCond ← trial (fun c => .ok (lowerCond (char c))) sv bench.countCond
  let countIsm ← trial (fun c => lowerIsm (char c)) sv bench.countIsm
  let countLu ← trial (fun c => .ok (lowerLu c)) sv bench.countLu
  if countCond ≠ countIsm ∨ countCond ≠ countLu then .error .broke
  else .ok ⟨countCond, countIsm, countLu, bench.trialsRan + 1,
    bench.charactersProcessed + UInt64.ofNat sv.length⟩

/-- The loop of `main` over what it is given. -/
def runLines : List (List UInt8) → BenchState → Except Fault BenchState
  | [], bench => .ok bench
  | line :: lines, bench => do
      let bench ← bench.run line
      runLines lines bench

def benchAtStart : BenchState := ⟨0, 0, 0, 0, 0⟩

end SystemsExperiments.FasterHexdig
