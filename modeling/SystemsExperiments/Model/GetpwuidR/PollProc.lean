import SystemsExperiments.Model.GetpwuidR.UidFromPid
import SystemsExperiments.Shared.Scanf

/-! # Looking up the users of all processes

The program goes through `/proc` and looks up the user of each process. The number that
`uid_from_pid` found as text is read again, printed and looked up. -/

namespace SystemsExperiments.GetpwuidR

/-! ## Numbers -/

def isNumber (str : List UInt8) : Bool := str ≠ [] ∧ str.all isDigit

def longMax : ℕ := 2 ^ 63 - 1

/-- `strtol` of a string that `is_number` accepts. -/
def strtol (str : List UInt8) : ℕ := min (Scanf.value 10 str) longMax

/-- `'0' + (num % 10)` -/
def digitOf (num : ℤ) : UInt8 := UInt8.ofNat (48 + num.tmod 10).toNat

/-- The loop of `write_number`; the index `sz` is one less than the first number. -/
def fillDigits : ℕ → ℤ → List UInt8 → Except Fault (ℕ × List UInt8)
  | 0, num, buf => if num = 0 then .ok (0, buf) else .error .buf
  | sz + 1, num, buf =>
      if num = 0 then .ok (sz + 1, buf)
      else fillDigits sz (num.tdiv 10) (buf.set sz (digitOf num))

/-- The bytes that are written, from the one before the digits on. -/
def writeNumber (num : ℤ) : Except Fault (List UInt8) := do
  let buf := List.replicate uidSize 0
  let (filled, buf) ←
    if num = 0 then .ok (uidSize - 1, buf.set (uidSize - 1) 48) else fillDigits uidSize num buf
  if filled = 0 then .error .buf else .ok (buf.drop (filled - 1))

/-! ## Arguments -/

/-- What `process_argument` asks for. -/
inductive Lookup where
  | nothing
  /-- What is printed before the user with that number is looked up. -/
  | uid (printed : List UInt8) (id : UInt32)
  | name (user : List UInt8)
  deriving DecidableEq

/-- The argument is `NULL` or a string; what comes after the lookup is left out. -/
def processArgument : Option (List UInt8) → Except Fault Lookup
  | none => .ok .nothing
  | some str =>
      if str = [] then .ok .nothing
      else if isNumber str then do
        let uid := UInt32.ofNat (strtol str)
        let number ← writeNumber uid.toNat
        return .uid (Printing.literal "Running test on UID: " ++ number ++ Printing.literal "\n")
          uid
      else .ok (.name str)

/-! ## Processes -/

/-- An entry of `/proc`, and what becomes of reading its status. -/
structure Dirent where
  name : List UInt8
  isDir : Bool
  status : Status

def Dirent.isProcess (entry : Dirent) : Bool :=
  entry.isDir && (entry.name.head?.map isDigit).getD false

/-- The string in the array is read up to its NUL. -/
def pollEntry (entry : Dirent) : Except Fault Lookup := do
  let uid ← uidFromPid entry.name entry.status
  match uid with
  | none => processArgument none
  | some array =>
      if 0 ∈ array then processArgument (some (array.takeWhile fun b => b ≠ 0)) else .error .uid

def pollProc (entries : List Dirent) : Except Fault (List Lookup) :=
  (entries.filter Dirent.isProcess).mapM pollEntry

end SystemsExperiments.GetpwuidR
