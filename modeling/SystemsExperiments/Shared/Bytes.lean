import Mathlib.Algebra.Order.Ring.Nat
import Mathlib.Data.List.Basic
import Mathlib.Logic.Function.Basic

/-! # Bytes in memory and programs that read them

A memory gives the byte at each address, or nothing where an access faults. A reader is a
program that asks for one byte at a time, so that it can be run in one go or step by step
while somebody else writes. -/

namespace SystemsExperiments.Bytes

/-! ## Little-endian words -/

/-- The `w` low bytes of `n`, least significant first. -/
def toLE : ℕ → ℕ → List UInt8
  | 0, _ => []
  | w + 1, n => UInt8.ofNat n :: toLE w (n / 256)

def ofLE : List UInt8 → ℕ
  | [] => 0
  | b :: bs => b.toNat + 256 * ofLE bs

@[simp] theorem length_toLE (w n : ℕ) : (toLE w n).length = w := by
  induction w generalizing n with
  | zero => rfl
  | succ w ih => simp [toLE, ih]

theorem ofLE_toLE (w n : ℕ) : ofLE (toLE w n) = n % 256 ^ w := by
  induction w generalizing n with
  | zero => simp [toLE, ofLE, Nat.mod_one]
  | succ w ih =>
      rw [toLE, ofLE, ih, Nat.pow_succ', Nat.mod_mul]
      simp

theorem ofLE_toLE_of_lt {w n : ℕ} (h : n < 256 ^ w) : ofLE (toLE w n) = n := by
  rw [ofLE_toLE, Nat.mod_eq_of_lt h]

theorem ofLE_lt (bs : List UInt8) : ofLE bs < 256 ^ bs.length := by
  induction bs with
  | nil => simp [ofLE]
  | cons b bs ih =>
      have hb : b.toNat < 256 := b.toNat_lt
      rw [ofLE, List.length_cons, Nat.pow_succ]
      omega

/-- The low bytes of a word. -/
theorem ofLE_mod (n : ℕ) (bs : List UInt8) : ofLE bs % 256 ^ n = ofLE (bs.take n) := by
  induction bs generalizing n with
  | nil => simp [ofLE]
  | cons b bs ih =>
      cases n with
      | zero => simp [ofLE, Nat.mod_one]
      | succ n =>
          have hb : b.toNat < 256 := b.toNat_lt
          have hdiv : (b.toNat + 256 * ofLE bs) / 256 = ofLE bs := by omega
          have hmod : (b.toNat + 256 * ofLE bs) % 256 = b.toNat := by omega
          rw [ofLE, List.take_succ_cons, ofLE, ← ih, Nat.pow_succ', Nat.mod_mul, hdiv, hmod]

theorem ofLE_injective {bs cs : List UInt8} (hlen : bs.length = cs.length)
    (h : ofLE bs = ofLE cs) : bs = cs := by
  induction bs generalizing cs with
  | nil => exact (List.length_eq_zero_iff.mp hlen.symm).symm
  | cons b bs ih =>
      cases cs with
      | nil => cases hlen
      | cons c cs =>
          have hb : b.toNat < 256 := b.toNat_lt
          have hc : c.toNat < 256 := c.toNat_lt
          rw [ofLE, ofLE] at h
          have hhead : b = c := UInt8.toNat_inj.mp (by omega)
          have htail : bs = cs := ih (Nat.succ.inj hlen) (by omega)
          rw [hhead, htail]

/-- Comparing low bytes is comparing beginnings. -/
theorem ofLE_mod_eq_iff {text bs : List UInt8} (h : text.length ≤ bs.length) :
    ofLE bs % 256 ^ text.length = ofLE text ↔ text <+: bs := by
  rw [ofLE_mod, List.prefix_iff_eq_take]
  constructor
  · intro heq
    exact (ofLE_injective (by simp [h]) heq).symm
  · intro heq
    rw [← heq]

theorem ofLE_append_zeros (bs : List UInt8) (n : ℕ) :
    ofLE (bs ++ List.replicate n 0) = ofLE bs := by
  induction bs with
  | nil =>
      induction n with
      | zero => rfl
      | succ n ih =>
          rw [List.nil_append] at ih ⊢
          simp [List.replicate_succ, ofLE, ih]
  | cons b bs ih => rw [List.cons_append, ofLE, ofLE, ih]

/-! ## Memory -/

/-- The bytes `bs` stand at `addr`. -/
def Holds (mem : ℕ → Option UInt8) (addr : ℕ) (bs : List UInt8) : Prop :=
  ∀ i (h : i < bs.length), mem (addr + i) = some bs[i]

/-- Every byte of the one memory is in the other. -/
def Extends (mem mem' : ℕ → Option UInt8) : Prop := ∀ a b, mem a = some b → mem' a = some b

section Holds

variable {mem mem' : ℕ → Option UInt8} {addr : ℕ} {bs cs : List UInt8}

theorem Holds.mono (h : Holds mem addr bs) (hext : Extends mem mem') : Holds mem' addr bs :=
  fun i hi => hext _ _ (h i hi)

theorem Holds.left (h : Holds mem addr (bs ++ cs)) : Holds mem addr bs := by
  intro i hi
  rw [h i (by rw [List.length_append]; omega), List.getElem_append_left hi]

theorem Holds.right (h : Holds mem addr (bs ++ cs)) : Holds mem (addr + bs.length) cs := by
  intro i hi
  rw [Nat.add_assoc, h (bs.length + i) (by rw [List.length_append]; omega),
    List.getElem_append_right (Nat.le_add_right _ _)]
  simp

theorem Holds.head {b : UInt8} (h : Holds mem addr (b :: bs)) : mem addr = some b :=
  h 0 (by simp)

theorem Holds.tail {b : UInt8} (h : Holds mem addr (b :: bs)) : Holds mem (addr + 1) bs := by
  intro i hi
  have hnext := h (i + 1) (by simpa using hi)
  have haddr : addr + (i + 1) = addr + 1 + i := by omega
  rw [haddr] at hnext
  simpa using hnext

/-- Items of one width follow each other. -/
theorem Holds.item {α : Type} {f : α → List UInt8} {w : ℕ} (hw : ∀ x, (f x).length = w)
    {xs : List α} (h : Holds mem addr (xs.flatMap f)) (i : ℕ) (hi : i < xs.length) :
    Holds mem (addr + i * w) (f xs[i]) := by
  induction xs generalizing addr i with
  | nil => simp at hi
  | cons x xs ih =>
      rw [List.flatMap_cons] at h
      cases i with
      | zero => simpa using h.left
      | succ i =>
          have hnext := h.right
          rw [hw] at hnext
          have haddr : addr + (i + 1) * w = addr + w + i * w := by rw [Nat.succ_mul]; omega
          rw [haddr]
          exact ih hnext i (by simpa using hi)

end Holds

/-- A memory that consists of the bytes alone. -/
def only (bs : List UInt8) : ℕ → Option UInt8 := fun a => bs[a]?

theorem holds_only (bs : List UInt8) : Holds (only bs) 0 bs := by
  intro i hi
  simp [only, hi]

/-- What holds the bytes at its start extends the memory of the bytes alone. -/
theorem extends_of_holds {mem : ℕ → Option UInt8} {bs : List UInt8} (h : Holds mem 0 bs) :
    Extends (only bs) mem := by
  intro a b hab
  obtain ⟨ha, rfl⟩ := List.getElem?_eq_some_iff.mp hab
  simpa using h a ha

/-! ## Readers -/

/-- A program that reads bytes and returns a value, unless it faults. -/
inductive Reader (α : Type) where
  | done (a : α)
  | fault
  | read (addr : ℕ) (next : UInt8 → Reader α)

namespace Reader

variable {α β : Type} {mem mem' : ℕ → Option UInt8}

def bind : Reader α → (α → Reader β) → Reader β
  | .done a, f => f a
  | .fault, _ => .fault
  | .read addr next, f => .read addr fun b => (next b).bind f

instance : Monad Reader where
  pure := .done
  bind := Reader.bind

/-- The value that the program returns on a memory that does not change. -/
def run (mem : ℕ → Option UInt8) : Reader α → Option α
  | .done a => some a
  | .fault => none
  | .read addr next =>
      match mem addr with
      | some b => (next b).run mem
      | none => none

/-- One access. -/
def step (mem : ℕ → Option UInt8) : Reader α → Reader α
  | .done a => .done a
  | .fault => .fault
  | .read addr next =>
      match mem addr with
      | some b => next b
      | none => .fault

@[simp] theorem run_pure (a : α) : run mem (pure a) = some a := rfl

@[simp] theorem run_done (a : α) : run mem (.done a) = some a := rfl

theorem run_read {addr : ℕ} {b : UInt8} (h : mem addr = some b) (next : UInt8 → Reader α) :
    run mem (.read addr next) = (next b).run mem := by
  simp only [run, h]

theorem run_bind (p : Reader α) (f : α → Reader β) :
    run mem (p >>= f) = (run mem p).bind fun a => run mem (f a) := by
  induction p with
  | done a => rfl
  | fault => rfl
  | read addr next ih =>
      change run mem (.read addr fun b => (next b).bind f) = _
      simp only [run]
      cases mem addr with
      | none => rfl
      | some b => exact ih b

/-- A program that has read nothing but `a` before going on behaves as what follows. -/
theorem run_bind_of_eq {p : Reader α} {a : α} (h : run mem p = some a) (f : α → Reader β) :
    run mem (p >>= f) = run mem (f a) := by
  rw [run_bind, h]
  rfl

/-- More memory does not change what a program returns. -/
theorem run_mono (hext : Extends mem mem') {p : Reader α} {a : α} (h : run mem p = some a) :
    run mem' p = some a := by
  induction p with
  | done a' => exact h
  | fault => cases h
  | read addr next ih =>
      simp only [run] at h
      cases hb : mem addr with
      | none => simp [hb] at h
      | some b =>
          rw [hb] at h
          rw [run_read (hext addr b hb)]
          exact ih b h

/-- Whatever the program returns satisfies `Q`, as long as the bytes in `known` stay as they
are; the others may change from one access to the next. -/
inductive Ensures (known : ℕ → Option UInt8) (Q : α → Prop) : Reader α → Prop where
  | done {a} (h : Q a) : Ensures known Q (.done a)
  | fault : Ensures known Q .fault
  | read {addr next} (h : ∀ b, (∀ b', known addr = some b' → b = b') → Ensures known Q (next b)) :
      Ensures known Q (.read addr next)

section Ensures

variable {known : ℕ → Option UInt8} {P : α → Prop} {Q : β → Prop}

theorem ensures_trivial (p : Reader α) : Ensures known (fun _ => True) p := by
  induction p with
  | done a => exact .done trivial
  | fault => exact .fault
  | read addr next ih => exact .read fun b _ => ih b

theorem Ensures.bind {p : Reader α} {f : α → Reader β} (hp : Ensures known P p)
    (hf : ∀ a, P a → Ensures known Q (f a)) : Ensures known Q (p >>= f) := by
  induction hp with
  | done h => exact hf _ h
  | fault => exact .fault
  | read _ ih => exact .read ih

/-- What the known bytes decide is ensured. -/
theorem ensures_of_run {p : Reader α} {a : α} (h : run known p = some a) :
    Ensures known (fun a' => a' = a) p := by
  induction p with
  | done a' => exact .done (Option.some.inj h)
  | fault => exact .fault
  | read addr next ih =>
      apply Ensures.read
      intro b hb
      simp only [run] at h
      cases hknown : known addr with
      | none => simp [hknown] at h
      | some b' =>
          rw [hknown] at h
          rw [hb b' hknown]
          exact ih b' h

theorem Ensures.step (hext : Extends known mem) {p : Reader α} (hp : Ensures known P p) :
    Ensures known P (p.step mem) := by
  cases hp with
  | done h => exact .done h
  | fault => exact .fault
  | read h =>
      rename_i addr next
      simp only [Reader.step]
      cases hb : mem addr with
      | none => exact .fault
      | some b =>
          apply h b
          intro b' hknown
          simpa [hb] using hext addr b' hknown

end Ensures

/-- A little-endian word of `w` bytes. -/
def readLE : ℕ → ℕ → Reader ℕ
  | 0, _ => .done 0
  | w + 1, addr => .read addr fun b => do
      let n ← readLE w (addr + 1)
      return b.toNat + 256 * n

theorem run_readLE {addr : ℕ} {bs : List UInt8} (h : Holds mem addr bs) :
    run mem (readLE bs.length addr) = some (ofLE bs) := by
  induction bs generalizing addr with
  | nil => rfl
  | cons b bs ih =>
      rw [List.length_cons, readLE, run_read h.head, run_bind_of_eq (ih h.tail)]
      rfl

theorem run_readLE_toLE {addr w n : ℕ} (hn : n < 256 ^ w) (h : Holds mem addr (toLE w n)) :
    run mem (readLE w addr) = some n := by
  have hread := run_readLE h
  rwa [length_toLE, ofLE_toLE_of_lt hn] at hread

/-- The bytes up to the next NUL, which is at most `fuel` bytes away. -/
def readCString : ℕ → ℕ → Reader (List UInt8)
  | 0, _ => .fault
  | fuel + 1, addr => .read addr fun b =>
      if b = 0 then .done []
      else do
        let s ← readCString fuel (addr + 1)
        return b :: s

theorem run_readCString {addr fuel : ℕ} {s : List UInt8} (hnul : 0 ∉ s)
    (hfuel : s.length < fuel) (h : Holds mem addr (s ++ [0])) :
    run mem (readCString fuel addr) = some s := by
  induction s generalizing addr fuel with
  | nil =>
      obtain ⟨fuel, rfl⟩ : ∃ k, fuel = k + 1 := ⟨fuel - 1, by omega⟩
      rw [readCString, run_read h.head, if_pos rfl]
      rfl
  | cons b s ih =>
      obtain ⟨fuel, rfl⟩ : ∃ k, fuel = k + 1 := ⟨fuel - 1, by omega⟩
      have hb : b ≠ 0 := fun heq => hnul (by simp [heq])
      have hrest := ih (fun hmem => hnul (List.mem_cons_of_mem b hmem))
        (by simpa using hfuel) h.tail
      rw [readCString, run_read h.head, if_neg hb, run_bind_of_eq hrest]
      rfl

end Reader

end SystemsExperiments.Bytes
