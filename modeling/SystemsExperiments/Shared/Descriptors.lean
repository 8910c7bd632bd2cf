import Mathlib.Algebra.Order.Ring.Int
import Mathlib.Data.Finset.Card
import Mathlib.Data.Finset.Range
import Mathlib.Data.List.Basic

/-! # Descriptor tables

A process holds open files under small numbers. A new file gets the lowest free one below the
limit; the number a program asks for may be negative or free. -/

namespace SystemsExperiments.Descriptors

structure Table (α : Type*) where
  limit : ℕ
  file : ℕ → Option α
  bounded : ∀ n, limit ≤ n → file n = none

namespace Table

variable {α : Type*}

def get (t : Table α) (fd : ℤ) : Option α := if 0 ≤ fd then t.file fd.toNat else none

def opened (t : Table α) : Finset ℕ := (Finset.range t.limit).filter fun n => (t.file n).isSome

def lowest (t : Table α) : Option ℕ := (List.range t.limit).find? fun n => (t.file n).isNone

/-- A descriptor below the limit is given another file. -/
def put (t : Table α) (n : ℕ) (file : Option α) (hn : n < t.limit) : Table α where
  limit := t.limit
  file := Function.update t.file n file
  bounded m hm := by
    rw [Function.update_of_ne (by omega)]
    exact t.bounded m hm

/-! ## Calls -/

/-- The new descriptor, if there is one. -/
def openFile (t : Table α) (a : α) : Option (ℤ × Table α) :=
  match h : t.lowest with
  | none => none
  | some n => some (n, t.put n a (List.mem_range.mp (List.mem_of_find?_eq_some h)))

/-- What a call changes in an open file. -/
def modify (t : Table α) (fd : ℤ) (f : α → α) : Table α :=
  if h : 0 ≤ fd ∧ fd < t.limit then t.put fd.toNat ((t.file fd.toNat).map f) (by omega) else t

def close (t : Table α) (fd : ℤ) : Table α :=
  if h : 0 ≤ fd ∧ fd < t.limit then t.put fd.toNat none (by omega) else t

/-- Nothing is done without an open file or beyond the limit. -/
def dup2 (t : Table α) (old new : ℤ) : Option (Table α) :=
  match t.get old with
  | none => none
  | some a =>
      if h : 0 ≤ new ∧ new < t.limit then some (t.put new.toNat a (by omega)) else none

/-! ## What the calls do -/

section Calls

variable {t t' : Table α} {fd : ℤ}

theorem eq_of_get (hlimit : t.limit = t'.limit) (hget : ∀ fd, t.get fd = t'.get fd) : t = t' := by
  have hfile : t.file = t'.file := by
    funext n
    have hn := hget n
    rwa [get, get, if_pos (Int.natCast_nonneg n), if_pos (Int.natCast_nonneg n),
      Int.toNat_natCast] at hn
  cases t with
  | mk limit file bounded =>
      cases t' with
      | mk limit' file' bounded' =>
          cases hlimit
          cases hfile
          rfl

/-- An open file has a descriptor below the limit. -/
theorem get_lt_limit {a : α} (h : t.get fd = some a) : 0 ≤ fd ∧ fd < t.limit := by
  rw [get] at h
  split at h
  · refine ⟨‹_›, ?_⟩
    by_contra hge
    rw [t.bounded _ (by omega)] at h
    cases h
  · cases h

@[simp] theorem limit_put (t : Table α) (n : ℕ) (file : Option α) (hn : n < t.limit) :
    (t.put n file hn).limit = t.limit := rfl

theorem get_put (t : Table α) (n : ℕ) (file : Option α) (hn : n < t.limit) (fd : ℤ) :
    (t.put n file hn).get fd = if fd = n then file else t.get fd := by
  simp only [get, put]
  split
  · rw [Function.update_apply]
    split
    · rw [if_pos (by omega)]
    · rw [if_neg (by omega)]
  · rw [if_neg (by omega)]

theorem lowest_eq_none (h : t.lowest = none) : t.opened.card = t.limit := by
  have hall : t.opened = Finset.range t.limit := by
    rw [opened, Finset.filter_eq_self]
    intro n hn
    have hfind := List.find?_eq_none.mp h n (List.mem_range.mpr (Finset.mem_range.mp hn))
    cases hfile : t.file n with
    | none => simp [hfile] at hfind
    | some a => rfl
  rw [hall, Finset.card_range]

theorem card_opened_le (t : Table α) : t.opened.card ≤ t.limit := by
  calc t.opened.card ≤ (Finset.range t.limit).card := Finset.card_filter_le _ _
    _ = t.limit := Finset.card_range _

/-- A new file has a free descriptor, and nothing else changes. -/
theorem openFile_spec {a : α} (h : t.openFile a = some (fd, t')) :
    0 ≤ fd ∧ t.get fd = none ∧ t'.limit = t.limit ∧
      (∀ fd', t'.get fd' = if fd' = fd then some a else t.get fd') ∧
      t'.opened.card = t.opened.card + 1 := by
  rw [openFile] at h
  split at h
  · cases h
  · rename_i n hn
    cases h
    have hfree : t.file n = none := by
      have hfree := List.find?_some hn
      rwa [Option.isNone_iff_eq_none] at hfree
    have hlt := List.mem_range.mp (List.mem_of_find?_eq_some hn)
    refine ⟨Int.natCast_nonneg n, by simpa [get] using hfree, rfl,
      fun fd' => get_put t n a hlt fd', ?_⟩
    have hopened : (t.put n a hlt).opened = insert n t.opened := by
      ext m
      simp only [opened, put, Function.update_apply, Finset.mem_filter, Finset.mem_range,
        Finset.mem_insert]
      split
      · simp [*]
      · simp [*]
    rw [hopened, Finset.card_insert_of_notMem]
    simp [opened, hfree]

theorem openFile_eq_none {a : α} (h : t.openFile a = none) : t.opened.card = t.limit := by
  rw [openFile] at h
  split at h
  · exact lowest_eq_none ‹_›
  · cases h

theorem get_close (t : Table α) (fd fd' : ℤ) :
    (t.close fd).get fd' = if fd' = fd then none else t.get fd' := by
  rw [close]
  split
  · rw [get_put]
    congr 1
    exact propext (by omega)
  · rename_i hfd
    split
    · rename_i heq
      cases hget : t.get fd' with
      | none => rfl
      | some a => exact absurd (heq ▸ get_lt_limit hget) hfd
    · rfl

@[simp] theorem limit_close (t : Table α) (fd : ℤ) : (t.close fd).limit = t.limit := by
  rw [close]
  split
  · rfl
  · rfl

theorem get_modify (t : Table α) (fd : ℤ) (f : α → α) (fd' : ℤ) :
    (t.modify fd f).get fd' = if fd' = fd then (t.get fd).map f else t.get fd' := by
  rw [modify]
  split
  · rename_i hfd
    have hnat : fd.toNat = fd := Int.toNat_of_nonneg hfd.1
    have hget : t.get fd = t.file fd.toNat := if_pos hfd.1
    rw [get_put, hnat, hget]
  · rename_i hfd
    split
    · rename_i heq
      cases hget : t.get fd with
      | none => rw [heq, hget, Option.map_none]
      | some a => exact absurd (get_lt_limit hget) hfd
    · rfl

@[simp] theorem limit_modify (t : Table α) (fd : ℤ) (f : α → α) :
    (t.modify fd f).limit = t.limit := by
  rw [modify]
  split
  · rfl
  · rfl

/-- A file that is changed stays open. -/
@[simp] theorem opened_modify (t : Table α) (fd : ℤ) (f : α → α) :
    (t.modify fd f).opened = t.opened := by
  rw [modify]
  split
  · ext m
    simp only [opened, put, Function.update_apply, Finset.mem_filter, Finset.mem_range]
    split
    · simp [*]
    · rfl
  · rfl

/-- A file that is closed is one less. -/
theorem card_close {a : α} (h : t.get fd = some a) :
    (t.close fd).opened.card + 1 = t.opened.card := by
  have hfd := get_lt_limit h
  rw [get, if_pos hfd.1] at h
  have hopened : (t.close fd).opened = t.opened.erase fd.toNat := by
    rw [close, dif_pos hfd]
    ext m
    simp only [opened, put, Function.update_apply, Finset.mem_filter, Finset.mem_range,
      Finset.mem_erase]
    split
    · simp [*]
    · simp [*]
  have hmem : fd.toNat ∈ t.opened := by
    simp only [opened, Finset.mem_filter, Finset.mem_range, h, Option.isSome_some, and_true]
    omega
  rw [hopened, Finset.card_erase_add_one hmem]

/-- Closing what was just opened leaves nothing behind. -/
theorem close_openFile {a : α} (h : t.openFile a = some (fd, t')) : t'.close fd = t := by
  have hspec := openFile_spec h
  apply eq_of_get (by rw [limit_close, hspec.2.2.1])
  intro fd'
  rw [get_close, hspec.2.2.2.1]
  split
  · rename_i heq
    rw [heq, hspec.2.1]
  · rfl

theorem close_modify (t : Table α) (fd : ℤ) (f : α → α) :
    (t.modify fd f).close fd = t.close fd := by
  apply eq_of_get (by simp)
  intro fd'
  rw [get_close, get_close, get_modify]
  split
  · rfl
  · rfl

theorem dup2_spec {old new : ℤ} {a : α} (h : t.dup2 old new = some t') (ha : t.get old = some a) :
    0 ≤ new ∧ new < t.limit ∧ t'.limit = t.limit ∧
      ∀ fd', t'.get fd' = if fd' = new then some a else t.get fd' := by
  rw [dup2, ha] at h
  simp only at h
  split at h
  · rename_i hnew
    cases h
    refine ⟨hnew.1, hnew.2, rfl, fun fd' => ?_⟩
    rw [get_put, Int.toNat_of_nonneg hnew.1]
  · cases h

theorem dup2_eq_none {old new : ℤ} {a : α} (ha : t.get old = some a) :
    t.dup2 old new = none ↔ ¬(0 ≤ new ∧ new < t.limit) := by
  rw [dup2, ha]
  simp

end Calls

end Table

end SystemsExperiments.Descriptors
