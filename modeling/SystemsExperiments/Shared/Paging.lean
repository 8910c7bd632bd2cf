import Mathlib.Algebra.Order.Ring.Nat
import Mathlib.Logic.Function.Basic

/-! # Address spaces of pages

Each page of an address space is free, reserved, or a page of a file that is shared. A fixed
mapping replaces whatever was at its pages. -/

namespace SystemsExperiments.Paging

def pageSize : ℕ := 4096

inductive Page (φ : Type*) where
  | reserved
  | file (f : φ) (index : ℕ)
  deriving DecidableEq

/-- The pages by their numbers; a free page is `none`. -/
abbrev Space (φ : Type*) := ℕ → Option (Page φ)

variable {φ : Type*}

/-- `count` pages from `start` on show what `view` says of them. -/
def place (space : Space φ) (start count : ℕ) (view : ℕ → Option (Page φ)) : Space φ := fun p =>
  if start ≤ p ∧ p < start + count then view (p - start) else space p

def reserve (space : Space φ) (start count : ℕ) : Space φ :=
  place space start count fun _ => some .reserved

/-- `mmap` of the first pages of a file with `MAP_FIXED`. -/
def mapFile (space : Space φ) (start count : ℕ) (f : φ) : Space φ :=
  place space start count fun i => some (.file f i)

def unmap (space : Space φ) (start count : ℕ) : Space φ := place space start count fun _ => none

/-- The byte at an address, if there is a page of a file. -/
def load (space : Space φ) (content : φ → ℕ → UInt8) (addr : ℕ) : Option UInt8 :=
  match space (addr / pageSize) with
  | some (.file f index) => some (content f (index * pageSize + addr % pageSize))
  | _ => none

section Place

variable (space : Space φ) {start count p : ℕ} (view : ℕ → Option (Page φ))

theorem place_inside (h : start ≤ p ∧ p < start + count) :
    place space start count view p = view (p - start) := if_pos h

theorem place_outside (h : ¬(start ≤ p ∧ p < start + count)) :
    place space start count view p = space p := if_neg h

/-- What was placed on free pages is taken away again, with all that was placed over it. -/
theorem unmap_eq {space' : Space φ} (hfree : ∀ p, start ≤ p → p < start + count → space p = none)
    (hsame : ∀ p, ¬(start ≤ p ∧ p < start + count) → space' p = space p) :
    unmap space' start count = space := by
  funext p
  by_cases h : start ≤ p ∧ p < start + count
  · rw [unmap, place_inside _ _ h, hfree p h.1 h.2]
  · rw [unmap, place_outside _ _ h, hsame p h]

end Place

/-- The bytes of consecutive pages of a file are found behind each other. -/
theorem load_file {space : Space φ} {content : φ → ℕ → UInt8} {f : φ} {start index count addr : ℕ}
    (h : ∀ i < count, space (start + i) = some (.file f (index + i)))
    (hlo : start * pageSize ≤ addr) (hhi : addr < (start + count) * pageSize) :
    load space content addr =
      some (content f (index * pageSize + (addr - start * pageSize))) := by
  have hpage := h (addr / pageSize - start) (by simp only [pageSize] at *; omega)
  have hindex : start + (addr / pageSize - start) = addr / pageSize := by
    simp only [pageSize] at *
    omega
  rw [hindex] at hpage
  have hoffset : (index + (addr / pageSize - start)) * pageSize + addr % pageSize =
      index * pageSize + (addr - start * pageSize) := by
    simp only [pageSize] at *
    omega
  rw [load, hpage]
  simp only [hoffset]

end SystemsExperiments.Paging
