import Mathlib.Algebra.Order.Ring.Nat
import Mathlib.Algebra.BigOperators.Group.List.Basic
import Mathlib.Data.List.Range

/-! # Items laid end to end

The places of a list of sized items that start at one offset and follow each other
without gaps, and what is read from a sequence in which every place holds its item. -/

namespace SystemsExperiments.Layout

variable {α β : Type*} (size : α → ℕ)

/-- Each item with the offset at which it starts. -/
def layout : ℕ → List α → List (ℕ × α)
  | _, [] => []
  | a, x :: xs => (a, x) :: layout (a + size x) xs

def total (xs : List α) : ℕ := (xs.map size).sum

@[simp] theorem total_nil : total size ([] : List α) = 0 := rfl

@[simp] theorem total_cons (x : α) (xs : List α) :
    total size (x :: xs) = size x + total size xs := by
  simp [total]

@[simp] theorem total_append (xs ys : List α) :
    total size (xs ++ ys) = total size xs + total size ys := by
  simp [total]

theorem layout_append (a : ℕ) (xs ys : List α) :
    layout size a (xs ++ ys) = layout size a xs ++ layout size (a + total size xs) ys := by
  induction xs generalizing a with
  | nil => simp [layout]
  | cons x xs ih =>
      simp only [List.cons_append, layout, ih, total_cons]
      rw [Nat.add_assoc]

variable {size}

theorem layout_bounds {a p : ℕ} {x : α} {xs : List α} (h : (p, x) ∈ layout size a xs) :
    a ≤ p ∧ p + size x ≤ a + total size xs := by
  induction xs generalizing a with
  | nil => simp [layout] at h
  | cons y ys ih =>
      simp only [layout, List.mem_cons, Prod.mk.injEq] at h
      rw [total_cons]
      rcases h with ⟨rfl, rfl⟩ | h
      · omega
      · have hrest := ih h
        omega

theorem mem_of_layout {a p : ℕ} {x : α} {xs : List α} (h : (p, x) ∈ layout size a xs) :
    x ∈ xs := by
  induction xs generalizing a with
  | nil => simp [layout] at h
  | cons y ys ih =>
      simp only [layout, List.mem_cons, Prod.mk.injEq] at h ⊢
      rcases h with ⟨-, rfl⟩ | h
      · exact .inl rfl
      · exact .inr (ih h)

/-- Two places are the same place, or one ends before the other starts. -/
theorem layout_eq_or_disjoint {a p q : ℕ} {x y : α} {xs : List α}
    (hx : (p, x) ∈ layout size a xs) (hy : (q, y) ∈ layout size a xs) :
    (p, x) = (q, y) ∨ p + size x ≤ q ∨ q + size y ≤ p := by
  induction xs generalizing a with
  | nil => simp [layout] at hx
  | cons z zs ih =>
      simp only [layout, List.mem_cons] at hx hy
      rcases hx with hx | hx
      · rcases hy with hy | hy
        · exact .inl (hx.trans hy.symm)
        · obtain ⟨rfl, rfl⟩ := Prod.mk.inj hx
          exact .inr (.inl (layout_bounds hy).1)
      · rcases hy with hy | hy
        · obtain ⟨rfl, rfl⟩ := Prod.mk.inj hy
          exact .inr (.inr (layout_bounds hx).1)
        · exact ih hx hy

/-- What bounds the end of every place bounds the end of the last one. -/
theorem total_le_of_forall {a n : ℕ} {xs : List α} (ha : a ≤ n)
    (h : ∀ p x, (p, x) ∈ layout size a xs → 0 < size x → p + size x ≤ n) :
    a + total size xs ≤ n := by
  induction xs generalizing a with
  | nil => simpa using ha
  | cons x xs ih =>
      have hfirst : a + size x ≤ n := by
        rcases Nat.eq_zero_or_pos (size x) with hzero | hpos
        · omega
        · exact h a x List.mem_cons_self hpos
      have hrest := ih hfirst fun p y hy => h p y (List.mem_cons_of_mem _ hy)
      rw [total_cons]
      omega

/-- A sequence that holds every item at its place reads as their concatenation. -/
theorem map_range'_eq_flatMap {f : ℕ → β} {body : α → ℕ → β} {a : ℕ} {xs : List α}
    (h : ∀ p x, (p, x) ∈ layout size a xs → ∀ i < size x, f (p + i) = body x i) :
    (List.range' a (total size xs)).map f =
      xs.flatMap fun x => (List.range (size x)).map (body x) := by
  induction xs generalizing a with
  | nil => simp
  | cons x xs ih =>
      have hrest := ih (a := a + size x) fun p y hy => h p y (List.mem_cons_of_mem _ hy)
      have hfirst : (List.range' a (size x)).map f = (List.range (size x)).map (body x) := by
        rw [List.range'_eq_map_range, List.map_map]
        apply List.map_congr_left
        intro i hi
        exact h a x List.mem_cons_self i (List.mem_range.mp hi)
      rw [total_cons, List.flatMap_cons, ← hrest, ← hfirst, ← List.map_append,
        List.range'_append_1]

end SystemsExperiments.Layout
