import Mathlib.Algebra.Order.Ring.Nat
import Mathlib.Data.List.Basic
import Mathlib.Data.Int.ModEq
import Mathlib.Logic.Function.Basic

/-! # Records in circular storage

Cells are numbered from zero on and taken modulo the size of the storage. A queue of records
occupies the cells between a read and a write position; both positions are kept modulo the
size, so the storage is never filled completely. -/

namespace SystemsExperiments.Circular

variable {α : Type} {size : ℕ}

/-- The items `xs` stand in the cells from `pos` on, around the end of the storage. -/
def Stored (size : ℕ) (cells : ℕ → α) (pos : ℕ) (xs : List α) : Prop :=
  ∀ i (h : i < xs.length), cells ((pos + i) % size) = xs[i]

def put (size : ℕ) (cells : ℕ → α) (pos : ℕ) (x : α) : ℕ → α :=
  Function.update cells (pos % size) x

/-- The items are put one after another. -/
def store (size : ℕ) (cells : ℕ → α) (pos : ℕ) : List α → ℕ → α
  | [] => cells
  | x :: xs => store size (put size cells pos x) (pos + 1) xs

/-- Less than one turn apart, cells differ. -/
theorem add_mod_ne (pos : ℕ) {i j : ℕ} (hij : i < j) (hj : j < size) :
    (pos + i) % size ≠ (pos + j) % size := by
  intro h
  have hdvd : size ∣ pos + j - (pos + i) := (Nat.modEq_iff_dvd' (by omega)).mp h
  have hle := Nat.le_of_dvd (by omega) hdvd
  omega

section Stored

variable {cells : ℕ → α} {pos : ℕ} {xs ys : List α}

theorem Stored.left (h : Stored size cells pos (xs ++ ys)) : Stored size cells pos xs := by
  intro i hi
  rw [h i (by rw [List.length_append]; omega), List.getElem_append_left hi]

theorem Stored.right (h : Stored size cells pos (xs ++ ys)) :
    Stored size cells ((pos + xs.length) % size) ys := by
  intro i hi
  rw [Nat.mod_add_mod, Nat.add_assoc, h (xs.length + i) (by rw [List.length_append]; omega),
    List.getElem_append_right (Nat.le_add_right _ _)]
  simp

/-- An item put behind the others joins them. -/
theorem Stored.put (h : Stored size cells pos xs) (hroom : xs.length < size) (x : α) :
    Stored size (put size cells (pos + xs.length) x) pos (xs ++ [x]) := by
  intro i hi
  rw [List.length_append, List.length_singleton] at hi
  by_cases hlast : i = xs.length
  · subst hlast
    simp [Circular.put]
  · have hlt : i < xs.length := by omega
    rw [Circular.put, Function.update_of_ne (add_mod_ne pos hlt hroom), h i hlt,
      List.getElem_append_left hlt]

theorem Stored.store (h : Stored size cells pos xs) (hroom : xs.length + ys.length ≤ size) :
    Stored size (store size cells (pos + xs.length) ys) pos (xs ++ ys) := by
  induction ys generalizing cells xs with
  | nil => simpa [Circular.store] using h
  | cons y ys ih =>
      rw [List.length_cons] at hroom
      have hnext := ih (h.put (by omega) y) (by simp; omega)
      rw [List.length_append, List.length_singleton] at hnext
      simpa [Circular.store, Nat.add_assoc] using hnext

/-- Only the position modulo the size of the storage matters. -/
theorem put_mod (cells : ℕ → α) (pos k : ℕ) (x : α) :
    Circular.put size cells (pos % size + k) x = Circular.put size cells (pos + k) x := by
  rw [Circular.put, Circular.put, Nat.mod_add_mod]

theorem store_mod (cells : ℕ → α) (pos : ℕ) (ys : List α) :
    Circular.store size cells (pos % size) ys = Circular.store size cells pos ys := by
  have hgen : ∀ k, Circular.store size cells (pos % size + k) ys =
      Circular.store size cells (pos + k) ys := by
    induction ys generalizing cells with
    | nil => intro k; rfl
    | cons y ys ih =>
        intro k
        rw [Circular.store, Circular.store, put_mod, Nat.add_assoc, Nat.add_assoc]
        exact ih _ _
  exact hgen 0

end Stored

/-! ## Queues of records -/

/-- The records `q` are in the storage, oldest first, between the positions. Of their items
all but the last ones, `unwritten`, are in their cells. -/
structure Queue (size : ℕ) (cells : ℕ → α) (readPos writePos : ℕ) (q : List (List α))
    (unwritten : List α) : Prop where
  readPos_lt : readPos < size
  room : q.flatten.length < size
  writePos_eq : writePos = (readPos + q.flatten.length) % size
  stored : ∃ written, q.flatten = written ++ unwritten ∧ Stored size cells readPos written

namespace Queue

variable {cells : ℕ → α} {readPos writePos : ℕ} {q : List (List α)} {unwritten rec : List α}

theorem empty (hsize : 0 < size) (cells : ℕ → α) : Queue size cells 0 0 [] ([] : List α) := by
  refine ⟨hsize, hsize, by simp, [], rfl, ?_⟩
  intro i hi
  simp at hi

theorem writePos_lt (h : Queue size cells readPos writePos q unwritten) : writePos < size := by
  rw [h.writePos_eq]
  exact Nat.mod_lt _ (by have := h.readPos_lt; omega)

/-- The positions meet when nothing is in the queue. -/
theorem readPos_eq_writePos_iff (h : Queue size cells readPos writePos q unwritten) :
    readPos = writePos ↔ q.flatten = [] := by
  rw [h.writePos_eq]
  constructor
  · intro heq
    by_contra hne
    have hpos : 0 < q.flatten.length := List.length_pos_of_ne_nil hne
    refine add_mod_ne readPos hpos h.room ?_
    rw [Nat.add_zero, Nat.mod_eq_of_lt h.readPos_lt]
    exact heq
  · intro hnil
    rw [hnil, List.length_nil, Nat.add_zero, Nat.mod_eq_of_lt h.readPos_lt]

/-- How far the queue reaches, in terms of the positions. -/
theorem used_eq (h : Queue size cells readPos writePos q unwritten) :
    q.flatten.length = if readPos ≤ writePos then writePos - readPos
      else writePos + size - readPos := by
  have hr := h.readPos_lt
  have hroom := h.room
  have hw := h.writePos_eq
  by_cases hwrap : readPos + q.flatten.length < size
  · rw [Nat.mod_eq_of_lt hwrap] at hw
    rw [if_pos (by omega)]
    omega
  · rw [Nat.mod_eq_sub_mod (by omega), Nat.mod_eq_of_lt (by omega)] at hw
    rw [if_neg (by omega)]
    omega

/-- Room for a record is reserved before it is written. -/
theorem reserve (h : Queue size cells readPos writePos q []) (hroom :
    q.flatten.length + rec.length < size) :
    Queue size cells readPos ((writePos + rec.length) % size) (q ++ [rec]) rec := by
  obtain ⟨written, hwritten, hstored⟩ := h.stored
  refine ⟨h.readPos_lt, by simpa using hroom, ?_, written, ?_, hstored⟩
  · rw [h.writePos_eq, Nat.mod_add_mod]
    simp [Nat.add_assoc]
  · simpa using hwritten

/-- The next item is written. -/
theorem put {x : α} (h : Queue size cells readPos writePos q (x :: unwritten)) :
    Queue size (Circular.put size cells (readPos + (q.flatten.length - (unwritten.length + 1))) x)
      readPos writePos q unwritten := by
  obtain ⟨written, hwritten, hstored⟩ := h.stored
  have hroom := h.room
  have hlength : q.flatten.length = written.length + (unwritten.length + 1) := by
    rw [hwritten, List.length_append, List.length_cons]
  refine ⟨h.readPos_lt, hroom, h.writePos_eq, written ++ [x], by simpa using hwritten, ?_⟩
  rw [hlength, Nat.add_sub_cancel]
  exact hstored.put (by omega) x

/-- All items are written. -/
theorem store (h : Queue size cells readPos writePos q unwritten) :
    Queue size
      (Circular.store size cells (readPos + (q.flatten.length - unwritten.length)) unwritten)
      readPos writePos q [] := by
  obtain ⟨written, hwritten, hstored⟩ := h.stored
  have hroom := h.room
  have hlength : q.flatten.length = written.length + unwritten.length := by
    rw [hwritten, List.length_append]
  refine ⟨h.readPos_lt, hroom, h.writePos_eq, q.flatten, by simp, ?_⟩
  rw [hlength, Nat.add_sub_cancel, hwritten]
  exact hstored.store (by omega)

/-- The oldest record is written as soon as all that is unwritten belongs to later ones. -/
theorem stored_cons (h : Queue size cells readPos writePos (rec :: q) unwritten)
    (hlast : unwritten.length ≤ q.flatten.length) :
    ∃ later, q.flatten = later ++ unwritten ∧ Stored size cells readPos (rec ++ later) := by
  obtain ⟨written, hwritten, hstored⟩ := h.stored
  rw [List.flatten_cons] at hwritten
  have hlength := congrArg List.length hwritten
  rw [List.length_append, List.length_append] at hlength
  obtain ⟨later, rfl⟩ : rec <+: written :=
    List.prefix_of_prefix_length_le (List.prefix_append rec q.flatten)
      (hwritten ▸ List.prefix_append written unwritten) (by omega)
  rw [List.append_assoc] at hwritten
  exact ⟨later, List.append_cancel_left hwritten, hstored⟩

/-- The oldest record is taken out. -/
theorem pop (h : Queue size cells readPos writePos (rec :: q) unwritten)
    (hlast : unwritten.length ≤ q.flatten.length) :
    Queue size cells ((readPos + rec.length) % size) writePos q unwritten := by
  obtain ⟨later, hlater, hstored⟩ := h.stored_cons hlast
  have hroom := h.room
  have hpos := h.readPos_lt
  have hw := h.writePos_eq
  rw [List.flatten_cons, List.length_append] at hroom hw
  refine ⟨Nat.mod_lt _ (by omega), by omega, ?_, later, hlater, hstored.right⟩
  rw [hw, Nat.mod_add_mod, Nat.add_assoc]

end Queue

end SystemsExperiments.Circular
