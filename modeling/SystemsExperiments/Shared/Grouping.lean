import Mathlib.Algebra.BigOperators.Group.List.Basic
import Mathlib.Algebra.Order.Ring.Nat
import Mathlib.Algebra.Order.Group.Multiset
import Mathlib.Data.List.Dedup
import Mathlib.Logic.Function.Basic

/-! # Sums over groups

The items of a list are sorted into groups by predicates or by a key. Each item is counted in
every group that it belongs to, so the sums of the groups add up to the sum of the list where
it belongs to exactly one. -/

namespace SystemsExperiments.Grouping

variable {α κ M : Type*} [AddCommMonoid M]

/-- The sums of the groups, added up. -/
theorem sum_groups (groups : List (α → Bool)) (w : α → M) (l : List α) :
    (groups.map fun p => ((l.filter p).map w).sum).sum =
      (l.map fun x => groups.countP (fun p => p x) • w x).sum := by
  induction groups with
  | nil => simp
  | cons p groups ih =>
      rw [List.map_cons, List.sum_cons, ih]
      clear ih
      induction l with
      | nil => simp
      | cons x l ihl =>
          rw [List.map_cons, List.sum_cons, List.map_cons, List.sum_cons, ← ihl]
          by_cases hx : p x = true
          · have hcount : (p :: groups).countP (fun p => p x) =
                groups.countP (fun p => p x) + 1 := List.countP_cons_of_pos hx
            rw [List.filter_cons_of_pos hx, List.map_cons, List.sum_cons, hcount, succ_nsmul]
            simp only [add_assoc, add_comm, add_left_comm]
          · have hcount : (p :: groups).countP (fun p => p x) = groups.countP (fun p => p x) :=
              List.countP_cons_of_neg hx
            rw [List.filter_cons_of_neg hx, hcount]
            simp only [add_left_comm]

/-- Groups that share no item and leave none out. -/
theorem sum_groups_of_countP_eq_one {groups : List (α → Bool)} {l : List α}
    (h : ∀ x ∈ l, groups.countP (fun p => p x) = 1) (w : α → M) :
    (groups.map fun p => ((l.filter p).map w).sum).sum = (l.map w).sum := by
  rw [sum_groups]
  congr 1
  apply List.map_congr_left
  intro x hx
  rw [h x hx, one_nsmul]

/-- Every item between the first and the last bound is in one of the ranges between
consecutive bounds, and in no other. -/
theorem countP_ranges {β : Type*} [LinearOrder β] {b : β} {bs : List β}
    (h : (b :: bs).Pairwise (· ≤ ·)) (x : β) :
    ((b :: bs).zip bs).countP (fun r => r.1 ≤ x ∧ x < r.2) =
      if b ≤ x ∧ x < (b :: bs).getLast (List.cons_ne_nil b bs) then 1 else 0 := by
  induction bs generalizing b with
  | nil =>
      have hnot : ¬ (b ≤ x ∧ x < b) := fun hx => not_lt_of_ge hx.1 hx.2
      simp [hnot]
  | cons c bs ih =>
      have hbc : b ≤ c := List.rel_of_pairwise_cons h List.mem_cons_self
      have hlast : c ≤ (c :: bs).getLast (List.cons_ne_nil c bs) := by
        rcases List.mem_cons.mp (List.getLast_mem (List.cons_ne_nil c bs)) with heq | hmem
        · exact heq.ge
        · exact List.rel_of_pairwise_cons h.of_cons hmem
      rw [List.zip_cons_cons, List.countP_cons, ih h.of_cons, List.getLast_cons_cons]
      rcases lt_or_ge x c with hxc | hcx
      · have hx : x < (c :: bs).getLast (List.cons_ne_nil c bs) := hxc.trans_le hlast
        simp [hxc, hx, not_le_of_gt hxc]
      · simp [hcx, hbc.trans hcx, not_lt_of_ge hcx]

variable [DecidableEq κ]

/-- The items with the same key as one group. -/
def withKey (key : α → κ) (k : κ) (l : List α) : List α := l.filter fun x => key x = k

theorem withKey_eq_nil_iff (key : α → κ) (k : κ) (l : List α) :
    withKey key k l = [] ↔ k ∉ l.map key := by
  simp [withKey, List.filter_eq_nil_iff]

theorem withKey_perm (key : α → κ) (k : κ) {l l' : List α} (h : l.Perm l') :
    (withKey key k l).Perm (withKey key k l') := h.filter _

/-- Over keys that are all different and leave none out, the sums of the groups add up. -/
theorem sum_withKey {key : α → κ} {keys : List κ} {l : List α} (hnodup : keys.Nodup)
    (hkeys : ∀ x ∈ l, key x ∈ keys) (w : α → M) :
    (keys.map fun k => ((withKey key k l).map w).sum).sum = (l.map w).sum := by
  have hone : ∀ x ∈ l,
      (keys.map fun (k : κ) (y : α) => decide (key y = k)).countP (fun p => p x) = 1 := by
    intro x hx
    rw [List.countP_map]
    have hcount : keys.countP ((fun p : α → Bool => p x) ∘ fun k y => decide (key y = k)) =
        keys.count (key x) := by
      apply List.countP_congr
      intro k _
      rw [beq_iff_eq, Function.comp_apply, decide_eq_true_eq]
      exact eq_comm
    rw [hcount]
    exact List.count_eq_one_of_mem hnodup (hkeys x hx)
  have hsum := sum_groups_of_countP_eq_one hone w
  rw [List.map_map] at hsum
  exact hsum

/-- Over such keys the groups, one after the other, are a rearrangement of the list. -/
theorem flatMap_withKey_perm {key : α → κ} {keys : List κ} {l : List α} (hnodup : keys.Nodup)
    (hkeys : ∀ x ∈ l, key x ∈ keys) : (keys.flatMap fun k => withKey key k l).Perm l := by
  have hsingles : ∀ xs : List α, (xs.map fun x => ({x} : Multiset α)).sum = (xs : Multiset α) := by
    intro xs
    induction xs with
    | nil => rfl
    | cons x xs ih => rw [List.map_cons, List.sum_cons, ih, Multiset.singleton_add,
        Multiset.cons_coe]
  have hflat : ∀ ks : List κ, (ks.map fun k => (withKey key k l : Multiset α)).sum =
      ((ks.flatMap fun k => withKey key k l : List α) : Multiset α) := by
    intro ks
    induction ks with
    | nil => rfl
    | cons k ks ih => rw [List.map_cons, List.sum_cons, ih, List.flatMap_cons,
        Multiset.coe_add]
  have hsum := sum_withKey hnodup hkeys fun x => ({x} : Multiset α)
  simp only [hsingles] at hsum
  rw [hflat] at hsum
  exact Multiset.coe_eq_coe.mp hsum

/-- One more item in one of the groups is one more item altogether. -/
theorem flatMap_update_perm {β : Type*} {keys : List κ} {k : κ} (hnodup : keys.Nodup)
    (hk : k ∈ keys) (groups : κ → List β) (x : β) :
    (keys.flatMap (Function.update groups k (groups k ++ [x]))).Perm
      (keys.flatMap groups ++ [x]) := by
  induction keys with
  | nil => exact absurd hk List.not_mem_nil
  | cons j keys ih =>
      obtain ⟨hj, hnodup⟩ := List.nodup_cons.mp hnodup
      rw [List.flatMap_cons, List.flatMap_cons]
      by_cases hjk : j = k
      · subst hjk
        have hsame : keys.flatMap (Function.update groups j (groups j ++ [x])) =
            keys.flatMap groups := by
          apply List.flatMap_congr
          intro i hi
          rw [Function.update_of_ne]
          rintro rfl
          exact hj hi
        rw [Function.update_self, hsame, List.append_assoc, List.append_assoc]
        exact (List.perm_append_comm).append_left (groups j)
      · rw [Function.update_of_ne hjk, List.append_assoc]
        exact (ih hnodup ((List.mem_cons.mp hk).resolve_left (Ne.symm hjk))).append_left _

end SystemsExperiments.Grouping
