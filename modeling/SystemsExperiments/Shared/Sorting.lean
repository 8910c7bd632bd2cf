import Mathlib.Data.List.Sort
import Mathlib.Data.List.Forall2

/-! # Stable sorting with ties

A list is sorted by a relation that may hold in both directions between different items. Such
items are tied; a stable sort keeps each class of tied items in the order of the input, and
that is all it keeps of that order. -/

namespace SystemsExperiments.Sorting

variable {α : Type*} (r : α → α → Prop)

/-- Neither item has to come before the other. -/
def Tied (a b : α) : Prop := r a b ∧ r b a

variable {r}

theorem Tied.symm {a b : α} (h : Tied r a b) : Tied r b a := ⟨h.2, h.1⟩

theorem Tied.trans [IsTrans α r] {a b c : α} (hab : Tied r a b) (hbc : Tied r b c) : Tied r a c :=
  ⟨IsTrans.trans a b c hab.1 hbc.1, IsTrans.trans c b a hbc.2 hab.2⟩

theorem tied_refl [Std.Total r] (a : α) : Tied r a a := by
  rcases Std.Total.total (r := r) a a with h | h
  · exact ⟨h, h⟩
  · exact ⟨h, h⟩

variable (r) [DecidableRel r]

instance (a b : α) : Decidable (Tied r a b) := inferInstanceAs (Decidable (_ ∧ _))

/-- The items that are tied with `a`, in order. -/
def tiedWith (a : α) (l : List α) : List α := l.filter fun b => Tied r a b

variable {r}

theorem mem_tiedWith {a b : α} {l : List α} : b ∈ tiedWith r a l ↔ b ∈ l ∧ Tied r a b := by
  simp [tiedWith]

theorem tiedWith_cons_of_tied {a b : α} (h : Tied r a b) (l : List α) :
    tiedWith r a (b :: l) = b :: tiedWith r a l :=
  List.filter_cons_of_pos (by simpa using h)

theorem tiedWith_cons_of_not_tied {a b : α} (h : ¬ Tied r a b) (l : List α) :
    tiedWith r a (b :: l) = tiedWith r a l :=
  List.filter_cons_of_neg (by simpa using h)

/-! ## Stability -/

theorem tiedWith_orderedInsert [IsTrans α r] (a x : α) (l : List α) :
    tiedWith r a (l.orderedInsert r x) = tiedWith r a (x :: l) := by
  induction l with
  | nil => rfl
  | cons b l ih =>
      rw [List.orderedInsert_cons]
      split
      · rfl
      next hxb =>
        by_cases hb : Tied r a b
        · -- the two are not tied with each other, so `x` is not tied with `a`
          have hx : ¬ Tied r a x := fun hx => hxb (hx.symm.trans hb).1
          rw [tiedWith_cons_of_tied hb, ih, tiedWith_cons_of_not_tied hx,
            tiedWith_cons_of_not_tied hx, tiedWith_cons_of_tied hb]
        · rw [tiedWith_cons_of_not_tied hb, ih]
          by_cases hx : Tied r a x
          · rw [tiedWith_cons_of_tied hx, tiedWith_cons_of_tied hx, tiedWith_cons_of_not_tied hb]
          · rw [tiedWith_cons_of_not_tied hx, tiedWith_cons_of_not_tied hx,
              tiedWith_cons_of_not_tied hb]

theorem tiedWith_insertionSort [IsTrans α r] (a : α) (l : List α) :
    tiedWith r a (l.insertionSort r) = tiedWith r a l := by
  induction l with
  | nil => rfl
  | cons x l ih =>
      rw [List.insertionSort_cons, tiedWith_orderedInsert]
      by_cases hx : Tied r a x
      · rw [tiedWith_cons_of_tied hx, tiedWith_cons_of_tied hx, ih]
      · rw [tiedWith_cons_of_not_tied hx, tiedWith_cons_of_not_tied hx, ih]

/-! ## Sorted lists -/

section Sorted

variable [Std.Total r] [IsTrans α r] {x y : α} {l l' : List α}

omit [DecidableRel r] [IsTrans α r] in
theorem rel_head {b : α} (h : (x :: l).Pairwise r) (hb : b ∈ x :: l) : r x b := by
  rcases List.mem_cons.mp hb with rfl | hl
  · exact (tied_refl b).1
  · exact List.rel_of_pairwise_cons h hl

/-- Sorted lists with as many items in each class start in the same class. -/
theorem tied_heads (h : (x :: l).Pairwise r) (h' : (y :: l').Pairwise r)
    (hcount : ∀ a, (tiedWith r a (x :: l)).length = (tiedWith r a (y :: l')).length) :
    Tied r x y := by
  have hfirst : ∀ {x y : α} {l l' : List α}, (y :: l').Pairwise r →
      (tiedWith r x (x :: l)).length = (tiedWith r x (y :: l')).length → r y x := by
    intro x y l l' h' hlength
    have hpos : 0 < (tiedWith r x (y :: l')).length := by
      rw [← hlength, tiedWith_cons_of_tied (tied_refl x), List.length_cons]
      exact Nat.succ_pos _
    obtain ⟨z, hz⟩ := List.exists_mem_of_length_pos hpos
    obtain ⟨hmem, htied⟩ := mem_tiedWith.mp hz
    exact IsTrans.trans y z x (rel_head h' hmem) htied.2
  exact ⟨hfirst h (hcount y).symm, hfirst h' (hcount x)⟩

omit [Std.Total r] in
theorem length_tiedWith_tail (hxy : Tied r x y)
    (hcount : ∀ a, (tiedWith r a (x :: l)).length = (tiedWith r a (y :: l')).length) (a : α) :
    (tiedWith r a l).length = (tiedWith r a l').length := by
  have hlength := hcount a
  by_cases hx : Tied r a x
  · rw [tiedWith_cons_of_tied hx, tiedWith_cons_of_tied (hx.trans hxy), List.length_cons,
      List.length_cons] at hlength
    omega
  · have hy : ¬ Tied r a y := fun hy => hx (hy.trans hxy.symm)
    rwa [tiedWith_cons_of_not_tied hx, tiedWith_cons_of_not_tied hy] at hlength

/-- They even agree in class at every place. -/
theorem forall₂_tied (h : l.Pairwise r) (h' : l'.Pairwise r)
    (hcount : ∀ a, (tiedWith r a l).length = (tiedWith r a l').length) :
    List.Forall₂ (Tied r) l l' := by
  induction l generalizing l' with
  | nil =>
      cases l' with
      | nil => exact .nil
      | cons y l' =>
          have hlength := hcount y
          rw [tiedWith_cons_of_tied (tied_refl y)] at hlength
          simp [tiedWith] at hlength
  | cons x l ih =>
      cases l' with
      | nil =>
          have hlength := hcount x
          rw [tiedWith_cons_of_tied (tied_refl x)] at hlength
          simp [tiedWith] at hlength
      | cons y l' =>
          have hxy := tied_heads h h' hcount
          exact .cons hxy (ih h.of_cons h'.of_cons (length_tiedWith_tail hxy hcount))

/-- A sorted list is determined by its classes. -/
theorem eq_of_tiedWith_eq (h : l.Pairwise r) (h' : l'.Pairwise r)
    (hclass : ∀ a, tiedWith r a l = tiedWith r a l') : l = l' := by
  have htied := forall₂_tied h h' fun a => congrArg List.length (hclass a)
  induction htied with
  | nil => rfl
  | @cons x y l l' hxy htail ih =>
      have hheads := hclass x
      rw [tiedWith_cons_of_tied (tied_refl x), tiedWith_cons_of_tied hxy] at hheads
      obtain ⟨rfl, -⟩ := List.cons_eq_cons.mp hheads
      congr 1
      apply ih h.of_cons h'.of_cons
      intro a
      have hrest := hclass a
      by_cases hx : Tied r a x
      · rw [tiedWith_cons_of_tied hx, tiedWith_cons_of_tied hx] at hrest
        exact (List.cons_eq_cons.mp hrest).2
      · rwa [tiedWith_cons_of_not_tied hx, tiedWith_cons_of_not_tied hx] at hrest

/-- What a stable sort returns depends on the order within the classes alone. -/
theorem insertionSort_eq_iff :
    l.insertionSort r = l'.insertionSort r ↔ ∀ a, tiedWith r a l = tiedWith r a l' := by
  constructor
  · intro h a
    rw [← tiedWith_insertionSort a l, h, tiedWith_insertionSort]
  · intro h
    apply eq_of_tiedWith_eq (List.pairwise_insertionSort r l) (List.pairwise_insertionSort r l')
    intro a
    rw [tiedWith_insertionSort, tiedWith_insertionSort, h a]

/-- Permutations are sorted to the same classes at every place. -/
theorem forall₂_tied_insertionSort (h : l.Perm l') :
    List.Forall₂ (Tied r) (l.insertionSort r) (l'.insertionSort r) := by
  apply forall₂_tied (List.pairwise_insertionSort r l) (List.pairwise_insertionSort r l')
  intro a
  rw [tiedWith_insertionSort, tiedWith_insertionSort]
  exact (h.filter _).length_eq

end Sorted

/-! ## Lists without ties -/

variable {l : List α}

theorem length_tiedWith_le_one [IsTrans α r] (h : l.Pairwise fun a b => ¬ Tied r a b) (a : α) :
    (tiedWith r a l).length ≤ 1 := by
  induction l with
  | nil => exact Nat.zero_le _
  | cons x l ih =>
      by_cases hx : Tied r a x
      · have hrest : tiedWith r a l = [] := by
          rw [List.eq_nil_iff_forall_not_mem]
          intro b hb
          obtain ⟨hmem, hab⟩ := mem_tiedWith.mp hb
          exact List.rel_of_pairwise_cons h hmem (hx.symm.trans hab)
        rw [tiedWith_cons_of_tied hx, hrest]
        exact le_refl 1
      · rw [tiedWith_cons_of_not_tied hx]
        exact ih h.of_cons

omit [DecidableRel r] in
theorem tail_eq_nil_of_reverse_eq {a : α} (hnodup : (a :: l).Nodup)
    (h : (a :: l).reverse = a :: l) : l = [] := by
  rcases List.eq_nil_or_concat l with hnil | ⟨rest, b, hrest⟩
  · exact hnil
  · -- the last item is the first one of the reverse
    rw [hrest, List.concat_eq_append, List.reverse_cons, List.reverse_append] at h
    have hba : b = a := (List.cons_eq_cons.mp h).1
    have hmem : a ∈ l := by
      rw [hrest, hba]
      simp
    exact absurd hmem (List.nodup_cons.mp hnodup).1

/-- Without ties every order of the items is sorted to the same list. -/
theorem insertionSort_eq_of_perm [Std.Total r] [IsTrans α r] {l' : List α} (hperm : l.Perm l')
    (h : l.Pairwise fun a b => ¬ Tied r a b) : l.insertionSort r = l'.insertionSort r := by
  rw [insertionSort_eq_iff]
  intro a
  have hclass : (tiedWith r a l).Perm (tiedWith r a l') := hperm.filter _
  have hle := length_tiedWith_le_one h a
  cases hcases : tiedWith r a l with
  | nil =>
      rw [hcases] at hclass
      exact hclass.nil_eq
  | cons b rest =>
      rw [hcases, List.length_cons] at hle
      have hrest : rest = [] := List.length_eq_zero_iff.mp (by omega)
      rw [hcases, hrest] at hclass
      rw [hrest]
      exact (List.perm_singleton.mp hclass.symm).symm

/-- With ties the reverse order is sorted to another list. -/
theorem not_tied_of_insertionSort_reverse_eq [Std.Total r] [IsTrans α r] (hnodup : l.Nodup)
    (h : l.reverse.insertionSort r = l.insertionSort r) : l.Pairwise fun a b => ¬ Tied r a b := by
  rw [insertionSort_eq_iff] at h
  rw [List.pairwise_iff_forall_sublist]
  intro a b hsub htied
  have hreverse : (tiedWith r a l).reverse = tiedWith r a l :=
    List.filter_reverse.symm.trans (h a)
  have hpair : List.Sublist [a, b] (tiedWith r a l) := by
    have hfilter := hsub.filter fun b => Tied r a b
    rw [tiedWith]
    simpa [htied, tied_refl a] using hfilter
  cases hcases : tiedWith r a l with
  | nil =>
      rw [hcases] at hpair
      exact absurd hpair.length_le (by simp)
  | cons c rest =>
      rw [hcases] at hreverse hpair
      have hclass : (c :: rest).Nodup := by
        rw [← hcases]
        exact hnodup.filter _
      rw [tail_eq_nil_of_reverse_eq hclass hreverse] at hpair
      exact absurd hpair.length_le (by simp)

/-! ## Ranks -/

section Rank

variable [LinearOrder α] {l : List α} {k : ℕ} {lo hi : α}

/-- If at most `k` elements are below a bound, then the one of rank `k` is not. -/
theorem le_getElem_of_countP (hsorted : l.Pairwise (· ≤ ·)) (hk : k < l.length)
    (hcount : l.countP (fun x => x < lo) ≤ k) : lo ≤ l[k] := by
  by_contra hlt
  have hbelow : ∀ x ∈ l.take (k + 1), decide (x < lo) = true := by
    intro x hx
    obtain ⟨i, hi, rfl⟩ := List.mem_iff_getElem.mp hx
    rw [List.length_take] at hi
    rw [List.getElem_take, decide_eq_true_eq]
    have hle : l[i] ≤ l[k] := by
      cases Nat.lt_or_eq_of_le (show i ≤ k by omega) with
      | inl hik => exact List.pairwise_iff_getElem.mp hsorted i k _ hk hik
      | inr heq => exact le_of_eq (getElem_congr_idx heq)
    exact lt_of_le_of_lt hle (not_le.mp hlt)
  have hfront := List.countP_eq_length.mpr hbelow
  rw [List.length_take] at hfront
  have hsum : (l.take (k + 1)).countP (fun x => x < lo) +
      (l.drop (k + 1)).countP (fun x => x < lo) = l.countP (fun x => x < lo) := by
    rw [← List.countP_append, List.take_append_drop]
  omega

/-- If less elements are above a bound than come after rank `k`, and it, then it is not. -/
theorem getElem_le_of_countP (hsorted : l.Pairwise (· ≤ ·)) (hk : k < l.length)
    (hcount : l.countP (fun x => hi < x) + k < l.length) : l[k] ≤ hi := by
  by_contra hlt
  have habove : ∀ x ∈ l.drop k, decide (hi < x) = true := by
    intro x hx
    obtain ⟨i, hi, rfl⟩ := List.mem_iff_getElem.mp hx
    rw [List.length_drop] at hi
    rw [List.getElem_drop, decide_eq_true_eq]
    have hle : l[k] ≤ l[k + i] := by
      cases Nat.eq_zero_or_pos i with
      | inl hzero => exact le_of_eq (getElem_congr_idx (by omega))
      | inr hpos => exact List.pairwise_iff_getElem.mp hsorted k (k + i) hk _ (by omega)
    exact lt_of_lt_of_le (not_le.mp hlt) hle
  have hback := List.countP_eq_length.mpr habove
  rw [List.length_drop] at hback
  have hsum : (l.take k).countP (fun x => hi < x) + (l.drop k).countP (fun x => hi < x) =
      l.countP (fun x => hi < x) := by
    rw [← List.countP_append, List.take_append_drop]
  omega

end Rank

end SystemsExperiments.Sorting
