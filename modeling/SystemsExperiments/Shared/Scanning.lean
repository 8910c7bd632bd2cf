import Mathlib.Data.List.Infix

/-! # Scanning a list

The first occurrence of a pattern, and the runs of elements of a kind. What comes behind an
element that is in neither changes neither. -/

namespace SystemsExperiments.Scanning

variable {α : Type*}

/-! ## Runs -/

theorem take_sub_dropWhile (p : α → Bool) (text : List α) :
    text.take (text.length - (text.dropWhile p).length) = text.takeWhile p := by
  have hlen := congrArg List.length (List.takeWhile_append_dropWhile (p := p) (l := text))
  rw [List.length_append] at hlen
  have hsub : text.length - (text.dropWhile p).length = (text.takeWhile p).length := by omega
  rw [hsub]
  exact (List.prefix_iff_eq_take.mp (List.takeWhile_prefix p)).symm

/-- What does not belong to a run ends it. -/
theorem takeWhile_append_cons {p : α → Bool} {c : α} (hc : p c = false) (text back : List α) :
    (text ++ c :: back).takeWhile p = text.takeWhile p := by
  induction text with
  | nil => simp [hc]
  | cons b text ih => rw [List.cons_append, List.takeWhile_cons, List.takeWhile_cons, ih]

theorem dropWhile_append_cons {p : α → Bool} {c : α} (hc : p c = false) (text back : List α) :
    (text ++ c :: back).dropWhile p = text.dropWhile p ++ c :: back := by
  induction text with
  | nil => simp [hc]
  | cons b text ih =>
      rw [List.cons_append, List.dropWhile_cons, List.dropWhile_cons, ih]
      split
      · rfl
      · rfl

/-! ## Patterns -/

/-- An occurrence does not go over what is not in the pattern. -/
theorem prefix_append_cons {pattern : List α} {c : α} (hc : c ∉ pattern) (text back : List α) :
    pattern <+: text ++ c :: back ↔ pattern <+: text := by
  induction pattern generalizing text with
  | nil => simp
  | cons p pattern ih =>
      rw [List.mem_cons, not_or] at hc
      cases text with
      | nil => simp [List.cons_prefix_cons, Ne.symm hc.1]
      | cons a text => rw [List.cons_append, List.cons_prefix_cons, List.cons_prefix_cons, ih hc.2]

variable [DecidableEq α]

/-- The text from the first occurrence of a pattern on. -/
def fromFirst (pattern : List α) : List α → Option (List α)
  | [] => none
  | a :: text => if pattern <+: a :: text then some (a :: text) else fromFirst pattern text

variable {pattern text rest : List α}

theorem isPrefix_fromFirst (h : fromFirst pattern text = some rest) : pattern <+: rest := by
  induction text with
  | nil => cases h
  | cons a text ih =>
      rw [fromFirst] at h
      split at h
      · cases h
        assumption
      · exact ih h

theorem isSuffix_fromFirst (h : fromFirst pattern text = some rest) : rest <:+ text := by
  induction text with
  | nil => cases h
  | cons a text ih =>
      rw [fromFirst] at h
      split at h
      · cases h
        exact List.suffix_refl _
      · exact (ih h).trans (List.suffix_cons a text)

theorem fromFirst_self (hne : pattern ≠ []) (h : pattern <+: text) :
    fromFirst pattern text = some text := by
  cases text with
  | nil => exact absurd (List.prefix_nil.mp h) hne
  | cons a text => rw [fromFirst, if_pos h]

theorem fromFirst_append_cons_of_some {c : α} (hc : c ∉ pattern)
    (h : fromFirst pattern text = some rest) (back : List α) :
    fromFirst pattern (text ++ c :: back) = some (rest ++ c :: back) := by
  induction text with
  | nil => cases h
  | cons a text ih =>
      have hiff := prefix_append_cons hc (a :: text) back
      rw [List.cons_append] at hiff
      rw [fromFirst] at h
      rw [List.cons_append, fromFirst]
      split at h
      · cases h
        exact if_pos (hiff.mpr ‹_›)
      · rw [if_neg (hiff.not.mpr ‹_›)]
        exact ih h

theorem fromFirst_append_cons_of_none {c : α} (hc : c ∉ pattern) (hne : pattern ≠ [])
    (h : fromFirst pattern text = none) (back : List α) :
    fromFirst pattern (text ++ c :: back) = fromFirst pattern back := by
  induction text with
  | nil =>
      have hiff := prefix_append_cons hc [] back
      rw [List.nil_append] at hiff ⊢
      rw [fromFirst, if_neg]
      rw [hiff, List.prefix_nil]
      exact hne
  | cons a text ih =>
      have hiff := prefix_append_cons hc (a :: text) back
      rw [List.cons_append] at hiff
      rw [fromFirst] at h
      rw [List.cons_append, fromFirst]
      split at h
      · cases h
      · rw [if_neg (hiff.not.mpr ‹_›)]
        exact ih h

end SystemsExperiments.Scanning
