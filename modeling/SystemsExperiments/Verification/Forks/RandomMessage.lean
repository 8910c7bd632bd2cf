import SystemsExperiments.Model.Forks.RandomMessage
import Mathlib.Tactic.Linarith

/-! # Random messages fit

No message is longer than 199 bytes, which is just as much as the bookkeeping of the position
needs: it counts what `snprintf` would have printed, not what there was room for. -/

namespace SystemsExperiments.Forks

open Printing

/-! ## Words -/

theorem length_randomWord_le (r : ℕ) : (randomWord r).length ≤ 15 := by
  have hall : ∀ i < numWords, (wordList.getD i []).length ≤ 15 := by decide
  exact hall _ (Nat.mod_lt r (by decide))

theorem randomWord_mem (r : ℕ) : randomWord r ∈ wordList := by
  have hall : ∀ i < numWords, wordList.getD i [] ∈ wordList := by decide
  exact hall _ (Nat.mod_lt r (by decide))

/-- The words that are chosen from the call number `i` of `rand` on. -/
def chosen (rand : ℕ → ℕ) (i left : ℕ) : List (List UInt8) :=
  (List.range' i left).map fun j => randomWord (rand j) ++ literal " "

theorem length_chosen_le (rand : ℕ → ℕ) (i left : ℕ) :
    (chosen rand i left).flatten.length ≤ 16 * left := by
  induction left generalizing i with
  | zero => exact Nat.le_refl 0
  | succ left ih =>
      have hword := length_randomWord_le (rand i)
      have hrest := ih (i + 1)
      have hspace : (literal " ").length = 1 := by decide
      simp only [chosen, List.range'_succ, List.map_cons, List.flatten_cons, List.length_append]
        at hrest ⊢
      omega

theorem length_heading_le {pid time : ℕ} (hpid : pid < 2 ^ 31) (htime : time < 2 ^ 63) :
    (heading pid time).length ≤ 39 := by
  have hp := length_decimal_le (hpid.trans (by decide : 2 ^ 31 < 10 ^ 10)) (by decide)
  have ht := length_decimal_le (htime.trans (by decide : 2 ^ 63 < 10 ^ 19)) (by decide)
  have h₁ : (literal "[PID ").length = 5 := by decide
  have h₂ : (literal "] [").length = 3 := by decide
  have h₃ : (literal "] ").length = 2 := by decide
  simp only [heading, List.length_append]
  omega

/-! ## The buffer -/

theorem sizeSub_eq {a b : ℕ} (hb : b ≤ a) (ha : a < 2 ^ 64) : sizeSub a b = a - b := by
  rw [sizeSub]
  omega

theorem store_append {front bytes back : List UInt8} (hroom : bytes.length ≤ back.length) :
    store (front ++ back) front.length bytes =
      .ok (front ++ bytes ++ back.drop bytes.length) := by
  have hlen : front.length + bytes.length ≤ (front ++ back).length := by
    rw [List.length_append]
    omega
  rw [store, if_pos hlen, List.take_left, ← List.drop_drop, List.drop_left]

/-- The buffer begins with a text. -/
structure Begins (maxSize : ℕ) (text buffer : List UInt8) : Prop where
  length_eq : buffer.length = maxSize
  text : text <+: buffer

/-- A text with enough room behind it is extended by a print. -/
theorem printAt_spec {maxSize : ℕ} {text buffer : List UInt8} (h : Begins maxSize text buffer)
    (hsize : maxSize < 2 ^ 64) (more : List UInt8) (hroom : text.length + more.length < maxSize) :
    ∃ buffer', printAt maxSize buffer text.length more = .ok (buffer', (text ++ more).length) ∧
      Begins maxSize (text ++ more) buffer' := by
  obtain ⟨hlen, back, rfl⟩ := h
  rw [List.length_append] at hlen
  have hleft : sizeSub maxSize text.length = back.length := by
    rw [sizeSub_eq (by omega) hsize]
    omega
  have hprinted : snprintf back.length more = (more ++ [0], more.length) := by
    rw [snprintf, if_neg (by omega), List.take_of_length_le (by omega)]
  refine ⟨text ++ (more ++ [0]) ++ back.drop (more ++ [0]).length, ?_, ?_, ?_⟩
  · have hlength : (text ++ more).length = text.length + more.length := List.length_append
    rw [hlength, printAt, hleft, hprinted, store_append (by simp; omega)]
    rfl
  · simp only [List.length_append, List.length_drop, List.length_singleton]
    omega
  · rw [← List.append_assoc, List.append_assoc _ [0]]
    exact List.prefix_append _ _

theorem addWords_spec {maxSize : ℕ} (hsize : maxSize < 2 ^ 64) (rand : ℕ → ℕ) {text : List UInt8}
    (left i : ℕ) {buffer : List UInt8} (h : Begins maxSize text buffer)
    (hroom : text.length + 16 * left < maxSize) :
    ∃ buffer', addWords maxSize rand left i buffer text.length =
        .ok (buffer', (text ++ (chosen rand i left).flatten).length) ∧
      Begins maxSize (text ++ (chosen rand i left).flatten) buffer' := by
  induction left generalizing text i buffer with
  | zero => exact ⟨buffer, by simp [addWords, chosen], by simpa [chosen] using h⟩
  | succ left ih =>
      have hword : (randomWord (rand i) ++ literal " ").length ≤ 16 := by
        have hlen := length_randomWord_le (rand i)
        have hspace : (literal " ").length = 1 := by decide
        rw [List.length_append]
        omega
      have hmore : text.length < sizeSub maxSize 1 := by
        rw [sizeSub_eq (by omega) hsize]
        omega
      obtain ⟨buffer₁, hprint, hbegins⟩ := printAt_spec h hsize
        (randomWord (rand i) ++ literal " ") (by omega)
      have hnext : (text ++ (randomWord (rand i) ++ literal " ")).length + 16 * left < maxSize := by
        rw [List.length_append]
        omega
      obtain ⟨buffer₂, hrest, hend⟩ := ih (i + 1) hbegins hnext
      have hchosen : text ++ (chosen rand i (left + 1)).flatten =
          text ++ (randomWord (rand i) ++ literal " ") ++ (chosen rand (i + 1) left).flatten := by
        simp [chosen, List.range'_succ]
      refine ⟨buffer₂, ?_, hchosen ▸ hend⟩
      rw [hchosen, addWords, if_pos hmore, hprint, ← hrest]
      rfl

/-! ## The message -/

/-- The whole message. -/
def messageText (pid time : ℕ) (rand : ℕ → ℕ) : List UInt8 :=
  heading pid time ++ (chosen rand 1 (3 + rand 0 % 8)).flatten

theorem length_messageText_lt {pid time : ℕ} (hpid : pid < 2 ^ 31) (htime : time < 2 ^ 63)
    (rand : ℕ → ℕ) : (messageText pid time rand).length < 200 := by
  have hheading := length_heading_le hpid htime
  have hwords := length_chosen_le rand 1 (3 + rand 0 % 8)
  rw [messageText, List.length_append]
  omega

theorem visible_of_all (text : List UInt8) (h : (text.all fun c => c ≠ 0 ∧ c ≠ 10) = true) :
    ∀ c ∈ text, c ≠ 0 ∧ c ≠ 10 :=
  fun c hc => of_decide_eq_true (List.all_eq_true.mp h c hc)

/-- A byte of a message is neither its end nor the end of its line. -/
theorem messageText_visible (pid time : ℕ) (rand : ℕ → ℕ) :
    ∀ c ∈ messageText pid time rand, c ≠ 0 ∧ c ≠ 10 := by
  have hdecimal := forall_mem_decimal (p := fun c => c ≠ 0 ∧ c ≠ 10) (by decide +kernel)
  have hwords : ∀ word ∈ wordList, (word.all fun c => c ≠ 0 ∧ c ≠ 10) = true :=
    List.all_eq_true.mp (by decide +kernel)
  intro c hc
  cases List.mem_append.mp hc with
  | inl hheading =>
      simp only [heading, List.mem_append] at hheading
      rcases hheading with (((hc | hc) | hc) | hc) | hc
      · exact visible_of_all (literal "[PID ") (by decide) c hc
      · exact hdecimal pid c hc
      · exact visible_of_all (literal "] [") (by decide) c hc
      · exact hdecimal time c hc
      · exact visible_of_all (literal "] ") (by decide) c hc
  | inr hchosen =>
      obtain ⟨word, hword, hc⟩ := List.mem_flatten.mp hchosen
      obtain ⟨i, -, rfl⟩ := List.mem_map.mp hword
      cases List.mem_append.mp hc with
      | inl hc => exact visible_of_all _ (hwords _ (randomWord_mem _)) c hc
      | inr hc => exact visible_of_all (literal " ") (by decide) c hc

theorem ok_bind {α β : Type} (a : α) (next : α → Except Fault β) :
    (Except.ok a >>= next) = next a :=
  rfl

theorem generateRandomMessage_eq_bind (pid time : ℕ) (rand : ℕ → ℕ) (buffer : List UInt8)
    (maxSize : ℕ) : generateRandomMessage pid time rand buffer maxSize = (do
      let b ← printAt maxSize buffer 0 (heading pid time)
      let b ← addWords maxSize rand (3 + rand 0 % 8) 1 b.1 b.2
      store b.1 b.2 [0]) := rfl

theorem generateRandomMessage_eq {pid time maxSize : ℕ} (hpid : pid < 2 ^ 31)
    (htime : time < 2 ^ 63) (rand : ℕ → ℕ) (hsize : 200 ≤ maxSize) (hmax : maxSize < 2 ^ 64)
    {buffer : List UInt8} (hlen : buffer.length = maxSize) :
    ∃ rest, (messageText pid time rand).length + 1 + rest.length = maxSize ∧
      generateRandomMessage pid time rand buffer maxSize =
        .ok (messageText pid time rand ++ 0 :: rest) := by
  have hheading := length_heading_le hpid htime
  have htext := length_messageText_lt hpid htime rand
  obtain ⟨buffer₁, hfirst, hbegins⟩ := printAt_spec ⟨hlen, List.nil_prefix⟩ hmax
    (heading pid time) (by rw [List.length_nil]; omega)
  rw [List.nil_append] at hfirst hbegins
  obtain ⟨buffer₂, hwords, hlen₂, back, rfl⟩ := addWords_spec hmax rand
    (3 + rand 0 % 8) 1 hbegins (by omega)
  rw [List.length_append, ← messageText] at hlen₂
  have hroom : [0].length ≤ back.length := by
    rw [List.length_singleton]
    omega
  refine ⟨back.drop 1, by rw [List.length_drop]; omega, ?_⟩
  rw [← messageText] at hwords
  have hrun : generateRandomMessage pid time rand buffer maxSize =
      store (messageText pid time rand ++ back) (messageText pid time rand).length [0] := by
    rw [List.length_nil] at hfirst
    rw [generateRandomMessage_eq_bind, hfirst, ok_bind, hwords, ok_bind]
  rw [hrun, store_append hroom]
  simp

end SystemsExperiments.Forks
