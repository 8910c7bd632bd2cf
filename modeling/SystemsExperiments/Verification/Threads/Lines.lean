import SystemsExperiments.Shared.Printing
import SystemsExperiments.Shared.Scanning
import SystemsExperiments.Verification.Threads.ValidateLog

/-! # The lines of a log of printed messages -/

namespace SystemsExperiments.Threads

open Printing Scanning

/-! ## Lines -/

/-- A line as it is in a file: it ends with the only newline in it. -/
def IsLine (line : List UInt8) : Prop := ∃ text, line = text ++ [newline] ∧ newline ∉ text

theorem fileLines_append {text : List UInt8} (h : newline ∉ text) (rest : List UInt8) :
    fileLines (text ++ newline :: rest) = (text ++ [newline]) :: fileLines rest := by
  induction text with
  | nil => simp [fileLines]
  | cons c text ih =>
      have hc : c ≠ newline := fun heq => h (heq ▸ List.mem_cons_self)
      have htext : newline ∉ text := fun hmem => h (List.mem_cons_of_mem _ hmem)
      rw [List.cons_append, fileLines, if_neg hc, ih htext]
      rfl

/-- Lines written one after the other are the lines of the file. -/
theorem fileLines_flatten {lines : List (List UInt8)} (h : ∀ line ∈ lines, IsLine line) :
    fileLines lines.flatten = lines := by
  induction lines with
  | nil => rfl
  | cons line lines ih =>
      obtain ⟨text, rfl, htext⟩ := h line List.mem_cons_self
      rw [List.flatten_cons, List.append_assoc, List.singleton_append, fileLines_append htext,
        ih fun line hmem => h line (List.mem_cons_of_mem _ hmem)]

/-! ## Numbers -/

theorem foldl_digitByte {ds : List ℕ} (hds : ∀ d ∈ ds, d < 10) (acc : ℕ) :
    (ds.map digitByte).foldl (fun n d => 10 * n + (d.toNat - 48)) acc =
      ds.foldl (fun n d => n * 10 + d) acc := by
  induction ds generalizing acc with
  | nil => rfl
  | cons d ds ih =>
      have hvalue : ∀ d < 10, (digitByte d).toNat - 48 = d := by decide
      rw [List.map_cons, List.foldl_cons, List.foldl_cons, hvalue d (hds d List.mem_cons_self),
        Nat.mul_comm 10 acc]
      exact ih (fun e he => hds e (List.mem_cons_of_mem _ he)) _

/-- A number that was printed is read back, up to the first character that is no digit. -/
theorem scanNumber_decimal (n : ℕ) {c : UInt8} (hc : isDigit c = false) (rest : List UInt8) :
    scanNumber (decimal n ++ c :: rest) = some ((n : ℤ), c :: rest) := by
  obtain ⟨ds, hne, hds, hvalue, heq⟩ := decimal_eq n
  have hdigit : ∀ d ∈ ds.map digitByte, isDigit d = true := by
    intro b hb
    obtain ⟨d, hd, rfl⟩ := List.mem_map.mp hb
    have hall : ∀ d < 10, isDigit (digitByte d) = true := by decide
    exact hall d (hds d hd)
  have htake : (ds.map digitByte ++ c :: rest).takeWhile isDigit = ds.map digitByte := by
    rw [takeWhile_append_cons hc, List.takeWhile_eq_self_iff.mpr hdigit]
  have hdrop : (ds.map digitByte ++ c :: rest).dropWhile isDigit = c :: rest := by
    rw [dropWhile_append_cons hc, List.dropWhile_eq_nil_iff.mpr hdigit, List.nil_append]
  cases ds with
  | nil => exact absurd rfl hne
  | cons d ds =>
      have hplain : ∀ d < 10, isSpace (digitByte d) = false ∧ digitByte d ≠ 45 ∧
          digitByte d ≠ 43 := by decide
      obtain ⟨hspace, hminus, hplus⟩ := hplain d (hds d List.mem_cons_self)
      rw [heq] at *
      have hsigned : scanSign (((d :: ds).map digitByte ++ c :: rest).dropWhile isSpace) =
          (1, (d :: ds).map digitByte ++ c :: rest) := by
        simp [hspace, scanSign, hminus, hplus]
      rw [scanNumber, hsigned]
      dsimp only
      rw [htake, hdrop, if_neg (by simp), foldl_digitByte hds, hvalue, one_mul]

end SystemsExperiments.Threads
