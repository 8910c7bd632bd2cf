import SystemsExperiments.Shared.Text
import Mathlib.Data.Nat.Digits.Lemmas

/-! # Numbers and texts as the C library prints them -/

namespace SystemsExperiments.Printing

/-- The bytes of a string literal, without its NUL. -/
def literal (text : String) : List UInt8 := text.toList.map fun c => UInt8.ofNat c.toNat

/-- What `%d`, `%u` and `%ld` print for a number that is not negative. -/
def decimal (n : ℕ) : List UInt8 :=
  (Text.padded 10 1 n).map fun c => UInt8.ofNat c.toNat

/-- What `snprintf` leaves in a buffer of `size` bytes, its NUL included, and what it
returns. -/
def snprintf (size : ℕ) (text : List UInt8) : List UInt8 × ℕ :=
  (if size = 0 then [] else text.take (size - 1) ++ [0], text.length)

def digitByte (d : ℕ) : UInt8 := UInt8.ofNat (48 + d)

/-- A digit in a base up to sixteen; `%X` has capital letters. -/
def hexByte (d : ℕ) : UInt8 := UInt8.ofNat (if d < 10 then 48 + d else 55 + d)

/-- The digits of a number behind zeros that make them at least `width`. -/
def paddedDigits (base width n : ℕ) : List ℕ :=
  List.replicate (width - (Nat.digits base n).length) 0 ++ (Nat.digits base n).reverse

/-- What `%0wX` prints. -/
def hexadecimal (width n : ℕ) : List UInt8 := (paddedDigits 16 width n).map hexByte

/-- A text behind blanks that make it at least `width` long. -/
def aligned (width : ℕ) (text : List UInt8) : List UInt8 :=
  List.replicate (width - text.length) 32 ++ text

/-! ## Digits of a number -/

/-- The `w` low digits of a number, most significant first. -/
def lowDigits (base : ℕ) : ℕ → ℕ → List ℕ
  | 0, _ => []
  | w + 1, n => lowDigits base w (n / base) ++ [n % base]

@[simp] theorem length_lowDigits (base w n : ℕ) : (lowDigits base w n).length = w := by
  induction w generalizing n with
  | zero => rfl
  | succ w ih => rw [lowDigits, List.length_append, ih, List.length_singleton]

theorem lowDigits_add (base v w n : ℕ) :
    lowDigits base (v + w) n = lowDigits base v (n / base ^ w) ++ lowDigits base w n := by
  induction w generalizing n with
  | zero => simp [lowDigits]
  | succ w ih =>
      rw [← Nat.add_assoc, lowDigits, ih, lowDigits, List.append_assoc, Nat.div_div_eq_div_mul,
        Nat.pow_succ']

theorem foldl_lowDigits (base w n : ℕ) :
    (lowDigits base w n).foldl (fun n d => n * base + d) 0 = n % base ^ w := by
  induction w generalizing n with
  | zero => simp [lowDigits, Nat.mod_one]
  | succ w ih =>
      rw [lowDigits, List.foldl_append, ih, List.foldl_cons, List.foldl_nil, Nat.pow_succ',
        Nat.mod_mul, Nat.mul_comm, Nat.add_comm]

theorem lowDigits_lt {base : ℕ} (hbase : 0 < base) (w n : ℕ) :
    ∀ d ∈ lowDigits base w n, d < base := by
  induction w generalizing n with
  | zero => simp [lowDigits]
  | succ w ih =>
      intro d hd
      rw [lowDigits, List.mem_append, List.mem_singleton] at hd
      cases hd with
      | inl hd => exact ih _ d hd
      | inr hd => exact hd ▸ Nat.mod_lt n hbase

/-- A number that is not too long has exactly the digits it is padded to. -/
theorem paddedDigits_eq {base w n : ℕ} (hbase : 1 < base) (hn : n < base ^ w) :
    paddedDigits base w n = lowDigits base w n := by
  induction w generalizing n with
  | zero =>
      have hzero : n = 0 := by simpa using hn
      simp [paddedDigits, lowDigits, hzero]
  | succ w ih =>
      have hdiv : n / base < base ^ w := Nat.div_lt_of_lt_mul (by rwa [Nat.pow_succ'] at hn)
      rw [lowDigits, ← ih hdiv, paddedDigits, paddedDigits]
      cases Nat.eq_zero_or_pos n with
      | inl hzero => simp [hzero, List.replicate_succ']
      | inr hpos =>
          rw [Nat.digits_def' hbase hpos, List.length_cons, List.reverse_cons,
            Nat.add_sub_add_right, List.append_assoc]

theorem paddedDigits_lt {base : ℕ} (hbase : 1 < base) (width n : ℕ) :
    ∀ d ∈ paddedDigits base width n, d < base := by
  intro d hd
  rcases List.mem_append.mp hd with hzero | hdigit
  · rw [List.eq_of_mem_replicate hzero]
    omega
  · exact Nat.digits_lt_base hbase (List.mem_reverse.mp hdigit)

theorem decimal_eq_map (n : ℕ) : decimal n = (paddedDigits 10 1 n).map digitByte := by
  rw [decimal, Text.padded, Text.numeral_eq_map, List.map_map]
  apply List.map_congr_left
  intro d hd
  have hall : ∀ d < 10, UInt8.ofNat (Nat.digitChar d).toNat = digitByte d := by decide
  exact hall d (paddedDigits_lt (by decide) 1 n d hd)

/-- A number is printed as its digits. -/
theorem decimal_eq (n : ℕ) : ∃ ds : List ℕ, ds ≠ [] ∧ (∀ d ∈ ds, d < 10) ∧
    ds.foldl (fun n d => n * 10 + d) 0 = n ∧ decimal n = ds.map digitByte := by
  refine ⟨paddedDigits 10 1 n, ?_, paddedDigits_lt (by decide) 1 n,
    Text.foldl_digits 10 (1 - (Nat.digits 10 n).length) n, decimal_eq_map n⟩
  intro hnil
  apply Text.padded_ne_nil Nat.one_pos 10 n
  rw [Text.padded, Text.numeral_eq_map]
  exact congrArg (List.map Nat.digitChar) hnil

theorem length_decimal_le {n k : ℕ} (hn : n < 10 ^ k) (hk : 0 < k) :
    (decimal n).length ≤ k := by
  have hlen : (Nat.digits 10 n).length ≤ k := (Nat.digits_length_le_iff (by decide) n).mpr hn
  simp only [decimal, Text.padded, Text.numeral, List.length_map, List.length_append,
    List.length_replicate, List.length_reverse]
  omega

/-- What holds of all digits holds of every byte of a printed number. -/
theorem forall_mem_decimal {p : UInt8 → Prop} (h : ∀ d < 10, p (digitByte d)) (n : ℕ) :
    ∀ c ∈ decimal n, p c := by
  obtain ⟨ds, -, hds, -, heq⟩ := decimal_eq n
  rw [heq]
  intro c hc
  obtain ⟨d, hd, rfl⟩ := List.mem_map.mp hc
  exact h d (hds d hd)

end SystemsExperiments.Printing
