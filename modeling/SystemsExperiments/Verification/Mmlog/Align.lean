import SystemsExperiments.Model.Mmlog.Basic
import Mathlib.Data.Nat.Basic
import Mathlib.Tactic.SplitIfs

/-! # What the alignment macro computes

The macro works for every accepted chunk size, power of two or not, as long as the
aligned sum stays below 32 bits. Past that point it always loses: the result is below the
old size or below the end it was to cover. -/

namespace SystemsExperiments.Mmlog

/-! ## Accepted arguments -/

theorem openArgsError_eq_none {size count : ℕ} (h : openArgsError size count = none) :
    2 ≤ count ∧ u32 size ≠ 0 ∧ u32 size % logPageSize = 0 := by
  unfold openArgsError at h
  split_ifs at h with h1 h2
  exact ⟨by omega, by omega, by omega⟩

theorem Config.two_le_chunkCount (cfg : Config) (h : ℕ) : 2 ≤ cfg.chunkCount h :=
  (openArgsError_eq_none (cfg.accepted h)).1

theorem Config.chunkSize_pos (cfg : Config) : 0 < cfg.chunkSize :=
  Nat.pos_of_ne_zero (openArgsError_eq_none (cfg.accepted 0)).2.1

theorem Config.chunkSize_lt (cfg : Config) : cfg.chunkSize < 2 ^ 32 :=
  Nat.mod_lt _ (by decide)

/-! ## The macro -/

/-- The bits of a word inside a mask and those outside it add up to the word. -/
theorem land_add_land_not {y m : ℕ} (hy : y < 2 ^ 32) (hm : m < 2 ^ 32) :
    (y &&& m) + (y &&& (2 ^ 32 - 1 - m)) = y := by
  let x := BitVec.ofNat 32 y
  let k := BitVec.ofNat 32 m
  have hx : x.toNat = y := Nat.mod_eq_of_lt hy
  have hk : k.toNat = m := Nat.mod_eq_of_lt hm
  have hdisj : (x &&& k) &&& (x &&& ~~~k) = 0#32 := by
    ext i
    simp only [BitVec.getElem_and, BitVec.getElem_not]
    cases x[i] <;> cases k[i] <;> simp
  have hsplit : (x &&& k) + (x &&& ~~~k) = x := by
    rw [BitVec.add_eq_or_of_and_eq_zero _ _ hdisj]
    ext i
    simp only [BitVec.getElem_or, BitVec.getElem_and, BitVec.getElem_not]
    cases x[i] <;> cases k[i] <;> rfl
  have hsum := BitVec.toNat_add_of_and_eq_zero hdisj
  rw [hsplit, BitVec.toNat_and, BitVec.toNat_and, BitVec.toNat_not, hx, hk] at hsum
  exact hsum.symm

/-- The macro as arithmetic: the mask is the two's complement of the chunk size at 32
bits, with nothing above them. -/
theorem alignedSize_eq {e cs : ℕ} (he : e + cs < 2 ^ 64) (hpos : 0 < cs) (hcs : cs < 2 ^ 32) :
    alignedSize e cs = (e + cs - 1) &&& (2 ^ 32 - cs) := by
  have hsum : (UInt64.ofNat e + (UInt32.ofNat cs).toUInt64 - 1).toNat = e + cs - 1 := by
    simp [UInt64.toNat_sub, UInt64.toNat_add]
    omega
  have hmask : ((~~~(UInt32.ofNat cs - 1)).toUInt64).toNat = 2 ^ 32 - cs := by
    rw [UInt32.toNat_toUInt64, UInt32.toNat_not, UInt32.toNat_sub]
    simp [UInt32.size]
    omega
  rw [alignedSize, ALIGN, UInt64.toNat_and, hsum, hmask]

/-- Below 32 bits the aligned size covers the end it was computed for. -/
theorem le_alignedSize {e cs : ℕ} (hpos : 0 < cs) (h : e + cs ≤ 2 ^ 32) (he : 0 < e) :
    e ≤ alignedSize e cs := by
  rw [alignedSize_eq (by omega) hpos (by omega)]
  have hland := land_add_land_not (y := e + cs - 1) (m := cs - 1) (by omega) (by omega)
  have hle : (e + cs - 1) &&& (cs - 1) ≤ cs - 1 := Nat.and_le_right
  have hmask : 2 ^ 32 - 1 - (cs - 1) = 2 ^ 32 - cs := by omega
  rw [hmask] at hland
  omega

/-! ## Multiples of the chunk size -/

/-- Rounding ends on a multiple of the chunk size exactly when the mask keeps the
remainder. -/
theorem alignedSize_mod_iff {e cs : ℕ} (hpos : 0 < cs) (h : e + cs ≤ 2 ^ 32) (he : 0 < e) :
    alignedSize e cs % cs = 0 ↔ (e + cs - 1) &&& (cs - 1) = (e + cs - 1) % cs := by
  have hland := land_add_land_not (y := e + cs - 1) (m := cs - 1) (by omega) (by omega)
  have hmask : 2 ^ 32 - 1 - (cs - 1) = 2 ^ 32 - cs := by omega
  rw [hmask] at hland
  have hlt : (e + cs - 1) &&& (cs - 1) < cs :=
    Nat.lt_of_le_of_lt Nat.and_le_right (by omega)
  rw [alignedSize_eq (by omega) hpos (by omega)]
  generalize (e + cs - 1) &&& (cs - 1) = low at hland hlt ⊢
  generalize (e + cs - 1) &&& (2 ^ 32 - cs) = high at hland ⊢
  rw [← hland]
  constructor
  · intro hmul
    rw [Nat.add_mod, hmul, Nat.add_zero, Nat.mod_mod, Nat.mod_eq_of_lt hlt]
  · intro hlow
    have hmod : (low + high) % cs = low % cs := by rw [← hlow, Nat.mod_eq_of_lt hlt]
    have hsub := Nat.sub_mod_eq_zero_of_mod_eq hmod
    rwa [Nat.add_sub_cancel_left] at hsub

theorem alignedSize_mod_of_pow {e cs : ℕ} (hpow : cs.isPowerOfTwo) (h : e + cs ≤ 2 ^ 32)
    (he : 0 < e) : alignedSize e cs % cs = 0 := by
  obtain ⟨k, rfl⟩ := hpow
  rw [alignedSize_mod_iff (Nat.two_pow_pos k) h he]
  exact Nat.and_two_pow_sub_one_eq_mod _ k

/-- A bit above another set bit is not borrowed from by the predecessor. -/
theorem testBit_pred {x i : ℕ} (h : x.testBit i = true) :
    (x - 1).testBit (i + 1) = x.testBit (i + 1) := by
  have hlow : 0 < x % 2 ^ (i + 1) := by
    rw [Nat.pos_iff_ne_zero]
    intro hzero
    have hbit := Nat.testBit_mod_two_pow x (i + 1) i
    rw [hzero, Nat.zero_testBit, h] at hbit
    simp at hbit
  have hdiv : (x - 1) / 2 ^ (i + 1) = x / 2 ^ (i + 1) := by
    have hpow := Nat.two_pow_pos (i + 1)
    have hlt := Nat.mod_lt x hpow
    have hsplit := Nat.div_add_mod x (2 ^ (i + 1))
    rw [Nat.mul_comm] at hsplit
    apply Nat.div_eq_of_lt_le
    · omega
    · rw [Nat.add_mul, Nat.one_mul]
      omega
  rw [Nat.testBit_eq_decide_div_mod_eq, Nat.testBit_eq_decide_div_mod_eq, hdiv]

theorem two_mul_land_self {x : ℕ} (h : 2 * x &&& (x - 1) = 0) : 2 * x &&& x = 0 := by
  apply Nat.eq_of_testBit_eq
  intro i
  have hi : (2 * x &&& (x - 1)).testBit i = false := by rw [h, Nat.zero_testBit]
  rw [Nat.zero_testBit, Nat.testBit_and]
  rw [Nat.testBit_and] at hi
  cases i with
  | zero => simp
  | succ i =>
      have hdouble : (2 * x).testBit (i + 1) = x.testBit i := by
        rw [Nat.testBit_succ, Nat.mul_div_cancel_left x (by decide)]
      rw [hdouble] at hi ⊢
      cases hbit : x.testBit i with
      | false => rfl
      | true =>
          rw [hbit, testBit_pred hbit] at hi
          exact hi

/-- Words without a common bit add up without a carry. -/
theorem add_eq_lor {a b : ℕ} (ha : a < 2 ^ 32) (hb : b < 2 ^ 32) (h : a &&& b = 0) :
    a + b = a ||| b ∧ a + b < 2 ^ 32 := by
  let x := BitVec.ofNat 32 a
  let y := BitVec.ofNat 32 b
  have hx : x.toNat = a := Nat.mod_eq_of_lt ha
  have hy : y.toNat = b := Nat.mod_eq_of_lt hb
  have hdisj : x &&& y = 0#32 := by
    apply BitVec.eq_of_toNat_eq
    rw [BitVec.toNat_and, hx, hy, h]
    rfl
  have hsum := BitVec.toNat_add_of_and_eq_zero hdisj
  rw [hx, hy] at hsum
  refine ⟨?_, ?_⟩
  · rw [← hsum, BitVec.add_eq_or_of_and_eq_zero _ _ hdisj, BitVec.toNat_or, hx, hy]
  · rw [← hsum]
    exact (x + y).isLt

/-- A number that shares no bit with its double, and whose triple shares none with its
predecessor, has a single bit. -/
theorem isPowerOfTwo_of_land {x : ℕ} (hpos : 0 < x) (hx : x < 2 ^ 31)
    (h2 : 2 * x &&& (x - 1) = 0) (h3 : 3 * x &&& (x - 1) = 0) : x.isPowerOfTwo := by
  have hor : 2 * x + x = 2 * x ||| x :=
    (add_eq_lor (by omega) (by omega) (two_mul_land_self h2)).1
  have hthree : 3 * x = 2 * x + x := by omega
  rw [hthree, hor, Nat.and_or_distrib_right, h2, Nat.zero_or] at h3
  exact (Nat.and_sub_one_eq_zero_iff_isPowerOfTwo (by omega)).mp h3

/-- For every other chunk size some end below 32 bits is rounded to no multiple of it: the
first byte of the second chunk, or else the first of the third. -/
theorem exists_alignedSize_mod_ne {cs : ℕ} (hpos : 0 < cs) (hpage : cs % logPageSize = 0)
    (hcs : cs < 2 ^ 31) (hpow : ¬ cs.isPowerOfTwo) :
    ∃ e, cs < e ∧ e + cs < 2 ^ 32 ∧ alignedSize e cs % cs ≠ 0 := by
  have hround : ∀ k, (k + 1) * cs + 1 + cs ≤ 2 ^ 32 →
      alignedSize ((k + 1) * cs + 1) cs % cs = 0 → (k + 2) * cs &&& (cs - 1) = 0 := by
    intro k hk hmod
    have hsum : (k + 1) * cs + 1 + cs - 1 = (k + 2) * cs := by
      rw [Nat.add_mul k 2, Nat.add_mul k 1]
      omega
    rwa [alignedSize_mod_iff hpos hk (by omega), hsum, Nat.mul_mod_left] at hmod
  by_cases hfirst : 2 * cs &&& (cs - 1) = 0
  · -- no carry in `2 * cs + (cs - 1)`, so the end of the second chunk leaves room
    have hroom := (add_eq_lor (by omega) (by omega) hfirst).2
    have hpage : cs % 4096 = 0 := hpage
    refine ⟨2 * cs + 1, by omega, by omega, fun hmod => hpow ?_⟩
    exact isPowerOfTwo_of_land hpos hcs hfirst (hround 1 (by omega) hmod)
  · refine ⟨cs + 1, by omega, by omega, fun hmod => hfirst ?_⟩
    have hlow := hround 0 (by omega) (by rwa [Nat.zero_add, Nat.one_mul])
    rwa [Nat.zero_add] at hlow

end SystemsExperiments.Mmlog
