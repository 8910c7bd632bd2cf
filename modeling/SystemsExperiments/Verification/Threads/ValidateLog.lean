import SystemsExperiments.Model.Threads.ValidateLog
import Mathlib.Data.List.Nodup
import Mathlib.Data.List.Range
import Mathlib.Data.List.Perm.Subperm

/-! # What the validator lets pass

The validator counts all lines but checks only the sequence numbers up to the largest one in
range. It is sound unless lines without such a number stand for the largest numbers. -/

namespace SystemsExperiments.Threads

/-! ## Lines -/

/-- The lines of a file, each with its newline. -/
def fileLines : List UInt8 → List (List UInt8)
  | [] => []
  | c :: s =>
      if c = newline then [c] :: fileLines s
      else (c :: (fileLines s).headD []) :: (fileLines s).tail

theorem fileLines_ne_nil (c : UInt8) (s : List UInt8) : fileLines (c :: s) ≠ [] := by
  rw [fileLines]
  split
  · exact List.cons_ne_nil _ _
  · exact List.cons_ne_nil _ _

theorem takeLine_nil (n : ℕ) : takeLine n [] = ([], []) := by
  cases n with
  | zero => rfl
  | succ n => rfl

/-- A first line that fits is read to its end. -/
theorem takeLine_eq {n : ℕ} {s line : List UInt8} {rest : List (List UInt8)}
    (h : fileLines s = line :: rest) (hn : line.length ≤ n) :
    (takeLine n s).1 = line ∧ fileLines (takeLine n s).2 = rest := by
  induction s generalizing n line rest with
  | nil => cases h
  | cons c s ih =>
      rw [fileLines] at h
      cases n with
      | zero =>
          have hnil : line = [] := List.eq_nil_of_length_eq_zero (Nat.le_zero.mp hn)
          subst hnil
          split at h
          · cases h
          · cases h
      | succ n =>
          rw [takeLine]
          by_cases hc : c = newline
          · rw [if_pos hc] at h ⊢
            cases h
            exact ⟨rfl, rfl⟩
          · rw [if_neg hc] at h ⊢
            cases h
            cases hs : fileLines s with
            | nil =>
                cases s with
                | nil => simp [takeLine_nil, fileLines]
                | cons d s => exact absurd hs (fileLines_ne_nil d s)
            | cons line rest =>
                rw [hs, List.headD_cons, List.length_cons] at hn
                have hline := ih hs (Nat.le_of_succ_le_succ hn)
                exact ⟨congrArg (c :: ·) hline.1, hline.2⟩

/-- Where the lines fit the buffer, each call reads one. -/
theorem fgetsAll_eq (s : List UInt8) (h : ∀ line ∈ fileLines s, line.length < maxMessageSize) :
    fgetsAll s = fileLines s := by
  fun_induction fgetsAll s with
  | case1 => rfl
  | case2 c s ih =>
      cases hs : fileLines (c :: s) with
      | nil => exact absurd hs (fileLines_ne_nil c s)
      | cons line rest =>
          have hfits : line.length ≤ maxMessageSize - 1 :=
            Nat.le_sub_one_of_lt (h line (by rw [hs]; exact List.mem_cons_self))
          have hline := takeLine_eq hs hfits
          have hrest : ∀ line ∈ fileLines (takeLine (maxMessageSize - 1) (c :: s)).2,
              line.length < maxMessageSize := by
            intro line hmem
            rw [hline.2] at hmem
            exact h line (by rw [hs]; exact List.mem_cons_of_mem _ hmem)
          rw [ih hrest, hline.1, hline.2]

/-! ## Gapless lists -/

/-- Distinct numbers with all smaller ones are the first so many. -/
theorem perm_range_iff (ks : List ℕ) :
    ks.Perm (List.range ks.length) ↔
      ks.Nodup ∧ ∀ i, (∃ k ∈ ks, i ≤ k) → i ∈ ks := by
  constructor
  · intro h
    refine ⟨h.nodup_iff.mpr List.nodup_range, ?_⟩
    intro i hi
    obtain ⟨k, hk, hik⟩ := hi
    rw [h.mem_iff, List.mem_range] at hk ⊢
    exact Nat.lt_of_le_of_lt hik hk
  · intro h
    have hlt : ∀ k ∈ ks, k < ks.length := by
      intro k hk
      have hsub : List.range (k + 1) ⊆ ks := by
        intro i hi
        exact h.2 i ⟨k, hk, Nat.le_of_lt_succ (List.mem_range.mp hi)⟩
      have hlen := (List.subperm_of_subset List.nodup_range hsub).length_le
      rwa [List.length_range] at hlen
    have hsub : ks ⊆ List.range ks.length := by
      intro k hk
      exact List.mem_range.mpr (hlt k hk)
    exact (List.subperm_of_subset h.1 hsub).perm_of_length_le (by rw [List.length_range])

/-! ## The numbers of the lines -/

/-- The sequence number in a line, as it is written. -/
def writtenSequence (line : List UInt8) : Option ℤ :=
  (scanPair line).map Prod.snd

section Run

variable (store : ℤ → ℤ) (expected : ℤ)

/-- The sequence number that a line leaves in `seen_sequences`. -/
def storedSequence (line : List UInt8) : Option ℕ :=
  (sscanf store line).bind fun pair =>
    if 0 ≤ pair.2 ∧ pair.2 < expected then some pair.2.toNat else none

def recorded (lines : List (List UInt8)) : List ℕ :=
  lines.filterMap (storedSequence store expected)

end Run

/-! ## The loop -/

/-- What the state knows of the numbers recorded so far. -/
structure Records (expected : ℤ) (ks : List ℕ) (st : ValidateState) : Prop where
  size : st.seenSequences.length = expected.toNat
  seen : ∀ i, st.seenSequences.getD i false = true ↔ i ∈ ks
  duplicates : st.duplicateSequences = 0 ↔ ks.Nodup
  largest : ∀ i : ℕ, (i : ℤ) ≤ st.maxSequence ↔ ∃ k ∈ ks, i ≤ k

theorem records_startState (expected : ℤ) : Records expected [] (startState expected) where
  size := List.length_replicate
  seen := by
    intro i
    have hfalse : (startState expected).seenSequences.getD i false = false := by
      rw [startState, List.getD_eq_getElem?_getD, List.getElem?_replicate]
      split
      · rfl
      · rfl
    rw [hfalse]
    exact iff_of_false Bool.false_ne_true List.not_mem_nil
  duplicates := by simp [startState]
  largest := by
    intro i
    simp only [startState, List.not_mem_nil, false_and, exists_false, iff_false]
    omega

theorem records_recordSequence {expected n : ℤ} {ks : List ℕ} {st : ValidateState}
    (h : Records expected ks st) (hn : 0 ≤ n ∧ n < expected) :
    Records expected (ks ++ [n.toNat]) (recordSequence expected st n) := by
  rw [recordSequence, if_pos hn]
  have hlt : n.toNat < st.seenSequences.length := by
    rw [h.size]
    omega
  refine ⟨?_, ?_, ?_, ?_⟩
  · rw [List.length_set, h.size]
  · intro i
    have hseen := h.seen i
    rw [List.getD_eq_getElem?_getD] at hseen ⊢
    rw [List.getElem?_set, List.mem_append, List.mem_singleton]
    by_cases hi : n.toNat = i
    · simp [hi, hi ▸ hlt]
    · rw [if_neg hi, hseen]
      exact ⟨Or.inl, fun hmem => hmem.resolve_right fun heq => hi heq.symm⟩
  · have hdup := h.duplicates
    have hseen := h.seen n.toNat
    rw [List.nodup_append]
    by_cases hmem : n.toNat ∈ ks
    · rw [if_pos (hseen.mpr hmem)]
      simp [hmem]
    · rw [if_neg (fun hget => hmem (hseen.mp hget)), hdup]
      constructor
      · intro hnodup
        refine ⟨hnodup, List.pairwise_singleton _ _, ?_⟩
        intro a ha b hb heq
        exact hmem (List.mem_singleton.mp hb ▸ heq ▸ ha)
      · exact And.left
  · intro i
    have hmax := h.largest i
    simp only [List.mem_append, List.mem_singleton, or_and_right, exists_or, exists_eq_left,
      ← hmax]
    split <;> omega

theorem lineCount_recordSequence (expected n : ℤ) (st : ValidateState) :
    (recordSequence expected st n).lineCount = st.lineCount := by
  rw [recordSequence]
  split
  · rfl
  · rfl

/-- A turn of the loop counts the line and records its number. -/
theorem validateLine_spec (store : ℤ → ℤ) {expected : ℤ} {ks : List ℕ} {st : ValidateState}
    (h : Records expected ks st) (line : List UInt8) (hlt : st.lineCount + 1 < 2 ^ 31) :
    ∃ st', validateLine store expected st line = some st' ∧
      st'.lineCount = st.lineCount + 1 ∧
      Records expected (ks ++ (storedSequence store expected line).toList) st' := by
  rw [validateLine, if_pos hlt, storedSequence]
  cases hscan : sscanf store line with
  | none =>
      refine ⟨_, rfl, rfl, ?_⟩
      rw [Option.bind_none, Option.toList_none, List.append_nil]
      exact ⟨h.size, h.seen, h.duplicates, h.largest⟩
  | some pair =>
      -- the thread's counter is no part of what is recorded
      have hcounted : ∀ counts, Records expected ks
          { st with lineCount := st.lineCount + 1, threadMessageCounts := counts } := by
        intro counts
        exact ⟨h.size, h.seen, h.duplicates, h.largest⟩
      refine ⟨_, rfl, ?_, ?_⟩
      · rw [lineCount_recordSequence]
        split
        · rfl
        · rfl
      · rw [Option.bind_some]
        by_cases hn : 0 ≤ pair.2 ∧ pair.2 < expected
        · rw [if_pos hn, Option.toList_some]
          refine records_recordSequence ?_ hn
          split
          · exact hcounted _
          · exact hcounted st.threadMessageCounts
        · rw [if_neg hn, Option.toList_none, List.append_nil, recordSequence, if_neg hn]
          split
          · exact hcounted _
          · exact hcounted st.threadMessageCounts

theorem recorded_cons (store : ℤ → ℤ) (expected : ℤ) (line : List UInt8)
    (lines : List (List UInt8)) :
    recorded store expected (line :: lines) =
      (storedSequence store expected line).toList ++ recorded store expected lines := by
  rw [recorded, recorded, List.filterMap_cons]
  cases storedSequence store expected line with
  | none => rfl
  | some n => rfl

/-- The loop, as long as `line_count` has room for the lines. -/
theorem validateLines_spec (store : ℤ → ℤ) {expected : ℤ} {ks : List ℕ} {st : ValidateState}
    (h : Records expected ks st) (lines : List (List UInt8))
    (hlt : st.lineCount + lines.length < 2 ^ 31) :
    ∃ st', lines.foldlM (validateLine store expected) st = some st' ∧
      st'.lineCount = st.lineCount + lines.length ∧
      Records expected (ks ++ recorded store expected lines) st' := by
  induction lines generalizing ks st with
  | nil => exact ⟨st, rfl, rfl, by rwa [recorded, List.filterMap_nil, List.append_nil]⟩
  | cons line lines ih =>
      rw [List.length_cons] at hlt ⊢
      obtain ⟨st₁, hstep, hcount, hrec⟩ := validateLine_spec store h line (by omega)
      obtain ⟨st', hrun, hcount', hrec'⟩ := ih hrec (by omega)
      refine ⟨st', ?_, by omega, ?_⟩
      · rw [List.foldlM_cons, hstep]
        exact hrun
      · rwa [recorded_cons, ← List.append_assoc]

/-- With more lines the count overflows. -/
theorem validateLines_overflow {store : ℤ → ℤ} {expected : ℤ} {ks : List ℕ}
    {st : ValidateState} (h : Records expected ks st) (lines : List (List UInt8))
    (hst : st.lineCount < 2 ^ 31) (hge : 2 ^ 31 ≤ st.lineCount + lines.length) :
    lines.foldlM (validateLine store expected) st = none := by
  induction lines generalizing ks st with
  | nil => exact absurd hst (Nat.not_lt.mpr hge)
  | cons line lines ih =>
      rw [List.length_cons] at hge
      rw [List.foldlM_cons]
      by_cases hlt : st.lineCount + 1 < 2 ^ 31
      · obtain ⟨st₁, hstep, hcount, hrec⟩ := validateLine_spec store h line hlt
        rw [hstep]
        exact ih hrec (by omega) (by omega)
      · rw [validateLine, if_neg hlt]
        rfl

/-! ## The verdict -/

/-- Nothing is missing below the largest number. -/
theorem missingSequences_eq_zero {expected : ℤ} {ks : List ℕ} {st : ValidateState}
    (h : Records expected ks st) :
    missingSequences st = 0 ↔ ∀ i, (∃ k ∈ ks, i ≤ k) → i ∈ ks := by
  rw [missingSequences, List.countP_eq_zero]
  constructor
  · intro hnone i hi
    have hmax := (h.largest i).mpr hi
    have hseen := hnone i (List.mem_range.mpr (by omega))
    rw [Bool.not_eq_true', Bool.not_eq_false] at hseen
    exact (h.seen i).mp hseen
  · intro hall i hi
    rw [List.mem_range] at hi
    have hmax := (h.largest i).mp (by omega)
    rw [Bool.not_eq_true', Bool.not_eq_false]
    exact (h.seen i).mpr (hall i hmax)

section Verdict

variable {world : World} {expected : ℤ} {content : List UInt8}

/-- The verdict rests on the number of lines and on the numbers recorded alone. -/
theorem validateLog_iff (hfile : world.file = some content) (hexpected : expected < 2 ^ 31)
    (hlines : ∀ line ∈ fileLines content, line.length < maxMessageSize) :
    validateLog world expected = some true ↔
      world.allocates = true ∧ ((fileLines content).length : ℤ) = expected ∧
        (recorded world.store expected (fileLines content)).Perm
          (List.range (recorded world.store expected (fileLines content)).length) := by
  rw [validateLog, hfile]
  dsimp only
  rw [fgetsAll_eq content hlines]
  cases world.allocates with
  | false => simp
  | true =>
      rw [if_pos rfl, perm_range_iff]
      have hstart := records_startState expected
      by_cases hlt : (fileLines content).length < 2 ^ 31
      · obtain ⟨st, hrun, hcount, hrec⟩ := validateLines_spec world.store hstart
          (fileLines content) (by simpa [startState] using hlt)
        rw [List.nil_append] at hrec
        have hcount' : st.lineCount = (fileLines content).length := by
          rw [hcount, startState, Nat.zero_add]
        rw [hrun, ← missingSequences_eq_zero hrec, ← hrec.duplicates, ← hcount']
        simp
      · rw [validateLines_overflow hstart (fileLines content) (Nat.two_pow_pos 31)
          (by simpa [startState] using Nat.le_of_not_lt hlt)]
        simp
        omega

/-! ## Soundness -/

/-- Each sequence number is in exactly one line, and there is no other line. -/
structure Sound (expected : ℤ) (content : List UInt8) : Prop where
  once : ∀ n : ℤ, 0 ≤ n → n < expected →
    (fileLines content).countP (fun line => writtenSequence line = some n) = 1
  only : ∀ line ∈ fileLines content,
    ∃ n : ℤ, writtenSequence line = some n ∧ 0 ≤ n ∧ n < expected

/-- There are as many lines as expected and the numbers in range have no gap, but some line
has no such number. -/
structure Escapes (store : ℤ → ℤ) (expected : ℤ) (content : List UInt8) : Prop where
  lineCount : ((fileLines content).length : ℤ) = expected
  gapless : (recorded store expected (fileLines content)).Perm
    (List.range (recorded store expected (fileLines content)).length)
  flaw : ∃ line ∈ fileLines content,
    ∀ n : ℤ, writtenSequence line = some n → ¬(0 ≤ n ∧ n < expected)

/-- A number in range is stored as it is written. -/
theorem storedSequence_eq {store : ℤ → ℤ} (hstore : ∀ n, -2 ^ 31 ≤ n → n < 2 ^ 31 → store n = n)
    (hexpected : expected < 2 ^ 31) {line : List UInt8} {n : ℤ}
    (hw : writtenSequence line = some n) (hn : 0 ≤ n ∧ n < expected) :
    storedSequence store expected line = some n.toNat := by
  rw [writtenSequence, Option.map_eq_some_iff] at hw
  obtain ⟨pair, hpair, rfl⟩ := hw
  rw [storedSequence, sscanf, hpair, Option.map_some, Option.bind_some]
  dsimp only
  rw [hstore pair.2 (by omega) (by omega), if_pos hn]

/-- Where every line has a number in range, the numbers recorded are those of the lines. -/
theorem recorded_eq {store : ℤ → ℤ} (hstore : ∀ n, -2 ^ 31 ≤ n → n < 2 ^ 31 → store n = n)
    (hexpected : expected < 2 ^ 31) {lines : List (List UInt8)}
    (hall : ∀ line ∈ lines, ∃ n : ℤ, writtenSequence line = some n ∧ 0 ≤ n ∧ n < expected) :
    (recorded store expected lines).length = lines.length ∧
      ∀ n : ℤ, 0 ≤ n → n < expected →
        lines.countP (fun line => writtenSequence line = some n) =
          (recorded store expected lines).count n.toNat := by
  induction lines with
  | nil => exact ⟨rfl, fun n h0 hn => rfl⟩
  | cons line lines ih =>
      obtain ⟨m, hm, hrange⟩ := hall line List.mem_cons_self
      have hrest := ih fun line hmem => hall line (List.mem_cons_of_mem _ hmem)
      have hrec : recorded store expected (line :: lines) =
          m.toNat :: recorded store expected lines := by
        rw [recorded_cons, storedSequence_eq hstore hexpected hm hrange]
        rfl
      rw [hrec]
      refine ⟨congrArg (· + 1) hrest.1, ?_⟩
      intro n h0 hn
      rw [List.countP_cons, List.count_cons, hrest.2 n h0 hn, hm]
      have hiff : m = n ↔ m.toNat = n.toNat := by omega
      simp [hiff]

theorem sound_of_gapless {store : ℤ → ℤ} (hstore : ∀ n, -2 ^ 31 ≤ n → n < 2 ^ 31 → store n = n)
    (hexpected : expected < 2 ^ 31) (hcount : ((fileLines content).length : ℤ) = expected)
    (hgapless : (recorded store expected (fileLines content)).Perm
      (List.range (recorded store expected (fileLines content)).length))
    (hall : ∀ line ∈ fileLines content,
      ∃ n : ℤ, writtenSequence line = some n ∧ 0 ≤ n ∧ n < expected) :
    Sound expected content := by
  refine ⟨?_, hall⟩
  intro n h0 hn
  have hrec := recorded_eq hstore hexpected hall
  rw [hrec.2 n h0 hn, hgapless.count_eq, hrec.1]
  exact List.count_eq_one_of_mem List.nodup_range (List.mem_range.mpr (by omega))

/-- The validator is sound on a file unless lines without a number in range stand for the
largest numbers. -/
theorem validateLog_sound_iff (hfile : world.file = some content) (hexpected : expected < 2 ^ 31)
    (hstore : ∀ n, -2 ^ 31 ≤ n → n < 2 ^ 31 → world.store n = n)
    (hlines : ∀ line ∈ fileLines content, line.length < maxMessageSize) :
    (validateLog world expected = some true → Sound expected content) ↔
      (world.allocates = true → ¬Escapes world.store expected content) := by
  rw [validateLog_iff hfile hexpected hlines]
  constructor
  · intro hsound halloc hescapes
    obtain ⟨line, hmem, hflaw⟩ := hescapes.flaw
    have hgood := hsound ⟨halloc, hescapes.lineCount, hescapes.gapless⟩
    obtain ⟨n, hn, hrange⟩ := hgood.only line hmem
    exact hflaw n hn hrange
  · intro hno hpass
    refine sound_of_gapless hstore hexpected hpass.2.1 hpass.2.2 ?_
    intro line hmem
    by_contra hflaw
    refine hno hpass.1 ⟨hpass.2.1, hpass.2.2, line, hmem, ?_⟩
    intro n hn hrange
    exact hflaw ⟨n, hn, hrange⟩

end Verdict

/-- `0,0` and `1,1` -/
def completeLog : List UInt8 := [48, 44, 48, 10, 49, 44, 49, 10]

theorem validateLog_sound_completeLog :
    validateLog ⟨some completeLog, true, id⟩ 2 = some true ∧ Sound 2 completeLog := by
  let world : World := ⟨some completeLog, true, id⟩
  have hfile : world.file = some completeLog := rfl
  have hpass : validateLog world 2 = some true := by decide +kernel
  refine ⟨hpass, ?_⟩
  refine (validateLog_sound_iff hfile (by decide) (fun n _ _ => rfl)
    (by decide +kernel)).mpr ?_ hpass
  intro _ hescapes
  have hnumbers : ∀ line ∈ fileLines completeLog,
      writtenSequence line = some 0 ∨ writtenSequence line = some 1 := by decide +kernel
  obtain ⟨line, hmem, hflaw⟩ := hescapes.flaw
  cases hnumbers line hmem with
  | inl h => exact hflaw 0 h (by decide)
  | inr h => exact hflaw 1 h (by decide)

/-- `0,0` and `garbage` -/
def garbledLog : List UInt8 := [48, 44, 48, 10, 103, 97, 114, 98, 97, 103, 101, 10]

theorem validateLog_passes_garbledLog :
    (∀ line ∈ fileLines garbledLog, line.length < maxMessageSize) ∧
      validateLog ⟨some garbledLog, true, id⟩ 2 = some true ∧ ¬Sound 2 garbledLog := by
  refine ⟨by decide +kernel, by decide +kernel, ?_⟩
  intro hsound
  exact absurd (hsound.once 1 (by decide) (by decide)) (by decide +kernel)

end SystemsExperiments.Threads
