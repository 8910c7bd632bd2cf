import SystemsExperiments.Model.SmapsSpy.Checked
import SystemsExperiments.Verification.SmapsSpy.Agreement
import SystemsExperiments.Verification.SmapsSpy.Histogram
import SystemsExperiments.Verification.SmapsSpy.ParseFile
import Mathlib.Algebra.Order.BigOperators.Group.List

/-! # Overflow checks

A build with overflow checks does what the release build does, up to the first step that
overflows. Each function has a condition under which no step of it does. -/

namespace SystemsExperiments.SmapsSpy.Checked

open Text Grouping

variable {ε α β : Type}

/-! ## Guarded computations -/

/-- The checked computation overflows exactly if the condition fails, and else agrees. -/
structure Guards (C : Prop) (x : Except (Halt ε) α) (y : Except ε α) : Prop where
  agrees : C → x = returning y
  overflows : ¬ C → x = .error .overflow

theorem Guards.congr {C D : Prop} {x : Except (Halt ε) α} {y : Except ε α} (h : Guards C x y)
    (hCD : C ↔ D) : Guards D x y := by
  rw [← propext hCD]
  exact h

theorem guards_returning (y : Except ε α) : Guards True (returning y) y :=
  ⟨fun _ => rfl, fun h => (h trivial).elim⟩

theorem guards_ok (a : α) : Guards True (.ok a) (.ok a : Except ε α) := guards_returning (.ok a)

theorem guards_arith {C : Prop} {x : Option α} {a : α} (hsome : C → x = some a)
    (hnone : ¬ C → x = none) : Guards C (arith x) (.ok a : Except ε α) where
  agrees h := by rw [hsome h]; rfl
  overflows h := by rw [hnone h]; rfl

/-- One after the other. -/
theorem Guards.bind {C : Prop} {x : Except (Halt ε) α} {y : Except ε α} (h : Guards C x y)
    {D : α → Prop} {f : α → Except (Halt ε) β} {g : α → Except ε β}
    (hfg : ∀ a, Guards (D a) (f a) (g a)) :
    Guards (C ∧ ∀ a, y = .ok a → D a) (x >>= f) (y >>= g) where
  agrees hCD := by
    rw [h.agrees hCD.1]
    cases y with
    | ok a => exact (hfg a).agrees (hCD.2 a rfl)
    | error e => rfl
  overflows hCD := by
    by_cases hC : C
    · rw [h.agrees hC]
      cases y with
      | ok a =>
          have hD : ¬ D a := by
            intro hD
            apply hCD
            refine ⟨hC, ?_⟩
            intro b hb
            cases hb
            exact hD
          exact (hfg a).overflows hD
      | error e => exact absurd ⟨hC, fun a ha => by cases ha⟩ hCD
    · rw [h.overflows hC]
      rfl

/-- The rest of the computation cannot overflow. -/
theorem Guards.bind_true {C : Prop} {x : Except (Halt ε) α} {y : Except ε α} (h : Guards C x y)
    {f : α → Except (Halt ε) β} {g : α → Except ε β} (hfg : ∀ a, Guards True (f a) (g a)) :
    Guards C (x >>= f) (y >>= g) :=
  (h.bind hfg).congr ⟨fun hC => hC.1, fun hC => ⟨hC, fun _ _ => trivial⟩⟩

theorem guards_sub (a b : UInt64) :
    Guards (b ≤ a) (arith (sub a b)) (.ok (a - b) : Except ε UInt64) :=
  guards_arith (fun h => if_pos h) (fun h => if_neg h)

/-! ## Lines -/

/-- What stands on both sides of the dash, unless there are several. -/
def addressesOf (parts : List (List Char)) : Except Error (Option (UInt64 × UInt64)) :=
  match (parts.getD 0 []).splitOn '-' with
  | [start, stop] => do
      let startAddr ← parseAddress .startAddress start
      let endAddr ← parseAddress .endAddress stop
      return some (startAddr, endAddr)
  | _ => return none

def RangeOk (parts : List (List Char)) : Prop :=
  ∀ startAddr endAddr, addressesOf parts = .ok (some (startAddr, endAddr)) → startAddr ≤ endAddr

theorem rangeOk_of_addressesOf {parts : List (List Char)} (h : addressesOf parts = .ok none) :
    RangeOk parts := by
  intro startAddr endAddr heq
  rw [h] at heq
  cases heq

theorem parseMapping_guards (parts : List (List Char)) :
    Guards (RangeOk parts) (parseMapping parts) (SmapsSpy.parseMapping parts) := by
  simp only [parseMapping, SmapsSpy.parseMapping]
  have haddresses := addressesOf.eq_def parts
  generalize (parts.getD 0 []).splitOn '-' = range at haddresses ⊢
  have hother : addressesOf parts = .ok none →
      Guards (RangeOk parts) (pure none : Except (Halt Error) (Option MemoryMapping)) (pure none) :=
    fun h => (guards_ok none).congr (iff_of_true trivial (rangeOk_of_addressesOf h))
  rcases range with _ | ⟨start, _ | ⟨stop, _ | ⟨more, rest⟩⟩⟩
  · exact hother haddresses
  · exact hother haddresses
  · have hguards := (guards_returning (parseAddress .startAddress start)).bind fun startAddr =>
      (guards_returning (parseAddress .endAddress stop)).bind fun endAddr =>
        (guards_sub endAddr startAddr).bind_true fun size => guards_ok (some
          { startAddr, endAddr, size
            permissions := parts.getD 1 []
            rss := none
            pss := none
            path := if 5 < parts.length then some ([' '].intercalate (parts.drop 5)) else none
            : MemoryMapping })
    apply hguards.congr
    simp only [RangeOk, haddresses, true_and]
    constructor
    · intro h startAddr endAddr heq
      obtain ⟨a, ha, heq⟩ := exists_of_bind_eq_ok heq
      obtain ⟨b, hb, heq⟩ := exists_of_bind_eq_ok heq
      cases heq
      exact h _ ha _ hb
    · intro h a ha b hb
      apply h
      rw [ha, hb]
      rfl
  · exact hother haddresses

/-- The line is one of a mapping. -/
abbrev IsHeader (parts : List (List Char)) : Prop :=
  2 ≤ parts.length ∧ (parts.getD 0 []).contains '-'

def MapsLineOk (_ : List MemoryMapping) (line : List Char) : Prop :=
  IsHeader (splitWhitespace line) → RangeOk (splitWhitespace line)

theorem mapsLine_guards (ms : List MemoryMapping) (line : List Char) :
    Guards (MapsLineOk ms line) (mapsLine ms line) (SmapsSpy.mapsLine ms line) := by
  have hother : ¬ IsHeader (splitWhitespace line) →
      Guards (MapsLineOk ms line) (.ok ms) (.ok ms : Except Error (List MemoryMapping)) :=
    fun h => (guards_ok ms).congr (iff_of_true trivial fun hheader => absurd hheader h)
  simp only [mapsLine, SmapsSpy.mapsLine]
  by_cases hlen : (splitWhitespace line).length < 2
  · rw [if_pos hlen, if_pos hlen]
    exact hother fun h => by have := h.1; omega
  · rw [if_neg hlen, if_neg hlen]
    by_cases hdash : ((splitWhitespace line).getD 0 []).contains '-' = true
    · rw [if_pos hdash, if_pos hdash]
      have hheader : IsHeader (splitWhitespace line) := ⟨by omega, hdash⟩
      refine Guards.congr (C := RangeOk (splitWhitespace line)) ?_
        ⟨fun h _ => h, fun h => h hheader⟩
      apply (parseMapping_guards (splitWhitespace line)).bind_true
      intro mapping
      cases mapping with
      | some mapping => exact guards_ok (ms ++ [mapping])
      | none => exact guards_ok ms
    · rw [if_neg hdash, if_neg hdash]
      exact hother fun h => hdash h.2

/-- A statistic, in kB. -/
inductive Statistic where
  | rss (kb : UInt64)
  | pss (kb : UInt64)
  deriving DecidableEq

def Statistic.kb : Statistic → UInt64
  | .rss kb => kb
  | .pss kb => kb

def Statistic.apply (m : MemoryMapping) : Statistic → MemoryMapping
  | .rss kb => { m with rss := some (kb * bytesPerKb) }
  | .pss kb => { m with pss := some (kb * bytesPerKb) }

def kbOf (parts : List (List Char)) : Option UInt64 :=
  match fromStrRadix (2 ^ 64) 10 (parts.getD 1 []) with
  | .ok kb => some (UInt64.ofNat kb)
  | .error _ => none

/-- The statistic that a line has, if it has a value. -/
def statisticOf (line : List Char) (parts : List (List Char)) : Option Statistic :=
  if rssPrefix.isPrefixOf line ∧ 2 ≤ parts.length then (kbOf parts).map .rss
  else if pssPrefix.isPrefixOf line ∧ 2 ≤ parts.length then (kbOf parts).map .pss
  else none

/-- In bytes the statistic fits. -/
def FitsBytes (kb : UInt64) : Prop := kb.toNat * 1024 < 2 ^ 64

def StatisticOk (line : List Char) (parts : List (List Char)) : Prop :=
  ∀ s, statisticOf line parts = some s → FitsBytes s.kb

theorem statisticsLine_eq (m : MemoryMapping) (line : List Char) (parts : List (List Char)) :
    SmapsSpy.statisticsLine m line parts =
      (statisticOf line parts).elim m fun s => s.apply m := by
  simp only [SmapsSpy.statisticsLine, statisticOf, SmapsSpy.parseKb, kbOf]
  split
  · cases fromStrRadix (2 ^ 64) 10 (parts.getD 1 []) with
    | ok kb => rfl
    | error e => rfl
  · split
    · cases fromStrRadix (2 ^ 64) 10 (parts.getD 1 []) with
      | ok kb => rfl
      | error e => rfl
    · rfl

theorem arith_bind (x : Option α) (f : α → Option β) :
    (arith (x >>= f) : Except (Halt ε) β) = arith x >>= fun a => arith (f a) := by
  cases x with
  | none => rfl
  | some a => rfl

theorem parseKb_guards (parts : List (List Char)) (old : Option UInt64) :
    Guards (∀ kb, kbOf parts = some kb → FitsBytes kb) (arith (parseKb parts old))
      (.ok (SmapsSpy.parseKb parts old) : Except ε (Option UInt64)) := by
  rw [parseKb, SmapsSpy.parseKb, kbOf]
  cases fromStrRadix (2 ^ 64) 10 (parts.getD 1 []) with
  | error e =>
      refine (guards_ok old).congr (iff_of_true trivial ?_)
      intro kb heq
      cases heq
  | ok kb =>
      refine Guards.congr (C := FitsBytes (UInt64.ofNat kb)) ?_ ⟨?_, ?_⟩
      · apply guards_arith
        · intro h
          have hmul : mul (UInt64.ofNat kb) bytesPerKb = some (UInt64.ofNat kb * bytesPerKb) :=
            if_pos h
          exact congrArg (Option.map some) hmul
        · intro h
          have hmul : mul (UInt64.ofNat kb) bytesPerKb = none := if_neg h
          exact congrArg (Option.map some) hmul
      · intro h kb' heq
        cases heq
        exact h
      · intro h
        exact h _ rfl

/-- The condition on the value, where the line has a certain statistic. -/
theorem statisticOk_iff {line : List Char} {parts : List (List Char)} {make : UInt64 → Statistic}
    (hmake : ∀ kb, (make kb).kb = kb) (h : statisticOf line parts = (kbOf parts).map make) :
    (∀ kb, kbOf parts = some kb → FitsBytes kb) ↔ StatisticOk line parts := by
  rw [StatisticOk, h]
  cases kbOf parts with
  | none => simp
  | some kb => simp [hmake]

theorem statisticsLine_guards (m : MemoryMapping) (line : List Char) (parts : List (List Char)) :
    Guards (StatisticOk line parts) (arith (statisticsLine m line parts))
      (.ok (SmapsSpy.statisticsLine m line parts) : Except ε MemoryMapping) := by
  rw [statisticsLine, SmapsSpy.statisticsLine]
  by_cases hrss : rssPrefix.isPrefixOf line = true ∧ 2 ≤ parts.length
  · rw [if_pos hrss, if_pos hrss, arith_bind]
    have hstatistic : statisticOf line parts = (kbOf parts).map .rss := if_pos hrss
    exact ((parseKb_guards parts m.rss).bind_true fun rss => guards_ok { m with rss }).congr
      (statisticOk_iff (fun kb => rfl) hstatistic)
  · rw [if_neg hrss, if_neg hrss]
    by_cases hpss : pssPrefix.isPrefixOf line = true ∧ 2 ≤ parts.length
    · rw [if_pos hpss, if_pos hpss, arith_bind]
      have hstatistic : statisticOf line parts = (kbOf parts).map .pss := by
        rw [statisticOf, if_neg hrss, if_pos hpss]
      exact ((parseKb_guards parts m.pss).bind_true fun pss => guards_ok { m with pss }).congr
        (statisticOk_iff (fun kb => rfl) hstatistic)
    · rw [if_neg hpss, if_neg hpss]
      refine (guards_ok m).congr (iff_of_true trivial ?_)
      intro s hs
      rw [statisticOf, if_neg hrss, if_neg hpss] at hs
      cases hs

structure SmapsLineOk (st : SmapsState) (line : List Char) : Prop where
  range : IsHeader (splitWhitespace line) → RangeOk (splitWhitespace line)
  statistic : ¬ IsHeader (splitWhitespace line) → st.currentMapping ≠ none →
    StatisticOk (trim line) (splitWhitespace line)

theorem splitWhitespace_of_trim_eq_nil {line : List Char} (h : trim line = []) :
    splitWhitespace line = [] := by
  rw [← splitWhitespace_trim, h, splitWhitespace_nil]

theorem statisticOf_of_trim_eq_nil {line : List Char} (h : trim line = []) :
    statisticOf (trim line) (splitWhitespace line) = none := by
  rw [splitWhitespace_of_trim_eq_nil h, statisticOf, if_neg (by simp), if_neg (by simp)]

theorem smapsLine_guards (st : SmapsState) (line : List Char) :
    Guards (SmapsLineOk st line) (smapsLine st line) (SmapsSpy.smapsLine st line) := by
  simp only [smapsLine, SmapsSpy.smapsLine, splitWhitespace_trim]
  by_cases hempty : trim line = []
  · rw [if_pos hempty, if_pos hempty]
    refine (guards_ok st).congr (iff_of_true trivial ⟨?_, ?_⟩)
    · intro h
      exact absurd h.1 (by simp [splitWhitespace_of_trim_eq_nil hempty])
    · intro _ _ s hs
      rw [statisticOf_of_trim_eq_nil hempty] at hs
      cases hs
  · rw [if_neg hempty, if_neg hempty]
    by_cases hheader : IsHeader (splitWhitespace line)
    · rw [if_pos hheader, if_pos hheader]
      refine Guards.congr (C := RangeOk (splitWhitespace line)) ?_
        ⟨fun h => ⟨fun _ => h, fun hnot => absurd hheader hnot⟩, fun h => h.range hheader⟩
      exact (parseMapping_guards (splitWhitespace line)).bind_true fun mapping => guards_ok _
    · rw [if_neg hheader, if_neg hheader]
      cases hcurrent : st.currentMapping with
      | none =>
          have hst : (⟨st.mappings, none⟩ : SmapsState) = st := by rw [← hcurrent]
          rw [Option.map_none, hst]
          refine (guards_ok st).congr (iff_of_true trivial ⟨fun h => absurd h hheader, ?_⟩)
          exact fun _ hnone => absurd hcurrent hnone
      | some mapping =>
          refine Guards.congr (C := StatisticOk (trim line) (splitWhitespace line)) ?_
            ⟨fun h => ⟨fun hnot => absurd hnot hheader, fun _ _ => h⟩,
              fun h => h.statistic hheader (by simp [hcurrent])⟩
          exact (statisticsLine_guards mapping (trim line) (splitWhitespace line)).bind_true
            fun mapping => guards_ok (⟨st.mappings, some mapping⟩ : SmapsState)

/-! ## The loop over the lines -/

/-- The condition holds at every line that the release build gets to. -/
def LinesOk {σ : Type} (ok : σ → List Char → Prop) (body : σ → List Char → Except Error σ)
    (st : σ) : List (List Char) → Prop
  | [] => True
  | line :: rest => ok st line ∧ ∀ st', body st line = .ok st' → LinesOk ok body st' rest

theorem forLines_guards {σ : Type} {ok : σ → List Char → Prop}
    {checkedBody : σ → List Char → Except (Halt Error) σ} {body : σ → List Char → Except Error σ}
    (hbody : ∀ st line, Guards (ok st line) (checkedBody st line) (body st line))
    (n : ℕ) (st : σ) (ls : List (List Char)) :
    Guards (LinesOk ok body st ls) (forLines checkedBody n st (ls.map .ok))
      (SmapsSpy.forLines body n st (ls.map .ok)) := by
  induction ls generalizing n st with
  | nil => exact guards_ok st
  | cons line ls ih =>
      rw [List.map_cons, forLines, SmapsSpy.forLines, LinesOk]
      by_cases hok : ok st line
      · rw [(hbody st line).agrees hok]
        cases hline : body st line with
        | ok st' =>
            refine (ih (n + 1) st').congr ⟨?_, ?_⟩
            · intro hrest
              refine ⟨hok, ?_⟩
              intro st'' heq
              cases heq
              exact hrest
            · intro hrest
              exact hrest.2 st' rfl
        | error e =>
            have hreturned : Guards True (returning (.error ⟨some n, e⟩))
              (.error ⟨some n, e⟩ : Except Failure σ) := guards_returning _
            refine hreturned.congr (iff_of_true trivial ⟨hok, ?_⟩)
            intro st' heq
            cases heq
      · rw [(hbody st line).overflows hok]
        exact ⟨fun h => absurd h.1 hok, fun _ => rfl⟩

/-! ## The histogram -/

/-- The sum over the mappings, as an integer. -/
def total (w : MemoryMapping → UInt64) (ms : List MemoryMapping) : ℕ :=
  (ms.map fun m => (w m).toNat).sum

def rssOf (m : MemoryMapping) : UInt64 := m.rss.getD 0

def pssOf (m : MemoryMapping) : UInt64 := m.pss.getD 0

/-- All totals fit their types. -/
structure TotalsOk (ms : List MemoryMapping) : Prop where
  virtual : total MemoryMapping.size ms < 2 ^ 64
  rss : total rssOf ms < 2 ^ 64
  pss : total pssOf ms < 2 ^ 64
  count : ∀ key, (withKey MemoryMapping.key key ms).length < 2 ^ 32

theorem toNat_sum {w : MemoryMapping → UInt64} {ms : List MemoryMapping}
    (h : total w ms < 2 ^ 64) : (ms.map w).sum.toNat = total w ms := by
  induction ms with
  | nil => rfl
  | cons m ms ih =>
      rw [total, List.map_cons, List.sum_cons] at h
      have hrest : total w ms < 2 ^ 64 := lt_of_le_of_lt (Nat.le_add_left _ _) h
      rw [List.map_cons, List.sum_cons, UInt64.toNat_add, ih hrest]
      exact Nat.mod_eq_of_lt h

theorem total_append (w : MemoryMapping → UInt64) (ms ms' : List MemoryMapping) :
    total w (ms ++ ms') = total w ms + total w ms' := by
  simp [total]

theorem total_withKey_le (w : MemoryMapping → UInt64) (key : HistogramKey)
    (ms : List MemoryMapping) : total w (withKey MemoryMapping.key key ms) ≤ total w ms := by
  apply List.Sublist.sum_le_sum
  · exact List.filter_sublist.map _
  · intro n _
    exact Nat.zero_le n

theorem TotalsOk.of_append {ms ms' : List MemoryMapping} (h : TotalsOk (ms ++ ms')) :
    TotalsOk ms := by
  obtain ⟨hvirtual, hrss, hpss, hcount⟩ := h
  rw [total_append] at hvirtual hrss hpss
  refine ⟨by omega, by omega, by omega, ?_⟩
  intro key
  have hkey := hcount key
  rw [withKey, List.filter_append, List.length_append] at hkey
  exact lt_of_le_of_lt (Nat.le_add_right _ _) hkey

theorem totalsOk_nil : TotalsOk [] where
  virtual := by decide
  rss := by decide
  pss := by decide
  count key := by
    rw [withKey, List.filter_nil]
    decide

/-! One mapping is added to totals that fit. -/

theorem guards_add (a b : UInt64) :
    Guards (a.toNat + b.toNat < 2 ^ 64) (arith (add a b)) (.ok (a + b) : Except ε UInt64) :=
  guards_arith (fun h => if_pos h) (fun h => if_neg h)

theorem guards_add32 (a b : UInt32) :
    Guards (a.toNat + b.toNat < 2 ^ 32) (arith (add32 a b)) (.ok (a + b) : Except ε UInt32) :=
  guards_arith (fun h => if_pos h) (fun h => if_neg h)

theorem guards_addSome (a : UInt64) (value : Option UInt64) :
    Guards (a.toNat + (value.getD 0).toNat < 2 ^ 64) (arith (addSome a value))
      (.ok (MemoryStats.addSome a value) : Except ε UInt64) := by
  cases value with
  | some b => exact guards_add a b
  | none => exact (guards_ok a).congr (iff_of_true trivial a.toNat_lt)

/-- The seven sums of one turn fit. -/
structure TurnOk (stats : MemoryStats) (entry : HistogramEntry) (m : MemoryMapping) : Prop where
  count : entry.count.toNat + 1 < 2 ^ 32
  entrySize : entry.totalSize.toNat + m.size.toNat < 2 ^ 64
  entryRss : entry.totalRss.toNat + (rssOf m).toNat < 2 ^ 64
  entryPss : entry.totalPss.toNat + (pssOf m).toNat < 2 ^ 64
  virtual : stats.totalVirtual.toNat + m.size.toNat < 2 ^ 64
  rss : stats.totalRss.toNat + (rssOf m).toNat < 2 ^ 64
  pss : stats.totalPss.toNat + (pssOf m).toNat < 2 ^ 64

theorem addMapping_guards (stats : MemoryStats) (m : MemoryMapping) :
    Guards (TurnOk stats ((stats.histogram m.key).getD ⟨0, 0, 0, 0⟩) m)
      (arith (addMapping stats m)) (.ok (stats.addMapping m) : Except ε MemoryStats) := by
  simp only [addMapping, arith_bind]
  have hguards (entry : HistogramEntry) :=
    (guards_add32 entry.count 1).bind fun count =>
    (guards_add entry.totalSize m.size).bind fun totalSize =>
    (guards_addSome entry.totalRss m.rss).bind fun totalRss =>
    (guards_addSome entry.totalPss m.pss).bind fun totalPss =>
    (guards_add stats.totalVirtual m.size).bind fun statsVirtual =>
    (guards_addSome stats.totalRss m.rss).bind fun statsRss =>
    (guards_addSome stats.totalPss m.pss).bind_true fun statsPss =>
      (guards_ok
        { stats with
          histogram := Function.update stats.histogram m.key
            (some { count, totalSize, totalRss, totalPss })
          totalVirtual := statsVirtual
          totalRss := statsRss
          totalPss := statsPss } : Guards True _ (_ : Except ε MemoryStats))
  apply (hguards _).congr
  simp only [Except.ok.injEq, forall_eq']
  constructor
  · rintro ⟨h₁, h₂, h₃, h₄, h₅, h₆, h₇⟩
    exact ⟨h₁, h₂, h₃, h₄, h₅, h₆, h₇⟩
  · rintro ⟨h₁, h₂, h₃, h₄, h₅, h₆, h₇⟩
    exact ⟨h₁, h₂, h₃, h₄, h₅, h₆, h₇⟩

theorem length_withKey_append_singleton (key : HistogramKey) (ms : List MemoryMapping)
    (m : MemoryMapping) : (withKey MemoryMapping.key key (ms ++ [m])).length =
      (withKey MemoryMapping.key key ms).length + if m.key = key then 1 else 0 := by
  rw [withKey, List.filter_append, List.length_append, withKey]
  by_cases hkey : m.key = key
  · simp [hkey]
  · simp [hkey]

theorem totalsOk_append_singleton {ms : List MemoryMapping} (h : TotalsOk ms) (m : MemoryMapping) :
    TotalsOk (ms ++ [m]) ↔
      total MemoryMapping.size ms + m.size.toNat < 2 ^ 64 ∧
        total rssOf ms + (rssOf m).toNat < 2 ^ 64 ∧ total pssOf ms + (pssOf m).toNat < 2 ^ 64 ∧
        (withKey MemoryMapping.key m.key ms).length + 1 < 2 ^ 32 := by
  have hlast : ∀ w, total w (ms ++ [m]) = total w ms + (w m).toNat := by
    intro w
    simp [total]
  constructor
  · intro hall
    have hcount := hall.count m.key
    rw [length_withKey_append_singleton, if_pos rfl] at hcount
    rw [← hlast, ← hlast, ← hlast]
    exact ⟨hall.virtual, hall.rss, hall.pss, hcount⟩
  · intro hall
    rw [← hlast, ← hlast, ← hlast] at hall
    refine ⟨hall.1, hall.2.1, hall.2.2.1, ?_⟩
    intro key
    rw [length_withKey_append_singleton]
    by_cases hkey : m.key = key
    · rw [if_pos hkey, ← hkey]
      exact hall.2.2.2
    · rw [if_neg hkey]
      exact h.count key

/-- With the sums so far, the seven are the totals with the new mapping. -/
theorem turnOk_iff {done : List MemoryMapping} {stats : MemoryStats} (h : Tallied done stats)
    (hok : TotalsOk done) (m : MemoryMapping) :
    TurnOk stats ((stats.histogram m.key).getD ⟨0, 0, 0, 0⟩) m ↔ TotalsOk (done ++ [m]) := by
  have hle := fun w => total_withKey_le w m.key done
  -- the sums for the key are part of those for all mappings
  have hsum : ∀ w, total w done < 2 ^ 64 →
      ((withKey MemoryMapping.key m.key done).map w).sum.toNat =
        total w (withKey MemoryMapping.key m.key done) :=
    fun w hw => toNat_sum (lt_of_le_of_lt (hle w) hw)
  have hentry : (stats.histogram m.key).getD ⟨0, 0, 0, 0⟩ =
      HistogramEntry.sumOf (withKey MemoryMapping.key m.key done) := by
    rw [h.histogram, entryOf_getD]
  have hcount : (HistogramEntry.sumOf (withKey MemoryMapping.key m.key done)).count.toNat =
      (withKey MemoryMapping.key m.key done).length := by
    rw [HistogramEntry.sumOf, UInt32.toNat_ofNat']
    exact Nat.mod_eq_of_lt (hok.count m.key)
  have hvirtual : stats.totalVirtual.toNat = total MemoryMapping.size done := by
    rw [h.totalVirtual]
    exact toNat_sum hok.virtual
  have hrss : stats.totalRss.toNat = total rssOf done := by
    rw [h.totalRss]
    exact toNat_sum hok.rss
  have hpss : stats.totalPss.toNat = total pssOf done := by
    rw [h.totalPss]
    exact toNat_sum hok.pss
  rw [totalsOk_append_singleton hok, hentry]
  constructor
  · intro hturn
    rw [← hvirtual, ← hrss, ← hpss, ← hcount]
    exact ⟨hturn.virtual, hturn.rss, hturn.pss, hturn.count⟩
  · intro hall
    obtain ⟨hv, hr, hp, hc⟩ := hall
    have hsize := hsum MemoryMapping.size hok.virtual
    have hrss' := hsum rssOf hok.rss
    have hpss' := hsum pssOf hok.pss
    refine ⟨?_, ?_, ?_, ?_, ?_, ?_, ?_⟩
    · rw [hcount]
      exact hc
    · exact lt_of_le_of_lt (Nat.add_le_add_right (hsize.trans_le (hle _)) _) hv
    · exact lt_of_le_of_lt (Nat.add_le_add_right (hrss'.trans_le (hle _)) _) hr
    · exact lt_of_le_of_lt (Nat.add_le_add_right (hpss'.trans_le (hle _)) _) hp
    · rw [hvirtual]
      exact hv
    · rw [hrss]
      exact hr
    · rw [hpss]
      exact hp

theorem foldlM_addMapping_guards {done : List MemoryMapping} {stats : MemoryStats}
    (h : Tallied done stats) (hok : TotalsOk done) (ms : List MemoryMapping) :
    Guards (TotalsOk (done ++ ms)) (arith (ms.foldlM addMapping stats))
      (.ok (ms.foldl MemoryStats.addMapping stats) : Except ε MemoryStats) := by
  induction ms generalizing done stats with
  | nil =>
      rw [List.append_nil]
      exact (guards_ok stats).congr (iff_of_true trivial hok)
  | cons m ms ih =>
      rw [List.foldlM_cons, arith_bind, List.foldl_cons]
      have hturn : Guards (TotalsOk (done ++ [m])) (arith (addMapping stats m))
          (.ok (stats.addMapping m) : Except ε MemoryStats) :=
        (addMapping_guards stats m).congr (turnOk_iff h hok m)
      have hsplit : done ++ m :: ms = (done ++ [m]) ++ ms := by simp
      by_cases hnext : TotalsOk (done ++ [m])
      · rw [hturn.agrees hnext, hsplit]
        exact ih (h.addMapping m) hnext
      · rw [hturn.overflows hnext, hsplit]
        exact ⟨fun hall => absurd hall.of_append hnext, fun _ => rfl⟩

/-- The histogram overflows exactly if one of the totals does. -/
theorem buildHistogram_guards (stats : MemoryStats) :
    Guards (TotalsOk stats.mappings) (arith (buildHistogram stats))
      (.ok stats.buildHistogram : Except ε MemoryStats) :=
  foldlM_addMapping_guards (tallied_start stats) totalsOk_nil stats.mappings

/-! ## Files -/

/-- The parser for a type. -/
def parseAs (fs : FileSystem) (path : List Char) : FileType → Except (Halt Failure) MemoryStats
  | .maps => parseMapsFile fs path
  | .smaps => parseSmapsFile fs path

theorem parseFile_eq (fs : FileSystem) (path : List Char) :
    parseFile fs path = do
      let type ← returning (detectFileType fs path)
      let stats ← parseAs fs path type
      return stats.withProcess fs path := by
  rw [parseFile]
  congr 1
  funext type
  cases type with
  | maps =>
      simp only [parseAs, MemoryStats.withProcess]
      congr 1
      funext stats
      cases pidOfPath path with
      | none => rfl
      | some pid => rfl
  | smaps =>
      simp only [parseAs, MemoryStats.withProcess]
      congr 1
      funext stats
      cases pidOfPath path with
      | none => rfl
      | some pid => rfl

end SystemsExperiments.SmapsSpy.Checked
