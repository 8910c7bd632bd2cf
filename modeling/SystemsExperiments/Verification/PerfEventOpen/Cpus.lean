import SystemsExperiments.Model.PerfEventOpen.Buffers

/-! # The CPUs whose events are seen

The loop over the CPUs leaves the number of the last one that could be set up where the number
of entries is expected. -/

namespace SystemsExperiments.PerfEventOpen

/-- The CPUs that could be set up. -/
def SetUp (opened : List (Option (ℤ × ℕ))) (i : ℕ) : Prop := ∃ cpu, opened[i]? = some (some cpu)

/-- The entries are those of the CPUs that could be set up, and `n` is the last of these, not
their number. -/
structure Configured (opened : List (Option (ℤ × ℕ))) (allocated config : PerfEventConfig) :
    Prop where
  entry : ∀ (i : Fin maxCpus) cpu, opened[i.val]? = some (some cpu) →
    config.fds i = cpu.1 ∧ config.buffers i = cpu.2
  rest : ∀ i : Fin maxCpus, ¬SetUp opened i → config.fds i = allocated.fds i ∧
    config.buffers i = allocated.buffers i
  last : ∀ i, SetUp opened i → i ≤ config.n
  isSetUp : (∃ i, SetUp opened i) → SetUp opened config.n

theorem getElem?_concat {α : Type*} (front : List α) (a : α) (i : ℕ) :
    (front ++ [a])[i]? = if i = front.length then some a else front[i]? := by
  by_cases h : i = front.length
  · rw [if_pos h, h]
    simp
  · rw [if_neg h]
    by_cases hlt : i < front.length
    · rw [List.getElem?_append_left hlt]
    · rw [List.getElem?_eq_none (by simp; omega), List.getElem?_eq_none (by omega)]

theorem setupPerfEvent_concat (allocated : PerfEventConfig) (front : List (Option (ℤ × ℕ)))
    (cpu : Option (ℤ × ℕ)) :
    setupPerfEvent allocated (front ++ [cpu]) =
      (setupPerfEvent allocated front).bind fun config => setupCpu config front.length cpu := by
  rw [setupPerfEvent, List.zipIdx_append, List.foldlM_append]
  simp [setupPerfEvent]

variable {opened front : List (Option (ℤ × ℕ))} {allocated config : PerfEventConfig}

/-- A CPU that cannot be set up changes nothing. -/
theorem Configured.skip (h : Configured front allocated config) :
    Configured (front ++ [none]) allocated config := by
  have hset : ∀ i, SetUp (front ++ [none]) i ↔ SetUp front i := by
    intro i
    simp only [SetUp, getElem?_concat]
    split
    · rename_i heq
      simp [heq]
    · rfl
  refine ⟨fun i cpu hi => ?_, fun i hi => h.rest i ((hset i).not.mp hi),
    fun i hi => h.last i ((hset i).mp hi), fun hsome => ?_⟩
  · rw [getElem?_concat] at hi
    split at hi
    · cases hi
    · exact h.entry i cpu hi
  · obtain ⟨i, hi⟩ := hsome
    exact (hset _).mpr (h.isSetUp ⟨i, (hset i).mp hi⟩)

theorem Configured.add (h : Configured front allocated config) (cpu : ℤ × ℕ)
    (hlen : front.length < maxCpus) :
    Configured (front ++ [some cpu]) allocated
      { fds := Function.update config.fds ⟨front.length, hlen⟩ cpu.1
        buffers := Function.update config.buffers ⟨front.length, hlen⟩ cpu.2
        n := front.length } := by
  have hlt : ∀ i, SetUp front i → i < front.length := by
    rintro i ⟨_, hi⟩
    exact (List.getElem?_eq_some_iff.mp hi).1
  have hindex : ∀ i : Fin maxCpus, i = ⟨front.length, hlen⟩ ↔ i.val = front.length := by
    intro i
    rw [Fin.ext_iff]
  refine ⟨fun i cpu' hi => ?_, fun i hi => ?_, fun i hi => ?_, fun _ => ?_⟩
  · rw [getElem?_concat] at hi
    simp only [Function.update_apply, hindex]
    split at hi
    · cases hi
      simp [*]
    · rename_i hne
      rw [if_neg hne, if_neg hne]
      exact h.entry i cpu' hi
  · have hne : i.val ≠ front.length := by
      intro heq
      exact hi ⟨cpu, by rw [getElem?_concat, if_pos heq]⟩
    simp only [Function.update_apply, hindex, if_neg hne]
    apply h.rest
    rintro ⟨cpu', hi'⟩
    exact hi ⟨cpu', by rw [getElem?_concat, if_neg hne, hi']⟩
  · obtain ⟨cpu', hi⟩ := hi
    rw [getElem?_concat] at hi
    split at hi
    · exact le_of_eq ‹_›
    · exact (hlt i ⟨cpu', hi⟩).le
  · exact ⟨cpu, by simp⟩

/-- The loop over the CPUs, by induction on those it has been over. -/
theorem setupPerfEvent_configured (allocated : PerfEventConfig) (hcpus : opened.length ≤ maxCpus) :
    ∃ config, setupPerfEvent allocated opened = some config ∧
      Configured opened allocated config := by
  induction opened using List.reverseRecOn with
  | nil => exact ⟨allocated, rfl, by simp, fun _ _ => ⟨rfl, rfl⟩, by simp [SetUp], by simp [SetUp]⟩
  | append_singleton front cpu ih =>
      rw [List.length_append, List.length_singleton] at hcpus
      have hlen : front.length < maxCpus := hcpus
      obtain ⟨config, hsetup, hconf⟩ := ih hlen.le
      rw [setupPerfEvent_concat, hsetup, Option.bind_some]
      cases cpu with
      | none => exact ⟨config, rfl, hconf.skip⟩
      | some cpu => exact ⟨_, dif_pos hlen, hconf.add cpu hlen⟩

/-! ## Reading the entries -/

theorem mapM_of_forall {α β : Type} {f : α → Option β} {g : α → β} {l : List α}
    (h : ∀ a ∈ l, f a = some (g a)) : l.mapM f = some (l.map g) := by
  induction l with
  | nil => rfl
  | cons a l ih =>
      rw [List.forall_mem_cons] at h
      rw [List.mapM_cons, h.1, ih h.2]
      rfl

/-- The descriptors before a CPU of the arrays. -/
theorem fdsUpTo_spec (config : PerfEventConfig) {n : ℕ} (hn : n ≤ maxCpus) :
    ∃ fds, fdsUpTo config n = some fds ∧ fds.length = n ∧
      ∀ i : Fin maxCpus, i < n → fds[i.val]? = some (config.fds i) := by
  let entry : ℕ → ℤ := fun i => if hi : i < maxCpus then config.fds ⟨i, hi⟩ else 0
  refine ⟨(List.range n).map entry, ?_, by simp, fun i hi => ?_⟩
  · apply mapM_of_forall
    intro i hi
    have hlt : i < maxCpus := (List.mem_range.mp hi).trans_le hn
    simp only [entry, dif_pos hlt]
  · rw [List.getElem?_map, List.getElem?_range hi]
    simp [entry]

/-- What `poll` answers for the CPUs from `n` on does not matter. -/
theorem getNextBuffer_spec (config : PerfEventConfig) (hn : config.n ≤ maxCpus)
    (poll : Option (ℕ → Bool)) :
    ∃ r, getNextBuffer config poll = some r ∧
      (∀ e ∈ r, e.1 < config.n ∧ (∀ ready ∈ poll, ready e.1 = true) ∧
        ∀ i : Fin maxCpus, i = e.1 → e.2 = config.buffers i) ∧
      (r = none ↔ ∀ ready ∈ poll, ∀ i < config.n, ready i = false) := by
  obtain ⟨fds, hfds, -⟩ := fdsUpTo_spec config hn
  cases poll with
  | none => exact ⟨none, by simp [getNextBuffer, hfds], by simp, by simp⟩
  | some ready =>
      cases hfind : (List.range config.n).find? ready with
      | none =>
          refine ⟨none, by simp [getNextBuffer, hfds, hfind], by simp, ?_⟩
          simpa using hfind
      | some i =>
          have hi : i < config.n := List.mem_range.mp (List.mem_of_find?_eq_some hfind)
          have hready := List.find?_some hfind
          have hlt : i < maxCpus := hi.trans_le hn
          refine ⟨some (i, config.buffers ⟨i, hlt⟩), ?_, ?_, ?_⟩
          · simp [getNextBuffer, hfds, hfind, hlt]
          · intro e he
            cases he
            refine ⟨hi, ?_, fun j hj => ?_⟩
            · intro ready' hpoll
              cases hpoll
              exact hready
            · rw [← show j = ⟨i, hlt⟩ from Fin.ext hj]
          · refine iff_of_false (by simp) fun hall => ?_
            rw [hall ready rfl i hi] at hready
            cases hready

/-- The last CPU that was set up is neither enabled nor looked at; of those before it, the ones
that could not be set up are enabled by whatever the allocation had for their descriptors. -/
theorem last_cpu_missed (allocated : PerfEventConfig) (opened : List (Option (ℤ × ℕ)))
    (hcpus : opened.length ≤ maxCpus) (hsome : ∃ i, SetUp opened i) :
    ∃ config last enabled, setupPerfEvent allocated opened = some config ∧ SetUp opened last ∧
      (∀ i, SetUp opened i → i ≤ last) ∧
      enablePerfEvents config = some enabled ∧ enabled.length = last ∧
      (∀ i cpu, i ≠ last → opened[i]? = some (some cpu) → enabled[i]? = some cpu.1) ∧
      (∀ i : Fin maxCpus, i < last → ¬SetUp opened i → enabled[i.val]? = some (allocated.fds i)) ∧
      ∀ poll, ∃ r, getNextBuffer config poll = some r ∧
        (∀ e ∈ r, e.1 < last ∧ (∀ ready ∈ poll, ready e.1 = true) ∧
          ∀ cpu, opened[e.1]? = some (some cpu) → e.2 = cpu.2) ∧
        (r = none ↔ ∀ ready ∈ poll, ∀ i < last, ready i = false) := by
  obtain ⟨config, hsetup, hconf⟩ := setupPerfEvent_configured allocated hcpus
  have hlt : ∀ i, SetUp opened i → i < maxCpus := by
    rintro i ⟨cpu, hi⟩
    exact (List.getElem?_eq_some_iff.mp hi).1.trans_le hcpus
  have hn := (hlt _ (hconf.isSetUp hsome)).le
  obtain ⟨enabled, henabled, hlen, hget⟩ := fdsUpTo_spec config hn
  refine ⟨config, config.n, enabled, hsetup, hconf.isSetUp hsome, hconf.last, henabled, hlen,
    fun i cpu hne hi => ?_, fun i hi hnot => ?_, fun poll => ?_⟩
  · have hbefore : i < config.n := lt_of_le_of_ne (hconf.last i ⟨cpu, hi⟩) hne
    have hentry := hconf.entry ⟨i, hlt i ⟨cpu, hi⟩⟩ cpu hi
    rw [← hentry.1]
    exact hget ⟨i, hlt i ⟨cpu, hi⟩⟩ hbefore
  · rw [hget i hi, (hconf.rest i hnot).1]
  · obtain ⟨r, hr, hlooked, hnone⟩ := getNextBuffer_spec config hn poll
    refine ⟨r, hr, fun e he => ?_, hnone⟩
    obtain ⟨hbefore, hmarked, hbuffer⟩ := hlooked e he
    refine ⟨hbefore, hmarked, fun cpu hi => ?_⟩
    have hindex := hlt e.1 ⟨cpu, hi⟩
    rw [hbuffer ⟨e.1, hindex⟩ rfl, (hconf.entry ⟨e.1, hindex⟩ cpu hi).2]

/-- Of three CPUs with one that cannot be set up, the first is enabled and whatever the
allocation had for the second. -/
theorem last_cpu_missed_three :
    ∃ config last enabled,
      setupPerfEvent ⟨fun _ => 9, fun _ => 0, 7⟩ [some (3, 100), none, some (4, 200)] =
        some config ∧ SetUp [some (3, 100), none, some (4, 200)] last ∧
      (∀ i, SetUp [some (3, 100), none, some (4, 200)] i → i ≤ last) ∧
      enablePerfEvents config = some enabled ∧ enabled.length = last ∧
      (∀ i cpu, i ≠ last → [some (3, 100), none, some (4, 200)][i]? = some (some cpu) →
        enabled[i]? = some cpu.1) ∧
      (∀ i : Fin maxCpus, i < last → ¬SetUp [some (3, 100), none, some (4, 200)] i →
        enabled[i.val]? = some 9) ∧
      ∀ poll, ∃ r, getNextBuffer config poll = some r ∧
        (∀ e ∈ r, e.1 < last ∧ (∀ ready ∈ poll, ready e.1 = true) ∧
          ∀ cpu : ℤ × ℕ, [some (3, 100), none, some (4, 200)][e.1]? = some (some cpu) →
            e.2 = cpu.2) ∧
        (r = none ↔ ∀ ready ∈ poll, ∀ i < last, ready i = false) :=
  last_cpu_missed ⟨fun _ => 9, fun _ => 0, 7⟩ [some (3, 100), none, some (4, 200)] (by decide)
    ⟨0, (3, 100), rfl⟩

end SystemsExperiments.PerfEventOpen
