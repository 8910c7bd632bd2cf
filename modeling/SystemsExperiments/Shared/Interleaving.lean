import Mathlib.Logic.Function.Basic
import Mathlib.Logic.Relation
import Mathlib.Algebra.Order.Ring.Nat
import Mathlib.Algebra.BigOperators.Group.Finset.Basic
import Mathlib.Algebra.Order.BigOperators.Group.Finset

/-! # Interleaved execution of deterministic threads

A system is one shared store and one local state for each thread. A schedule names,
step by step, the thread that moves and the answer its environment gives it, so the
states reached under every interleaving are the states reached under every schedule. -/

namespace SystemsExperiments.Interleaving

/-- A shared store with one local state for each thread identifier. -/
structure Sys (σ τ : Type*) where
  shared : σ
  thread : ℕ → τ

variable {σ τ γ : Type*} (next : σ → τ → γ → σ × τ)

/-- Thread `t` takes one atomic step against the shared store. -/
def step (s : Sys σ τ) (t : ℕ) (c : γ) : Sys σ τ :=
  ⟨(next s.shared (s.thread t) c).1,
    Function.update s.thread t (next s.shared (s.thread t) c).2⟩

def run (s : Sys σ τ) : List (ℕ × γ) → Sys σ τ
  | [] => s
  | (t, c) :: rest => run (step next s t c) rest

@[simp] theorem run_nil (s : Sys σ τ) : run next s [] = s := rfl

@[simp] theorem run_cons (s : Sys σ τ) (t : ℕ) (c : γ) (rest : List (ℕ × γ)) :
    run next s ((t, c) :: rest) = run next (step next s t c) rest := rfl

theorem run_append (s : Sys σ τ) (front back : List (ℕ × γ)) :
    run next s (front ++ back) = run next (run next s front) back := by
  induction front generalizing s with
  | nil => rfl
  | cons m front ih => exact ih (step next s m.1 m.2)

/-- Every step of the schedule is taken from a state in which `cond` holds of it. -/
def AllSteps (cond : Sys σ τ → ℕ → γ → Prop) (s : Sys σ τ) : List (ℕ × γ) → Prop
  | [] => True
  | (t, c) :: rest => cond s t c ∧ AllSteps cond (step next s t c) rest

instance decidableAllSteps {cond : Sys σ τ → ℕ → γ → Prop}
    [∀ s t c, Decidable (cond s t c)] (s : Sys σ τ) (sched : List (ℕ × γ)) :
    Decidable (AllSteps next cond s sched) :=
  match sched with
  | [] => isTrue trivial
  | (t, c) :: rest =>
      @instDecidableAnd (cond s t c) (AllSteps next cond (step next s t c) rest) _
        (decidableAllSteps (step next s t c) rest)

theorem allSteps_append (cond : Sys σ τ → ℕ → γ → Prop) (s : Sys σ τ)
    (front back : List (ℕ × γ)) :
    AllSteps next cond s (front ++ back) ↔
      AllSteps next cond s front ∧ AllSteps next cond (run next s front) back := by
  induction front generalizing s with
  | nil => simp [AllSteps]
  | cons m front ih =>
      obtain ⟨t, c⟩ := m
      simp only [List.cons_append, AllSteps, run_cons, ih, and_assoc]

theorem AllSteps.mono {next : σ → τ → γ → σ × τ} {p q : Sys σ τ → ℕ → γ → Prop}
    (hpq : ∀ s t c, p s t c → q s t c) {s : Sys σ τ} {sched : List (ℕ × γ)}
    (h : AllSteps next p s sched) : AllSteps next q s sched := by
  induction sched generalizing s with
  | nil => trivial
  | cons m rest ih => exact ⟨hpq _ _ _ h.1, ih h.2⟩

theorem AllSteps.and {next : σ → τ → γ → σ × τ} {p q : Sys σ τ → ℕ → γ → Prop}
    {s : Sys σ τ} {sched : List (ℕ × γ)} (hp : AllSteps next p s sched)
    (hq : AllSteps next q s sched) :
    AllSteps next (fun s t c => p s t c ∧ q s t c) s sched := by
  induction sched generalizing s with
  | nil => trivial
  | cons m rest ih => exact ⟨⟨hp.1, hq.1⟩, ih hp.2 hq.2⟩

/-- A condition that holds of every step from every state reached is met by every run. -/
theorem allSteps_of_forall {cond : Sys σ τ → ℕ → γ → Prop} {s : Sys σ τ}
    (h : ∀ front t c, cond (run next s front) t c) (sched : List (ℕ × γ)) :
    AllSteps next cond s sched := by
  induction sched generalizing s with
  | nil => trivial
  | cons m rest ih => exact ⟨h [] m.1 m.2, ih fun front t c => h (m :: front) t c⟩

/-- A condition that holds of each step after the steps before it. -/
theorem allSteps_of_prefix {cond : Sys σ τ → ℕ → γ → Prop} {s : Sys σ τ}
    {sched : List (ℕ × γ)} (h : ∀ front t c back, sched = front ++ (t, c) :: back →
      cond (run next s front) t c) : AllSteps next cond s sched := by
  induction sched generalizing s with
  | nil => trivial
  | cons m rest ih =>
      refine ⟨h [] m.1 m.2 rest rfl, ih fun front t c back heq => ?_⟩
      exact h (m :: front) t c back (by rw [heq, List.cons_append])

/-- What holds of every entry of a schedule holds of every step. -/
theorem allSteps_of_mem {p : ℕ → γ → Prop} (s : Sys σ τ) {sched : List (ℕ × γ)}
    (h : ∀ m ∈ sched, p m.1 m.2) : AllSteps next (fun _ t c => p t c) s sched := by
  induction sched generalizing s with
  | nil => trivial
  | cons m rest ih =>
      exact ⟨h m List.mem_cons_self, ih _ fun m hm => h m (List.mem_cons_of_mem _ hm)⟩

/-- A schedule names only finitely many threads. -/
theorem allSteps_thread_lt (s : Sys σ τ) (sched : List (ℕ × γ)) :
    ∃ n, AllSteps next (fun _ t _ => t < n) s sched := by
  induction sched generalizing s with
  | nil => exact ⟨0, trivial⟩
  | cons m rest ih =>
      obtain ⟨n, hn⟩ := ih (step next s m.1 m.2)
      refine ⟨max n (m.1 + 1), by omega, hn.mono fun _ t _ ht => ?_⟩
      omega

theorem exists_thread_bound (sched : List (ℕ × γ)) : ∃ n, ∀ m ∈ sched, m.1 < n := by
  induction sched with
  | nil => exact ⟨0, by simp⟩
  | cons m rest ih =>
      obtain ⟨n, hn⟩ := ih
      refine ⟨max n (m.1 + 1), List.forall_mem_cons.mpr ⟨by omega, ?_⟩⟩
      intro m' hm'
      have hlt := hn m' hm'
      omega

/-! ## Invariants -/

/-- What one admitted step preserves, every admitted run preserves. -/
theorem run_invariant_of {cond : Sys σ τ → ℕ → γ → Prop} {P : Sys σ τ → Prop}
    (hstep : ∀ s t c, P s → cond s t c → P (step next s t c))
    {s : Sys σ τ} {sched : List (ℕ × γ)} (hs : P s) (h : AllSteps next cond s sched) :
    P (run next s sched) := by
  induction sched generalizing s with
  | nil => exact hs
  | cons m rest ih => exact ih (hstep s m.1 m.2 hs h.1) h.2

/-- What admitted steps keep may be used to see that they are admitted otherwise too. -/
theorem AllSteps.of_invariant {next : σ → τ → γ → σ × τ} {p q : Sys σ τ → ℕ → γ → Prop}
    {P : Sys σ τ → Prop} (hstep : ∀ s t c, P s → p s t c → P (step next s t c))
    (hpq : ∀ s t c, P s → p s t c → q s t c) {s : Sys σ τ} {sched : List (ℕ × γ)} (hs : P s)
    (h : AllSteps next p s sched) : AllSteps next q s sched := by
  induction sched generalizing s with
  | nil => trivial
  | cons m rest ih => exact ⟨hpq _ _ _ hs h.1, ih (hstep _ _ _ hs h.1) h.2⟩

theorem run_invariant {P : Sys σ τ → Prop} (hstep : ∀ s t c, P s → P (step next s t c))
    {s : Sys σ τ} (sched : List (ℕ × γ)) (hs : P s) : P (run next s sched) := by
  induction sched generalizing s with
  | nil => exact hs
  | cons m rest ih => exact ih (hstep s m.1 m.2 hs)

/-- An invariant that may depend on the number of steps. -/
theorem run_invariant_counted {cond : Sys σ τ → ℕ → γ → Prop} {P : ℕ → Sys σ τ → Prop}
    (hstep : ∀ k s t c, P k s → cond s t c → P (k + 1) (step next s t c))
    {s : Sys σ τ} {sched : List (ℕ × γ)} {k : ℕ} (hs : P k s) (h : AllSteps next cond s sched) :
    P (k + sched.length) (run next s sched) := by
  induction sched generalizing s k with
  | nil => exact hs
  | cons m rest ih =>
      have hrest := ih (hstep k s m.1 m.2 hs h.1) h.2
      rwa [Nat.add_right_comm] at hrest

/-- A run that starts in `P` ends in `P`, or some step of it is the first to leave. -/
theorem run_first_exit (P : Sys σ τ → Prop) {s : Sys σ τ} (sched : List (ℕ × γ)) (hs : P s) :
    P (run next s sched) ∨
      ∃ front t c back, sched = front ++ (t, c) :: back ∧ P (run next s front) ∧
        ¬ P (step next (run next s front) t c) := by
  induction sched generalizing s with
  | nil => exact .inl hs
  | cons m rest ih =>
      obtain ⟨t, c⟩ := m
      by_cases hstep : P (step next s t c)
      · obtain hrun | ⟨front, u, d, back, rfl, hfront, hexit⟩ := ih hstep
        · exact .inl hrun
        · exact .inr ⟨(t, c) :: front, u, d, back, rfl, hfront, hexit⟩
      · exact .inr ⟨[], t, c, rest, rfl, hs, hstep⟩

@[simp] theorem step_shared (s : Sys σ τ) (t : ℕ) (c : γ) :
    (step next s t c).shared = (next s.shared (s.thread t) c).1 := rfl

@[simp] theorem step_thread_self (s : Sys σ τ) (t : ℕ) (c : γ) :
    (step next s t c).thread t = (next s.shared (s.thread t) c).2 := by
  simp [step]

theorem step_thread_of_ne (s : Sys σ τ) {t u : ℕ} (c : γ) (h : u ≠ t) :
    (step next s t c).thread u = s.thread u := by
  simp [step, Function.update_of_ne h]

/-- A thread that the schedule never names does not move. -/
theorem run_thread_of_forall_ne (s : Sys σ τ) (sched : List (ℕ × γ)) {u : ℕ}
    (h : ∀ m ∈ sched, m.1 ≠ u) : (run next s sched).thread u = s.thread u := by
  induction sched generalizing s with
  | nil => rfl
  | cons m rest ih =>
      obtain ⟨t, c⟩ := m
      rw [run_cons, ih (step next s t c) (fun m hm => h m (by simp [hm])),
        step_thread_of_ne next s c (h (t, c) (by simp)).symm]

/-- A fact about the shared store and one thread survives a step when the moving
thread establishes it and the move does not disturb it for the others. -/
theorem step_forall {A : σ → τ → Prop} {s : Sys σ τ} {t : ℕ} {c : γ}
    (hself : A (next s.shared (s.thread t) c).1 (next s.shared (s.thread t) c).2)
    (hother : ∀ u, u ≠ t → A (next s.shared (s.thread t) c).1 (s.thread u)) :
    ∀ u, A (step next s t c).shared ((step next s t c).thread u) := by
  intro u
  by_cases h : u = t
  · subst h
    simpa using hself
  · rw [step_thread_of_ne next s c h]
    exact hother u h

/-! ## One thread alone -/

/-- A thread that moves alone leads from the first to the second store and local state. -/
def Alone (x y : σ × τ) : Prop :=
  Relation.ReflTransGen (fun x y => ∃ c, next x.1 x.2 c = y) x y

theorem Alone.refl (x : σ × τ) : Alone next x x := Relation.ReflTransGen.refl

theorem Alone.trans {next : σ → τ → γ → σ × τ} {x y z : σ × τ} (hxy : Alone next x y)
    (hyz : Alone next y z) : Alone next x z :=
  Relation.ReflTransGen.trans hxy hyz

theorem alone_cons {next : σ → τ → γ → σ × τ} {x : σ} {l : τ} {y z : σ × τ} {c : γ}
    (hstep : next x l c = y) (h : Alone next y z) : Alone next (x, l) z :=
  Relation.ReflTransGen.head ⟨c, hstep⟩ h

/-- What a thread does alone is done by a schedule that names no other thread. -/
theorem exists_run_of_alone {s : Sys σ τ} {t : ℕ} {x : σ} {l : τ}
    (h : Alone next (s.shared, s.thread t) (x, l)) :
    ∃ sched : List (ℕ × γ), (∀ m ∈ sched, m.1 = t) ∧
      run next s sched = ⟨x, Function.update s.thread t l⟩ := by
  generalize hstart : (s.shared, s.thread t) = a at h
  generalize hend : (x, l) = b at h
  induction h using Relation.ReflTransGen.head_induction_on generalizing s with
  | refl =>
      cases hend.trans hstart.symm
      exact ⟨[], by simp, by simp⟩
  | head hstep _ ih =>
      obtain ⟨c, rfl⟩ := hstep
      subst hstart
      obtain ⟨sched, honly, hrun⟩ := ih (s := step next s t c) (by simp)
      refine ⟨(t, c) :: sched, by simpa using honly, ?_⟩
      rw [run_cons, hrun]
      simp [step]

/-! ## The steps of one thread -/

section Rank

variable {P : Sys σ τ → Prop} (rank : τ → ℕ) (waits : τ → γ → Bool) (k t : ℕ)

end Rank

/-! ## Sums over the threads -/

/-- A step changes a sum over the threads by what it changes for the thread that moves. -/
theorem sum_step (cost : τ → ℕ) (s : Sys σ τ) {t n : ℕ} (c : γ) (ht : t < n) :
    ∑ u ∈ Finset.range n, cost ((step next s t c).thread u) + cost (s.thread t) =
      ∑ u ∈ Finset.range n, cost (s.thread u) + cost (next s.shared (s.thread t) c).2 := by
  have hmem : t ∈ Finset.range n := Finset.mem_range.mpr ht
  have hothers : ∑ u ∈ (Finset.range n).erase t, cost ((step next s t c).thread u) =
      ∑ u ∈ (Finset.range n).erase t, cost (s.thread u) := by
    apply Finset.sum_congr rfl
    intro u hu
    rw [step_thread_of_ne next s c (Finset.ne_of_mem_erase hu)]
  have hafter := Finset.add_sum_erase (Finset.range n)
    (fun u => cost ((step next s t c).thread u)) hmem
  have hbefore := Finset.add_sum_erase (Finset.range n) (fun u => cost (s.thread u)) hmem
  simp only [step_thread_self] at hafter
  omega

/-- A meter that only rises by what the moving thread gives up of its own budget stays
below the budgets the threads started with. -/
theorem run_budget (meter : σ → ℕ) (cost : τ → ℕ)
    (hstep : ∀ x l c, meter (next x l c).1 + cost (next x l c).2 ≤ meter x + cost l)
    (s : Sys σ τ) (sched : List (ℕ × γ)) {n : ℕ} (hn : ∀ m ∈ sched, m.1 < n) :
    meter (run next s sched).shared +
        ∑ t ∈ Finset.range n, cost ((run next s sched).thread t) ≤
      meter s.shared + ∑ t ∈ Finset.range n, cost (s.thread t) := by
  induction sched generalizing s with
  | nil => exact le_rfl
  | cons m rest ih =>
      obtain ⟨t, c⟩ := m
      have hrest := ih (step next s t c) (fun m hm => hn m (by simp [hm]))
      have hmove := hstep s.shared (s.thread t) c
      have ht : t < n := hn (t, c) (by simp)
      have hsum := sum_step next cost s c ht
      simp only [step_shared] at hrest
      rw [run_cons]
      omega

/-- What the threads still owe to a meter makes up for what it lacks of the total, after any
number of steps that settle what they add to the total. -/
theorem run_balance {cond : Sys σ τ → ℕ → γ → Prop} (meter total : σ → ℕ) (owed : τ → ℕ)
    (hstep : ∀ s t c, cond s t c →
      meter (step next s t c).shared + owed ((step next s t c).thread t) + total s.shared =
        meter s.shared + owed (s.thread t) + total (step next s t c).shared)
    {s : Sys σ τ} {sched : List (ℕ × γ)} (h : AllSteps next cond s sched) {n : ℕ}
    (hn : ∀ m ∈ sched, m.1 < n) :
    meter (run next s sched).shared +
        ∑ t ∈ Finset.range n, owed ((run next s sched).thread t) + total s.shared =
      meter s.shared + ∑ t ∈ Finset.range n, owed (s.thread t) +
        total (run next s sched).shared := by
  induction sched generalizing s with
  | nil => rfl
  | cons m rest ih =>
      obtain ⟨t, c⟩ := m
      have hrest := ih h.2 (fun m hm => hn m (by simp [hm]))
      have hmove := hstep s t c h.1
      have ht : t < n := hn (t, c) (by simp)
      have hsum := sum_step next owed s c ht
      rw [step_thread_self] at hmove
      rw [run_cons]
      omega

end SystemsExperiments.Interleaving
