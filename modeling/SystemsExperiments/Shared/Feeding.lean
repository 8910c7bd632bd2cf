import SystemsExperiments.Shared.Interleaving

/-! # Threads that are given their work as they go

A thread takes its work from a list of its own. Beside each thread stands a program: once the
list is used up, the program decides from what it has seen so far what the thread has to do
next. Such a run is a run of the threads alone, on lists that hold all the work from the
start. -/

namespace SystemsExperiments.Feeding

open Interleaving

variable {σ τ γ : Type*}

/-- Threads with a list of work: work is only ever added at its end, and only a thread that is
out of work can tell whether more has been added. -/
structure Inbox (next : σ → τ → γ → σ × τ) (α : Type*) where
  feed : τ → List α → τ
  starved : τ → Bool
  feed_nil : ∀ l, feed l [] = l
  feed_feed : ∀ l xs ys, feed (feed l xs) ys = feed l (xs ++ ys)
  next_feed : ∀ s l xs c, starved l = false →
    next s (feed l xs) c = ((next s l c).1, feed (next s l c).2 xs)

variable {α κ ℓ δ : Type*} {next : σ → τ → γ → σ × τ} (inbox : Inbox next α)

/-- One step of a thread and the program beside it. -/
def drive (client : κ → ℓ → τ → δ → κ × ℓ × List α) (s : σ × κ) (p : τ × ℓ) (c : γ × δ) :
    (σ × κ) × (τ × ℓ) :=
  if inbox.starved p.1 then
    let r := client s.2 p.2 p.1 c.2
    ((s.1, r.1), (inbox.feed p.1 r.2.2, r.2.1))
  else
    let r := next s.1 p.1 c.1
    ((r.1, s.2), (r.2, p.2))

section Drive

variable {inbox} {client : κ → ℓ → τ → δ → κ × ℓ × List α} {s : σ × κ} {p : τ × ℓ} {c : γ × δ}

theorem drive_of_starved (h : inbox.starved p.1 = true) :
    drive inbox client s p c = ((s.1, (client s.2 p.2 p.1 c.2).1),
      (inbox.feed p.1 (client s.2 p.2 p.1 c.2).2.2, (client s.2 p.2 p.1 c.2).2.1)) :=
  if_pos h

theorem drive_of_work (h : inbox.starved p.1 = false) :
    drive inbox client s p c = (((next s.1 p.1 c.1).1, s.2), ((next s.1 p.1 c.1).2, p.2)) :=
  if_neg (by rw [h]; exact Bool.false_ne_true)

end Drive

/-- The threads without the programs beside them. -/
def bare (s : Sys (σ × κ) (τ × ℓ)) : Sys σ τ :=
  ⟨s.shared.1, fun t => (s.thread t).1⟩

/-- Each thread is given more work. -/
def feedAll (s : Sys σ τ) (fed : ℕ → List α) : Sys σ τ :=
  ⟨s.shared, fun t => inbox.feed (s.thread t) (fed t)⟩

theorem feedAll_nil (s : Sys σ τ) : feedAll inbox s (fun _ => []) = s := by
  simp [feedAll, inbox.feed_nil]

/-- A step of a thread that has work does not depend on the work added behind it. -/
theorem step_feedAll (s : Sys σ τ) (fed : ℕ → List α) (t : ℕ) (c : γ)
    (h : inbox.starved (s.thread t) = false) :
    step next (feedAll inbox s fed) t c = feedAll inbox (step next s t c) fed := by
  unfold step feedAll
  rw [inbox.next_feed s.shared (s.thread t) (fed t) c h]
  congr 1
  funext u
  by_cases hu : u = t
  · subst hu
    simp
  · simp [Function.update_of_ne hu]

variable (client : κ → ℓ → τ → δ → κ × ℓ × List α)

theorem bare_step_of_work (s : Sys (σ × κ) (τ × ℓ)) (t : ℕ) (c : γ × δ)
    (h : inbox.starved (s.thread t).1 = false) :
    bare (step (drive inbox client) s t c) = step next (bare s) t c.1 := by
  simp only [bare, step, drive_of_work h]
  congr 1
  funext u
  by_cases hu : u = t
  · subst hu
    simp
  · simp [Function.update_of_ne hu]

/-- What a program adds to the work of its thread might as well have been there before. -/
theorem feedAll_bare_step (s : Sys (σ × κ) (τ × ℓ)) (fed : ℕ → List α) (t : ℕ) (c : γ × δ)
    (h : inbox.starved (s.thread t).1 = true) :
    feedAll inbox (bare (step (drive inbox client) s t c)) fed =
      feedAll inbox (bare s)
        (Function.update fed t
          ((client s.shared.2 (s.thread t).2 (s.thread t).1 c.2).2.2 ++ fed t)) := by
  simp only [feedAll, bare, step, drive_of_starved h]
  congr 1
  funext u
  by_cases hu : u = t
  · subst hu
    simp [inbox.feed_feed]
  · simp [Function.update_of_ne hu]

/-- Whatever the programs decide on the way, the threads take the steps they would take if
all their work had been given to them at the start. Work is given only to threads that move
and only as some program decided it. -/
theorem bare_run_drive (P : ℕ → α → Prop) (Q : Sys (σ × κ) (τ × ℓ) → Prop)
    (hstep : ∀ s t c, Q s → Q (step (drive inbox client) s t c))
    (hfed : ∀ s t c, Q s → inbox.starved (s.thread t).1 = true →
      ∀ a ∈ (client s.shared.2 (s.thread t).2 (s.thread t).1 c).2.2, P t a)
    (s : Sys (σ × κ) (τ × ℓ)) (hs : Q s) (sched : List (ℕ × (γ × δ))) :
    ∃ (fed : ℕ → List α) (sched' : List (ℕ × γ)),
      run next (feedAll inbox (bare s) fed) sched' =
        bare (run (drive inbox client) s sched) ∧
      (∀ t, ∀ a ∈ fed t, P t a) ∧
      ∀ t, (∀ m ∈ sched, m.1 ≠ t) → fed t = [] := by
  induction sched generalizing s with
  | nil =>
      refine ⟨fun _ => [], [], ?_, by simp, by simp⟩
      rw [feedAll_nil]
      rfl
  | cons m rest ih =>
      obtain ⟨t, c⟩ := m
      obtain ⟨fed, sched', hrun, hP, hidle⟩ :=
        ih (step (drive inbox client) s t c) (hstep s t c hs)
      cases hstarved : inbox.starved (s.thread t).1 with
      | false =>
          refine ⟨fed, (t, c.1) :: sched', ?_, hP, ?_⟩
          · rw [run_cons, run_cons, step_feedAll inbox (bare s) fed t c.1 hstarved,
              ← bare_step_of_work inbox client s t c hstarved]
            exact hrun
          · intro u hu
            exact hidle u fun m hm => hu m (List.mem_cons_of_mem _ hm)
      | true =>
          refine ⟨Function.update fed t
            ((client s.shared.2 (s.thread t).2 (s.thread t).1 c.2).2.2 ++ fed t), sched',
            ?_, ?_, ?_⟩
          · rw [run_cons, ← feedAll_bare_step inbox client s fed t c hstarved]
            exact hrun
          · intro u a ha
            by_cases hu : u = t
            · subst hu
              rw [Function.update_self] at ha
              rcases List.mem_append.mp ha with hnew | hold
              · exact hfed s u c.2 hs hstarved a hnew
              · exact hP u a hold
            · rw [Function.update_of_ne hu] at ha
              exact hP u a ha
          · intro u hu
            have hne : u ≠ t := fun h => hu (t, c) List.mem_cons_self h.symm
            rw [Function.update_of_ne hne]
            exact hidle u fun m hm => hu m (List.mem_cons_of_mem _ hm)

end SystemsExperiments.Feeding
