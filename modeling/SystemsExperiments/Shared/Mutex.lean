import SystemsExperiments.Shared.Interleaving

/-! # A lock flag guarded by compare-exchange

The flag says that some thread is inside; which thread is inside is a property of its
local state. A step may acquire the free flag, walk out and set the flag to anything, or
leave flag and membership alone. A walk out that keeps the flag up leaks the lock. -/

namespace SystemsExperiments.Mutex

open Interleaving

/-- How one step of a thread changes the flag and its own membership. -/
inductive Move : Bool → Prop → Bool → Prop → Prop where
  | acquire {inside inside' : Prop} (hout : ¬ inside) (hin : inside') :
      Move false inside true inside'
  | leave {flag flag' : Bool} {inside inside' : Prop} (hin : inside) (hout : ¬ inside') :
      Move flag inside flag' inside'
  | keep {flag : Bool} {inside inside' : Prop} (h : inside' ↔ inside) :
      Move flag inside flag inside'

variable {σ τ γ : Type*} {next : σ → τ → γ → σ × τ}
variable (flag : σ → Bool) (inside : τ → Prop)

/-- At most one thread is inside, and the flag is up while one is. -/
structure Exclusive (s : Sys σ τ) : Prop where
  unique : ∀ t u, inside (s.thread t) → inside (s.thread u) → t = u
  flag_of_inside : ∀ t, inside (s.thread t) → flag s.shared = true

/-- The flag is up exactly when one thread is inside. -/
def Tight (s : Sys σ τ) : Prop :=
  flag s.shared = true ↔ ∃! t, inside (s.thread t)

variable {flag inside}

theorem Exclusive.flag_eq_false {s : Sys σ τ} (h : Exclusive flag inside s)
    (hf : flag s.shared = false) (t : ℕ) : ¬ inside (s.thread t) := by
  intro ht
  simp [h.flag_of_inside t ht] at hf

/-- While one thread is inside, another thread's step leaves the flag and its own
membership alone. -/
theorem Exclusive.keep_of_other {s : Sys σ τ} (h : Exclusive flag inside s) {t u : ℕ}
    (hu : inside (s.thread u)) (hne : u ≠ t) : ¬ inside (s.thread t) := by
  intro ht
  exact hne (h.unique u t hu ht)

/-- Every move, the leaking one included, keeps the threads apart. -/
theorem Exclusive.step {s : Sys σ τ} {t : ℕ} {c : γ} (h : Exclusive flag inside s)
    (hmove : Move (flag s.shared) (inside (s.thread t))
      (flag (step next s t c).shared) (inside ((step next s t c).thread t))) :
    Exclusive flag inside (step next s t c) := by
  have hother : ∀ u, u ≠ t → (inside ((Interleaving.step next s t c).thread u) ↔
      inside (s.thread u)) := fun u hu => by rw [step_thread_of_ne next s c hu]
  generalize hf : flag s.shared = f at hmove
  generalize hf' : flag (Interleaving.step next s t c).shared = f' at hmove
  generalize hi : inside (s.thread t) = i at hmove
  generalize hi' : inside ((Interleaving.step next s t c).thread t) = i' at hmove
  cases hmove with
  | acquire hout hin =>
      have hnone := h.flag_eq_false hf
      have honly : ∀ u, inside ((Interleaving.step next s t c).thread u) → u = t := by
        intro u hu
        by_contra hne
        exact hnone u ((hother u hne).mp hu)
      exact ⟨fun a b ha hb => (honly a ha).trans (honly b hb).symm, fun _ _ => hf'⟩
  | leave hin hout =>
      have hnone : ∀ u, ¬ inside ((Interleaving.step next s t c).thread u) := by
        intro u hu
        by_cases hne : u = t
        · subst hne
          exact hout (hi' ▸ hu)
        · exact hne (h.unique u t ((hother u hne).mp hu) (hi ▸ hin))
      exact ⟨fun a b ha _ => (hnone a ha).elim, fun a ha => (hnone a ha).elim⟩
  | keep hiff =>
      have hsame : ∀ u, inside ((Interleaving.step next s t c).thread u) ↔
          inside (s.thread u) := by
        intro u
        by_cases hne : u = t
        · subst hne
          rw [hi, hi', hiff]
        · exact hother u hne
      refine ⟨fun a b ha hb => h.unique a b ((hsame a).mp ha) ((hsame b).mp hb), ?_⟩
      intro a ha
      rw [hf', ← hf]
      exact h.flag_of_inside a ((hsame a).mp ha)

/-- Without a leak the flag stays tied to the one thread inside. -/
theorem Tight.step {s : Sys σ τ} {t : ℕ} {c : γ} (hx : Exclusive flag inside s)
    (h : Tight flag inside s)
    (hmove : Move (flag s.shared) (inside (s.thread t))
      (flag (step next s t c).shared) (inside ((step next s t c).thread t)))
    (hleak : inside (s.thread t) → ¬ inside ((step next s t c).thread t) →
      flag (step next s t c).shared = false) :
    Tight flag inside (step next s t c) := by
  have hx' := hx.step hmove
  refine ⟨?_, fun ⟨u, hu, _⟩ => hx'.flag_of_inside u hu⟩
  intro hflag
  by_cases hin : inside ((Interleaving.step next s t c).thread t)
  · exact ⟨t, hin, fun u hu => hx'.unique u t hu hin⟩
  · by_cases hwas : inside (s.thread t)
    · rw [hleak hwas hin] at hflag
      cases hflag
    · have hflag0 : flag s.shared = true := by
        generalize hf : flag s.shared = f at hmove ⊢
        generalize flag (Interleaving.step next s t c).shared = f' at hmove hflag
        cases hmove with
        | acquire _ h' => exact (hin h').elim
        | leave h' _ => exact (hwas h').elim
        | keep _ => exact hflag
      obtain ⟨u, hu, _⟩ := h.mp hflag0
      have hne : u ≠ t := by
        rintro rfl
        exact hwas hu
      have hu' : inside ((Interleaving.step next s t c).thread u) := by
        rw [step_thread_of_ne next s c hne]
        exact hu
      exact ⟨u, hu', fun v hv => hx'.unique v u hv hu'⟩

/-! ## What the lock protects -/

variable (inside)

/-- A fact about the store that holds while nobody is inside, and what the one thread
inside knows in its place. -/
structure Guards (free : σ → Prop) (held : σ → τ → Prop) (s : Sys σ τ) : Prop where
  free : (∀ t, ¬ inside (s.thread t)) → free s.shared
  held : ∀ t, inside (s.thread t) → held s.shared (s.thread t)

variable {inside} {free : σ → Prop} {held : σ → τ → Prop}

/-- The rule for a lock invariant: threads outside leave it alone, the thread that enters
takes it over and the thread that leaves hands it back. -/
theorem Guards.step {s : Sys σ τ} {t : ℕ} {c : γ} (h : Guards inside free held s)
    (hx : Exclusive flag inside s)
    (hmove : Move (flag s.shared) (inside (s.thread t))
      (flag (step next s t c).shared) (inside ((step next s t c).thread t)))
    (hfree : ¬ inside (s.thread t) → free s.shared → free (step next s t c).shared)
    (hheld : ∀ u, ¬ inside (s.thread t) → held s.shared (s.thread u) →
      held (step next s t c).shared (s.thread u))
    (henter : ¬ inside (s.thread t) → inside ((step next s t c).thread t) →
      free s.shared → held (step next s t c).shared ((step next s t c).thread t))
    (hstay : inside (s.thread t) → held s.shared (s.thread t) →
      inside ((step next s t c).thread t) →
      held (step next s t c).shared ((step next s t c).thread t))
    (hleave : inside (s.thread t) → held s.shared (s.thread t) →
      ¬ inside ((step next s t c).thread t) → free (step next s t c).shared) :
    Guards inside free held (step next s t c) := by
  have hother : ∀ u, u ≠ t → (Interleaving.step next s t c).thread u = s.thread u :=
    fun u hu => step_thread_of_ne next s c hu
  refine ⟨fun hnone => ?_, fun u hu => ?_⟩
  · by_cases hin : inside (s.thread t)
    · exact hleave hin (h.held t hin) (hnone t)
    · refine hfree hin (h.free fun u hu => ?_)
      by_cases hut : u = t
      · subst hut
        exact hin hu
      · exact hnone u (by rwa [hother u hut])
  · by_cases hut : u = t
    · subst hut
      by_cases hin : inside (s.thread u)
      · exact hstay hin (h.held u hin) hu
      · -- the only way in is through the free flag
        have hflag : flag s.shared = false := by
          generalize flag s.shared = f at hmove ⊢
          generalize flag (Interleaving.step next s u c).shared = f' at hmove
          cases hmove with
          | acquire _ _ => rfl
          | leave h' _ => exact (hin h').elim
          | keep h' => exact (hin (h'.mp hu)).elim
        exact henter hin hu (h.free (hx.flag_eq_false hflag))
    · rw [hother u hut] at hu ⊢
      refine hheld u (fun hin => ?_) (h.held u hu)
      exact hut (hx.unique u t hu hin)

end SystemsExperiments.Mutex
