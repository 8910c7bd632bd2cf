import SystemsExperiments.Verification.Mmlog.ExpandLock

/-! # A panicked log stops growing

The thread that sets the panic flag holds the lock, so nobody else is past the panic check
when it does. From then on every holder of the lock turns back at that check, and a
checkout that needs a larger file can only wait until its time is up. -/

namespace SystemsExperiments.Mmlog

open Interleaving

/-! ## Inside `mmlog_checkout` -/

/-- What a call returns when its `mmlog_checkout` returns `LOG_CURSOR_INVALID`. -/
def Pc.invalidReturn? : Pc → Option (Call × Value)
  | .checkout h size _ => some (.checkout (some h) size, .cursor logCursorInvalid)
  | .insertCheckout h data _ => some (.insert (some h) (some data), .bool false)
  | _ => none

/-- A checkout that goes on stays in its call; one that ends with the sentinel returns it. -/
theorem threadStep_checkout_next {s : Log} {th : Thread} {o : Outcome} {size : ℕ}
    {pc : CheckoutPc} {r : Call × Value} (hpc : th.pc.checkout? = some (size, pc))
    (hr : th.pc.invalidReturn? = some r) :
    (∀ pc', (mmlogCheckout size s.metadata s.file th.errno o pc).2.2.2 = .goto pc' →
        (threadStep s th o).2.pc.checkout? = some (size, pc') ∧
          (threadStep s th o).2.pc.invalidReturn? = some r ∧
          (threadStep s th o).2.results = th.results) ∧
      ((mmlogCheckout size s.metadata s.file th.errno o pc).2.2.2 = .done logCursorInvalid →
        (threadStep s th o).2.results = th.results ++ [r]) := by
  obtain ⟨p, errno, todo, results⟩ := th
  cases p with
  | checkout h n pc' =>
      cases hpc
      cases hr
      constructor
      · intro pc' hgoto
        simp only [threadStep, hgoto]
        exact ⟨rfl, rfl, rfl⟩
      · intro hdone
        simp only [threadStep, hdone]
        rfl
  | insertCheckout h data pc' =>
      cases hpc
      cases hr
      constructor
      · intro pc' hgoto
        simp only [threadStep, hgoto]
        exact ⟨rfl, rfl, rfl⟩
      · intro hdone
        simp only [threadStep, hdone, if_true]
        rfl
  | _ => cases hpc

/-! ## The lock of a panicked log -/

/-- The points that a thread can be at while the log is panicked: none of them leads to a
truncation or to a store of the size. -/
def ExpandPc.turnsBack : ExpandPc → Prop
  | .tryLock | .retry | .loadPanicked | .unlockPanicked | .checkPanicked => True
  | .loadSize | .ftruncate _ | .storePanicked | .storeSize _ | .unlock => False

theorem ExpandPc.turnsBack_of_not_holdsLock {pc : ExpandPc} (h : ¬ pc.holdsLock) :
    pc.turnsBack := by
  cases pc with
  | tryLock => trivial
  | retry => trivial
  | checkPanicked => trivial
  | _ => exact (h trivial).elim

theorem dataFileExpand_turnsBack (e : ℕ) {m : LogMetadata} (f : DataFile) (errno : MmlogErr)
    (o : Outcome) {pc : ExpandPc} (hpanic : m.isPanicked = true) (hpc : pc.turnsBack) :
    (dataFileExpand e m f errno o pc).1.fileSize = m.fileSize ∧
      (dataFileExpand e m f errno o pc).2.1 = f ∧
      ∀ pc', (dataFileExpand e m f errno o pc).2.2.2 = .goto pc' → pc'.turnsBack := by
  cases pc with
  | tryLock =>
      simp only [dataFileExpand]
      split
      · refine ⟨rfl, rfl, ?_⟩
        rintro _ ⟨⟩
        trivial
      · refine ⟨rfl, rfl, ?_⟩
        rintro _ ⟨⟩
        trivial
  | retry =>
      cases o with
      | succeed =>
          refine ⟨rfl, rfl, ?_⟩
          rintro _ ⟨⟩
          trivial
      | fail =>
          refine ⟨rfl, rfl, ?_⟩
          rintro _ ⟨⟩
      | short n =>
          refine ⟨rfl, rfl, ?_⟩
          rintro _ ⟨⟩
  | loadPanicked =>
      simp only [dataFileExpand, hpanic, if_true]
      refine ⟨trivial, trivial, ?_⟩
      rintro _ ⟨⟩
      trivial
  | unlockPanicked =>
      refine ⟨rfl, rfl, ?_⟩
      rintro _ ⟨⟩
      trivial
  | checkPanicked =>
      refine ⟨rfl, rfl, ?_⟩
      rintro _ ⟨⟩
  | loadSize => exact hpc.elim
  | ftruncate n => exact hpc.elim
  | storePanicked => exact hpc.elim
  | storeSize n => exact hpc.elim
  | unlock => exact hpc.elim

/-- While the log is panicked no thread is between the panic check and its release. -/
structure PanicStops (s : System) : Prop where
  exclusive : ExpandExclusive s
  turnsBack : s.shared.metadata.isPanicked = true →
    ∀ t e pc, (s.thread t).pc.expand? = some (e, pc) → pc.turnsBack

theorem panicStops_initial (cfg : Config) (programs : List (List Call)) :
    PanicStops (initial cfg programs) := by
  refine ⟨expandExclusive_initial cfg programs, ?_⟩
  intro h
  cases h

/-- A step of a thread in a panicked log leaves the flag, the recorded size and, inside
`mmlog_checkout`, the file as they are. -/
theorem PanicStops.frame {s : System} (h : PanicStops s)
    (hpanic : s.shared.metadata.isPanicked = true) (t : ℕ) (o : Outcome) :
    (step threadStep s t o).shared.metadata.isPanicked = true ∧
      (step threadStep s t o).shared.metadata.fileSize = s.shared.metadata.fileSize ∧
      ((s.thread t).pc.checkout? ≠ none →
        (step threadStep s t o).shared.file = s.shared.file) := by
  rw [step_shared]
  refine ⟨?_, ?_, ?_⟩
  · rcases threadStep_isPanicked s.shared (s.thread t) o with hsame | ⟨-, htrue⟩
    · rw [hsame, hpanic]
    · exact htrue
  · cases hpc : (s.thread t).pc.expand? with
    | none => rw [(threadStep_outside hpc).1]
    | some p =>
        rw [(threadStep_expand hpc).1]
        exact (dataFileExpand_turnsBack _ _ _ _ hpanic (h.turnsBack hpanic t p.1 p.2 hpc)).1
  · intro hin
    obtain ⟨⟨size, pc⟩, hpc⟩ := Option.ne_none_iff_exists'.mp hin
    rw [threadStep_checkout hpc]
    cases pc with
    | fetchAdd => rfl
    | loadSize start =>
        simp only [mmlogCheckout]
        split <;> rfl
    | expand start epc =>
        have hback := h.turnsBack hpanic t _ _ (expand?_of_checkout? hpc)
        exact (dataFileExpand_turnsBack _ _ _ _ hpanic hback).2.1

theorem panicStops_step (s : System) (t : ℕ) (o : Outcome) (h : PanicStops s) :
    PanicStops (step threadStep s t o) := by
  refine ⟨expandExclusive_step s t o h.exclusive, ?_⟩
  intro hpanic' u e pc hpc
  by_cases hpanic : s.shared.metadata.isPanicked = true
  · by_cases hut : u = t
    · subst hut
      rw [step_thread_self] at hpc
      by_cases hfirst : pc = .tryLock
      · rw [hfirst]
        trivial
      · obtain ⟨pc', hwas, hnext⟩ := exists_of_expand hpc hfirst
        have hback := dataFileExpand_turnsBack e s.shared.file (s.thread u).errno o hpanic
          (h.turnsBack hpanic u e pc' hwas)
        exact hback.2.2 pc hnext
    · rw [step_thread_of_ne threadStep s o hut] at hpc
      exact h.turnsBack hpanic u e pc hpc
  · -- the mover has just set the flag, so it holds the lock and nobody else does
    rw [step_shared] at hpanic'
    rcases threadStep_isPanicked s.shared (s.thread t) o with hsame | ⟨⟨e', hstore⟩, -⟩
    · exact (hpanic (hsame.symm.trans hpanic')).elim
    · by_cases hut : u = t
      · subst hut
        rw [step_thread_self, (threadStep_expand hstore).2.1] at hpc
        cases hpc
        trivial
      · rw [step_thread_of_ne threadStep s o hut] at hpc
        apply ExpandPc.turnsBack_of_not_holdsLock
        intro hin
        exact hut (h.exclusive.unique u t ⟨e, pc, hpc, hin⟩ ⟨e', _, hstore, trivial⟩)

/-! ## A checkout that needs a larger file -/

/-- The points of a checkout of `size` bytes that has reserved a range beyond the file of a
panicked log. -/
def CheckoutPc.Doomed (fileSize size : ℕ) : CheckoutPc → Prop
  | .fetchAdd => False
  | .loadSize start => fileSize < endOffset start size
  | .expand _ pc => pc = .tryLock ∨ pc = .loadPanicked ∨ pc = .retry

/-- How many steps a doomed checkout has left once its time is up. -/
def CheckoutPc.stepsLeft : CheckoutPc → ℕ
  | .loadSize _ => 4
  | .expand _ .tryLock => 3
  | .expand _ .loadPanicked => 2
  | _ => 1

theorem CheckoutPc.stepsLeft_pos (pc : CheckoutPc) : 0 < pc.stepsLeft := by
  unfold CheckoutPc.stepsLeft
  split <;> decide

theorem CheckoutPc.stepsLeft_le (pc : CheckoutPc) : pc.stepsLeft ≤ 4 := by
  unfold CheckoutPc.stepsLeft
  split <;> decide

theorem mmlogCheckout_doomed {size : ℕ} {m : LogMetadata} (f : DataFile) (errno : MmlogErr)
    (o : Outcome) {pc : CheckoutPc} (hpanic : m.isPanicked = true)
    (h : pc.Doomed m.fileSize size) :
    (∃ pc', (mmlogCheckout size m f errno o pc).2.2.2 = .goto pc' ∧
        pc'.Doomed m.fileSize size ∧ (o = .fail → pc'.stepsLeft < pc.stepsLeft)) ∨
      (mmlogCheckout size m f errno o pc).2.2.2 = .done logCursorInvalid := by
  cases pc with
  | fetchAdd => exact h.elim
  | loadSize start =>
      have hend : endOffset start size > m.fileSize := h
      simp only [mmlogCheckout, if_pos hend]
      exact .inl ⟨_, rfl, .inl rfl, fun _ => by simp [CheckoutPc.stepsLeft]⟩
  | expand start epc =>
      obtain rfl | rfl | rfl := h
      · cases hlock : m.isLocked with
        | true =>
            simp only [mmlogCheckout, dataFileExpand, hlock, if_true]
            exact .inl ⟨_, rfl, .inr (.inr rfl), fun _ => by simp [CheckoutPc.stepsLeft]⟩
        | false =>
            simp only [mmlogCheckout, dataFileExpand, hlock]
            exact .inl ⟨_, rfl, .inr (.inl rfl), fun _ => by simp [CheckoutPc.stepsLeft]⟩
      · simp only [mmlogCheckout, dataFileExpand, hpanic, if_true]
        exact .inl ⟨_, rfl, .inr (.inr rfl), fun _ => by simp [CheckoutPc.stepsLeft]⟩
      · cases o with
        | succeed => exact .inl ⟨_, rfl, .inl rfl, fun h => by cases h⟩
        | fail => exact .inr rfl
        | short n => exact .inr rfl

/-- A call whose checkout is doomed waits, or has returned `r` after the results `base`. -/
inductive Doomed (r : Call × Value) (base : List (Call × Value)) (s : Log) (th : Thread) :
    Prop where
  | waiting {size : ℕ} {pc : CheckoutPc} (hpc : th.pc.checkout? = some (size, pc))
      (hr : th.pc.invalidReturn? = some r) (hbase : th.results = base)
      (hdoom : pc.Doomed s.metadata.fileSize size) : Doomed r base s th
  | returned (h : base ++ [r] <+: th.results) : Doomed r base s th

variable {r : Call × Value} {base : List (Call × Value)}

/-- One step of the doomed thread itself. With its time up it comes closer to its return. -/
theorem threadStep_doomed {s : Log} {th : Thread} {size : ℕ} {pc : CheckoutPc} (o : Outcome)
    (hpanic : s.metadata.isPanicked = true) (hpc : th.pc.checkout? = some (size, pc))
    (hr : th.pc.invalidReturn? = some r) (hdoom : pc.Doomed s.metadata.fileSize size) :
    (∃ pc', (threadStep s th o).2.pc.checkout? = some (size, pc') ∧
        (threadStep s th o).2.pc.invalidReturn? = some r ∧
        (threadStep s th o).2.results = th.results ∧
        pc'.Doomed s.metadata.fileSize size ∧ (o = .fail → pc'.stepsLeft < pc.stepsLeft)) ∨
      (threadStep s th o).2.results = th.results ++ [r] := by
  obtain ⟨hgoto, hdone⟩ := threadStep_checkout_next (s := s) (o := o) hpc hr
  rcases mmlogCheckout_doomed s.file th.errno o hpanic hdoom with
    ⟨pc', hnext, hdoom', hless⟩ | hnext
  · obtain ⟨hpc', hr', hsame⟩ := hgoto pc' hnext
    exact .inl ⟨pc', hpc', hr', hsame, hdoom', hless⟩
  · exact .inr (hdone hnext)

theorem doomed_step {s : System} {t : ℕ} (u : ℕ) (o : Outcome) (hstop : PanicStops s)
    (hpanic : s.shared.metadata.isPanicked = true)
    (h : Doomed r base s.shared (s.thread t)) :
    Doomed r base (step threadStep s u o).shared ((step threadStep s u o).thread t) := by
  have hsize := (hstop.frame hpanic u o).2.1
  cases h with
  | @waiting size pc hpc hr hbase hdoom =>
      by_cases htu : t = u
      · subst htu
        rw [step_thread_self]
        rcases threadStep_doomed o hpanic hpc hr hdoom with
          ⟨pc', hpc', hr', hsame, hdoom', -⟩ | hret
        · rw [← hsize] at hdoom'
          exact .waiting hpc' hr' (hsame.trans hbase) hdoom'
        · refine .returned ?_
          rw [hret, hbase]
      · rw [step_thread_of_ne threadStep s o htu]
        rw [← hsize] at hdoom
        exact .waiting hpc hr hbase hdoom
  | returned h =>
      by_cases htu : t = u
      · subst htu
        rw [step_thread_self]
        exact .returned (h.trans (threadStep_results s.shared (s.thread t) o))
      · rw [step_thread_of_ne threadStep s o htu]
        exact .returned h

/-- What a panic fixes for the rest of the run. -/
structure Panicked (fileSize : ℕ) (s : System) : Prop where
  stops : PanicStops s
  flag : s.shared.metadata.isPanicked = true
  size : s.shared.metadata.fileSize = fileSize

theorem panicked_step {fileSize : ℕ} (s : System) (t : ℕ) (o : Outcome)
    (h : Panicked fileSize s) : Panicked fileSize (step threadStep s t o) := by
  obtain ⟨hflag, hsize, -⟩ := h.stops.frame h.flag t o
  exact ⟨panicStops_step s t o h.stops, hflag, hsize.trans h.size⟩

theorem doomed_run {fileSize : ℕ} {s : System} {t : ℕ} (hs : Panicked fileSize s)
    (h : Doomed r base s.shared (s.thread t)) (sched : Schedule) :
    Doomed r base (run threadStep s sched).shared ((run threadStep s sched).thread t) := by
  have hrun := run_invariant threadStep
    (P := fun s => Panicked fileSize s ∧ Doomed r base s.shared (s.thread t)) ?_ sched ⟨hs, h⟩
  · exact hrun.2
  · rintro s u o ⟨hs, h⟩
    exact ⟨panicked_step s u o hs, doomed_step u o hs.stops hs.flag h⟩

theorem run_results (s : System) (sched : Schedule) (t : ℕ) :
    (s.thread t).results <+: ((run threadStep s sched).thread t).results := by
  refine run_invariant threadStep
    (P := fun s' => (s.thread t).results <+: (s'.thread t).results) ?_ sched List.prefix_rfl
  intro s' u o h
  by_cases htu : t = u
  · subst htu
    rw [step_thread_self]
    exact h.trans (threadStep_results s'.shared (s'.thread t) o)
  · rw [step_thread_of_ne threadStep s' o htu]
    exact h

/-- Once its time is up, a doomed call returns within its own next steps. -/
theorem doomed_returns {fileSize n size : ℕ} {s : System} {t : ℕ} {pc : CheckoutPc}
    (hs : Panicked fileSize s) (hpc : (s.thread t).pc.checkout? = some (size, pc))
    (hr : (s.thread t).pc.invalidReturn? = some r)
    (hdoom : pc.Doomed s.shared.metadata.fileSize size) (hn : pc.stepsLeft ≤ n) :
    (s.thread t).results ++ [r] <+:
      ((run threadStep s (List.replicate n (t, .fail))).thread t).results := by
  induction n generalizing s pc with
  | zero =>
      have hpos := pc.stepsLeft_pos
      omega
  | succ n ih =>
      rw [List.replicate_succ, run_cons]
      have hsize := (hs.stops.frame hs.flag t .fail).2.1
      rcases threadStep_doomed .fail hs.flag hpc hr hdoom with
        ⟨pc', hpc', hr', hsame, hdoom', hless⟩ | hret
      · rw [← step_thread_self] at hpc' hr' hsame
        rw [← hsize] at hdoom'
        rw [← hsame]
        have hlt := hless rfl
        exact ih (panicked_step s t .fail hs) hpc' hr' hdoom' (by omega)
      · rw [← step_thread_self] at hret
        rw [← hret]
        exact run_results _ _ t

theorem panicked_reached {cfg : Config} {programs : List (List Call)} {sched : Schedule}
    (h : (reached cfg programs sched).shared.metadata.isPanicked = true) :
    Panicked (reached cfg programs sched).shared.metadata.fileSize
      (reached cfg programs sched) :=
  ⟨run_invariant threadStep panicStops_step sched (panicStops_initial cfg programs), h, rfl⟩

/-- The reservation of a range that ends beyond the recorded size dooms the call. -/
theorem doomed_reserve {fileSize size : ℕ} {s : System} {t : ℕ} {o : Outcome}
    (hs : Panicked fileSize s) (hpc : (s.thread t).pc.checkout? = some (size, .fetchAdd))
    (hr : (s.thread t).pc.invalidReturn? = some r)
    (hend : s.shared.metadata.fileSize < endOffset s.shared.metadata.cursor size) :
    Doomed r (s.thread t).results (step threadStep s t o).shared
      ((step threadStep s t o).thread t) := by
  have hsize := (hs.stops.frame hs.flag t o).2.1
  obtain ⟨hgoto, -⟩ := threadStep_checkout_next (s := s.shared) (o := o) hpc hr
  obtain ⟨hpc', hr', hsame⟩ := hgoto (.loadSize s.shared.metadata.cursor) rfl
  rw [← step_thread_self] at hpc' hr' hsame
  rw [← hsize] at hend
  exact .waiting hpc' hr' hsame hend

/-- Once the log has panicked, the flag stays up and the recorded size stays as it is;
nobody inside `mmlog_checkout` changes the file; and a call that then reserves a range
ending beyond the recorded size goes on waiting or returns `LOG_CURSOR_INVALID`, which it
does at the latest four steps after its time is up. -/
theorem panic_failStop (cfg : Config) (programs : List (List Call)) (front : Schedule)
    (hpanic : (reached cfg programs front).shared.metadata.isPanicked = true) :
    (∀ back, (reached cfg programs (front ++ back)).shared.metadata.isPanicked = true ∧
      (reached cfg programs (front ++ back)).shared.metadata.fileSize =
        (reached cfg programs front).shared.metadata.fileSize ∧
      ∀ t o, ((reached cfg programs (front ++ back)).thread t).pc.checkout? ≠ none →
        (step threadStep (reached cfg programs (front ++ back)) t o).shared.file =
          (reached cfg programs (front ++ back)).shared.file) ∧
    ∀ t o size r,
      ((reached cfg programs front).thread t).pc.checkout? = some (size, .fetchAdd) →
      ((reached cfg programs front).thread t).pc.invalidReturn? = some r →
      (reached cfg programs front).shared.metadata.fileSize <
        endOffset (reached cfg programs front).shared.metadata.cursor size →
      ∀ back, let s := reached cfg programs (front ++ (t, o) :: back)
        ((reached cfg programs front).thread t).results ++ [r] <+: (s.thread t).results ∨
          ((reached cfg programs front).thread t).results = (s.thread t).results ∧
            ((reached cfg programs front).thread t).results ++ [r] <+:
              ((run threadStep s (List.replicate 4 (t, .fail))).thread t).results := by
  have hs := panicked_reached hpanic
  constructor
  · intro back
    have hback : Panicked (reached cfg programs front).shared.metadata.fileSize
        (reached cfg programs (front ++ back)) := by
      have happend : reached cfg programs (front ++ back) =
          run threadStep (reached cfg programs front) back := run_append ..
      rw [happend]
      exact run_invariant threadStep panicked_step back hs
    refine ⟨hback.flag, hback.size, ?_⟩
    intro t o hin
    exact (hback.stops.frame hback.flag t o).2.2 hin
  · intro t o size r hpc hr hend back
    have hdoom := doomed_reserve (o := o) hs hpc hr hend
    have hfirst := panicked_step _ t o hs
    simp only [reached, run_append, run_cons]
    have hlater := doomed_run hfirst hdoom back
    have hstill := run_invariant threadStep panicked_step back hfirst
    cases hlater with
    | waiting hpc' hr' hbase hdoom' =>
        refine .inr ⟨hbase.symm, ?_⟩
        have hret := doomed_returns hstill hpc' hr' hdoom' (CheckoutPc.stepsLeft_le _)
        rw [hbase] at hret
        exact hret
    | returned h => exact .inl h

/-- The second checkout of a thread whose first one failed to grow the file is refused. -/
theorem panic_failStop_second_checkout :
    (reached Config.least [[.checkout (some 0) 5000, .checkout (some 0) 1]]
        (leakSchedule.take 11)).shared.metadata.isPanicked = true ∧
      [(.checkout (some 0) 5000, .cursor logCursorInvalid),
          (.checkout (some 0) 1, .cursor logCursorInvalid)] <+:
        ((run threadStep (reached Config.least
          [[.checkout (some 0) 5000, .checkout (some 0) 1]]
            (leakSchedule.take 11 ++ [(0, .succeed)])) (List.replicate 4 (0, .fail))).thread
              0).results := by
  have hpanic : (reached Config.least [[.checkout (some 0) 5000, .checkout (some 0) 1]]
      (leakSchedule.take 11)).shared.metadata.isPanicked = true := rfl
  have h := (panic_failStop Config.least _ _ hpanic).2 0 .succeed 1
    (.checkout (some 0) 1, .cursor logCursorInvalid) rfl rfl (by decide) []
  rcases h with h | ⟨-, h⟩
  · exact absurd h.length_le (by decide)
  · exact ⟨hpanic, h⟩

end SystemsExperiments.Mmlog
