import SystemsExperiments.Verification.SmapsSpy.Selection

/-! # The details and the highlighted row

Every handler that moves the selection moves the index of the details with it, except those
that open a table. -/

namespace SystemsExperiments.SmapsSpy

variable {filePath : List Char} {opens : Prop}

/-- The renderer leaves a selection that is in range, and that of an empty table. -/
def Move.KeepsSelection : Move filePath → Prop
  | .draw render => ∀ rows state, IsIndex state.selected rows → render rows state = state
  | _ => True

theorem Move.KeepsSelection.keepsInRange {move : Move filePath} (h : move.KeepsSelection) :
    move.KeepsInRange := by
  cases move with
  | draw render => exact fun rows i hi => h rows ⟨some i⟩ (isIndex_some hi)
  | watch disk => trivial
  | press key disk => trivial
  | clearStatus => trivial

/-- In the table of the mappings the details are those of the highlighted row. -/
def DetailsAgree (app : AppState filePath) : Prop :=
  app.viewMode = .mappings → app.selectedMapping = app.tableState.selected ∧
    ∀ disk app', pressKey app disk (.char '4') = some app' →
      detailsMapping app' = highlightedMapping app

theorem detailsAgree_iff (app : AppState filePath) :
    DetailsAgree app ↔
      (app.viewMode = .mappings → app.selectedMapping = app.tableState.selected) := by
  constructor
  · intro h hview
    exact (h hview).1
  · intro h hview
    refine ⟨h hview, ?_⟩
    intro disk app' hpress
    cases hpress
    rw [detailsMapping, highlightedMapping, ← h hview]

theorem DetailsAgree.effect {app app' : AppState filePath} (h : DetailsAgree app)
    (heffect : Effect opens app app') (hopens : opens → app.selectedMapping = some 0) :
    DetailsAgree app' := by
  rw [detailsAgree_iff] at h ⊢
  intro hview'
  cases heffect with
  | keep hstats htable hmapping hview =>
      rw [hmapping, htable]
      exact h ((hview (.inr hview')).symm.trans hview')
  | top hstats htable hmapping hview =>
      rw [hmapping, htable]
      exact hopens (hview hview')
  | load hstats htable hmapping hview => rw [hmapping, htable]
  | navigate loaded row hl htable hlt hstats hselected hmapping hview => rw [hmapping, hselected]

theorem DetailsAgree.draw {app : AppState filePath} (h : DetailsAgree app) (hrange : InRange app)
    {render : ℕ → TableState → TableState}
    (hrender : (Move.draw render : Move filePath).KeepsSelection) :
    DetailsAgree (draw app render) := by
  rcases draw_eq app render with heq | ⟨loaded, hl, htable, heq⟩
  · rwa [heq]
  · rw [heq, hrender _ _ (hrange.row loaded hl htable)]
    exact h

/-- The condition on a move: one that opens the mappings finds the details at the first. -/
def OpensAtTop (app : AppState filePath) : Move filePath → Prop
  | .press key _ => OpensMappings app key → app.selectedMapping = some 0
  | _ => True

theorem DetailsAgree.step {app app' : AppState filePath} {move : Move filePath}
    (h : DetailsAgree app) (hrange : InRange app) (hmove : move.KeepsSelection)
    (hopens : OpensAtTop app move) (hstep : step app move = some app') : DetailsAgree app' := by
  cases move with
  | draw render =>
      cases hstep
      exact h.draw hrange hmove
  | watch disk =>
      cases hstep
      have heffect : Effect False app (reload app disk) := reload_effect app disk
      exact h.effect heffect False.elim
  | press key disk => exact h.effect (pressKey_effect hstep) hopens
  | clearStatus =>
      cases hstep
      rw [detailsAgree_iff] at h ⊢
      exact h

/-- A key that opens the mappings selects the first and leaves the details as they are. -/
theorem pressKey_of_opensMappings {app : AppState filePath} {key : KeyCode}
    (h : OpensMappings app key) (disk : Disk filePath) :
    pressKey app disk key = some ({ app with viewMode := .mappings }.select 0) := by
  rcases h with rfl | ⟨rfl, hview⟩
  · rfl
  · simp [pressKey, AppState.nextView, hview]

theorem runApp_append (app : AppState filePath) (front back : List (Move filePath)) :
    runApp app (front ++ back) = (runApp app front).bind fun app' => runApp app' back := by
  induction front generalizing app with
  | nil => rfl
  | cons move front ih =>
      rw [List.cons_append, runApp, runApp, Option.bind_assoc]
      congr 1
      funext app'
      exact ih app'

theorem runApp_append_singleton (app : AppState filePath) (front : List (Move filePath))
    (move : Move filePath) :
    runApp app (front ++ [move]) = (runApp app front).bind fun app' => step app' move := by
  rw [runApp_append]
  congr 1
  funext app'
  exact Option.bind_fun_some (step app' move)

/-- In a run after the first load, the details are always those of the highlighted mapping
exactly if every key that opens the table of the mappings finds the details at the first. -/
theorem details_agree_iff (disk : Disk filePath) (start : AppState filePath)
    (moves : List (Move filePath)) (hload : loadData (AppState.new filePath) disk = .ok start)
    (hrender : ∀ move ∈ moves, move.KeepsSelection) :
    (∀ front app, front <+: moves → runApp start front = some app → DetailsAgree app) ↔
      ∀ front move app, front ++ [move] <+: moves → runApp start front = some app →
        OpensAtTop app move := by
  constructor
  · intro h front move app hfront hrun
    cases move with
    | press key d =>
        intro hopens
        have hnext : runApp start (front ++ [.press key d]) =
            some ({ app with viewMode := .mappings }.select 0) := by
          rw [runApp_append_singleton, hrun]
          exact pressKey_of_opensMappings hopens d
        exact (h _ _ hfront hnext rfl).1
    | draw render => trivial
    | watch d => trivial
    | clearStatus => trivial
  · intro h front
    induction front using List.reverseRecOn with
    | nil =>
        intro app _ hrun
        cases hrun
        obtain ⟨loaded, rfl⟩ := exists_of_loadData hload
        rw [detailsAgree_iff]
        intro _
        rfl
    | append_singleton front move ih =>
        intro app' hfront hrun
        rw [runApp_append_singleton, Option.bind_eq_some_iff] at hrun
        obtain ⟨app, hrun, hstep⟩ := hrun
        have hbefore : front <+: moves := (List.prefix_append front [move]).trans hfront
        have hmove : move.KeepsSelection := hrender move (hfront.subset (by simp))
        have hrange : InRange app := by
          apply (inRange_of_loadData hload).run _ hrun
          exact fun m hm => (hrender m (hbefore.subset hm)).keepsInRange
        exact (ih app hbefore hrun).step hrange hmove (h front move app hfront hrun) hstep

/-- Over to the mappings, then down. -/
def overAndDown : List (Move ['f']) :=
  [.press (.char '2') twoMappings, .press (.char 'j') twoMappings]

theorem details_agree_overAndDown :
    ∃ start app, loadData (AppState.new ['f']) twoMappings = .ok start ∧
      runApp start overAndDown = some app ∧ app.viewMode = .mappings ∧
      app.tableState.selected = some 1 ∧ DetailsAgree app := by
  refine ⟨_, _, rfl, rfl, rfl, rfl, ?_⟩
  have hiff := details_agree_iff twoMappings _ overAndDown rfl
    (by simp [overAndDown, Move.KeepsSelection])
  refine hiff.mpr ?_ _ _ (List.prefix_refl overAndDown) rfl
  intro front move app hfront hrun
  cases front with
  | nil =>
      cases hrun
      obtain ⟨rfl, -⟩ := List.cons_prefix_cons.mp hfront
      exact fun _ => rfl
  | cons first front =>
      have hrest := (List.cons_prefix_cons.mp hfront).2
      cases front with
      | nil =>
          obtain ⟨rfl, -⟩ := List.cons_prefix_cons.mp hrest
          intro hopens
          rcases hopens with hkey | ⟨hkey, -⟩
          · exact absurd hkey (by decide)
          · exact absurd hkey (by decide)
      | cons second front =>
          have hnil := List.prefix_nil.mp (List.cons_prefix_cons.mp hrest).2
          exact absurd hnil (by simp)

/-- The first mapping is highlighted, and the details describe the second. -/
theorem details_disagree_downAndOver :
    ∃ start app, loadData (AppState.new ['f']) twoMappings = .ok start ∧
      runApp start downAndOver = some app ∧ app.viewMode = .mappings ∧
      app.tableState.selected = some 0 ∧ app.selectedMapping = some 1 :=
  ⟨_, _, rfl, rfl, rfl, rfl, rfl⟩

end SystemsExperiments.SmapsSpy
