import SystemsExperiments.Verification.Mmlog.Client

/-! # Trimming what others have written

After the last call of all other processes one more opens the log and trims it. It then holds
what the others have put below the cursor, and nothing else. -/

namespace SystemsExperiments.Mmlog

open Interleaving

variable {κ ℓ δ : Type}

/-- A program of process `m` that trims the log once. -/
structure Trims (client : Client κ ℓ δ) (m : ℕ) (before after : ℓ) : Prop where
  trim : ∀ x d, client x before [] d = (x, after, [.trim (some m)])
  rest : ∀ x r d, client x after r d = (x, after, [])

/-- The process behind its `mmlog_open`, and the file that it finds or leaves behind. -/
inductive TrimmerAt (l : Log) (m : ℕ) (before after : ℓ) : DataFile → Thread → ℓ → Prop
  | before (errno : MmlogErr) : TrimmerAt l m before after l.file ⟨.idle, errno, [], []⟩ before
  | calls (errno : MmlogErr) :
      TrimmerAt l m before after l.file ⟨.idle, errno, [.trim (some m)], []⟩ after
  | load : TrimmerAt l m before after l.file ⟨.trimLoad m, .ok, [], []⟩ after
  | cut : TrimmerAt l m before after l.file ⟨.trimFtruncate m l.metadata.cursor, .ok, [], []⟩ after
  | trimmed (f : DataFile) (errno : MmlogErr)
      (h : errno = .ok → f = l.file.ftruncate l.metadata.cursor) :
      TrimmerAt l m before after f ⟨.idle, errno, [], [(.trim (some m), .unit)]⟩ after

section Drive

variable {client : Client κ ℓ δ} {m : ℕ} {before after : ℓ}

theorem TrimmerAt.drive {l l' : Log} {p : Thread × ℓ} (htrims : Trims client m before after)
    (h : TrimmerAt l m before after l'.file p.1 p.2) (hmeta : l'.metadata = l.metadata) (x : κ)
    (c : Outcome × δ) :
    TrimmerAt l m before after (Feeding.drive calling client.beside (l', x) p c).1.1.file
        (Feeding.drive calling client.beside (l', x) p c).2.1
        (Feeding.drive calling client.beside (l', x) p c).2.2 ∧
      (Feeding.drive calling client.beside (l', x) p c).1.1.metadata = l.metadata := by
  obtain ⟨th, v⟩ := p
  generalize hf : l'.file = f at h
  cases h with
  | before errno =>
      rw [Feeding.drive_of_starved rfl]
      simp only [Client.beside, htrims.trim]
      exact ⟨hf ▸ .calls errno, hmeta⟩
  | calls errno => exact ⟨hf ▸ .load, hmeta⟩
  | load =>
      refine ⟨?_, hmeta⟩
      change TrimmerAt l m before _ l'.file ⟨.trimFtruncate m l'.metadata.cursor, .ok, [], []⟩ _
      rw [hf, hmeta]
      exact .cut
  | cut =>
      obtain ⟨o, d⟩ := c
      cases o with
      | succeed => exact ⟨.trimmed _ _ fun _ => by rw [← hf]; rfl, hmeta⟩
      | fail => exact ⟨.trimmed _ _ nofun, hmeta⟩
      | short n => exact ⟨.trimmed _ _ nofun, hmeta⟩
  | trimmed f errno herrno =>
      subst hf
      rw [Feeding.drive_of_starved rfl]
      simp only [Client.beside, htrims.rest]
      exact ⟨.trimmed _ errno herrno, hmeta⟩

end Drive

/-- A trim that has gone well leaves what is below the cursor and nothing else. -/
theorem TrimmerAt.file_eq {l : Log} {m : ℕ} {before after v : ℓ} {f : DataFile} {th : Thread}
    (h : TrimmerAt l m before after f th v) (hcalled : th.results.isEmpty = false)
    (hok : th.errno = .ok) : f = l.file.ftruncate l.metadata.cursor := by
  cases h with
  | before errno => cases hcalled
  | calls errno => cases hcalled
  | load => cases hcalled
  | cut => cases hcalled
  | trimmed f errno herrno => exact herrno hok

theorem ftruncate_content {f : DataFile} {n : ℕ} (h : n ≤ f.len) :
    (f.ftruncate n).content (f.ftruncate n).len = f.content n := by
  apply List.map_congr_left
  intro i hi
  have hlt : i < n := List.mem_range.mp hi
  exact if_pos ⟨hlt.trans_le h, hlt⟩

section Runs

variable {filename : Option String} {client : Client κ ℓ δ} {calls : ℕ → OpenArgs}
variable {data : Option DataFile} {vars : κ} {own : ℕ → ℓ} {m : ℕ} {before after : ℓ}

variable (filename client calls data vars own m before after) in
/-- What holds while only the process that trims is left. -/
structure TrimmerInv (s₁ : Sys (Store κ) (Process ℓ)) (l : Log) (s : Sys (Store κ) (Process ℓ)) :
    Prop where
  inv : ClientInv filename client calls data vars own s
  ready : s.shared.files.isReady = true
  log : ∃ l', s.shared.log? = some l' ∧ l'.metadata = l.metadata ∧
    TrimmerAt l m before after l'.file (s.thread m).thread (s.thread m).vars
  others : ∀ t, t ≠ m → s.thread t = s₁.thread t

theorem TrimmerInv.step {s₁ s : Sys (Store κ) (Process ℓ)} {l : Log} {c : Outcome × δ}
    (htrims : Trims client m before after)
    (h : TrimmerInv filename client calls data vars own m before after s₁ l s) :
    TrimmerInv filename client calls data vars own m before after s₁ l
      (step (processStep filename client) s m c) := by
  obtain ⟨l', hlog, hmeta, hmain⟩ := h.log
  have hothers : ∀ t, t ≠ m →
      (Interleaving.step (processStep filename client) s m c).thread t = s₁.thread t := by
    intro t ht
    rw [step_thread_of_ne _ s c ht, h.others t ht]
  have hinv := h.inv.step m c
  by_cases hpc : (s.thread m).opener.pc = .returned true
  · obtain ⟨l'', hlog', hcallers⟩ := callers_step_handle filename client c hpc hlog
    obtain ⟨hmain', hmeta'⟩ := TrimmerAt.drive
      (p := ((s.thread m).thread, (s.thread m).vars)) htrims hmain hmeta s.shared.vars c
    have hl : l'' = _ := congrArg (fun x => x.shared.1) hcallers
    have hthread := congrArg (fun x => x.thread m) hcallers
    simp only [step_thread_self, step_shared] at hthread hl
    change l'' = (Feeding.drive calling client.beside (l', s.shared.vars) _ c).1.1 at hl
    change (_, _) = (Feeding.drive calling client.beside (l', s.shared.vars) _ c).2 at hthread
    obtain ⟨osched, hopeners⟩ := hinv.opening
    refine ⟨hinv, ?_, ⟨l'', hlog', ?_, ?_⟩, hothers⟩
    · apply opened_pastReady hopeners (t := m)
      rw [step_thread_self, processStep_handle hpc hlog]
      exact hpc
    · rw [hl]
      exact hmeta'
    · rw [hl]
      have h₁ := congrArg Prod.fst hthread
      have h₂ := congrArg Prod.snd hthread
      dsimp only at h₁ h₂
      rw [h₁, h₂]
      exact hmain'
  · have hstore := h.inv.store_opener (c := c) h.ready hpc
    refine ⟨hinv, by rw [hstore]; exact h.ready, ⟨l', ?_, hmeta, ?_⟩, hothers⟩
    · rw [hstore]
      exact hlog
    · rw [step_thread_self, processStep_opener hpc]
      exact hmain

/-- After a run of the others, the process `m` alone leaves the file with what was below the
cursor. -/
theorem trimmed_run {front back : List (ℕ × (Outcome × δ))} {l : Log}
    (htrims : Trims client m before after) (hfront : ∀ e ∈ front, e.1 < m)
    (hback : ∀ e ∈ back, e.1 = m) (hown : own m = before)
    (htouched : ¬ Untouched calls data vars own (started filename client calls data vars own front))
    (hlog : (started filename client calls data vars own front).shared.log? = some l)
    (hcalled : ((started filename client calls data vars own (front ++ back)).thread
      m).thread.results.isEmpty = false)
    (htrimmed : ((started filename client calls data vars own (front ++ back)).thread
      m).thread.errno = .ok) :
    (started filename client calls data vars own (front ++ back)).shared.files.data =
        some (l.file.ftruncate l.metadata.cursor) ∧
      ∀ t, t ≠ m → (started filename client calls data vars own (front ++ back)).thread t =
        (started filename client calls data vars own front).thread t := by
  have hinv : ClientInv filename client calls data vars own
      (started filename client calls data vars own front) := clientInv_started front
  have hthread : (started filename client calls data vars own front).thread m =
      ⟨⟨calls m, .checkArgs, .ok⟩, ⟨.idle, .ok, [], []⟩, before⟩ := by
    rw [← hown]
    apply run_thread_of_forall_ne
    intro e he heq
    exact (hfront e he).ne heq
  have hstart : TrimmerInv filename client calls data vars own m before after
      (started filename client calls data vars own front) l
      (started filename client calls data vars own front) := by
    refine ⟨hinv, ?_, ⟨l, hlog, rfl, ?_⟩, fun _ _ => rfl⟩
    · cases hinv.phase with
      | inl hbefore => exact absurd hbefore htouched
      | inr hafter => exact hafter.ready
    · rw [hthread]
      exact .before .ok
  have hend := run_invariant_of (processStep filename client)
    (P := TrimmerInv filename client calls data vars own m before after
      (started filename client calls data vars own front) l)
    (fun s t c hs ht => by subst ht; exact hs.step htrims) hstart
    (allSteps_of_mem (processStep filename client) (p := fun t _ => t = m)
      (started filename client calls data vars own front) hback)
  have hsplit : started filename client calls data vars own (front ++ back) = _ :=
    run_append _ _ _ _
  rw [hsplit] at hcalled htrimmed ⊢
  obtain ⟨l', hlog', -, hmain⟩ := hend.log
  refine ⟨?_, hend.others⟩
  rw [← hmain.file_eq hcalled htrimmed]
  exact congrArg Files.data (Store.files_of_log hlog').1

end Runs

end SystemsExperiments.Mmlog
