import SystemsExperiments.Model.NopeekingRegistry.Registry
import SystemsExperiments.Verification.NopeekingRegistry.Framing

/-! # What a peek returns while others write

Every datagram that goes out is a whole message with the number its process took for it. A peek
that returns something returns the data of one of them, and as long as no number has been taken
twice, both of its looks were at that one. -/

namespace SystemsExperiments.NopeekingRegistry

open Interleaving

/-! ## One peek -/

/-- What a peek returns is all of the second datagram, and that has the word of the first. -/
theorem npPeekMessage_found {world : Receiver} {size seqId size' seqId' : UInt32}
    {data data' bytes : List UInt8}
    (hfirst : world.first = some (npMessage (createSnowflake size seqId) data))
    (hsecond : world.second = some (npMessage (createSnowflake size' seqId') data'))
    (hdata' : data'.length = size'.toNat) (h : npPeekMessage world = .ok (some bytes)) :
    size' = size ∧ seqId' = seqId ∧ bytes = data' ++ [0] := by
  have hword := length_snowflakeBytes (createSnowflake size' seqId')
  have hbuffer : peek (npMessage (createSnowflake size' seqId') data') (8 + size.toNat) =
      npMessage (createSnowflake size' seqId') (data'.take size.toNat) := by
    rw [peek, npMessage, npMessage, List.take_append, List.take_of_length_le (by omega), hword,
      Nat.add_sub_cancel_left]
  simp only [npPeekMessage, hfirst, hsecond, snowflakeAt_peek, parseSnowflake_createSnowflake,
    hbuffer, snowflakeAt_npMessage] at h
  split at h
  · split at h
    · cases h
    · split at h
      · cases h
      · split at h
        · split at h
          · cases h
          · split at h
            · cases h
            · rename_i hparse
              rw [ne_eq, not_not, Prod.mk.injEq] at hparse
              split at h
              · split at h
                · cases h
                · cases h
                  refine ⟨hparse.1, hparse.2, ?_⟩
                  rw [npMessage, List.drop_left' hword, ← hparse.1, ← hdata', List.take_length,
                    List.take_length]
              · cases h
        · cases h
  · cases h

/-- Without both datagrams nothing is returned. -/
theorem npPeekMessage_seen {world : Receiver} {bytes : List UInt8}
    (h : npPeekMessage world = .ok (some bytes)) :
    ∃ first second, world.first = some first ∧ world.second = some second := by
  cases hfirst : world.first with
  | none => simp [npPeekMessage, hfirst] at h
  | some first =>
      cases hsecond : world.second with
      | none =>
          simp only [npPeekMessage, hfirst, hsecond] at h
          grind
      | some second => exact ⟨first, second, rfl, rfl⟩

/-! ## Numbered messages -/

/-- The datagram of the message that got that number. -/
def datagramOf (k : ℕ) (message : List UInt8) : List UInt8 :=
  npMessage (createSnowflake (UInt32.ofNat message.length) (UInt32.ofNat k))
    (message.take (UInt32.ofNat message.length).toNat)

def Numbered (messages : List (List UInt8)) (datagram : List UInt8) : Prop :=
  ∃ k message, messages[k]? = some message ∧ datagram = datagramOf k message

/-- What a peek returned is one whole message. While the numbers were all different, it was at
the head of the socket both times. -/
def Snapshot (messages : List (List UInt8)) (p : Peeked) : Prop :=
  ∀ bytes, p.result = .ok (some bytes) → ∃ k message, messages[k]? = some message ∧
    p.second = some (datagramOf k message) ∧
    bytes = message.take (message.length % 2 ^ 32) ++ [0] ∧
    (messages.length ≤ 2 ^ 32 → p.first = p.second)

section Growing

variable {messages messages' : List (List UInt8)}

theorem getElem?_of_prefix (hgrow : messages <+: messages') {k : ℕ} {message : List UInt8}
    (h : messages[k]? = some message) : messages'[k]? = some message := by
  obtain ⟨rest, rfl⟩ := hgrow
  have hlt : k < messages.length := (List.getElem?_eq_some_iff.mp h).1
  rw [List.getElem?_append_left hlt, h]

theorem Numbered.mono (hgrow : messages <+: messages') {datagram : List UInt8}
    (h : Numbered messages datagram) : Numbered messages' datagram := by
  obtain ⟨k, message, hk, heq⟩ := h
  exact ⟨k, message, getElem?_of_prefix hgrow hk, heq⟩

theorem Snapshot.mono (hgrow : messages <+: messages') {p : Peeked} (h : Snapshot messages p) :
    Snapshot messages' p := by
  intro bytes hbytes
  obtain ⟨k, message, hk, hsecond, heq, hsame⟩ := h bytes hbytes
  exact ⟨k, message, getElem?_of_prefix hgrow hk, hsecond, heq,
    fun hle => hsame (hgrow.length_le.trans hle)⟩

end Growing

/-- Peeking at numbered datagrams gives a snapshot. -/
theorem snapshot_of_numbered {messages : List (List UInt8)} {world : Receiver}
    (hfirst : ∀ d ∈ world.first, Numbered messages d)
    (hsecond : ∀ d ∈ world.second, Numbered messages d) :
    Snapshot messages ⟨world.first, world.second, npPeekMessage world⟩ := by
  intro bytes hbytes
  obtain ⟨first, second, hone, htwo⟩ := npPeekMessage_seen hbytes
  obtain ⟨k, message, hk, hd⟩ := hfirst first hone
  obtain ⟨k', message', hk', hd'⟩ := hsecond second htwo
  rw [hd, datagramOf] at hone
  rw [hd', datagramOf] at htwo
  have hlen := length_take_ofNat message'
  obtain ⟨-, hseq, heq⟩ := npPeekMessage_found hone htwo hlen hbytes
  have hnat : ∀ m : List UInt8, (UInt32.ofNat m.length).toNat = m.length % 2 ^ 32 := fun m =>
    UInt32.toNat_ofNat'
  refine ⟨k', message', hk', htwo, by rw [heq, hnat], fun hle => ?_⟩
  have hlt : k < messages.length := (List.getElem?_eq_some_iff.mp hk).1
  have hlt' : k' < messages.length := (List.getElem?_eq_some_iff.mp hk').1
  have hsame : k' = k := by
    have hval := congrArg UInt32.toNat hseq
    rw [UInt32.toNat_ofNat', UInt32.toNat_ofNat', Nat.mod_eq_of_lt (by omega),
      Nat.mod_eq_of_lt (by omega)] at hval
    exact hval
  have hmessage : message' = message := by
    rw [hsame, hk] at hk'
    exact (Option.some.inj hk').symm
  change world.first = world.second
  rw [hone, htwo, hsame, hmessage]

/-! ## The invariant -/

structure Registry.Inv (r : Registry) : Prop where
  sequence : r.sequenceId = UInt32.ofNat r.messages.length
  sent : ∀ d ∈ r.sent, Numbered r.messages d

structure Thread.Inv (messages : List (List UInt8)) (t : Thread) : Prop where
  built : ∀ buffer, t.pc = .built buffer → Numbered messages buffer
  peeked : ∀ first, t.pc = .peeked first → ∀ d ∈ first, Numbered messages d
  peeks : ∀ p ∈ t.peeks, Snapshot messages p

theorem Thread.Inv.mono {messages messages' : List (List UInt8)} (hgrow : messages <+: messages')
    {t : Thread} (h : t.Inv messages) : t.Inv messages' where
  built buffer hpc := (h.built buffer hpc).mono hgrow
  peeked first hpc d hd := (h.peeked first hpc d hd).mono hgrow
  peeks p hp := (h.peeks p hp).mono hgrow

theorem Registry.Inv.received {r : Registry} (h : r.Inv) (a : Answer) :
    ∀ d ∈ r.received a, Numbered r.messages d := by
  intro d hd
  obtain ⟨i, -, hi⟩ := Option.bind_eq_some_iff.mp hd
  exact h.sent d (List.mem_of_getElem? hi)

/-- A call that gets to its datagram takes the next number for it. -/
theorem npModifyMessage_datagram (malloc : ℕ → Bool) (send : List UInt8 → ℤ) (sender : Sender)
    (message : List UInt8) :
    (npModifyMessage malloc send sender (some message)).datagram = none ∨
      (npModifyMessage malloc send sender (some message)).datagram =
          some (npMessage (createSnowflake (UInt32.ofNat message.length) sender.sequenceId)
            (message.take (UInt32.ofNat message.length).toNat)) ∧
        (npModifyMessage malloc send sender (some message)).sender.sequenceId =
          sender.sequenceId + 1 := by
  simp only [npModifyMessage]
  split
  · exact .inl rfl
  · split
    · exact .inr ⟨rfl, rfl⟩
    · exact .inl rfl

/-- The messages with one more, which gets the next number. -/
theorem numbered_append (messages : List (List UInt8)) (message : List UInt8) :
    Numbered (messages ++ [message]) (datagramOf messages.length message) :=
  ⟨messages.length, message, by simp, rfl⟩

/-- What one step keeps; the messages only grow. -/
theorem registryStep_inv (sockfd : ℤ) {r : Registry} {t : Thread} (hr : r.Inv)
    (ht : t.Inv r.messages) (a : Answer) :
    (registryStep sockfd r t a).1.Inv ∧
      (registryStep sockfd r t a).2.Inv (registryStep sockfd r t a).1.messages ∧
      r.messages <+: (registryStep sockfd r t a).1.messages := by
  cases t with
  | mk todo pc peeks =>
      cases pc with
      | built buffer =>
          have hbuffer := ht.built buffer rfl
          refine ⟨?_, ?_, ?_⟩
          · simp only [registryStep]
            split
            · refine ⟨hr.sequence, fun d hd => ?_⟩
              cases List.mem_append.mp hd with
              | inl hd => exact hr.sent d hd
              | inr hd => exact List.mem_singleton.mp hd ▸ hbuffer
            · exact hr
          · have hmessages : (registryStep sockfd r ⟨todo, .built buffer, peeks⟩ a).1.messages =
                r.messages := by
              simp only [registryStep]
              split
              · rfl
              · rfl
            rw [hmessages]
            exact ⟨nofun, nofun, ht.peeks⟩
          · simp only [registryStep]
            split
            · exact List.prefix_refl _
            · exact List.prefix_refl _
      | peeked first =>
          refine ⟨hr, ⟨nofun, nofun, fun p hp => ?_⟩, List.prefix_refl _⟩
          cases List.mem_append.mp hp with
          | inl hp => exact ht.peeks p hp
          | inr hp =>
              rw [List.mem_singleton.mp hp]
              exact snapshot_of_numbered (ht.peeked first rfl) (hr.received a)
      | idle =>
          cases todo with
          | nil => exact ⟨hr, ht, List.prefix_refl _⟩
          | cons request rest =>
              cases request with
              | peek =>
                  refine ⟨hr, ⟨nofun, fun first hpc => ?_, ht.peeks⟩, List.prefix_refl _⟩
                  cases hpc
                  exact hr.received a
              | modify message =>
                  have hgrow : r.messages <+: r.messages ++ [message] := List.prefix_append _ _
                  simp only [registryStep]
                  cases npModifyMessage_datagram a.malloc (fun _ => 0)
                    ⟨sockfd, r.sequenceId, []⟩ message with
                  | inl hnone =>
                      rw [hnone]
                      exact ⟨hr, ⟨nofun, nofun, ht.peeks⟩, List.prefix_refl _⟩
                  | inr hsome =>
                      rw [hsome.1]
                      refine ⟨⟨?_, fun d hd => (hr.sent d hd).mono hgrow⟩,
                        ⟨fun buffer hpc => ?_, nofun, fun p hp => (ht.peeks p hp).mono hgrow⟩,
                        hgrow⟩
                      · rw [hsome.2, hr.sequence, List.length_append, List.length_singleton,
                          UInt32.ofNat_add]
                        rfl
                      · cases hpc
                        rw [hr.sequence]
                        exact numbered_append r.messages message

def RegistryInv (s : RegistrySystem) : Prop :=
  s.shared.Inv ∧ ∀ t, (s.thread t).Inv s.shared.messages

theorem registryInv_step (sockfd : ℤ) (s : RegistrySystem) (t : ℕ) (a : Answer)
    (h : RegistryInv s) : RegistryInv (step (registryStep sockfd) s t a) := by
  obtain ⟨hshared, hthread, hgrow⟩ := registryStep_inv sockfd h.1 (h.2 t) a
  refine ⟨hshared, fun t' => ?_⟩
  rw [step]
  simp only
  by_cases ht : t' = t
  · rw [ht, Function.update_self]
    exact hthread
  · rw [Function.update_of_ne ht]
    exact (h.2 t').mono hgrow

theorem registryInv_start (todo : ℕ → List Request) : RegistryInv (startRegistry todo) :=
  ⟨⟨rfl, nofun⟩, fun _ => ⟨nofun, nofun, nofun⟩⟩

/-- In every interleaving of writers and readers, and whatever the network does, a peek that
returns something returns one whole message that a writer had numbered before. As long as there
have been no more than `2 ^ 32` of them, nothing has been sent in place of that message between
the two looks. -/
theorem peeks_are_snapshots (sockfd : ℤ) (todo : ℕ → List Request)
    (sched : List (ℕ × Answer)) (t : ℕ) :
    let s := run (registryStep sockfd) (startRegistry todo) sched
    ∀ p ∈ (s.thread t).peeks, ∀ bytes, p.result = .ok (some bytes) →
      ∃ k message, s.shared.messages[k]? = some message ∧
        p.second = some (datagramOf k message) ∧
        bytes = message.take (message.length % 2 ^ 32) ++ [0] ∧
        (s.shared.messages.length ≤ 2 ^ 32 → p.first = p.second) := by
  intro s p hp
  have hinv : RegistryInv s := run_invariant (registryStep sockfd) (registryInv_step sockfd) sched
    (registryInv_start todo)
  exact (hinv.2 t).peeks p hp

/-- One thread replaces the message, another one peeks at it. -/
def writerAndReader : ℕ → List Request
  | 0 => [.modify [97]]
  | _ => [.peek]

def headAnswer : Answer :=
  { malloc := fun _ => true, context := true, garbage := 0, sends := true, head := some 0 }

def writeThenPeek : List (ℕ × Answer) :=
  [(0, headAnswer), (0, headAnswer), (1, headAnswer), (1, headAnswer)]

theorem peeks_are_snapshots_writeThenPeek :
    ∃ p ∈ ((run (registryStep 3) (startRegistry writerAndReader) writeThenPeek).thread 1).peeks,
      p.result = .ok (some [97, 0]) ∧ p.first = p.second := by
  have hmem : (⟨some (datagramOf 0 [97]), some (datagramOf 0 [97]), .ok (some [97, 0])⟩ : Peeked) ∈
      ((run (registryStep 3) (startRegistry writerAndReader) writeThenPeek).thread 1).peeks := by
    decide +kernel
  obtain ⟨k, message, -, -, -, hsame⟩ :=
    peeks_are_snapshots 3 writerAndReader writeThenPeek 1 _ hmem [97, 0] rfl
  exact ⟨_, hmem, rfl, hsame (by decide +kernel)⟩

end SystemsExperiments.NopeekingRegistry
