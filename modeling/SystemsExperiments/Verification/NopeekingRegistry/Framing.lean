import SystemsExperiments.Model.NopeekingRegistry.Message

/-! # What is sent can be peeked at

The snowflake keeps the size and the sequence number apart, so both peeks agree on what was
sent. The sizes at both ends do not get through: the reader takes an empty message for none,
and the size is a word of 32 bits. -/

namespace SystemsExperiments.NopeekingRegistry

open Bytes

/-! ## The snowflake -/

theorem toNat_createSnowflake (size seqId : UInt32) :
    (createSnowflake size seqId).toNat = size.toNat * 2 ^ 32 + seqId.toNat := by
  have hsize : size.toNat < 2 ^ 32 := size.toNat_lt
  have hseq : seqId.toNat < 2 ^ 32 := seqId.toNat_lt
  have hshift : (size.toUInt64 <<< 32).toNat = size.toNat <<< 32 := by
    rw [UInt64.toNat_shiftLeft, UInt32.toNat_toUInt64]
    have hlt : size.toNat <<< 32 < 2 ^ 64 := by
      rw [Nat.shiftLeft_eq]
      omega
    exact Nat.mod_eq_of_lt hlt
  rw [createSnowflake, UInt64.toNat_or, hshift, UInt32.toNat_toUInt64,
    ← Nat.shiftLeft_add_eq_or_of_lt hseq, Nat.shiftLeft_eq]

@[simp] theorem parseSnowflake_createSnowflake (size seqId : UInt32) :
    parseSnowflake (createSnowflake size seqId) = (size, seqId) := by
  have hsize : size.toNat < 2 ^ 32 := size.toNat_lt
  have hseq : seqId.toNat < 2 ^ 32 := seqId.toNat_lt
  have hword := toNat_createSnowflake size seqId
  rw [parseSnowflake, Prod.mk.injEq]
  constructor
  · apply UInt32.toNat_inj.mp
    rw [UInt64.toNat_toUInt32, UInt64.toNat_shiftRight, hword]
    have hdiv : (size.toNat * 2 ^ 32 + seqId.toNat) >>> 32 = size.toNat := by
      rw [Nat.shiftRight_eq_div_pow]
      omega
    exact (congrArg (· % 2 ^ 32) hdiv).trans (Nat.mod_eq_of_lt hsize)
  · apply UInt32.toNat_inj.mp
    rw [UInt64.toNat_toUInt32, UInt64.toNat_and, hword]
    have hmask : (size.toNat * 2 ^ 32 + seqId.toNat) &&& (2 ^ 32 - 1) = seqId.toNat := by
      rw [Nat.and_two_pow_sub_one_eq_mod]
      omega
    exact (congrArg (· % 2 ^ 32) hmask).trans (Nat.mod_eq_of_lt hseq)

theorem length_snowflakeBytes (snowflake : UInt64) : (snowflakeBytes snowflake).length = 8 :=
  length_toLE 8 _

theorem length_npMessage (snowflake : UInt64) (data : List UInt8) :
    (npMessage snowflake data).length = 8 + data.length := by
  rw [npMessage, List.length_append, length_snowflakeBytes]

theorem snowflakeAt_npMessage (snowflake : UInt64) (data : List UInt8) :
    snowflakeAt (npMessage snowflake data) = snowflake := by
  rw [snowflakeAt, npMessage, List.take_left' (length_snowflakeBytes snowflake), snowflakeBytes,
    ofLE_toLE_of_lt snowflake.toNat_lt]
  exact UInt64.ofNat_toNat

/-! ## Both ends -/

/-- What is given to `send` has the size of its word. -/
theorem datagram_of_result {malloc : ℕ → Bool} {send : List UInt8 → ℤ} {sender : Sender}
    {message : List UInt8}
    (h : (npModifyMessage malloc send sender (some message)).result = true) :
    (npModifyMessage malloc send sender (some message)).datagram =
      some (npMessage (createSnowflake (UInt32.ofNat message.length) sender.sequenceId)
        (message.take (UInt32.ofNat message.length).toNat)) := by
  simp only [npModifyMessage] at h ⊢
  by_cases hfd : sender.sockfd < 0
  · rw [if_pos hfd] at h
    cases h
  · rw [if_neg hfd] at h ⊢
    by_cases hmalloc : malloc (8 + (UInt32.ofNat message.length).toNat) = true
    · rw [if_pos hmalloc]
    · rw [if_neg hmalloc] at h
      cases h

/-- The length that fits the word is the length of the message or what is left of it. -/
theorem length_take_ofNat (message : List UInt8) :
    (message.take (UInt32.ofNat message.length).toNat).length =
      (UInt32.ofNat message.length).toNat := by
  rw [List.length_take, UInt32.toNat_ofNat']
  exact Nat.min_eq_left (Nat.mod_le _ _)

section Peek

variable {world : Receiver} {size seqId : UInt32} {data : List UInt8}

/-- The first peek sees the word alone, and all of it. -/
theorem snowflakeAt_peek (garbage snowflake : UInt64) (data : List UInt8) :
    snowflakeAt (peek (npMessage snowflake data) 8 ++
      (snowflakeBytes garbage).drop (peek (npMessage snowflake data) 8).length) = snowflake := by
  have hpeek : peek (npMessage snowflake data) 8 = snowflakeBytes snowflake :=
    List.take_left' (length_snowflakeBytes snowflake)
  rw [hpeek, length_snowflakeBytes, List.drop_eq_nil_of_le (length_snowflakeBytes garbage).le,
    List.append_nil]
  have hnil := snowflakeAt_npMessage snowflake []
  rwa [npMessage, List.append_nil] at hnil

/-- What becomes of a datagram that is at the head at both peeks. -/
theorem npPeekMessage_eq (hcontext : world.context = true)
    (hfirst : world.first = some (npMessage (createSnowflake size seqId) data))
    (hsecond : world.second = some (npMessage (createSnowflake size seqId) data))
    (hdata : data.length = size.toNat) :
    npPeekMessage world =
      if size = 0 then .ok none
      else if world.malloc (8 + size.toNat) then
        if world.malloc (size + 1).toNat then
          if (size + 1).toNat < size.toNat + 1 then .error .heapOverflow
          else .ok (some (data ++ [0]))
        else .ok none
      else .ok none := by
  have hword := length_snowflakeBytes (createSnowflake size seqId)
  have hlength : (npMessage (createSnowflake size seqId) data).length = 8 + size.toNat := by
    rw [length_npMessage, hdata]
  have hhead : peek (npMessage (createSnowflake size seqId) data) 8 ≠ [] := by
    intro hnil
    have hlen := congrArg List.length hnil
    rw [peek, npMessage, List.take_left' hword, hword] at hlen
    cases hlen
  have hall : peek (npMessage (createSnowflake size seqId) data) (8 + size.toNat) =
      npMessage (createSnowflake size seqId) data :=
    List.take_of_length_le hlength.le
  have hrest : ((npMessage (createSnowflake size seqId) data).drop 8).take size.toNat = data := by
    rw [npMessage, List.drop_left' hword, ← hdata, List.take_length]
  simp only [npPeekMessage, hcontext, hfirst, hsecond, if_true, if_neg hhead, snowflakeAt_peek,
    parseSnowflake_createSnowflake, hall, hlength, snowflakeAt_npMessage, hrest, ne_eq,
    not_true_eq_false, if_false]

end Peek

/-! ## Round trip -/

/-- The string at the start of an allocation. -/
def cString (bytes : List UInt8) : List UInt8 := bytes.takeWhile fun c => c ≠ 0

theorem cString_append_nul {message : List UInt8} (h : 0 ∉ message) :
    cString (message ++ [0]) = message := by
  rw [cString, List.takeWhile_append_of_pos]
  · simp
  · intro c hc
    exact decide_eq_true (fun heq => h (heq ▸ hc))

/-- A message of any length from one up to what a size with its NUL can be is read as it was
sent. -/
theorem message_round_trip (malloc : ℕ → Bool) (send : List UInt8 → ℤ) (sender : Sender)
    (world : Receiver) (message datagram : List UInt8) (hnul : 0 ∉ message)
    (hpos : message ≠ []) (hlen : message.length + 1 < 2 ^ 32)
    (hresult : (npModifyMessage malloc send sender (some message)).result = true)
    (hsent : (npModifyMessage malloc send sender (some message)).datagram = some datagram)
    (hcontext : world.context = true) (hfirst : world.first = some datagram)
    (hsecond : world.second = some datagram)
    (hmalloc : world.malloc (8 + message.length) = true)
    (hmalloc' : world.malloc (message.length + 1) = true) :
    ∃ bytes, npPeekMessage world = .ok (some bytes) ∧ cString bytes = message := by
  have hsize : (UInt32.ofNat message.length).toNat = message.length :=
    Nat.mod_eq_of_lt (by omega)
  rw [datagram_of_result hresult] at hsent
  cases hsent
  refine ⟨message ++ [0], ?_, cString_append_nul hnul⟩
  rw [npPeekMessage_eq hcontext hfirst hsecond (length_take_ofNat message)]
  have hne : UInt32.ofNat message.length ≠ 0 := by
    intro heq
    have hzero := congrArg UInt32.toNat heq
    rw [hsize] at hzero
    exact hpos (List.eq_nil_of_length_eq_zero hzero)
  have hnext : (UInt32.ofNat message.length + 1).toNat = message.length + 1 := by
    rw [UInt32.toNat_add, hsize]
    exact Nat.mod_eq_of_lt hlen
  rw [if_neg hne, hnext, hsize, hmalloc, hmalloc', List.take_length]
  simp

/-- A sender and a receiver with memory for everything. -/
def openSender : Sender := ⟨3, 0, []⟩

def receiverOf (datagram : List UInt8) : Receiver :=
  ⟨true, fun _ => true, 0, some datagram, some datagram⟩

/-- The message `a` is read as sent. -/
theorem message_round_trip_a :
    ∃ bytes, npPeekMessage (receiverOf [0, 0, 0, 0, 1, 0, 0, 0, 97]) = .ok (some bytes) ∧
      cString bytes = [97] :=
  message_round_trip (fun _ => true) (fun _ => 9) openSender _ [97] _ (by decide) (by decide)
    (by decide) (by decide) (by decide) rfl rfl rfl rfl rfl

/-- Everything works, but the message does not come back. -/
def Lost (message : List UInt8) : Prop :=
  ∃ datagram,
    (npModifyMessage (fun _ => true) (fun d => d.length) openSender (some message)).result = true ∧
      (npModifyMessage (fun _ => true) (fun d => d.length) openSender (some message)).datagram =
        some datagram ∧
      ¬ ∃ bytes, npPeekMessage (receiverOf datagram) = .ok (some bytes) ∧ cString bytes = message

/-- The size is taken for none, or there is no room for the NUL. -/
theorem lost_of_size {message : List UInt8}
    (h : UInt32.ofNat message.length = 0 ∨ UInt32.ofNat message.length + 1 = 0) :
    Lost message := by
  have hlen := length_take_ofNat message
  have hresult : (npModifyMessage (fun _ => true) (fun d => d.length) openSender
      (some message)).result = true := by
    have hlength := length_npMessage (createSnowflake (UInt32.ofNat message.length) 0)
      (message.take (UInt32.ofNat message.length).toNat)
    rw [hlen] at hlength
    exact decide_eq_true (congrArg Nat.cast hlength)
  refine ⟨_, hresult, datagram_of_result hresult, ?_⟩
  intro hread
  obtain ⟨bytes, hpeek, -⟩ := hread
  rw [npPeekMessage_eq rfl rfl rfl hlen] at hpeek
  cases h with
  | inl hzero =>
      rw [if_pos hzero] at hpeek
      cases hpeek
  | inr hnext =>
      rw [hnext] at hpeek
      have hshort : (0 : UInt32).toNat < (UInt32.ofNat message.length).toNat + 1 := Nat.succ_pos _
      rw [if_pos hshort] at hpeek
      split at hpeek
      · cases hpeek
      · cases hpeek

/-- An empty message, messages of `2 ^ 32 - 1` and of `2 ^ 32` bytes, and any message if the
reader runs out of memory. -/
theorem messages_lost :
    Lost [] ∧ Lost (List.replicate (2 ^ 32 - 1) 97) ∧ Lost (List.replicate (2 ^ 32) 97) ∧
      npPeekMessage { receiverOf [0, 0, 0, 0, 1, 0, 0, 0, 97] with malloc := fun _ => false } =
        .ok none := by
  refine ⟨lost_of_size (.inl rfl), lost_of_size (.inr ?_), lost_of_size (.inl ?_), by decide⟩
  · rw [List.length_replicate]
    decide
  · rw [List.length_replicate]
    decide

end SystemsExperiments.NopeekingRegistry
