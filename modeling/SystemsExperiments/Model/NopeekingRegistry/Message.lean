import SystemsExperiments.Shared.Bytes
import Mathlib.Algebra.Order.Ring.Int

/-! # Messages of the nopeeking registry

A message travels as one datagram: a word with its size and a sequence number, and then its
bytes. The reader peeks at the word first and then at all of it. -/

namespace SystemsExperiments.NopeekingRegistry

open Bytes

/-! ## The snowflake -/

def createSnowflake (size seqId : UInt32) : UInt64 := (size.toUInt64 <<< 32) ||| seqId.toUInt64

def parseSnowflake (snowflake : UInt64) : UInt32 × UInt32 :=
  ((snowflake >>> 32).toUInt32, (snowflake &&& 0xFFFFFFFF).toUInt32)

/-- The word in the memory of a little-endian machine. -/
def snowflakeBytes (snowflake : UInt64) : List UInt8 := toLE 8 snowflake.toNat

def snowflakeAt (bytes : List UInt8) : UInt64 := UInt64.ofNat (ofLE (bytes.take 8))

/-- `np_message_t` -/
def npMessage (snowflake : UInt64) (data : List UInt8) : List UInt8 :=
  snowflakeBytes snowflake ++ data

/-! ## Sending -/

/-- The globals, and the datagrams that wait on the socket. -/
structure Sender where
  sockfd : ℤ
  sequenceId : UInt32
  queue : List (List UInt8)

/-- The `recv` calls that empty the socket; they end with an empty datagram, too. -/
def drain : List (List UInt8) → List (List UInt8)
  | [] => []
  | datagram :: rest => if datagram = [] then rest else drain rest

/-- What `np_modify_message` leaves behind: the datagram it gives to `send`, if it gets there,
and its result. -/
structure Modified where
  sender : Sender
  datagram : Option (List UInt8)
  result : Bool

/-- `malloc` tells whether there is memory of that size, `send` how many bytes are sent. The
message is a string without its NUL. -/
def npModifyMessage (malloc : ℕ → Bool) (send : List UInt8 → ℤ) (sender : Sender)
    (newMessage : Option (List UInt8)) : Modified :=
  match newMessage with
  | none => ⟨sender, none, false⟩
  | some message =>
      if sender.sockfd < 0 then ⟨sender, none, false⟩
      else
        let msgLen := UInt32.ofNat message.length
        let totalSize := 8 + msgLen.toNat
        if malloc totalSize then
          let seqId := sender.sequenceId
          let buffer := npMessage (createSnowflake msgLen seqId) (message.take msgLen.toNat)
          ⟨{ sender with sequenceId := seqId + 1, queue := drain sender.queue }, some buffer,
            send buffer = totalSize⟩
        else ⟨sender, none, false⟩

/-! ## Peeking -/

inductive Fault where
  /-- A copy past the end of an allocation. -/
  | heapOverflow
  deriving DecidableEq

/-- What `np_peek_message` finds. -/
structure Receiver where
  /-- `init_multicast_context_from_pid_fd` succeeds. -/
  context : Bool
  malloc : ℕ → Bool
  /-- What is in the word before it is read. -/
  garbage : UInt64
  /-- The datagrams at the head of the socket at the first and at the second `recv`. -/
  first : Option (List UInt8)
  second : Option (List UInt8)

/-- `recv` with `MSG_PEEK` -/
def peek (datagram : List UInt8) (len : ℕ) : List UInt8 := datagram.take len

/-- The allocation that is returned. -/
def npPeekMessage (world : Receiver) : Except Fault (Option (List UInt8)) :=
  if world.context then
    match world.first with
    | none => .ok none
    | some datagram =>
        let head := peek datagram 8
        if head = [] then .ok none
        else
          let snowflake :=
            snowflakeAt (head ++ (snowflakeBytes world.garbage).drop head.length)
          let (size, seqId) := parseSnowflake snowflake
          if size = 0 then .ok none
          else
            let totalSize := 8 + size.toNat
            if world.malloc totalSize then
              match world.second with
              | none => .ok none
              | some datagram =>
                  let buffer := peek datagram totalSize
                  if buffer.length ≠ totalSize then .ok none
                  else if parseSnowflake (snowflakeAt buffer) ≠ (size, seqId) then .ok none
                  else
                    -- the sum is one of `uint32_t`
                    let resultSize := (size + 1).toNat
                    if world.malloc resultSize then
                      if resultSize < size.toNat + 1 then .error .heapOverflow
                      else .ok (some ((buffer.drop 8).take size.toNat ++ [0]))
                    else .ok none
            else .ok none
  else .ok none

end SystemsExperiments.NopeekingRegistry
