import SystemsExperiments.Model.NopeekingRegistry.Message
import SystemsExperiments.Shared.Interleaving

/-! # Writers and readers of one group

The threads of the process that owns a group replace its message, other threads peek at it. The
sequence number is taken in one step and the message sent in another, and a reader peeks twice;
anything can happen in between. The network may lose, repeat and reorder datagrams, so that a
peek sees any datagram that was ever sent, or none. -/

namespace SystemsExperiments.NopeekingRegistry

open Interleaving

inductive Request where
  | modify (message : List UInt8)
  | peek

inductive Pc where
  | idle
  /-- `np_modify_message` before its `send`. -/
  | built (buffer : List UInt8)
  /-- `np_peek_message` after its first `recv`. -/
  | peeked (first : Option (List UInt8))

/-- What a call of `np_peek_message` saw and returned. -/
structure Peeked where
  first : Option (List UInt8)
  second : Option (List UInt8)
  result : Except Fault (Option (List UInt8))
  deriving DecidableEq

structure Thread where
  todo : List Request
  pc : Pc
  peeks : List Peeked

/-- The sequence number of the process, the messages it was taken for and the datagrams that
were sent. -/
structure Registry where
  sequenceId : UInt32
  messages : List (List UInt8)
  sent : List (List UInt8)

/-- What the environment answers to one step. -/
structure Answer where
  malloc : ℕ → Bool
  context : Bool
  garbage : UInt64
  /-- The kernel takes the datagram. -/
  sends : Bool
  /-- The datagram at the head of the socket, as one of those that were sent. -/
  head : Option ℕ

def Registry.received (r : Registry) (a : Answer) : Option (List UInt8) :=
  a.head.bind fun i => r.sent[i]?

/-- One step of a thread whose process has its socket at `sockfd`. -/
def registryStep (sockfd : ℤ) (r : Registry) (t : Thread) (a : Answer) : Registry × Thread :=
  match t.pc with
  | .built buffer =>
      (if a.sends then { r with sent := r.sent ++ [buffer] } else r, { t with pc := .idle })
  | .peeked first =>
      let second := r.received a
      let result := npPeekMessage
        { context := a.context, malloc := a.malloc, garbage := a.garbage, first := first,
          second := second }
      (r, { t with pc := .idle, peeks := t.peeks ++ [⟨first, second, result⟩] })
  | .idle =>
      match t.todo with
      | [] => (r, t)
      | .modify message :: rest =>
          let modified := npModifyMessage a.malloc (fun _ => 0) ⟨sockfd, r.sequenceId, []⟩
            (some message)
          match modified.datagram with
          | none => (r, { t with todo := rest })
          | some buffer =>
              ({ r with
                sequenceId := modified.sender.sequenceId
                messages := r.messages ++ [message] },
              { t with todo := rest, pc := .built buffer })
      | .peek :: rest => (r, { t with todo := rest, pc := .peeked (r.received a) })

abbrev RegistrySystem := Sys Registry Thread

def startRegistry (todo : ℕ → List Request) : RegistrySystem where
  shared := { sequenceId := 0, messages := [], sent := [] }
  thread t := { todo := todo t, pc := .idle, peeks := [] }

end SystemsExperiments.NopeekingRegistry
