import SystemsExperiments.Shared.Bytes
import SystemsExperiments.Shared.Descriptors
import SystemsExperiments.Shared.Scanf

/-! # The sending socket of the nopeeking registry

A process that publishes a message opens a socket to a multicast group of its own and moves it
to a high descriptor. -/

namespace SystemsExperiments.NopeekingRegistry

open Bytes Descriptors Printing

/-! ## Addresses -/

def inetAddrStrlen : ℕ := 16

/-- The bytes up to the NUL. -/
def untilNul (buffer : List UInt8) : List UInt8 := buffer.takeWhile fun c => c ≠ 0

def strncpy (n : ℕ) (src : List UInt8) : List UInt8 :=
  src.take n ++ List.replicate (n - src.length) 0

/-- One part of an address: no more than a byte, and no zeros before it. -/
def octet (part : List UInt8) : Option UInt8 :=
  if part ≠ [] ∧ part.all (Scanf.isDigit 10) ∧ (part.head? = some 48 → part.length = 1) ∧
      Scanf.value 10 part < 256 then
    some (UInt8.ofNat (Scanf.value 10 part))
  else none

/-- `inet_pton` for `AF_INET`, with the bytes in network order. -/
def inetPton (src : List UInt8) : Option (List UInt8) :=
  let parts := src.splitOn 46
  if parts.length = 4 then parts.mapM octet else none

/-- `s_addr` on a little-endian machine. -/
def sAddr (octets : List UInt8) : UInt32 := UInt32.ofNat (ofLE octets)

def ntohl (n : UInt32) : UInt32 := UInt32.ofNat (ofLE (toLE 4 n.toNat).reverse)

/-- What `rand` returns is not negative. -/
def generateSafeMulticastAddress (rand : ℕ × ℕ × ℕ) (size : ℕ) : List UInt8 × Bool :=
  let x := rand.1 % 256
  let y := rand.2.1 % 256
  let z := rand.2.2 % 256
  let printed := snprintf size (literal "239." ++ decimal x ++ literal "." ++ decimal y ++
    literal "." ++ decimal z)
  (printed.1, 0 < printed.2 ∧ printed.2 < size)

def isValidMulticastAddress (addrStr : List UInt8) : Bool :=
  match inetPton addrStr with
  | none => false
  | some addr =>
      let addrVal := ntohl (sAddr addr)
      0xE0000000 ≤ addrVal ∧ addrVal ≤ 0xEFFFFFFF

/-! ## Sockets -/

structure SockaddrIn where
  sinFamily : ℕ
  sinPort : UInt16
  sinAddr : UInt32
  deriving DecidableEq

def afInet : ℕ := 2

/-- A datagram socket as `setsockopt`, `connect` and `bind` set it up. -/
structure Socket where
  ttl : Option ℕ
  reuseAddr : Bool
  peer : Option SockaddrIn
  name : Option SockaddrIn
  memberships : List UInt32
  deriving DecidableEq

def freshSocket : Socket :=
  { ttl := none, reuseAddr := false, peer := none, name := none, memberships := [] }

/-- What a descriptor stands for. -/
inductive File where
  | socket (s : Socket)
  /-- `/proc/net/udp`, open for reading. -/
  | netUdp
  /-- Some other open file. -/
  | other (id : ℕ)
  deriving DecidableEq

def onSocket (f : Socket → Socket) : File → File
  | .socket s => .socket (f s)
  | .netUdp => .netUdp
  | .other id => .other id

/-- `multicast_context` -/
structure MulticastContext where
  sockfd : ℤ
  addr : SockaddrIn
  multicastAddr : List UInt8
  port : ℤ
  deriving DecidableEq

/-- A context of zeros. -/
def zeroContext : MulticastContext :=
  { sockfd := 0, addr := ⟨0, 0, 0⟩, multicastAddr := List.replicate inetAddrStrlen 0, port := 0 }

/-- The calls the kernel lets succeed. -/
structure Calls where
  socket : Bool
  setsockopt : Bool
  connect : Bool
  /-- There is memory for a table up to that power of two. -/
  dup2 : ℕ → Bool

inductive McastError where
  | success
  | invalidAddr
  | socket
  | ttl
  | connect
  deriving DecidableEq

/-! ## The sender -/

structure Initialized where
  err : McastError
  ctx : MulticastContext
  table : Table File

def initMulticastSender (calls : Calls) (rand : ℕ × ℕ × ℕ) (table : Table File)
    (ctx : MulticastContext) (multicastAddr : Option (List UInt8)) : Initialized :=
  let multicastAddr :=
    multicastAddr.getD (untilNul (generateSafeMulticastAddress rand inetAddrStrlen).1)
  match (if isValidMulticastAddress multicastAddr then inetPton multicastAddr else none) with
  | none => ⟨.invalidAddr, ctx, table⟩
  | some mcast =>
      match (if calls.socket then table.openFile (.socket freshSocket) else none) with
      | none => ⟨.socket, ctx, table⟩
      | some (sockfd, table) =>
          if calls.setsockopt then
            let table := table.modify sockfd (onSocket fun s => { s with ttl := some 1 })
            let addr : SockaddrIn := ⟨afInet, 0, sAddr mcast⟩
            let ctx := { ctx with port := 0 }
            if calls.connect then
              let table := table.modify sockfd (onSocket fun s => { s with peer := some addr })
              ⟨.success,
                { ctx with
                  sockfd := sockfd
                  addr := addr
                  multicastAddr := strncpy inetAddrStrlen multicastAddr },
                table⟩
            else ⟨.connect, ctx, table.close sockfd⟩
          else ⟨.ttl, ctx, table.close sockfd⟩

def multicastClose (table : Table File) (ctx : MulticastContext) :
    MulticastContext × Table File :=
  ({ ctx with sockfd := -1 }, table.close ctx.sockfd)

/-- The loop over the powers below the given one, from the highest down. -/
def reposition (calls : Calls) (table : Table File) (sockfd : ℤ) :
    ℕ → Option (ℤ × Table File)
  | 0 => none
  | power + 1 =>
      let targetFd : ℤ := 2 ^ power
      if targetFd ≤ sockfd then reposition calls table sockfd power
      else
        match (if calls.dup2 power then table.dup2 sockfd targetFd else none) with
        | some table => some (targetFd, table)
        | none => reposition calls table sockfd power

structure SocketInit where
  result : Bool
  ctx : MulticastContext
  table : Table File

/-- The result is a `bool`, so that the `-1` of a failure is `true`. -/
def npSocketInit (calls : Calls) (rand : ℕ × ℕ × ℕ) (table : Table File)
    (ctx : MulticastContext) : SocketInit :=
  let sender := initMulticastSender calls rand table ctx none
  if sender.err ≠ .success then ⟨true, sender.ctx, sender.table⟩
  else
    match reposition calls sender.table sender.ctx.sockfd 31 with
    | none =>
        let closed := multicastClose sender.table sender.ctx
        ⟨true, closed.1, closed.2⟩
    | some (positionedFd, table) =>
        ⟨true, { sender.ctx with sockfd := positionedFd }, table.close sender.ctx.sockfd⟩

end SystemsExperiments.NopeekingRegistry
