import SystemsExperiments.Model.NopeekingRegistry.Message
import SystemsExperiments.Model.NopeekingRegistry.Multicast

/-! # The socket of a reader of the nopeeking registry

A reader finds the socket of another process by its descriptor, looks for it in the kernel's
table of sockets and opens one of its own to the same multicast group. -/

namespace SystemsExperiments.NopeekingRegistry

open Bytes Descriptors Printing Scanf

/-- What a process can read about the others. -/
structure ProcWorld where
  readlink : List UInt8 → Option (List UInt8)
  /-- What the calls of `fgets` get from `/proc/net/udp`, the heading first. -/
  netUdp : Option (List (List UInt8))

/-! ## The inode of a socket -/

def ulongMax : ℕ := 2 ^ 64 - 1

def uintMax : ℕ := 2 ^ 32 - 1

/-- What `%d` prints. -/
def integer (n : ℤ) : List UInt8 := if n < 0 then 45 :: decimal n.natAbs else decimal n.natAbs

def fdPath (pid fd : ℤ) : List UInt8 :=
  literal "/proc/" ++ integer pid ++ literal "/fd/" ++ integer fd

/-- `strtoul` in base ten, and what follows the number. -/
def strtoul (text : List UInt8) : ℕ × List UInt8 :=
  match scanNumber 10 none text with
  | none => (0, text)
  | some (n, rest) => (if 2 ^ 64 ≤ n.natAbs then ulongMax else (n % 2 ^ 64).toNat, rest)

def getSocketInode (world : ProcWorld) (pid fd : ℤ) : ℕ :=
  match world.readlink (fdPath pid fd) with
  | none => ulongMax
  | some target =>
      let link := untilNul (target.take 4095)
      if link.take 8 = literal "socket:[" then
        let parsed := strtoul (link.drop 8)
        if parsed.2.head? = some 93 then parsed.1 else ulongMax
      else ulongMax

/-! ## `/proc/net/udp` -/

/-- `" %*d: %02x%02x%02x%02x:%04x %02x%02x%02x%02x:%04x %x %*x:%*x %*x:%*x %*x %*d %*d %u"` -/
def udpFormat : List Directive :=
  [.space, .number 10 none false, .char 58,
    .space, .number 16 (some 2) true, .number 16 (some 2) true, .number 16 (some 2) true,
    .number 16 (some 2) true, .char 58, .number 16 (some 4) true,
    .space, .number 16 (some 2) true, .number 16 (some 2) true, .number 16 (some 2) true,
    .number 16 (some 2) true, .char 58, .number 16 (some 4) true,
    .space, .number 16 none true,
    .space, .number 16 none false, .char 58, .number 16 none false,
    .space, .number 16 none false, .char 58, .number 16 none false,
    .space, .number 16 none false,
    .space, .number 10 none false,
    .space, .number 10 none false,
    .space, .number 10 none true]

structure UdpLine where
  localAddr : UInt32 × UInt32 × UInt32 × UInt32
  localPort : UInt32
  remoteAddr : UInt32 × UInt32 × UInt32 × UInt32
  remotePort : UInt32
  state : UInt32
  socketInode : UInt32

/-- A line of which `sscanf` assigns all twelve numbers; `store` is how it puts a number into
an `unsigned int`. -/
def scanUdpLine (store : ℤ → UInt32) (line : List UInt8) : Option UdpLine :=
  match (scan udpFormat (untilNul line)).map store with
  | [l0, l1, l2, l3, localPort, r0, r1, r2, r3, remotePort, state, socketInode] =>
      some ⟨(l0, l1, l2, l3), localPort, (r0, r1, r2, r3), remotePort, state, socketInode⟩
  | _ => none

/-- The first line with the inode. -/
def findSocket (store : ℤ → UInt32) (inode : ℕ) : List (List UInt8) → Option UdpLine
  | [] => none
  | line :: lines =>
      match scanUdpLine store line with
      | none => findSocket store inode lines
      | some entry =>
          if entry.socketInode.toNat = inode then some entry else findSocket store inode lines

def packed (bytes : UInt32 × UInt32 × UInt32 × UInt32) : UInt32 :=
  (bytes.1 <<< 24) ||| (bytes.2.1 <<< 16) ||| (bytes.2.2.1 <<< 8) ||| bytes.2.2.2

def isMulticast (ipaddr : UInt32) : Bool := ipaddr &&& 0x000000F0 = 0x000000E0

/-- The local address, if it is a group, or else the remote one. -/
def groupOf (ipaddr remoteIpaddr : UInt32) : Option UInt32 :=
  if isMulticast ipaddr then some ipaddr
  else if isMulticast remoteIpaddr then some remoteIpaddr
  else none

/-! ## The context -/

structure ReceiverCalls where
  socket : Bool
  setsockopt : Bool
  bind : Bool
  membership : Bool

structure ContextInit where
  ret : ℤ
  ctx : MulticastContext
  table : Table File

def htons (n : UInt16) : UInt16 := UInt16.ofNat (ofLE (toLE 2 n.toNat).reverse)

def inetNtop (addr : UInt32) : List UInt8 :=
  [46].intercalate ((toLE 4 addr.toNat).map fun b => decimal b.toNat)

/-- The socket that joins the group. -/
def joinGroup (calls : ReceiverCalls) (table : Table File) (ctx : MulticastContext)
    (multicastAddr : UInt32) : ContextInit :=
  match (if calls.socket then table.openFile (.socket freshSocket) else none) with
  | none => ⟨-1, { ctx with sockfd := -1 }, table⟩
  | some (sockfd, table) =>
      let ctx := { ctx with sockfd := sockfd }
      if calls.setsockopt then
        let table := table.modify sockfd (onSocket fun s => { s with reuseAddr := true })
        if calls.bind then
          let table :=
            table.modify sockfd (onSocket fun s => { s with name := some ⟨afInet, 0, 0⟩ })
          if calls.membership then
            ⟨0, ctx, table.modify sockfd (onSocket fun s =>
              { s with memberships := s.memberships ++ [multicastAddr] })⟩
          else ⟨-1, ctx, table.close sockfd⟩
        else ⟨-1, ctx, table.close sockfd⟩
      else ⟨-1, ctx, table.close sockfd⟩

/-- What is done with the first line that has the inode. -/
def joinListed (calls : ReceiverCalls) (table : Table File) (ctx : MulticastContext)
    (entry : UdpLine) : ContextInit :=
  let ctx := { ctx with port := entry.localPort.toInt32.toInt }
  match groupOf (packed entry.localAddr) (packed entry.remoteAddr) with
  | none => ⟨-1, ctx, table⟩
  | some multicastAddr =>
      joinGroup calls table
        { ctx with
          multicastAddr := strncpy inetAddrStrlen (inetNtop ctx.addr.sinAddr)
          addr := ⟨afInet, htons entry.localPort.toUInt16, multicastAddr⟩ }
        multicastAddr

/-- What is done between `fopen` of the table of sockets and `fclose`, which is called on every
way out: the stream has a descriptor for that time. -/
def withNetUdp (table : Table File) (ctx : MulticastContext) (inner : Table File → ContextInit) :
    ContextInit :=
  match table.openFile .netUdp with
  | none => ⟨-1, ctx, table⟩
  | some (fp, table) =>
      let done := inner table
      { done with table := done.table.close fp }

/-- `init_multicast_context_from_pid_fd` for a context that is not `NULL`. The text of the
address is printed before the address is there. -/
def initMulticastContextFromPidFd (world : ProcWorld) (store : ℤ → UInt32)
    (calls : ReceiverCalls) (table : Table File) (pid fd : ℤ) : ContextInit :=
  let ctx := zeroContext
  let inode := getSocketInode world pid fd
  if inode = uintMax then ⟨-1, ctx, table⟩
  else
    match world.netUdp with
    | none => ⟨-1, ctx, table⟩
    | some lines =>
        withNetUdp table ctx fun table =>
          match findSocket store inode (lines.drop 1) with
          | none => ⟨-1, ctx, table⟩
          | some entry => joinListed calls table ctx entry

/-- `np_peek_message` with the descriptors of its process; `sockfd` is the socket of the reader
itself, and it is what the reader looks for in the other process. -/
def npPeekMessageFrom (world : ProcWorld) (store : ℤ → UInt32) (calls : ReceiverCalls)
    (receiver : Receiver) (table : Table File) (sockfd pid : ℤ) :
    Except Fault (Option (List UInt8)) × Table File :=
  let context := initMulticastContextFromPidFd world store calls table pid sockfd
  (npPeekMessage { receiver with context := context.ret = 0 }, context.table)

end SystemsExperiments.NopeekingRegistry
