import SystemsExperiments.Verification.NopeekingRegistry.Context

/-! # How a reader finds the group of another process

Both processes have their sockets at the same descriptor, and what the reader joins is what the
other process has drawn. Each success costs the reader a descriptor. -/

namespace SystemsExperiments.NopeekingRegistry

open Bytes Descriptors Printing Scanf

/-! ## The link of a descriptor -/

/-- What the link of a socket says. -/
def socketLink (inode : ℕ) : List UInt8 := literal "socket:[" ++ (decimal inode ++ [93])

theorem getSocketInode_link {world : ProcWorld} {pid fd : ℤ} {inode : ℕ} (hinode : inode < 2 ^ 32)
    (h : world.readlink (fdPath pid fd) = some (socketLink inode)) :
    getSocketInode world pid fd = inode := by
  have hhead : literal "socket:[" = [115, 111, 99, 107, 101, 116, 58, 91] := by decide +kernel
  have hlen : (decimal inode).length ≤ 10 := by
    have hlt : inode < 10 ^ 10 := by omega
    exact length_decimal_le hlt (by decide)
  have htake : (socketLink inode).take 4095 = socketLink inode := by
    apply List.take_of_length_le
    simp only [socketLink, hhead, List.length_append, List.length_cons, List.length_nil]
    omega
  have hnul : untilNul (socketLink inode) = socketLink inode := by
    have hdec : (0 : UInt8) ∉ decimal inode := not_mem_decimal (by decide) inode
    apply untilNul_eq
    simp [socketLink, hhead, hdec]
  have hdigits := decimal_digits inode
  have hscan : scanNumber 10 none (decimal inode ++ [93]) = some ((inode : ℤ), [93]) := by
    have hread := @scanNumber_digits 10 none [] (decimal inode) [93] (by simp)
      hdigits.2.1 hdigits.1 (.inr ⟨by simp, endsNumber_cons (by decide) []⟩)
    rw [hdigits.2.2] at hread
    exact hread
  simp only [getSocketInode, h, htake, hnul]
  have hfront : (socketLink inode).take 8 = literal "socket:[" := by simp [socketLink, hhead]
  have hback : (socketLink inode).drop 8 = decimal inode ++ [93] := by simp [socketLink, hhead]
  rw [if_pos hfront, hback, strtoul, hscan]
  simp only [List.head?_cons, if_true]
  rw [if_neg (by simp; omega)]
  omega

/-! ## Two processes -/

/-- The reader takes for a group what the sender's check takes for one. -/
theorem isMulticast_sAddr (a b c d : UInt8) :
    isMulticast (sAddr [a, b, c, d]) = true ↔ 224 ≤ a.toNat ∧ a.toNat ≤ 239 := by
  have hmask : ∀ n : ℕ, n &&& 240 = (n % 256) &&& 240 := by
    intro n
    rw [← Nat.and_two_pow_sub_one_eq_mod n 8, Nat.and_assoc]
    rfl
  have hbyte : ∀ n < 256, (n &&& 240 = 224 ↔ 224 ≤ n ∧ n ≤ 239) := by decide +kernel
  have hlow : (sAddr [a, b, c, d]).toNat % 256 = a.toNat := by
    have ha := a.toNat_lt
    rw [sAddr, UInt32.toNat_ofNat', ofLE]
    omega
  rw [isMulticast, decide_eq_true_iff, ← UInt32.toNat_inj, UInt32.toNat_and]
  simp only [UInt32.reduceToNat]
  rw [hmask, hlow]
  exact hbyte a.toNat a.toNat_lt

/-- The kernel shows the sockets of a process: the descriptor of each has a link with its inode,
and the only line with that inode has its peer. The local address is no group. -/
structure Shows (world : ProcWorld) (pid : ℤ) (table : Table File) (heading : List UInt8)
    (entries : List UdpEntry) : Prop where
  netUdp : world.netUdp = some (heading :: entries.map UdpEntry.line)
  inRange : ∀ e ∈ entries, e.InRange
  listed : ∀ fd socket, table.get fd = some (.socket socket) → ∃ e ∈ entries,
    e.inode ≠ uintMax ∧ world.readlink (fdPath pid fd) = some (socketLink e.inode) ∧
      (∀ e' ∈ entries, e'.inode = e.inode → e' = e) ∧
      isMulticast (UInt32.ofNat e.localAddr) = false ∧
      ∀ peer ∈ socket.peer, UInt32.ofNat e.remoteAddr = peer.sinAddr

theorem Shows.listedGroup {world : ProcWorld} {pid : ℤ} {table : Table File}
    {heading : List UInt8} {entries : List UdpEntry} (h : Shows world pid table heading entries)
    {fd : ℤ} {rand : ℕ × ℕ × ℕ} (hfd : table.get fd = some (.socket (senderSocket rand))) :
    NopeekingRegistry.listedGroup entries (getSocketInode world pid fd) =
      some (sAddr (generatedOctets rand)) := by
  obtain ⟨e, he, hmax, hlink, hunique, hlocal, hpeer⟩ := h.listed fd _ hfd
  have hinode := getSocketInode_link (h.inRange e he).inode hlink
  have hremote : UInt32.ofNat e.remoteAddr = sAddr (generatedOctets rand) :=
    hpeer ⟨afInet, 0, sAddr (generatedOctets rand)⟩ rfl
  have hgroup : isMulticast (sAddr (generatedOctets rand)) = true :=
    (isMulticast_sAddr _ _ _ _).mpr (by decide)
  have hfind : (entries.find? fun e' => e'.inode = e.inode) = some e := by
    cases hfind : entries.find? fun e' => e'.inode = e.inode with
    | none =>
        have hnone := List.find?_eq_none.mp hfind e he
        simp at hnone
    | some e' =>
        have heq : e'.inode = e.inode := by simpa using List.find?_some hfind
        rw [hunique e' (List.mem_of_find?_eq_some hfind) heq]
  rw [hinode, NopeekingRegistry.listedGroup, if_neg hmax, hfind, Option.bind_some, groupOf,
    hlocal, hremote]
  simp [hgroup]

structure Peek where
  world : ProcWorld
  calls : ReceiverCalls
  receiver : Receiver
  pid : ℤ

/-- The results of the peeks of a process, and its descriptors after them. -/
def peekAll (store : ℤ → UInt32) (sockfd : ℤ) :
    Table File → List Peek → List (Except Fault (Option (List UInt8))) × Table File
  | table, [] => ([], table)
  | table, p :: ps =>
      let one := npPeekMessageFrom p.world store p.calls p.receiver table sockfd p.pid
      let rest := peekAll store sockfd one.2 ps
      (one.1 :: rest.1, rest.2)

/-- The peek finds a message. -/
def found : Except Fault (Option (List UInt8)) → Bool
  | .ok none => false
  | _ => true

/-- A peek that finds a message leaves one descriptor more in use, and needs two free ones. -/
theorem npPeekMessageFrom_table (p : Peek) (store : ℤ → UInt32) (table : Table File)
    (sockfd : ℤ) :
    let one := npPeekMessageFrom p.world store p.calls p.receiver table sockfd p.pid
    (found one.1 = true → table.opened.card + 2 ≤ table.limit) ∧
      (found one.1).toNat + table.opened.card ≤ one.2.opened.card ∧
      one.2.limit = table.limit ∧
      ∀ fd file, table.get fd = some file → one.2.get fd = some file := by
  intro one
  -- a peek whose context fails finds nothing and takes nothing
  have hfails : Fails table
        (initMulticastContextFromPidFd p.world store p.calls table p.pid sockfd) →
      (found one.1 = true → table.opened.card + 2 ≤ table.limit) ∧
        (found one.1).toNat + table.opened.card ≤ one.2.opened.card ∧
        one.2.limit = table.limit ∧
        ∀ fd file, table.get fd = some file → one.2.get fd = some file := by
    rintro ⟨hret, htable⟩
    have hresult : one.1 = .ok none := by
      simp only [one, npPeekMessageFrom]
      rw [hret]
      rfl
    have hsame : one.2 = table := htable
    rw [hresult, hsame]
    exact ⟨by simp [found], by simp [found], rfl, fun fd file hfd => hfd⟩
  cases context_opens p.world store p.calls table p.pid sockfd with
  | inl h =>
      obtain ⟨group, h | h⟩ := h
      · obtain ⟨-, hfits, ⟨-, hfree, hlimit, hcard, hfile⟩, -⟩ := h
        refine ⟨fun _ => hfits.2, ?_, hlimit, fun fd file hfd => ?_⟩
        · have hle := Bool.toNat_le (found one.1)
          have hcard' : one.2.opened.card = table.opened.card + 1 := hcard
          omega
        · have hget : one.2.get fd = _ := hfile fd
          rw [hget, if_neg, hfd]
          intro heq
          rw [← heq, hfd] at hfree
          cases hfree
      · exact hfails ⟨h.1, h.2.2⟩
  | inr h => exact hfails h

/-- What finds messages takes descriptors, and the last one is never taken. -/
theorem peekAll_table (store : ℤ → UInt32) (sockfd : ℤ) (table : Table File) (ps : List Peek) :
    let count := (peekAll store sockfd table ps).1.countP found
    (count = 0 ∨ count + table.opened.card + 1 ≤ table.limit) ∧
      count + table.opened.card ≤ (peekAll store sockfd table ps).2.opened.card ∧
      ∀ fd file, table.get fd = some file →
        (peekAll store sockfd table ps).2.get fd = some file := by
  induction ps generalizing table with
  | nil => exact ⟨.inl (by simp [peekAll]), by simp [peekAll], fun fd file hfd => hfd⟩
  | cons p ps ih =>
      obtain ⟨hfree, hcount, hlimit, hkept⟩ := npPeekMessageFrom_table p store table sockfd
      obtain ⟨hbound, hcounts, hkept'⟩ :=
        ih (npPeekMessageFrom p.world store p.calls p.receiver table sockfd p.pid).2
      have hopen := fun fd file hfd => hkept' fd file (hkept fd file hfd)
      simp only [peekAll, List.countP_cons]
      cases hfound : found
          (npPeekMessageFrom p.world store p.calls p.receiver table sockfd p.pid).1 with
      | false =>
          simp only [hfound, Bool.toNat_false, Bool.false_eq_true, if_false] at hcount ⊢
          exact ⟨by omega, by omega, hopen⟩
      | true =>
          have hroom := hfree hfound
          simp only [hfound, Bool.toNat_true, if_true] at hcount ⊢
          exact ⟨by omega, by omega, hopen⟩

/-- No peek closes its socket: what finds messages is bounded by the descriptors that were free
but one, however often the process peeks, and what was open stays open. -/
theorem peeks_exhaust (store : ℤ → UInt32) (sockfd : ℤ) (table : Table File) (ps : List Peek) :
    let r := peekAll store sockfd table ps
    r.1.countP found + table.opened.card ≤ r.2.opened.card ∧
      r.1.countP found ≤ table.limit - table.opened.card - 1 ∧
      ∀ fd file, table.get fd = some file → r.2.get fd = some file := by
  intro r
  obtain ⟨hbound, hcount, hkept⟩ := peekAll_table store sockfd table ps
  refine ⟨hcount, ?_, hkept⟩
  have hr : peekAll store sockfd table ps = r := rfl
  rw [hr] at hbound
  omega

end SystemsExperiments.NopeekingRegistry
