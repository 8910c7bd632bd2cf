import SystemsExperiments.Verification.NopeekingRegistry.SocketTable

/-! # What a reader joins

A reader joins the group of the first socket with the inode of the descriptor, or it opens
nothing. -/

namespace SystemsExperiments.NopeekingRegistry

open Descriptors Printing

/-! ## The socket of the reader -/

def ReceiverCalls.all (calls : ReceiverCalls) : Bool :=
  calls.socket && calls.setsockopt && calls.bind && calls.membership

/-- The socket that has joined a group. -/
def receiverSocket (group : UInt32) : Socket :=
  { freshSocket with
    reuseAddr := true
    name := some ⟨afInet, 0, 0⟩
    memberships := [group] }

/-- A new socket, the only change of a table. -/
def Opens (table table' : Table File) (fd : ℤ) (socket : Socket) : Prop :=
  0 ≤ fd ∧ table.get fd = none ∧ table'.limit = table.limit ∧
    table'.opened.card = table.opened.card + 1 ∧
    ∀ fd', table'.get fd' = if fd' = fd then some (.socket socket) else table.get fd'

/-- A table has room for a new file as long as it is not full. -/
theorem openFile_isSome (table : Table File) (file : File) :
    (table.openFile file).isSome = true ↔ table.opened.card < table.limit := by
  cases hopen : table.openFile file with
  | none => simp [Table.openFile_eq_none hopen]
  | some opened =>
      have hspec := Table.openFile_spec hopen
      have hle := Table.card_opened_le opened.2
      simp only [Option.isSome_some, true_iff]
      omega

/-- A call ends with a new socket in the group if so many more files can be open, and else it
leaves the table as it was. -/
def Joins (files : ℕ) (calls : ReceiverCalls) (table : Table File) (group : UInt32)
    (r : ContextInit) : Prop :=
  (r.ret = 0 ∧ (calls.all = true ∧ table.opened.card + files ≤ table.limit) ∧
      Opens table r.table r.ctx.sockfd (receiverSocket group) ∧ r.ctx.addr.sinAddr = group) ∨
    (r.ret = -1 ∧ ¬(calls.all = true ∧ table.opened.card + files ≤ table.limit) ∧
      r.table = table)

/-- A call fails and leaves the table as it was. -/
def Fails (table : Table File) (r : ContextInit) : Prop := r.ret = -1 ∧ r.table = table

theorem joinGroup_joins (calls : ReceiverCalls) (table : Table File) (ctx : MulticastContext) :
    Joins 1 calls table ctx.addr.sinAddr (joinGroup calls table ctx ctx.addr.sinAddr) := by
  have hroom := openFile_isSome table (.socket freshSocket)
  rcases calls with ⟨socket, setsockopt, bind, membership⟩
  rw [joinGroup]
  cases socket with
  | false => exact .inr ⟨rfl, by simp [ReceiverCalls.all], rfl⟩
  | true =>
      cases hopen : table.openFile (.socket freshSocket) with
      | none =>
          rw [hopen] at hroom
          refine .inr ⟨by simp, fun h => ?_, by simp⟩
          exact absurd (hroom.mpr h.2) (by simp)
      | some opened =>
          have hspec := Table.openFile_spec hopen
          have hclose := Table.close_openFile hopen
          rw [hopen] at hroom
          have hlt := hroom.mp rfl
          cases setsockopt with
          | false => exact .inr ⟨by simp, by simp [ReceiverCalls.all],
              by simp [hclose]⟩
          | true =>
              cases bind with
              | false => exact .inr ⟨by simp, by simp [ReceiverCalls.all],
                  by simp [Table.close_modify, hclose]⟩
              | true =>
                  cases membership with
                  | false => exact .inr ⟨by simp, by simp [ReceiverCalls.all],
                      by simp [Table.close_modify, hclose]⟩
                  | true =>
                      refine .inl ⟨by simp, ⟨rfl, hlt⟩, ?_, by simp⟩
                      simp only [if_true]
                      refine ⟨hspec.1, hspec.2.1, by simp [hspec.2.2.1],
                        by simp [hspec.2.2.2.2], fun fd => ?_⟩
                      simp only [Table.get_modify, hspec.2.2.2.1]
                      split
                      · rfl
                      · rfl

/-! ## The stream of the table of sockets -/

section Stream

variable {table table' : Table File} {ctx : MulticastContext} {inner : Table File → ContextInit}
  {fp : ℤ}

/-- The stream is closed behind the new socket. -/
theorem Opens.close_stream {table'' : Table File} {fd : ℤ} {socket : Socket}
    (hopen : table.openFile .netUdp = some (fp, table')) (h : Opens table' table'' fd socket) :
    Opens table (table''.close fp) fd socket := by
  obtain ⟨hnonneg, hfree, hlimit, hcard, hfile⟩ := h
  obtain ⟨-, hfree', hlimit', hfile', hcard'⟩ := Table.openFile_spec hopen
  have hne : fd ≠ fp := by
    intro heq
    rw [heq, hfile', if_pos rfl] at hfree
    cases hfree
  have hstream : table''.get fp = some .netUdp := by
    rw [hfile, if_neg hne.symm, hfile', if_pos rfl]
  have hclosed := Table.card_close hstream
  refine ⟨hnonneg, ?_, ?_, by omega, fun fd' => ?_⟩
  · rwa [hfile', if_neg hne] at hfree
  · rw [Table.limit_close, hlimit, hlimit']
  · rw [Table.get_close, hfile, hfile']
    by_cases heq : fd' = fp
    · rw [if_pos heq, if_neg (heq ▸ hne.symm), heq, hfree']
    · rw [if_neg heq, if_neg heq]

theorem withNetUdp_fails (h : ∀ table, Fails table (inner table)) :
    Fails table (withNetUdp table ctx inner) := by
  rw [withNetUdp]
  cases hopen : table.openFile .netUdp with
  | none => exact ⟨rfl, rfl⟩
  | some opened =>
      obtain ⟨hret, htable⟩ := h opened.2
      refine ⟨hret, ?_⟩
      simp only [htable]
      exact Table.close_openFile hopen

/-- The stream is one more file that has to be open. -/
theorem withNetUdp_joins {files : ℕ} {calls : ReceiverCalls} {group : UInt32}
    (h : ∀ table, Joins files calls table group (inner table)) :
    Joins (files + 1) calls table group (withNetUdp table ctx inner) := by
  have hroom := openFile_isSome table .netUdp
  rw [withNetUdp]
  cases hopen : table.openFile .netUdp with
  | none =>
      rw [hopen] at hroom
      have hfull : ¬ table.opened.card < table.limit := by simpa using hroom
      refine .inr ⟨rfl, fun hfits => ?_, rfl⟩
      omega
  | some opened =>
      obtain ⟨-, -, hlimit, -, hcard⟩ := Table.openFile_spec hopen
      have hsame : opened.2.opened.card + files ≤ opened.2.limit ↔
          table.opened.card + (files + 1) ≤ table.limit := by omega
      cases h opened.2 with
      | inl h =>
          obtain ⟨hret, hfits, hopens, haddr⟩ := h
          exact .inl ⟨hret, ⟨hfits.1, hsame.mp hfits.2⟩, hopens.close_stream hopen, haddr⟩
      | inr h =>
          obtain ⟨hret, hfits, htable⟩ := h
          refine .inr ⟨hret, fun hfits' => hfits ⟨hfits'.1, hsame.mpr hfits'.2⟩, ?_⟩
          simp only [htable]
          exact Table.close_openFile hopen

end Stream

section Context

variable (world : ProcWorld) (store : ℤ → UInt32) (calls : ReceiverCalls) (table : Table File)
  (pid fd : ℤ)

/-- Two files have to be open at once for a reader to find anything. -/
theorem context_opens :
    let r := initMulticastContextFromPidFd world store calls table pid fd
    (∃ group, Joins 2 calls table group r) ∨ Fails table r := by
  simp only [initMulticastContextFromPidFd]
  split
  · exact .inr ⟨rfl, rfl⟩
  · cases world.netUdp with
    | none => exact .inr ⟨rfl, rfl⟩
    | some lines =>
        simp only
        cases findSocket store (getSocketInode world pid fd) (lines.drop 1) with
        | none => exact .inr (withNetUdp_fails fun _ => ⟨rfl, rfl⟩)
        | some entry =>
            simp only [joinListed]
            cases groupOf (packed entry.localAddr) (packed entry.remoteAddr) with
            | none => exact .inr (withNetUdp_fails fun _ => ⟨rfl, rfl⟩)
            | some group =>
                exact .inl ⟨group, withNetUdp_joins fun table => joinGroup_joins calls table _⟩

variable {world store}

section Listed

variable {heading : List UInt8} {entries : List UdpEntry}

theorem context_of_none (hstore : StoresSmall store) (hentries : ∀ e ∈ entries, e.InRange)
    (hudp : world.netUdp = some (heading :: entries.map UdpEntry.line))
    (h : listedGroup entries (getSocketInode world pid fd) = none) :
    Fails table (initMulticastContextFromPidFd world store calls table pid fd) := by
  simp only [initMulticastContextFromPidFd, hudp, List.drop_succ_cons, List.drop_zero,
    findSocket_lines hstore _ hentries]
  rw [listedGroup] at h
  split
  · exact ⟨rfl, rfl⟩
  · rename_i hinode
    rw [if_neg hinode] at h
    apply withNetUdp_fails
    intro table
    cases hfind : entries.find? fun e => e.inode = getSocketInode world pid fd with
    | none => exact ⟨rfl, rfl⟩
    | some e =>
        have he := hentries e (List.mem_of_find?_eq_some hfind)
        rw [hfind, Option.bind_some] at h
        simp only [Option.map_some, UdpEntry.scanned, joinListed, packed_bytes he.localAddr,
          packed_bytes he.remoteAddr, h]
        exact ⟨rfl, rfl⟩

theorem context_of_group (hstore : StoresSmall store) (hentries : ∀ e ∈ entries, e.InRange)
    (hudp : world.netUdp = some (heading :: entries.map UdpEntry.line)) {group : UInt32}
    (h : listedGroup entries (getSocketInode world pid fd) = some group) :
    Joins 2 calls table group
      (initMulticastContextFromPidFd world store calls table pid fd) := by
  simp only [initMulticastContextFromPidFd, hudp, List.drop_succ_cons, List.drop_zero,
    findSocket_lines hstore _ hentries]
  rw [listedGroup] at h
  split at h
  · cases h
  · rename_i hinode
    rw [if_neg hinode]
    apply withNetUdp_joins
    intro table
    cases hfind : entries.find? fun e => e.inode = getSocketInode world pid fd with
    | none =>
        rw [hfind] at h
        cases h
    | some e =>
        have he := hentries e (List.mem_of_find?_eq_some hfind)
        rw [hfind, Option.bind_some] at h
        simp only [Option.map_some, UdpEntry.scanned, joinListed, packed_bytes he.localAddr,
          packed_bytes he.remoteAddr, h]
        exact joinGroup_joins calls table _

/-- A reader succeeds exactly if the first socket with the inode has a group and both the table
of sockets and a socket of its own can be open; it then has joined that group, and else it leaves
nothing open. -/
theorem context_joins (hstore : StoresSmall store) (hentries : ∀ e ∈ entries, e.InRange)
    (hudp : world.netUdp = some (heading :: entries.map UdpEntry.line)) :
    let group := listedGroup entries (getSocketInode world pid fd)
    let r := initMulticastContextFromPidFd world store calls table pid fd
    (r.ret = 0 ↔ group.isSome = true ∧ calls.all = true ∧
        table.opened.card + 2 ≤ table.limit) ∧
      (r.ret ≠ 0 → r.ret = -1 ∧ r.table = table) ∧
      (r.ret = 0 → ∃ g ∈ group, r.ctx.addr.sinAddr = g ∧
        Opens table r.table r.ctx.sockfd (receiverSocket g)) := by
  cases hgroup : listedGroup entries (getSocketInode world pid fd) with
  | none =>
      obtain ⟨hret, htable⟩ := context_of_none calls table pid fd hstore hentries hudp hgroup
      simp [hret, htable]
  | some group =>
      have hjoins := context_of_group calls table pid fd hstore hentries hudp hgroup
      intro group' r
      have hr : initMulticastContextFromPidFd world store calls table pid fd = r := rfl
      rw [hr] at hjoins
      clear_value r
      cases hjoins with
      | inl h =>
          obtain ⟨hret, hfits, hopens, haddr⟩ := h
          exact ⟨by simp [hret, hfits, group'], by simp [hret],
            fun _ => ⟨group, rfl, haddr, hopens⟩⟩
      | inr h =>
          obtain ⟨hret, hfits, htable⟩ := h
          refine ⟨?_, fun _ => ⟨hret, htable⟩, by simp [hret]⟩
          rw [hret]
          exact iff_of_false (by decide) fun hall => hfits hall.2

end Listed

end Context

/-- A socket that is connected to the group of 239.1.2.3. -/
def listedSender : UdpEntry where
  slot := 7
  localAddr := 0x0100007F
  localPort := 40000
  remoteAddr := (sAddr (generatedOctets (1, 2, 3))).toNat
  remotePort := 0
  state := 1
  txQueue := 0
  rxQueue := 0
  timer := 0
  expires := 0
  retransmits := 0
  uid := 1000
  timeout := 0
  inode := 12345
  rest := []

theorem listedSender_inRange : ∀ e ∈ [listedSender], e.InRange := by
  intro e he
  rw [List.mem_singleton.mp he]
  exact ⟨by decide +kernel, by decide +kernel, by decide +kernel, by decide +kernel,
    by decide +kernel, by decide +kernel, by decide⟩

def oneSocket : ProcWorld where
  readlink _ := some (literal "socket:[" ++ (decimal 12345 ++ [93]))
  netUdp := some (literal "  sl" :: [listedSender].map UdpEntry.line)

def fourDescriptors : Table File := ⟨4, fun _ => none, fun _ _ => rfl⟩

theorem storesSmall_toNat : StoresSmall fun n => UInt32.ofNat n.toNat := fun _ _ => rfl

theorem context_joins_oneSocket :
    listedGroup [listedSender] (getSocketInode oneSocket 1 2) =
        some (sAddr (generatedOctets (1, 2, 3))) ∧
      ((initMulticastContextFromPidFd oneSocket (fun n => UInt32.ofNat n.toNat)
        ⟨true, true, true, true⟩ fourDescriptors 1 2).ret = 0 ↔ True) := by
  have hjoins := context_joins ⟨true, true, true, true⟩ fourDescriptors 1 2 storesSmall_toNat
    listedSender_inRange (show oneSocket.netUdp = _ from rfl)
  have hgroup : listedGroup [listedSender] (getSocketInode oneSocket 1 2) =
      some (sAddr (generatedOctets (1, 2, 3))) := by decide +kernel
  refine ⟨hgroup, hjoins.1.trans ?_⟩
  rw [hgroup]
  exact iff_of_true ⟨rfl, rfl, by decide +kernel⟩ trivial

end SystemsExperiments.NopeekingRegistry
