import SystemsExperiments.Model.NopeekingRegistry.Context
import SystemsExperiments.Verification.NopeekingRegistry.SocketInit

/-! # The kernel's table of sockets

A line of the table is read as it is printed, so that the lookup finds the first socket with an
inode and the addresses it has. -/

namespace SystemsExperiments.NopeekingRegistry

open Bytes Descriptors Printing Scanf

/-! ## Lines of the table -/

/-- A socket as the kernel lists it. -/
structure UdpEntry where
  slot : ℕ
  localAddr : ℕ
  localPort : ℕ
  remoteAddr : ℕ
  remotePort : ℕ
  state : ℕ
  txQueue : ℕ
  rxQueue : ℕ
  timer : ℕ
  expires : ℕ
  retransmits : ℕ
  uid : ℕ
  timeout : ℕ
  inode : ℕ
  /-- The reference count, the address and the drops. -/
  rest : List UInt8

/-- `%5d: %08X:%04X %08X:%04X %02X %08X:%08X %02X:%08lX %08X %5u %8d %lu`, and the rest -/
def UdpEntry.line (e : UdpEntry) : List UInt8 :=
  aligned 5 (decimal e.slot) ++ 58 :: 32 ::
    (hexadecimal 8 e.localAddr ++ 58 :: (hexadecimal 4 e.localPort ++ 32 ::
    (hexadecimal 8 e.remoteAddr ++ 58 :: (hexadecimal 4 e.remotePort ++ 32 ::
    (hexadecimal 2 e.state ++ 32 ::
    (hexadecimal 8 e.txQueue ++ 58 :: (hexadecimal 8 e.rxQueue ++ 32 ::
    (hexadecimal 2 e.timer ++ 58 :: (hexadecimal 8 e.expires ++ 32 ::
    (hexadecimal 8 e.retransmits ++ 32 ::
    (aligned 5 (decimal e.uid) ++ 32 ::
    (aligned 8 (decimal e.timeout) ++ 32 ::
    (decimal e.inode ++ 32 :: e.rest)))))))))))))

/-- The numbers have the sizes of their fields, and the line is one of a text. -/
structure UdpEntry.InRange (e : UdpEntry) : Prop where
  localAddr : e.localAddr < 2 ^ 32
  localPort : e.localPort < 2 ^ 16
  remoteAddr : e.remoteAddr < 2 ^ 32
  remotePort : e.remotePort < 2 ^ 16
  state : e.state < 2 ^ 8
  inode : e.inode < 2 ^ 32
  rest : 0 ∉ e.rest

section Address

variable {ds : List Directive} {text : List UInt8} {ns : List ℕ}

theorem hexadecimal_eight {n : ℕ} (hn : n < 2 ^ 32) : hexadecimal 8 n =
    (lowDigits 16 2 (n / 16 ^ 6)).map hexByte ++ ((lowDigits 16 2 (n / 16 ^ 4)).map hexByte ++
      ((lowDigits 16 2 (n / 16 ^ 2)).map hexByte ++ (lowDigits 16 2 n).map hexByte)) := by
  have hlt : n < 16 ^ 8 := by
    calc n < 2 ^ 32 := hn
      _ = 16 ^ 8 := by norm_num
  rw [hexadecimal, paddedDigits_eq (by decide) hlt, lowDigits_add 16 2 6 n,
    lowDigits_add 16 2 4 n, lowDigits_add 16 2 2 n]
  simp only [List.map_append]

/-- An address and a port, byte by byte. -/
theorem reads_address (h : Reads ds text ns) {addr port : ℕ} (haddr : addr < 2 ^ 32)
    (hport : port < 2 ^ 16) (k : ℕ) :
    Reads (.space :: .number 16 (some 2) true :: .number 16 (some 2) true ::
        .number 16 (some 2) true :: .number 16 (some 2) true :: .char 58 ::
        .number 16 (some 4) true :: ds)
      (List.replicate k 32 ++ (hexadecimal 8 addr ++ 58 :: (hexadecimal 4 port ++ text)))
      (addr / 16 ^ 6 % 16 ^ 2 :: addr / 16 ^ 4 % 16 ^ 2 :: addr / 16 ^ 2 % 16 ^ 2 ::
        addr % 16 ^ 2 :: port :: ns) := by
  have hlt : port < 16 ^ 4 := by
    calc port < 2 ^ 16 := hport
      _ = 16 ^ 4 := by norm_num
  have htext := h.lowDigits (show 0 < 4 by decide) port true
  rw [Nat.mod_eq_of_lt hlt, ← paddedDigits_eq (by decide) hlt] at htext
  have hbytes := ((((htext.char 58).lowDigits Nat.two_pos addr true).lowDigits Nat.two_pos
    (addr / 16 ^ 2) true).lowDigits Nat.two_pos (addr / 16 ^ 4) true).lowDigits Nat.two_pos
    (addr / 16 ^ 6) true
  have hdigits := isDigit_map_hexByte (le_refl 16)
    (lowDigits_lt (show 0 < 16 by decide) 2 (addr / 16 ^ 6))
  have hblanks := hbytes.blanks hdigits (by simp [lowDigits]) k
  rw [hexadecimal_eight haddr]
  simpa only [List.append_assoc, if_true, hexadecimal] using hblanks

end Address

theorem endsNumber_cons {c : UInt8} (hc : digitValue 16 c = none ∧ c ≠ 120 ∧ c ≠ 88)
    (text : List UInt8) : EndsNumber (c :: text) := by
  intro b hb
  cases hb
  exact hc

/-- A line of the table holds the numbers of its socket. -/
theorem reads_line {e : UdpEntry} (he : e.InRange) : Reads udpFormat e.line
    [e.localAddr / 16 ^ 6 % 16 ^ 2, e.localAddr / 16 ^ 4 % 16 ^ 2, e.localAddr / 16 ^ 2 % 16 ^ 2,
      e.localAddr % 16 ^ 2, e.localPort,
      e.remoteAddr / 16 ^ 6 % 16 ^ 2, e.remoteAddr / 16 ^ 4 % 16 ^ 2,
      e.remoteAddr / 16 ^ 2 % 16 ^ 2, e.remoteAddr % 16 ^ 2, e.remotePort,
      e.state, e.inode] := by
  have hblank : ∀ text, EndsNumber (32 :: text) := endsNumber_cons (by decide)
  have hcolon : ∀ text, EndsNumber (58 :: text) := endsNumber_cons (by decide)
  have hinode := (Reads.nil (32 :: e.rest)).decimal (hblank _) 1 e.inode true
  have htimeout := hinode.decimal (hblank _) (8 - (decimal e.timeout).length + 1) e.timeout false
  have huid := htimeout.decimal (hblank _) (5 - (decimal e.uid).length + 1) e.uid false
  have hretr := huid.spacedHexadecimal (hblank _) (show 0 < 8 by decide) 1 e.retransmits false
  have hexp := (hretr.hexadecimal (hblank _) (show 0 < 8 by decide) e.expires false).char 58
  have htimer := hexp.spacedHexadecimal (hcolon _) Nat.two_pos 1 e.timer false
  have hrx := (htimer.hexadecimal (hblank _) (show 0 < 8 by decide) e.rxQueue false).char 58
  have htx := hrx.spacedHexadecimal (hcolon _) (show 0 < 8 by decide) 1 e.txQueue false
  have hstate := htx.spacedHexadecimal (hblank _) Nat.two_pos 1 e.state true
  have hremote := reads_address hstate he.remoteAddr he.remotePort 1
  have hlocal := (reads_address hremote he.localAddr he.localPort 1).char 58
  have hslot := hlocal.decimal (hcolon _) (5 - (decimal e.slot).length) e.slot false
  simpa [udpFormat, UdpEntry.line, aligned, List.replicate_succ] using hslot

/-! ## The lookup -/

theorem not_mem_map_hexByte {ds : List ℕ} (hds : ∀ d ∈ ds, d < 16) :
    (0 : UInt8) ∉ ds.map hexByte := by
  have hdigit : ∀ d < 16, hexByte d ≠ 0 := by decide
  intro hmem
  obtain ⟨d, hd, heq⟩ := List.mem_map.mp hmem
  exact hdigit d (hds d hd) heq

theorem untilNul_eq {text : List UInt8} (h : 0 ∉ text) : untilNul text = text := by
  rw [untilNul, List.takeWhile_eq_self_iff]
  intro c hc
  have hne : c ≠ 0 := fun hzero => h (hzero ▸ hc)
  simpa using hne

theorem untilNul_line {e : UdpEntry} (he : e.InRange) : untilNul e.line = e.line := by
  have hhex : ∀ width n, (0 : UInt8) ∉ hexadecimal width n := fun width n =>
    not_mem_map_hexByte (paddedDigits_lt (by decide) width n)
  have hdec : ∀ n, (0 : UInt8) ∉ decimal n := not_mem_decimal (by decide)
  apply untilNul_eq
  simp [UdpEntry.line, aligned, hhex, hdec, he.rest]

theorem toNat_packed {a b c d : ℕ} (ha : a < 256) (hb : b < 256) (hc : c < 256) (hd : d < 256) :
    (packed (UInt32.ofNat a, UInt32.ofNat b, UInt32.ofNat c, UInt32.ofNat d)).toNat =
      a * 2 ^ 24 + (b * 2 ^ 16 + (c * 2 ^ 8 + d)) := by
  have hor : ∀ i a b : ℕ, b < 2 ^ i → a * 2 ^ i ||| b = a * 2 ^ i + b := by
    intro i a b hb
    rw [← Nat.shiftLeft_eq, Nat.shiftLeft_add_eq_or_of_lt hb]
  have hshift : ∀ (k : UInt32) (x : ℕ), x < 256 → k.toNat ≤ 24 →
      (UInt32.ofNat x <<< k).toNat = x * 2 ^ k.toNat := by
    intro k x hx hk
    have hx32 : x < 2 ^ 32 := by omega
    have hk32 : k.toNat < 32 := by omega
    have hlt : x * 2 ^ k.toNat < 2 ^ 32 := by
      calc x * 2 ^ k.toNat ≤ x * 2 ^ 24 :=
            Nat.mul_le_mul_left x (Nat.pow_le_pow_right Nat.two_pos hk)
        _ < 2 ^ 32 := by omega
    rw [UInt32.toNat_shiftLeft, UInt32.toNat_ofNat', Nat.mod_eq_of_lt hx32,
      Nat.mod_eq_of_lt hk32, Nat.shiftLeft_eq, Nat.mod_eq_of_lt hlt]
  have h24 : (UInt32.ofNat a <<< 24).toNat = a * 2 ^ 24 := hshift 24 a ha (by decide)
  have h16 : (UInt32.ofNat b <<< 16).toNat = b * 2 ^ 16 := hshift 16 b hb (by decide)
  have h8 : (UInt32.ofNat c <<< 8).toNat = c * 2 ^ 8 := hshift 8 c hc (by decide)
  have h0 : (UInt32.ofNat d).toNat = d := by
    rw [UInt32.toNat_ofNat']
    omega
  rw [packed, UInt32.toNat_or, UInt32.toNat_or, UInt32.toNat_or, h24, h16, h8, h0,
    Nat.or_assoc, Nat.or_assoc, hor 8 c d (by omega), hor 16 b _ (by omega),
    hor 24 a _ (by omega)]

/-- The four bytes of an address put together again. -/
theorem packed_bytes {n : ℕ} (hn : n < 2 ^ 32) :
    packed (UInt32.ofNat (n / 16 ^ 6 % 16 ^ 2), UInt32.ofNat (n / 16 ^ 4 % 16 ^ 2),
      UInt32.ofNat (n / 16 ^ 2 % 16 ^ 2), UInt32.ofNat (n % 16 ^ 2)) = UInt32.ofNat n := by
  apply UInt32.toNat_inj.mp
  rw [toNat_packed (by omega) (by omega) (by omega) (by omega), UInt32.toNat_ofNat']
  omega

/-- A listed socket as it is scanned. -/
def UdpEntry.scanned (e : UdpEntry) : UdpLine where
  localAddr := (UInt32.ofNat (e.localAddr / 16 ^ 6 % 16 ^ 2),
    UInt32.ofNat (e.localAddr / 16 ^ 4 % 16 ^ 2), UInt32.ofNat (e.localAddr / 16 ^ 2 % 16 ^ 2),
    UInt32.ofNat (e.localAddr % 16 ^ 2))
  localPort := UInt32.ofNat e.localPort
  remoteAddr := (UInt32.ofNat (e.remoteAddr / 16 ^ 6 % 16 ^ 2),
    UInt32.ofNat (e.remoteAddr / 16 ^ 4 % 16 ^ 2), UInt32.ofNat (e.remoteAddr / 16 ^ 2 % 16 ^ 2),
    UInt32.ofNat (e.remoteAddr % 16 ^ 2))
  remotePort := UInt32.ofNat e.remotePort
  state := UInt32.ofNat e.state
  socketInode := UInt32.ofNat e.inode

/-- A number that fits is stored as it is. -/
def StoresSmall (store : ℤ → UInt32) : Prop :=
  ∀ n : ℕ, n < 2 ^ 32 → store n = UInt32.ofNat n

theorem scanUdpLine_line {store : ℤ → UInt32} (hstore : StoresSmall store) {e : UdpEntry}
    (he : e.InRange) : scanUdpLine store e.line = some e.scanned := by
  have hbyte : ∀ n, store (n % 16 ^ 2 : ℕ) = UInt32.ofNat (n % 16 ^ 2) := fun n =>
    hstore _ (by omega)
  have hsmall : ∀ (k n : ℕ), k ≤ 32 → n < 2 ^ k → store n = UInt32.ofNat n := fun k n hk hn =>
    hstore n (hn.trans_le (Nat.pow_le_pow_right Nat.two_pos hk))
  rw [scanUdpLine, untilNul_line he, scan_of_reads (reads_line he)]
  simp only [List.map_cons, List.map_nil, hbyte, hsmall 16 _ (by decide) he.localPort,
    hsmall 16 _ (by decide) he.remotePort, hsmall 8 _ (by decide) he.state, hstore _ he.inode]
  rfl

/-- The lookup finds the first socket with the inode. -/
theorem findSocket_lines {store : ℤ → UInt32} (hstore : StoresSmall store) (inode : ℕ)
    {entries : List UdpEntry} (hentries : ∀ e ∈ entries, e.InRange) :
    findSocket store inode (entries.map UdpEntry.line) =
      (entries.find? fun e => e.inode = inode).map UdpEntry.scanned := by
  induction entries with
  | nil => rfl
  | cons e entries ih =>
      have he := hentries e List.mem_cons_self
      have hinode : (UInt32.ofNat e.inode).toNat = e.inode := by
        rw [UInt32.toNat_ofNat']
        exact Nat.mod_eq_of_lt he.inode
      rw [List.map_cons, findSocket, scanUdpLine_line hstore he, List.find?_cons,
        ih fun e' he' => hentries e' (List.mem_cons_of_mem e he')]
      simp only [UdpEntry.scanned, hinode]
      by_cases heq : e.inode = inode
      · simp [heq, UdpEntry.scanned]
      · simp [heq]

/-- The group of the first socket with the inode: its local address, if that is one, or else the
remote one. No socket is looked up by the inode that stands for a failure. -/
def listedGroup (entries : List UdpEntry) (inode : ℕ) : Option UInt32 :=
  if inode = uintMax then none
  else
    (entries.find? fun e => e.inode = inode).bind fun e =>
      groupOf (UInt32.ofNat e.localAddr) (UInt32.ofNat e.remoteAddr)

end SystemsExperiments.NopeekingRegistry
