import SystemsExperiments.Model.NopeekingRegistry.Multicast
import SystemsExperiments.Verification.NopeekingRegistry.Framing

/-! # The descriptor of the sending socket

Every generated address is one that can be sent to. The socket ends at the highest power of two
that its process can have, in the place of whatever was open there, or at none. -/

namespace SystemsExperiments.NopeekingRegistry

open Bytes Descriptors Printing

/-! ## Generated addresses -/

theorem octet_decimal {n : ℕ} (hn : n < 256) : octet (decimal n) = some (UInt8.ofNat n) := by
  have hall : ∀ n < 256, octet (decimal n) = some (UInt8.ofNat n) := by decide +kernel
  exact hall n hn

theorem not_mem_decimal {c : UInt8} (hc : ∀ d < 10, digitByte d ≠ c) (n : ℕ) : c ∉ decimal n :=
  fun hmem => forall_mem_decimal (p := fun b => b ≠ c) hc n c hmem rfl

/-- Four numbers with dots between them are read as the bytes they stand for. -/
theorem inetPton_dotted {a b c d : ℕ} (ha : a < 256) (hb : b < 256) (hc : c < 256)
    (hd : d < 256) :
    inetPton (decimal a ++ 46 :: (decimal b ++ 46 :: (decimal c ++ 46 :: decimal d))) =
      some [UInt8.ofNat a, UInt8.ofNat b, UInt8.ofNat c, UInt8.ofNat d] := by
  have hdot : ∀ n, (46 : UInt8) ∉ decimal n := not_mem_decimal (by decide)
  have hparts : (decimal a ++ 46 :: (decimal b ++ 46 :: (decimal c ++ 46 :: decimal d))).splitOn
      46 = [decimal a, decimal b, decimal c, decimal d] := by
    rw [List.splitOn_append_cons_self_of_not_mem (hdot a),
      List.splitOn_append_cons_self_of_not_mem (hdot b),
      List.splitOn_append_cons_self_of_not_mem (hdot c), List.splitOn_eq_singleton (hdot d)]
  simp only [inetPton, hparts]
  simp [octet_decimal, ha, hb, hc, hd]

theorem ntohl_sAddr (a b c d : UInt8) : ntohl (sAddr [a, b, c, d]) =
    UInt32.ofNat (a.toNat * 2 ^ 24 + b.toNat * 2 ^ 16 + c.toNat * 2 ^ 8 + d.toNat) := by
  have hlt : ofLE [a, b, c, d] < 2 ^ 32 := by
    calc ofLE [a, b, c, d] < 256 ^ 4 := ofLE_lt [a, b, c, d]
      _ = 2 ^ 32 := by norm_num
  have hle : toLE 4 (ofLE [a, b, c, d]) = [a, b, c, d] := by
    apply ofLE_injective
    · simp
    · exact ofLE_toLE_of_lt (ofLE_lt [a, b, c, d])
  have hnat : (UInt32.ofNat (ofLE [a, b, c, d])).toNat = ofLE [a, b, c, d] := by
    rw [UInt32.toNat_ofNat']
    exact Nat.mod_eq_of_lt hlt
  rw [ntohl, sAddr, hnat, hle]
  congr 1
  simp only [List.reverse_cons, List.reverse_nil, List.nil_append, List.cons_append, ofLE]
  omega

/-- The range of the check is that of the first byte. -/
theorem multicast_range (a b c d : UInt8) :
    (0xE0000000 ≤ ntohl (sAddr [a, b, c, d]) ∧ ntohl (sAddr [a, b, c, d]) ≤ 0xEFFFFFFF) ↔
      224 ≤ a.toNat ∧ a.toNat ≤ 239 := by
  have ha := a.toNat_lt
  have hb := b.toNat_lt
  have hc := c.toNat_lt
  have hd := d.toNat_lt
  have hlt : a.toNat * 2 ^ 24 + b.toNat * 2 ^ 16 + c.toNat * 2 ^ 8 + d.toNat < 2 ^ 32 := by omega
  rw [ntohl_sAddr, UInt32.le_iff_toNat_le, UInt32.le_iff_toNat_le, UInt32.toNat_ofNat',
    Nat.mod_eq_of_lt hlt]
  simp only [UInt32.reduceToNat]
  omega

/-- The text of a generated address. -/
def generatedText (rand : ℕ × ℕ × ℕ) : List UInt8 :=
  decimal 239 ++ 46 :: (decimal (rand.1 % 256) ++ 46 :: (decimal (rand.2.1 % 256) ++
    46 :: decimal (rand.2.2 % 256)))

def generatedOctets (rand : ℕ × ℕ × ℕ) : List UInt8 :=
  [239, UInt8.ofNat rand.1, UInt8.ofNat rand.2.1, UInt8.ofNat rand.2.2]

/-- A generated address fits the buffer. -/
theorem generated_fits (rand : ℕ × ℕ × ℕ) :
    generateSafeMulticastAddress rand inetAddrStrlen = (generatedText rand ++ [0], true) ∧
      untilNul (generatedText rand ++ [0]) = generatedText rand := by
  have hlen : ∀ n, (decimal (n % 256)).length ≤ 3 := by
    intro n
    have hlt : n % 256 < 10 ^ 3 := by omega
    exact length_decimal_le hlt (by decide)
  have hx := hlen rand.1
  have hy := hlen rand.2.1
  have hz := hlen rand.2.2
  have hhead : decimal 239 = [50, 51, 57] := by decide +kernel
  have hprinted : literal "239." ++ decimal (rand.1 % 256) ++ literal "." ++
      decimal (rand.2.1 % 256) ++ literal "." ++ decimal (rand.2.2 % 256) =
      generatedText rand := by
    have hfirst : literal "239." = decimal 239 ++ [46] := by decide +kernel
    have hdot : literal "." = [46] := by decide +kernel
    rw [hfirst, hdot, generatedText]
    simp
  have htext : (generatedText rand).length ≤ 15 := by
    simp only [generatedText, hhead, List.length_append, List.length_cons, List.length_nil]
    omega
  have hpos : 0 < (generatedText rand).length := by simp [generatedText]
  constructor
  · simp only [generateSafeMulticastAddress, hprinted, snprintf, inetAddrStrlen]
    rw [if_neg (by decide), List.take_of_length_le (by omega)]
    simp only [Prod.mk.injEq, true_and, decide_eq_true_eq]
    omega
  · have hnul : ∀ n, (0 : UInt8) ∉ decimal n := not_mem_decimal (by decide)
    rw [untilNul, List.takeWhile_append_of_pos]
    · simp
    · intro c hc
      have hne : c ≠ 0 := by
        intro hzero
        simp [generatedText, hnul, hzero] at hc
      simpa using hne

theorem inetPton_generated (rand : ℕ × ℕ × ℕ) :
    inetPton (generatedText rand) = some (generatedOctets rand) := by
  have hbyte : ∀ n, UInt8.ofNat (n % 256) = UInt8.ofNat n := by
    intro n
    apply UInt8.toNat_inj.mp
    simp
  rw [generatedText, inetPton_dotted (by decide) (Nat.mod_lt _ (by decide))
    (Nat.mod_lt _ (by decide)) (Nat.mod_lt _ (by decide)), hbyte, hbyte, hbyte]
  rfl

theorem isValid_generated (rand : ℕ × ℕ × ℕ) :
    isValidMulticastAddress (generatedText rand) = true := by
  have hrange := (multicast_range 239 (UInt8.ofNat rand.1) (UInt8.ofNat rand.2.1)
    (UInt8.ofNat rand.2.2)).mpr (by decide)
  rw [isValidMulticastAddress, inetPton_generated]
  exact decide_eq_true hrange

/-! ## The sender -/

/-- The socket that is connected to a generated address. -/
def senderSocket (rand : ℕ × ℕ × ℕ) : Socket :=
  { freshSocket with
    ttl := some 1
    peer := some ⟨afInet, 0, sAddr (generatedOctets rand)⟩ }

/-- The socket is connected to the generated address, or nothing stays open. -/
theorem initMulticastSender_generated (calls : Calls) (rand : ℕ × ℕ × ℕ) (table : Table File)
    (ctx : MulticastContext) :
    (initMulticastSender calls rand table ctx none).err ≠ .invalidAddr ∧
      ((initMulticastSender calls rand table ctx none).err ≠ .success →
        (initMulticastSender calls rand table ctx none).table = table ∧
        (initMulticastSender calls rand table ctx none).ctx.sockfd = ctx.sockfd) ∧
      ((initMulticastSender calls rand table ctx none).err = .success →
        let r := initMulticastSender calls rand table ctx none
        table.get r.ctx.sockfd = none ∧ 0 ≤ r.ctx.sockfd ∧ r.table.limit = table.limit ∧
          r.ctx.addr = ⟨afInet, 0, sAddr (generatedOctets rand)⟩ ∧
          ∀ fd, r.table.get fd =
            if fd = r.ctx.sockfd then some (.socket (senderSocket rand)) else table.get fd) := by
  have htext : untilNul (generateSafeMulticastAddress rand inetAddrStrlen).1 =
      generatedText rand := by
    rw [(generated_fits rand).1, (generated_fits rand).2]
  simp only [initMulticastSender, Option.getD_none, htext, isValid_generated, if_true,
    inetPton_generated]
  cases hopen : (if calls.socket = true then table.openFile (.socket freshSocket) else none) with
  | none => simp
  | some opened =>
      have hopen : table.openFile (.socket freshSocket) = some (opened.1, opened.2) := by
        split at hopen
        · exact hopen
        · cases hopen
      have hspec := Table.openFile_spec hopen
      have hclose := Table.close_openFile hopen
      cases calls.setsockopt with
      | false => simp [hclose]
      | true =>
          cases calls.connect with
          | false => simp [Table.close_modify, hclose]
          | true =>
              refine ⟨by simp, by simp, fun _ => ⟨hspec.2.1, hspec.1, by simp [hspec.2.2.1], rfl,
                fun fd => ?_⟩⟩
              simp only [if_true, Table.get_modify, hspec.2.2.2.1]
              split
              · rfl
              · rfl

/-! ## The loop over the powers -/

/-- The socket can be put at that power of two. -/
def Usable (calls : Calls) (table : Table File) (sockfd : ℤ) (power : ℕ) : Prop :=
  sockfd < 2 ^ power ∧ 2 ^ power < (table.limit : ℤ) ∧ calls.dup2 power = true

section Reposition

variable (calls : Calls) {table : Table File} {sockfd : ℤ} {file : File}

/-- One turn of the loop. -/
theorem reposition_succ (hget : table.get sockfd = some file) (power : ℕ) :
    (Usable calls table sockfd power → ∃ table',
      reposition calls table sockfd (power + 1) = some (2 ^ power, table') ∧
        table'.limit = table.limit ∧
        ∀ fd, table'.get fd = if fd = 2 ^ power then some file else table.get fd) ∧
      (¬Usable calls table sockfd power →
        reposition calls table sockfd (power + 1) = reposition calls table sockfd power) := by
  have hpos : (0 : ℤ) ≤ 2 ^ power := by positivity
  constructor
  · rintro ⟨habove, hbelow, hroom⟩
    cases hdup : table.dup2 sockfd (2 ^ power) with
    | none => exact absurd ⟨hpos, hbelow⟩ ((Table.dup2_eq_none hget).mp hdup)
    | some table' =>
        have hspec := Table.dup2_spec hdup hget
        refine ⟨table', ?_, hspec.2.2.1, hspec.2.2.2⟩
        simp only [reposition]
        rw [if_neg (not_le.mpr habove), hroom, if_pos rfl, hdup]
  · intro hnot
    simp only [reposition]
    split
    · rfl
    · rename_i habove
      have hfail : (if calls.dup2 power = true then table.dup2 sockfd (2 ^ power) else none) =
          none := by
        split
        · rw [Table.dup2_eq_none hget]
          rintro ⟨-, hbelow⟩
          exact hnot ⟨not_le.mp habove, hbelow, ‹_›⟩
        · rfl
      rw [hfail]

/-- The loop ends at the highest power that can be had, or at none. -/
theorem reposition_spec (hget : table.get sockfd = some file) (n : ℕ) :
    (reposition calls table sockfd n = none ∧ ∀ p < n, ¬Usable calls table sockfd p) ∨
      ∃ power table', power < n ∧ Usable calls table sockfd power ∧
        (∀ p < n, power < p → ¬Usable calls table sockfd p) ∧
        reposition calls table sockfd n = some (2 ^ power, table') ∧
        ∀ fd, table'.get fd = if fd = 2 ^ power then some file else table.get fd := by
  induction n with
  | zero => exact .inl ⟨rfl, by simp⟩
  | succ n ih =>
      have hstep := reposition_succ calls hget n
      by_cases husable : Usable calls table sockfd n
      · obtain ⟨table', heq, -, hfile⟩ := hstep.1 husable
        exact .inr ⟨n, table', by omega, husable, by omega, heq, hfile⟩
      · rw [hstep.2 husable]
        have hnone : ∀ p, p = n → ¬Usable calls table sockfd p := fun p hp => hp ▸ husable
        cases ih with
        | inl ih =>
            refine .inl ⟨ih.1, fun p hp => ?_⟩
            by_cases heq : p = n
            · exact hnone p heq
            · exact ih.2 p (by omega)
        | inr ih =>
            obtain ⟨power, table', hlt, hpower, hhighest, heq, hfile⟩ := ih
            refine .inr ⟨power, table', by omega, hpower, fun p hp habove => ?_, heq, hfile⟩
            by_cases heq : p = n
            · exact hnone p heq
            · exact hhighest p (by omega) habove

end Reposition

/-! ## `np_socket_init` -/

section SocketInit

variable {calls : Calls} {rand : ℕ × ℕ × ℕ} {table : Table File} {ctx : MulticastContext}
  {sender : Initialized}

theorem npSocketInit_of_failure (hsender : initMulticastSender calls rand table ctx none = sender)
    (h : sender.err ≠ .success) :
    npSocketInit calls rand table ctx = ⟨true, sender.ctx, sender.table⟩ := by
  simp only [npSocketInit, hsender]
  rw [if_pos h]

theorem npSocketInit_of_none (hsender : initMulticastSender calls rand table ctx none = sender)
    (h : sender.err = .success)
    (hnone : reposition calls sender.table sender.ctx.sockfd 31 = none) :
    npSocketInit calls rand table ctx =
      ⟨true, { sender.ctx with sockfd := -1 }, sender.table.close sender.ctx.sockfd⟩ := by
  simp only [npSocketInit, hsender, hnone, multicastClose]
  rw [if_neg (not_not.mpr h)]

theorem npSocketInit_of_some (hsender : initMulticastSender calls rand table ctx none = sender)
    (h : sender.err = .success) {fd : ℤ} {table' : Table File}
    (hsome : reposition calls sender.table sender.ctx.sockfd 31 = some (fd, table')) :
    npSocketInit calls rand table ctx =
      ⟨true, { sender.ctx with sockfd := fd }, table'.close sender.ctx.sockfd⟩ := by
  simp only [npSocketInit, hsender, hsome]
  rw [if_neg (not_not.mpr h)]

end SocketInit

section Positions

variable {calls : Calls} {rand : ℕ × ℕ × ℕ} {table : Table File} {ctx : MulticastContext}
  {sender : Initialized}

/-- The table with the connected socket, and the one before it. -/
theorem sender_table (hsender : initMulticastSender calls rand table ctx none = sender)
    (h : sender.err = .success) :
    sender.table.get sender.ctx.sockfd = some (.socket (senderSocket rand)) ∧
      sender.table.close sender.ctx.sockfd = table ∧
      ∀ p, Usable calls sender.table sender.ctx.sockfd p ↔
        Usable calls table sender.ctx.sockfd p := by
  have hspec := (initMulticastSender_generated calls rand table ctx).2.2
  rw [hsender] at hspec
  obtain ⟨hfree, hnonneg, hlimit, -, hfile⟩ := hspec h
  refine ⟨by rw [hfile, if_pos rfl], ?_, fun p => by rw [Usable, Usable, hlimit]⟩
  apply Table.eq_of_get (by rw [Table.limit_close, hlimit])
  intro fd
  rw [Table.get_close, hfile]
  split
  · rename_i heq
    rw [heq, hfree]
  · rfl

theorem npSocketInit_unusable (hsender : initMulticastSender calls rand table ctx none = sender)
    (h : sender.err = .success)
    (hnone : ∀ p < 31, ¬Usable calls table sender.ctx.sockfd p) :
    npSocketInit calls rand table ctx = ⟨true, { sender.ctx with sockfd := -1 }, table⟩ := by
  obtain ⟨hget, hclosed, husable⟩ := sender_table hsender h
  cases reposition_spec calls hget 31 with
  | inl hloop => rw [npSocketInit_of_none hsender h hloop.1, hclosed]
  | inr hloop =>
      obtain ⟨power, -, hlt, hpower, -⟩ := hloop
      exact absurd ((husable power).mp hpower) (hnone power hlt)

/-- The socket ends at the highest power that can be had; the descriptor it was opened at is
free again. -/
theorem npSocketInit_usable (hsender : initMulticastSender calls rand table ctx none = sender)
    (h : sender.err = .success) (hsome : ∃ p < 31, Usable calls table sender.ctx.sockfd p) :
    ∃ power < 31, Usable calls table sender.ctx.sockfd power ∧
      (∀ p < 31, Usable calls table sender.ctx.sockfd p → p ≤ power) ∧
      (npSocketInit calls rand table ctx).result = true ∧
      (npSocketInit calls rand table ctx).ctx = { sender.ctx with sockfd := 2 ^ power } ∧
      ∀ fd, (npSocketInit calls rand table ctx).table.get fd =
        if fd = 2 ^ power then some (.socket (senderSocket rand)) else table.get fd := by
  obtain ⟨hget, hclosed, husable⟩ := sender_table hsender h
  cases reposition_spec calls hget 31 with
  | inl hloop =>
      obtain ⟨p, hp, hp'⟩ := hsome
      exact absurd ((husable p).mpr hp') (hloop.2 p hp)
  | inr hloop =>
      obtain ⟨power, table', hlt, hpower, hhighest, heq, hput⟩ := hloop
      have hpower' := (husable power).mp hpower
      rw [npSocketInit_of_some hsender h heq]
      refine ⟨power, hlt, hpower', fun p hp hp' => ?_, rfl, rfl, fun fd => ?_⟩
      · by_contra habove
        exact hhighest p hp (not_le.mp habove) ((husable p).mpr hp')
      · have hne : (2 : ℤ) ^ power ≠ sender.ctx.sockfd := ne_of_gt hpower.1
        rw [Table.get_close, hput, ← hclosed, Table.get_close]
        by_cases hfd : fd = sender.ctx.sockfd
        · rw [if_pos hfd, if_pos hfd, if_neg fun heq => hne (heq.symm.trans hfd)]
        · rw [if_neg hfd, if_neg hfd]

end Positions

/-- The caller is told of success in every case. The socket is at the highest power of two above
the descriptor it was opened at, whatever was open there is closed, and every other descriptor
is as it was; or there is no socket, and the table is as it was. -/
theorem npSocketInit_positions (calls : Calls) (rand : ℕ × ℕ × ℕ) (table : Table File)
    (ctx : MulticastContext) :
    let sender := initMulticastSender calls rand table ctx none
    let usable := Usable calls table sender.ctx.sockfd
    let r := npSocketInit calls rand table ctx
    r.result = true ∧ sender.err ≠ .invalidAddr ∧
      (sender.err ≠ .success → r.ctx.sockfd = ctx.sockfd ∧ r.table = table) ∧
      (sender.err = .success → (∀ p < 31, ¬usable p) → r.ctx.sockfd = -1 ∧ r.table = table) ∧
      (sender.err = .success → (∃ p < 31, usable p) →
        ∃ power < 31, usable power ∧ (∀ p < 31, usable p → p ≤ power) ∧
          r.ctx.sockfd = 2 ^ power ∧
          ∀ fd, r.table.get fd =
            if fd = 2 ^ power then some (.socket (senderSocket rand)) else table.get fd) := by
  intro sender usable r
  have hsend : initMulticastSender calls rand table ctx none = sender := rfl
  have hrun : npSocketInit calls rand table ctx = r := rfl
  have hgenerated := initMulticastSender_generated calls rand table ctx
  rw [hsend] at hgenerated
  clear_value r sender
  by_cases h : sender.err = .success
  · by_cases hsome : ∃ p < 31, usable p
    · obtain ⟨power, hlt, hpower, hhighest, hresult, hctx, hfile⟩ :=
        npSocketInit_usable hsend h hsome
      rw [hrun] at hresult hctx hfile
      refine ⟨hresult, hgenerated.1, fun hne => absurd h hne, fun _ hnone => ?_, fun _ _ => ?_⟩
      · exact absurd hpower (hnone power hlt)
      · exact ⟨power, hlt, hpower, hhighest, by rw [hctx], hfile⟩
    · have hnone : ∀ p < 31, ¬usable p := fun p hp hp' => hsome ⟨p, hp, hp'⟩
      have hr := npSocketInit_unusable hsend h hnone
      rw [hrun] at hr
      rw [hr]
      exact ⟨rfl, hgenerated.1, fun hne => absurd h hne, fun _ _ => ⟨rfl, rfl⟩,
        fun _ hsome' => absurd hsome' hsome⟩
  · have hr := npSocketInit_of_failure hsend h
    have hkept := hgenerated.2.1 h
    rw [hrun] at hr
    rw [hr]
    exact ⟨rfl, hgenerated.1, fun _ => ⟨hkept.2, hkept.1⟩, fun h' => absurd h' h,
      fun h' => absurd h' h⟩

end SystemsExperiments.NopeekingRegistry
