import SystemsExperiments.Model.TcpConnectRate.SpawnClients
import Mathlib.Algebra.Order.BigOperators.Group.List
import Mathlib.Tactic.Ring

/-! # The shares of the clients

All clients but the last get the same share, rounded up, and the last gets what is left; so the
sum is right, but there may be nothing left. -/

namespace SystemsExperiments.TcpConnectRate

theorem int_of_bounds {n : ℤ} (hlow : -2 ^ 31 ≤ n) (hhigh : n < 2 ^ 31) : int n = .ok n :=
  if_pos ⟨hlow, hhigh⟩

@[simp] theorem ok_bind {α β : Type} (a : α) (f : α → Except Fault β) :
    (Except.ok a >>= f) = f a := rfl

/-! ## Arithmetic -/

/-- All processors but one. -/
def clients (nprocs : ℤ) : ℤ := max (nprocs - 1) 1

def share (total n : ℤ) : ℤ := (total - 1) / n + 1

/-- What is left for the last client. -/
def remainder (total n : ℤ) : ℤ := total - share total n * (n - 1)

theorem remainder_eq (total n : ℤ) :
    remainder total n = (total - 1) / n + (total - 1) % n + 2 - n := by
  have hdiv := Int.mul_ediv_add_emod (total - 1) n
  have hmul : share total n * (n - 1) = n * ((total - 1) / n) + n - (total - 1) / n - 1 := by
    rw [share]
    ring
  rw [remainder, hmul]
  omega

theorem share_pos {total n : ℤ} (htotal : 1 ≤ total) (hn : 1 ≤ n) : 1 ≤ share total n := by
  have hdiv := Int.ediv_nonneg (a := total - 1) (b := n) (by omega) (by omega)
  rw [share]
  omega

theorem remainder_gt {total n : ℤ} (htotal : 1 ≤ total) (hn : 1 ≤ n) : -n < remainder total n := by
  have hdiv := Int.ediv_nonneg (a := total - 1) (b := n) (by omega) (by omega)
  have hmod := Int.emod_nonneg (total - 1) (b := n) (by omega)
  rw [remainder_eq]
  omega

theorem numClients_eq {nprocs : ℤ} (hlow : -2 ^ 31 < nprocs) (hhigh : clients nprocs < 2 ^ 31) :
    numClients nprocs = .ok (clients nprocs) := by
  rw [clients] at *
  rw [numClients, int_of_bounds (by omega) (by omega), ok_bind]
  split
  · rw [max_eq_right (by omega)]
    rfl
  · rw [max_eq_left (by omega)]
    rfl

section Shares

variable {total n : ℤ} (htotal : 1 ≤ total) (hn : 1 ≤ n) (hsum : total + n < 2 ^ 31)

include htotal hn hsum

theorem connectionsPerClient_eq : connectionsPerClient total n = .ok (share total n) := by
  have hdiv : (total + n - 1).tdiv n = share total n := by
    have hadd : total + n - 1 = total - 1 + n := by ring
    rw [Int.tdiv_eq_ediv_of_nonneg (by omega), hadd, Int.add_ediv_of_dvd_right (Int.dvd_refl n),
      Int.ediv_self (by omega), share]
  rw [connectionsPerClient, int_of_bounds (by omega) hsum, ok_bind,
    int_of_bounds (by omega) (by omega), ok_bind, hdiv]
  rfl

theorem myConnections_last :
    myConnections total n (share total n) (n - 1) = .ok (remainder total n) := by
  have hshare := share_pos htotal hn
  have hothers : 0 ≤ share total n * (n - 1) := Int.mul_nonneg (by omega) (by omega)
  have hgt := remainder_gt htotal hn
  rw [remainder] at *
  rw [myConnections, int_of_bounds (by omega) (by omega), ok_bind, if_pos rfl,
    int_of_bounds (by omega) (by omega), ok_bind, int_of_bounds (by omega) (by omega)]

theorem myConnections_of_lt {i : ℤ} (hi : i < n - 1) :
    myConnections total n (share total n) i = .ok (share total n) := by
  rw [myConnections, int_of_bounds (by omega) (by omega), ok_bind, if_neg (by omega)]
  rfl

theorem spawnFrom_eq (left : ℕ) {i : ℤ} (hleft : i + left + 1 = n) :
    spawnFrom total n (share total n) (left + 1) i =
      .ok (List.replicate left (share total n) ++ [remainder total n]) := by
  induction left generalizing i with
  | zero =>
      have hi : i = n - 1 := by omega
      rw [spawnFrom, hi, myConnections_last htotal hn hsum]
      rfl
  | succ left ih =>
      rw [spawnFrom, myConnections_of_lt htotal hn hsum (by omega), ok_bind,
        ih (by omega), ok_bind]
      rfl

end Shares

/-! ## All shares -/

theorem one_le_clients (nprocs : ℤ) : 1 ≤ clients nprocs := le_max_right _ _

/-- The shares in the order of the clients. -/
def shares (nprocs total : ℤ) : List ℤ :=
  List.replicate (clients nprocs - 1).toNat (share total (clients nprocs)) ++
    [remainder total (clients nprocs)]

theorem spawnClients_eq {nprocs total : ℤ} (hnprocs : -2 ^ 31 < nprocs) (htotal : 1 ≤ total)
    (hsum : total + clients nprocs < 2 ^ 31) :
    spawnClients nprocs total = .ok (shares nprocs total) := by
  have hpos := one_le_clients nprocs
  have hcount : (clients nprocs).toNat = (clients nprocs - 1).toNat + 1 := by omega
  rw [spawnClients, numClients_eq hnprocs (by omega), ok_bind,
    connectionsPerClient_eq htotal hpos hsum, ok_bind, hcount,
    spawnFrom_eq htotal hpos hsum _ (by omega)]
  rfl

theorem sum_shares (nprocs total : ℤ) : (shares nprocs total).sum = total := by
  have hpos := one_le_clients nprocs
  rw [shares, List.sum_append, List.sum_replicate, List.sum_singleton, nsmul_eq_mul, remainder]
  have hcast : (((clients nprocs - 1).toNat : ℕ) : ℤ) = clients nprocs - 1 := by omega
  rw [hcast]
  ring

theorem one_le_shares_iff (nprocs : ℤ) {total : ℤ} (htotal : 1 ≤ total) :
    (∀ n ∈ shares nprocs total, 1 ≤ n) ↔ 1 ≤ remainder total (clients nprocs) := by
  rw [shares, List.forall_mem_append, List.forall_mem_singleton]
  refine and_iff_right ?_
  intro n hn
  rw [List.eq_of_mem_replicate hn]
  exact share_pos htotal (one_le_clients nprocs)

/-- The shares are right if there is something left for the last client. -/
theorem spawnClients_right_iff (nprocs total : ℤ) (hnprocs : -2 ^ 31 < nprocs)
    (htotal : 1 ≤ total) (hsum : total + max (nprocs - 1) 1 < 2 ^ 31) :
    (∃ shares, spawnClients nprocs total = .ok shares ∧ (∀ n ∈ shares, 1 ≤ n) ∧
        shares.sum = total) ↔
      max (nprocs - 1) 1 - 1 ≤
        (total - 1) / max (nprocs - 1) 1 + (total - 1) % max (nprocs - 1) 1 := by
  have hiff := one_le_shares_iff nprocs htotal
  have hremainder := remainder_eq total (clients nprocs)
  rw [spawnClients_eq hnprocs htotal hsum]
  simp only [Except.ok.injEq, exists_eq_left', sum_shares, and_true, hiff, hremainder]
  rw [clients]
  omega

theorem spawnClients_right_ten :
    ∃ shares, spawnClients 5 10 = .ok shares ∧ (∀ n ∈ shares, 1 ≤ n) ∧ shares.sum = 10 :=
  (spawnClients_right_iff 5 10 (by decide) (by decide) (by decide)).mpr (by decide)

/-- Five connections of four clients, and three. -/
theorem spawnClients_wrong :
    spawnClients 5 5 = .ok [2, 2, 2, -1] ∧ spawnClients 5 3 = .ok [1, 1, 1, 0] := by
  decide

/-! ## What becomes of a share -/

/-- A client reads from its last socket if it has one. -/
theorem runClient_isOk_iff {n : ℤ} (hlow : -2 ^ 31 < n) (hhigh : n < 2 ^ 31) :
    (∃ last, runClient n = .ok last) ↔ 1 ≤ n := by
  rw [runClient, int_of_bounds (by omega) (by omega), ok_bind]
  by_cases hn : 1 ≤ n
  · rw [if_pos (by omega)]
    exact iff_of_true ⟨n - 1, rfl⟩ hn
  · rw [if_neg (by omega)]
    exact iff_of_false (by simp) hn

/-- The server goes on until it has what it waits for, or nobody connects any more. -/
theorem acceptConnections_eq (total : ℤ) {count : ℤ} (hcount : count ≤ total)
    (accepts : List Bool) :
    acceptConnections total count accepts = min total (count + accepts.count true) := by
  induction accepts generalizing count with
  | nil => simp [acceptConnections, hcount]
  | cons accepted accepts ih =>
      rw [acceptConnections]
      by_cases hless : count < total
      · rw [if_pos hless]
        cases accepted with
        | true =>
            rw [if_pos rfl, ih (by omega), List.count_cons_self]
            push_cast
            congr 1
            ring
        | false =>
            rw [if_neg (by decide), ih hcount, List.count_cons_of_ne (by decide)]
      · rw [if_neg hless, min_eq_left (by omega)]
        omega

/-! ## A run of all clients -/

theorem share_le {total : ℤ} (htotal : 1 ≤ total) (n : ℤ) : share total n ≤ total := by
  have hle : (total - 1) / n ≤ total - 1 := Int.ediv_le_self n (by omega)
  rw [share]
  omega

/-- What the clients connect: one whose share is negative connects nothing. -/
def connections (shares : List ℤ) : ℕ := (shares.map Int.toNat).sum

theorem connections_eq (nprocs : ℤ) {total : ℤ} (htotal : 1 ≤ total) :
    (connections (shares nprocs total) : ℤ) =
      max total (total - remainder total (clients nprocs)) := by
  have hn := one_le_clients nprocs
  have hshare := share_pos htotal hn
  have hcount : (((clients nprocs - 1).toNat : ℕ) : ℤ) = clients nprocs - 1 := by omega
  have hothers : ((share total (clients nprocs)).toNat : ℤ) = share total (clients nprocs) := by
    omega
  have hproduct : (clients nprocs - 1) * share total (clients nprocs) =
      total - remainder total (clients nprocs) := by
    rw [remainder]
    ring
  rw [connections, shares, List.map_append, List.map_replicate, List.sum_append,
    List.sum_replicate, List.map_singleton, List.sum_singleton, nsmul_eq_mul]
  push_cast
  rw [hcount, hothers, hproduct]
  omega

theorem runClient_share {nprocs total n : ℤ} (htotal : 1 ≤ total)
    (hsum : total + clients nprocs < 2 ^ 31) (hn : n ∈ (shares nprocs total).dropLast) :
    ∃ last, runClient n = .ok last := by
  have hclients := one_le_clients nprocs
  rw [shares, List.dropLast_concat] at hn
  have hle := share_le htotal (clients nprocs)
  have hpos := share_pos htotal hclients
  rw [List.eq_of_mem_replicate hn]
  exact (runClient_isOk_iff (by omega) (by omega)).mpr hpos

/-- However the shares come out, the server gets all that it waits for, in whatever order the
clients connect; only the last client can fail, and of all connections fewer than there are
clients stay in the queue. -/
theorem server_served (nprocs total : ℤ) (hnprocs : -2 ^ 31 < nprocs) (htotal : 1 ≤ total)
    (hsum : total + clients nprocs < 2 ^ 31) :
    ∃ shares, spawnClients nprocs total = .ok shares ∧
      (∀ accepts : List Bool, accepts.count true = connections shares →
        acceptConnections total 0 accepts = total) ∧
      (connections shares : ℤ) < total + clients nprocs ∧
      ∀ n ∈ shares.dropLast, ∃ last, runClient n = .ok last := by
  have hconnections := connections_eq nprocs htotal
  have hgt := remainder_gt htotal (one_le_clients nprocs)
  refine ⟨shares nprocs total, spawnClients_eq hnprocs htotal hsum, ?_, ?_, ?_⟩
  · intro accepts haccepts
    rw [acceptConnections_eq total (by omega), haccepts]
    omega
  · have hn := one_le_clients nprocs
    omega
  · intro n hn
    exact runClient_share htotal hsum hn

/-- The last of four clients fails, and the server accepts five of six connections. -/
theorem server_served_five :
    ∃ shares, spawnClients 5 5 = .ok shares ∧
      (∀ accepts : List Bool, accepts.count true = connections shares →
        acceptConnections 5 0 accepts = 5) ∧
      (connections shares : ℤ) < 5 + clients 5 ∧
      ∀ n ∈ shares.dropLast, ∃ last, runClient n = .ok last :=
  server_served 5 5 (by decide) (by decide) (by decide)

end SystemsExperiments.TcpConnectRate
