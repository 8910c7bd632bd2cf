import Mathlib.Algebra.Order.Ring.Int

/-! # Connections of several clients

The connections are shared among client processes, one for each processor but one. Each client
keeps its sockets in an array, and the server waits for all of them. -/

namespace SystemsExperiments.TcpConnectRate

inductive Fault where
  /-- An `int` overflows. -/
  | overflow
  /-- An index outside `sockets`. -/
  | index
  deriving DecidableEq

/-- A result of arithmetic on `int`. -/
def int (n : ℤ) : Except Fault ℤ := if -2 ^ 31 ≤ n ∧ n < 2 ^ 31 then .ok n else .error .overflow

/-! ## Clients -/

/-- The index that is read from in the end. The loop before writes to every element. -/
def runClient (connectionsPerClient : ℤ) : Except Fault ℤ := do
  let last ← int (connectionsPerClient - 1)
  if 0 ≤ last ∧ last < connectionsPerClient then return last
  else .error .index

def numClients (nprocs : ℤ) : Except Fault ℤ := do
  let numClients ← int (nprocs - 1)
  if numClients ≤ 0 then return 1 else return numClients

def connectionsPerClient (totalConnections numClients : ℤ) : Except Fault ℤ := do
  let sum ← int (totalConnections + numClients)
  let sum ← int (sum - 1)
  return sum.tdiv numClients

/-- What the client `i` is started with. -/
def myConnections (totalConnections numClients connectionsPerClient i : ℤ) : Except Fault ℤ := do
  let last ← int (numClients - 1)
  if i = last then
    let others ← int (connectionsPerClient * last)
    int (totalConnections - others)
  else return connectionsPerClient

/-- The loop over the clients, with those that are left. -/
def spawnFrom (totalConnections numClients connectionsPerClient : ℤ) :
    ℕ → ℤ → Except Fault (List ℤ)
  | 0, _ => .ok []
  | left + 1, i => do
      let mine ← myConnections totalConnections numClients connectionsPerClient i
      let others ← spawnFrom totalConnections numClients connectionsPerClient left (i + 1)
      return mine :: others

/-- The connections of each client, when every `fork` works. -/
def spawnClients (nprocs totalConnections : ℤ) : Except Fault (List ℤ) := do
  let numClients ← numClients nprocs
  let connectionsPerClient ← connectionsPerClient totalConnections numClients
  spawnFrom totalConnections numClients connectionsPerClient numClients.toNat 0

/-! ## The server -/

/-- The loop of `accept_connections` over what the calls of `accept` give. -/
def acceptConnections (numClients connectionCount : ℤ) : List Bool → ℤ
  | [] => connectionCount
  | accepted :: rest =>
      if connectionCount < numClients then
        acceptConnections numClients
          (if accepted then connectionCount + 1 else connectionCount) rest
      else connectionCount

end SystemsExperiments.TcpConnectRate
