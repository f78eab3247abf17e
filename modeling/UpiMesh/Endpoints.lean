import UpiMesh.Api
import UpiMesh.Connection
import UpiMesh.PaymentJson

/-!
# The endpoints that only read

`/mesh/state`, `/accounts` and `/transactions` read the stores, with the same locks as the services.
A `Call` is an atomic action of a service or one of the reads that only these endpoints make, and an
`Endpoint` is a program of calls.
-/

namespace UpiMesh

open Concurrent

/-- The reads that no service makes. -/
inductive Query where
  | cacheSize
  | findAll (fault : Option QueryFault)
  | findTop20ByOrderByIdDesc (fault : Option QueryFault)
  deriving DecidableEq, Repr

@[reducible] def Query.Response : Query → Type
  | .cacheSize => ℕ
  | .findAll _ => List Account
  | .findTop20ByOrderByIdDesc _ => Except Exn (List Transaction)

/-- `IdempotencyService::size`, `AccountRepository::findAll` and
`TransactionRepository::findTop20ByOrderByIdDesc`. -/
def Query.answer : (q : Query) → Server → q.Response
  | .cacheSize, s => s.seen.size
  | .findAll fault, s => Statement.accountRows s.db fault
  | .findTop20ByOrderByIdDesc fault, s => Statement.top20Rows s.db fault

inductive Call where
  | action (a : Action)
  | query (q : Query)

@[reducible] def Call.Response : Call → Type
  | .action a => a.Response
  | .query q => q.Response

def Call.exec : (c : Call) → Server → c.Response × Server
  | .action a, s => a.exec s
  | .query q, s => (q.answer s, s)

/-- The code of an endpoint. -/
abbrev Endpoint := Program Call Call.Response

abbrev Endpoint.run {α : Type} (p : Endpoint α) (s : Server) : α × Server :=
  Program.run Call.exec p s

/-- A service as part of an endpoint. -/
def Service.serve {α : Type} (p : Service α) : Endpoint α :=
  p.expand fun a => Program.call (Call.action a)

/-- `to_json` of an account: the balance in rupees. -/
def Account.to_json (json : JsonLibrary) (b : Binary64) (a : Account) : json.Json :=
  json.object
    [("vpa", json.string a.vpa),
      ("holderName", json.string a.holderName),
      ("balance", json.float (PaymentInstruction.rupees b a.balance)),
      ("version", json.integer a.version)]

def Transaction.to_json (json : JsonLibrary) (b : Binary64) (t : Transaction) : json.Json :=
  json.object
    [("id", json.integer t.id),
      ("packetHash", json.string t.packetHash),
      ("senderVpa", json.string t.senderVpa),
      ("receiverVpa", json.string t.receiverVpa),
      ("amount", json.float (PaymentInstruction.rupees b t.amount)),
      ("signedAt", json.integer t.signedAt),
      ("settledAt", json.integer t.settledAt),
      ("bridgeNodeId", json.string t.bridgeNodeId),
      ("hopCount", json.integer t.hopCount),
      ("status", json.string (statusToString t.status))]

structure DeviceState where
  deviceId : String
  hasInternet : Bool
  packetCount : ℕ
  packetIds : List String
  deriving DecidableEq, Repr

structure MeshStateReply where
  devices : List DeviceState
  idempotencyCacheSize : ℕ
  deriving DecidableEq, Repr

namespace ApiController

def ask (q : Query) : Endpoint q.Response := Program.call (Call.query q)

/-- The loop over the devices: of each the count is read first, then the packets, each under a lock of
its own. -/
def deviceStates (packets : String → IterOrder) : List VirtualDevice → Endpoint (List DeviceState)
  | [] => pure []
  | d :: devices => do
    let packetCount ← (VirtualDevice.callPacketCount d.deviceId).serve
    let held ← (VirtualDevice.callGetHeldPackets d.deviceId (packets d.deviceId)).serve
    let rest ← deviceStates packets devices
    pure (⟨d.deviceId, d.hasInternet, packetCount, held.map fun p => substr p.packetId 8⟩ :: rest)

def meshState (order : MeshOrder) : Endpoint MeshStateReply := do
  let devices ← deviceStates order.packets (MeshSimulatorService.getDevices order)
  let idempotencyCacheSize ← ask .cacheSize
  pure ⟨devices, idempotencyCacheSize⟩

/-- A failing statement looks like the end of the table. -/
def listAccounts (json : JsonLibrary) (b : Binary64) (fault : Option QueryFault) :
    Endpoint (List json.Json) := do
  let accounts ← ask (.findAll fault)
  pure (accounts.map (Account.to_json json b))

/-- Only a statement that cannot be prepared throws. -/
def listTransactions (json : JsonLibrary) (b : Binary64) (fault : Option QueryFault) :
    Endpoint (Except Exn (List json.Json)) := do
  match ← ask (.findTop20ByOrderByIdDesc fault) with
  | .error e => pure (.error e)
  | .ok txs => pure (.ok (txs.map (Transaction.to_json json b)))

end ApiController

/-- A request to the server, after its body has been read: one that changes the stores, or one that
only reads them. -/
inductive ServerCall where
  | operation (op : Op)
  | meshState (order : MeshOrder)
  | listAccounts (fault : Option QueryFault)
  | listTransactions (fault : Option QueryFault)

inductive ServerReply (json : JsonLibrary) where
  | replied (r : Reply)
  | state (r : MeshStateReply)
  | accounts (rows : List json.Json)
  | transactions (rows : Except Exn (List json.Json))

namespace ServerCall

variable (crypto : CryptoService) (json : JsonLibrary) (b : Binary64)

def program : ServerCall → Endpoint (ServerReply json)
  | .operation op => do
    let r ← (op.program crypto).serve
    pure (.replied r)
  | .meshState order => do
    let r ← ApiController.meshState order
    pure (.state r)
  | .listAccounts fault => do
    let rows ← ApiController.listAccounts json b fault
    pure (.accounts rows)
  | .listTransactions fault => do
    let rows ← ApiController.listTransactions json b fault
    pure (.transactions rows)

/-- A thread of the server handles one request after another. -/
def programs : List ServerCall → Endpoint (List (ServerReply json))
  | [] => pure []
  | call :: calls => do
    let reply ← call.program crypto json b
    let replies ← programs calls
    pure (reply :: replies)

end ServerCall

end UpiMesh
