import UpiMesh.Lib.Program
import UpiMesh.SettleBlock
import UpiMesh.Stores

/-!
# The server state and its atomic actions

An `Action` is a stretch of code that holds one lock from start to end: a method of a
`VirtualDevice`, of the `IdempotencyService`, a repository call, the write block of `settle`, or
`Database::reset`. The services are programs over these actions. Clock readings, iteration orders
and statement faults are arguments of the actions, so that a program is run on given ones.
-/

namespace UpiMesh

open Concurrent

@[ext] structure Server where
  held : String → HeldPackets
  seen : SeenHashes
  db : Database

inductive Action where
  | hold (deviceId : String) (packet : MeshPacket)
  | holds (deviceId packetId : String)
  | packetCount (deviceId : String)
  | getHeldPackets (deviceId : String) (order : IterOrder)
  | clearDevice (deviceId : String)
  | claim (packetHash : String) (now : ℤ)
  | evictExpired (now : ℤ)
  | clearSeen
  | findById (vpa : String) (fault : Option StatementFault)
  | settleBlock (sender receiver : Account) (call : SettleCall) (settledAt : ℤ)
      (faults : AttemptFaults)
  | saveTransaction (tx : Transaction) (fault : Option StatementFault)
  | resetDatabase (faults : ResetFaults)

@[reducible] def Action.Response : Action → Type
  | .hold .. => Unit
  | .holds .. => Bool
  | .packetCount .. => ℕ
  | .getHeldPackets .. => List MeshPacket
  | .clearDevice .. => Unit
  | .claim .. => Bool
  | .evictExpired .. => Unit
  | .clearSeen => Unit
  | .findById .. => Option Account
  | .settleBlock .. => BlockResult
  | .saveTransaction .. => Except Exn Transaction
  | .resetDatabase _ => Except Exn Unit

def Server.updateDevice (s : Server) (deviceId : String) (f : HeldPackets → HeldPackets) : Server :=
  { s with held := Function.update s.held deviceId (f (s.held deviceId)) }

def Action.exec : (a : Action) → Server → a.Response × Server
  | .hold deviceId packet, s => ((), s.updateDevice deviceId (VirtualDevice.hold packet))
  | .holds deviceId packetId, s => (VirtualDevice.holds packetId (s.held deviceId), s)
  | .packetCount deviceId, s => (VirtualDevice.packetCount (s.held deviceId), s)
  | .getHeldPackets deviceId order, s =>
      (VirtualDevice.getHeldPackets order (s.held deviceId), s)
  | .clearDevice deviceId, s => ((), s.updateDevice deviceId fun _ => ∅)
  | .claim packetHash now, s =>
      ((IdempotencyService.claim packetHash now s.seen).1,
        { s with seen := (IdempotencyService.claim packetHash now s.seen).2 })
  | .evictExpired now, s => ((), { s with seen := IdempotencyService.evictExpired now s.seen })
  | .clearSeen, s => ((), { s with seen := ∅ })
  | .findById vpa fault, s => (AccountRepository.findById vpa fault s.db, s)
  | .settleBlock sender receiver call settledAt faults, s =>
      let (result, db) := UpiMesh.settleBlock sender receiver call settledAt faults s.db
      (result, { s with db })
  | .saveTransaction tx fault, s =>
      let (result, db) := TransactionRepository.save tx fault s.db
      (result, { s with db })
  | .resetDatabase faults, s =>
      let (result, db) := s.db.reset faults
      (result, { s with db })

/-- A service operation. -/
abbrev Service := Program Action Action.Response

/-- Execution on the server without interference. -/
abbrev Service.run {α : Type} (p : Service α) (s : Server) : α × Server :=
  Program.run Action.exec p s

/-- A server after construction: empty devices, empty cache, seeded database. -/
def Server.initial : Server := ⟨fun _ => ∅, ∅, Database.initial⟩

end UpiMesh
