import UpiMesh.Ingestion
import UpiMesh.Lib.Run
import UpiMesh.Mesh

/-!
# ApiController

The endpoints that change the server, after their JSON body has been read, and the two operations
that reach the stores without one: a pass of the evictor thread and a call of `Database::reset`.
An `Op` is one of these together with everything it does not compute itself: its arguments, random
bytes, clock readings, iteration orders and statement faults.
-/

namespace UpiMesh

open Concurrent Int64Arith

/-- The body of `/demo/send`, with the amount in paise. -/
structure DemoSendRequest where
  senderVpa : String
  receiverVpa : String
  amount : ℤ
  pin : String
  ttl : Option ℤ := none
  startDevice : Option String := none
  amount_fits : Fits amount := by decide
  deriving Repr

structure DemoSendEnv where
  nonce : String
  packetId : String
  now : ℤ
  random : EncryptionRandomness
  now_fits : Fits now := by decide
  deriving Repr

structure DemoSendReply where
  packetId : String
  ciphertextPreview : String
  fullCiphertext : String
  ttl : ℤ
  injectedAt : String
  deriving DecidableEq, Repr

structure FlushResult where
  bridgeNode : String
  packetId : String
  outcome : String
  reason : String
  transactionId : ℤ
  deriving DecidableEq, Repr

structure MeshFlushReply where
  uploadsAttempted : ℕ
  results : List FlushResult
  deriving DecidableEq, Repr

/-- The orders of `collectBridgeUploads`, and the environment of each `ingest` call. -/
structure MeshFlushEnv where
  order : MeshOrder
  ingests : ℕ → IngestEnv

namespace ApiController

/-- `std::string::substr(0, n)`. -/
def substr (s : String) (n : ℕ) : String := String.ofList (s.toList.take n)

def sha256Hex (crypto : CryptoService) (input : String) : String := hexString (crypto.sha256 input)

def instruction (crypto : CryptoService) (request : DemoSendRequest) (env : DemoSendEnv) :
    PaymentInstruction where
  senderVpa := request.senderVpa
  receiverVpa := request.receiverVpa
  amount := request.amount
  pinHash := sha256Hex crypto request.pin
  nonce := env.nonce
  signedAt := env.now
  amount_fits := request.amount_fits
  signedAt_fits := env.now_fits

def startTtl (request : DemoSendRequest) : ℤ := request.ttl.getD 5

def startDevice (request : DemoSendRequest) : String := request.startDevice.getD "phone-alice"

def packet (request : DemoSendRequest) (env : DemoSendEnv) (ciphertext : String) : MeshPacket where
  packetId := env.packetId
  ttl := startTtl request
  createdAt := env.now
  ciphertext := ciphertext

def demoSend (crypto : CryptoService) (request : DemoSendRequest) (env : DemoSendEnv) :
    Service (Except Exn DemoSendReply) :=
  match crypto.encrypt (instruction crypto request env) env.random with
  | .error e => pure (.error e)
  | .ok ciphertext => do
    match ← MeshSimulatorService.inject (startDevice request) (packet request env ciphertext) with
    | .error e => pure (.error e)
    | .ok () => pure (.ok
        { packetId := env.packetId
          ciphertextPreview := substr ciphertext 64 ++ "..."
          fullCiphertext := ciphertext
          ttl := startTtl request
          injectedAt := startDevice request })

def meshGossip (order : MeshOrder) : Service GossipResult := MeshSimulatorService.gossipOnce order

/-- `5 - up.packet.ttl` on `int`. -/
def hopCount (packet : MeshPacket) : ℤ := Int.bmod (5 - packet.ttl) (2 ^ 32)

def flushResult (up : BridgeUpload) (r : IngestResult) : FlushResult where
  bridgeNode := up.bridgeNodeId
  packetId := substr up.packet.packetId 8
  outcome := r.outcome
  reason := r.reason
  transactionId := r.transactionId.getD (-1)

/-- The loop over the uploads; the `n`-th call of `ingest` runs in the `n`-th environment. -/
def ingestUploads (crypto : CryptoService) (ingests : ℕ → IngestEnv) :
    ℕ → List BridgeUpload → Service (List FlushResult)
  | _, [] => pure []
  | n, up :: uploads => do
    let r ← BridgeIngestionService.ingest crypto up.packet up.bridgeNodeId (hopCount up.packet)
      (ingests n)
    let results ← ingestUploads crypto ingests (n + 1) uploads
    pure (flushResult up r :: results)

def meshFlush (crypto : CryptoService) (env : MeshFlushEnv) : Service MeshFlushReply := do
  let uploads ← MeshSimulatorService.collectBridgeUploads env.order
  let results ← ingestUploads crypto env.ingests 0 uploads
  pure ⟨uploads.length, results⟩

/-- The devices and the cache are cleared whether or not the database can be reset. -/
def meshReset (order : MeshOrder) (faults : ResetFaults) : Service (Except Exn Unit) := do
  MeshSimulatorService.resetMesh order
  Program.call Action.clearSeen
  Program.call (Action.resetDatabase faults)

end ApiController

inductive Op where
  | ingest (packet : MeshPacket) (bridgeNodeId : String) (hopCount : ℤ) (env : IngestEnv)
  | evictExpired (now : ℤ)
  | resetDatabase (faults : ResetFaults)
  | demoSend (request : DemoSendRequest) (env : DemoSendEnv)
  | meshGossip (order : MeshOrder)
  | meshFlush (env : MeshFlushEnv)
  | meshReset (order : MeshOrder) (faults : ResetFaults)

/-- An upload without statement faults, with every clock reading the same. -/
def Op.ingestAt (packetId ciphertext : String) (now : ℤ) : Op :=
  .ingest ⟨packetId, 5, 0, ciphertext⟩ "phone-bridge" 1
    { settledAt := fun _ => now, claimNow := now, freshNow := now }

/-- The operations of a run without a reset that only use the ingestion pipeline. -/
def Op.IngestsOrEvicts : Op → Prop
  | .ingest .. => True
  | .evictExpired _ => True
  | _ => False

def Op.ciphertext? : Op → Option String
  | .ingest packet _ _ _ => some packet.ciphertext
  | _ => none

inductive Reply where
  | done
  | ingested (r : IngestResult)
  | sent (r : Except Exn DemoSendReply)
  | gossiped (r : GossipResult)
  | flushed (r : MeshFlushReply)
  | wasReset (r : Except Exn Unit)

namespace Op

variable (crypto : CryptoService)

def program : Op → Service Reply
  | .ingest packet bridgeNodeId hopCount env => do
    let r ← BridgeIngestionService.ingest crypto packet bridgeNodeId hopCount env
    pure (.ingested r)
  | .evictExpired now => do
    Program.call (Action.evictExpired now)
    pure .done
  | .resetDatabase faults => do
    let r ← Program.call (Action.resetDatabase faults)
    pure (.wasReset r)
  | .demoSend request env => do
    let r ← ApiController.demoSend crypto request env
    pure (.sent r)
  | .meshGossip order => do
    let r ← ApiController.meshGossip order
    pure (.gossiped r)
  | .meshFlush env => do
    let r ← ApiController.meshFlush crypto env
    pure (.flushed r)
  | .meshReset order faults => do
    let r ← ApiController.meshReset order faults
    pure (.wasReset r)

/-- The server after the operation has run without interference. -/
def exec (op : Op) (s : Server) : Server := ((op.program crypto).run s).2

/-- The server after a sequential run. -/
abbrev execAll (ops : List Op) (s : Server) : Server := Sequential.after (Op.exec crypto) ops s

@[simp] theorem exec_ingest (packet : MeshPacket) (bridgeNodeId : String) (hopCount : ℤ)
    (env : IngestEnv) (s : Server) :
    (ingest packet bridgeNodeId hopCount env).exec crypto s =
      ((BridgeIngestionService.ingest crypto packet bridgeNodeId hopCount env).run s).2 := by
  simp only [exec, program, Service.run, Program.run_bind, Program.pure_eq, Program.run_ret]

@[simp] theorem exec_evictExpired (now : ℤ) (s : Server) :
    (evictExpired now).exec crypto s =
      { s with seen := IdempotencyService.evictExpired now s.seen } := rfl

@[simp] theorem exec_resetDatabase (faults : ResetFaults) (s : Server) :
    (resetDatabase faults).exec crypto s = { s with db := (s.db.reset faults).2 } := rfl

end Op
end UpiMesh
