import UpiMesh.Crypto
import UpiMesh.Settlement

/-!
# BridgeIngestionService

`ingest` claims the hash of the ciphertext, opens it, checks its age and settles it.
-/

namespace UpiMesh

open Concurrent Int64Arith

structure IngestResult where
  outcome : String
  packetHash : String
  reason : String
  transactionId : Option ℤ
  deriving DecidableEq, Repr

/-- The answers that stand for a stored row. -/
def IngestResult.Decided (r : IngestResult) : Prop := r.outcome = "SETTLED" ∨ r.outcome = "REJECTED"

instance : DecidablePred IngestResult.Decided := fun _ => inferInstanceAs (Decidable (_ ∨ _))

theorem IngestResult.not_decided {r : IngestResult} (outcome : String) (h : r.outcome = outcome)
    (hs : outcome ≠ "SETTLED") (hr : outcome ≠ "REJECTED") : ¬ r.Decided := by
  subst h
  rintro (h | h)
  · exact hs h
  · exact hr h

/-- The clock readings of one `ingest` call, and those and the faults of its settlement. -/
structure IngestEnv extends SettleEnv where
  claimNow : ℤ
  freshNow : ℤ

namespace BridgeIngestionService

def maxAgeSeconds : ℤ := 86400

/-- `(now - signedAt) / 1000` on `int64_t`. -/
def ageSeconds (now signedAt : ℤ) : ℤ := (sub now signedAt).tdiv 1000

/-- The packet passes the freshness check at clock value `now`. -/
def Fresh (now signedAt : ℤ) : Prop :=
  ageSeconds now signedAt ≤ maxAgeSeconds ∧ -300 ≤ ageSeconds now signedAt

instance (now signedAt : ℤ) : Decidable (Fresh now signedAt) :=
  inferInstanceAs (Decidable (_ ∧ _))

def claim (packetHash : String) (now : ℤ) : Service Bool := Program.call (Action.claim packetHash now)

def settled (packetHash : String) : Except Exn Transaction → IngestResult
  | .ok tx => ⟨statusToString tx.status, packetHash, "", some tx.id⟩
  | .error e => ⟨"INVALID", "?", "internal_error: " ++ cstr e.what, none⟩

/-- The steps after the idempotency gate. -/
def afterClaim (crypto : CryptoService) (packet : MeshPacket) (bridgeNodeId : String)
    (hopCount : ℤ) (env : IngestEnv) (packetHash : String) : Service IngestResult :=
  match crypto.decrypt packet.ciphertext with
  | .error _ => pure ⟨"INVALID", packetHash, "decryption_failed", none⟩
  | .ok instruction =>
    let age := ageSeconds env.freshNow instruction.signedAt
    if maxAgeSeconds < age then
      pure ⟨"INVALID", packetHash, "stale_packet", none⟩
    else if age < -300 then
      pure ⟨"INVALID", packetHash, "future_dated", none⟩
    else do
      let tx ← SettlementService.settle ⟨instruction, packetHash, bridgeNodeId, hopCount⟩
        env.toSettleEnv
      pure (settled packetHash tx)

def ingest (crypto : CryptoService) (packet : MeshPacket) (bridgeNodeId : String) (hopCount : ℤ)
    (env : IngestEnv) : Service IngestResult := do
  let packetHash := crypto.hashCiphertext packet.ciphertext
  if ← claim packetHash env.claimNow then
    afterClaim crypto packet bridgeNodeId hopCount env packetHash
  else
    pure ⟨"DUPLICATE_DROPPED", packetHash, "", none⟩

end BridgeIngestionService
end UpiMesh
