import UpiMesh.Api
import UpiMesh.IngestionSpec

/-!
# Runs with a clock and a record of what was answered

A `History` adds to the server the last clock reading and the ciphertexts that were answered SETTLED
or REJECTED since the last clear of the cache.
-/

namespace UpiMesh

open BridgeIngestionService

structure History where
  server : Server
  clock : ℤ
  answered : List String

namespace Op

def record (crypto : CryptoService) (op : Op) (h : History) : History :=
  match op with
  | .ingest packet bridgeNodeId hopCount env =>
    let result := (BridgeIngestionService.ingest crypto packet bridgeNodeId hopCount env).run h.server
    { server := result.2
      clock := env.freshNow
      answered := if result.1.Decided then packet.ciphertext :: h.answered else h.answered }
  | .evictExpired now =>
    { h with server := (Op.evictExpired now).exec crypto h.server, clock := now }
  | .meshReset order faults =>
    { server := (Op.meshReset order faults).exec crypto h.server, clock := h.clock, answered := [] }
  | op => { h with server := op.exec crypto h.server }

/-- The clock readings of the operation are in order and follow the given one. -/
def InOrder : Op → ℤ → Prop
  | .ingest _ _ _ env, clock =>
      clock ≤ env.claimNow ∧ env.claimNow ≤ env.freshNow ∧ env.freshNow < 2 ^ 62
  | .evictExpired now, clock => clock ≤ now ∧ now < 2 ^ 62
  | _, _ => True

end Op
end UpiMesh
