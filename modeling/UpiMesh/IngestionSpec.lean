import UpiMesh.Ingestion
import UpiMesh.SettlementSpec

/-!
# What one `ingest` call does on its own

`Ingests` lists the exits of `ingest`, for any statement faults; the last one is whatever the
settlement does after the claim. A call takes the claim when its hash is not in the cache, and it
passes the gate when moreover the ciphertext opens to a fresh instruction.
-/

namespace UpiMesh

open Concurrent Int64Arith

def Server.claimed (s : Server) (packetHash : String) (now : ℤ) : Server :=
  { s with seen := (IdempotencyService.claim packetHash now s.seen).2 }

@[simp] theorem Server.claimed_db (s : Server) (h : String) (now : ℤ) :
    (s.claimed h now).db = s.db := rfl

@[simp] theorem Server.claimed_held (s : Server) (h : String) (now : ℤ) :
    (s.claimed h now).held = s.held := rfl

@[simp] theorem Server.claimed_seen (s : Server) (h : String) (now : ℤ) :
    (s.claimed h now).seen = (IdempotencyService.claim h now s.seen).2 := rfl

namespace BridgeIngestionService

variable {crypto : CryptoService} {packet : MeshPacket} {bridgeNodeId : String} {hopCount : ℤ}
  {env : IngestEnv} {s : Server}

inductive Ingests (crypto : CryptoService) (packet : MeshPacket) (bridgeNodeId : String)
    (hopCount : ℤ) (env : IngestEnv) (s : Server) : IngestResult → Server → Prop
  | duplicate (h : crypto.hashCiphertext packet.ciphertext ∈ s.seen) :
      Ingests crypto packet bridgeNodeId hopCount env s
        ⟨"DUPLICATE_DROPPED", crypto.hashCiphertext packet.ciphertext, "", none⟩ s
  | undecryptable {e : Exn} (h : crypto.hashCiphertext packet.ciphertext ∉ s.seen)
      (hd : crypto.decrypt packet.ciphertext = .error e) :
      Ingests crypto packet bridgeNodeId hopCount env s
        ⟨"INVALID", crypto.hashCiphertext packet.ciphertext, "decryption_failed", none⟩
        (s.claimed (crypto.hashCiphertext packet.ciphertext) env.claimNow)
  | stale {instruction : PaymentInstruction}
      (h : crypto.hashCiphertext packet.ciphertext ∉ s.seen)
      (hd : crypto.decrypt packet.ciphertext = .ok instruction)
      (hage : maxAgeSeconds < ageSeconds env.freshNow instruction.signedAt) :
      Ingests crypto packet bridgeNodeId hopCount env s
        ⟨"INVALID", crypto.hashCiphertext packet.ciphertext, "stale_packet", none⟩
        (s.claimed (crypto.hashCiphertext packet.ciphertext) env.claimNow)
  | futureDated {instruction : PaymentInstruction}
      (h : crypto.hashCiphertext packet.ciphertext ∉ s.seen)
      (hd : crypto.decrypt packet.ciphertext = .ok instruction)
      (hage : ageSeconds env.freshNow instruction.signedAt < -300) :
      Ingests crypto packet bridgeNodeId hopCount env s
        ⟨"INVALID", crypto.hashCiphertext packet.ciphertext, "future_dated", none⟩
        (s.claimed (crypto.hashCiphertext packet.ciphertext) env.claimNow)
  | settled {instruction : PaymentInstruction} {r : Except Exn Transaction} {s' : Server}
      (h : crypto.hashCiphertext packet.ciphertext ∉ s.seen)
      (hd : crypto.decrypt packet.ciphertext = .ok instruction)
      (hfresh : Fresh env.freshNow instruction.signedAt)
      (hr : (SettlementService.settle
          ⟨instruction, crypto.hashCiphertext packet.ciphertext, bridgeNodeId, hopCount⟩
          env.toSettleEnv).run
            (s.claimed (crypto.hashCiphertext packet.ciphertext) env.claimNow) = (r, s')) :
      Ingests crypto packet bridgeNodeId hopCount env s
        (BridgeIngestionService.settled (crypto.hashCiphertext packet.ciphertext) r) s'

theorem tdiv_thousand (w : ℤ) :
    (0 ≤ w → w.tdiv 1000 = w / 1000) ∧ (w < 0 → w.tdiv 1000 = -(-w / 1000)) := by
  constructor
  · intro h
    exact Int.tdiv_eq_ediv_of_nonneg h
  · intro h
    rw [← Int.tdiv_eq_ediv_of_nonneg (by omega : 0 ≤ -w), Int.neg_tdiv, neg_neg]

/-- The limits of the age in milliseconds. A difference that wraps around counts as future-dated. -/
theorem ageSeconds_limits {now signedAt : ℤ} (hnow : 0 ≤ now) (hlt : now < 2 ^ 62)
    (hs : Fits signedAt) :
    (ageSeconds now signedAt ≤ maxAgeSeconds ↔
        now - signedAt ≤ 86400999 ∨ 2 ^ 63 ≤ now - signedAt) ∧
      (-300 ≤ ageSeconds now signedAt ↔ -300999 ≤ now - signedAt ∧ now - signedAt < 2 ^ 63) := by
  obtain ⟨hlo, hhi⟩ := hs
  have hmod := wrap_emod (now - signedAt)
  obtain ⟨hwlo, hwhi⟩ := fits_wrap (now - signedAt)
  obtain ⟨hpos, hneg⟩ := tdiv_thousand (wrap (now - signedAt))
  unfold ageSeconds maxAgeSeconds sub
  generalize wrap (now - signedAt) = w at *
  by_cases hw : 0 ≤ w
  · rw [hpos hw]
    omega
  · rw [hneg (by omega)]
    omega

/-- The freshness window in milliseconds. -/
theorem fresh_iff {now signedAt : ℤ} (hnow : 0 ≤ now) (hlt : now < 2 ^ 62) (hs : Fits signedAt) :
    Fresh now signedAt ↔ -300999 ≤ now - signedAt ∧ now - signedAt ≤ 86400999 := by
  obtain ⟨hold, hahead⟩ := ageSeconds_limits hnow hlt hs
  rw [Fresh, hold, hahead]
  omega

theorem run_ingest_of_mem (h : crypto.hashCiphertext packet.ciphertext ∈ s.seen) :
    (ingest crypto packet bridgeNodeId hopCount env).run s =
      (⟨"DUPLICATE_DROPPED", crypto.hashCiphertext packet.ciphertext, "", none⟩, s) := by
  simp only [ingest, claim, Service.run, Program.call_bind, Program.run_act, Action.exec,
    IdempotencyService.claim_of_mem h]
  rfl

theorem run_ingest_of_notMem (h : crypto.hashCiphertext packet.ciphertext ∉ s.seen) :
    (ingest crypto packet bridgeNodeId hopCount env).run s =
      (afterClaim crypto packet bridgeNodeId hopCount env
        (crypto.hashCiphertext packet.ciphertext)).run
        (s.claimed (crypto.hashCiphertext packet.ciphertext) env.claimNow) := by
  simp only [ingest, claim, Service.run, Program.call_bind, Program.run_act, Action.exec,
    IdempotencyService.claim_fst_of_notMem h, if_true, Server.claimed]

theorem run_ingest (crypto : CryptoService) (packet : MeshPacket) (bridgeNodeId : String)
    (hopCount : ℤ) (env : IngestEnv) (s : Server) :
    Ingests crypto packet bridgeNodeId hopCount env s
      ((ingest crypto packet bridgeNodeId hopCount env).run s).1
      ((ingest crypto packet bridgeNodeId hopCount env).run s).2 := by
  by_cases h : crypto.hashCiphertext packet.ciphertext ∈ s.seen
  · rw [run_ingest_of_mem h]
    exact .duplicate h
  · rw [run_ingest_of_notMem h]
    unfold afterClaim
    cases hd : crypto.decrypt packet.ciphertext with
    | error e => exact .undecryptable h hd
    | ok instruction =>
      dsimp only
      split_ifs with hstale hfuture
      · exact .stale h hd hstale
      · exact .futureDated h hd hfuture
      · simp only [Service.run, Program.run_bind, Program.pure_eq, Program.run_ret]
        exact .settled h hd ⟨not_lt.mp hstale, not_lt.mp hfuture⟩ rfl

/-- The call wins the claim and reaches `settle` with this instruction. -/
structure Passes (crypto : CryptoService) (packet : MeshPacket) (env : IngestEnv) (s : Server)
    (instruction : PaymentInstruction) : Prop where
  unclaimed : crypto.hashCiphertext packet.ciphertext ∉ s.seen
  opens : crypto.decrypt packet.ciphertext = .ok instruction
  fresh : Fresh env.freshNow instruction.signedAt

variable (bridgeNodeId hopCount) in
/-- The call then does what `settle` does after the claim. -/
theorem run_ingest_settle {instruction : PaymentInstruction}
    (h : Passes crypto packet env s instruction) :
    ∃ r db, (ingest crypto packet bridgeNodeId hopCount env).run s =
        (settled (crypto.hashCiphertext packet.ciphertext) r,
          { s.claimed (crypto.hashCiphertext packet.ciphertext) env.claimNow with db }) ∧
      SettlementService.AttemptsEnd
        ⟨instruction, crypto.hashCiphertext packet.ciphertext, bridgeNodeId, hopCount⟩
        env.toSettleEnv s.db 1 SettlementService.maxAttempts r db := by
  obtain ⟨r, db, hrun, hends⟩ := SettlementService.settle_ends
    ⟨instruction, crypto.hashCiphertext packet.ciphertext, bridgeNodeId, hopCount⟩
    env.toSettleEnv (s.claimed (crypto.hashCiphertext packet.ciphertext) env.claimNow)
  refine ⟨r, db, ?_, hends⟩
  have hstale : ¬ maxAgeSeconds < ageSeconds env.freshNow instruction.signedAt := not_lt.mpr h.fresh.1
  have hfuture : ¬ ageSeconds env.freshNow instruction.signedAt < -300 := not_lt.mpr h.fresh.2
  rw [run_ingest_of_notMem h.unclaimed]
  simp only [afterClaim, h.opens, if_neg hstale, if_neg hfuture, Service.run, Program.run_bind,
    Program.pure_eq, Program.run_ret]
  rw [Service.run] at hrun
  rw [hrun]

variable (bridgeNodeId hopCount) in
theorem run_ingest_of_passes {instruction : PaymentInstruction} (hsp : s.db.savepoint = none)
    (hf : ∀ n, env.faults n = {}) (h : Passes crypto packet env s instruction) :
    ∃ r db, (ingest crypto packet bridgeNodeId hopCount env).run s =
        (settled (crypto.hashCiphertext packet.ciphertext) r,
          { s.claimed (crypto.hashCiphertext packet.ciphertext) env.claimNow with db }) ∧
      Settles ⟨instruction, crypto.hashCiphertext packet.ciphertext, bridgeNodeId, hopCount⟩
        (env.settledAt 1) s.db r db := by
  obtain ⟨r, db, hrun, hends⟩ := run_ingest_settle bridgeNodeId hopCount h
  exact ⟨r, db, hrun, hends.settles hsp hf (by decide) rfl⟩

variable (bridgeNodeId hopCount) in
/-- A covered payment with a new hash is settled. -/
theorem run_ingest_of_covered {instruction : PaymentInstruction} {sender receiver : Account}
    (hsp : s.db.savepoint = none) (hf : ∀ n, env.faults n = {})
    (h : Passes crypto packet env s instruction)
    (hc : Covered s.db.current.accounts instruction sender receiver)
    (hnew : crypto.hashCiphertext packet.ciphertext ∉
      s.db.current.transactions.rows.map Transaction.packetHash) :
    ∃ hnew, (ingest crypto packet bridgeNodeId hopCount env).run s =
      (⟨"SETTLED", crypto.hashCiphertext packet.ciphertext, "",
          some (s.db.current.transactions.sequence + 1)⟩,
        { s.claimed (crypto.hashCiphertext packet.ciphertext) env.claimNow with
          db := ⟨⟨s.db.current.transfer sender receiver instruction.amount,
            s.db.current.transactions.insert (SettleCall.transaction ⟨instruction,
              crypto.hashCiphertext packet.ciphertext, bridgeNodeId, hopCount⟩
              (env.settledAt 1) .SETTLED) hnew⟩, none⟩ }) := by
  obtain ⟨r, db, hrun, hsettles⟩ := run_ingest_of_passes bridgeNodeId hopCount hsp hf h
  rw [← crypto.cstr_hashCiphertext] at hnew
  obtain ⟨rfl, rfl⟩ := hsettles.of_covered hc hnew
  exact ⟨hnew, hrun⟩

variable (bridgeNodeId hopCount) in
/-- A payment with a new hash that the sender cannot cover is rejected. -/
theorem run_ingest_of_short {instruction : PaymentInstruction} {sender receiver : Account}
    (hsp : s.db.savepoint = none) (hf : ∀ n, env.faults n = {})
    (h : Passes crypto packet env s instruction)
    (hshort : Short s.db.current.accounts instruction sender receiver)
    (hnew : crypto.hashCiphertext packet.ciphertext ∉
      s.db.current.transactions.rows.map Transaction.packetHash) :
    ∃ hnew, (ingest crypto packet bridgeNodeId hopCount env).run s =
      (⟨"REJECTED", crypto.hashCiphertext packet.ciphertext, "",
          some (s.db.current.transactions.sequence + 1)⟩,
        { s.claimed (crypto.hashCiphertext packet.ciphertext) env.claimNow with
          db := { s.db with current.transactions :=
            s.db.current.transactions.insert (SettleCall.transaction ⟨instruction,
              crypto.hashCiphertext packet.ciphertext, bridgeNodeId, hopCount⟩
              (env.settledAt 1) .REJECTED) hnew } }) := by
  obtain ⟨r, db, hrun, hsettles⟩ := run_ingest_of_passes bridgeNodeId hopCount hsp hf h
  rw [← crypto.cstr_hashCiphertext] at hnew
  obtain ⟨rfl, rfl⟩ := hsettles.of_short hshort hnew
  exact ⟨hnew, hrun⟩

variable (bridgeNodeId hopCount) in
/-- The freshness check of a call that wins the claim and opens its packet. It is exact to the second:
the division drops up to 999 milliseconds of the age, towards zero. -/
theorem ingest_freshness {instruction : PaymentInstruction}
    (hunclaimed : crypto.hashCiphertext packet.ciphertext ∉ s.seen)
    (hopens : crypto.decrypt packet.ciphertext = .ok instruction) (hnow : 0 ≤ env.freshNow)
    (hlt : env.freshNow < 2 ^ 62) (hrange : env.freshNow - instruction.signedAt < 2 ^ 63) :
    Fits (env.freshNow - instruction.signedAt) ∧
      (Fresh env.freshNow instruction.signedAt ↔
        -300999 ≤ env.freshNow - instruction.signedAt ∧
          env.freshNow - instruction.signedAt ≤ 86400999) ∧
      (ingest crypto packet bridgeNodeId hopCount env).run s =
        let packetHash := crypto.hashCiphertext packet.ciphertext
        let claimed := s.claimed packetHash env.claimNow
        if 86400999 < env.freshNow - instruction.signedAt then
          (⟨"INVALID", packetHash, "stale_packet", none⟩, claimed)
        else if env.freshNow - instruction.signedAt < -300999 then
          (⟨"INVALID", packetHash, "future_dated", none⟩, claimed)
        else
          let result := (SettlementService.settle ⟨instruction, packetHash, bridgeNodeId, hopCount⟩
            env.toSettleEnv).run claimed
          (settled packetHash result.1, result.2) := by
  obtain ⟨hlo, hhi⟩ := instruction.signedAt_fits
  obtain ⟨hold, hahead⟩ := ageSeconds_limits hnow hlt instruction.signedAt_fits
  have hstale : maxAgeSeconds < ageSeconds env.freshNow instruction.signedAt ↔
      86400999 < env.freshNow - instruction.signedAt := by
    rw [← not_le, hold]
    omega
  have hfuture : ageSeconds env.freshNow instruction.signedAt < -300 ↔
      env.freshNow - instruction.signedAt < -300999 := by
    rw [← not_le, hahead]
    omega
  refine ⟨⟨by omega, hrange⟩, fresh_iff hnow hlt instruction.signedAt_fits, ?_⟩
  rw [run_ingest_of_notMem hunclaimed]
  simp only [afterClaim, hopens, hstale, hfuture]
  split_ifs with h₁ h₂
  · rfl
  · rfl
  · simp only [Service.run, Program.run_bind, Program.pure_eq, Program.run_ret]

/-- The payment was signed at 0 and is settled one millisecond after the limit; and the difference of
two timestamps need not fit. -/
theorem age_beyond_limit_settles :
    ((ingest (.ofList [("c1", alicePaysBob)]) ⟨"p1", 5, 0, "c1"⟩ "phone-bridge" 1
        { settledAt := fun _ => 86400001, claimNow := 86400001, freshNow := 86400001 }).run
          Server.initial).1.outcome = "SETTLED" ∧
      ¬ (86400001 - alicePaysBob.signedAt ≤ 86400000) ∧
      Fits (-2 ^ 63) ∧ ¬ Fits (0 - (-2 ^ 63)) := by
  refine ⟨?_, ?_⟩
  · decide +kernel
  · decide

theorem ingest_freshness_at_limit :
    Fits (86400999 - alicePaysBob.signedAt) ∧
      (Fresh 86400999 alicePaysBob.signedAt ↔ -300999 ≤ 86400999 - alicePaysBob.signedAt ∧
        86400999 - alicePaysBob.signedAt ≤ 86400999) := by
  obtain ⟨hfits, hfresh, -⟩ := @ingest_freshness (.ofList [("c1", alicePaysBob)])
    ⟨"p1", 5, 0, "c1"⟩ "phone-bridge" 1
    { settledAt := fun _ => 0, claimNow := 0, freshNow := 86400999 } Server.initial alicePaysBob
    (by decide) rfl (by decide) (by decide) (by decide)
  exact ⟨hfits, hfresh⟩

/-- Whatever the exit, the cache is left as the claim left it, and no device is involved. -/
theorem Ingests.stores {r : IngestResult} {s' : Server}
    (h : Ingests crypto packet bridgeNodeId hopCount env s r s') :
    s'.seen =
        (IdempotencyService.claim (crypto.hashCiphertext packet.ciphertext) env.claimNow s.seen).2 ∧
      s'.held = s.held := by
  cases h with
  | duplicate hmem => exact ⟨by rw [IdempotencyService.claim_of_mem hmem], rfl⟩
  | settled _ _ _ hr =>
    obtain ⟨r, db, hsettle, _⟩ := SettlementService.settle_ends _ env.toSettleEnv
      (s.claimed (crypto.hashCiphertext packet.ciphertext) env.claimNow)
    rw [hsettle] at hr
    rw [← (Prod.mk.inj hr).2]
    exact ⟨rfl, rfl⟩
  | _ => exact ⟨rfl, rfl⟩

/-- A call that does not reach `settle` leaves the database alone. -/
theorem Ingests.db {r : IngestResult} {s' : Server}
    (h : Ingests crypto packet bridgeNodeId hopCount env s r s')
    (hnot : ∀ instruction, ¬ Passes crypto packet env s instruction) : s'.db = s.db := by
  cases h with
  | settled hseen hd hfresh _ => exact absurd ⟨hseen, hd, hfresh⟩ (hnot _)
  | _ => rfl

theorem seen_run_ingest (crypto : CryptoService) (packet : MeshPacket) (bridgeNodeId : String)
    (hopCount : ℤ) (env : IngestEnv) (s : Server) :
    ((ingest crypto packet bridgeNodeId hopCount env).run s).2.seen =
      (IdempotencyService.claim (crypto.hashCiphertext packet.ciphertext) env.claimNow s.seen).2 :=
  (run_ingest crypto packet bridgeNodeId hopCount env s).stores.1

theorem held_run_ingest (crypto : CryptoService) (packet : MeshPacket) (bridgeNodeId : String)
    (hopCount : ℤ) (env : IngestEnv) (s : Server) :
    ((ingest crypto packet bridgeNodeId hopCount env).run s).2.held = s.held :=
  (run_ingest crypto packet bridgeNodeId hopCount env s).stores.2

theorem run_ingest_of_not_passes (h : ∀ instruction, ¬ Passes crypto packet env s instruction) :
    ((ingest crypto packet bridgeNodeId hopCount env).run s).2.db = s.db :=
  (run_ingest crypto packet bridgeNodeId hopCount env s).db h

theorem keys_run_ingest (crypto : CryptoService) (packet : MeshPacket) (bridgeNodeId : String)
    (hopCount : ℤ) (env : IngestEnv) (s : Server) :
    ((ingest crypto packet bridgeNodeId hopCount env).run s).2.db.current.accounts.keys =
      s.db.current.accounts.keys := by
  by_cases hp : ∃ i, Passes crypto packet env s i
  · obtain ⟨i, hp⟩ := hp
    obtain ⟨r, db, hrun, hends⟩ := run_ingest_settle bridgeNodeId hopCount hp
    rw [hrun]
    exact hends.keys
  · rw [run_ingest_of_not_passes (not_exists.mp hp)]

theorem savepoint_run_ingest (hsp : s.db.savepoint = none) (hf : ∀ n, env.faults n = {}) :
    ((ingest crypto packet bridgeNodeId hopCount env).run s).2.db.savepoint = none := by
  by_cases hp : ∃ i, Passes crypto packet env s i
  · obtain ⟨i, hp⟩ := hp
    obtain ⟨r, db, hrun, hsettles⟩ := run_ingest_of_passes bridgeNodeId hopCount hsp hf hp
    rw [hrun]
    exact hsettles.savepoint hsp
  · rwa [run_ingest_of_not_passes (not_exists.mp hp)]

end BridgeIngestionService
end UpiMesh
