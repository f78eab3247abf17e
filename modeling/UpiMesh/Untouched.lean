import UpiMesh.MeshActions
import UpiMesh.SettlementActions

/-!
# States that a packet has not reached

As long as no operation carries a packet id or a ciphertext, no interleaving of operations leaves a
trace of them: no device holds them, the hash is neither claimed nor stored, and without failing
statements no transaction is left open.
-/

namespace UpiMesh

open Concurrent

/-- The operation has nothing to do with the packet, and none of its statements fails. -/
def Op.Avoids (crypto : CryptoService) (packetId ciphertext : String) : Op → Prop
  | .ingest packet _ _ env => packet.ciphertext ≠ ciphertext ∧ ∀ n, env.faults n = {}
  | .demoSend request env => env.packetId ≠ packetId ∧
      crypto.encrypt (ApiController.instruction crypto request env) env.random ≠ .ok ciphertext
  | .meshFlush env => ∀ m n, (env.ingests m).faults n = {}
  | _ => True

def MeshPacket.Other (packetId ciphertext : String) (q : MeshPacket) : Prop :=
  q.packetId ≠ packetId ∧ q.ciphertext ≠ ciphertext

structure Untouched (crypto : CryptoService) (packetId ciphertext : String) (s : Server) : Prop where
  held : HeldAll (MeshPacket.Other packetId ciphertext) s
  unclaimed : crypto.hashCiphertext ciphertext ∉ s.seen
  unsettled : crypto.hashCiphertext ciphertext ∉
    s.db.current.transactions.rows.map Transaction.packetHash
  closed : s.db.savepoint = none

/-- Rows at most disappear in a reset. -/
theorem Untouched.resetDatabase {crypto : CryptoService} {packetId ciphertext : String} {s : Server}
    (hs : Untouched crypto packetId ciphertext s) (faults : ResetFaults) :
    Untouched crypto packetId ciphertext { s with db := (s.db.reset faults).2 } := by
  refine ⟨hs.held, hs.unclaimed, fun hmem => hs.unsettled ?_, ?_⟩
  · obtain ⟨tx, htx, hhash⟩ := List.mem_map.mp hmem
    exact List.mem_map.mpr ⟨tx, (Database.reset_ends faults s.db).mem_rows htx, hhash⟩
  · exact (Database.reset_ends faults s.db).savepoint.trans hs.closed

section Proof

variable (crypto : CryptoService) (packetId ciphertext : String)

/-- A program that keeps the packet away. -/
abbrev Leaves {α : Type} (Q : α → Prop) (p : Service α) : Prop :=
  p.Maintains Action.exec (Untouched crypto packetId ciphertext) Q

variable {crypto packetId ciphertext} {α : Type} {Q : α → Prop} {s : Server}

theorem untouched_initial : Untouched crypto packetId ciphertext Server.initial :=
  ⟨Server.holdsOnly_initial _, Std.ExtTreeMap.not_mem_empty, List.not_mem_nil, rfl⟩

section Settlement

open SettlementService

variable {call : SettleCall} (hcall : cstr call.packetHash ≠ crypto.hashCiphertext ciphertext)

include hcall

theorem Untouched.insert (hs : Untouched crypto packetId ciphertext s) {accounts : AccountTable}
    {settledAt : ℤ} {status : Status}
    (hnew : cstr (call.transaction settledAt status).packetHash ∉
      s.db.current.transactions.rows.map Transaction.packetHash) :
    Untouched crypto packetId ciphertext { s with db :=
      ⟨⟨accounts, s.db.current.transactions.insert (call.transaction settledAt status) hnew⟩,
        none⟩ } := by
  refine ⟨hs.held, hs.unclaimed, ?_, rfl⟩
  simp only [TransactionTable.insert, List.map_append, List.map_singleton, List.mem_append,
    List.mem_singleton, not_or]
  exact ⟨hs.unsettled, hcall.symm⟩

theorem Untouched.performs (hs : Untouched crypto packetId ciphertext s) {env : SettleEnv}
    (hf : ∀ n, env.faults n = {}) {a : Action} (ha : Performs (fun _ => True) call env a) :
    Untouched crypto packetId ciphertext (a.exec s).2 := by
  cases ha with
  | findById => exact hs
  | @settleBlock sender receiver n =>
    have hroll : ({} : AttemptFaults).rollback = none := rfl
    simp only [Action.exec, hf]
    rcases settleBlock_of_rollback sender receiver call (env.settledAt n) s.db hroll with
      ⟨r, hblock, _⟩ | ⟨tx, hnew, hblock⟩
    · rw [hblock]
      exact hs
    · rw [hblock]
      exact hs.insert hcall hnew
  | @saveTransaction n =>
    simp only [Action.exec, hf]
    by_cases hdup : cstr call.packetHash ∈ s.db.current.transactions.rows.map Transaction.packetHash
    · rw [save_transaction_of_mem hdup]
      exact hs
    · rw [save_transaction_of_notMem hdup]
      have hinsert : Untouched crypto packetId ciphertext { s with db :=
          ⟨⟨s.db.current.accounts, s.db.current.transactions.insert
            (call.transaction (env.settledAt n) .REJECTED) hdup⟩, none⟩ } := hs.insert hcall hdup
      rw [← hs.closed] at hinsert
      exact hinsert

theorem leaves_settle {env : SettleEnv} (hf : ∀ n, env.faults n = {}) :
    Leaves crypto packetId ciphertext (fun _ => True) (settle call env) :=
  (settle_follows (fun _ => True) call env).maintains (fun _ _ _ => trivial)
    (fun _ a s _ _ => reads_true a (a.exec s).1) (fun _ _ _ ha hs => hs.performs hcall hf ha)

end Settlement

theorem leaves_ingest (hinj : Function.Injective crypto.sha256) {packet : MeshPacket}
    {bridgeNodeId : String} {hopCount : ℤ} {env : IngestEnv} (hc : packet.ciphertext ≠ ciphertext)
    (hf : ∀ n, env.faults n = {}) :
    Leaves crypto packetId ciphertext (fun _ => True)
      (BridgeIngestionService.ingest crypto packet bridgeNodeId hopCount env) := by
  have hhash : crypto.hashCiphertext packet.ciphertext ≠ crypto.hashCiphertext ciphertext :=
    fun h => hc ((CryptoService.hashCiphertext_inj hinj).mp h)
  intro s hs
  refine ⟨⟨hs.held, ?_, hs.unsettled, hs.closed⟩, ?_⟩
  · simp only [Action.exec, IdempotencyService.mem_claim, not_or]
    exact ⟨hhash, hs.unclaimed⟩
  · simp only [Action.exec]
    cases (IdempotencyService.claim (crypto.hashCiphertext packet.ciphertext) env.claimNow
      s.seen).1 with
    | false => exact trivial
    | true =>
      change Leaves crypto packetId ciphertext _
        (BridgeIngestionService.afterClaim crypto packet bridgeNodeId hopCount env _)
      unfold BridgeIngestionService.afterClaim
      cases crypto.decrypt packet.ciphertext with
      | error e => exact trivial
      | ok instruction =>
        dsimp only
        split_ifs
        · exact trivial
        · exact trivial
        · refine (leaves_settle ?_ hf).bind fun _ _ => trivial
          rwa [CryptoService.cstr_hashCiphertext]

section Mesh

open MeshSimulatorService

theorem Untouched.files (hs : Untouched crypto packetId ciphertext s) {a : Action}
    (ha : FilesOnly (fun _ => MeshPacket.Other packetId ciphertext) a) :
    FindsOnly (fun _ => MeshPacket.Other packetId ciphertext) a (a.exec s).1 ∧
      Untouched crypto packetId ciphertext (a.exec s).2 := by
  obtain ⟨hfinds, hheld⟩ := ha.exec hs.held
  refine ⟨hfinds, ?_⟩
  cases ha <;> exact ⟨hheld, hs.unclaimed, hs.unsettled, hs.closed⟩

/-- Filing other packets only. -/
theorem leaves_of_files {p : Service α}
    (h : p.Follows (meshProtocol fun _ => MeshPacket.Other packetId ciphertext) (fun _ => Q) ()) :
    Leaves crypto packetId ciphertext Q p :=
  h.maintains (fun _ _ hx => hx) (fun _ _ _ ha hs => (hs.files ha).1)
    (fun _ _ _ ha hs => (hs.files ha).2)

theorem leaves_gossipOnce (order : MeshOrder) :
    Leaves crypto packetId ciphertext (fun _ => True) (gossipOnce order) := by
  have hcopies : (gossipAmong order.packets (getDevices order)).Follows
      (meshProtocol fun _ => MeshPacket.Other packetId ciphertext) (fun _ _ => True) () :=
    gossipAmong_follows (fun _ _ hother _ _ => hother) order.packets (getDevices order)
  exact leaves_of_files hcopies

theorem leaves_ingestUploads (hinj : Function.Injective crypto.sha256) {ingests : ℕ → IngestEnv}
    (hf : ∀ m n, (ingests m).faults n = {}) {uploads : List BridgeUpload}
    (hother : ∀ up ∈ uploads, up.packet.Other packetId ciphertext) (n : ℕ) :
    Leaves crypto packetId ciphertext (fun _ => True)
      (ApiController.ingestUploads crypto ingests n uploads) := by
  induction uploads generalizing n with
  | nil => exact trivial
  | cons up uploads ih =>
    obtain ⟨hup, huploads⟩ := List.forall_mem_cons.mp hother
    refine (leaves_ingest hinj hup.2 (hf n)).bind fun _ _ => ?_
    exact (ih huploads (n + 1)).bind fun _ _ => trivial

theorem leaves_meshFlush (hinj : Function.Injective crypto.sha256) {env : MeshFlushEnv}
    (hf : ∀ m n, (env.ingests m).faults n = {}) :
    Leaves crypto packetId ciphertext (fun _ => True) (ApiController.meshFlush crypto env) := by
  refine (leaves_of_files (collectFrom_follows _ _)).bind fun uploads huploads => ?_
  exact (leaves_ingestUploads hinj hf huploads 0).bind fun _ _ => trivial

end Mesh

theorem leaves_meshReset (order : MeshOrder) (faults : ResetFaults) :
    Leaves crypto packetId ciphertext (fun _ => True) (ApiController.meshReset order faults) := by
  refine (leaves_of_files (MeshSimulatorService.clearAll_follows _)).bind fun _ _ s hs => ?_
  refine ⟨⟨hs.held, Std.ExtTreeMap.not_mem_empty, hs.unsettled, hs.closed⟩, fun s hs => ?_⟩
  exact ⟨hs.resetDatabase faults, trivial⟩

theorem leaves_demoSend {request : DemoSendRequest} {env : DemoSendEnv}
    (h : (Op.demoSend request env).Avoids crypto packetId ciphertext) :
    Leaves crypto packetId ciphertext (fun _ => True)
      (ApiController.demoSend crypto request env) := by
  unfold ApiController.demoSend
  cases he : crypto.encrypt (ApiController.instruction crypto request env) env.random with
  | error e => exact trivial
  | ok c =>
    have hother : (ApiController.packet request env c).Other packetId ciphertext := by
      refine ⟨h.1, fun hc => h.2 ?_⟩
      rw [he, ← hc]
      rfl
    apply leaves_of_files
    dsimp only [MeshSimulatorService.inject]
    cases MeshSimulatorService.getDevice (ApiController.startDevice request) with
    | none => exact trivial
    | some d => exact ⟨.hold hother, fun _ _ => trivial⟩

theorem leaves_program (hinj : Function.Injective crypto.sha256) {op : Op}
    (h : op.Avoids crypto packetId ciphertext) :
    Leaves crypto packetId ciphertext (fun _ => True) (op.program crypto) := by
  cases op with
  | ingest packet bridgeNodeId hopCount env =>
    exact (leaves_ingest hinj h.1 h.2).bind fun _ _ => trivial
  | evictExpired now =>
    intro s hs
    exact ⟨⟨hs.held, fun hmem => hs.unclaimed (IdempotencyService.mem_of_mem_evictExpired hmem),
      hs.unsettled, hs.closed⟩, trivial⟩
  | resetDatabase faults =>
    intro s hs
    exact ⟨hs.resetDatabase faults, trivial⟩
  | demoSend request env => exact (leaves_demoSend h).bind fun _ _ => trivial
  | meshGossip order => exact (leaves_gossipOnce order).bind fun _ _ => trivial
  | meshFlush env => exact (leaves_meshFlush hinj h).bind fun _ _ => trivial
  | meshReset order faults => exact (leaves_meshReset order faults).bind fun _ _ => trivial

end Proof

/-- Operations that avoid a packet leave no trace of it in any state of any schedule. -/
theorem untouched_of_avoids {ι : Type} [DecidableEq ι] {crypto : CryptoService}
    (hinj : Function.Injective crypto.sha256) {packetId ciphertext : String} {ops : ι → Op}
    (hops : ∀ i, (ops i).Avoids crypto packetId ciphertext) {trace : List (ι × Action)}
    {c : Pool ι Action Action.Response Reply Server}
    (hrun : Pool.Run Action.exec Pool.AnyStep
      ⟨Server.initial, fun i => (ops i).program crypto⟩ trace c) :
    Untouched crypto packetId ciphertext c.shared :=
  hrun.maintains (fun i => leaves_program hinj (hops i)) untouched_initial

end UpiMesh
