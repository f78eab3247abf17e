import UpiMesh.Api
import UpiMesh.Lib.Lockstep
import UpiMesh.SettleBlock

/-!
# Routing data does not influence settlement

The packet id, the ttl, the creation time, the bridge and the hop count of an upload are untrusted.
Two runs that differ in them only proceed in lockstep: the bridge and the hop count are written into
the rows they belong to and never read, and the rest is not used at all.
-/

namespace UpiMesh

open Concurrent

/-- The row without the columns that hold routing data. -/
def Transaction.unrouted (tx : Transaction) : Transaction := { tx with bridgeNodeId := "", hopCount := 0 }

/-- The arguments of a `settle` call without the routing data. -/
def SettleCall.unrouted (call : SettleCall) : SettleCall := { call with bridgeNodeId := "", hopCount := 0 }

/-- Equal in all but the routing columns. -/
structure TransactionTable.Alike (t t' : TransactionTable) : Prop where
  rows : t.rows.map Transaction.unrouted = t'.rows.map Transaction.unrouted
  sequence : t.sequence = t'.sequence

structure Tables.Alike (t t' : Tables) : Prop where
  accounts : t.accounts = t'.accounts
  transactions : t.transactions.Alike t'.transactions

structure Database.Alike (db db' : Database) : Prop where
  current : db.current.Alike db'.current
  savepoint : Option.Rel Tables.Alike db.savepoint db'.savepoint

structure Server.Alike (s s' : Server) : Prop where
  held : s.held = s'.held
  seen : s.seen = s'.seen
  db : s.db.Alike s'.db

/-- Results that differ in the routing data of a returned row. -/
inductive ExceptAlike : Except Exn Transaction → Except Exn Transaction → Prop
  | ok {tx tx' : Transaction} (h : tx.unrouted = tx'.unrouted) : ExceptAlike (.ok tx) (.ok tx')
  | error {e : Exn} : ExceptAlike (.error e) (.error e)

inductive BlockResult.Alike : BlockResult → BlockResult → Prop
  | committed {tx tx' : Transaction} (h : tx.unrouted = tx'.unrouted) :
      BlockResult.Alike (.committed tx) (.committed tx')
  | thrown {e : Exn} : BlockResult.Alike (.thrown e) (.thrown e)
  | rolledBack {e : Exn} : BlockResult.Alike (.rolledBack e) (.rolledBack e)

section Primitives

variable {db db' : Database}

theorem TransactionTable.Alike.hashes {t t' : TransactionTable} (h : t.Alike t') :
    t.rows.map Transaction.packetHash = t'.rows.map Transaction.packetHash := by
  have hmap := congrArg (List.map Transaction.packetHash) h.rows
  rw [List.map_map, List.map_map] at hmap
  exact hmap

theorem Transaction.packetHash_of_unrouted {tx tx' : Transaction} (h : tx.unrouted = tx'.unrouted) :
    tx.packetHash = tx'.packetHash := by
  change tx.unrouted.packetHash = tx'.unrouted.packetHash
  rw [h]

theorem Transaction.unrouted_id {tx tx' : Transaction} (h : tx.unrouted = tx'.unrouted) {n n' : ℤ}
    (hn : n = n') : ({ tx with id := n } : Transaction).unrouted =
      ({ tx' with id := n' } : Transaction).unrouted := by
  change { tx.unrouted with id := n } = { tx'.unrouted with id := n' }
  rw [h, hn]

section Call

variable {call call' : SettleCall} (h : call.unrouted = call'.unrouted)

include h

theorem SettleCall.instruction_of_unrouted : call.instruction = call'.instruction := by
  change call.unrouted.instruction = call'.unrouted.instruction
  rw [h]

theorem SettleCall.transaction_of_unrouted (settledAt : ℤ) (status : Status) :
    (call.transaction settledAt status).unrouted = (call'.transaction settledAt status).unrouted := by
  change (call.unrouted.transaction settledAt status).unrouted =
    (call'.unrouted.transaction settledAt status).unrouted
  rw [h]

end Call

/-- The routing data of a row only reaches the routing columns. -/
theorem TransactionTable.Alike.stored {t t' : TransactionTable} (h : t.Alike t')
    {tx tx' : Transaction} (htx : tx.unrouted = tx'.unrouted) :
    (t.stored tx).unrouted = (t'.stored tx').unrouted := by
  have hfrom : ∀ (t : TransactionTable) (tx : Transaction),
      (t.stored tx).unrouted = (t.stored tx.unrouted).unrouted := fun _ _ => rfl
  rw [hfrom t tx, hfrom t' tx', htx]
  simp only [TransactionTable.stored, Transaction.unrouted, h.sequence]

theorem TransactionTable.Alike.insert {t t' : TransactionTable} (h : t.Alike t')
    {tx tx' : Transaction} (htx : tx.unrouted = tx'.unrouted)
    (hnew : cstr tx.packetHash ∉ t.rows.map Transaction.packetHash)
    (hnew' : cstr tx'.packetHash ∉ t'.rows.map Transaction.packetHash) :
    (t.insert tx hnew).Alike (t'.insert tx' hnew') := by
  refine ⟨?_, congrArg (· + 1) h.sequence⟩
  simp only [TransactionTable.insert, List.map_append, List.map_singleton, h.rows, h.stored htx]

theorem Database.Alike.execute (h : db.Alike db') (sql : ControlStatement)
    (fault : Option StatementFault) :
    (db.execute sql fault).1 = (db'.execute sql fault).1 ∧
      (db.execute sql fault).2.Alike (db'.execute sql fault).2 := by
  obtain ⟨current, savepoint⟩ := db
  obtain ⟨current', savepoint'⟩ := db'
  obtain ⟨hcurrent, hsavepoint⟩ := h
  cases fault with
  | some f => exact ⟨rfl, hcurrent, hsavepoint⟩
  | none =>
    cases hsavepoint with
    | none =>
      cases sql with
      | beginImmediate => exact ⟨rfl, hcurrent, .some hcurrent⟩
      | commit => exact ⟨rfl, hcurrent, .none⟩
      | rollback => exact ⟨rfl, hcurrent, .none⟩
    | some ht =>
      cases sql with
      | beginImmediate => exact ⟨rfl, hcurrent, .some ht⟩
      | commit => exact ⟨rfl, hcurrent, .none⟩
      | rollback => exact ⟨rfl, ht, .none⟩

theorem Database.Alike.saveAccount (h : db.Alike db') (account : Account)
    (fault : Option StatementFault) :
    (AccountRepository.save account fault db).Alike (AccountRepository.save account fault db') := by
  cases fault with
  | some f => exact h
  | none =>
    refine ⟨⟨?_, h.current.transactions⟩, h.savepoint⟩
    exact congrArg (fun accounts => accounts.upsert account) h.current.accounts

theorem Database.Alike.findById (h : db.Alike db') (vpa : String) (fault : Option StatementFault) :
    AccountRepository.findById vpa fault db = AccountRepository.findById vpa fault db' := by
  unfold AccountRepository.findById
  rw [h.current.accounts]

theorem Database.Alike.saveTransaction (h : db.Alike db') {tx tx' : Transaction}
    (htx : tx.unrouted = tx'.unrouted) (fault : Option StatementFault) :
    ExceptAlike (TransactionRepository.save tx fault db).1 (TransactionRepository.save tx' fault db').1 ∧
      (TransactionRepository.save tx fault db).2.Alike (TransactionRepository.save tx' fault db').2 := by
  cases fault with
  | some f => exact ⟨.error, h⟩
  | none =>
    have hhash := Transaction.packetHash_of_unrouted htx
    have hhashes := h.current.transactions.hashes
    by_cases hmem : cstr tx.packetHash ∈ db.current.transactions.rows.map Transaction.packetHash
    · have hmem' : cstr tx'.packetHash ∈
          db'.current.transactions.rows.map Transaction.packetHash := hhash ▸ hhashes ▸ hmem
      simp only [TransactionRepository.save, dif_pos hmem, dif_pos hmem']
      exact ⟨.error, h⟩
    · have hmem' : cstr tx'.packetHash ∉
          db'.current.transactions.rows.map Transaction.packetHash := hhash ▸ hhashes ▸ hmem
      simp only [TransactionRepository.save, dif_neg hmem, dif_neg hmem']
      refine ⟨.ok (Transaction.unrouted_id htx ?_), ⟨h.current.accounts,
        h.current.transactions.insert htx hmem hmem'⟩, h.savepoint⟩
      rw [h.current.transactions.sequence]

theorem Database.Alike.rollbackBlock (h : db.Alike db') (faults : AttemptFaults) (e : Exn) :
    (rollbackBlock faults e db).1.Alike (rollbackBlock faults e db').1 ∧
      (rollbackBlock faults e db).2.Alike (rollbackBlock faults e db').2 := by
  obtain ⟨hresult, hdb⟩ := h.execute .rollback faults.rollback
  unfold UpiMesh.rollbackBlock
  generalize db.execute .rollback faults.rollback = out at hresult hdb ⊢
  generalize db'.execute .rollback faults.rollback = out' at hresult hdb ⊢
  obtain ⟨r, db₁⟩ := out
  obtain ⟨r', db₁'⟩ := out'
  obtain rfl : r = r' := hresult
  cases r with
  | error e' => exact ⟨.thrown, hdb⟩
  | ok u => exact ⟨.rolledBack, hdb⟩

theorem Database.Alike.settleBlock (h : db.Alike db') {call call' : SettleCall}
    (hcall : call.unrouted = call'.unrouted) (sender receiver : Account) (settledAt : ℤ)
    (faults : AttemptFaults) :
    (settleBlock sender receiver call settledAt faults db).1.Alike
        (settleBlock sender receiver call' settledAt faults db').1 ∧
      (settleBlock sender receiver call settledAt faults db).2.Alike
        (settleBlock sender receiver call' settledAt faults db').2 := by
  unfold UpiMesh.settleBlock
  rw [SettleCall.instruction_of_unrouted hcall]
  dsimp only
  obtain ⟨hbegin, hdb⟩ := h.execute .beginImmediate faults.beginImmediate
  generalize db.execute .beginImmediate faults.beginImmediate = out at hbegin hdb ⊢
  generalize db'.execute .beginImmediate faults.beginImmediate = out' at hbegin hdb ⊢
  obtain ⟨r, db₁⟩ := out
  obtain ⟨r', db₁'⟩ := out'
  obtain rfl : r = r' := hbegin
  cases r with
  | error e => exact ⟨.thrown, hdb⟩
  | ok u =>
    dsimp only
    obtain ⟨hinsert, hdb⟩ := ((hdb.saveAccount (sender.debit call'.instruction.amount)
      faults.saveSender).saveAccount (receiver.credit call'.instruction.amount)
        faults.saveReceiver).saveTransaction
          (SettleCall.transaction_of_unrouted hcall settledAt .SETTLED) faults.insert
    generalize TransactionRepository.save (call.transaction settledAt .SETTLED) faults.insert _ =
      out at hinsert hdb ⊢
    generalize TransactionRepository.save (call'.transaction settledAt .SETTLED) faults.insert _ =
      out' at hinsert hdb ⊢
    obtain ⟨r, db₂⟩ := out
    obtain ⟨r', db₂'⟩ := out'
    cases hinsert with
    | error => exact hdb.rollbackBlock faults _
    | ok htx =>
      dsimp only
      obtain ⟨hcommit, hdb⟩ := hdb.execute .commit faults.commit
      generalize db₂.execute .commit faults.commit = out at hcommit hdb ⊢
      generalize db₂'.execute .commit faults.commit = out' at hcommit hdb ⊢
      obtain ⟨r, db₃⟩ := out
      obtain ⟨r', db₃'⟩ := out'
      obtain rfl : r = r' := hcommit
      cases r with
      | error e => exact hdb.rollbackBlock faults e
      | ok u => exact ⟨.committed htx, hdb⟩

end Primitives

/-- The same step, up to routing data. -/
inductive Action.Alike : Action → Action → Prop
  | claim {packetHash : String} {now : ℤ} : Alike (.claim packetHash now) (.claim packetHash now)
  | evictExpired {now : ℤ} : Alike (.evictExpired now) (.evictExpired now)
  | findById {vpa : String} {fault : Option StatementFault} :
      Alike (.findById vpa fault) (.findById vpa fault)
  | settleBlock {sender receiver : Account} {call call' : SettleCall} {settledAt : ℤ}
      {faults : AttemptFaults} (h : call.unrouted = call'.unrouted) :
      Alike (.settleBlock sender receiver call settledAt faults)
        (.settleBlock sender receiver call' settledAt faults)
  | saveTransaction {tx tx' : Transaction} {fault : Option StatementFault}
      (h : tx.unrouted = tx'.unrouted) : Alike (.saveTransaction tx fault) (.saveTransaction tx' fault)

def ResponsesAlike : (a a' : Action) → a.Response → a'.Response → Prop
  | .claim .., .claim .., r, r' => r = r'
  | .findById .., .findById .., r, r' => r = r'
  | .settleBlock .., .settleBlock .., r, r' => r.Alike r'
  | .saveTransaction .., .saveTransaction .., r, r' => ExceptAlike r r'
  | _, _, _, _ => True

def routing : Matching Action Action.Response := ⟨Action.Alike, ResponsesAlike⟩

/-- Steps that agree up to routing data keep states alike. -/
theorem Server.Alike.exec {a a' : Action} (ha : a.Alike a') {s s' : Server} (h : s.Alike s') :
    ResponsesAlike a a' (a.exec s).1 (a'.exec s').1 ∧ (a.exec s).2.Alike (a'.exec s').2 := by
  obtain ⟨hheld, hseen, hdb⟩ := h
  cases ha with
  | claim =>
    simp only [Action.exec, ResponsesAlike, hseen]
    exact ⟨trivial, hheld, rfl, hdb⟩
  | evictExpired =>
    simp only [Action.exec, hseen]
    exact ⟨trivial, hheld, rfl, hdb⟩
  | findById => exact ⟨hdb.findById _ _, hheld, hseen, hdb⟩
  | settleBlock hcall =>
    obtain ⟨hresult, hdb'⟩ := hdb.settleBlock hcall _ _ _ _
    exact ⟨hresult, hheld, hseen, hdb'⟩
  | saveTransaction htx =>
    obtain ⟨hresult, hdb'⟩ := hdb.saveTransaction htx _
    exact ⟨hresult, hheld, hseen, hdb'⟩

namespace SettlementService

inductive AttemptResult.Alike : AttemptResult → AttemptResult → Prop
  | returned {tx tx' : Transaction} (h : tx.unrouted = tx'.unrouted) :
      AttemptResult.Alike (.returned tx) (.returned tx')
  | thrown {e : Exn} : AttemptResult.Alike (.thrown e) (.thrown e)
  | failed {e : Exn} : AttemptResult.Alike (.failed e) (.failed e)

variable {call call' : SettleCall} (h : call.unrouted = call'.unrouted)

include h

theorem afterReads_lockstep (settledAt : ℤ) (faults : AttemptFaults) (sender receiver : Account) :
    (afterReads call settledAt faults sender receiver).Lockstep routing AttemptResult.Alike
      (afterReads call' settledAt faults sender receiver) := by
  unfold afterReads
  rw [SettleCall.instruction_of_unrouted h]
  dsimp only
  split_ifs
  · exact .thrown
  · refine ⟨.saveTransaction (SettleCall.transaction_of_unrouted h _ _), fun r r' hr => ?_⟩
    cases hr with
    | ok htx => exact .returned htx
    | error => exact .thrown
  · refine ⟨.settleBlock h, fun r r' hr => ?_⟩
    cases hr with
    | committed htx => exact .returned htx
    | thrown => exact .thrown
    | rolledBack => exact .failed

theorem attempt_lockstep (settledAt : ℤ) (faults : AttemptFaults) :
    (attempt call settledAt faults).Lockstep routing AttemptResult.Alike
      (attempt call' settledAt faults) := by
  unfold attempt unknownSender unknownReceiver
  rw [SettleCall.instruction_of_unrouted h]
  refine ⟨.findById, fun sender sender' hs => ?_⟩
  obtain rfl : sender = sender' := hs
  cases sender with
  | none => exact .thrown
  | some sender =>
    refine ⟨.findById, fun receiver receiver' hr => ?_⟩
    obtain rfl : receiver = receiver' := hr
    cases receiver with
    | none => exact .thrown
    | some receiver => exact afterReads_lockstep h settledAt faults sender receiver

theorem attempts_lockstep (env : SettleEnv) (n remaining : ℕ) :
    (attempts call env n remaining).Lockstep routing ExceptAlike
      (attempts call' env n remaining) := by
  induction remaining generalizing n with
  | zero => exact .error
  | succ remaining ih =>
    refine (attempt_lockstep h _ _).bind fun r r' hr => ?_
    cases hr with
    | returned htx => exact .ok htx
    | thrown => exact .error
    | failed =>
      dsimp only
      split_ifs
      · exact .error
      · exact ih (n + 1)

end SettlementService

namespace BridgeIngestionService

theorem settled_of_alike {r r' : Except Exn Transaction} (h : ExceptAlike r r')
    (packetHash : String) : settled packetHash r = settled packetHash r' := by
  cases h with
  | @ok tx tx' htx =>
    have hstatus : tx.unrouted.status = tx'.unrouted.status := by rw [htx]
    have hid : tx.unrouted.id = tx'.unrouted.id := by rw [htx]
    change tx.status = tx'.status at hstatus
    change tx.id = tx'.id at hid
    rw [settled, settled, hstatus, hid]
  | error => rfl

section Ingest

variable (crypto : CryptoService) {packet packet' : MeshPacket}
  (hpacket : packet.ciphertext = packet'.ciphertext) (bridgeNodeId bridgeNodeId' : String)
  (hopCount hopCount' : ℤ) (env : IngestEnv)

include hpacket

theorem afterClaim_lockstep (packetHash : String) :
    (afterClaim crypto packet bridgeNodeId hopCount env packetHash).Lockstep routing (· = ·)
      (afterClaim crypto packet' bridgeNodeId' hopCount' env packetHash) := by
  unfold afterClaim
  rw [hpacket]
  cases crypto.decrypt packet'.ciphertext with
  | error e => exact rfl
  | ok instruction =>
    dsimp only
    split_ifs
    · exact rfl
    · exact rfl
    · have hcall : (⟨instruction, packetHash, bridgeNodeId, hopCount⟩ : SettleCall).unrouted =
          (⟨instruction, packetHash, bridgeNodeId', hopCount'⟩ : SettleCall).unrouted := rfl
      have hsettle := SettlementService.attempts_lockstep hcall env.toSettleEnv 1
        SettlementService.maxAttempts
      exact hsettle.bind fun r r' hr => settled_of_alike hr packetHash

/-- Calls with one ciphertext and in one environment give the same answer. -/
theorem ingest_lockstep :
    (ingest crypto packet bridgeNodeId hopCount env).Lockstep routing (· = ·)
      (ingest crypto packet' bridgeNodeId' hopCount' env) := by
  unfold ingest
  rw [hpacket]
  refine ⟨.claim, fun won won' hwon => ?_⟩
  obtain rfl : won = won' := hwon
  cases won with
  | false => exact rfl
  | true =>
    exact afterClaim_lockstep crypto hpacket bridgeNodeId bridgeNodeId' hopCount hopCount' env _

end Ingest

end BridgeIngestionService

/-- The same operation, except for the routing data of an upload. -/
inductive Op.SameButRouting : Op → Op → Prop
  | ingest {packet packet' : MeshPacket} {bridgeNodeId bridgeNodeId' : String}
      {hopCount hopCount' : ℤ} {env : IngestEnv} (h : packet.ciphertext = packet'.ciphertext) :
      SameButRouting (.ingest packet bridgeNodeId hopCount env)
        (.ingest packet' bridgeNodeId' hopCount' env)
  | evictExpired {now : ℤ} : SameButRouting (.evictExpired now) (.evictExpired now)

/-- The replies of a sequential run, and the state it ends in. -/
def Op.runAll (crypto : CryptoService) : List Op → Server → List Reply × Server
  | [], s => ([], s)
  | op :: ops, s =>
    let first := (op.program crypto).run s
    let rest := runAll crypto ops first.2
    (first.1 :: rest.1, rest.2)

theorem Op.SameButRouting.run {op op' : Op} (h : op.SameButRouting op') (crypto : CryptoService)
    {s s' : Server} (hs : s.Alike s') :
    ((op.program crypto).run s).1 = ((op'.program crypto).run s').1 ∧
      ((op.program crypto).run s).2.Alike ((op'.program crypto).run s').2 := by
  have hlockstep : (op.program crypto).Lockstep routing (· = ·) (op'.program crypto) := by
    cases h with
    | ingest hpacket =>
      have hingest := BridgeIngestionService.ingest_lockstep crypto hpacket
      exact (hingest _ _ _ _ _).bind fun r r' hr => congrArg Reply.ingested hr
    | evictExpired => exact ⟨.evictExpired, fun _ _ _ => rfl⟩
  exact hlockstep.run (fun _ _ _ _ ha hs => hs.exec ha) hs

theorem runAll_alike (crypto : CryptoService) {ops ops' : List Op}
    (h : List.Forall₂ Op.SameButRouting ops ops') {s s' : Server} (hs : s.Alike s') :
    (Op.runAll crypto ops s).1 = (Op.runAll crypto ops' s').1 ∧
      (Op.runAll crypto ops s).2.Alike (Op.runAll crypto ops' s').2 := by
  induction h generalizing s s' with
  | nil => exact ⟨rfl, hs⟩
  | cons hop _ ih =>
    obtain ⟨hreply, hs₁⟩ := hop.run crypto hs
    obtain ⟨hreplies, hs₂⟩ := ih hs₁
    exact ⟨congrArg₂ List.cons hreply hreplies, hs₂⟩

theorem Server.Alike.refl (s : Server) : s.Alike s := by
  have htables : ∀ t : Tables, t.Alike t := fun t => ⟨rfl, rfl, rfl⟩
  refine ⟨rfl, rfl, htables _, ?_⟩
  cases s.db.savepoint with
  | none => exact .none
  | some t => exact .some (htables t)

/-- Two runs that carry the same ciphertexts at the same clock values answer every call alike, and
end with the same accounts, the same cache, and rows that differ in the routing columns only. -/
theorem routing_data_irrelevant (crypto : CryptoService) (s : Server) (ops ops' : List Op)
    (h : List.Forall₂ Op.SameButRouting ops ops') :
    (Op.runAll crypto ops s).1 = (Op.runAll crypto ops' s).1 ∧
      (Op.runAll crypto ops s).2.seen = (Op.runAll crypto ops' s).2.seen ∧
      (Op.runAll crypto ops s).2.db.current.accounts =
        (Op.runAll crypto ops' s).2.db.current.accounts ∧
      (Op.runAll crypto ops s).2.db.current.transactions.rows.map Transaction.unrouted =
        (Op.runAll crypto ops' s).2.db.current.transactions.rows.map Transaction.unrouted := by
  obtain ⟨hreplies, halike⟩ := runAll_alike crypto h (Server.Alike.refl s)
  exact ⟨hreplies, halike.seen, halike.db.current.accounts, halike.db.current.transactions.rows⟩

/-- The same ciphertext under another packet id, with another ttl, through another bridge. -/
def reroutedOps : List Op :=
  [.ingest ⟨"p2", -7, 99, "c1"⟩ "rogue-bridge" (-3)
      { settledAt := fun _ => 0, claimNow := 0, freshNow := 0 },
    .evictExpired 5]

theorem routing_data_irrelevant_rerouted :
    (Op.runAll (.ofList [("c1", alicePaysBob)]) [.ingestAt "p1" "c1" 0, .evictExpired 5]
        Server.initial).2.db.current.accounts =
      (Op.runAll (.ofList [("c1", alicePaysBob)]) reroutedOps
        Server.initial).2.db.current.accounts :=
  (routing_data_irrelevant (.ofList [("c1", alicePaysBob)]) Server.initial
    [.ingestAt "p1" "c1" 0, .evictExpired 5] reroutedOps
    (.cons (.ingest rfl) (.cons .evictExpired .nil))).2.2.1

end UpiMesh
