import UpiMesh.Balances
import UpiMesh.IngestionSpec

/-!
# Batches that everybody can afford

When every account can pay all of its outgoing payments of a batch from the balance it starts with,
the order of the payments does not matter. Whatever has been ingested so far, the accounts form a
ledger that can afford the rest, so the next payment is covered, and it posts one transfer.
-/

namespace UpiMesh

open Concurrent DoubleEntry Int64Arith BridgeIngestionService

/-- One call of `ingest`. -/
structure IngestCall where
  packet : MeshPacket
  bridgeNodeId : String
  hopCount : ℤ
  env : IngestEnv

/-- The calls one after the other. -/
def ingestAll (crypto : CryptoService) : List IngestCall → Service (List IngestResult)
  | [] => pure []
  | u :: calls => do
    let r ← ingest crypto u.packet u.bridgeNodeId u.hopCount u.env
    let results ← ingestAll crypto calls
    pure (r :: results)

/-- The payment between the accounts that the instruction is resolved to. -/
def PaymentInstruction.transfer (i : PaymentInstruction) : Transfer String ℤ :=
  ⟨cstr i.senderVpa, cstr i.receiverVpa, i.amount⟩

/-- The payments of the packets that can be opened. -/
def transfers (crypto : CryptoService) (packets : List MeshPacket) : List (Transfer String ℤ) :=
  packets.filterMap fun p => match crypto.decrypt p.ciphertext with
    | .ok i => some i.transfer
    | .error _ => none

/-- No statement fails, and the packet is fresh when the call checks it. -/
def IngestCall.InTime (crypto : CryptoService) (u : IngestCall) : Prop :=
  (∀ n, u.env.faults n = {}) ∧
    ∀ i, crypto.decrypt u.packet.ciphertext = .ok i → Fresh u.env.freshNow i.signedAt

/-- The packet is a payment of a positive amount between two different known accounts. -/
def MeshPacket.Pays (crypto : CryptoService) (accounts : AccountTable) (p : MeshPacket) : Prop :=
  ∃ i, crypto.decrypt p.ciphertext = .ok i ∧ cstr i.senderVpa ∈ accounts.keys ∧
    cstr i.receiverVpa ∈ accounts.keys ∧ cstr i.senderVpa ≠ cstr i.receiverVpa ∧ 0 < i.amount

/-- The packets are new to the server. -/
structure NewPackets (crypto : CryptoService) (s : Server) (packets : List MeshPacket) : Prop where
  hashes : (packets.map fun p => crypto.hashCiphertext p.ciphertext).Nodup
  unclaimed : ∀ p ∈ packets, crypto.hashCiphertext p.ciphertext ∉ s.seen
  unsettled : ∀ p ∈ packets, crypto.hashCiphertext p.ciphertext ∉
    s.db.current.transactions.rows.map Transaction.packetHash

/-- A batch that every account can afford from what it has before the batch. -/
structure CoveredBatch (crypto : CryptoService) (s : Server) (packets : List MeshPacket) : Prop
    extends NewPackets crypto s packets where
  closed : s.db.savepoint = none
  nonneg : ∀ a ∈ s.db.current.accounts.rows, 0 ≤ a.balance
  fits : s.db.current.accounts.sum Account.balance < 2 ^ 63
  pays : ∀ p ∈ packets, p.Pays crypto s.db.current.accounts
  covered : ∀ a ∈ s.db.current.accounts.rows,
    outflow (transfers crypto packets) a.vpa ≤ a.balance

section Run

variable {crypto : CryptoService} {s : Server} {packets : List MeshPacket} {calls : List IngestCall}
  {u : IngestCall} {L : Ledger String ℤ}

theorem transfers_perm {packets' : List MeshPacket} (h : packets.Perm packets') :
    (transfers crypto packets).Perm (transfers crypto packets') := h.filterMap _

/-- Between two calls: the rest of the batch is new and affordable. -/
structure Pending (crypto : CryptoService) (L : Ledger String ℤ) (s : Server)
    (calls : List IngestCall) : Prop extends NewPackets crypto s (calls.map (·.packet)) where
  closed : s.db.savepoint = none
  balanced : Balanced L s.db.current.accounts
  fits : s.db.current.accounts.sum Account.balance < 2 ^ 63
  pays : ∀ u ∈ calls, u.packet.Pays crypto s.db.current.accounts
  inTime : ∀ u ∈ calls, u.InTime crypto
  affords : L.Affords (transfers crypto (calls.map (·.packet)))

theorem transfers_cons {p : MeshPacket} {i : PaymentInstruction}
    (h : crypto.decrypt p.ciphertext = .ok i) :
    transfers crypto (p :: packets) = i.transfer :: transfers crypto packets := by
  simp only [transfers, List.filterMap_cons, h]

/-- The next call reaches the write block. -/
theorem Pending.next (h : Pending crypto L s (u :: calls)) :
    ∃ i sender receiver, Passes crypto u.packet u.env s i ∧
      Covered s.db.current.accounts i sender receiver ∧ sender.vpa ≠ receiver.vpa ∧
      Balanced.posting sender receiver i.amount = i.transfer := by
  obtain ⟨i, hd, hs, hr, hne, hpos⟩ := h.pays u List.mem_cons_self
  obtain ⟨_, hfresh⟩ := h.inTime u List.mem_cons_self
  obtain ⟨sender, hsender⟩ := Table.exists_find?_of_mem_keys hs
  obtain ⟨receiver, hreceiver⟩ := Table.exists_find?_of_mem_keys hr
  have hskey := Table.key_of_find? hsender
  have hrkey := Table.key_of_find? hreceiver
  have haffords := h.affords
  rw [List.map_cons, transfers_cons hd] at haffords
  have hcovered : i.amount ≤ sender.balance := by
    rw [h.balanced.balance sender (Table.mem_of_find? hsender), hskey]
    exact haffords.head
  refine ⟨i, sender, receiver, ⟨h.unclaimed u.packet ?_, hd, hfresh i hd⟩,
    ⟨⟨hsender, hreceiver, hpos⟩, hcovered⟩, ?_, ?_⟩
  · exact List.mem_map_of_mem List.mem_cons_self
  · rw [hskey, hrkey]
    exact hne
  · rw [Balanced.posting, hskey, hrkey]
    rfl

/-- The claim and the row of one packet do not concern the others. -/
theorem NewPackets.tail {p : MeshPacket} {s' : Server} {now : ℤ}
    (h : NewPackets crypto s (p :: packets))
    (hseen : s'.seen =
      (IdempotencyService.claim (crypto.hashCiphertext p.ciphertext) now s.seen).2)
    (hrows : s'.db.current.transactions.rows.map Transaction.packetHash =
      s.db.current.transactions.rows.map Transaction.packetHash ++
        [crypto.hashCiphertext p.ciphertext]) : NewPackets crypto s' packets := by
  have hhashes := h.hashes
  rw [List.map_cons, List.nodup_cons] at hhashes
  have hother : ∀ q ∈ packets,
      crypto.hashCiphertext p.ciphertext ≠ crypto.hashCiphertext q.ciphertext :=
    fun q hq hsame => hhashes.1 (List.mem_map.mpr ⟨q, hq, hsame.symm⟩)
  refine ⟨hhashes.2, fun q hq => ?_, fun q hq => ?_⟩
  · rw [hseen, IdempotencyService.mem_claim, not_or]
    exact ⟨hother q hq, h.unclaimed q (List.mem_cons_of_mem p hq)⟩
  · rw [hrows, List.mem_append, List.mem_singleton, not_or]
    exact ⟨h.unsettled q (List.mem_cons_of_mem p hq), (hother q hq).symm⟩

/-- The state after a call. -/
def IngestCall.exec (crypto : CryptoService) (u : IngestCall) (s : Server) : Server :=
  ((ingest crypto u.packet u.bridgeNodeId u.hopCount u.env).run s).2

/-- The next call is settled, posts its transfer, and leaves the rest of the batch pending. -/
theorem Pending.step (h : Pending crypto L s (u :: calls)) :
    ∃ i L', crypto.decrypt u.packet.ciphertext = .ok i ∧
      ((ingest crypto u.packet u.bridgeNodeId u.hopCount u.env).run s).1.outcome = "SETTLED" ∧
      Pending crypto L' (u.exec crypto s) calls ∧
      (u.exec crypto s).db.current.accounts.rows.map Account.identity =
        s.db.current.accounts.rows.map Account.identity ∧
      ∀ k, L'.balance k = L.balance k + i.transfer.effect k := by
  obtain ⟨i, sender, receiver, hpasses, hc, hne, hposting⟩ := h.next
  obtain ⟨hf, -⟩ := h.inTime u List.mem_cons_self
  have hs := Table.mem_of_find? hc.findSender
  have hr := Table.mem_of_find? hc.findReceiver
  have hmem : u.packet ∈ (u :: calls).map (·.packet) := List.mem_map_of_mem List.mem_cons_self
  obtain ⟨hnew, hrun⟩ := run_ingest_of_covered u.bridgeNodeId u.hopCount h.closed hf hpasses hc
    (h.unsettled u.packet hmem)
  have haccounts : (u.exec crypto s).db.current.accounts =
      s.db.current.transfer sender receiver i.amount := by rw [IngestCall.exec, hrun]
  have hbalanced := h.balanced.transfer h.fits hc hne
  have haffords := h.affords
  rw [List.map_cons, transfers_cons hpasses.opens, ← hposting] at haffords
  rw [← haccounts] at hbalanced
  have hrest : NewPackets crypto (u.exec crypto s) (calls.map (·.packet)) := by
    apply h.toNewPackets.tail
    · exact seen_run_ingest crypto u.packet u.bridgeNodeId u.hopCount u.env s
    · rw [IngestCall.exec, hrun]
      simp only [TransactionTable.insert, TransactionTable.stored, SettleCall.transaction,
        List.map_append, List.map_singleton, CryptoService.cstr_hashCiphertext]
  refine ⟨i, _, hpasses.opens, by rw [hrun],
    { hrest with
      closed := by rw [IngestCall.exec, hrun]
      balanced := hbalanced
      fits := ?_
      pays := fun v hv => ?_
      inTime := fun v hv => h.inTime v (List.mem_cons_of_mem u hv)
      affords := haffords.tail _ _ hc.positive (h.balanced.covered_posting hc) }, ?_, fun k => ?_⟩
  · rw [hbalanced.sum_eq]
    exact h.balanced.sum_eq ▸ h.fits
  · obtain ⟨j, hj, hsender, hreceiver, hpays⟩ := h.pays v (List.mem_cons_of_mem u hv)
    have hkeys : (u.exec crypto s).db.current.accounts.keys = s.db.current.accounts.keys :=
      keys_run_ingest crypto u.packet u.bridgeNodeId u.hopCount u.env s
    rw [← hkeys] at hsender hreceiver
    exact ⟨j, hj, hsender, hreceiver, hpays⟩
  · rw [haccounts]
    exact Tables.map_identity_transfer _ hs hr
  · rw [Ledger.balance_post, hposting]

theorem Pending.run (h : Pending crypto L s calls) :
    ∃ results s' L', (ingestAll crypto calls).run s = (results, s') ∧
      results.map (·.outcome) = List.replicate calls.length "SETTLED" ∧
      Balanced L' s'.db.current.accounts ∧
      s'.db.current.accounts.rows.map Account.identity =
        s.db.current.accounts.rows.map Account.identity ∧
      ∀ k, L'.balance k = L.balance k + net (transfers crypto (calls.map (·.packet))) k := by
  induction calls generalizing s L with
  | nil => exact ⟨[], s, L, rfl, rfl, h.balanced, rfl, fun k => (add_zero _).symm⟩
  | cons u calls ih =>
    obtain ⟨i, L₁, hd, houtcome, hpending, hidentity, hbalance⟩ := h.step
    obtain ⟨results, s', L', hrun, houtcomes, hbalanced, hidentity', hbalance'⟩ := ih hpending
    refine ⟨((ingest crypto u.packet u.bridgeNodeId u.hopCount u.env).run s).1 :: results, s', L',
      ?_, ?_, hbalanced, hidentity'.trans hidentity, fun k => ?_⟩
    · rw [Service.run] at hrun
      simp only [ingestAll, Service.run, Program.run_bind, Program.pure_eq, Program.run_ret]
      exact congrArg (fun out => (_ :: out.1, out.2)) hrun
    · rw [List.map_cons, houtcome, houtcomes]
      rfl
    · rw [hbalance', hbalance, List.map_cons, transfers_cons hd, net_cons, add_assoc]

end Run

/-- The accounts after a batch. -/
def settledAccounts (accounts : AccountTable) (ts : List (Transfer String ℤ)) : AccountTable where
  rows := accounts.rows.map fun a => a.credit (net ts a.vpa)
  nodup := by
    rw [List.map_map]
    exact accounts.nodup

section Batch

variable {crypto : CryptoService} {s : Server} {packets : List MeshPacket}

theorem CoveredBatch.affords (h : CoveredBatch crypto s packets) :
    (Balanced.ledger s.db.current.accounts h.nonneg).Affords (transfers crypto packets) := by
  have hpays : ∀ t ∈ transfers crypto packets, t.source ∈ s.db.current.accounts.keys ∧
      t.target ∈ s.db.current.accounts.keys ∧ 0 < t.amount := by
    intro t ht
    obtain ⟨p, hp, htransfer⟩ := List.mem_filterMap.mp ht
    obtain ⟨i, hd, hsender, hreceiver, -, hpos⟩ := h.pays p hp
    rw [hd] at htransfer
    obtain rfl := Option.some.inj htransfer
    exact ⟨hsender, hreceiver, hpos⟩
  refine ⟨fun t ht => ?_, fun t ht => (hpays t ht).2.2, fun k hk => ?_⟩
  · exact ⟨List.mem_toFinset.mpr (hpays t ht).1, List.mem_toFinset.mpr (hpays t ht).2.1⟩
  · obtain ⟨a, ha, rfl⟩ := Table.mem_keys.mp (List.mem_toFinset.mp hk)
    rw [← Balanced.opening.balance a ha]
    exact h.covered a ha

/-- The balances after the batch fit. -/
theorem CoveredBatch.balance_settledAccounts (h : CoveredBatch crypto s packets) {a : Account}
    (ha : a ∈ s.db.current.accounts.rows) :
    (a.credit (net (transfers crypto packets) a.vpa)).balance =
      a.balance + net (transfers crypto packets) a.vpa := by
  have hopening : Balanced (Balanced.ledger s.db.current.accounts h.nonneg)
    s.db.current.accounts := Balanced.opening
  obtain ⟨L', hmembers, hopen, hbalance⟩ := h.affords.post
  have hmem : a.vpa ∈ L'.members := hmembers ▸ hopening.mem_members ha
  have hnonneg := L'.balance_nonneg hmem
  have hle := L'.balance_le_sum hmem
  rw [hmembers, hopen, ← hopening.sum_eq] at hle
  rw [hbalance, ← hopening.balance a ha] at hnonneg hle
  have hfits := h.fits
  rw [Account.balance_credit]
  apply add_of_fits
  constructor <;> omega

theorem CoveredBatch.pending (h : CoveredBatch crypto s packets) {calls : List IngestCall}
    (hperm : (calls.map (·.packet)).Perm packets) (htime : ∀ u ∈ calls, u.InTime crypto) :
    Pending crypto (Balanced.ledger s.db.current.accounts h.nonneg) s calls where
  hashes := (hperm.map _).nodup_iff.mpr h.hashes
  unclaimed p hp := h.unclaimed p (hperm.mem_iff.mp hp)
  unsettled p hp := h.unsettled p (hperm.mem_iff.mp hp)
  closed := h.closed
  balanced := Balanced.opening
  fits := h.fits
  pays u hu := h.pays u.packet (hperm.mem_iff.mp (List.mem_map_of_mem hu))
  inTime := htime
  affords := h.affords.perm (transfers_perm hperm).symm

/-- A covered batch is settled in every order, and always ends in the same accounts: each balance is
the old one minus what the account pays in the batch plus what it is paid. -/
theorem covered_batch_settles (crypto : CryptoService) (s : Server) (packets : List MeshPacket)
    (h : CoveredBatch crypto s packets) :
    ∃ accounts : AccountTable, accounts.keys = s.db.current.accounts.keys ∧
      (∀ a ∈ s.db.current.accounts.rows, ∃ b ∈ accounts.rows, b.vpa = a.vpa ∧
        b.holderName = a.holderName ∧ b.version = a.version ∧
        b.balance = a.balance - outflow (transfers crypto packets) a.vpa +
          inflow (transfers crypto packets) a.vpa) ∧
      ∀ calls : List IngestCall, (calls.map (·.packet)).Perm packets →
        (∀ u ∈ calls, u.InTime crypto) →
        ((ingestAll crypto calls).run s).1.map (·.outcome) =
            List.replicate packets.length "SETTLED" ∧
          ((ingestAll crypto calls).run s).2.db.current.accounts = accounts := by
  refine ⟨settledAccounts s.db.current.accounts (transfers crypto packets), ?_, fun a ha => ?_,
    fun calls hperm htime => ?_⟩
  · simp only [Table.keys, settledAccounts, List.map_map]
    rfl
  · refine ⟨_, List.mem_map_of_mem ha, rfl, rfl, rfl, ?_⟩
    rw [h.balance_settledAccounts ha, net_eq_inflow_sub_outflow]
    omega
  · obtain ⟨results, s', L', hrun, houtcomes, hbalanced, hidentity, hbalance⟩ :=
      (h.pending hperm htime).run
    have hlength : calls.length = packets.length := by simpa using hperm.length_eq
    rw [hrun, ← hlength]
    refine ⟨houtcomes, AccountTable.ext_balance (f := L'.balance) ?_ hbalanced.balance ?_⟩
    · rw [hidentity, settledAccounts, List.map_map]
      rfl
    · intro b hb
      obtain ⟨a, ha, rfl⟩ := List.mem_map.mp hb
      rw [h.balance_settledAccounts ha, Account.vpa_credit, hbalance,
        net_perm (transfers_perm hperm), ← Balanced.opening.balance a ha]

end Batch

/-- Bob passes on part of what Alice pays him. -/
def bobPaysCarol : PaymentInstruction :=
  { alicePaysBob with
    senderVpa := "bob@demo"
    receiverVpa := "carol@demo"
    amount := 400
    nonce := "m"
    amount_fits := by decide }

def twoPackets : List MeshPacket := [⟨"p1", 5, 0, "c1"⟩, ⟨"p2", 5, 0, "c2"⟩]

def twoPacketsCrypto : CryptoService := .ofList [("c1", alicePaysBob), ("c2", bobPaysCarol)]

theorem coveredBatch_twoPackets : CoveredBatch twoPacketsCrypto Server.initial twoPackets where
  hashes := by decide +kernel
  unclaimed _ _ := Std.ExtTreeMap.not_mem_empty
  unsettled _ _ := List.not_mem_nil
  closed := rfl
  nonneg := by decide
  fits := by decide
  pays := by
    intro p hp
    rcases List.mem_cons.mp hp with rfl | hp
    · exact ⟨alicePaysBob, rfl, by decide, by decide, by decide, by decide⟩
    · obtain rfl := List.mem_singleton.mp hp
      exact ⟨bobPaysCarol, rfl, by decide, by decide, by decide, by decide⟩
  covered := by decide +kernel

/-- The packets in the other order. -/
theorem covered_batch_settles_two_packets :
    ∃ accounts : AccountTable, accounts.keys = Database.seedAccounts.keys ∧
      (∀ a ∈ Database.seedAccounts.rows, ∃ b ∈ accounts.rows, b.vpa = a.vpa ∧
        b.holderName = a.holderName ∧ b.version = a.version ∧
        b.balance = a.balance - outflow (transfers twoPacketsCrypto twoPackets) a.vpa +
          inflow (transfers twoPacketsCrypto twoPackets) a.vpa) ∧
      ((ingestAll twoPacketsCrypto (twoPackets.reverse.map fun p => ⟨p, "phone-bridge", 1,
          { settledAt := fun _ => 0, claimNow := 0, freshNow := 0 }⟩)).run
            Server.initial).2.db.current.accounts = accounts := by
  obtain ⟨accounts, hkeys, hbalances, hcalls⟩ :=
    covered_batch_settles twoPacketsCrypto Server.initial twoPackets coveredBatch_twoPackets
  refine ⟨accounts, hkeys, hbalances, (hcalls _ ?_ fun u hu => ?_).2⟩
  · exact List.Perm.swap _ _ _
  · obtain ⟨p, hp, rfl⟩ := List.mem_map.mp hu
    refine ⟨fun _ => rfl, fun i hi => ?_⟩
    rcases List.mem_cons.mp hp with rfl | hp
    · obtain rfl : bobPaysCarol = i := Except.ok.inj hi
      decide
    · obtain rfl := List.mem_singleton.mp hp
      obtain rfl : alicePaysBob = i := Except.ok.inj hi
      decide

end UpiMesh
