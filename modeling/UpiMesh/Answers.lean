import UpiMesh.Balances
import UpiMesh.IngestionSpec

/-!
# Answers and effects

When the only statement that can fail is the insert of a row whose hash is stored, the answer of
`ingest` says what the call has done. A call that gets past all its checks is decided by the balance
of the sender: it moves the money and appends a settled row, or appends a rejected row. Every other
call leaves the database as it was.
-/

namespace UpiMesh

open Concurrent DoubleEntry Int64Arith BridgeIngestionService

/-- SQLite stores the text as it is. -/
def NulFree (text : String) : Prop := '\x00' ∉ text.toList

/-- The call gets as far as comparing the balance of the sender with the amount. -/
structure Decisive (crypto : CryptoService) (packet : MeshPacket) (env : IngestEnv) (s : Server)
    (i : PaymentInstruction) (sender receiver : Account) : Prop
    extends Passes crypto packet env s i, Payable s.db.current.accounts i sender receiver where
  unstored : crypto.hashCiphertext packet.ciphertext ∉
    s.db.current.transactions.rows.map Transaction.packetHash

/-- The amount has moved from the sender to the receiver, and nothing else has changed. -/
structure Paid (i : PaymentInstruction) (accounts accounts' : AccountTable) : Prop where
  identities : accounts'.rows.map Account.identity = accounts.rows.map Account.identity
  sender : ∃ a a', accounts.find? i.senderVpa = some a ∧ accounts'.find? i.senderVpa = some a' ∧
    a'.balance = a.balance - i.amount
  receiver : ∃ a a', accounts.find? i.receiverVpa = some a ∧
    accounts'.find? i.receiverVpa = some a' ∧ a'.balance = a.balance + i.amount
  others : ∀ vpa, vpa ≠ i.senderVpa → vpa ≠ i.receiverVpa → accounts'.find? vpa = accounts.find? vpa

/-- One row has been appended, with these fields and under the id that the answer carries. -/
structure Recorded (i : PaymentInstruction) (packetHash bridgeNodeId : String) (hopCount settledAt : ℤ)
    (status : Status) (r : IngestResult) (t t' : TransactionTable) (row : Transaction) : Prop where
  rows : t'.rows = t.rows ++ [row]
  id : r.transactionId = some row.id
  packetHash : row.packetHash = packetHash
  senderVpa : row.senderVpa = i.senderVpa
  receiverVpa : row.receiverVpa = i.receiverVpa
  amount : row.amount = i.amount
  signedAt : row.signedAt = i.signedAt
  settledAt : row.settledAt = settledAt
  bridgeNodeId : row.bridgeNodeId = bridgeNodeId
  hopCount : row.hopCount = hopCount
  status : row.status = status

/-- No table has changed; the packet is a duplicate, or it is invalid. -/
structure Undecided (crypto : CryptoService) (packet : MeshPacket) (s : Server) (r : IngestResult)
    (s' : Server) : Prop where
  db : s'.db = s.db
  duplicate : crypto.hashCiphertext packet.ciphertext ∈ s.seen → r.outcome = "DUPLICATE_DROPPED"
  invalid : crypto.hashCiphertext packet.ciphertext ∉ s.seen → r.outcome = "INVALID"

/-- How an answer goes with the databases before and after the call. -/
structure Matches (crypto : CryptoService) (packet : MeshPacket) (bridgeNodeId : String)
    (hopCount : ℤ) (env : IngestEnv) (s : Server) (r : IngestResult) (s' : Server) : Prop where
  settled : r.outcome = "SETTLED" ↔ ∃ i sender receiver,
    Decisive crypto packet env s i sender receiver ∧ i.amount ≤ sender.balance
  rejected : r.outcome = "REJECTED" ↔ ∃ i sender receiver,
    Decisive crypto packet env s i sender receiver ∧ sender.balance < i.amount
  paid : ∀ i sender receiver, Decisive crypto packet env s i sender receiver →
    i.amount ≤ sender.balance → i.senderVpa ≠ i.receiverVpa → NulFree i.senderVpa →
    NulFree i.receiverVpa → NulFree bridgeNodeId →
    Paid i s.db.current.accounts s'.db.current.accounts ∧
      ∃ row, Recorded i (crypto.hashCiphertext packet.ciphertext) bridgeNodeId hopCount
        (env.settledAt 1) .SETTLED r s.db.current.transactions s'.db.current.transactions row
  refused : ∀ i sender receiver, Decisive crypto packet env s i sender receiver →
    sender.balance < i.amount → s'.db.current.accounts = s.db.current.accounts ∧
      (NulFree i.senderVpa → NulFree i.receiverVpa → NulFree bridgeNodeId →
        ∃ row, Recorded i (crypto.hashCiphertext packet.ciphertext) bridgeNodeId hopCount
          (env.settledAt 1) .REJECTED r s.db.current.transactions s'.db.current.transactions row)
  undecided : ¬ r.Decided → Undecided crypto packet s r s'

/-- The insert of a settlement's row. -/
theorem recorded_insert {t : TransactionTable} (call : SettleCall) {settledAt : ℤ} {status : Status}
    (hnew : cstr (call.transaction settledAt status).packetHash ∉ t.rows.map Transaction.packetHash)
    {r : IngestResult} (hid : r.transactionId = some (t.sequence + 1))
    (hhash : cstr call.packetHash = call.packetHash) (hs : NulFree call.instruction.senderVpa)
    (hr : NulFree call.instruction.receiverVpa) (hb : NulFree call.bridgeNodeId) :
    ∃ row, Recorded call.instruction call.packetHash call.bridgeNodeId call.hopCount settledAt status r t
      (t.insert (call.transaction settledAt status) hnew) row :=
  ⟨t.stored (call.transaction settledAt status), {
    rows := rfl
    id := hid
    packetHash := hhash
    senderVpa := cstr_of_notMem hs
    receiverVpa := cstr_of_notMem hr
    amount := rfl
    signedAt := rfl
    settledAt := rfl
    bridgeNodeId := cstr_of_notMem hb
    hopCount := rfl
    status := rfl }⟩

/-- The two saves of a covered payment between different parties. -/
theorem paid_transfer {t : Tables} {i : PaymentInstruction} {sender receiver : Account}
    (hnonneg : ∀ a ∈ t.accounts.rows, 0 ≤ a.balance)
    (hfits : t.accounts.sum Account.balance < 2 ^ 63) (hc : Covered t.accounts i sender receiver)
    (hne : i.senderVpa ≠ i.receiverVpa) (hs : NulFree i.senderVpa) (hr : NulFree i.receiverVpa) :
    Paid i t.accounts (t.transfer sender receiver i.amount) := by
  have hfindS := hc.findSender
  have hfindR := hc.findReceiver
  rw [cstr_of_notMem hs] at hfindS
  rw [cstr_of_notMem hr] at hfindR
  have hskey : sender.vpa = i.senderVpa := Table.key_of_find? hfindS
  have hrkey : receiver.vpa = i.receiverVpa := Table.key_of_find? hfindR
  have hvpas : sender.vpa ≠ receiver.vpa := by rwa [hskey, hrkey]
  have hopening : Balanced (Balanced.ledger t.accounts hnonneg) t.accounts := Balanced.opening
  have hcredit := hopening.fits_credit hfits hc hvpas
  have hfind := t.find?_transfer sender receiver i.amount
  rw [hskey, hrkey] at hfind
  refine ⟨?_, ⟨sender, sender.debit i.amount, hfindS, ?_, ?_⟩,
    ⟨receiver, receiver.credit i.amount, hfindR, ?_, ?_⟩, fun vpa hvs hvr => ?_⟩
  · exact Tables.map_identity_transfer i.amount (Table.mem_of_find? hfindS)
      (Table.mem_of_find? hfindR)
  · rw [hfind, if_neg hne.symm, if_pos rfl]
  · exact sub_of_covered sender.balance_fits hc.positive hc.covered
  · rw [hfind, if_pos rfl]
  · exact add_of_fits hcredit
  · rw [hfind, if_neg hvr.symm, if_neg hvs.symm]

section Ingest

variable {crypto : CryptoService} {packet : MeshPacket} {bridgeNodeId : String} {hopCount : ℤ}
  {env : IngestEnv} {s : Server} {i i' : PaymentInstruction}
  {sender receiver sender' receiver' : Account}

/-- The packet and the accounts determine what is decided. -/
theorem Decisive.unique (h : Decisive crypto packet env s i sender receiver)
    (h' : Decisive crypto packet env s i' sender' receiver') :
    i' = i ∧ sender' = sender ∧ receiver' = receiver := by
  obtain rfl : i' = i := Except.ok.inj (h'.opens.symm.trans h.opens)
  exact ⟨rfl, h.toPayable.unique h'.toPayable⟩

theorem Undecided.of_invalid {r : IngestResult} {s' : Server}
    (hnot : crypto.hashCiphertext packet.ciphertext ∉ s.seen) (hdb : s'.db = s.db)
    (houtcome : r.outcome = "INVALID") : Undecided crypto packet s r s' :=
  ⟨hdb, fun hseen => absurd hseen hnot, fun _ => houtcome⟩

theorem Undecided.not_decided {r : IngestResult} {s' : Server}
    (h : Undecided crypto packet s r s') : ¬ r.Decided := by
  by_cases hseen : crypto.hashCiphertext packet.ciphertext ∈ s.seen
  · exact IngestResult.not_decided _ (h.duplicate hseen) (by decide) (by decide)
  · exact IngestResult.not_decided _ (h.invalid hseen) (by decide) (by decide)

/-- A call that is not decided by a balance changes no table. -/
theorem run_ingest_of_not_decisive (hsp : s.db.savepoint = none) (hf : ∀ n, env.faults n = {})
    (h : ∀ i sender receiver, ¬ Decisive crypto packet env s i sender receiver) {r : IngestResult}
    {s' : Server} (hrun : (ingest crypto packet bridgeNodeId hopCount env).run s = (r, s')) :
    Undecided crypto packet s r s' := by
  by_cases hp : ∃ i, Passes crypto packet env s i
  · obtain ⟨i, hp⟩ := hp
    obtain ⟨result, db, hrun', hsettles⟩ := run_ingest_of_passes bridgeNodeId hopCount hsp hf hp
    obtain ⟨rfl, rfl⟩ := Prod.mk.inj (hrun.symm.trans hrun')
    cases hsettles with
    | rejected hshort hnew =>
      rw [crypto.cstr_hashCiphertext] at hnew
      exact absurd ⟨hp, hshort.toPayable, hnew⟩ (h i _ _)
    | settled hc hnew =>
      rw [crypto.cstr_hashCiphertext] at hnew
      exact absurd ⟨hp, hc.toPayable, hnew⟩ (h i _ _)
    | _ => exact .of_invalid hp.unclaimed rfl rfl
  · have hexit := run_ingest crypto packet bridgeNodeId hopCount env s
    rw [hrun] at hexit
    have hdb : s'.db = s.db := hexit.db (not_exists.mp hp)
    cases hexit with
    | duplicate hseen => exact ⟨hdb, fun _ => rfl, fun hnot => absurd hseen hnot⟩
    | undecryptable hnot _ => exact .of_invalid hnot hdb rfl
    | stale hnot _ _ => exact .of_invalid hnot hdb rfl
    | futureDated hnot _ _ => exact .of_invalid hnot hdb rfl
    | settled hnot hd hfresh _ => exact absurd ⟨_, hnot, hd, hfresh⟩ hp

/-- A decisive call that is covered. -/
theorem Matches.of_covered (hsp : s.db.savepoint = none) (hf : ∀ n, env.faults n = {})
    (hnonneg : ∀ a ∈ s.db.current.accounts.rows, 0 ≤ a.balance)
    (hfits : s.db.current.accounts.sum Account.balance < 2 ^ 63)
    (h : Decisive crypto packet env s i sender receiver) (hcov : i.amount ≤ sender.balance) :
    Matches crypto packet bridgeNodeId hopCount env s
      ((ingest crypto packet bridgeNodeId hopCount env).run s).1
      ((ingest crypto packet bridgeNodeId hopCount env).run s).2 := by
  have hc : Covered s.db.current.accounts i sender receiver := ⟨h.toPayable, hcov⟩
  obtain ⟨hnew, hrun⟩ :=
    run_ingest_of_covered bridgeNodeId hopCount hsp hf h.toPasses hc h.unstored
  have hcovers : ∀ {i' sender' receiver'}, Decisive crypto packet env s i' sender' receiver' →
      i'.amount ≤ sender'.balance := by
    intro i' sender' receiver' h'
    obtain ⟨rfl, rfl, -⟩ := h.unique h'
    exact hcov
  rw [hrun]
  constructor
  · exact ⟨fun _ => ⟨i, sender, receiver, h, hcov⟩, fun _ => rfl⟩
  · constructor
    · intro houtcome
      exact absurd houtcome (by decide : "SETTLED" ≠ "REJECTED")
    · rintro ⟨i', sender', receiver', h', hshort⟩
      exact absurd (hcovers h') hshort.not_ge
  · intro i' sender' receiver' h' _ hne hs hr hb
    obtain ⟨rfl, rfl, rfl⟩ := h.unique h'
    exact ⟨paid_transfer hnonneg hfits hc hne hs hr,
      recorded_insert ⟨i', crypto.hashCiphertext packet.ciphertext, bridgeNodeId, hopCount⟩ hnew rfl
        (crypto.cstr_hashCiphertext _) hs hr hb⟩
  · intro i' sender' receiver' h' hshort
    exact absurd (hcovers h') hshort.not_ge
  · intro hnot
    exact (hnot (Or.inl rfl)).elim

/-- A decisive call that is not covered. -/
theorem Matches.of_short (hsp : s.db.savepoint = none) (hf : ∀ n, env.faults n = {})
    (h : Decisive crypto packet env s i sender receiver) (hshort : sender.balance < i.amount) :
    Matches crypto packet bridgeNodeId hopCount env s
      ((ingest crypto packet bridgeNodeId hopCount env).run s).1
      ((ingest crypto packet bridgeNodeId hopCount env).run s).2 := by
  obtain ⟨hnew, hrun⟩ := run_ingest_of_short bridgeNodeId hopCount hsp hf h.toPasses
    ⟨h.toPayable, hshort⟩ h.unstored
  have hfails : ∀ {i' sender' receiver'}, Decisive crypto packet env s i' sender' receiver' →
      sender'.balance < i'.amount := by
    intro i' sender' receiver' h'
    obtain ⟨rfl, rfl, -⟩ := h.unique h'
    exact hshort
  rw [hrun]
  constructor
  · constructor
    · intro houtcome
      exact absurd houtcome (by decide : "REJECTED" ≠ "SETTLED")
    · rintro ⟨i', sender', receiver', h', hcov⟩
      exact absurd (hfails h') hcov.not_gt
  · exact ⟨fun _ => ⟨i, sender, receiver, h, hshort⟩, fun _ => rfl⟩
  · intro i' sender' receiver' h' hcov
    exact absurd (hfails h') hcov.not_gt
  · intro i' sender' receiver' h' _
    obtain ⟨rfl, rfl, rfl⟩ := h.unique h'
    refine ⟨rfl, fun hs hr hb => ?_⟩
    exact recorded_insert ⟨i', crypto.hashCiphertext packet.ciphertext, bridgeNodeId, hopCount⟩ hnew rfl
      (crypto.cstr_hashCiphertext _) hs hr hb
  · intro hnot
    exact (hnot (Or.inr rfl)).elim

theorem Matches.of_undecided {r : IngestResult} {s' : Server} (hundecided : Undecided crypto packet s r s')
    (h : ∀ i sender receiver, ¬ Decisive crypto packet env s i sender receiver) :
    Matches crypto packet bridgeNodeId hopCount env s r s' := by
  obtain ⟨hsettled, hrejected⟩ := not_or.mp hundecided.not_decided
  constructor
  · constructor
    · intro houtcome
      exact absurd houtcome hsettled
    · rintro ⟨i, sender, receiver, hd, _⟩
      exact absurd hd (h i sender receiver)
  · constructor
    · intro houtcome
      exact absurd houtcome hrejected
    · rintro ⟨i, sender, receiver, hd, _⟩
      exact absurd hd (h i sender receiver)
  · intro i sender receiver hd
    exact absurd hd (h i sender receiver)
  · intro i sender receiver hd
    exact absurd hd (h i sender receiver)
  · intro _
    exact hundecided

end Ingest

/-- The answer of a call says what it has done. -/
theorem answer_matches_effect (crypto : CryptoService) (packet : MeshPacket) (bridgeNodeId : String)
    (hopCount : ℤ) (env : IngestEnv) (s : Server) (hsp : s.db.savepoint = none)
    (hf : ∀ n, env.faults n = {}) (hnonneg : ∀ a ∈ s.db.current.accounts.rows, 0 ≤ a.balance)
    (hfits : s.db.current.accounts.sum Account.balance < 2 ^ 63) :
    Matches crypto packet bridgeNodeId hopCount env s
      ((ingest crypto packet bridgeNodeId hopCount env).run s).1
      ((ingest crypto packet bridgeNodeId hopCount env).run s).2 := by
  by_cases h : ∃ i sender receiver, Decisive crypto packet env s i sender receiver
  · obtain ⟨i, sender, receiver, h⟩ := h
    by_cases hcov : i.amount ≤ sender.balance
    · exact .of_covered hsp hf hnonneg hfits h hcov
    · exact .of_short hsp hf h (not_le.mp hcov)
  · simp only [not_exists] at h
    exact .of_undecided (run_ingest_of_not_decisive hsp hf h rfl) h

/-- Alice's payment to Bob on the seeded database. -/
theorem answer_matches_effect_alice_pays_bob :
    Matches (.ofList [("c1", alicePaysBob)]) ⟨"p1", 5, 0, "c1"⟩ "phone-bridge" 1
      { settledAt := fun _ => 0, claimNow := 0, freshNow := 0 } Server.initial
      ((ingest (.ofList [("c1", alicePaysBob)]) ⟨"p1", 5, 0, "c1"⟩ "phone-bridge" 1
        { settledAt := fun _ => 0, claimNow := 0, freshNow := 0 }).run Server.initial).1
      ((ingest (.ofList [("c1", alicePaysBob)]) ⟨"p1", 5, 0, "c1"⟩ "phone-bridge" 1
        { settledAt := fun _ => 0, claimNow := 0, freshNow := 0 }).run Server.initial).2 :=
  answer_matches_effect _ _ _ _ _ Server.initial rfl (fun _ => rfl) (by decide) (by decide)

end UpiMesh
