import UpiMesh.Database

/-!
# The write block of `SettlementService::settle`

`settleBlock` is what one attempt does after both accounts have been read: the debit and the credit
of the two copies, and the statements from `BEGIN IMMEDIATE` to `COMMIT` or `ROLLBACK`, which run
under the connection mutex. Every statement may be given a fault.
-/

namespace UpiMesh

/-- Which statements of one attempt SQLite reports as failed. -/
structure AttemptFaults where
  findSender : Option StatementFault := none
  findReceiver : Option StatementFault := none
  beginImmediate : Option StatementFault := none
  saveSender : Option StatementFault := none
  saveReceiver : Option StatementFault := none
  insert : Option StatementFault := none
  commit : Option StatementFault := none
  rollback : Option StatementFault := none
  deriving DecidableEq, Repr

/-- The statements of the write block succeed, except possibly the account saves. -/
def AttemptFaults.Commits (faults : AttemptFaults) : Prop :=
  faults.beginImmediate = none ∧ faults.insert = none ∧ faults.commit = none

/-- The arguments of one `settle` call. -/
structure SettleCall where
  instruction : PaymentInstruction
  packetHash : String
  bridgeNodeId : String
  hopCount : ℤ
  deriving DecidableEq, Repr

/-- The row `settle` and `recordRejected` fill in; its id is assigned by the insert. -/
def SettleCall.transaction (call : SettleCall) (settledAt : ℤ) (status : Status) : Transaction where
  id := 0
  packetHash := call.packetHash
  senderVpa := call.instruction.senderVpa
  receiverVpa := call.instruction.receiverVpa
  amount := call.instruction.amount
  signedAt := call.instruction.signedAt
  settledAt := settledAt
  bridgeNodeId := call.bridgeNodeId
  hopCount := call.hopCount
  status := status

/-- How the write block is left: with a committed row, by an exception that propagates out of
`settle`, or through the handler that rolled back and may retry. -/
inductive BlockResult where
  | committed (tx : Transaction)
  | thrown (e : Exn)
  | rolledBack (e : Exn)
  deriving DecidableEq, Repr

/-- The handler `catch (...)`: a failing `ROLLBACK` replaces the exception being handled. -/
def rollbackBlock (faults : AttemptFaults) (e : Exn) (db : Database) : BlockResult × Database :=
  match db.execute .rollback faults.rollback with
  | (.error e', db) => (.thrown e', db)
  | (.ok (), db) => (.rolledBack e, db)

def settleBlock (sender receiver : Account) (call : SettleCall) (settledAt : ℤ)
    (faults : AttemptFaults) (db : Database) : BlockResult × Database :=
  let amount := call.instruction.amount
  match db.execute .beginImmediate faults.beginImmediate with
  | (.error e, db) => (.thrown e, db)
  | (.ok (), db) =>
    let db := AccountRepository.save (sender.debit amount) faults.saveSender db
    let db := AccountRepository.save (receiver.credit amount) faults.saveReceiver db
    match TransactionRepository.save (call.transaction settledAt .SETTLED) faults.insert db with
    | (.error e, db) => rollbackBlock faults e db
    | (.ok tx, db) =>
      match db.execute .commit faults.commit with
      | (.error e, db) => rollbackBlock faults e db
      | (.ok (), db) => (.committed tx, db)

/-- The `accounts` table after the two saves; a save that fails leaves its row as it was. -/
def savedAccounts (sender receiver : Account) (amount : ℤ) (faults : AttemptFaults)
    (accounts : AccountTable) : AccountTable :=
  let accounts := if faults.saveSender = none then accounts.upsert (sender.debit amount)
    else accounts
  if faults.saveReceiver = none then accounts.upsert (receiver.credit amount) else accounts

theorem keys_savedAccounts {sender receiver : Account} {amount : ℤ} {faults : AttemptFaults}
    {accounts : AccountTable} (hs : sender ∈ accounts.rows) (hr : receiver ∈ accounts.rows) :
    (savedAccounts sender receiver amount faults accounts).keys = accounts.keys := by
  have hkeys : (if faults.saveSender = none then accounts.upsert (sender.debit amount)
      else accounts).keys = accounts.keys := by
    split_ifs
    · exact Table.keys_upsert_of_mem (Table.mem_keys.mpr ⟨sender, hs, rfl⟩)
    · rfl
  have hmem : (receiver.credit amount).vpa ∈ accounts.keys := Table.mem_keys.mpr ⟨receiver, hr, rfl⟩
  unfold savedAccounts
  by_cases hsave : faults.saveReceiver = none
  · simp only [if_pos hsave]
    rw [Table.keys_upsert_of_mem (hkeys ▸ hmem), hkeys]
  · simp only [if_neg hsave]
    exact hkeys

/-- Whatever holds of the stored accounts and of the two that are written. -/
theorem forall_savedAccounts {P : Account → Prop} {sender receiver : Account} {amount : ℤ}
    {faults : AttemptFaults} {accounts : AccountTable} (h : ∀ a ∈ accounts.rows, P a)
    (hs : P (sender.debit amount)) (hr : P (receiver.credit amount)) :
    ∀ a ∈ (savedAccounts sender receiver amount faults accounts).rows, P a := by
  have hdebit : ∀ a ∈ (if faults.saveSender = none then accounts.upsert (sender.debit amount)
      else accounts).rows, P a := by
    intro a ha
    split_ifs at ha
    · rcases Table.mem_of_mem_upsert ha with rfl | ha
      · exact hs
      · exact h a ha
    · exact h a ha
  intro a ha
  unfold savedAccounts at ha
  by_cases hsave : faults.saveReceiver = none
  · simp only [if_pos hsave] at ha
    rcases Table.mem_of_mem_upsert ha with rfl | ha
    · exact hr
    · exact hdebit a ha
  · simp only [if_neg hsave] at ha
    exact hdebit a ha

section Spec

variable {sender receiver : Account} {call : SettleCall} {settledAt : ℤ} {faults : AttemptFaults}
  {db : Database}

theorem saves_eq (a b : Account) (f g : Option StatementFault) (db : Database) :
    AccountRepository.save b g (AccountRepository.save a f db) =
      { db with current.accounts :=
          let accounts := if f = none then db.current.accounts.upsert a else db.current.accounts
          if g = none then accounts.upsert b else accounts } := by
  cases f <;> cases g <;> rfl

theorem save_transaction_of_mem {status : Status}
    (h : cstr call.packetHash ∈ db.current.transactions.rows.map Transaction.packetHash) :
    TransactionRepository.save (call.transaction settledAt status) none db =
      (.error TransactionRepository.uniqueViolation, db) := dif_pos h

theorem save_transaction_of_notMem {status : Status}
    (h : cstr call.packetHash ∉ db.current.transactions.rows.map Transaction.packetHash) :
    TransactionRepository.save (call.transaction settledAt status) none db =
      (.ok { call.transaction settledAt status with id := db.current.transactions.sequence + 1 },
        { db with current.transactions :=
            db.current.transactions.insert (call.transaction settledAt status) h }) := dif_neg h

/-- The insert or the commit of the block fails. -/
def BlockFails (call : SettleCall) (faults : AttemptFaults) (db : Database) : Prop :=
  faults.insert ≠ none ∨ faults.commit ≠ none ∨
    cstr call.packetHash ∈ db.current.transactions.rows.map Transaction.packetHash

/-- The ways the block can end, for any statement faults. -/
inductive BlockEnds (sender receiver : Account) (call : SettleCall) (settledAt : ℤ)
    (faults : AttemptFaults) (db : Database) : BlockResult → Database → Prop
  | unbegun {e : Exn} (h : db.savepoint ≠ none ∨ faults.beginImmediate ≠ none) :
      BlockEnds sender receiver call settledAt faults db (.thrown e) db
  | committed (hsp : db.savepoint = none) (hbegin : faults.beginImmediate = none)
      (hinsert : faults.insert = none) (hcommit : faults.commit = none)
      (hnew : cstr call.packetHash ∉ db.current.transactions.rows.map Transaction.packetHash) :
      BlockEnds sender receiver call settledAt faults db
        (.committed { call.transaction settledAt .SETTLED with
            id := db.current.transactions.sequence + 1 })
        ⟨⟨savedAccounts sender receiver call.instruction.amount faults db.current.accounts,
          db.current.transactions.insert (call.transaction settledAt .SETTLED) hnew⟩, none⟩
  | rolledBack {e : Exn} (hsp : db.savepoint = none) (hbegin : faults.beginImmediate = none)
      (hroll : faults.rollback = none) (hfail : BlockFails call faults db)
      (he : faults.insert = none → faults.commit = none →
        e = TransactionRepository.uniqueViolation) :
      BlockEnds sender receiver call settledAt faults db (.rolledBack e) db
  | leftOpen {e : Exn} {t : Tables} (hsp : db.savepoint = none)
      (hbegin : faults.beginImmediate = none) (hroll : faults.rollback ≠ none)
      (hfail : BlockFails call faults db)
      (haccounts : t.accounts =
        savedAccounts sender receiver call.instruction.amount faults db.current.accounts)
      (ht : (t.transactions = db.current.transactions ∧ (faults.insert ≠ none ∨
          cstr call.packetHash ∈ db.current.transactions.rows.map Transaction.packetHash)) ∨
        ∃ hnew, faults.insert = none ∧ faults.commit ≠ none ∧
          t.transactions = db.current.transactions.insert (call.transaction settledAt .SETTLED) hnew) :
      BlockEnds sender receiver call settledAt faults db (.thrown e) ⟨t, some db.current⟩

theorem rollbackBlock_ends {sp t : Tables} {e : Exn} (hbegin : faults.beginImmediate = none)
    (hfail : BlockFails call faults ⟨sp, none⟩)
    (he : faults.insert = none → faults.commit = none → e = TransactionRepository.uniqueViolation)
    (haccounts : t.accounts =
      savedAccounts sender receiver call.instruction.amount faults sp.accounts)
    (ht : (t.transactions = sp.transactions ∧ (faults.insert ≠ none ∨
          cstr call.packetHash ∈ sp.transactions.rows.map Transaction.packetHash)) ∨
        ∃ hnew, faults.insert = none ∧ faults.commit ≠ none ∧
          t.transactions = sp.transactions.insert (call.transaction settledAt .SETTLED) hnew) :
    BlockEnds sender receiver call settledAt faults ⟨sp, none⟩
      (rollbackBlock faults e ⟨t, some sp⟩).1 (rollbackBlock faults e ⟨t, some sp⟩).2 := by
  cases hroll : faults.rollback with
  | none =>
    simp only [rollbackBlock, Database.execute, hroll]
    exact .rolledBack rfl hbegin hroll hfail he
  | some f =>
    simp only [rollbackBlock, Database.execute, hroll]
    exact .leftOpen rfl hbegin (by simp [hroll]) hfail haccounts ht

theorem settleBlock_ends (sender receiver : Account) (call : SettleCall) (settledAt : ℤ)
    (faults : AttemptFaults) (db : Database) :
    BlockEnds sender receiver call settledAt faults db
      (settleBlock sender receiver call settledAt faults db).1
      (settleBlock sender receiver call settledAt faults db).2 := by
  obtain ⟨current, savepoint⟩ := db
  cases hbegin : faults.beginImmediate with
  | some f =>
    simp only [settleBlock, Database.execute, hbegin]
    exact .unbegun (Or.inr (by simp [hbegin]))
  | none =>
    cases savepoint with
    | some t =>
      simp only [settleBlock, Database.execute, hbegin]
      exact .unbegun (Or.inl (by simp))
    | none =>
      cases hins : faults.insert with
      | some f =>
        simp only [settleBlock, Database.execute, hbegin, saves_eq, hins, TransactionRepository.save]
        exact rollbackBlock_ends hbegin (Or.inl (by simp [hins])) (by simp [hins]) rfl
          (Or.inl ⟨rfl, Or.inl (by simp [hins])⟩)
      | none =>
        by_cases hdup : cstr call.packetHash ∈ current.transactions.rows.map Transaction.packetHash
        · simp only [settleBlock, Database.execute, hbegin, saves_eq, hins]
          rw [save_transaction_of_mem hdup]
          exact rollbackBlock_ends hbegin (Or.inr (Or.inr hdup)) (fun _ _ => rfl) rfl
            (Or.inl ⟨rfl, Or.inr hdup⟩)
        · cases hcom : faults.commit with
          | some f =>
            simp only [settleBlock, Database.execute, hbegin, saves_eq, hins]
            rw [save_transaction_of_notMem hdup]
            simp only [hcom]
            exact rollbackBlock_ends hbegin (Or.inr (Or.inl (by simp [hcom]))) (by simp [hcom]) rfl
              (Or.inr ⟨hdup, hins, by simp [hcom], rfl⟩)
          | none =>
            simp only [settleBlock, Database.execute, hbegin, saves_eq, hins]
            rw [save_transaction_of_notMem hdup]
            simp only [hcom]
            exact .committed rfl hbegin hins hcom hdup

theorem BlockEnds.of_commits {r : BlockResult} {db' : Database}
    (h : BlockEnds sender receiver call settledAt faults db r db') (hsp : db.savepoint = none)
    (hcommits : faults.Commits)
    (hnew : cstr call.packetHash ∉ db.current.transactions.rows.map Transaction.packetHash) :
    r = .committed { call.transaction settledAt .SETTLED with
        id := db.current.transactions.sequence + 1 } ∧
      db' = ⟨⟨savedAccounts sender receiver call.instruction.amount faults db.current.accounts,
        db.current.transactions.insert (call.transaction settledAt .SETTLED) hnew⟩, none⟩ := by
  obtain ⟨hbegin, hinsert, hcommit⟩ := hcommits
  have hfails : ¬ BlockFails call faults db := by simp [BlockFails, hinsert, hcommit, hnew]
  cases h with
  | unbegun h => exact absurd hbegin (h.resolve_left (not_not.mpr hsp))
  | committed _ _ _ _ _ => exact ⟨rfl, rfl⟩
  | rolledBack _ _ _ hfail _ => exact absurd hfail hfails
  | leftOpen _ _ _ hfail _ _ => exact absurd hfail hfails

/-- When `ROLLBACK` succeeds, the block commits or leaves the database as it was. -/
theorem settleBlock_of_rollback (sender receiver : Account) (call : SettleCall) (settledAt : ℤ)
    {faults : AttemptFaults} (db : Database) (hroll : faults.rollback = none) :
    (∃ r, settleBlock sender receiver call settledAt faults db = (r, db) ∧
      ∀ tx, r ≠ .committed tx) ∨
    ∃ tx hnew, settleBlock sender receiver call settledAt faults db =
      (.committed tx, ⟨⟨savedAccounts sender receiver call.instruction.amount faults
        db.current.accounts, db.current.transactions.insert (call.transaction settledAt .SETTLED)
          hnew⟩, none⟩) := by
  have hends := settleBlock_ends sender receiver call settledAt faults db
  generalize settleBlock sender receiver call settledAt faults db = out at hends ⊢
  obtain ⟨r, db'⟩ := out
  cases hends with
  | unbegun _ => exact Or.inl ⟨_, rfl, fun tx h => by cases h⟩
  | committed _ _ _ _ hnew => exact Or.inr ⟨_, hnew, rfl⟩
  | rolledBack _ _ _ _ _ => exact Or.inl ⟨_, rfl, fun tx h => by cases h⟩
  | leftOpen _ _ hfail _ _ _ => exact absurd hroll hfail

/-- No account appears or disappears. -/
theorem BlockEnds.keys {r : BlockResult} {db' : Database}
    (h : BlockEnds sender receiver call settledAt faults db r db')
    (hs : sender ∈ db.current.accounts.rows) (hr : receiver ∈ db.current.accounts.rows) :
    db'.current.accounts.keys = db.current.accounts.keys := by
  cases h with
  | unbegun _ => rfl
  | committed _ _ _ _ _ => exact keys_savedAccounts hs hr
  | rolledBack _ _ _ _ _ => rfl
  | leftOpen _ _ _ _ haccounts _ =>
    rw [haccounts]
    exact keys_savedAccounts hs hr

end Spec

end UpiMesh
