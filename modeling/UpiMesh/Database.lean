import UpiMesh.Types
import UpiMesh.Lib.Table

/-!
# The SQLite database and its repositories

The connection is shared by the whole process. `Database.current` is what a statement on it sees;
while a transaction is open, `Database.savepoint` keeps the tables as they were at `BEGIN`, which
is what `ROLLBACK` returns to. A statement that SQLite reports as failed carries a
`StatementFault`; what a caller does about it is up to the repository function. A failing statement
changes nothing, and a transaction that is open stays open: errors on which SQLite itself rolls the
transaction back (a step that ends in `SQLITE_FULL`, `SQLITE_IOERR` or `SQLITE_NOMEM`) are not
among the faults.
-/

namespace UpiMesh

/-- Where a statement failed, with the text of `sqlite3_errmsg`. -/
inductive StatementFault where
  | prepare (errmsg : String)
  | step (errmsg : String)
  deriving DecidableEq, Repr

def StatementFault.errmsg : StatementFault → String
  | .prepare e => e
  | .step e => e

abbrev AccountTable := Table Account.vpa

/-- The `transactions` table: rows in id order, and the largest id ever handed out
(`sqlite_sequence`), which deleting rows does not lower. -/
@[ext] structure TransactionTable where
  rows : List Transaction
  sequence : ℤ
  unique : (rows.map Transaction.packetHash).Nodup
  ascending : rows.Pairwise (·.id < ·.id)
  bounded : ∀ tx ∈ rows, tx.id ≤ sequence

namespace TransactionTable

def empty (sequence : ℤ) : TransactionTable :=
  ⟨[], sequence, List.nodup_nil, .nil, by simp⟩

/-- The texts as they are bound, and the id `AUTOINCREMENT` assigns. -/
def stored (t : TransactionTable) (tx : Transaction) : Transaction :=
  { tx with
    id := t.sequence + 1
    packetHash := cstr tx.packetHash
    senderVpa := cstr tx.senderVpa
    receiverVpa := cstr tx.receiverVpa
    bridgeNodeId := cstr tx.bridgeNodeId }

/-- `INSERT` of a row whose hash is not stored yet. -/
def insert (t : TransactionTable) (tx : Transaction)
    (h : cstr tx.packetHash ∉ t.rows.map Transaction.packetHash) : TransactionTable where
  rows := t.rows ++ [t.stored tx]
  sequence := t.sequence + 1
  unique := by
    rw [List.map_append, List.map_singleton]
    exact List.nodup_append.mpr ⟨t.unique, List.nodup_singleton _, fun a ha b hb => by
      rintro rfl
      have he : a = cstr tx.packetHash := List.mem_singleton.mp hb
      exact h (he ▸ ha)⟩
  ascending := by
    refine List.pairwise_append.mpr ⟨t.ascending, List.pairwise_singleton _ _, fun a ha b hb => ?_⟩
    have := t.bounded a ha
    rw [List.mem_singleton.mp hb]
    simp only [stored]
    omega
  bounded := by
    intro a ha
    rcases List.mem_append.mp ha with ha | ha
    · have := t.bounded a ha
      omega
    · rw [List.mem_singleton.mp ha]
      exact le_refl _

end TransactionTable

@[ext] structure Tables where
  accounts : AccountTable
  transactions : TransactionTable

@[ext] structure Database where
  current : Tables
  savepoint : Option Tables

/-- The statements `Database::execute` is called with by `settle`. -/
inductive ControlStatement where
  | beginImmediate
  | commit
  | rollback
  deriving DecidableEq, Repr

def executeFailed (errmsg : String) : Exn := .runtimeError ("SQLite execute failed: " ++ errmsg)

/-- The statements of `Database::reset` that fail. -/
structure ResetFaults where
  deleteTransactions : Option StatementFault := none
  deleteAccounts : Option StatementFault := none
  insertSeed : Option StatementFault := none
  deriving DecidableEq, Repr

def seedFailed (errmsg : String) : Exn := .runtimeError ("Failed to seed demo accounts: " ++ errmsg)

/-- Two of the seeded accounts. -/
def alice : Account :=
  { vpa := "alice@demo", holderName := "Alice", balance := 500000, version := 0 }

def bob : Account := { vpa := "bob@demo", holderName := "Bob", balance := 100000, version := 0 }

namespace Database

def seedAccounts : AccountTable where
  rows := [
    { vpa := "alice@demo", holderName := "Alice", balance := 500000, version := 0 },
    { vpa := "bob@demo", holderName := "Bob", balance := 100000, version := 0 },
    { vpa := "carol@demo", holderName := "Carol", balance := 250000, version := 0 },
    { vpa := "dave@demo", holderName := "Dave", balance := 50000, version := 0 }]
  nodup := by decide

/-- The database after construction: schema created, accounts seeded. -/
def initial : Database := ⟨⟨seedAccounts, .empty 0⟩, none⟩

/-- A failing statement leaves an open transaction open, which SQLite does not do when it fails with
`SQLITE_FULL`, `SQLITE_IOERR` or `SQLITE_NOMEM`. -/
def execute (sql : ControlStatement) (fault : Option StatementFault) (db : Database) :
    Except Exn Unit × Database :=
  match fault, sql, db.savepoint with
  | some f, _, _ => (.error (executeFailed f.errmsg), db)
  | none, .beginImmediate, none => (.ok (), { db with savepoint := some db.current })
  | none, .beginImmediate, some _ =>
      (.error (executeFailed "cannot start a transaction within a transaction"), db)
  | none, .commit, some _ => (.ok (), { db with savepoint := none })
  | none, .commit, none => (.error (executeFailed "cannot commit - no transaction is active"), db)
  | none, .rollback, some t => (.ok (), ⟨t, none⟩)
  | none, .rollback, none =>
      (.error (executeFailed "cannot rollback - no transaction is active"), db)

def deleteTransactions (fault : Option StatementFault) (db : Database) : Except Exn Unit × Database :=
  match fault with
  | some f => (.error (executeFailed f.errmsg), db)
  | none => (.ok (), { db with current.transactions := .empty db.current.transactions.sequence })

def deleteAccounts (fault : Option StatementFault) (db : Database) : Except Exn Unit × Database :=
  match fault with
  | some f => (.error (executeFailed f.errmsg), db)
  | none => (.ok (), { db with current.accounts := ⟨[], List.nodup_nil⟩ })

/-- `seedAccounts`: the insert also fails when one of the accounts exists. -/
def insertSeed (fault : Option StatementFault) (db : Database) : Except Exn Unit × Database :=
  match fault with
  | some f => (.error (seedFailed f.errmsg), db)
  | none =>
    if h : ((db.current.accounts.rows ++ seedAccounts.rows).map Account.vpa).Nodup then
      (.ok (), { db with current.accounts := ⟨_, h⟩ })
    else
      (.error (seedFailed "UNIQUE constraint failed: accounts.vpa"), db)

/-- The first statement that fails ends the reset; what the ones before it did stays. -/
def reset (faults : ResetFaults) (db : Database) : Except Exn Unit × Database :=
  match deleteTransactions faults.deleteTransactions db with
  | (.error e, db) => (.error e, db)
  | (.ok (), db) =>
    match deleteAccounts faults.deleteAccounts db with
    | (.error e, db) => (.error e, db)
    | (.ok (), db) => insertSeed faults.insertSeed db

/-- Both tables emptied and the accounts seeded again; the id sequence goes on. -/
def reseeded (db : Database) : Database :=
  { db with current := ⟨seedAccounts, .empty db.current.transactions.sequence⟩ }

/-- How a reset ends. -/
inductive ResetEnds (db : Database) : Except Exn Unit → Database → Prop
  | unchanged (e : Exn) : ResetEnds db (.error e) db
  | rowsDeleted (e : Exn) : ResetEnds db (.error e)
      { db with current.transactions := .empty db.current.transactions.sequence }
  | emptied (e : Exn) : ResetEnds db (.error e)
      { db with current := ⟨⟨[], List.nodup_nil⟩, .empty db.current.transactions.sequence⟩ }
  | reseeded : ResetEnds db (.ok ()) db.reseeded

theorem reset_ends (faults : ResetFaults) (db : Database) :
    ResetEnds db (db.reset faults).1 (db.reset faults).2 := by
  obtain ⟨rows, accounts, seed⟩ := faults
  cases rows with
  | some f => exact .unchanged _
  | none =>
    cases accounts with
    | some f => exact .rowsDeleted _
    | none =>
      cases seed with
      | some f => exact .emptied _
      | none => exact .reseeded

theorem reset_eq_ok (faults : ResetFaults) (db : Database) :
    (∃ x, (db.reset faults).1 = .ok x) ↔ faults = {} := by
  obtain ⟨rows, accounts, seed⟩ := faults
  cases rows with
  | some f => simp [reset, deleteTransactions]
  | none =>
    cases accounts with
    | some f => simp [reset, deleteTransactions, deleteAccounts]
    | none =>
      cases seed with
      | some f => simp [reset, deleteTransactions, deleteAccounts, insertSeed]
      | none => exact iff_of_true ⟨(), rfl⟩ rfl

/-- When no statement fails, the reset does what its name says. -/
@[simp] theorem reset_without_faults (db : Database) : db.reset {} = (.ok (), db.reseeded) := rfl

namespace ResetEnds

variable {db db' : Database} {r : Except Exn Unit}

theorem savepoint (h : ResetEnds db r db') : db'.savepoint = db.savepoint := by
  cases h <;> rfl

theorem sequence (h : ResetEnds db r db') :
    db'.current.transactions.sequence = db.current.transactions.sequence := by
  cases h <;> rfl

theorem rows (h : ResetEnds db r db') :
    db'.current.transactions = db.current.transactions ∨ db'.current.transactions.rows = [] := by
  cases h with
  | unchanged e => exact Or.inl rfl
  | _ => exact Or.inr rfl

theorem accounts (h : ResetEnds db r db') : db'.current.accounts = db.current.accounts ∨
    db'.current.accounts.rows = [] ∨ db'.current.accounts = seedAccounts := by
  cases h with
  | emptied e => exact Or.inr (Or.inl rfl)
  | reseeded => exact Or.inr (Or.inr rfl)
  | _ => exact Or.inl rfl

/-- No reset adds a row. -/
theorem mem_rows (h : ResetEnds db r db') {tx : Transaction}
    (htx : tx ∈ db'.current.transactions.rows) : tx ∈ db.current.transactions.rows := by
  rcases h.rows with hsame | hnone
  · exact hsame ▸ htx
  · rw [hnone] at htx
    exact absurd htx List.not_mem_nil

end ResetEnds

/-- Once the rows are deleted they stay deleted. -/
theorem rows_reset {faults : ResetFaults} {db : Database} (h : faults.deleteTransactions = none) :
    (db.reset faults).2.current.transactions.rows = [] := by
  obtain ⟨rows, accounts, seed⟩ := faults
  obtain rfl : rows = none := h
  cases accounts with
  | some f => rfl
  | none =>
    cases seed with
    | some f => rfl
    | none => rfl

end Database

namespace AccountRepository

/-- A failing statement looks like an unknown account. -/
def findById (vpa : String) (fault : Option StatementFault) (db : Database) : Option Account :=
  match fault with
  | some _ => none
  | none => db.current.accounts.find? (cstr vpa)

/-- The upsert writes every column as given. A failing statement is not reported. -/
def save (account : Account) (fault : Option StatementFault) (db : Database) : Database :=
  match fault with
  | some _ => db
  | none => { db with current.accounts := db.current.accounts.upsert account }

end AccountRepository

namespace TransactionRepository

def existsByPacketHash (packetHash : String) (db : Database) : Bool :=
  cstr packetHash ∈ db.current.transactions.rows.map Transaction.packetHash

def saveFailed : StatementFault → Exn
  | .prepare e => .runtimeError ("Failed to prepare tx save statement: " ++ e)
  | .step e => .runtimeError ("Failed to execute tx save: " ++ e)

def uniqueViolation : Exn :=
  saveFailed (.step "UNIQUE constraint failed: transactions.packetHash")

def save (tx : Transaction) (fault : Option StatementFault) (db : Database) :
    Except Exn Transaction × Database :=
  match fault with
  | some f => (.error (saveFailed f), db)
  | none =>
    if h : cstr tx.packetHash ∈ db.current.transactions.rows.map Transaction.packetHash then
      (.error uniqueViolation, db)
    else
      (.ok { tx with id := db.current.transactions.sequence + 1 },
        { db with current.transactions := db.current.transactions.insert tx h })

/-- A save changes nothing but the transactions. -/
theorem exists_save_eq (tx : Transaction) (fault : Option StatementFault) (db : Database) :
    ∃ transactions, (save tx fault db).2 = { db with current.transactions := transactions } := by
  cases fault with
  | some f => exact ⟨db.current.transactions, rfl⟩
  | none =>
    unfold save
    dsimp only
    split_ifs with h
    · exact ⟨db.current.transactions, rfl⟩
    · exact ⟨db.current.transactions.insert tx h, rfl⟩

theorem accounts_save (tx : Transaction) (fault : Option StatementFault) (db : Database) :
    (save tx fault db).2.current.accounts = db.current.accounts := by
  obtain ⟨transactions, hsave⟩ := exists_save_eq tx fault db
  rw [hsave]

theorem savepoint_save (tx : Transaction) (fault : Option StatementFault) (db : Database) :
    (save tx fault db).2.savepoint = db.savepoint := by
  obtain ⟨transactions, hsave⟩ := exists_save_eq tx fault db
  rw [hsave]

end TransactionRepository

end UpiMesh
