import UpiMesh.Lib.Mutex
import UpiMesh.Settlement

/-!
# The shared connection, statement by statement

Every SQL statement is a step of its own on the one connection, and the recursive connection mutex is
locked and unlocked where the code does so. `Database::execute` takes no lock. A service runs on
this level as the same program, with every action on the database replaced by the code that performs
it.
-/

namespace UpiMesh

open Concurrent Concurrent.Guarded

/-- A failing query, and how many rows it delivers before it fails. -/
inductive QueryFault where
  | prepare
  | step (delivered : ℕ)
  deriving DecidableEq, Repr

inductive Statement where
  | selectAccount (vpa : String) (fault : Option StatementFault)
  | selectAccounts (fault : Option QueryFault)
  | selectByPacketHash (packetHash : String) (fault : Option StatementFault)
  | selectTop20 (fault : Option QueryFault)
  | upsertAccount (account : Account) (fault : Option StatementFault)
  | insertTransaction (tx : Transaction) (fault : Option StatementFault)
  | control (sql : ControlStatement) (fault : Option StatementFault)
  | deleteTransactions (fault : Option StatementFault)
  | deleteAccounts (fault : Option StatementFault)
  | insertSeed (fault : Option StatementFault)
  deriving DecidableEq, Repr

@[reducible] def Statement.Response : Statement → Type
  | .selectAccount .. => Option Account
  | .selectAccounts _ => List Account
  | .selectByPacketHash .. => Except Exn Bool
  | .selectTop20 _ => Except Exn (List Transaction)
  | .upsertAccount .. => Unit
  | .insertTransaction .. => Except Exn Transaction
  | .control .. => Except Exn Unit
  | .deleteTransactions _ => Except Exn Unit
  | .deleteAccounts _ => Except Exn Unit
  | .insertSeed _ => Except Exn Unit

namespace Statement

/-- The rows of `SELECT ... FROM accounts`. -/
def accountRows (db : Database) : Option QueryFault → List Account
  | none => db.current.accounts.rows
  | some .prepare => []
  | some (.step delivered) => db.current.accounts.rows.take delivered

/-- The rows of `SELECT ... ORDER BY id DESC LIMIT 20`. -/
def top20Rows (db : Database) : Option QueryFault → Except Exn (List Transaction)
  | none => .ok (db.current.transactions.rows.reverse.take 20)
  | some .prepare => .error (.runtimeError "Failed to prepare findTop20 statement")
  | some (.step delivered) => .ok ((db.current.transactions.rows.reverse.take 20).take delivered)

def existsRow (packetHash : String) (db : Database) : Option StatementFault → Except Exn Bool
  | none => .ok (TransactionRepository.existsByPacketHash packetHash db)
  | some (.prepare _) => .error (.runtimeError "Failed to prepare exists statement")
  | some (.step _) => .ok false

def exec : (stmt : Statement) → Database → stmt.Response × Database
  | .selectAccount vpa fault, db => (AccountRepository.findById vpa fault db, db)
  | .selectAccounts fault, db => (accountRows db fault, db)
  | .selectByPacketHash packetHash fault, db => (existsRow packetHash db fault, db)
  | .selectTop20 fault, db => (top20Rows db fault, db)
  | .upsertAccount account fault, db => ((), AccountRepository.save account fault db)
  | .insertTransaction tx fault, db => TransactionRepository.save tx fault db
  | .control sql fault, db => db.execute sql fault
  | .deleteTransactions fault, db => db.deleteTransactions fault
  | .deleteAccounts fault, db => db.deleteAccounts fault
  | .insertSeed fault, db => db.insertSeed fault

def onServer (stmt : Statement) (s : Server) : stmt.Response × Server :=
  ((stmt.exec s.db).1, { s with db := (stmt.exec s.db).2 })

end Statement

/-- What a thread does in one step: lock or unlock the mutex, one SQL statement, or an action on
another store. -/
abbrev ConnectionStep (ι : Type) := Guarded ι Statement Action

/-- Code of a thread that uses the connection. -/
abbrev Session (ι : Type) :=
  Program (ConnectionStep ι) (Guarded.Response Statement.Response Action.Response)

namespace Connection

variable {ι : Type}

def exec (a : ConnectionStep ι) (s : Monitor ι Server) :
    a.Response Statement.Response Action.Response × Monitor ι Server :=
  Guarded.exec Statement.onServer Action.exec a s

def statement (stmt : Statement) : Session ι stmt.Response :=
  Program.call (Guarded.act stmt : ConnectionStep ι)

def execute (sql : ControlStatement) (fault : Option StatementFault) : Session ι (Except Exn Unit) :=
  statement (.control sql fault)

variable (i : ι)

def findById (vpa : String) (fault : Option StatementFault) : Session ι (Option Account) :=
  locked i (statement (.selectAccount vpa fault))

def saveAccount (account : Account) (fault : Option StatementFault) : Session ι Unit :=
  locked i (statement (.upsertAccount account fault))

def findAll (fault : Option QueryFault) : Session ι (List Account) :=
  locked i (statement (.selectAccounts fault))

def saveTransaction (tx : Transaction) (fault : Option StatementFault) :
    Session ι (Except Exn Transaction) := locked i (statement (.insertTransaction tx fault))

def existsByPacketHash (packetHash : String) (fault : Option StatementFault) :
    Session ι (Except Exn Bool) := locked i (statement (.selectByPacketHash packetHash fault))

def findTop20ByOrderByIdDesc (fault : Option QueryFault) :
    Session ι (Except Exn (List Transaction)) := locked i (statement (.selectTop20 fault))

/-- `Database::reset`: a statement that fails throws, and the lock guard unlocks. -/
def reset (faults : ResetFaults) : Session ι (Except Exn Unit) := locked i do
  match ← statement (.deleteTransactions faults.deleteTransactions) with
  | .error e => pure (.error e)
  | .ok () => do
    match ← statement (.deleteAccounts faults.deleteAccounts) with
    | .error e => pure (.error e)
    | .ok () => statement (.insertSeed faults.insertSeed)

/-- The handler `catch (...)`. -/
def rollbackBlock (faults : AttemptFaults) (e : Exn) : Session ι BlockResult := do
  match ← execute .rollback faults.rollback with
  | .error e' => pure (.thrown e')
  | .ok () => pure (.rolledBack e)

/-- The block of `settle` that holds the lock. -/
def writeBlock (sender receiver : Account) (call : SettleCall) (settledAt : ℤ)
    (faults : AttemptFaults) : Session ι BlockResult := locked i do
  let amount := call.instruction.amount
  match ← execute .beginImmediate faults.beginImmediate with
  | .error e => pure (.thrown e)
  | .ok () => do
    saveAccount i (sender.debit amount) faults.saveSender
    saveAccount i (receiver.credit amount) faults.saveReceiver
    match ← saveTransaction i (call.transaction settledAt .SETTLED) faults.insert with
    | .error e => rollbackBlock faults e
    | .ok tx =>
      match ← execute .commit faults.commit with
      | .error e => rollbackBlock faults e
      | .ok () => pure (.committed tx)

/-- The code that performs an action. -/
def perform : (a : Action) → Session ι a.Response
  | .findById vpa fault => findById i vpa fault
  | .settleBlock sender receiver call settledAt faults =>
      writeBlock i sender receiver call settledAt faults
  | .saveTransaction tx fault => saveTransaction i tx fault
  | .resetDatabase faults => reset i faults
  | a => Program.call (Guarded.free a : ConnectionStep ι)

/-- A service on the level of statements. -/
def session {α : Type} (p : Service α) : Session ι α := p.expand (perform i)

end Connection
end UpiMesh
