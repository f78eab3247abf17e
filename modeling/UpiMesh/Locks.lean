import UpiMesh.Endpoints
import UpiMesh.Lib.Atomicity

/-!
# The server, lock by lock

Every device, the idempotency cache and the connection have a mutex of their own; only that of the
connection is recursive. Here each look-up or change of a map, each turn of a loop over a map and each
SQL statement is a step, and so is each locking and unlocking, where the code does it.
-/

namespace UpiMesh

open Concurrent Locking

inductive Mutex where
  | device (deviceId : String)
  | cache
  | connection
  deriving DecidableEq, Repr

/-- What the mutex guards. -/
@[reducible] def Mutex.Data : Mutex → Type
  | .device _ => HeldPackets
  | .cache => SeenHashes
  | .connection => Database

/-- `std::recursive_mutex` or `std::mutex`. -/
def Mutex.Recursive : Mutex → Prop
  | .connection => True
  | _ => False

instance : DecidablePred Mutex.Recursive
  | .connection => isTrue trivial
  | .device _ => isFalse id
  | .cache => isFalse id

/-- An access to `heldPackets_`, to `seen_` or to the connection. -/
inductive Access where
  | assignHeld (deviceId : String) (packet : MeshPacket)
  | findHeld (deviceId packetId : String)
  | heldSize (deviceId : String)
  | heldKeys (deviceId : String) (order : IterOrder)
  | heldEntry (deviceId key : String)
  | clearHeld (deviceId : String)
  | insertSeen (packetHash : String) (now : ℤ)
  | seenSize
  | seenKeys (order : IterOrder)
  | seenEntry (key : String)
  | eraseSeen (key : String)
  | clearSeen
  | statement (stmt : Statement)

namespace Access

@[reducible] def Response : Access → Type
  | .assignHeld .. => Unit
  | .findHeld .. => Bool
  | .heldSize _ => ℕ
  | .heldKeys .. => List String
  | .heldEntry .. => Option MeshPacket
  | .clearHeld _ => Unit
  | .insertSeen .. => Bool
  | .seenSize => ℕ
  | .seenKeys _ => List String
  | .seenEntry _ => Option ℤ
  | .eraseSeen _ => Unit
  | .clearSeen => Unit
  | .statement stmt => stmt.Response

@[reducible] def guard : Access → Mutex
  | .assignHeld d _ => .device d
  | .findHeld d _ => .device d
  | .heldSize d => .device d
  | .heldKeys d _ => .device d
  | .heldEntry d _ => .device d
  | .clearHeld d => .device d
  | .insertSeen .. => .cache
  | .seenSize => .cache
  | .seenKeys _ => .cache
  | .seenEntry _ => .cache
  | .eraseSeen _ => .cache
  | .clearSeen => .cache
  | .statement _ => .connection

/-- The keys of a map are listed in the order in which a traversal meets them. -/
def exec : (a : Access) → a.guard.Data → a.Response × a.guard.Data
  | .assignHeld _ packet, held => ((), held.insert packet.packetId packet)
  | .findHeld _ packetId, held => (held.contains packetId, held)
  | .heldSize _, held => (held.size, held)
  | .heldKeys _ order, held => (order.arrange held.keys, held)
  | .heldEntry _ key, held => (held[key]?, held)
  | .clearHeld _, _ => ((), ∅)
  | .insertSeen packetHash now, seen => (!seen.contains packetHash, seen.insertIfNew packetHash now)
  | .seenSize, seen => (seen.size, seen)
  | .seenKeys order, seen => (order.arrange seen.keys, seen)
  | .seenEntry key, seen => (seen[key]?, seen)
  | .eraseSeen key, seen => ((), seen.erase key)
  | .clearSeen, _ => ((), ∅)
  | .statement stmt, db => stmt.exec db

end Access

/-- Which mutex guards which access. -/
abbrev guards : Guards Mutex Access Access.Response Mutex.Data where
  guard := Access.guard
  access := Access.exec
  recursive := Mutex.Recursive

/-- Code of a thread. -/
abbrev LockedCode (ι α : Type) : Type := Code ι Mutex Access.Response α

namespace Locked

variable {ι : Type}

def access (a : Access) : LockedCode ι a.Response := Program.call (Locking.access a)

variable (i : ι)

section Devices

def hold (deviceId : String) (packet : MeshPacket) : LockedCode ι Unit :=
  locked i (.device deviceId) (access (.assignHeld deviceId packet))

def holds (deviceId packetId : String) : LockedCode ι Bool :=
  locked i (.device deviceId) (access (.findHeld deviceId packetId))

def packetCount (deviceId : String) : LockedCode ι ℕ :=
  locked i (.device deviceId) (access (.heldSize deviceId))

/-- The loop of `getHeldPackets`. -/
def pushBack (deviceId : String) : List String → LockedCode ι (List MeshPacket)
  | [] => pure []
  | key :: keys => do
    let entry ← access (.heldEntry deviceId key)
    let result ← pushBack deviceId keys
    pure (entry.toList ++ result)

def getHeldPackets (deviceId : String) (order : IterOrder) : LockedCode ι (List MeshPacket) :=
  locked i (.device deviceId) do
    let keys ← access (.heldKeys deviceId order)
    pushBack deviceId keys

def clearDevice (deviceId : String) : LockedCode ι Unit :=
  locked i (.device deviceId) (access (.clearHeld deviceId))

end Devices

section Cache

def claim (packetHash : String) (now : ℤ) : LockedCode ι Bool :=
  locked i .cache (access (.insertSeen packetHash now))

def size : LockedCode ι ℕ := locked i .cache (access .seenSize)

def clearSeen : LockedCode ι Unit := locked i .cache (access .clearSeen)

/-- The loop of `evictExpired`, which erases while it iterates. -/
def eraseExpired (cutoffMillis : ℤ) : List String → LockedCode ι Unit
  | [] => pure ()
  | key :: keys => do
    match ← access (.seenEntry key) with
    | none => eraseExpired cutoffMillis keys
    | some claimedAt =>
      if claimedAt < cutoffMillis then do
        access (.eraseSeen key)
        eraseExpired cutoffMillis keys
      else eraseExpired cutoffMillis keys

/-- One pass, after the wait. -/
def evictExpired (order : IterOrder) (now : ℤ) : LockedCode ι Unit :=
  locked i .cache do
    let keys ← access (.seenKeys order)
    eraseExpired (now - IdempotencyService.ttlSeconds * 1000) keys

end Cache

section Connection

def statement (stmt : Statement) : LockedCode ι stmt.Response := access (.statement stmt)

def findById (vpa : String) (fault : Option StatementFault) : LockedCode ι (Option Account) :=
  locked i .connection (statement (.selectAccount vpa fault))

def saveAccount (account : Account) (fault : Option StatementFault) : LockedCode ι Unit :=
  locked i .connection (statement (.upsertAccount account fault))

def findAll (fault : Option QueryFault) : LockedCode ι (List Account) :=
  locked i .connection (statement (.selectAccounts fault))

def saveTransaction (tx : Transaction) (fault : Option StatementFault) :
    LockedCode ι (Except Exn Transaction) :=
  locked i .connection (statement (.insertTransaction tx fault))

def findTop20ByOrderByIdDesc (fault : Option QueryFault) :
    LockedCode ι (Except Exn (List Transaction)) :=
  locked i .connection (statement (.selectTop20 fault))

/-- `Database::reset`: a statement that fails throws, and the lock guard unlocks. -/
def reset (faults : ResetFaults) : LockedCode ι (Except Exn Unit) := locked i .connection do
  match ← statement (.deleteTransactions faults.deleteTransactions) with
  | .error e => pure (.error e)
  | .ok () => do
    match ← statement (.deleteAccounts faults.deleteAccounts) with
    | .error e => pure (.error e)
    | .ok () => statement (.insertSeed faults.insertSeed)

def execute (sql : ControlStatement) (fault : Option StatementFault) : LockedCode ι (Except Exn Unit) :=
  statement (.control sql fault)

/-- The handler `catch (...)`. -/
def rollbackBlock (faults : AttemptFaults) (e : Exn) : LockedCode ι BlockResult := do
  match ← execute .rollback faults.rollback with
  | .error e' => pure (.thrown e')
  | .ok () => pure (.rolledBack e)

/-- The block of `settle` that holds the lock. -/
def writeBlock (sender receiver : Account) (call : SettleCall) (settledAt : ℤ)
    (faults : AttemptFaults) : LockedCode ι BlockResult := locked i .connection do
  let amount := call.instruction.amount
  match ← execute .beginImmediate faults.beginImmediate with
  | .error e => pure (.thrown e)
  | .ok () => do
    saveAccount i (sender.debit amount) faults.saveSender
    saveAccount i (receiver.credit amount) faults.saveReceiver
    match ← saveTransaction i (call.transaction settledAt .SETTLED) faults.insert with
    | .error e => rollbackBlock faults e
    | .ok tx =>
      match ← execute .commit faults.commit with
      | .error e => rollbackBlock faults e
      | .ok () => pure (.committed tx)

end Connection

/-- The code that performs a call. `order` gives the traversal of the evictor's pass at a time. -/
def perform (order : ℤ → IterOrder) : (c : Call) → LockedCode ι c.Response
  | .action (.hold deviceId packet) => hold i deviceId packet
  | .action (.holds deviceId packetId) => holds i deviceId packetId
  | .action (.packetCount deviceId) => packetCount i deviceId
  | .action (.getHeldPackets deviceId order) => getHeldPackets i deviceId order
  | .action (.clearDevice deviceId) => clearDevice i deviceId
  | .action (.claim packetHash now) => claim i packetHash now
  | .action (.evictExpired now) => evictExpired i (order now) now
  | .action .clearSeen => clearSeen i
  | .action (.findById vpa fault) => findById i vpa fault
  | .action (.settleBlock sender receiver call settledAt faults) =>
      writeBlock i sender receiver call settledAt faults
  | .action (.saveTransaction tx fault) => saveTransaction i tx fault
  | .action (.resetDatabase faults) => reset i faults
  | .query .cacheSize => size i
  | .query (.findAll fault) => findAll i fault
  | .query (.findTop20ByOrderByIdDesc fault) => findTop20ByOrderByIdDesc i fault

/-- An endpoint on this level. -/
def code (order : ℤ → IterOrder) {α : Type} (p : Endpoint α) : LockedCode ι α := p.expand (perform i order)

/-- A step on the connection alone, on this level. -/
def lower (order : ℤ → IterOrder) :
    (a : ConnectionStep ι) → LockedCode ι (a.Response Statement.Response Action.Response)
  | .lock j => Program.call (Locking.lock j .connection)
  | .unlock j => Program.call (Locking.unlock j .connection)
  | .act stmt => statement stmt
  | .free a => perform i order (.action a)

end Locked

/-- A pool of threads on this level. -/
abbrev LockedThreads (ι α : Type) : Type := Locking.Threads ι Mutex Access.Response Mutex.Data α

/-- The components of the server. -/
def Server.parts (s : Server) : (k : Mutex) → k.Data
  | .device deviceId => s.held deviceId
  | .cache => s.seen
  | .connection => s.db

def Server.ofParts (d : (k : Mutex) → k.Data) : Server :=
  ⟨fun deviceId => d (.device deviceId), d .cache, d .connection⟩

@[simp] theorem Server.ofParts_parts (s : Server) : Server.ofParts s.parts = s := rfl

@[simp] theorem Server.parts_ofParts (d : (k : Mutex) → k.Data) : (Server.ofParts d).parts = d := by
  funext k
  cases k <;> rfl

section Start

variable {ι : Type} (crypto : CryptoService) (json : JsonLibrary) (b : Binary64)

/-- Each thread of the server with the requests it is to handle. -/
def ServerCall.initially (calls : ι → List ServerCall) (s : Server) :
    Pool ι Call Call.Response (List (ServerReply json)) Server :=
  ⟨s, fun i => ServerCall.programs crypto json b (calls i)⟩

/-- The same on the level of locks, with all mutexes free. -/
def Locked.initially (order : ι → ℤ → IterOrder) (calls : ι → List ServerCall) (s : Server) :
    LockedThreads ι (List (ServerReply json)) :=
  ⟨⟨fun _ => none, s.parts⟩,
    fun i => Locked.code i (order i) (ServerCall.programs crypto json b (calls i))⟩

end Start

end UpiMesh
