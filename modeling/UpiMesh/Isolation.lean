import UpiMesh.Connection
import UpiMesh.SettlementActions

/-!
# Readers see only committed states

A thread with an open transaction, or in the middle of a reset, owns the connection mutex, so that no
other thread can execute a statement. The bookkeeping is a protocol of the statements: a transaction
or a reset is begun only while nothing is under way, nothing is read meanwhile, and the mutex is
given back only when nothing is under way. That `Database::execute` takes no lock does no harm,
because each of its callers follows the protocol.
-/

namespace UpiMesh

open Concurrent Concurrent.Guarded

/-- What a thread has under way on the connection. -/
inductive Phase where
  | idle
  | transaction
  | deleting
  | reseeding
  deriving DecidableEq

namespace Phase

inductive Allows : Phase → Statement → Prop
  | selectAccount {vpa : String} {fault : Option StatementFault} :
      Allows .idle (.selectAccount vpa fault)
  | selectAccounts {fault : Option QueryFault} : Allows .idle (.selectAccounts fault)
  | selectByPacketHash {packetHash : String} {fault : Option StatementFault} :
      Allows .idle (.selectByPacketHash packetHash fault)
  | selectTop20 {fault : Option QueryFault} : Allows .idle (.selectTop20 fault)
  | insertAlone {tx : Transaction} {fault : Option StatementFault} :
      Allows .idle (.insertTransaction tx fault)
  | begin {fault : Option StatementFault} : Allows .idle (.control .beginImmediate fault)
  | upsertAccount {account : Account} {fault : Option StatementFault} :
      Allows .transaction (.upsertAccount account fault)
  | insertTransaction {tx : Transaction} {fault : Option StatementFault} :
      Allows .transaction (.insertTransaction tx fault)
  | commit {fault : Option StatementFault} : Allows .transaction (.control .commit fault)
  | rollback : Allows .transaction (.control .rollback none)
  | deleteTransactions : Allows .idle (.deleteTransactions none)
  | deleteAccounts : Allows .deleting (.deleteAccounts none)
  | insertSeed : Allows .reseeding (.insertSeed none)

/-- A rollback and the statements of a reset succeed. -/
def Expects : (stmt : Statement) → stmt.Response → Prop
  | .control .rollback _, r => r = .ok ()
  | .deleteTransactions _, r => r = .ok ()
  | .deleteAccounts _, r => r = .ok ()
  | .insertSeed _, r => r = .ok ()
  | _, _ => True

def after (p : Phase) : (stmt : Statement) → stmt.Response → Phase
  | .control .beginImmediate _, .ok _ => .transaction
  | .control .commit _, .ok _ => .idle
  | .control .rollback _, .ok _ => .idle
  | .deleteTransactions _, _ => .deleting
  | .deleteAccounts _, _ => .reseeding
  | .insertSeed _, _ => .idle
  | _, _ => p

def statements : Protocol Statement Statement.Response Phase := ⟨Allows, Expects, after⟩

/-- The database in each phase. -/
def Holds (p : Phase) (s : Server) : Prop :=
  match p with
  | .idle => s.db.savepoint = none
  | .transaction => s.db.savepoint ≠ none
  | .deleting => s.db.savepoint = none
  | .reseeding => s.db.savepoint = none ∧ s.db.current.accounts.rows = []

/-- A reset is under way. -/
def Resetting (p : Phase) : Prop := p = .deleting ∨ p = .reseeding

theorem Resetting.ne_idle {p : Phase} (h : p.Resetting) : p ≠ .idle := by
  rintro rfl
  rcases h with h | h <;> cases h

end Phase

namespace Connection

open Phase

/-- What the threads may do: no thread touches another store. -/
abbrev rules (ι : Type) :
    Protocol (ConnectionStep ι) (Guarded.Response Statement.Response Action.Response)
      (Holding ι Phase) := discipline statements .idle fun _ => False

variable {ι : Type}

/-- The thread is back where it holds no lock and nothing is under way. -/
abbrev Home {α : Type} (i : ι) (g : Holding ι Phase) (_ : α) : Prop := g = ⟨i, 0, .idle⟩

section Follows

variable {i : ι}

theorem statement_follows {stmt : Statement} {d : ℕ} {p : Phase} {Q : Phase → stmt.Response → Prop}
    (hallows : p.Allows stmt) (hQ : ∀ r, Expects stmt r → Q (p.after stmt r) r) :
    (statement stmt).Follows (rules ι) (At i (d + 1) Q) ⟨i, d + 1, p⟩ :=
  ⟨⟨Nat.succ_pos d, hallows⟩, fun r hr => ⟨_, rfl, hQ r hr⟩⟩

/-- A section of a thread that holds no lock before and after it. -/
theorem section_follows {α : Type} {p : Session ι α}
    (hp : p.Follows (rules ι) (At i 1 fun t _ => t = .idle) ⟨i, 1, .idle⟩) :
    (locked i p).Follows (rules ι) (Home i) ⟨i, 0, .idle⟩ := by
  apply (locked_follows hp fun _ t x ht => ht).mono
  rintro g x ⟨t, rfl, rfl⟩
  exact rfl

/-- A repository call that stands alone. -/
theorem call_follows {stmt : Statement} (hallows : Phase.idle.Allows stmt)
    (hidle : ∀ r, Phase.idle.after stmt r = .idle) :
    (locked i (statement stmt)).Follows (rules ι) (Home i) ⟨i, 0, .idle⟩ :=
  section_follows (statement_follows hallows fun r _ => hidle r)

theorem reset_follows : (reset i {}).Follows (rules ι) (Home i) ⟨i, 0, .idle⟩ := by
  apply section_follows
  refine ⟨⟨Nat.one_pos, .deleteTransactions⟩, fun r hr => ?_⟩
  obtain rfl : r = .ok () := hr
  refine ⟨⟨Nat.one_pos, .deleteAccounts⟩, fun r hr => ?_⟩
  obtain rfl : r = .ok () := hr
  exact ⟨⟨Nat.one_pos, .insertSeed⟩, fun _ _ => ⟨_, rfl, rfl⟩⟩

/-- The handler ends the transaction. -/
theorem rollbackBlock_follows {faults : AttemptFaults} {e : Exn} (hroll : faults.rollback = none) :
    (rollbackBlock faults e).Follows (rules ι) (At i 1 fun t _ => t = .idle) ⟨i, 1, .transaction⟩ := by
  unfold rollbackBlock execute
  rw [hroll]
  refine ⟨⟨Nat.one_pos, .rollback⟩, fun r hr => ?_⟩
  obtain rfl : r = .ok () := hr
  exact ⟨_, rfl, rfl⟩

theorem saveAccount_follows {account : Account} {fault : Option StatementFault} :
    (saveAccount i account fault).Follows (rules ι)
      (At i 1 fun t _ => t = .transaction) ⟨i, 1, .transaction⟩ := by
  apply locked_follows (statement_follows .upsertAccount fun _ _ => rfl)
  intro hd
  cases hd

theorem writeBlock_follows {sender receiver : Account} {call : SettleCall} {settledAt : ℤ}
    {faults : AttemptFaults} (hroll : faults.rollback = none) :
    (writeBlock i sender receiver call settledAt faults).Follows (rules ι) (Home i)
      ⟨i, 0, .idle⟩ := by
  apply section_follows
  refine ⟨⟨Nat.one_pos, .begin⟩, fun r _ => ?_⟩
  cases r with
  | error e => exact ⟨_, rfl, rfl⟩
  | ok u =>
    refine saveAccount_follows.bind fun g _ hg => ?_
    obtain ⟨t, rfl, rfl⟩ := hg
    refine saveAccount_follows.bind fun g _ hg => ?_
    obtain ⟨t, rfl, rfl⟩ := hg
    have hinsert : (saveTransaction i (call.transaction settledAt .SETTLED) faults.insert).Follows
        (rules ι) (At i 1 fun t _ => t = .transaction) ⟨i, 1, .transaction⟩ := by
      apply locked_follows (statement_follows .insertTransaction fun _ _ => rfl)
      intro hd
      cases hd
    refine hinsert.bind fun g r hg => ?_
    obtain ⟨t, rfl, rfl⟩ := hg
    cases r with
    | error e => exact rollbackBlock_follows hroll
    | ok tx =>
      refine ⟨⟨Nat.one_pos, .commit⟩, fun r _ => ?_⟩
      cases r with
      | error e => exact rollbackBlock_follows hroll
      | ok u => exact ⟨_, rfl, rfl⟩

end Follows

end Connection

/-- The action uses the connection, and neither a `ROLLBACK` nor a reset fails in it. -/
def Action.OnConnection : Action → Prop
  | .findById _ _ => True
  | .settleBlock _ _ _ _ faults => faults.rollback = none
  | .saveTransaction _ _ => True
  | .resetDatabase faults => faults = {}
  | _ => False

namespace Connection

variable {ι : Type} {i : ι}

theorem perform_follows {a : Action} (ha : a.OnConnection) :
    (perform i a).Follows (rules ι) (Home i) ⟨i, 0, .idle⟩ := by
  cases a with
  | findById vpa fault => exact call_follows .selectAccount fun _ => rfl
  | settleBlock sender receiver call settledAt faults => exact writeBlock_follows ha
  | saveTransaction tx fault => exact call_follows .insertAlone fun _ => rfl
  | resetDatabase faults =>
    obtain rfl : faults = {} := ha
    exact reset_follows
  | _ => exact ha.elim

theorem session_follows {α : Type} {p : Service α} (hp : p.Uses Action.OnConnection) :
    (session i p).Follows (rules ι) (Home i) ⟨i, 0, .idle⟩ :=
  Program.Follows.expand hp fun _ ha => perform_follows ha

end Connection

section Statements

variable {s : Server}

theorem savepoint_saveAccount (account : Account) (fault : Option StatementFault) (db : Database) :
    (AccountRepository.save account fault db).savepoint = db.savepoint := by
  cases fault <;> rfl

/-- What is under way is kept track of, and the statements that are to succeed do. -/
theorem Phase.Holds.statement {stmt : Statement} {p : Phase} (h : p.Holds s)
    (hallows : p.Allows stmt) :
    Phase.Expects stmt (stmt.onServer s).1 ∧
      (p.after stmt (stmt.onServer s).1).Holds (stmt.onServer s).2 := by
  obtain ⟨held, seen, current, savepoint⟩ := s
  cases hallows with
  | selectAccount => exact ⟨trivial, h⟩
  | selectAccounts => exact ⟨trivial, h⟩
  | selectByPacketHash => exact ⟨trivial, h⟩
  | selectTop20 => exact ⟨trivial, h⟩
  | insertAlone => exact ⟨trivial, (TransactionRepository.savepoint_save _ _ _).trans h⟩
  | @begin fault =>
    obtain rfl : savepoint = none := h
    cases fault with
    | none => exact ⟨trivial, Option.some_ne_none _⟩
    | some f => exact ⟨trivial, rfl⟩
  | upsertAccount =>
    refine ⟨trivial, fun hnone => h ?_⟩
    exact (savepoint_saveAccount _ _ _).symm.trans hnone
  | insertTransaction =>
    refine ⟨trivial, fun hnone => h ?_⟩
    exact (TransactionRepository.savepoint_save _ _ _).symm.trans hnone
  | @commit fault =>
    obtain ⟨t, rfl⟩ := Option.ne_none_iff_exists'.mp h
    cases fault with
    | none => exact ⟨trivial, rfl⟩
    | some f => exact ⟨trivial, Option.some_ne_none t⟩
  | rollback =>
    obtain ⟨t, rfl⟩ := Option.ne_none_iff_exists'.mp h
    exact ⟨rfl, rfl⟩
  | deleteTransactions => exact ⟨rfl, h⟩
  | deleteAccounts => exact ⟨rfl, h, rfl⟩
  | insertSeed =>
    obtain ⟨hsp, hrows⟩ := h
    have hnodup : ((current.accounts.rows ++ Database.seedAccounts.rows).map Account.vpa).Nodup := by
      rw [show current.accounts.rows = [] from hrows]
      exact Database.seedAccounts.nodup
    simp only [Statement.onServer, Statement.exec, Database.insertSeed, dif_pos hnodup]
    exact ⟨rfl, hsp⟩

end Statements

theorem preserved_connection {ι : Type} [DecidableEq ι] :
    Pool.Preserved Connection.exec Enabled (Connection.rules ι)
      (Exclusive (fun s p => p.Holds s) Phase.idle) :=
  preserved_exclusive (fun _ _ _ h hallows => h.statement hallows) fun _ _ _ h => h.elim

/-- An operation that uses the connection. The statements of a reset succeed. -/
inductive ConnectionOp where
  | settle (call : SettleCall) (env : SettleEnv)
  | recordRejected (call : SettleCall) (settledAt : ℤ) (fault : Option StatementFault)
  | reset
  | findById (vpa : String) (fault : Option StatementFault)
  | findAll (fault : Option QueryFault)
  | existsByPacketHash (packetHash : String) (fault : Option StatementFault)
  | findTop20ByOrderByIdDesc (fault : Option QueryFault)

inductive ConnectionReply where
  | transaction (r : Except Exn Transaction)
  | reset
  | account (r : Option Account)
  | accounts (rows : List Account)
  | stored (r : Except Exn Bool)
  | transactions (r : Except Exn (List Transaction))

namespace ConnectionOp

variable {ι : Type}

def session (i : ι) : ConnectionOp → Session ι ConnectionReply
  | .settle call env => do
    let r ← Connection.session i (SettlementService.settle call env)
    pure (.transaction r)
  | .recordRejected call settledAt fault => do
    let r ← Connection.session i (SettlementService.recordRejected call settledAt fault)
    pure (.transaction r)
  | .reset => do
    let _ ← Connection.reset i {}
    pure .reset
  | .findById vpa fault => do
    let r ← Connection.findById i vpa fault
    pure (.account r)
  | .findAll fault => do
    let rows ← Connection.findAll i fault
    pure (.accounts rows)
  | .existsByPacketHash packetHash fault => do
    let r ← Connection.existsByPacketHash i packetHash fault
    pure (.stored r)
  | .findTop20ByOrderByIdDesc fault => do
    let r ← Connection.findTop20ByOrderByIdDesc i fault
    pure (.transactions r)

/-- A thread performs one operation after another. -/
def sessions (i : ι) : List ConnectionOp → Session ι (List ConnectionReply)
  | [] => pure []
  | op :: ops => do
    let reply ← op.session i
    let replies ← sessions i ops
    pure (reply :: replies)

def RollbackSucceeds : ConnectionOp → Prop
  | .settle _ env => ∀ n, (env.faults n).rollback = none
  | _ => True

theorem uses_settle {call : SettleCall} {env : SettleEnv}
    (hroll : ∀ n, (env.faults n).rollback = none) :
    (SettlementService.settle call env).Uses Action.OnConnection := by
  apply SettlementService.settle_uses
  intro a ha
  cases ha with
  | findById => exact trivial
  | settleBlock _ _ _ _ => exact hroll _
  | saveTransaction => exact trivial

open Connection in
theorem session_follows {i : ι} {op : ConnectionOp} (hroll : op.RollbackSucceeds) :
    (op.session i).Follows (rules ι) (Home i) ⟨i, 0, .idle⟩ := by
  cases op with
  | settle call env =>
    exact (Connection.session_follows (uses_settle hroll)).bind fun _ _ hg => hg
  | recordRejected call settledAt fault =>
    have huses : (SettlementService.recordRejected call settledAt fault).Uses
        Action.OnConnection := ⟨trivial, fun _ => trivial⟩
    exact (Connection.session_follows huses).bind fun _ _ hg => hg
  | reset => exact reset_follows.bind fun _ _ hg => hg
  | findById vpa fault => exact (call_follows .selectAccount fun _ => rfl).bind fun _ _ hg => hg
  | findAll fault => exact (call_follows .selectAccounts fun _ => rfl).bind fun _ _ hg => hg
  | existsByPacketHash packetHash fault =>
    exact (call_follows .selectByPacketHash fun _ => rfl).bind fun _ _ hg => hg
  | findTop20ByOrderByIdDesc fault =>
    exact (call_follows .selectTop20 fun _ => rfl).bind fun _ _ hg => hg

open Connection in
theorem sessions_follow {i : ι} {ops : List ConnectionOp}
    (hroll : ∀ op ∈ ops, op.RollbackSucceeds) :
    (sessions i ops).Follows (rules ι) (Home i) ⟨i, 0, .idle⟩ := by
  induction ops with
  | nil => exact rfl
  | cons op ops ih =>
    obtain ⟨hop, hops⟩ := List.forall_mem_cons.mp hroll
    refine (session_follows hop).bind fun g reply hg => ?_
    subst hg
    exact (ih hops).bind fun _ _ hg => hg

end ConnectionOp

namespace Connection

section Trace

variable {ι : Type}

def Begins (a : ConnectionStep ι) : Prop := a = .act (.control .beginImmediate none)

def Ends (a : ConnectionStep ι) : Prop :=
  a = .act (.control .commit none) ∨ a = .act (.control .rollback none)

def StartsReset (a : ConnectionStep ι) : Prop := a = .act (.deleteTransactions none)

def EndsReset (a : ConnectionStep ι) : Prop := a = .act (.insertSeed none)

def Reads : ConnectionStep ι → Prop
  | .act (.selectAccount _ _) => True
  | .act (.selectAccounts _) => True
  | .act (.selectByPacketHash _ _) => True
  | .act (.selectTop20 _) => True
  | _ => False

/-- The state of all threads and of the shared connection. -/
abbrev Threads (ι α : Type) :=
  Pool ι (ConnectionStep ι) (Guarded.Response Statement.Response Action.Response) α
    (Monitor ι Server)

/-- Every thread at its first operation, and the mutex free. -/
def initially (ops : ι → List ConnectionOp) (s : Server) : Threads ι (List ConnectionReply) :=
  ⟨⟨none, s⟩, fun i => ConnectionOp.sessions i (ops i)⟩

abbrev Threads.db {α : Type} (c : Threads ι α) : Database := c.shared.data.db

/-- After this trace no transaction and no reset is under way. -/
structure AtBoundary {α : Type} (trace : List (ι × ConnectionStep ι)) (c : Threads ι α) : Prop where
  closed : c.db.savepoint = none
  begun : ∀ i, ¬ Pool.Since Begins Ends trace i
  resetting : ∀ i, ¬ Pool.Since StartsReset EndsReset trace i

end Trace

section Statement

variable {ι : Type} {stmt : Statement} {s : Server}

theorem begin_onServer (h : s.db.savepoint = none) :
    (Statement.control .beginImmediate none).onServer s =
      (.ok (), { s with db.savepoint := some s.db.current }) := by
  obtain ⟨held, seen, current, savepoint⟩ := s
  obtain rfl : savepoint = none := h
  rfl

/-- Only its own end takes a transaction away. -/
theorem after_transaction (h : Phase.transaction.Allows stmt)
    (hnot : ¬ Ends (.act stmt : ConnectionStep ι)) :
    Phase.transaction.after stmt (stmt.onServer s).1 = .transaction ∧
      (stmt.onServer s).2.db.savepoint = s.db.savepoint := by
  cases h with
  | upsertAccount => exact ⟨rfl, savepoint_saveAccount _ _ _⟩
  | insertTransaction => exact ⟨rfl, TransactionRepository.savepoint_save _ _ _⟩
  | @commit fault =>
    cases fault with
    | none => exact absurd (Or.inl rfl) hnot
    | some f => exact ⟨rfl, rfl⟩
  | rollback => exact absurd (Or.inr rfl) hnot

/-- A transaction starts with its `BEGIN`. -/
theorem begins_of_after {p : Phase} (h : p.Allows stmt) (hp : p ≠ .transaction)
    (hafter : p.after stmt (stmt.onServer s).1 = .transaction) :
    p = .idle ∧ Begins (.act stmt : ConnectionStep ι) := by
  cases h with
  | @begin fault =>
    cases fault with
    | none => exact ⟨rfl, rfl⟩
    | some f => cases hafter
  | upsertAccount => exact absurd rfl hp
  | insertTransaction => exact absurd rfl hp
  | commit => exact absurd rfl hp
  | rollback => exact absurd rfl hp
  | _ => cases hafter

theorem after_resetting {p : Phase} (h : p.Allows stmt) (hp : Phase.Resetting p)
    (hnot : ¬ EndsReset (.act stmt : ConnectionStep ι)) :
    Phase.Resetting (p.after stmt (stmt.onServer s).1) := by
  cases h with
  | deleteAccounts => exact Or.inr rfl
  | insertSeed => exact absurd rfl hnot
  | _ => rcases hp with hp | hp <;> cases hp

theorem after_ends (hs : Phase.transaction.Holds s) (h : Ends (.act stmt : ConnectionStep ι)) :
    Phase.transaction.after stmt (stmt.onServer s).1 = .idle := by
  obtain ⟨held, seen, current, savepoint⟩ := s
  obtain ⟨t, rfl⟩ := Option.ne_none_iff_exists'.mp hs
  rcases h with h | h
  · obtain rfl := Guarded.act.inj h
    rfl
  · obtain rfl := Guarded.act.inj h
    rfl

end Statement

section Step

variable {ι : Type} {g : Holding ι Phase} {a : ConnectionStep ι} {s : Monitor ι Server}

/-- What a thread does in a transaction, short of its end, leaves it in the transaction. -/
theorem in_transaction (hg : g.phase = .transaction) (hallows : (rules ι).allows g a)
    (hnot : ¬ Ends a) : ((rules ι).after g a (exec a s).1).phase = .transaction ∧
      (exec a s).2.data.db.savepoint = s.data.db.savepoint := by
  cases a with
  | lock i => exact ⟨hg, rfl⟩
  | unlock i => exact ⟨hg, rfl⟩
  | act stmt =>
    have hstmt : Phase.transaction.Allows stmt := hg ▸ hallows.2
    have hafter := after_transaction (s := s.data) hstmt hnot
    rw [← hg] at hafter
    exact ⟨hafter.1.trans hg, hafter.2⟩
  | free u => exact hallows.elim

theorem not_ends (hg : g.phase = .transaction) (hs : Phase.transaction.Holds s.data)
    (hafter : ((rules ι).after g a (exec a s).1).phase = .transaction) : ¬ Ends a := by
  intro hends
  cases a with
  | act stmt =>
    have hidle := after_ends hs hends
    rw [← hg] at hidle
    rw [show g.phase.after stmt (stmt.onServer s.data).1 = .transaction from hafter] at hidle
    cases hidle
  | _ => rcases hends with h | h <;> cases h

theorem begins (hg : g.phase ≠ .transaction) (hallows : (rules ι).allows g a)
    (hafter : ((rules ι).after g a (exec a s).1).phase = .transaction) :
    0 < g.depth ∧ g.phase = .idle ∧ Begins a := by
  cases a with
  | act stmt => exact ⟨hallows.1, begins_of_after hallows.2 hg hafter⟩
  | _ => exact absurd hafter hg

/-- Nothing is read in a transaction or a reset. -/
theorem reads_idle (hreads : Reads a) (hallows : (rules ι).allows g a) :
    0 < g.depth ∧ g.phase = .idle := by
  cases a with
  | act stmt =>
    obtain ⟨hpos, hstmt⟩ := hallows
    refine ⟨hpos, ?_⟩
    generalize g.phase = p at hstmt
    cases hstmt with
    | selectAccount => rfl
    | selectAccounts => rfl
    | selectByPacketHash => rfl
    | selectTop20 => rfl
    | _ => exact hreads.elim
  | _ => exact hreads.elim

theorem resetting_step (hg : Phase.Resetting g.phase) (hallows : (rules ι).allows g a)
    (hnot : ¬ EndsReset a) : Phase.Resetting ((rules ι).after g a (exec a s).1).phase := by
  cases a with
  | act stmt => exact after_resetting hallows.2 hg hnot
  | _ => exact hg

end Step

section Run

variable {ι α : Type} [DecidableEq ι] {start c c' : Threads ι α}
  {trace : List (ι × ConnectionStep ι)} {γ : ι → Holding ι Phase}

/-- The phases of the threads agree with what they have done. -/
structure Bracketed (start : Threads ι α) (trace : List (ι × ConnectionStep ι)) (c : Threads ι α)
    (γ : ι → Holding ι Phase) : Prop where
  exclusive : Exclusive (fun s p => Phase.Holds p s) .idle c.shared γ
  follow : Pool.Follow (rules ι) (fun _ _ => True) c γ
  begun : ∀ i, Pool.Since Begins Ends trace i → (γ i).phase = .transaction
  resetting : ∀ i, Pool.Since StartsReset EndsReset trace i → Phase.Resetting (γ i).phase
  opened : ∀ i, (γ i).phase = .transaction →
    ∃ (before rest : List (ι × ConnectionStep ι)) (c₀ : Threads ι α),
      trace = before ++ (i, .act (.control .beginImmediate none)) :: rest ∧
      (∀ x ∈ rest, x.1 = i) ∧ Pool.Run exec Enabled start before c₀ ∧ AtBoundary before c₀ ∧
      c.db.savepoint = some c₀.db.current

/-- A thread with something under way is the only one to act. -/
theorem Bracketed.alone (h : Bracketed start trace c γ) {i j : ι} {a : ConnectionStep ι}
    (hi : (γ i).phase ≠ .idle) (hallows : (rules ι).allows (γ j) a) (hok : Enabled j a c.shared) :
    j = i := by
  refine h.exclusive.alone hi hallows hok ?_
  rintro u rfl
  exact hallows

/-- When a thread that has nothing under way executes a statement, nobody has. -/
theorem Bracketed.atBoundary (h : Bracketed start trace c γ) {j : ι} (hpos : 0 < (γ j).depth)
    (hidle : (γ j).phase = .idle) : AtBoundary trace c := by
  obtain ⟨n, howner, -⟩ := h.exclusive.owner hpos
  have hholds := (h.exclusive.held j n howner).2
  rw [hidle] at hholds
  have hsame : ∀ i, (γ i).phase = .idle := by
    intro i
    by_contra hi
    obtain rfl := h.exclusive.unique hpos (h.exclusive.depth_pos hi)
    exact hi hidle
  refine ⟨hholds, fun i hi => ?_, fun i hi => ?_⟩
  · have hphase := h.begun i hi
    rw [hsame i] at hphase
    cases hphase
  · have hphase := h.resetting i hi
    rw [hsame i] at hphase
    rcases hphase with hphase | hphase <;> cases hphase

/-- The transaction of thread `i` was begun at a boundary, on the tables that `ROLLBACK` would return
to, and only that thread has acted since. -/
def Opened (start : Threads ι α) (trace : List (ι × ConnectionStep ι)) (c : Threads ι α) (i : ι) :
    Prop :=
  ∃ (before rest : List (ι × ConnectionStep ι)) (c₀ : Threads ι α),
    trace = before ++ (i, .act (.control .beginImmediate none)) :: rest ∧
    (∀ x ∈ rest, x.1 = i) ∧ Pool.Run exec Enabled start before c₀ ∧ AtBoundary before c₀ ∧
    c.db.savepoint = some c₀.db.current

/-- A transaction that goes on keeps the tables that `ROLLBACK` would return to. -/
theorem Bracketed.opened_of_transaction (h : Bracketed start trace c γ) {j : ι}
    {a : ConnectionStep ι} (hphase : (γ j).phase = .transaction) (hallows : (rules ι).allows (γ j) a)
    (hshared : c'.shared = (exec a c.shared).2)
    (hafter : ((rules ι).after (γ j) a (exec a c.shared).1).phase = .transaction) :
    Opened start (trace ++ [(j, a)]) c' j := by
  have hpos : 0 < (γ j).depth := h.exclusive.depth_pos (by simp [hphase])
  obtain ⟨n, howner, -⟩ := h.exclusive.owner hpos
  have hholds := (h.exclusive.held j n howner).2
  rw [hphase] at hholds
  have hsavepoint : (exec a c.shared).2.data.db.savepoint = c.shared.data.db.savepoint :=
    (in_transaction hphase hallows (not_ends hphase hholds hafter)).2
  obtain ⟨before, rest, c₀, rfl, hrest, hbefore, hboundary, hopen⟩ := h.opened j hphase
  refine ⟨before, rest ++ [(j, a)], c₀, by simp, ?_, hbefore, hboundary, ?_⟩
  · exact List.forall_mem_append.mpr ⟨hrest, fun x hx => by rw [List.mem_singleton.mp hx]⟩
  · rw [Threads.db, hshared, hsavepoint]
    exact hopen

/-- A `BEGIN` keeps the tables it finds. -/
theorem Bracketed.opened_of_begin (h : Bracketed start trace c γ)
    (hrun : Pool.Run exec Enabled start trace c) {j : ι} {a : ConnectionStep ι}
    (hphase : (γ j).phase ≠ .transaction) (hallows : (rules ι).allows (γ j) a)
    (hshared : c'.shared = (exec a c.shared).2)
    (hafter : ((rules ι).after (γ j) a (exec a c.shared).1).phase = .transaction) :
    Opened start (trace ++ [(j, a)]) c' j := by
  obtain ⟨hpos, hidle, rfl⟩ := begins hphase hallows hafter
  have hboundary := h.atBoundary hpos hidle
  refine ⟨trace, [], c, rfl, fun x hx => absurd hx List.not_mem_nil, hrun, hboundary, ?_⟩
  have hexec := congrArg Prod.snd (begin_onServer hboundary.closed)
  rw [Threads.db, hshared]
  exact congrArg (fun s : Server => s.db.savepoint) hexec

theorem Bracketed.step (h : Bracketed start trace c γ) (hrun : Pool.Run exec Enabled start trace c)
    {j : ι} {a : ConnectionStep ι} (hstep : Pool.Step exec c j a c') (hok : Enabled j a c.shared) :
    ∃ γ', Bracketed start (trace ++ [(j, a)]) c' γ' := by
  obtain ⟨hallows, -, hshared, hexclusive, hfollow⟩ :=
    hstep.follow hok preserved_connection h.exclusive h.follow
  refine ⟨_, hexclusive, hfollow, fun i hi => ?_, fun i hi => ?_, fun i hi => ?_⟩
  · rcases Pool.since_snoc.mp hi with ⟨rfl, rfl⟩ | ⟨hsince, hnot⟩
    · -- a `BEGIN` is only executed while nothing is under way, so it succeeds
      obtain ⟨hpos, hstmt⟩ := hallows
      have hidle : (γ j).phase = .idle := by
        generalize (γ j).phase = p at hstmt
        cases hstmt
        rfl
      have hresponse : (exec (.act (.control .beginImmediate none)) c.shared).1 = .ok () :=
        congrArg Prod.fst (begin_onServer (h.atBoundary hpos hidle).closed)
      rw [Function.update_self, hresponse]
      rfl
    · have hphase := h.begun i hsince
      obtain rfl : j = i := h.alone (by simp [hphase]) hallows hok
      rw [Function.update_self]
      exact (in_transaction hphase hallows (hnot rfl)).1
  · rcases Pool.since_snoc.mp hi with ⟨rfl, rfl⟩ | ⟨hsince, hnot⟩
    · rw [Function.update_self]
      exact Or.inl rfl
    · have hphase := h.resetting i hsince
      obtain rfl : j = i := h.alone hphase.ne_idle hallows hok
      rw [Function.update_self]
      exact resetting_step hphase hallows (hnot rfl)
  · by_cases hij : i = j
    · subst hij
      rw [Function.update_self] at hi
      by_cases hphase : (γ i).phase = .transaction
      · exact h.opened_of_transaction hphase hallows hshared hi
      · exact h.opened_of_begin hrun hphase hallows hshared hi
    · rw [Function.update_of_ne hij] at hi
      exact absurd (h.alone (by simp [hi]) hallows hok).symm hij

/-- Before anything has happened. -/
theorem Bracketed.initial {ops : ι → List ConnectionOp}
    (hroll : ∀ i, ∀ op ∈ ops i, op.RollbackSucceeds) {s₀ : Server} (hs₀ : s₀.db.savepoint = none) :
    Bracketed (initially ops s₀) [] (initially ops s₀) fun i => ⟨i, 0, .idle⟩ := by
  refine ⟨⟨fun _ => rfl, fun i n hi => ?_, fun _ _ => ⟨rfl, rfl⟩, fun _ => hs₀⟩, fun i => ?_,
    fun i hi => absurd hi Pool.not_since_nil, fun i hi => absurd hi Pool.not_since_nil,
    fun i hi => ?_⟩
  · cases hi
  · exact (ConnectionOp.sessions_follow (hroll i)).mono fun _ _ _ => trivial
  · cases hi

end Run

/-- Whatever the threads run, a thread with a transaction or a reset under way is the only one to
execute a statement. So a read sees the state at the end of a transaction or a reset, and a `COMMIT`
commits what its own thread has written since its own `BEGIN`, and nothing else. -/
theorem reads_committed {ι : Type} [DecidableEq ι] (ops : ι → List ConnectionOp)
    (hroll : ∀ i, ∀ op ∈ ops i, op.RollbackSucceeds) (s₀ : Server) (hs₀ : s₀.db.savepoint = none)
    (trace : List (ι × ConnectionStep ι)) (c c' : Threads ι (List ConnectionReply))
    (hrun : Pool.Run exec Enabled (initially ops s₀) trace c)
    (j : ι) (a : ConnectionStep ι) (hstep : Pool.Step exec c j a c') (hok : Enabled j a c.shared) :
    (∀ i, Pool.Since Begins Ends trace i → j = i) ∧
    (∀ i, Pool.Since StartsReset EndsReset trace i → j = i) ∧
    (Reads a → AtBoundary trace c) ∧
    (a = .act (.control .commit none) →
      ∃ (before rest : List (ι × ConnectionStep ι)) (c₀ : Threads ι (List ConnectionReply)),
        trace = before ++ (j, .act (.control .beginImmediate none)) :: rest ∧
        (∀ x ∈ rest, x.1 = j) ∧ Pool.Run exec Enabled (initially ops s₀) before c₀ ∧
        AtBoundary before c₀ ∧ c.db.savepoint = some c₀.db.current) := by
  obtain ⟨γ, h⟩ : ∃ γ, Bracketed (initially ops s₀) trace c γ := by
    apply hrun.history (H := fun past c => ∃ γ, Bracketed (initially ops s₀) past c γ)
    · exact ⟨_, Bracketed.initial hroll hs₀⟩
    · rintro past c₁ i b c₂ hpast ⟨γ, h⟩ hnext henabled
      exact h.step hpast hnext henabled
  obtain ⟨hallows, -⟩ := hstep.follow hok preserved_connection h.exclusive h.follow
  refine ⟨fun i hi => ?_, fun i hi => ?_, fun hreads => ?_, ?_⟩
  · exact h.alone (by simp [h.begun i hi]) hallows hok
  · exact h.alone (h.resetting i hi).ne_idle hallows hok
  · obtain ⟨hpos, hidle⟩ := reads_idle hreads hallows
    exact h.atBoundary hpos hidle
  · rintro rfl
    apply h.opened
    have hstmt := hallows.2
    generalize (γ j).phase = p at hstmt
    cases hstmt
    rfl

/-- A payment of Alice to Bob, and two reads of all accounts. -/
def payAndRead : Bool → List ConnectionOp
  | true => [.settle ⟨alicePaysBob, "h1", "phone-bridge", 1⟩ { settledAt := fun _ => 0 }]
  | false => [.findAll none, .findAll none]

/-- The first read is between those of the payment, which is alone on the connection before its `COMMIT`.
The second read comes after it. -/
theorem reads_committed_pay_and_read :
    (∃ (trace : List (Bool × ConnectionStep Bool)) (c c' : Threads Bool (List ConnectionReply)),
      Pool.Run exec Enabled (initially payAndRead Server.initial) trace c ∧
      Pool.Step exec c true (.act (.control .commit none)) c' ∧
      (∀ i, Pool.Since Begins Ends trace i → true = i) ∧
      ∃ (before rest : List (Bool × ConnectionStep Bool)) (c₀ : Threads Bool (List ConnectionReply)),
        trace = before ++ (true, .act (.control .beginImmediate none)) :: rest ∧
        (∀ x ∈ rest, x.1 = true) ∧
        Pool.Run exec Enabled (initially payAndRead Server.initial) before c₀ ∧
        AtBoundary before c₀ ∧ c.db.savepoint = some c₀.db.current) ∧
    ∃ (trace : List (Bool × ConnectionStep Bool)) (c c' : Threads Bool (List ConnectionReply)),
      Pool.Run exec Enabled (initially payAndRead Server.initial) trace c ∧
      Pool.Step exec c false (.act (.selectAccounts none)) c' ∧ AtBoundary trace c ∧
      c.db.current.accounts.rows.map Account.balance = [499000, 101000, 250000, 50000] := by
  have hroll : ∀ i, ∀ op ∈ payAndRead i, op.RollbackSucceeds
    | true => by
      intro op hop
      obtain rfl := List.mem_singleton.mp hop
      exact fun _ => rfl
    | false => by
      intro op hop
      obtain rfl : op = .findAll none := by simpa [payAndRead] using hop
      exact trivial
  let schedule := List.replicate 3 true ++ List.replicate 3 false ++ List.replicate 14 true
  constructor
  · have hadmissible : Pool.Admissible exec Enabled schedule
        (initially payAndRead Server.initial) := by decide +kernel
    obtain ⟨trace, hrun⟩ := Pool.Run.of_schedule hadmissible
    obtain ⟨next, hnext⟩ : ∃ next, (schedule.foldl (Pool.advance exec)
        (initially payAndRead Server.initial)).threads true =
          .act (.act (.control .commit none)) next := ⟨_, rfl⟩
    obtain ⟨halone, -, -, hcommit⟩ := reads_committed payAndRead hroll Server.initial rfl trace _ _
      hrun true _ (.act hnext) trivial
    exact ⟨trace, _, _, hrun, .act hnext, halone, hcommit rfl⟩
  · let later := schedule ++ [true, true, false]
    have hadmissible : Pool.Admissible exec Enabled later
        (initially payAndRead Server.initial) := by decide +kernel
    obtain ⟨trace, hrun⟩ := Pool.Run.of_schedule hadmissible
    obtain ⟨next, hnext⟩ : ∃ next, (later.foldl (Pool.advance exec)
        (initially payAndRead Server.initial)).threads false =
          .act (.act (.selectAccounts none)) next := ⟨_, rfl⟩
    have hpaid : (later.foldl (Pool.advance exec) (initially payAndRead
        Server.initial)).shared.data.db.current.accounts.rows.map Account.balance =
          [499000, 101000, 250000, 50000] := by decide +kernel
    obtain ⟨-, -, hcommitted, -⟩ := reads_committed payAndRead hroll Server.initial rfl trace _ _
      hrun false _ (.act hnext) trivial
    exact ⟨trace, _, _, hrun, .act hnext, hcommitted trivial, hpaid⟩

end Connection

end UpiMesh
