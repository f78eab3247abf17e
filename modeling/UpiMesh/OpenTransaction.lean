import UpiMesh.Receipts

/-!
# A transaction that is left open

When a `ROLLBACK` cannot be prepared, its transaction stays open on the one connection, and the code
never ends it: every later `BEGIN` fails, and that is the only way to a `ROLLBACK` or a `COMMIT`. Until
SQLite itself ends the transaction, which takes a step that fails, the server refuses every payment,
also after a reset.
-/

namespace UpiMesh

open Concurrent Locking

/-- The statement runs. -/
def StepSucceeds (fault : Option StatementFault) : Prop := ∀ errmsg, fault ≠ some (.step errmsg)

def AttemptFaults.statements (faults : AttemptFaults) : List (Option StatementFault) :=
  [faults.findSender, faults.findReceiver, faults.beginImmediate, faults.saveSender, faults.saveReceiver,
    faults.insert, faults.commit, faults.rollback]

def ResetFaults.statements (faults : ResetFaults) : List (Option StatementFault) :=
  [faults.deleteTransactions, faults.deleteAccounts, faults.insertSeed]

/-- Every statement of the request that can be prepared runs. -/
def ServerCall.StepsSucceed : ServerCall → Prop
  | .operation (.resetDatabase faults) => ∀ fault ∈ faults.statements, StepSucceeds fault
  | .operation (.meshReset _ faults) => ∀ fault ∈ faults.statements, StepSucceeds fault
  | .listAccounts fault => ∀ delivered, fault ≠ some (.step delivered)
  | .listTransactions fault => ∀ delivered, fault ≠ some (.step delivered)
  | call => ∀ env, call.SettlesIn env → ∀ n, ∀ fault ∈ (env.faults n).statements, StepSucceeds fault

/-- The database under the open transaction `t`, since it was `db₀`. -/
structure Wedged (db₀ : Database) (t : Tables) (db : Database) : Prop where
  open_ : db.savepoint = some t
  accounts : db.current.accounts = db₀.current.accounts ∨ db.current.accounts.rows = [] ∨
    db.current.accounts = Database.seedAccounts
  rows : ∀ row ∈ db.current.transactions.rows,
    row ∈ db₀.current.transactions.rows ∨ row.status = .REJECTED

theorem Wedged.step {db₀ db db' : Database} {t : Tables} (h : Wedged db₀ t db) {c : Call}
    {rows : List Transaction} (hc : c.RecordsRejections) (hstep : DbStep db c rows db') :
    Wedged db₀ t db' ∧ ∀ row ∈ rows, row.status = .REJECTED := by
  have hopen : db.savepoint ≠ none := by
    rw [h.open_]
    exact Option.some_ne_none t
  cases hstep with
  | unchanged => exact ⟨h, fun _ hrow => absurd hrow List.not_mem_nil⟩
  | reset hends =>
    refine ⟨⟨hends.savepoint.trans h.open_, ?_, fun row hrow => h.rows row (hends.mem_rows hrow)⟩,
      fun _ hrow => absurd hrow List.not_mem_nil⟩
    rcases hends.accounts with hsame | hother
    · exact hsame ▸ h.accounts
    · exact Or.inr hother
  | recorded hnew =>
    refine ⟨⟨h.open_, h.accounts, fun row hrow => ?_⟩, fun row hrow => ?_⟩
    · rcases List.mem_append.mp hrow with hold | hrow
      · exact h.rows row hold
      · rw [List.mem_singleton.mp hrow]
        exact Or.inr hc
    · rw [List.mem_singleton.mp hrow]
      exact hc
  | committed hsp hnew => exact absurd hsp hopen
  | leftOpen hsp _ _ _ => exact absurd hsp hopen

section Schedules

variable {ι : Type} [DecidableEq ι] (crypto : CryptoService) (json : JsonLibrary) (b : Binary64)
  (order : ι → ℤ → IterOrder) (calls : ι → List ServerCall) (s : Server)

theorem gathers_wedged {db₀ : Database} {t : Tables} :
    Pool.Gathers Call.exec Call.RecordsRejections Endpoint.receipts
      fun s (γ : ι → List Transaction) =>
        Wedged db₀ t s.db ∧ ∀ i, ∀ row ∈ γ i, row.status = .REJECTED where
  responds c s _ _ _ := call_reports c s
  keeps i c s γ hinv hc := by
    obtain ⟨hwedged, hnew⟩ := hinv.1.step hc (call_dbStep c s)
    refine ⟨hwedged, fun j row hrow => ?_⟩
    rcases mem_update_append.mp hrow with hold | ⟨-, hrow⟩
    · exact hinv.2 j row hold
    · exact hnew row hrow

/-- Once a transaction has been left open it stays open, whatever requests are handled and whatever
cannot be prepared; no payment is settled any more, and only a reset changes the accounts. -/
theorem open_transaction_wedges (hs : 0 ≤ s.sequence) (t : Tables) (hopen : s.db.savepoint = some t)
    (_hsteps : ∀ i, ∀ call ∈ calls i, call.StepsSucceed)
    (trace : List (ι × Locking ι Mutex Access)) (c : LockedThreads ι (List (ServerReply json)))
    (hrun : Pool.Run (exec guards) (Enabled guards)
      (Locked.initially crypto json b order calls s) trace c) :
    (c.shared.owner .connection = none → Wedged s.db t (c.shared.data .connection)) ∧
    ∀ i replies, c.threads i = .ret replies →
      ∀ r ∈ replies.flatMap ServerReply.receipts, r.outcome = "REJECTED" := by
  have hstart : Wedged s.db t s.db := ⟨hopen, Or.inl rfl, fun _ hrow => Or.inl hrow⟩
  obtain ⟨s', γ, -, ⟨hwedged, hrejected⟩, hnames, hdata⟩ := exists_told crypto json b order calls s hs
    (fun _ _ _ _ hc => hc.recordsRejections) gathers_wedged
    ⟨hstart, fun _ _ hrow => absurd hrow List.not_mem_nil⟩ hrun
  refine ⟨fun hfree => ?_, fun i replies hi r hr => ?_⟩
  · rw [hdata .connection hfree]
    exact hwedged
  · obtain ⟨row, hrow, hname⟩ := exists_row_of_named (hnames i replies hi) hr
    rw [hname.outcome, hrejected i row hrow]
    rfl

end Schedules

/-- The server after an upload whose insert and whose `ROLLBACK` cannot be prepared. -/
def wedgedServer : Server :=
  (Op.ingest ⟨"p1", 5, 0, "c1"⟩ "phone-bridge" 1
    { settledAt := fun _ => 0
      faults := fun _ =>
        { insert := some (.prepare "out of memory"), rollback := some (.prepare "out of memory") }
      claimNow := 0
      freshNow := 0 }).exec (.ofList [("c1", alicePaysBob), ("c2", bobPaysAlice)]) Server.initial

/-- A reset, and then another payment. -/
def resetAndPay : Bool → List ServerCall
  | true => [.operation (.resetDatabase {})]
  | false => [.operation (.ingestAt "p2" "c2" 0)]

def resetAndPayStart : LockedThreads Bool (List (ServerReply JsonValue.library)) :=
  Locked.initially (.ofList [("c1", alicePaysBob), ("c2", bobPaysAlice)]) JsonValue.library
    Binary64.nearest (fun _ _ => .sorted) resetAndPay wedgedServer

theorem resetAndPay_steps (i : Bool) (call : ServerCall) (hcall : call ∈ resetAndPay i) :
    call.StepsSucceed := by
  cases i with
  | true =>
    obtain rfl := List.mem_singleton.mp hcall
    intro fault hfault errmsg
    obtain rfl : fault = none := by simpa [ResetFaults.statements] using hfault
    exact nofun
  | false =>
    obtain rfl := List.mem_singleton.mp hcall
    intro env henv n fault hfault errmsg
    subst henv
    obtain rfl : fault = none := by simpa [AttemptFaults.statements] using hfault
    exact nofun

/-- The payment is answered, and the transaction is still open. -/
theorem open_transaction_wedges_reset :
    ∃ c : LockedThreads Bool (List (ServerReply JsonValue.library)), c.Finished ∧
      ∃ t, wedgedServer.db.savepoint = some t ∧ Wedged wedgedServer.db t (c.shared.data .connection) := by
  let schedule := List.replicate 5 true ++ List.replicate 25 false
  have hadmissible : Pool.Admissible (exec guards) (Enabled guards) schedule resetAndPayStart := by
    decide +kernel
  obtain ⟨trace, hrun⟩ := Pool.Run.of_schedule hadmissible
  obtain ⟨t, ht⟩ : ∃ t, wedgedServer.db.savepoint = some t := ⟨_, rfl⟩
  have hwedged := (open_transaction_wedges _ _ _ _ resetAndPay wedgedServer (by decide +kernel) t ht
    resetAndPay_steps trace _ hrun).1 rfl
  refine ⟨_, fun i => ?_, t, ht, hwedged⟩
  cases i with
  | true => exact ⟨_, rfl⟩
  | false => exact ⟨_, rfl⟩

end UpiMesh
