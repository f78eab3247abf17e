import UpiMesh.Endpoints

/-!
# What a call does to the database

A call leaves the database alone, resets it, or inserts one row; and it may leave a transaction open,
when a `ROLLBACK` fails. `DbStep` also says of which row the call reports that it is stored.
-/

namespace UpiMesh

/-- The texts as they are bound. -/
def Transaction.bound (tx : Transaction) : Transaction :=
  { tx with
    packetHash := cstr tx.packetHash
    senderVpa := cstr tx.senderVpa
    receiverVpa := cstr tx.receiverVpa
    bridgeNodeId := cstr tx.bridgeNodeId }

theorem mem_keys_savedAccounts {sender receiver : Account} {amount : ℤ} {faults : AttemptFaults}
    {accounts : AccountTable} {vpa : String} (h : vpa ∈ accounts.keys) :
    vpa ∈ (savedAccounts sender receiver amount faults accounts).keys := by
  have hdebit : vpa ∈ (if faults.saveSender = none then accounts.upsert (sender.debit amount)
      else accounts).keys := by
    split_ifs
    · exact Table.mem_keys_upsert h
    · exact h
  unfold savedAccounts
  by_cases hsave : faults.saveReceiver = none
  · simp only [if_pos hsave]
    exact Table.mem_keys_upsert hdebit
  · simp only [if_neg hsave]
    exact hdebit

/-- The rows of which an action reports that they are stored. -/
def Action.stored : (a : Action) → a.Response → List Transaction
  | .settleBlock .., r => match r with
    | .committed tx => [tx.bound]
    | _ => []
  | .saveTransaction .., r => match r with
    | .ok tx => [tx.bound]
    | .error _ => []
  | _, _ => []

/-- A row is reported with the hash it was given. -/
def Action.Reports : (a : Action) → a.Response → Prop
  | .settleBlock _ _ call _ _, r => ∀ tx, r = .committed tx → tx.packetHash = call.packetHash
  | .saveTransaction tx _, r => ∀ tx', r = .ok tx' → tx'.packetHash = tx.packetHash
  | _, _ => True

def Call.stored : (c : Call) → c.Response → List Transaction
  | .action a, r => a.stored r
  | .query _, _ => []

def Call.Reports : (c : Call) → c.Response → Prop
  | .action a, r => a.Reports r
  | .query _, _ => True

/-- The action concerns a device or the cache. -/
def Action.OffDatabase : Action → Prop
  | .findById .. => False
  | .settleBlock .. => False
  | .saveTransaction .. => False
  | .resetDatabase _ => False
  | _ => True

/-- The `ROLLBACK` of the call, if it makes one, succeeds. -/
def Call.RollsBack : Call → Prop
  | .action (.settleBlock _ _ _ _ faults) => faults.rollback = none
  | _ => True

/-- A call of `Database::reset`. -/
def Call.IsReset : Call → Prop
  | .action (.resetDatabase _) => True
  | _ => False

/-- What the call inserts outside a write block is a rejection. -/
def Call.RecordsRejections : Call → Prop
  | .action (.saveTransaction tx _) => tx.status = .REJECTED
  | _ => True

theorem Action.OffDatabase.rollsBack {a : Action} (h : a.OffDatabase) : (Call.action a).RollsBack := by
  cases a with
  | settleBlock sender receiver call settledAt faults => exact h.elim
  | _ => exact trivial

theorem Action.OffDatabase.recordsRejections {a : Action} (h : a.OffDatabase) :
    (Call.action a).RecordsRejections := by
  cases a with
  | saveTransaction tx fault => exact h.elim
  | _ => exact trivial

theorem TransactionRepository.save_cases (tx : Transaction) (fault : Option StatementFault)
    (db : Database) :
    (∃ e, save tx fault db = (.error e, db)) ∨
      ∃ hnew, save tx fault db = (.ok { tx with id := db.current.transactions.sequence + 1 },
        { db with current.transactions := db.current.transactions.insert tx hnew }) := by
  cases fault with
  | some f => exact Or.inl ⟨_, rfl⟩
  | none =>
    by_cases h : cstr tx.packetHash ∈ db.current.transactions.rows.map Transaction.packetHash
    · exact Or.inl ⟨_, dif_pos h⟩
    · exact Or.inr ⟨h, dif_neg h⟩

/-- The row that a call inserts, if it inserts one. -/
def Call.inserts : Call → Option Transaction
  | .action (.settleBlock _ _ call settledAt _) => some (call.transaction settledAt .SETTLED)
  | .action (.saveTransaction tx _) => some tx
  | _ => none

/-- The database after a call, with the rows that the call reports. -/
inductive DbStep (db : Database) : Call → List Transaction → Database → Prop
  | unchanged {c : Call} : DbStep db c [] db
  | reset {faults : ResetFaults} {r : Except Exn Unit} {db' : Database}
      (hends : Database.ResetEnds db r db') : DbStep db (.action (.resetDatabase faults)) [] db'
  | recorded {tx : Transaction} {fault : Option StatementFault}
      (hnew : cstr tx.packetHash ∉ db.current.transactions.rows.map Transaction.packetHash) :
      DbStep db (.action (.saveTransaction tx fault)) [db.current.transactions.stored tx]
        { db with current.transactions := db.current.transactions.insert tx hnew }
  | committed {sender receiver : Account} {call : SettleCall} {settledAt : ℤ} {faults : AttemptFaults}
      (hsp : db.savepoint = none) (hnew : cstr (call.transaction settledAt .SETTLED).packetHash ∉
        db.current.transactions.rows.map Transaction.packetHash) :
      DbStep db (.action (.settleBlock sender receiver call settledAt faults))
        [db.current.transactions.stored (call.transaction settledAt .SETTLED)]
        ⟨⟨savedAccounts sender receiver call.instruction.amount faults db.current.accounts,
          db.current.transactions.insert (call.transaction settledAt .SETTLED) hnew⟩, none⟩
  | leftOpen {sender receiver : Account} {call : SettleCall} {settledAt : ℤ} {faults : AttemptFaults}
      {t : Tables} (hsp : db.savepoint = none) (hroll : faults.rollback ≠ none)
      (haccounts : t.accounts =
        savedAccounts sender receiver call.instruction.amount faults db.current.accounts)
      (ht : t.transactions = db.current.transactions ∨ ∃ hnew, t.transactions =
        db.current.transactions.insert (call.transaction settledAt .SETTLED) hnew) :
      DbStep db (.action (.settleBlock sender receiver call settledAt faults)) [] ⟨t, some db.current⟩

theorem settleBlock_dbStep (sender receiver : Account) (call : SettleCall) (settledAt : ℤ)
    (faults : AttemptFaults) (s : Server) :
    DbStep s.db (.action (.settleBlock sender receiver call settledAt faults))
      ((Action.settleBlock sender receiver call settledAt faults).stored
        ((Action.settleBlock sender receiver call settledAt faults).exec s).1)
      ((Action.settleBlock sender receiver call settledAt faults).exec s).2.db := by
  have hends := settleBlock_ends sender receiver call settledAt faults s.db
  simp only [Action.exec, Action.stored]
  generalize settleBlock sender receiver call settledAt faults s.db = out at hends ⊢
  obtain ⟨r, db⟩ := out
  cases hends with
  | unbegun _ => exact .unchanged
  | committed hsp _ _ _ hnew => exact .committed hsp hnew
  | rolledBack _ _ _ _ _ => exact .unchanged
  | leftOpen hsp _ hroll _ haccounts ht =>
    refine .leftOpen hsp hroll haccounts ?_
    rcases ht with ⟨ht, -⟩ | ⟨hnew, -, -, ht⟩
    · exact Or.inl ht
    · exact Or.inr ⟨hnew, ht⟩

/-- Every call takes a step on the database. -/
theorem call_dbStep (c : Call) (s : Server) :
    DbStep s.db c (c.stored (c.exec s).1) (c.exec s).2.db := by
  cases c with
  | query q => exact .unchanged
  | action a =>
    cases a with
    | settleBlock sender receiver call settledAt faults =>
      exact settleBlock_dbStep sender receiver call settledAt faults s
    | saveTransaction tx fault =>
      simp only [Call.exec, Call.stored, Action.exec, Action.stored]
      rcases TransactionRepository.save_cases tx fault s.db with ⟨e, hsave⟩ | ⟨hnew, hsave⟩
      · rw [hsave]
        exact .unchanged
      · rw [hsave]
        exact .recorded hnew
    | resetDatabase faults => exact .reset (Database.reset_ends faults s.db)
    | _ => exact .unchanged

/-- A reported row has the hash that the caller gave. -/
theorem call_reports (c : Call) (s : Server) : c.Reports (c.exec s).1 := by
  cases c with
  | query q => exact trivial
  | action a =>
    cases a with
    | settleBlock sender receiver call settledAt faults =>
      have hends := settleBlock_ends sender receiver call settledAt faults s.db
      simp only [Call.exec, Call.Reports, Action.exec, Action.Reports]
      generalize settleBlock sender receiver call settledAt faults s.db = out at hends ⊢
      obtain ⟨r, db⟩ := out
      cases hends with
      | committed _ _ _ _ _ =>
        intro tx htx
        rw [← BlockResult.committed.inj htx]
        rfl
      | _ => exact fun tx htx => by cases htx
    | saveTransaction tx fault =>
      simp only [Call.exec, Call.Reports, Action.exec, Action.Reports]
      rcases TransactionRepository.save_cases tx fault s.db with ⟨e, hsave⟩ | ⟨hnew, hsave⟩
      · rw [hsave]
        exact fun tx' htx => by cases htx
      · rw [hsave]
        intro tx' htx
        rw [← Except.ok.inj htx]
    | _ => exact trivial

section Table

variable {db db' : Database} {c : Call} {rows : List Transaction}

/-- The sequence never goes back, and a row gets the next number. -/
theorem DbStep.sequence (h : DbStep db c rows db') :
    db.current.transactions.sequence ≤ db'.current.transactions.sequence ∧
      (rows = [] ∨ ∃ row, rows = [row] ∧ db.current.transactions.sequence < row.id ∧
        row.id ≤ db'.current.transactions.sequence) := by
  cases h with
  | unchanged => exact ⟨le_rfl, Or.inl rfl⟩
  | reset hends => exact ⟨hends.sequence.ge, Or.inl rfl⟩
  | recorded hnew => exact ⟨(Int.lt_succ _).le, Or.inr ⟨_, rfl, Int.lt_succ _, le_rfl⟩⟩
  | committed hsp hnew => exact ⟨(Int.lt_succ _).le, Or.inr ⟨_, rfl, Int.lt_succ _, le_rfl⟩⟩
  | leftOpen hsp hroll haccounts ht =>
    refine ⟨?_, Or.inl rfl⟩
    rcases ht with ht | ⟨hnew, ht⟩
    · exact (congrArg TransactionTable.sequence ht).ge
    · have hsequence := congrArg TransactionTable.sequence ht
      exact (Int.lt_succ _).le.trans hsequence.ge

/-- If no `ROLLBACK` fails, every number goes to a reported row. -/
theorem DbStep.consecutive (h : DbStep db c rows db') (hroll : c.RollsBack) {n : ℤ}
    (hn : n ≤ db'.current.transactions.sequence) :
    n ≤ db.current.transactions.sequence ∨ ∃ row ∈ rows, row.id = n := by
  have hnext : n ≤ db.current.transactions.sequence + 1 →
      n ≤ db.current.transactions.sequence ∨ db.current.transactions.sequence + 1 = n := by
    omega
  cases h with
  | unchanged => exact Or.inl hn
  | reset hends => exact Or.inl (hends.sequence ▸ hn)
  | recorded hnew => exact (hnext hn).imp_right fun hid => ⟨_, List.mem_singleton_self _, hid⟩
  | committed _ hnew => exact (hnext hn).imp_right fun hid => ⟨_, List.mem_singleton_self _, hid⟩
  | leftOpen _ hfail _ _ => exact absurd hroll hfail

/-- A reported row is the one that the call inserts, with the next number. -/
theorem DbStep.rows_inserted (h : DbStep db c rows db') {row : Transaction} (hrow : row ∈ rows) :
    ∃ tx, c.inserts = some tx ∧ row = db.current.transactions.stored tx := by
  cases h with
  | unchanged => exact absurd hrow List.not_mem_nil
  | reset hends => exact absurd hrow List.not_mem_nil
  | recorded hnew => exact ⟨_, rfl, List.mem_singleton.mp hrow⟩
  | committed hsp hnew => exact ⟨_, rfl, List.mem_singleton.mp hrow⟩
  | leftOpen hsp hroll haccounts ht => exact absurd hrow List.not_mem_nil

/-- What holds of every row, of those a `ROLLBACK` would bring back, too, and of the row that the call
inserts. -/
theorem DbStep.forall_rows {P : Transaction → Prop} (h : DbStep db c rows db')
    (hcurrent : ∀ row ∈ db.current.transactions.rows, P row)
    (hsaved : ∀ t, db.savepoint = some t → ∀ row ∈ t.transactions.rows, P row)
    (hnew : ∀ tx, c.inserts = some tx → P (db.current.transactions.stored tx)) :
    (∀ row ∈ db'.current.transactions.rows, P row) ∧
      ∀ t, db'.savepoint = some t → ∀ row ∈ t.transactions.rows, P row := by
  have hinsert : ∀ tx hnew', c.inserts = some tx →
      ∀ row ∈ (db.current.transactions.insert tx hnew').rows, P row := by
    intro tx hnew' htx row hrow
    rcases List.mem_append.mp hrow with hrow | hrow
    · exact hcurrent row hrow
    · exact List.mem_singleton.mp hrow ▸ hnew tx htx
  cases h with
  | unchanged => exact ⟨hcurrent, hsaved⟩
  | reset hends => exact ⟨fun row hrow => hcurrent row (hends.mem_rows hrow), hends.savepoint ▸ hsaved⟩
  | recorded hnew' => exact ⟨hinsert _ hnew' rfl, hsaved⟩
  | committed hsp hnew' => exact ⟨hinsert _ hnew' rfl, fun t ht => by cases ht⟩
  | leftOpen hsp hroll haccounts ht =>
    refine ⟨?_, fun t ht => Option.some.inj ht ▸ hcurrent⟩
    rcases ht with ht | ⟨hnew', ht⟩
    · exact (congrArg TransactionTable.rows ht) ▸ hcurrent
    · exact (congrArg TransactionTable.rows ht) ▸ hinsert _ hnew' rfl

/-- Without a reset no account goes. -/
theorem DbStep.keys_stay (h : DbStep db c rows db') (hc : ¬ c.IsReset) {vpa : String}
    (hvpa : vpa ∈ db.current.accounts.keys) : vpa ∈ db'.current.accounts.keys := by
  cases h with
  | unchanged => exact hvpa
  | reset hends => exact absurd trivial hc
  | recorded hnew => exact hvpa
  | committed hsp hnew => exact mem_keys_savedAccounts hvpa
  | leftOpen hsp hroll haccounts ht => exact haccounts ▸ mem_keys_savedAccounts hvpa

/-- Without a reset no row goes, and a reported row is there. -/
theorem DbStep.rows_stay (h : DbStep db c rows db') (hc : ¬ c.IsReset) :
    (∀ row ∈ db.current.transactions.rows, row ∈ db'.current.transactions.rows) ∧
      ∀ row ∈ rows, row ∈ db'.current.transactions.rows := by
  cases h with
  | unchanged => exact ⟨fun _ h => h, fun _ h => absurd h List.not_mem_nil⟩
  | reset hends => exact absurd trivial hc
  | recorded hnew => exact ⟨fun _ h => List.mem_append_left _ h, fun _ h => List.mem_append_right _ h⟩
  | committed hsp hnew =>
    exact ⟨fun _ h => List.mem_append_left _ h, fun _ h => List.mem_append_right _ h⟩
  | leftOpen hsp hroll haccounts ht =>
    refine ⟨fun row hrow => ?_, fun _ h => absurd h List.not_mem_nil⟩
    rcases ht with ht | ⟨hnew, ht⟩
    · exact (congrArg TransactionTable.rows ht) ▸ hrow
    · exact (congrArg TransactionTable.rows ht) ▸ List.mem_append_left _ hrow

/-- Without a reset the table is a log that only grows. -/
theorem DbStep.rows_prefix (h : DbStep db c rows db') (hc : ¬ c.IsReset) :
    db.current.transactions.rows <+: db'.current.transactions.rows := by
  cases h with
  | unchanged => exact List.prefix_rfl
  | reset hends => exact absurd trivial hc
  | recorded hnew => exact List.prefix_append _ _
  | committed hsp hnew => exact List.prefix_append _ _
  | leftOpen hsp hroll haccounts ht =>
    rcases ht with ht | ⟨hnew, ht⟩
    · have hrows := congrArg TransactionTable.rows ht
      exact hrows ▸ List.prefix_rfl
    · have hrows := congrArg TransactionTable.rows ht
      exact hrows ▸ List.prefix_append _ _

/-- If no `ROLLBACK` fails, a new row is a reported one and no transaction stays open. -/
theorem DbStep.rows_reported (h : DbStep db c rows db') (hsp : db.savepoint = none)
    (hroll : c.RollsBack) :
    db'.savepoint = none ∧ ∀ row ∈ db'.current.transactions.rows,
      row ∈ db.current.transactions.rows ∨ row ∈ rows := by
  cases h with
  | unchanged => exact ⟨hsp, fun _ h => Or.inl h⟩
  | reset hends => exact ⟨hends.savepoint.trans hsp, fun _ h => Or.inl (hends.mem_rows h)⟩
  | recorded hnew => exact ⟨hsp, fun _ h => List.mem_append.mp h⟩
  | committed _ hnew => exact ⟨rfl, fun _ h => List.mem_append.mp h⟩
  | leftOpen _ hfail _ _ => exact absurd hroll hfail

end Table

end UpiMesh
