import UpiMesh.Settlement

/-!
# What one `settle` call does on its own

`AttemptEnds` lists how an attempt ends for any statement faults, `AttemptsEnd` chains the attempts,
and `Settles` is what remains of them for a call without faults on a database without an open
transaction. The only failing statement is then the insert of a row whose hash is stored already. It
fails in every attempt, because each of them is rolled back and reads the same tables again.
-/

namespace UpiMesh

open Concurrent

/-- Both parties are known and the amount is positive. -/
structure Payable (accounts : AccountTable) (instruction : PaymentInstruction)
    (sender receiver : Account) : Prop where
  findSender : accounts.find? (cstr instruction.senderVpa) = some sender
  findReceiver : accounts.find? (cstr instruction.receiverVpa) = some receiver
  positive : 0 < instruction.amount

/-- The call reaches the write block with these two accounts. -/
structure Covered (accounts : AccountTable) (instruction : PaymentInstruction)
    (sender receiver : Account) : Prop extends Payable accounts instruction sender receiver where
  covered : instruction.amount ≤ sender.balance

/-- The call records a rejection. -/
structure Short (accounts : AccountTable) (instruction : PaymentInstruction)
    (sender receiver : Account) : Prop extends Payable accounts instruction sender receiver where
  short : sender.balance < instruction.amount

theorem Payable.unique {accounts : AccountTable} {i : PaymentInstruction}
    {sender receiver sender' receiver' : Account} (h : Payable accounts i sender receiver)
    (h' : Payable accounts i sender' receiver') : sender' = sender ∧ receiver' = receiver := by
  have hs := h'.findSender.symm.trans h.findSender
  have hr := h'.findReceiver.symm.trans h.findReceiver
  exact ⟨Option.some.inj hs, Option.some.inj hr⟩

theorem Covered.not_short {accounts : AccountTable} {i : PaymentInstruction}
    {sender receiver sender' receiver' : Account} (hc : Covered accounts i sender receiver)
    (hshort : Short accounts i sender' receiver') : False := by
  obtain ⟨rfl, rfl⟩ := hc.toPayable.unique hshort.toPayable
  exact absurd hc.covered hshort.short.not_ge

def AttemptFaults.ReadsSucceed (faults : AttemptFaults) : Prop :=
  faults.findSender = none ∧ faults.findReceiver = none

namespace SettlementService

/-- The ways an attempt can end, for any statement faults. -/
inductive AttemptEnds (call : SettleCall) (settledAt : ℤ) (faults : AttemptFaults) (db : Database) :
    AttemptResult → Database → Prop
  | unknownSender
      (h : faults.findSender ≠ none ∨
        db.current.accounts.find? (cstr call.instruction.senderVpa) = none) :
      AttemptEnds call settledAt faults db (.thrown (unknownSender call)) db
  | unknownReceiver {sender : Account} (hread : faults.findSender = none)
      (hs : db.current.accounts.find? (cstr call.instruction.senderVpa) = some sender)
      (h : faults.findReceiver ≠ none ∨
        db.current.accounts.find? (cstr call.instruction.receiverVpa) = none) :
      AttemptEnds call settledAt faults db (.thrown (unknownReceiver call)) db
  | notPositive {sender receiver : Account} (hreads : faults.ReadsSucceed)
      (hs : db.current.accounts.find? (cstr call.instruction.senderVpa) = some sender)
      (hr : db.current.accounts.find? (cstr call.instruction.receiverVpa) = some receiver)
      (h : call.instruction.amount ≤ 0) :
      AttemptEnds call settledAt faults db (.thrown amountNotPositive) db
  | unrejected {sender receiver : Account} {e : Exn} (hreads : faults.ReadsSucceed)
      (hshort : Short db.current.accounts call.instruction sender receiver)
      (h : faults.insert ≠ none ∨
        cstr call.packetHash ∈ db.current.transactions.rows.map Transaction.packetHash)
      (he : faults.insert = none → e = TransactionRepository.uniqueViolation) :
      AttemptEnds call settledAt faults db (.thrown e) db
  | rejected {sender receiver : Account} (hreads : faults.ReadsSucceed)
      (hshort : Short db.current.accounts call.instruction sender receiver)
      (hinsert : faults.insert = none)
      (hnew : cstr call.packetHash ∉ db.current.transactions.rows.map Transaction.packetHash) :
      AttemptEnds call settledAt faults db
        (.returned { call.transaction settledAt .REJECTED with
          id := db.current.transactions.sequence + 1 })
        { db with current.transactions :=
            db.current.transactions.insert (call.transaction settledAt .REJECTED) hnew }
  | block {sender receiver : Account} {r : BlockResult} {db' : Database}
      (hreads : faults.ReadsSucceed)
      (hc : Covered db.current.accounts call.instruction sender receiver)
      (h : BlockEnds sender receiver call settledAt faults db r db') :
      AttemptEnds call settledAt faults db (.ofBlock r) db'

variable {call : SettleCall} {s : Server}

theorem run_afterReads_of_nonpos {settledAt : ℤ} {faults : AttemptFaults}
    {sender receiver : Account} (h : call.instruction.amount ≤ 0) :
    (afterReads call settledAt faults sender receiver).run s = (.thrown amountNotPositive, s) := by
  simp only [afterReads, if_pos h]
  rfl

theorem run_afterReads_of_short {settledAt : ℤ} {faults : AttemptFaults}
    {sender receiver : Account} (hpos : 0 < call.instruction.amount)
    (h : sender.balance < call.instruction.amount) :
    (afterReads call settledAt faults sender receiver).run s =
      match TransactionRepository.save (call.transaction settledAt .REJECTED) faults.insert s.db with
      | (.ok tx, db) => (.returned tx, { s with db })
      | (.error e, db) => (.thrown e, { s with db }) := by
  simp only [afterReads, if_neg hpos.not_ge, if_pos h, recordRejected, Service.run,
    Program.call_bind, Program.run_act, Action.exec]
  rcases TransactionRepository.save (call.transaction settledAt .REJECTED) faults.insert s.db
    with ⟨r, db⟩
  cases r <;> rfl

theorem run_afterReads_of_covered {settledAt : ℤ} {faults : AttemptFaults}
    {sender receiver : Account} (hpos : 0 < call.instruction.amount)
    (h : call.instruction.amount ≤ sender.balance) :
    (afterReads call settledAt faults sender receiver).run s =
      (.ofBlock (settleBlock sender receiver call settledAt faults s.db).1,
        { s with db := (settleBlock sender receiver call settledAt faults s.db).2 }) := by
  simp only [afterReads, if_neg hpos.not_ge, if_neg h.not_gt, writeBlock, Service.run,
    Program.call_bind, Program.run_act, Action.exec]
  rfl

theorem run_attempt (settledAt : ℤ) (faults : AttemptFaults) :
    (attempt call settledAt faults).run s =
      match AccountRepository.findById call.instruction.senderVpa faults.findSender s.db with
      | none => (.thrown (unknownSender call), s)
      | some sender =>
        match AccountRepository.findById call.instruction.receiverVpa faults.findReceiver s.db with
        | none => (.thrown (unknownReceiver call), s)
        | some receiver => (afterReads call settledAt faults sender receiver).run s := by
  simp only [attempt, findById, Service.run, Program.call_bind, Program.run_act, Action.exec]
  cases AccountRepository.findById call.instruction.senderVpa faults.findSender s.db with
  | none => rfl
  | some sender =>
    simp only [Program.run_act, Action.exec]
    cases AccountRepository.findById call.instruction.receiverVpa faults.findReceiver s.db <;> rfl

theorem findById_eq_some {vpa : String} {fault : Option StatementFault} {db : Database}
    {account : Account} (h : AccountRepository.findById vpa fault db = some account) :
    fault = none ∧ db.current.accounts.find? (cstr vpa) = some account := by
  cases fault with
  | none => exact ⟨rfl, h⟩
  | some f => cases h

theorem findById_eq_none {vpa : String} {fault : Option StatementFault} {db : Database}
    (h : AccountRepository.findById vpa fault db = none) :
    fault ≠ none ∨ db.current.accounts.find? (cstr vpa) = none := by
  cases fault with
  | none => exact Or.inr h
  | some f => exact Or.inl (by simp)

theorem afterReads_ends {settledAt : ℤ} {faults : AttemptFaults} {sender receiver : Account}
    (hreads : faults.ReadsSucceed)
    (hs : s.db.current.accounts.find? (cstr call.instruction.senderVpa) = some sender)
    (hr : s.db.current.accounts.find? (cstr call.instruction.receiverVpa) = some receiver) :
    ∃ r db, (afterReads call settledAt faults sender receiver).run s = (r, { s with db }) ∧
      AttemptEnds call settledAt faults s.db r db := by
  by_cases hpos : call.instruction.amount ≤ 0
  · exact ⟨_, s.db, run_afterReads_of_nonpos hpos, .notPositive hreads hs hr hpos⟩
  rw [not_le] at hpos
  by_cases hcov : call.instruction.amount ≤ sender.balance
  · refine ⟨_, _, run_afterReads_of_covered hpos hcov, .block hreads ⟨⟨hs, hr, hpos⟩, hcov⟩ ?_⟩
    exact settleBlock_ends sender receiver call settledAt faults s.db
  rw [not_le] at hcov
  have hshort : Short s.db.current.accounts call.instruction sender receiver := ⟨⟨hs, hr, hpos⟩, hcov⟩
  rw [run_afterReads_of_short hpos hcov]
  cases hins : faults.insert with
  | some f =>
    exact ⟨_, s.db, rfl, .unrejected hreads hshort (Or.inl (by simp [hins])) (by simp [hins])⟩
  | none =>
    by_cases hdup : cstr call.packetHash ∈ s.db.current.transactions.rows.map Transaction.packetHash
    · rw [save_transaction_of_mem hdup]
      exact ⟨_, s.db, rfl, .unrejected hreads hshort (Or.inr hdup) fun _ => rfl⟩
    · rw [save_transaction_of_notMem hdup]
      exact ⟨_, _, rfl, .rejected hreads hshort hins hdup⟩

theorem attempt_ends (call : SettleCall) (settledAt : ℤ) (faults : AttemptFaults) (s : Server) :
    ∃ r db, (attempt call settledAt faults).run s = (r, { s with db }) ∧
      AttemptEnds call settledAt faults s.db r db := by
  rw [run_attempt]
  cases hs : AccountRepository.findById call.instruction.senderVpa faults.findSender s.db with
  | none => exact ⟨_, s.db, rfl, .unknownSender (findById_eq_none hs)⟩
  | some sender =>
    obtain ⟨hreadS, hs⟩ := findById_eq_some hs
    cases hr : AccountRepository.findById call.instruction.receiverVpa faults.findReceiver s.db with
    | none => exact ⟨_, s.db, rfl, .unknownReceiver hreadS hs (findById_eq_none hr)⟩
    | some receiver =>
      obtain ⟨hreadR, hr⟩ := findById_eq_some hr
      exact afterReads_ends ⟨hreadS, hreadR⟩ hs hr

/-- An attempt that is repeated has changed nothing. -/
theorem AttemptEnds.of_failed {settledAt : ℤ} {faults : AttemptFaults} {db db' : Database} {e : Exn}
    (h : AttemptEnds call settledAt faults db (.failed e) db') :
    db' = db ∧ db.savepoint = none ∧ faults.ReadsSucceed ∧
      (∃ sender receiver, Covered db.current.accounts call.instruction sender receiver) ∧
      faults.beginImmediate = none ∧ faults.rollback = none ∧ BlockFails call faults db ∧
      (faults.insert = none → faults.commit = none → e = TransactionRepository.uniqueViolation) := by
  generalize hr : AttemptResult.failed e = r at h
  cases h with
  | block hreads hc hblock =>
    cases hblock with
    | rolledBack hsp hbegin hroll hfail he =>
      obtain rfl := AttemptResult.failed.inj hr
      exact ⟨rfl, hsp, hreads, ⟨_, _, hc⟩, hbegin, hroll, hfail, he⟩
    | _ => cases hr
  | _ => cases hr

/-- With successful reads, an attempt of a payable call gets past its checks. -/
theorem AttemptEnds.of_payable {settledAt : ℤ} {faults : AttemptFaults} {db db' : Database}
    {r : AttemptResult} {sender receiver : Account} (h : AttemptEnds call settledAt faults db r db')
    (hreads : faults.ReadsSucceed)
    (hp : Payable db.current.accounts call.instruction sender receiver) :
    (Covered db.current.accounts call.instruction sender receiver ∧
      ∃ b, r = .ofBlock b ∧ BlockEnds sender receiver call settledAt faults db b db') ∨
    (Short db.current.accounts call.instruction sender receiver ∧
      ((∃ e, r = .thrown e ∧ (faults.insert ≠ none ∨
          cstr call.packetHash ∈ db.current.transactions.rows.map Transaction.packetHash)) ∨
        ∃ tx, r = .returned tx)) := by
  cases h with
  | unknownSender h =>
    have hnone := h.resolve_left (not_not.mpr hreads.1)
    exact absurd hp.findSender (by simp [hnone])
  | unknownReceiver _ _ h =>
    have hnone := h.resolve_left (not_not.mpr hreads.2)
    exact absurd hp.findReceiver (by simp [hnone])
  | notPositive _ _ _ h => exact absurd hp.positive h.not_gt
  | unrejected _ hshort h _ =>
    obtain ⟨rfl, rfl⟩ := hp.unique hshort.toPayable
    exact Or.inr ⟨hshort, Or.inl ⟨_, rfl, h⟩⟩
  | rejected _ hshort _ _ =>
    obtain ⟨rfl, rfl⟩ := hp.unique hshort.toPayable
    exact Or.inr ⟨hshort, Or.inr ⟨_, rfl⟩⟩
  | block _ hc hblock =>
    obtain ⟨rfl, rfl⟩ := hp.unique hc.toPayable
    exact Or.inl ⟨hc, _, rfl, hblock⟩

/-- With successful reads, an attempt of a covered call is its write block. -/
theorem AttemptEnds.of_covered {settledAt : ℤ} {faults : AttemptFaults} {db db' : Database}
    {r : AttemptResult} {sender receiver : Account} (h : AttemptEnds call settledAt faults db r db')
    (hreads : faults.ReadsSucceed)
    (hc : Covered db.current.accounts call.instruction sender receiver) :
    ∃ b, r = .ofBlock b ∧ BlockEnds sender receiver call settledAt faults db b db' := by
  rcases h.of_payable hreads hc.toPayable with ⟨_, hblock⟩ | ⟨hshort, _⟩
  · exact hblock
  · exact (hc.not_short hshort).elim

/-- An attempt without faults outside the saves commits a covered call with a new hash. -/
theorem AttemptEnds.of_commits {settledAt : ℤ} {faults : AttemptFaults} {db db' : Database}
    {r : AttemptResult} {sender receiver : Account} (h : AttemptEnds call settledAt faults db r db')
    (hsp : db.savepoint = none) (hreads : faults.ReadsSucceed) (hcommits : faults.Commits)
    (hc : Covered db.current.accounts call.instruction sender receiver)
    (hnew : cstr call.packetHash ∉ db.current.transactions.rows.map Transaction.packetHash) :
    r = .returned { call.transaction settledAt .SETTLED with
        id := db.current.transactions.sequence + 1 } ∧
      db' = ⟨⟨savedAccounts sender receiver call.instruction.amount faults db.current.accounts,
        db.current.transactions.insert (call.transaction settledAt .SETTLED) hnew⟩, none⟩ := by
  obtain ⟨b, rfl, hblock⟩ := h.of_covered hreads hc
  obtain ⟨rfl, rfl⟩ := hblock.of_commits hsp hcommits hnew
  exact ⟨rfl, rfl⟩

theorem AttemptEnds.keys {settledAt : ℤ} {faults : AttemptFaults} {db db' : Database}
    {r : AttemptResult} (h : AttemptEnds call settledAt faults db r db') :
    db'.current.accounts.keys = db.current.accounts.keys := by
  cases h with
  | block _ hc hblock =>
    exact hblock.keys (Table.mem_of_find? hc.findSender) (Table.mem_of_find? hc.findReceiver)
  | _ => rfl

/-- A row that is returned has been settled or rejected. -/
theorem AttemptEnds.status {settledAt : ℤ} {faults : AttemptFaults} {db db' : Database}
    {tx : Transaction} (h : AttemptEnds call settledAt faults db (.returned tx) db') :
    tx.status = .SETTLED ∨ tx.status = .REJECTED := by
  generalize hr : AttemptResult.returned tx = r at h
  cases h with
  | rejected _ _ _ _ =>
    obtain rfl := AttemptResult.returned.inj hr
    exact Or.inr rfl
  | block _ _ hblock =>
    cases hblock with
    | committed _ _ _ _ _ =>
      obtain rfl := AttemptResult.returned.inj hr
      exact Or.inl rfl
    | _ => cases hr
  | _ => cases hr

/-- How the loop ends when attempt `n` is next and `remaining` iterations are allowed. -/
inductive AttemptsEnd (call : SettleCall) (env : SettleEnv) (db : Database) :
    (n remaining : ℕ) → Except Exn Transaction → Database → Prop
  | exhausted {n : ℕ} :
      AttemptsEnd call env db n 0 (.error (.runtimeError "Settlement failed unexpectedly")) db
  | returned {n remaining : ℕ} {tx : Transaction} {db' : Database}
      (h : AttemptEnds call (env.settledAt n) (env.faults n) db (.returned tx) db') :
      AttemptsEnd call env db n (remaining + 1) (.ok tx) db'
  | thrown {n remaining : ℕ} {e : Exn} {db' : Database}
      (h : AttemptEnds call (env.settledAt n) (env.faults n) db (.thrown e) db') :
      AttemptsEnd call env db n (remaining + 1) (.error e) db'
  | gaveUp {n remaining : ℕ} {e : Exn}
      (h : AttemptEnds call (env.settledAt n) (env.faults n) db (.failed e) db)
      (hn : n = maxAttempts) : AttemptsEnd call env db n (remaining + 1) (.error e) db
  | retried {n remaining : ℕ} {e : Exn} {r : Except Exn Transaction} {db' : Database}
      (h : AttemptEnds call (env.settledAt n) (env.faults n) db (.failed e) db)
      (hn : n ≠ maxAttempts) (hrest : AttemptsEnd call env db (n + 1) remaining r db') :
      AttemptsEnd call env db n (remaining + 1) r db'

theorem AttemptsEnd.keys {env : SettleEnv} {db db' : Database} {n remaining : ℕ}
    {r : Except Exn Transaction} (h : AttemptsEnd call env db n remaining r db') :
    db'.current.accounts.keys = db.current.accounts.keys := by
  induction h with
  | exhausted => rfl
  | returned h => exact h.keys
  | thrown h => exact h.keys
  | gaveUp _ _ => rfl
  | retried _ _ _ ih => exact ih

theorem AttemptsEnd.status {env : SettleEnv} {db db' : Database} {n remaining : ℕ}
    {tx : Transaction} (h : AttemptsEnd call env db n remaining (.ok tx) db') :
    tx.status = .SETTLED ∨ tx.status = .REJECTED := by
  generalize hr : Except.ok tx = r at h
  induction h with
  | returned h =>
    obtain rfl := Except.ok.inj hr
    exact h.status
  | retried _ _ _ ih => exact ih hr
  | _ => cases hr

theorem run_attempts_succ (env : SettleEnv) (n remaining : ℕ) :
    (attempts call env n (remaining + 1)).run s =
      match (attempt call (env.settledAt n) (env.faults n)).run s with
      | (.returned tx, s) => (.ok tx, s)
      | (.thrown e, s) => (.error e, s)
      | (.failed e, s) =>
        if n = maxAttempts then (.error e, s) else (attempts call env (n + 1) remaining).run s := by
  simp only [attempts, Service.run, Program.run_bind]
  rcases Program.run Action.exec (attempt call (env.settledAt n) (env.faults n)) s with ⟨r, s'⟩
  cases r with
  | returned tx => rfl
  | thrown e => rfl
  | failed e => split_ifs <;> rfl

theorem attempts_end (call : SettleCall) (env : SettleEnv) (n remaining : ℕ) (s : Server) :
    ∃ r db, (attempts call env n remaining).run s = (r, { s with db }) ∧
      AttemptsEnd call env s.db n remaining r db := by
  induction remaining generalizing n with
  | zero => exact ⟨_, s.db, rfl, .exhausted⟩
  | succ remaining ih =>
    obtain ⟨r, db, hrun, hends⟩ := attempt_ends call (env.settledAt n) (env.faults n) s
    rw [run_attempts_succ, hrun]
    cases r with
    | returned tx => exact ⟨_, db, rfl, .returned hends⟩
    | thrown e => exact ⟨_, db, rfl, .thrown hends⟩
    | failed e =>
      obtain rfl := hends.of_failed.1
      by_cases hn : n = maxAttempts
      · refine ⟨_, s.db, ?_, .gaveUp hends hn⟩
        simp only [if_pos hn]
      · obtain ⟨r, db, hrun', hrest⟩ := ih (n + 1)
        refine ⟨r, db, ?_, .retried hends hn hrest⟩
        simp only [if_neg hn]
        exact hrun'

theorem settle_ends (call : SettleCall) (env : SettleEnv) (s : Server) :
    ∃ r db, (settle call env).run s = (r, { s with db }) ∧
      AttemptsEnd call env s.db 1 maxAttempts r db := attempts_end call env 1 maxAttempts s

end SettlementService

/-- The accounts after both saves of an undisturbed write block. -/
def Tables.transfer (t : Tables) (sender receiver : Account) (amount : ℤ) : AccountTable :=
  (t.accounts.upsert (sender.debit amount)).upsert (receiver.credit amount)

theorem Tables.find?_transfer (t : Tables) (sender receiver : Account) (amount : ℤ) (k : String) :
    (t.transfer sender receiver amount).find? k =
      if receiver.vpa = k then some (receiver.credit amount)
      else if sender.vpa = k then some (sender.debit amount) else t.accounts.find? k := by
  rw [Tables.transfer, Table.find?_upsert, Table.find?_upsert]
  rfl

theorem Tables.keys_transfer {t : Tables} {sender receiver : Account} (amount : ℤ)
    (hs : sender ∈ t.accounts.rows) (hr : receiver ∈ t.accounts.rows) :
    (t.transfer sender receiver amount).keys = t.accounts.keys := by
  have hskey : (sender.debit amount).vpa ∈ t.accounts.keys := Table.mem_keys.mpr ⟨sender, hs, rfl⟩
  have hkeys := Table.keys_upsert_of_mem hskey
  have hrkey : (receiver.credit amount).vpa ∈ (t.accounts.upsert (sender.debit amount)).keys := by
    rw [hkeys]
    exact Table.mem_keys.mpr ⟨receiver, hr, rfl⟩
  rw [Tables.transfer, Table.keys_upsert_of_mem hrkey, hkeys]

/-- The outcomes of a call without statement faults on a database without an open transaction. -/
inductive Settles (call : SettleCall) (settledAt : ℤ) (db : Database) :
    Except Exn Transaction → Database → Prop
  | unknownSender (h : db.current.accounts.find? (cstr call.instruction.senderVpa) = none) :
      Settles call settledAt db (.error (SettlementService.unknownSender call)) db
  | unknownReceiver {sender : Account}
      (hs : db.current.accounts.find? (cstr call.instruction.senderVpa) = some sender)
      (h : db.current.accounts.find? (cstr call.instruction.receiverVpa) = none) :
      Settles call settledAt db (.error (SettlementService.unknownReceiver call)) db
  | notPositive {sender receiver : Account}
      (hs : db.current.accounts.find? (cstr call.instruction.senderVpa) = some sender)
      (hr : db.current.accounts.find? (cstr call.instruction.receiverVpa) = some receiver)
      (h : call.instruction.amount ≤ 0) :
      Settles call settledAt db (.error SettlementService.amountNotPositive) db
  | duplicate {sender receiver : Account}
      (hpay : Payable db.current.accounts call.instruction sender receiver)
      (h : cstr call.packetHash ∈ db.current.transactions.rows.map Transaction.packetHash) :
      Settles call settledAt db (.error TransactionRepository.uniqueViolation) db
  | rejected {sender receiver : Account}
      (hshort : Short db.current.accounts call.instruction sender receiver)
      (hnew : cstr call.packetHash ∉ db.current.transactions.rows.map Transaction.packetHash) :
      Settles call settledAt db
        (.ok { call.transaction settledAt .REJECTED with
          id := db.current.transactions.sequence + 1 })
        { db with current.transactions :=
            db.current.transactions.insert (call.transaction settledAt .REJECTED) hnew }
  | settled {sender receiver : Account}
      (hc : Covered db.current.accounts call.instruction sender receiver)
      (hnew : cstr call.packetHash ∉ db.current.transactions.rows.map Transaction.packetHash) :
      Settles call settledAt db
        (.ok { call.transaction settledAt .SETTLED with
          id := db.current.transactions.sequence + 1 })
        ⟨⟨db.current.transfer sender receiver call.instruction.amount,
          db.current.transactions.insert (call.transaction settledAt .SETTLED) hnew⟩, none⟩

section Settles

variable {call : SettleCall} {settledAt : ℤ} {db db' : Database} {r : Except Exn Transaction}

/-- A call on a stored hash changes nothing. -/
theorem Settles.of_mem (h : Settles call settledAt db r db')
    (hdup : cstr call.packetHash ∈ db.current.transactions.rows.map Transaction.packetHash) :
    db' = db := by
  cases h with
  | rejected _ hnew => exact absurd hdup hnew
  | settled _ hnew => exact absurd hdup hnew
  | _ => rfl

/-- A payable call gets past its checks. -/
theorem Settles.of_payable (h : Settles call settledAt db r db') {sender receiver : Account}
    (hp : Payable db.current.accounts call.instruction sender receiver) :
    (r = .error TransactionRepository.uniqueViolation ∧ db' = db ∧
      cstr call.packetHash ∈ db.current.transactions.rows.map Transaction.packetHash) ∨
    (Short db.current.accounts call.instruction sender receiver ∧ ∃ hnew,
      r = .ok { call.transaction settledAt .REJECTED with
        id := db.current.transactions.sequence + 1 } ∧
      db' = { db with current.transactions :=
        db.current.transactions.insert (call.transaction settledAt .REJECTED) hnew }) ∨
    (Covered db.current.accounts call.instruction sender receiver ∧ ∃ hnew,
      r = .ok { call.transaction settledAt .SETTLED with
        id := db.current.transactions.sequence + 1 } ∧
      db' = ⟨⟨db.current.transfer sender receiver call.instruction.amount,
        db.current.transactions.insert (call.transaction settledAt .SETTLED) hnew⟩, none⟩) := by
  have hs := hp.findSender
  have hr := hp.findReceiver
  cases h with
  | unknownSender hnone =>
    rw [hnone] at hs
    cases hs
  | unknownReceiver _ hnone =>
    rw [hnone] at hr
    cases hr
  | notPositive _ _ hnonpos => exact absurd hp.positive hnonpos.not_gt
  | duplicate _ hdup => exact Or.inl ⟨rfl, rfl, hdup⟩
  | rejected hshort hnew =>
    obtain ⟨rfl, rfl⟩ := hp.unique hshort.toPayable
    exact Or.inr (Or.inl ⟨hshort, hnew, rfl, rfl⟩)
  | settled hc hnew =>
    obtain ⟨rfl, rfl⟩ := hp.unique hc.toPayable
    exact Or.inr (Or.inr ⟨hc, hnew, rfl, rfl⟩)

theorem Settles.of_short (h : Settles call settledAt db r db') {sender receiver : Account}
    (hshort : Short db.current.accounts call.instruction sender receiver)
    (hnew : cstr call.packetHash ∉ db.current.transactions.rows.map Transaction.packetHash) :
    r = .ok { call.transaction settledAt .REJECTED with
        id := db.current.transactions.sequence + 1 } ∧
      db' = { db with current.transactions :=
        db.current.transactions.insert (call.transaction settledAt .REJECTED) hnew } := by
  rcases h.of_payable hshort.toPayable with ⟨_, _, hdup⟩ | ⟨_, _, hr, hdb⟩ | ⟨hc, _⟩
  · exact absurd hdup hnew
  · exact ⟨hr, hdb⟩
  · exact (hc.not_short hshort).elim

theorem Settles.of_covered (h : Settles call settledAt db r db') {sender receiver : Account}
    (hc : Covered db.current.accounts call.instruction sender receiver)
    (hnew : cstr call.packetHash ∉ db.current.transactions.rows.map Transaction.packetHash) :
    r = .ok { call.transaction settledAt .SETTLED with
        id := db.current.transactions.sequence + 1 } ∧
      db' = ⟨⟨db.current.transfer sender receiver call.instruction.amount,
        db.current.transactions.insert (call.transaction settledAt .SETTLED) hnew⟩, none⟩ := by
  rcases h.of_payable hc.toPayable with ⟨_, _, hdup⟩ | ⟨hshort, _⟩ | ⟨_, _, hr, hdb⟩
  · exact absurd hdup hnew
  · exact (hc.not_short hshort).elim
  · exact ⟨hr, hdb⟩

theorem Settles.savepoint (h : Settles call settledAt db r db') (hsp : db.savepoint = none) :
    db'.savepoint = none := by
  cases h with
  | settled _ _ => rfl
  | _ => exact hsp

end Settles

namespace SettlementService

variable {call : SettleCall} {s : Server}

/-- A fault-free attempt either decides the call or fails on a stored hash. -/
theorem AttemptEnds.settles {settledAt : ℤ} {db db' : Database} {r : AttemptResult}
    (h : AttemptEnds call settledAt {} db r db') (hsp : db.savepoint = none) :
    (∃ tx, r = .returned tx ∧ Settles call settledAt db (.ok tx) db') ∨
    (∃ e, r = .thrown e ∧ Settles call settledAt db (.error e) db') ∨
    (∃ e, r = .failed e ∧ Settles call settledAt db (.error e) db) := by
  cases h with
  | unknownSender h =>
    exact Or.inr (Or.inl ⟨_, rfl, .unknownSender (h.resolve_left (by simp))⟩)
  | unknownReceiver _ hs h =>
    exact Or.inr (Or.inl ⟨_, rfl, .unknownReceiver hs (h.resolve_left (by simp))⟩)
  | notPositive _ hs hr h => exact Or.inr (Or.inl ⟨_, rfl, .notPositive hs hr h⟩)
  | unrejected _ hshort h he =>
    obtain rfl := he rfl
    exact Or.inr (Or.inl ⟨_, rfl, .duplicate hshort.toPayable (h.resolve_left (by simp))⟩)
  | rejected _ hshort _ hnew => exact Or.inl ⟨_, rfl, .rejected hshort hnew⟩
  | block _ hc hblock =>
    cases hblock with
    | unbegun h => exact absurd rfl (h.resolve_left (not_not.mpr hsp))
    | committed _ _ _ _ hnew => exact Or.inl ⟨_, rfl, .settled hc hnew⟩
    | rolledBack _ _ _ hfail he =>
      obtain rfl := he rfl rfl
      have hdup := (hfail.resolve_left (by simp)).resolve_left (by simp)
      exact Or.inr (Or.inr ⟨_, rfl, .duplicate hc.toPayable hdup⟩)
    | leftOpen _ _ hroll _ _ _ => exact absurd rfl hroll

/-- A covered call on a stored hash fails in every attempt. -/
theorem settles_of_mem {settledAt settledAt' : ℤ} {db db' : Database}
    {r : Except Exn Transaction} (h : Settles call settledAt db r db') {sender receiver : Account}
    (hc : Covered db.current.accounts call.instruction sender receiver)
    (hdup : cstr call.packetHash ∈ db.current.transactions.rows.map Transaction.packetHash) :
    Settles call settledAt' db r db' := by
  rcases h.of_payable hc.toPayable with ⟨rfl, rfl, _⟩ | ⟨_, hnew, _⟩ | ⟨_, hnew, _⟩
  · exact .duplicate hc.toPayable hdup
  · exact absurd hdup hnew
  · exact absurd hdup hnew

theorem AttemptsEnd.settles {env : SettleEnv} {db db' : Database} {n remaining : ℕ}
    {r : Except Exn Transaction} (h : AttemptsEnd call env db n remaining r db')
    (hsp : db.savepoint = none) (hf : ∀ n, env.faults n = {}) (hn : n ≤ maxAttempts)
    (hmax : n + remaining = maxAttempts + 1) : Settles call (env.settledAt n) db r db' := by
  induction h with
  | exhausted => omega
  | returned h =>
    rw [hf] at h
    rcases h.settles hsp with ⟨_, hr, h⟩ | ⟨_, hr, _⟩ | ⟨_, hr, _⟩
    · obtain rfl := AttemptResult.returned.inj hr
      exact h
    · cases hr
    · cases hr
  | thrown h =>
    rw [hf] at h
    rcases h.settles hsp with ⟨_, hr, _⟩ | ⟨_, hr, h⟩ | ⟨_, hr, _⟩
    · cases hr
    · obtain rfl := AttemptResult.thrown.inj hr
      exact h
    · cases hr
  | gaveUp h _ =>
    rw [hf] at h
    rcases h.settles hsp with ⟨_, hr, _⟩ | ⟨_, hr, _⟩ | ⟨_, hr, h⟩
    · cases hr
    · cases hr
    · obtain rfl := AttemptResult.failed.inj hr
      exact h
  | retried h hne _ ih =>
    obtain ⟨-, -, -, ⟨sender, receiver, hc⟩, -, -, hfail, -⟩ := h.of_failed
    rw [hf] at hfail
    have hdup := (hfail.resolve_left (by simp)).resolve_left (by simp)
    have hrest := ih (by omega) (by omega)
    exact settles_of_mem hrest hc hdup

/-- A `settle` call without faults ends in one of the listed outcomes. -/
theorem run_settle (call : SettleCall) (env : SettleEnv) (hsp : s.db.savepoint = none)
    (hf : ∀ n, env.faults n = {}) :
    ∃ r db, (settle call env).run s = (r, { s with db }) ∧
      Settles call (env.settledAt 1) s.db r db := by
  obtain ⟨r, db, hrun, hends⟩ := settle_ends call env s
  exact ⟨r, db, hrun, hends.settles hsp hf (by decide) (by decide)⟩

end SettlementService

namespace SettlementService

/-- A step of a run of fault-free calls, each with the clock readings of its attempts. -/
def step (call : SettleCall × (ℕ → ℤ)) (s : Server) : Server :=
  ((settle call.1 { settledAt := call.2 }).run s).2

theorem step_settles (call : SettleCall × (ℕ → ℤ)) {s : Server} (hsp : s.db.savepoint = none) :
    ∃ r, Settles call.1 (call.2 1) s.db r (step call s).db := by
  let env : SettleEnv := { settledAt := call.2 }
  obtain ⟨r, db, hrun, hsettles⟩ := run_settle call.1 env hsp fun _ => rfl
  refine ⟨r, ?_⟩
  rw [step, hrun]
  exact hsettles

end SettlementService
end UpiMesh
