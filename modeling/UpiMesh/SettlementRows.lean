import UpiMesh.SettlementSpec

/-!
# Which row a `settle` call stores

A SETTLED row is stored by the first attempt that gets through its insert, either committed or left
in a transaction that can be neither committed nor rolled back. All attempts before it must have
been rolled back. Every other call stores a REJECTED row or none.
-/

namespace UpiMesh

open SettlementService

namespace AttemptFaults

/-- The write block is rolled back and the attempt repeated. -/
def Retries (faults : AttemptFaults) : Prop :=
  faults.beginImmediate = none ∧ faults.rollback = none ∧
    (faults.insert ≠ none ∨ faults.commit ≠ none)

/-- The inserted row stays, committed or not. -/
def Stores (faults : AttemptFaults) : Prop :=
  faults.beginImmediate = none ∧ faults.insert = none ∧
    (faults.commit = none ∨ faults.rollback ≠ none)

theorem Stores.not_retries {faults : AttemptFaults} (hs : faults.Stores) (hr : faults.Retries) :
    False := by
  obtain ⟨_, hins, hcom⟩ := hs
  obtain ⟨_, hroll, hfail⟩ := hr
  exact hcom.elim (fun hcom => hfail.elim (fun h => h hins) fun h => h hcom) fun h => h hroll

end AttemptFaults

/-- One of the attempts from `n` on stores the row, and those before it are repeated. -/
def SettleEnv.StoresFrom (env : SettleEnv) : (n remaining : ℕ) → Prop
  | _, 0 => False
  | n, remaining + 1 =>
    (env.faults n).ReadsSucceed ∧
      ((env.faults n).Stores ∨ (env.faults n).Retries ∧ env.StoresFrom (n + 1) remaining)

/-- The call stores a SETTLED row. -/
structure StoresSettled (call : SettleCall) (env : SettleEnv) (db : Database) : Prop where
  closed : db.savepoint = none
  covered : ∃ sender receiver, Covered db.current.accounts call.instruction sender receiver
  new : cstr call.packetHash ∉ db.current.transactions.rows.map Transaction.packetHash
  stores : env.StoresFrom 1 maxAttempts

namespace SettlementService

variable {call : SettleCall} {env : SettleEnv} {db db' : Database} {n remaining : ℕ}
  {r : Except Exn Transaction}

/-- The transactions table after one more row. -/
def Appends (call : SettleCall) (status : Status) (db db' : Database) : Prop :=
  ∃ settledAt, db'.current.transactions.rows = db.current.transactions.rows ++
    [db.current.transactions.stored (call.transaction settledAt status)]

/-- An attempt that stores the row of a covered call with a new hash, or is repeated. -/
theorem AttemptEnds.appends_settled {settledAt : ℤ} {faults : AttemptFaults} {r : AttemptResult}
    (h : AttemptEnds call settledAt faults db r db') (hsp : db.savepoint = none)
    (hreads : faults.ReadsSucceed) {sender receiver : Account}
    (hc : Covered db.current.accounts call.instruction sender receiver)
    (hnew : cstr call.packetHash ∉ db.current.transactions.rows.map Transaction.packetHash)
    (hfaults : faults.Stores ∨ faults.Retries) :
    Appends call .SETTLED db db' ∨ (∃ e, r = .failed e) ∧ faults.Retries := by
  obtain ⟨b, rfl, hblock⟩ := h.of_covered hreads hc
  have hbegin : faults.beginImmediate = none := hfaults.elim (fun h => h.1) fun h => h.1
  cases hblock with
  | unbegun hopen => exact absurd hbegin (hopen.resolve_left (not_not.mpr hsp))
  | committed _ _ _ _ _ => exact Or.inl ⟨settledAt, rfl⟩
  | rolledBack _ _ hroll hfail _ =>
    rcases hfaults with ⟨_, hins, hcom⟩ | hretries
    · have hcommit := hcom.resolve_right (not_not.mpr hroll)
      exact absurd hfail (by simp [BlockFails, hins, hcommit, hnew])
    · exact Or.inr ⟨⟨_, rfl⟩, hretries⟩
  | leftOpen _ _ hroll _ _ ht =>
    rcases hfaults with hstores | hretries
    · rcases ht with ⟨_, hins | hdup⟩ | ⟨_, _, _, ht⟩
      · exact absurd hstores.2.1 hins
      · exact absurd hdup hnew
      · refine Or.inl ⟨settledAt, ?_⟩
        simp only [ht]
        rfl
    · exact absurd hretries.2.1 hroll

theorem AttemptsEnd.appends_settled (h : AttemptsEnd call env db n remaining r db')
    (hsp : db.savepoint = none) {sender receiver : Account}
    (hc : Covered db.current.accounts call.instruction sender receiver)
    (hnew : cstr call.packetHash ∉ db.current.transactions.rows.map Transaction.packetHash)
    (hmax : n + remaining = maxAttempts + 1) (hstores : env.StoresFrom n remaining) :
    Appends call .SETTLED db db' := by
  induction h with
  | exhausted => exact hstores.elim
  | returned h =>
    obtain ⟨hreads, hfaults⟩ := hstores
    rcases h.appends_settled hsp hreads hc hnew (hfaults.imp_right fun h => h.1) with
      happ | ⟨⟨_, hr⟩, _⟩
    · exact happ
    · cases hr
  | thrown h =>
    obtain ⟨hreads, hfaults⟩ := hstores
    rcases h.appends_settled hsp hreads hc hnew (hfaults.imp_right fun h => h.1) with
      happ | ⟨⟨_, hr⟩, _⟩
    · exact happ
    · cases hr
  | @gaveUp n remaining e h hn =>
    obtain ⟨hreads, hstores | ⟨_, hstores⟩⟩ := hstores
    · rcases h.appends_settled hsp hreads hc hnew (Or.inl hstores) with happ | ⟨_, hretries⟩
      · exact happ
      · exact (hstores.not_retries hretries).elim
    · obtain rfl : remaining = 0 := by omega
      exact hstores.elim
  | retried h _ _ ih =>
    obtain ⟨hreads, hstores | ⟨_, hstores⟩⟩ := hstores
    · rcases h.appends_settled hsp hreads hc hnew (Or.inl hstores) with happ | ⟨_, hretries⟩
      · obtain ⟨settledAt, hrows⟩ := happ
        simp at hrows
      · exact (hstores.not_retries hretries).elim
    · exact ih (by omega) hstores

theorem AttemptsEnd.appends_rejected (h : AttemptsEnd call env db n remaining r db')
    (hnot : ¬ (db.savepoint = none ∧
      (∃ sender receiver, Covered db.current.accounts call.instruction sender receiver) ∧
      cstr call.packetHash ∉ db.current.transactions.rows.map Transaction.packetHash ∧
      env.StoresFrom n remaining)) :
    db'.current.transactions.rows = db.current.transactions.rows ∨ Appends call .REJECTED db db' := by
  induction h with
  | exhausted => exact Or.inl rfl
  | @returned n remaining tx db' h =>
    generalize hr : AttemptResult.returned tx = r at h
    cases h with
    | rejected _ _ _ _ => exact Or.inr ⟨env.settledAt n, rfl⟩
    | block hreads hc hblock =>
      cases hblock with
      | committed hsp hbegin hins hcom hnew =>
        exact absurd ⟨hsp, ⟨_, _, hc⟩, hnew, hreads, Or.inl ⟨hbegin, hins, Or.inl hcom⟩⟩ hnot
      | _ => cases hr
    | _ => cases hr
  | @thrown n remaining e db' h =>
    generalize hr : AttemptResult.thrown e = r at h
    cases h with
    | rejected _ _ _ _ => cases hr
    | block hreads hc hblock =>
      cases hblock with
      | unbegun _ => exact Or.inl rfl
      | committed _ _ _ _ _ => cases hr
      | rolledBack _ _ _ _ _ => cases hr
      | leftOpen hsp hbegin hroll _ _ ht =>
        rcases ht with ⟨ht, _⟩ | ⟨hnew, hins, _, _⟩
        · simp only [ht, true_or]
        · exact absurd ⟨hsp, ⟨_, _, hc⟩, hnew, hreads, Or.inl ⟨hbegin, hins, Or.inr hroll⟩⟩ hnot
    | _ => exact Or.inl rfl
  | gaveUp _ _ => exact Or.inl rfl
  | retried h _ _ ih =>
    obtain ⟨-, -, hreads, -, hbegin, hroll, hfail, -⟩ := h.of_failed
    refine ih fun ⟨hsp, hc, hnew, hstores⟩ => hnot ⟨hsp, hc, hnew, hreads, Or.inr ⟨⟨hbegin, hroll, ?_⟩,
      hstores⟩⟩
    rcases hfail with hins | hcom | hdup
    · exact Or.inl hins
    · exact Or.inr hcom
    · exact absurd hdup hnew

theorem AttemptsEnd.mem_rows (h : AttemptsEnd call env db n remaining r db')
    (hmax : n + remaining = maxAttempts + 1) {packetHash : String}
    (hmem : packetHash ∈ db'.current.transactions.rows.map Transaction.packetHash) :
    packetHash ∈ db.current.transactions.rows.map Transaction.packetHash ∨
      packetHash = cstr call.packetHash := by
  have hrows : db'.current.transactions.rows = db.current.transactions.rows ∨
      ∃ status, Appends call status db db' := by
    by_cases hstores : db.savepoint = none ∧
        (∃ sender receiver, Covered db.current.accounts call.instruction sender receiver) ∧
        cstr call.packetHash ∉ db.current.transactions.rows.map Transaction.packetHash ∧
        env.StoresFrom n remaining
    · obtain ⟨hsp, ⟨sender, receiver, hc⟩, hnew, hstores⟩ := hstores
      exact Or.inr ⟨_, h.appends_settled hsp hc hnew hmax hstores⟩
    · exact (h.appends_rejected hstores).imp_right fun h => ⟨_, h⟩
  rcases hrows with hrows | ⟨status, settledAt, hrows⟩
  · exact Or.inl (hrows ▸ hmem)
  · rw [hrows, List.map_append, List.mem_append, List.map_singleton, List.mem_singleton] at hmem
    exact hmem

/-- A call that is not payable leaves the database alone. -/
theorem AttemptsEnd.db_of_not_payable (h : AttemptsEnd call env db n remaining r db')
    (hnot : ∀ sender receiver, ¬ Payable db.current.accounts call.instruction sender receiver) :
    db' = db := by
  have hattempt : ∀ {settledAt faults r db'}, AttemptEnds call settledAt faults db r db' → db' = db := by
    intro settledAt faults r db' h
    cases h with
    | rejected _ hshort _ _ => exact absurd hshort.toPayable (hnot _ _)
    | block _ hc _ => exact absurd hc.toPayable (hnot _ _)
    | _ => rfl
  induction h with
  | exhausted => rfl
  | returned h => exact hattempt h
  | thrown h => exact hattempt h
  | gaveUp _ _ => rfl
  | retried _ _ _ ih => exact ih

end SettlementService

/-- A call without faults stores one row or none. -/
theorem Settles.appends {call : SettleCall} {settledAt : ℤ} {db db' : Database}
    {r : Except Exn Transaction} (h : Settles call settledAt db r db') :
    db'.current.transactions.rows = db.current.transactions.rows ∨
      ∃ status, (status = .SETTLED ∨ status = .REJECTED) ∧ Appends call status db db' := by
  cases h with
  | rejected _ _ => exact Or.inr ⟨.REJECTED, Or.inr rfl, settledAt, rfl⟩
  | settled _ _ => exact Or.inr ⟨.SETTLED, Or.inl rfl, settledAt, rfl⟩
  | _ => exact Or.inl rfl

/-- After a payable call its hash is stored. -/
theorem Settles.mem_rows {call : SettleCall} {settledAt : ℤ} {db db' : Database}
    {r : Except Exn Transaction} (h : Settles call settledAt db r db') {sender receiver : Account}
    (hpay : Payable db.current.accounts call.instruction sender receiver) :
    cstr call.packetHash ∈ db'.current.transactions.rows.map Transaction.packetHash := by
  have hinsert : ∀ (status : Status) (hnew : cstr (call.transaction settledAt status).packetHash ∉
        db.current.transactions.rows.map Transaction.packetHash),
      cstr call.packetHash ∈ (db.current.transactions.insert
        (call.transaction settledAt status) hnew).rows.map Transaction.packetHash := by
    intro status hnew
    simp only [TransactionTable.insert, List.map_append, List.map_singleton, List.mem_append,
      List.mem_singleton]
    exact Or.inr rfl
  rcases h.of_payable hpay with ⟨_, rfl, hdup⟩ | ⟨_, hnew, _, rfl⟩ | ⟨_, hnew, _, rfl⟩
  · exact hdup
  · exact hinsert .REJECTED hnew
  · exact hinsert .SETTLED hnew

/-- One of the attempts from `n` on commits, and those before it are repeated. -/
def SettleEnv.CompletesFrom (env : SettleEnv) : (n remaining : ℕ) → Prop
  | _, 0 => False
  | n, remaining + 1 =>
    (env.faults n).ReadsSucceed ∧
      ((env.faults n).Commits ∨ (env.faults n).Retries ∧ env.CompletesFrom (n + 1) remaining)

namespace SettlementService

variable {call : SettleCall} {env : SettleEnv} {db db' : Database} {n remaining : ℕ}
  {r : Except Exn Transaction}

/-- An attempt with successful reads that commits or repeats does not throw. -/
theorem AttemptEnds.not_thrown {settledAt : ℤ} {faults : AttemptFaults} {e : Exn}
    (h : AttemptEnds call settledAt faults db (.thrown e) db') (hsp : db.savepoint = none)
    (hreads : faults.ReadsSucceed) {sender receiver : Account}
    (hc : Covered db.current.accounts call.instruction sender receiver)
    (hnew : cstr call.packetHash ∉ db.current.transactions.rows.map Transaction.packetHash)
    (hfaults : faults.Commits ∨ faults.Retries) : False := by
  obtain ⟨b, hb, hblock⟩ := h.of_covered hreads hc
  rcases hfaults with hcommits | ⟨hbegin, hroll, _⟩
  · obtain ⟨rfl, _⟩ := hblock.of_commits hsp hcommits hnew
    cases hb
  · cases hblock with
    | unbegun hopen => exact absurd hbegin (hopen.resolve_left (not_not.mpr hsp))
    | committed _ _ _ _ _ => cases hb
    | rolledBack _ _ _ _ _ => cases hb
    | leftOpen _ _ hroll' _ _ _ => exact hroll' hroll

theorem AttemptsEnd.ok_of_completes (h : AttemptsEnd call env db n remaining r db')
    (hsp : db.savepoint = none) {sender receiver : Account}
    (hc : Covered db.current.accounts call.instruction sender receiver)
    (hnew : cstr call.packetHash ∉ db.current.transactions.rows.map Transaction.packetHash)
    (hmax : n + remaining = maxAttempts + 1) (hcompletes : env.CompletesFrom n remaining) :
    ∃ tx, r = .ok tx := by
  induction h with
  | exhausted => exact hcompletes.elim
  | returned _ => exact ⟨_, rfl⟩
  | thrown h =>
    obtain ⟨hreads, hcompletes⟩ := hcompletes
    exact (h.not_thrown hsp hreads hc hnew (hcompletes.imp_right fun h => h.1)).elim
  | @gaveUp n remaining e h hn =>
    obtain ⟨hreads, hcommits | ⟨_, hcompletes⟩⟩ := hcompletes
    · cases (h.of_commits hsp hreads hcommits hc hnew).1
    · obtain rfl : remaining = 0 := by omega
      exact hcompletes.elim
  | retried h _ _ ih =>
    obtain ⟨hreads, hcommits | ⟨_, hcompletes⟩⟩ := hcompletes
    · cases (h.of_commits hsp hreads hcommits hc hnew).1
    · exact ih (by omega) hcompletes

theorem AttemptsEnd.ok_of_short (h : AttemptsEnd call env db n (remaining + 1) r db')
    {sender receiver : Account}
    (hshort : Short db.current.accounts call.instruction sender receiver)
    (hnew : cstr call.packetHash ∉ db.current.transactions.rows.map Transaction.packetHash)
    (hreads : (env.faults n).ReadsSucceed) (hinsert : (env.faults n).insert = none) :
    ∃ tx, r = .ok tx := by
  cases h with
  | returned _ => exact ⟨_, rfl⟩
  | thrown h =>
    rcases h.of_payable hreads hshort.toPayable with ⟨hc, _⟩ | ⟨_, ⟨_, _, hstop⟩ | ⟨_, hr⟩⟩
    · exact (hc.not_short hshort).elim
    · exact absurd (hstop.resolve_left (not_not.mpr hinsert)) hnew
    · cases hr
  | gaveUp h _ =>
    obtain ⟨-, -, -, ⟨_, _, hc⟩, -⟩ := h.of_failed
    exact (hc.not_short hshort).elim
  | retried h _ _ =>
    obtain ⟨-, -, -, ⟨_, _, hc⟩, -⟩ := h.of_failed
    exact (hc.not_short hshort).elim

end SettlementService
end UpiMesh
