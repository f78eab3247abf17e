import UpiMesh.Balances
import UpiMesh.Lib.Interference
import UpiMesh.SettlementActions

/-!
# The retry loop under interference

Other callers may commit between any two steps of a `settle` call, so that every step is taken in a
state of its own. With successful saves and rollbacks a call that throws has changed nothing in any
of its steps. A call that returns a row has changed something only in its last step, which is the
write of the attempt that has just read both accounts.
-/

namespace UpiMesh.SettlementService

open Concurrent Program Int64Arith

/-- The first two steps of an attempt. -/
def reads (call : SettleCall) (faults : AttemptFaults) (s₁ s₂ : Server) : List (Action × Server) :=
  [(.findById call.instruction.senderVpa faults.findSender, s₁),
    (.findById call.instruction.receiverVpa faults.findReceiver, s₂)]

/-- The accounts that the two reads return. -/
structure Resolved (call : SettleCall) (faults : AttemptFaults) (s₁ s₂ : Server)
    (sender receiver : Account) : Prop where
  sender : AccountRepository.findById call.instruction.senderVpa faults.findSender s₁.db = some sender
  receiver : AccountRepository.findById call.instruction.receiverVpa faults.findReceiver s₂.db =
    some receiver

/-- The steps of one attempt, when `ROLLBACK` succeeds. -/
inductive Attempted (call : SettleCall) (settledAt : ℤ) (faults : AttemptFaults) :
    List (Action × Server) → AttemptResult → Prop
  | idle {steps : List (Action × Server)} {r : AttemptResult}
      (hidle : ∀ step ∈ steps, Idle Action.exec step) (hr : ∀ tx, r ≠ .returned tx) :
      Attempted call settledAt faults steps r
  | rejected {s₁ s₂ s₃ : Server} {sender receiver : Account} {tx : Transaction}
      (hreads : Resolved call faults s₁ s₂ sender receiver)
      (h : (TransactionRepository.save (call.transaction settledAt .REJECTED) faults.insert
        s₃.db).1 = .ok tx) :
      Attempted call settledAt faults (reads call faults s₁ s₂ ++
        [(.saveTransaction (call.transaction settledAt .REJECTED) faults.insert, s₃)]) (.returned tx)
  | settled {s₁ s₂ s₃ : Server} {sender receiver : Account} {tx : Transaction}
      (hreads : Resolved call faults s₁ s₂ sender receiver) (hpos : 0 < call.instruction.amount)
      (hcov : call.instruction.amount ≤ sender.balance)
      (h : (settleBlock sender receiver call settledAt faults s₃.db).1 = .committed tx) :
      Attempted call settledAt faults (reads call faults s₁ s₂ ++
        [(.settleBlock sender receiver call settledAt faults, s₃)]) (.returned tx)

variable {call : SettleCall} {settledAt : ℤ} {faults : AttemptFaults}

theorem idle_findById (vpa : String) (fault : Option StatementFault) (s : Server) :
    Idle Action.exec (.findById vpa fault, s) := rfl

theorem idle_reads (s₁ s₂ : Server) : ∀ step ∈ reads call faults s₁ s₂, Idle Action.exec step := by
  intro step hstep
  rcases List.mem_cons.mp hstep with rfl | hstep
  · exact idle_findById _ _ _
  · obtain rfl := List.mem_singleton.mp hstep
    exact idle_findById _ _ _

/-- An insert that fails changes nothing. -/
theorem idle_saveTransaction {tx : Transaction} {fault : Option StatementFault} {s : Server} {e : Exn}
    (h : (TransactionRepository.save tx fault s.db).1 = .error e) :
    Idle Action.exec (.saveTransaction tx fault, s) := by
  have hdb : (TransactionRepository.save tx fault s.db).2 = s.db := by
    cases fault with
    | some f => rfl
    | none =>
      simp only [TransactionRepository.save] at h ⊢
      split_ifs at h ⊢
      · rfl
  change { s with db := (TransactionRepository.save tx fault s.db).2 } = s
  rw [hdb]

/-- A block that rolls back changes nothing. -/
theorem idle_settleBlock {sender receiver : Account} {s : Server} (hroll : faults.rollback = none)
    (h : ∀ tx, (settleBlock sender receiver call settledAt faults s.db).1 ≠ .committed tx) :
    Idle Action.exec (.settleBlock sender receiver call settledAt faults, s) := by
  have hdb : (settleBlock sender receiver call settledAt faults s.db).2 = s.db := by
    rcases settleBlock_of_rollback sender receiver call settledAt s.db hroll with
      ⟨r, hblock, _⟩ | ⟨tx, hnew, hblock⟩
    · rw [hblock]
    · exact absurd (by rw [hblock]) (h tx)
  change { s with db := (settleBlock sender receiver call settledAt faults s.db).2 } = s
  rw [hdb]

theorem ofBlock_eq_returned {r : BlockResult} {tx : Transaction}
    (h : AttemptResult.ofBlock r = .returned tx) : r = .committed tx := by
  cases r with
  | committed tx' => exact congrArg BlockResult.committed (AttemptResult.returned.inj h)
  | thrown e => cases h
  | rolledBack e => cases h

theorem execute_afterReads (hroll : faults.rollback = none) {s₁ s₂ : Server}
    {sender receiver : Account} (hreads : Resolved call faults s₁ s₂ sender receiver) (σ : ℕ → Server) :
    Attempted call settledAt faults
      (reads call faults s₁ s₂ ++
        ((afterReads call settledAt faults sender receiver).execute Action.exec σ).1)
      ((afterReads call settledAt faults sender receiver).execute Action.exec σ).2 := by
  have hidle : ∀ {step}, Idle Action.exec step →
      ∀ step' ∈ reads call faults s₁ s₂ ++ [step], Idle Action.exec step' := by
    intro step hstep step' hmem
    rcases List.mem_append.mp hmem with hmem | hmem
    · exact idle_reads s₁ s₂ step' hmem
    · obtain rfl := List.mem_singleton.mp hmem
      exact hstep
  unfold afterReads recordRejected writeBlock
  dsimp only
  split_ifs with hpos hcov
  · rw [pure_eq, execute_ret, List.append_nil]
    exact .idle (idle_reads s₁ s₂) fun tx h => by cases h
  · rw [call_bind, execute_act]
    cases h : (TransactionRepository.save (call.transaction settledAt .REJECTED) faults.insert
        (σ 0).db).1 with
    | error e =>
      simp only [Action.exec, h]
      exact .idle (hidle (idle_saveTransaction h)) fun tx h => by cases h
    | ok tx =>
      simp only [Action.exec, h]
      exact .rejected hreads h
  · rw [call_bind, execute_act]
    by_cases h : ∃ tx, (settleBlock sender receiver call settledAt faults (σ 0).db).1 = .committed tx
    · obtain ⟨tx, h⟩ := h
      simp only [Action.exec, h]
      exact .settled hreads (not_le.mp hpos) (not_lt.mp hcov) h
    · rw [not_exists] at h
      exact .idle (hidle (idle_settleBlock hroll h)) fun tx htx => h tx (ofBlock_eq_returned htx)

theorem execute_attempt (call : SettleCall) (settledAt : ℤ) (hroll : faults.rollback = none)
    (σ : ℕ → Server) :
    Attempted call settledAt faults ((attempt call settledAt faults).execute Action.exec σ).1
      ((attempt call settledAt faults).execute Action.exec σ).2 := by
  unfold attempt findById
  rw [call_bind, execute_act]
  cases hs : AccountRepository.findById call.instruction.senderVpa faults.findSender (σ 0).db with
  | none =>
    simp only [Action.exec, hs]
    refine .idle (fun step hstep => ?_) fun tx h => by cases h
    obtain rfl := List.mem_singleton.mp hstep
    exact idle_findById _ _ _
  | some sender =>
    simp only [Action.exec, hs, call_bind, execute_act]
    cases hr : AccountRepository.findById call.instruction.receiverVpa faults.findReceiver
        (σ (0 + 1)).db with
    | none => exact .idle (idle_reads (σ 0) (σ (0 + 1))) fun tx h => by cases h
    | some receiver => exact execute_afterReads hroll ⟨hs, hr⟩ _

theorem Attempted.idle_of_ne {steps : List (Action × Server)} {r : AttemptResult}
    (h : Attempted call settledAt faults steps r) (hr : ∀ tx, r ≠ .returned tx) :
    ∀ step ∈ steps, Idle Action.exec step := by
  cases h with
  | idle hidle _ => exact hidle
  | rejected _ _ => exact absurd rfl (hr _)
  | settled _ _ _ _ => exact absurd rfl (hr _)

/-- What the steps of the loop come to: an exception after idle steps, or a row that the last of its
attempts has written. -/
structure LoopLeaves (call : SettleCall) (env : SettleEnv) (n remaining : ℕ)
    (steps : List (Action × Server)) (r : Except Exn Transaction) : Prop where
  error : ∀ e, r = .error e → ∀ step ∈ steps, Idle Action.exec step
  ok : ∀ tx, r = .ok tx → ∃ k earlier last, n ≤ k ∧ k < n + remaining ∧ steps = earlier ++ last ∧
    (∀ step ∈ earlier, Idle Action.exec step) ∧
    Attempted call (env.settledAt k) (env.faults k) last (.returned tx)

theorem execute_attempts (call : SettleCall) {env : SettleEnv}
    (hroll : ∀ n, (env.faults n).rollback = none) (n remaining : ℕ) (σ : ℕ → Server) :
    LoopLeaves call env n remaining ((attempts call env n remaining).execute Action.exec σ).1
      ((attempts call env n remaining).execute Action.exec σ).2 := by
  induction remaining generalizing n σ with
  | zero => exact ⟨fun _ _ _ hstep => absurd hstep List.not_mem_nil, fun tx h => by cases h⟩
  | succ remaining ih =>
    have hattempt := execute_attempt call (env.settledAt n) (hroll n) σ
    unfold attempts
    rw [execute_bind]
    generalize (attempt call (env.settledAt n) (env.faults n)).execute Action.exec σ = out at hattempt ⊢
    obtain ⟨steps, r⟩ := out
    dsimp only at hattempt ⊢
    cases r with
    | returned tx =>
      simp only [pure_eq, execute_ret, List.append_nil]
      refine ⟨fun e h => ?_, fun tx' h => ?_⟩
      · cases h
      · obtain rfl := Except.ok.inj h
        have hlt : n < n + (remaining + 1) := by omega
        exact ⟨n, [], steps, le_refl n, hlt, rfl, fun _ h => absurd h List.not_mem_nil, hattempt⟩
    | thrown e =>
      have hidle := hattempt.idle_of_ne fun tx h => by cases h
      simp only [pure_eq, execute_ret, List.append_nil]
      exact ⟨fun _ _ => hidle, fun tx h => by cases h⟩
    | failed e =>
      have hidle := hattempt.idle_of_ne fun tx h => by cases h
      dsimp only
      split_ifs with hn
      · simp only [pure_eq, execute_ret, List.append_nil]
        exact ⟨fun _ _ => hidle, fun tx h => by cases h⟩
      · obtain ⟨herror, hok⟩ := ih (n + 1) fun m => σ (m + steps.length)
        refine ⟨fun e he step hstep => ?_, fun tx htx => ?_⟩
        · rcases List.mem_append.mp hstep with hstep | hstep
          · exact hidle step hstep
          · exact herror e he step hstep
        · obtain ⟨k, earlier, last, hle, hlt, hsteps, hearlier, hlast⟩ := hok tx htx
          refine ⟨k, steps ++ earlier, last, by omega, by omega, ?_, fun step hstep => ?_, hlast⟩
          · rw [hsteps, List.append_assoc]
          · rcases List.mem_append.mp hstep with hstep | hstep
            · exact hidle step hstep
            · exact hearlier step hstep

/-- One row has been added. -/
def AddsRow (call : SettleCall) (tx : Transaction) (t t' : TransactionTable) : Prop :=
  ∃ row, t'.rows = t.rows ++ [row] ∧ row.id = tx.id ∧ row.status = tx.status ∧
    row.packetHash = cstr call.packetHash

/-- What the write of a settled attempt has changed, in terms of the two accounts it has read. -/
structure SettledWrite (call : SettleCall) (tx : Transaction) (sender receiver : Account)
    (t t' : Tables) : Prop where
  status : tx.status = .SETTLED
  debited : ∃ a, t'.accounts.find? sender.vpa = some a ∧ a.identity = sender.identity ∧
    a.balance = sender.balance - call.instruction.amount
  credited : ∃ a, t'.accounts.find? receiver.vpa = some a ∧ a.identity = receiver.identity ∧
    a.balance = receiver.balance + call.instruction.amount
  others : ∀ vpa, vpa ≠ sender.vpa → vpa ≠ receiver.vpa →
    t'.accounts.find? vpa = t.accounts.find? vpa
  row : AddsRow call tx t.transactions t'.transactions

structure RejectedWrite (call : SettleCall) (tx : Transaction) (t t' : Tables) : Prop where
  status : tx.status = .REJECTED
  accounts : t'.accounts = t.accounts
  row : AddsRow call tx t.transactions t'.transactions

/-- The only failures are those that the code reports and survives. -/
def SavesAndRollsBack (faults : AttemptFaults) : Prop :=
  faults.saveSender = none ∧ faults.saveReceiver = none ∧ faults.rollback = none

theorem settledWrite {sender receiver : Account} {s : Server} {tx : Transaction}
    (hfaults : SavesAndRollsBack faults) (hpos : 0 < call.instruction.amount)
    (hcov : call.instruction.amount ≤ sender.balance)
    (hfits : receiver.balance + call.instruction.amount < 2 ^ 63) (hne : sender.vpa ≠ receiver.vpa)
    (h : (settleBlock sender receiver call settledAt faults s.db).1 = .committed tx) :
    SettledWrite call tx sender receiver s.db.current
      (settleBlock sender receiver call settledAt faults s.db).2.current := by
  obtain ⟨hsender, hreceiver, -⟩ := hfaults
  have hends := settleBlock_ends sender receiver call settledAt faults s.db
  generalize settleBlock sender receiver call settledAt faults s.db = out at h hends ⊢
  obtain ⟨r, db⟩ := out
  obtain rfl : r = .committed tx := h
  cases hends with
  | committed hsp hbegin hinsert hcommit hnew =>
    have hsaved : savedAccounts sender receiver call.instruction.amount faults s.db.current.accounts =
        s.db.current.transfer sender receiver call.instruction.amount := by
      simp only [savedAccounts, hsender, hreceiver, if_true]
      rfl
    refine ⟨rfl, ⟨sender.debit call.instruction.amount, ?_, rfl, ?_⟩,
      ⟨receiver.credit call.instruction.amount, ?_, rfl, ?_⟩, fun vpa hs hr => ?_,
      s.db.current.transactions.stored (call.transaction settledAt .SETTLED), rfl, rfl, rfl, rfl⟩
    · rw [hsaved, Tables.find?_transfer, if_neg hne.symm, if_pos rfl]
    · exact sub_of_covered sender.balance_fits hpos hcov
    · rw [hsaved, Tables.find?_transfer, if_pos rfl]
    · have hlo := receiver.balance_fits.1
      exact add_of_fits ⟨by omega, hfits⟩
    · rw [hsaved, Tables.find?_transfer, if_neg hr.symm, if_neg hs.symm]

theorem rejectedWrite {s : Server} {tx : Transaction}
    (h : (TransactionRepository.save (call.transaction settledAt .REJECTED) faults.insert
      s.db).1 = .ok tx) :
    RejectedWrite call tx s.db.current
      (TransactionRepository.save (call.transaction settledAt .REJECTED) faults.insert
        s.db).2.current := by
  cases hins : faults.insert with
  | some f =>
    rw [hins] at h
    cases h
  | none =>
    rw [hins] at h
    by_cases hdup : cstr call.packetHash ∈ s.db.current.transactions.rows.map Transaction.packetHash
    · rw [save_transaction_of_mem hdup] at h
      cases h
    · rw [save_transaction_of_notMem hdup] at h ⊢
      obtain rfl := Except.ok.inj h
      exact ⟨rfl, rfl, s.db.current.transactions.stored (call.transaction settledAt .REJECTED), rfl,
        rfl, rfl, rfl⟩

/-- Whatever other callers commit in between, the steps of a call that throws change nothing, and of
a call that returns only the last one does: it writes what follows from the two reads just before. -/
theorem commits_at_most_once (call : SettleCall) (env : SettleEnv)
    (hne : cstr call.instruction.senderVpa ≠ cstr call.instruction.receiverVpa)
    (hfaults : ∀ n, SavesAndRollsBack (env.faults n)) (σ : ℕ → Server)
    (hfits : ∀ step ∈ ((settle call env).execute Action.exec σ).1, step.1.CreditFits) :
    (∀ e, ((settle call env).execute Action.exec σ).2 = .error e →
      ∀ step ∈ ((settle call env).execute Action.exec σ).1, Idle Action.exec step) ∧
    ∀ tx, ((settle call env).execute Action.exec σ).2 = .ok tx →
      ∃ n earlier s₁ s₂ sender receiver write s, 1 ≤ n ∧ n ≤ maxAttempts ∧
        ((settle call env).execute Action.exec σ).1 =
          earlier ++ (reads call (env.faults n) s₁ s₂ ++ [(write, s)]) ∧
        (∀ step ∈ earlier ++ reads call (env.faults n) s₁ s₂, Idle Action.exec step) ∧
        Resolved call (env.faults n) s₁ s₂ sender receiver ∧
        (SettledWrite call tx sender receiver s.db.current (write.exec s).2.db.current ∨
          RejectedWrite call tx s.db.current (write.exec s).2.db.current) := by
  obtain ⟨herror, hok⟩ := execute_attempts call (fun n => (hfaults n).2.2) 1 maxAttempts σ
  refine ⟨herror, fun tx htx => ?_⟩
  obtain ⟨n, earlier, last, hle, hlt, hsteps, hearlier, hlast⟩ := hok tx htx
  have hidle : ∀ s₁ s₂, ∀ step ∈ earlier ++ reads call (env.faults n) s₁ s₂,
      Idle Action.exec step := by
    intro s₁ s₂ step hstep
    rcases List.mem_append.mp hstep with hstep | hstep
    · exact hearlier step hstep
    · exact idle_reads s₁ s₂ step hstep
  generalize hr : AttemptResult.returned tx = r at hlast
  cases hlast with
  | idle _ hnot => exact absurd hr.symm (hnot tx)
  | rejected hreads h =>
    obtain rfl := AttemptResult.returned.inj hr
    exact ⟨n, earlier, _, _, _, _, _, _, hle, Nat.le_of_lt_succ (by omega), hsteps, hidle _ _,
      hreads, Or.inr (rejectedWrite h)⟩
  | @settled s₁ s₂ s₃ sender receiver _ hreads hpos hcov h =>
    obtain rfl := AttemptResult.returned.inj hr
    have hskey := Table.key_of_find? (findById_eq_some hreads.sender).2
    have hrkey := Table.key_of_find? (findById_eq_some hreads.receiver).2
    have hvpas : sender.vpa ≠ receiver.vpa := by rwa [hskey, hrkey]
    have hstep : (Action.settleBlock sender receiver call (env.settledAt n) (env.faults n), s₃) ∈
        ((settle call env).execute Action.exec σ).1 := by
      rw [settle, hsteps]
      exact List.mem_append_right _ (List.mem_append_right _ (List.mem_singleton_self _))
    have hcredit : receiver.balance + call.instruction.amount < 2 ^ 63 := hfits _ hstep
    exact ⟨n, earlier, _, _, _, _, _, _, hle, Nat.le_of_lt_succ (by omega), hsteps, hidle _ _,
      hreads, Or.inl (settledWrite (hfaults n) hpos hcov hcredit hvpas h)⟩

/-- Alice pays Bob. -/
def aliceCall : SettleCall := ⟨alicePaysBob, "h1", "phone-bridge", 1⟩

/-- The first attempt cannot commit. -/
def stubbornCommit : SettleEnv where
  settledAt _ := 0
  faults n := if n = 1 then { commit := some (.step "disk I/O error") } else {}

/-- Before the second attempt somebody else spends some of Alice's money. -/
def othersCommit (n : ℕ) : Server :=
  let paid : Account := { alice with balance := 499900, balance_fits := by decide }
  if n < 3 then Server.initial
  else { Server.initial with db := AccountRepository.save paid none Database.initial }

theorem commits_at_most_once_stubborn_commit :
    ∃ tx n earlier s₁ s₂ sender receiver write s,
      ((settle aliceCall stubbornCommit).execute Action.exec othersCommit).1 =
        earlier ++ (reads aliceCall (stubbornCommit.faults n) s₁ s₂ ++ [(write, s)]) ∧
      (∀ step ∈ earlier ++ reads aliceCall (stubbornCommit.faults n) s₁ s₂,
        Idle Action.exec step) ∧
      Resolved aliceCall (stubbornCommit.faults n) s₁ s₂ sender receiver ∧
      (SettledWrite aliceCall tx sender receiver s.db.current (write.exec s).2.db.current ∨
        RejectedWrite aliceCall tx s.db.current (write.exec s).2.db.current) := by
  have hfaults : ∀ n, SavesAndRollsBack (stubbornCommit.faults n) := by
    intro n
    simp only [stubbornCommit]
    split_ifs
    · exact ⟨rfl, rfl, rfl⟩
    · exact ⟨rfl, rfl, rfl⟩
  have hfits : ∀ step ∈ ((settle aliceCall stubbornCommit).execute Action.exec othersCommit).1,
      step.1.CreditFits := by decide +kernel
  obtain ⟨-, hok⟩ :=
    commits_at_most_once aliceCall stubbornCommit (by decide) hfaults othersCommit hfits
  obtain ⟨tx, htx⟩ : ∃ tx,
      ((settle aliceCall stubbornCommit).execute Action.exec othersCommit).2 = .ok tx := ⟨_, rfl⟩
  obtain ⟨n, earlier, s₁, s₂, sender, receiver, write, s, -, -, hsteps, hidle, hresolved, hwrite⟩ :=
    hok tx htx
  exact ⟨tx, n, earlier, s₁, s₂, sender, receiver, write, s, hsteps, hidle, hresolved, hwrite⟩

end UpiMesh.SettlementService
