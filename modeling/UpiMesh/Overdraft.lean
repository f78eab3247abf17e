import UpiMesh.SettlementActions

/-!
# No overdraft

A call checks the balance on its own copy of the sender and writes that copy back. However stale the
copy is, it was once a stored balance, so it is not negative, and what is left after the debit is
not either. The invariant is therefore carried by the copies: every response of a read that a call
may still use is an account that is not overdrawn.
-/

namespace UpiMesh

open Concurrent Int64Arith

/-- A `settle` call, or a call of `Database::reset`. -/
inductive SettlementOp where
  | settle (call : SettleCall) (env : SettleEnv)
  | reset (faults : ResetFaults)

def SettlementOp.program : SettlementOp → Service (Option (Except Exn Transaction))
  | .settle call env => do
    let r ← SettlementService.settle call env
    pure (some r)
  | .reset faults => do
    let _ ← Program.call (Action.resetDatabase faults)
    pure none

/-- The balances a write block writes are not negative. -/
def Action.WritesNonneg : Action → Prop
  | .settleBlock sender receiver call _ _ =>
      0 ≤ (sender.debit call.instruction.amount).balance ∧
        0 ≤ (receiver.credit call.instruction.amount).balance
  | _ => True

def Account.Solvent (a : Account) : Prop := 0 ≤ a.balance

def Tables.Solvent (t : Tables) : Prop := ∀ a ∈ t.accounts.rows, a.Solvent

/-- Nobody is overdrawn, also in the tables that `ROLLBACK` would return to. -/
structure Database.Solvent (db : Database) : Prop where
  current : db.current.Solvent
  savepoint : ∀ t, db.savepoint = some t → t.Solvent

/-- What the calls and the resets may do. -/
def solventProtocol : Protocol Action Action.Response Unit :=
  .stateless (fun a => (∃ faults, a = .resetDatabase faults) ∨ ∃ call env,
    SettlementService.Performs Account.Solvent call env a) (SettlementService.Reads Account.Solvent)

theorem SettlementOp.follows (op : SettlementOp) :
    op.program.Follows solventProtocol (fun _ _ => True) () := by
  cases op with
  | settle call env =>
    have hsettle : (SettlementService.settle call env).Follows solventProtocol
        (fun _ _ => True) () := by
      apply (SettlementService.settle_follows Account.Solvent call env).weaken
      · exact fun _ a ha => Or.inr ⟨call, env, ha⟩
      · exact fun _ _ hr => hr
      · exact fun _ _ _ => rfl
    exact hsettle.bind fun _ _ _ => trivial
  | reset faults => exact ⟨Or.inl ⟨faults, rfl⟩, fun _ _ => trivial⟩

section Accounts

variable {sender receiver : Account} {amount : ℤ}

theorem solvent_debit (hpos : 0 < amount) (hcov : amount ≤ sender.balance) :
    (sender.debit amount).Solvent := by
  have hsub := sub_of_covered sender.balance_fits hpos hcov
  unfold Account.Solvent
  rw [Account.balance_debit, hsub]
  omega

theorem Account.Solvent.credit (h : receiver.Solvent) (hpos : 0 < amount)
    (hfits : receiver.balance + amount < 2 ^ 63) : (receiver.credit amount).Solvent := by
  unfold Account.Solvent at h ⊢
  have hadd : add receiver.balance amount = receiver.balance + amount := by
    apply add_of_fits
    constructor <;> omega
  rw [Account.balance_credit, hadd]
  omega

end Accounts

namespace Database.Solvent

variable {db : Database}

theorem initial : Database.initial.Solvent := by
  refine ⟨?_, fun t ht => by cases ht⟩
  unfold Tables.Solvent Account.Solvent
  decide

/-- However far a reset gets, it leaves the accounts as they are, none or the seeded ones. -/
theorem reset (h : db.Solvent) (faults : ResetFaults) : (db.reset faults).2.Solvent := by
  have hends := reset_ends faults db
  refine ⟨?_, fun t ht => h.savepoint t (hends.savepoint.symm.trans ht)⟩
  unfold Tables.Solvent
  rcases hends.accounts with hsame | hnone | hseed
  · rw [hsame]
    exact h.current
  · rw [hnone]
    exact fun a ha => absurd ha List.not_mem_nil
  · rw [hseed]
    exact initial.current

theorem findById (h : db.Solvent) {vpa : String} {fault : Option StatementFault} {a : Account}
    (ha : AccountRepository.findById vpa fault db = some a) : a.Solvent := by
  cases fault with
  | some f => cases ha
  | none => exact h.current a (Table.mem_of_find? ha)

theorem saveTransaction (h : db.Solvent) (tx : Transaction) (fault : Option StatementFault) :
    (TransactionRepository.save tx fault db).2.Solvent := by
  cases fault with
  | some f => exact h
  | none =>
    unfold TransactionRepository.save
    dsimp only
    split_ifs
    · exact h
    · exact ⟨h.current, h.savepoint⟩

/-- The copies may be stale: it is enough that each of them was once a stored account. -/
theorem settleBlock (h : db.Solvent) {sender receiver : Account} {call : SettleCall}
    (settledAt : ℤ) (faults : AttemptFaults) (hr : receiver.Solvent)
    (hpos : 0 < call.instruction.amount) (hcov : call.instruction.amount ≤ sender.balance)
    (hfits : receiver.balance + call.instruction.amount < 2 ^ 63) :
    (UpiMesh.settleBlock sender receiver call settledAt faults db).2.Solvent := by
  have hsaved : ∀ a ∈ (savedAccounts sender receiver call.instruction.amount faults
      db.current.accounts).rows, a.Solvent :=
    forall_savedAccounts h.current (solvent_debit hpos hcov) (hr.credit hpos hfits)
  have hends := settleBlock_ends sender receiver call settledAt faults db
  generalize UpiMesh.settleBlock sender receiver call settledAt faults db = out at hends ⊢
  obtain ⟨r, db'⟩ := out
  cases hends with
  | unbegun _ => exact h
  | committed _ _ _ _ _ => exact ⟨hsaved, fun t ht => by cases ht⟩
  | rolledBack _ _ _ _ _ => exact h
  | leftOpen _ _ _ _ haccounts _ =>
    refine ⟨?_, fun t ht => ?_⟩
    · unfold Tables.Solvent
      rw [haccounts]
      exact hsaved
    · obtain rfl := Option.some.inj ht
      exact h.current

end Database.Solvent

/-- No allowed action overdraws an account, as long as the credits fit. -/
theorem preserved_solvent {ι : Type} [DecidableEq ι] :
    Pool.Preserved Action.exec (fun (_ : ι) a _ => a.CreditFits) solventProtocol
      fun s _ => s.db.Solvent := by
  refine ⟨fun i a s γ hinv hallows _ => ?_, fun i a s γ hinv hallows hfits => ?_⟩
  · rcases hallows with ⟨faults, rfl⟩ | ⟨call, env, hperforms⟩
    · exact trivial
    · cases hperforms with
      | findById => exact fun account ha => hinv.findById ha
      | settleBlock _ _ _ _ => exact trivial
      | saveTransaction => exact trivial
  · rcases hallows with ⟨faults, rfl⟩ | ⟨call, env, hperforms⟩
    · exact hinv.reset faults
    · cases hperforms with
      | findById => exact hinv
      | settleBlock _ hr hpos hcov => exact hinv.settleBlock _ _ hr hpos hcov hfits
      | saveTransaction => exact hinv.saveTransaction _ _

/-- Under any schedule of settlements and resets whose credits fit, no stored balance is negative,
and neither is a balance that a call is about to write. -/
theorem no_overdraft {ι : Type} [DecidableEq ι] (ops : ι → SettlementOp) (trace : List (ι × Action))
    (c : Pool ι Action Action.Response (Option (Except Exn Transaction)) Server)
    (hrun : Pool.Run Action.exec (fun _ a _ => a.CreditFits)
      ⟨Server.initial, fun i => (ops i).program⟩ trace c) :
    (∀ a ∈ c.shared.db.current.accounts.rows, 0 ≤ a.balance) ∧
      ∀ i a next, c.threads i = .act a next → a.CreditFits → a.WritesNonneg := by
  obtain ⟨γ, hinv, hfollow⟩ := hrun.follow preserved_solvent (γ := fun _ => ())
    Database.Solvent.initial fun i => (ops i).follows
  refine ⟨hinv.current, fun i a next hi hfits => ?_⟩
  rcases hfollow.allows hi with ⟨faults, rfl⟩ | ⟨call, env, hperforms⟩
  · exact trivial
  · cases hperforms with
    | findById => exact trivial
    | settleBlock _ hr hpos hcov => exact ⟨solvent_debit hpos hcov, hr.credit hpos hfits⟩
    | saveTransaction => exact trivial

/-- Alice pays Bob all she has. -/
def alicePaysBobAll : PaymentInstruction :=
  { alicePaysBob with amount := alice.balance, amount_fits := alice.balance_fits }

/-- Two such payments, and a reset. -/
def spendTwice : Fin 3 → SettlementOp
  | 0 => .settle ⟨alicePaysBobAll, "h1", "phone-bridge", 1⟩ { settledAt := fun _ => 0 }
  | 1 => .settle ⟨alicePaysBobAll, "h2", "phone-bridge", 1⟩ { settledAt := fun _ => 0 }
  | 2 => .reset {}

/-- Both payments are covered by the same balance. -/
theorem no_overdraft_spend_twice :
    ∃ trace c, Pool.Run Action.exec (fun _ a _ => a.CreditFits)
        ⟨Server.initial, fun i => (spendTwice i).program⟩ trace c ∧
      c.shared.db.current.transactions.rows.map (·.status) = [.SETTLED, .SETTLED] ∧
      (∀ a ∈ c.shared.db.current.accounts.rows, 0 ≤ a.balance) ∧
      ∀ i a next, c.threads i = .act a next → a.CreditFits → a.WritesNonneg := by
  let start : Pool (Fin 3) Action Action.Response (Option (Except Exn Transaction)) Server :=
    ⟨Server.initial, fun i => (spendTwice i).program⟩
  let schedule : List (Fin 3) := [0, 0, 1, 1, 0, 1]
  have hcredit : (100000 : ℤ) + 500000 < 2 ^ 63 := by decide
  have hadmissible : Pool.Admissible Action.exec (fun _ a _ => a.CreditFits) schedule start :=
    ⟨trivial, trivial, trivial, trivial, hcredit, hcredit, trivial⟩
  obtain ⟨trace, hrun⟩ := Pool.Run.of_schedule hadmissible
  have hrows : (schedule.foldl (Pool.advance Action.exec)
      start).shared.db.current.transactions.rows.map (·.status) = [.SETTLED, .SETTLED] := by
    decide +kernel
  exact ⟨trace, _, hrun, hrows, no_overdraft spendTwice trace _ hrun⟩

end UpiMesh
