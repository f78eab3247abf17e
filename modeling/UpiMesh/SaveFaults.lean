import UpiMesh.Books

/-!
# Failing account saves

`AccountRepository::save` ignores the result of its statement, so a failed save does not reach the
handler that rolls back. When nothing else fails, the first attempt commits in any case: the row is
SETTLED, and the debit or the credit whose save failed is missing.
-/

namespace UpiMesh

open Concurrent Int64Arith SettlementService

/-- The debit, the credit and one SETTLED row are stored and `settle` returned SETTLED, or it threw
and stored nothing. -/
def AllOrNothing (call : SettleCall) (sender receiver : Account) (before after : Tables)
    (r : Except Exn Transaction) : Prop :=
  (∃ tx row, r = .ok tx ∧ tx.status = .SETTLED ∧
    after.accounts = before.transfer sender receiver call.instruction.amount ∧
    after.transactions.rows = before.transactions.rows ++ [row] ∧ row.status = .SETTLED ∧
    row.packetHash = cstr call.packetHash) ∨
  (∃ e, r = .error e ∧ after = before)

/-- No statement of the attempt fails, except possibly the two account saves. -/
def OnlySavesFail (faults : AttemptFaults) : Prop :=
  faults = { saveSender := faults.saveSender, saveReceiver := faults.saveReceiver }

variable {accounts : AccountTable} {instruction : PaymentInstruction} {sender receiver : Account}
  {faults : AttemptFaults}

theorem find?_savedAccounts_sender (hc : Covered accounts instruction sender receiver)
    (hne : sender.vpa ≠ receiver.vpa) {f : StatementFault} (hf : faults.saveSender = some f) :
    (savedAccounts sender receiver instruction.amount faults accounts).find? sender.vpa =
      some sender := by
  have hfind := Table.find?_of_mem (Table.mem_of_find? hc.findSender)
  simp only [savedAccounts, hf, reduceCtorEq, if_false]
  split_ifs
  · rw [Table.find?_upsert, Account.vpa_credit, if_neg hne.symm, hfind]
  · exact hfind

theorem find?_savedAccounts_receiver (hc : Covered accounts instruction sender receiver)
    (hne : sender.vpa ≠ receiver.vpa) {f : StatementFault} (hf : faults.saveReceiver = some f) :
    (savedAccounts sender receiver instruction.amount faults accounts).find? receiver.vpa =
      some receiver := by
  have hfind := Table.find?_of_mem (Table.mem_of_find? hc.findReceiver)
  simp only [savedAccounts, hf, reduceCtorEq, if_false]
  split_ifs
  · rw [Table.find?_upsert, Account.vpa_debit, if_neg hne, hfind]
  · exact hfind

/-- Both balances change only when both saves succeed. -/
theorem savedAccounts_eq_transfer_iff {t : Tables} (hc : Covered t.accounts instruction sender receiver)
    (hne : sender.vpa ≠ receiver.vpa) :
    savedAccounts sender receiver instruction.amount faults t.accounts =
        t.transfer sender receiver instruction.amount ↔
      faults.saveSender = none ∧ faults.saveReceiver = none := by
  have hpos := hc.positive
  have hfits := instruction.amount_fits.2
  constructor
  · intro heq
    cases hs : faults.saveSender with
    | some f =>
      have hfind := find?_savedAccounts_sender hc hne hs
      rw [heq, Tables.find?_transfer, if_neg hne.symm, if_pos rfl] at hfind
      have hbal := congrArg Account.balance (Option.some.inj hfind)
      rw [Account.balance_debit, sub_of_covered sender.balance_fits hpos hc.covered] at hbal
      omega
    | none =>
      cases hr : faults.saveReceiver with
      | some f =>
        have hfind := find?_savedAccounts_receiver hc hne hr
        rw [heq, Tables.find?_transfer, if_pos rfl] at hfind
        have hbal := congrArg Account.balance (Option.some.inj hfind)
        rw [Account.balance_credit] at hbal
        exact absurd hbal (add_ne_self hpos (by omega))
      | none => exact ⟨rfl, rfl⟩
  · rintro ⟨hs, hr⟩
    simp only [savedAccounts, hs, hr, if_true, Tables.transfer]

variable {call : SettleCall} {env : SettleEnv} {s : Server}

/-- When only saves may fail, the call ends with the committed row of the first attempt. -/
theorem run_settle_of_onlySavesFail (hsp : s.db.savepoint = none)
    (hc : Covered s.db.current.accounts call.instruction sender receiver)
    (hnew : cstr call.packetHash ∉ s.db.current.transactions.rows.map Transaction.packetHash)
    (hf : OnlySavesFail (env.faults 1)) :
    (settle call env).run s =
      (.ok { call.transaction (env.settledAt 1) .SETTLED with
          id := s.db.current.transactions.sequence + 1 },
        { s with db :=
            ⟨⟨savedAccounts sender receiver call.instruction.amount (env.faults 1)
              s.db.current.accounts,
            s.db.current.transactions.insert (call.transaction (env.settledAt 1) .SETTLED) hnew⟩,
            none⟩ }) := by
  have hreads : (env.faults 1).ReadsSucceed := by
    rw [hf]
    exact ⟨rfl, rfl⟩
  have hcommits : (env.faults 1).Commits := by
    rw [hf]
    exact ⟨rfl, rfl, rfl⟩
  obtain ⟨r, db, hrun, hends⟩ := settle_ends call env s
  rw [hrun]
  cases hends with
  | returned h =>
    obtain ⟨hr, rfl⟩ := h.of_commits hsp hreads hcommits hc hnew
    obtain rfl := AttemptResult.returned.inj hr
    rfl
  | thrown h => cases (h.of_commits hsp hreads hcommits hc hnew).1
  | gaveUp h _ => cases (h.of_commits hsp hreads hcommits hc hnew).1
  | retried h _ _ => cases (h.of_commits hsp hreads hcommits hc hnew).1

/-- Settlement is all or nothing under failing saves exactly when both saves of the first attempt
succeed; no further attempt is made. -/
theorem all_or_nothing_iff (hsp : s.db.savepoint = none)
    (hc : Covered s.db.current.accounts call.instruction sender receiver)
    (hne : sender.vpa ≠ receiver.vpa)
    (hnew : cstr call.packetHash ∉ s.db.current.transactions.rows.map Transaction.packetHash)
    (hf : ∀ n, OnlySavesFail (env.faults n)) :
    AllOrNothing call sender receiver s.db.current ((settle call env).run s).2.db.current
        ((settle call env).run s).1 ↔
      (env.faults 1).saveSender = none ∧ (env.faults 1).saveReceiver = none := by
  rw [run_settle_of_onlySavesFail hsp hc hnew (hf 1), ← savedAccounts_eq_transfer_iff hc hne]
  constructor
  · rintro (⟨_, _, _, _, haccounts, _⟩ | ⟨_, herror, _⟩)
    · exact haccounts
    · cases herror
  · intro haccounts
    exact Or.inl ⟨_, _, rfl, rfl, haccounts, rfl, rfl, rfl⟩

/-- Alice pays Bob, and the save of Bob's account cannot be prepared. -/
def creditLost : SettleCall := ⟨alicePaysBob, "h", "phone-bridge", 1⟩

def creditLostEnv : SettleEnv where
  settledAt _ := 0
  faults _ := { saveReceiver := some (.prepare "out of memory") }

/-- The call returns SETTLED, Alice has paid and Bob has received nothing. -/
theorem credit_lost :
    (((settle creditLost creditLostEnv).run Server.initial).1.map Transaction.status).toOption =
        some .SETTLED ∧
      ((settle creditLost creditLostEnv).run Server.initial).2.db.current.accounts.rows.map
        Account.balance = [499000, 100000, 250000, 50000] ∧
      ¬ AllOrNothing creditLost alice bob Server.initial.db.current
        ((settle creditLost creditLostEnv).run Server.initial).2.db.current
        ((settle creditLost creditLostEnv).run Server.initial).1 := by
  have hstatus : (((settle creditLost creditLostEnv).run Server.initial).1.map
      Transaction.status).toOption = some .SETTLED := by decide
  have hbalances : ((settle creditLost creditLostEnv).run Server.initial).2.db.current.accounts.rows.map
      Account.balance = [499000, 100000, 250000, 50000] := by decide
  refine ⟨hstatus, hbalances, ?_⟩
  rintro (⟨_, _, _, _, haccounts, _⟩ | ⟨e, herror, _⟩)
  · rw [haccounts] at hbalances
    exact absurd hbalances (by decide)
  · rw [herror] at hstatus
    cases hstatus

theorem all_or_nothing_iff_credit_lost :
    AllOrNothing creditLost alice bob Server.initial.db.current
        ((settle creditLost creditLostEnv).run Server.initial).2.db.current
        ((settle creditLost creditLostEnv).run Server.initial).1 ↔
      (creditLostEnv.faults 1).saveSender = none ∧ (creditLostEnv.faults 1).saveReceiver = none :=
  all_or_nothing_iff rfl ⟨⟨by decide, by decide, by decide⟩, by decide⟩ (by decide) (by decide)
    fun _ => rfl

end UpiMesh
