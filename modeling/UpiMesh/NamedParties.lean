import UpiMesh.Answers

/-!
# The parties named and the parties charged

The VPAs of an instruction are counted strings, and the statements that look them up and store them
bind C strings. A VPA that goes on after a NUL is looked up without what follows, so that the guard
against unknown parties lets it pass: another account is charged, and the row that is stored differs
from the one that `settle` returns.
-/

namespace UpiMesh

open Concurrent SettlementService

theorem cstr_eq_self_iff {s : String} : cstr s = s ↔ NulFree s := by
  refine ⟨fun h hmem => ?_, cstr_of_notMem⟩
  rw [← h, toList_cstr] at hmem
  simpa using List.mem_takeWhile_imp hmem

theorem Account.nulFree_vpa (a : Account) : NulFree a.vpa := cstr_eq_self_iff.mp a.vpa_text

/-- A settled call has committed the write block of one of its attempts. -/
theorem SettlementService.AttemptsEnd.of_settled {call : SettleCall} {env : SettleEnv}
    {db db' : Database} {n remaining : ℕ} {tx : Transaction}
    (h : AttemptsEnd call env db n remaining (.ok tx) db') (hstatus : tx.status = .SETTLED) :
    ∃ m sender receiver hnew, Covered db.current.accounts call.instruction sender receiver ∧
      tx = { call.transaction (env.settledAt m) .SETTLED with
        id := db.current.transactions.sequence + 1 } ∧
      db' = ⟨⟨savedAccounts sender receiver call.instruction.amount (env.faults m)
          db.current.accounts,
        db.current.transactions.insert (call.transaction (env.settledAt m) .SETTLED) hnew⟩,
        none⟩ := by
  generalize hr : Except.ok tx = r at h
  induction h with
  | @returned n remaining tx' db' h =>
    obtain rfl := Except.ok.inj hr
    generalize hreturned : AttemptResult.returned tx = r at h
    cases h with
    | rejected _ _ _ _ =>
      obtain rfl := AttemptResult.returned.inj hreturned
      cases hstatus
    | block _ hc hblock =>
      cases hblock with
      | committed _ _ _ _ hnew =>
        obtain rfl := AttemptResult.returned.inj hreturned
        exact ⟨n, _, _, hnew, hc, rfl, rfl⟩
      | _ => cases hreturned
    | _ => cases hreturned
  | retried _ _ _ ih => exact ih hr
  | _ => cases hr

/-- The accounts that have been charged, and the row that has been stored, are the ones that the
instruction and the returned transaction name. -/
structure ChargesNamed (i : PaymentInstruction) (env : SettleEnv) (tx : Transaction)
    (db db' : Database) : Prop where
  accounts : ∃ n sender receiver, sender ∈ db.current.accounts.rows ∧ sender.vpa = i.senderVpa ∧
    receiver ∈ db.current.accounts.rows ∧ receiver.vpa = i.receiverVpa ∧
    db'.current.accounts =
      savedAccounts sender receiver i.amount (env.faults n) db.current.accounts
  row : ∃ row ∈ db'.current.transactions.rows, row.id = tx.id ∧ row.senderVpa = tx.senderVpa ∧
    row.receiverVpa = tx.receiverVpa

/-- Whatever the accounts and the faults are, a settled call charges and stores the parties that it
names exactly when no name contains a NUL. -/
theorem chargesNamed_iff (call : SettleCall) (env : SettleEnv) {s s' : Server} {tx : Transaction}
    (hrun : (settle call env).run s = (.ok tx, s')) (hstatus : tx.status = .SETTLED) :
    ChargesNamed call.instruction env tx s.db s'.db ↔
      NulFree call.instruction.senderVpa ∧ NulFree call.instruction.receiverVpa := by
  obtain ⟨r, db, hrun', hends⟩ := settle_ends call env s
  obtain ⟨rfl, rfl⟩ := Prod.mk.inj (hrun.symm.trans hrun')
  obtain ⟨n, sender, receiver, hnew, hc, rfl, rfl⟩ := hends.of_settled hstatus
  constructor
  · rintro ⟨⟨-, sender', receiver', -, hsender, -, hreceiver, -⟩, -⟩
    rw [← hsender, ← hreceiver]
    exact ⟨sender'.nulFree_vpa, receiver'.nulFree_vpa⟩
  · rintro ⟨hs, hr⟩
    have hsender : sender.vpa = call.instruction.senderVpa := by
      rw [Table.key_of_find? hc.findSender, cstr_of_notMem hs]
    have hreceiver : receiver.vpa = call.instruction.receiverVpa := by
      rw [Table.key_of_find? hc.findReceiver, cstr_of_notMem hr]
    refine ⟨⟨n, sender, receiver, Table.mem_of_find? hc.findSender, hsender,
      Table.mem_of_find? hc.findReceiver, hreceiver, rfl⟩, _,
      List.mem_append_right _ (List.mem_singleton_self _), rfl, ?_, ?_⟩
    · exact cstr_of_notMem hs
    · exact cstr_of_notMem hr

def settledAtOnce : SettleEnv := { settledAt := fun _ => 0 }

/-- What `settle` returns for a payment that is the first one of a fresh database. -/
def firstTransaction (i : PaymentInstruction) : Transaction :=
  { SettleCall.transaction ⟨i, "h1", "phone-bridge", 1⟩ 0 .SETTLED with id := 1 }

theorem chargesNamed_iff_alice :
    ChargesNamed alicePaysBob settledAtOnce (firstTransaction alicePaysBob) Server.initial.db
        ((settle ⟨alicePaysBob, "h1", "phone-bridge", 1⟩ settledAtOnce).run Server.initial).2.db ↔
      NulFree "alice@demo" ∧ NulFree "bob@demo" := by
  have hreturned : ((settle ⟨alicePaysBob, "h1", "phone-bridge", 1⟩ settledAtOnce).run
      Server.initial).1 = .ok (firstTransaction alicePaysBob) := by
    decide +kernel
  exact chargesNamed_iff ⟨alicePaysBob, "h1", "phone-bridge", 1⟩ settledAtOnce
    (Prod.ext hreturned rfl) rfl

/-- An instruction whose sender is `alice@demo`, then a NUL and an `x`. -/
def hiddenSuffix : PaymentInstruction := { alicePaysBob with senderVpa := "alice@demo\x00x" }

/-- The account of Alice is debited for it. -/
theorem hidden_suffix_charges_alice :
    ((settle ⟨hiddenSuffix, "h1", "phone-bridge", 1⟩ settledAtOnce).run Server.initial).1 =
        .ok (firstTransaction hiddenSuffix) ∧
      (((settle ⟨hiddenSuffix, "h1", "phone-bridge", 1⟩ settledAtOnce).run
        Server.initial).2.db.current.accounts.find? "alice@demo").map Account.balance =
          some 499000 ∧
      ((settle ⟨hiddenSuffix, "h1", "phone-bridge", 1⟩ settledAtOnce).run
        Server.initial).2.db.current.transactions.rows.map Transaction.senderVpa =
          ["alice@demo"] ∧
      ¬ ChargesNamed hiddenSuffix settledAtOnce (firstTransaction hiddenSuffix) Server.initial.db
        ((settle ⟨hiddenSuffix, "h1", "phone-bridge", 1⟩ settledAtOnce).run
          Server.initial).2.db := by
  refine ⟨by decide +kernel, by decide +kernel, by decide +kernel, ?_⟩
  rintro ⟨⟨-, sender, -, -, hsender, -⟩, -⟩
  have hfree := sender.nulFree_vpa
  rw [hsender] at hfree
  exact hfree (by decide)

end UpiMesh
