import UpiMesh.Reconciliation

/-!
# Payments to oneself

`settle` reads the sender and the receiver into two copies and saves one after the other. When both
are the same account, the second save overwrites the first, so the debit is lost and the account
gains the amount. This happens in every settled self-payment and in no other call.
-/

namespace UpiMesh

open Int64Arith Sequential SettlementService

def SelfPayment (instruction : PaymentInstruction) : Prop :=
  cstr instruction.senderVpa = cstr instruction.receiverVpa

instance : DecidablePred SelfPayment := fun _ => inferInstanceAs (Decidable (_ = _))

/-- The account covers a payment to itself, and the hash has no row yet. -/
def PayableToSelf (call : SettleCall) (db : Database) : Prop :=
  ∃ account, Covered db.current.accounts call.instruction account account ∧
    cstr call.packetHash ∉ db.current.transactions.rows.map Transaction.packetHash

def AccountTable.balance? (accounts : AccountTable) (vpa : String) : Option ℤ :=
  (accounts.find? vpa).map Account.balance

variable {call : SettleCall} {settledAt : ℤ} {db db' : Database} {r : Except Exn Transaction}

/-- Outside the write block the accounts stay as they are. -/
theorem Settles.accounts_eq_or_transfer (h : Settles call settledAt db r db') :
    db'.current.accounts = db.current.accounts ∨ ∃ sender receiver,
      Covered db.current.accounts call.instruction sender receiver ∧
      cstr call.packetHash ∉ db.current.transactions.rows.map Transaction.packetHash ∧
      db'.current.accounts = db.current.transfer sender receiver call.instruction.amount := by
  cases h with
  | settled hc hnew => exact Or.inr ⟨_, _, hc, hnew, rfl⟩
  | _ => exact Or.inl rfl

theorem Covered.account_eq {accounts : AccountTable} {i : PaymentInstruction}
    {sender receiver : Account} (h : Covered accounts i sender receiver)
    (hvpa : sender.vpa = receiver.vpa) : sender = receiver := by
  have hs := Table.find?_of_mem (Table.mem_of_find? h.findSender)
  have hr := Table.find?_of_mem (Table.mem_of_find? h.findReceiver)
  rw [hvpa, hr] at hs
  exact (Option.some.inj hs).symm

/-- A settled self-payment credits the account and debits nobody. -/
theorem Settles.balance?_of_payableToSelf (h : Settles call settledAt db r db') {account : Account}
    (hc : Covered db.current.accounts call.instruction account account)
    (hnew : cstr call.packetHash ∉ db.current.transactions.rows.map Transaction.packetHash) :
    AccountTable.balance? db'.current.accounts account.vpa =
      some (add account.balance call.instruction.amount) := by
  obtain ⟨-, rfl⟩ := h.of_covered hc hnew
  rw [AccountTable.balance?, Tables.find?_transfer, if_pos rfl]
  rfl

theorem Settles.balance?_eq_iff (h : Settles call settledAt db r db')
    (hself : SelfPayment call.instruction) :
    (∀ vpa, AccountTable.balance? db'.current.accounts vpa =
        AccountTable.balance? db.current.accounts vpa) ↔ ¬ PayableToSelf call db := by
  constructor
  · rintro hsame ⟨account, hc, hnew⟩
    have hold : AccountTable.balance? db.current.accounts account.vpa = some account.balance := by
      rw [AccountTable.balance?, Table.find?_of_mem (Table.mem_of_find? hc.findSender),
        Option.map_some]
    have hgain := hsame account.vpa
    rw [h.balance?_of_payableToSelf hc hnew, hold] at hgain
    have hfits := call.instruction.amount_fits.2
    exact add_ne_self hc.positive (by omega) (Option.some.inj hgain)
  · intro hnot vpa
    rcases h.accounts_eq_or_transfer with hsame | ⟨sender, receiver, hc, hnew, _⟩
    · rw [hsame]
    · have hvpa : sender.vpa = receiver.vpa := by
        rw [Table.key_of_find? hc.findSender, Table.key_of_find? hc.findReceiver]
        exact hself
      obtain rfl := hc.account_eq hvpa
      exact absurd ⟨sender, hc, hnew⟩ hnot

/-- The sum of all balances grows by what a self-payment credits. -/
theorem Settles.sum_of_payableToSelf (h : Settles call settledAt db r db') {account : Account}
    (hc : Covered db.current.accounts call.instruction account account)
    (hnew : cstr call.packetHash ∉ db.current.transactions.rows.map Transaction.packetHash) :
    db'.current.accounts.sum Account.balance = db.current.accounts.sum Account.balance -
      account.balance + add account.balance call.instruction.amount := by
  have hfind : db.current.accounts.find? (account.debit call.instruction.amount).vpa =
      some account := Table.find?_of_mem (Table.mem_of_find? hc.findSender)
  have hdebit : (db.current.accounts.upsert (account.debit call.instruction.amount)).find?
      (account.credit call.instruction.amount).vpa =
        some (account.debit call.instruction.amount) := by
    rw [Table.find?_upsert]
    exact if_pos rfl
  obtain ⟨-, rfl⟩ := h.of_covered hc hnew
  rw [Tables.transfer, Table.sum_upsert hdebit, Table.sum_upsert hfind]
  simp only [Account.balance_credit]
  omega

/-- The money supply is that of the seed, and no credit of a covered payment overflows. -/
def MoneyConserved (s : Server) : Prop :=
  s.db.current.accounts.sum Account.balance = 900000 ∧
    ∀ instruction sender receiver, Covered s.db.current.accounts instruction sender receiver →
      Fits (receiver.balance + instruction.amount)

theorem Settled.moneyConserved {s : Server} (h : Settled s) : MoneyConserved s := by
  obtain ⟨-, L, hL⟩ := h
  have htotal : Endowment.seed.total = 900000 := by decide
  refine ⟨hL.sum_eq_total.trans htotal, fun i sender receiver hc => ?_⟩
  have hs := hL.balance_le_total (Table.mem_of_find? hc.findSender)
  have hr := hL.balance_le_total (Table.mem_of_find? hc.findReceiver)
  have hnn := hL.balance_nonneg (Table.mem_of_find? hc.findReceiver)
  have hpos := hc.positive
  have hcov := hc.covered
  rw [htotal] at hs hr
  constructor <;> omega

theorem step_settled {x : SettleCall × (ℕ → ℤ)} {s : Server} (h : Settled s)
    (hok : ¬ PayableToSelf x.1 s.db) : Settled (step x s) := by
  obtain ⟨r, hsettles⟩ := step_settles x h.1
  refine ⟨hsettles.savepoint h.1, h.2.settles hsettles fun sender receiver hc hnew hvpa => ?_⟩
  obtain rfl := hc.account_eq hvpa
  exact hok ⟨sender, hc, hnew⟩

/-- A self-payment changes a balance exactly when its account covers it and its hash is new. In runs
of calls from the seeded accounts, money is conserved exactly as long as there is no such call. -/
theorem self_payment_exact (x : SettleCall × (ℕ → ℤ)) (calls : List (SettleCall × (ℕ → ℤ)))
    (s : Server) (hsp : s.db.savepoint = none) :
    (SelfPayment x.1.instruction →
      ((∀ vpa, AccountTable.balance? (step x s).db.current.accounts vpa =
          AccountTable.balance? s.db.current.accounts vpa) ↔ ¬ PayableToSelf x.1 s.db)) ∧
    (s.db = Database.initial →
      (Always step MoneyConserved calls s ↔
        Each step (fun x s => ¬ PayableToSelf x.1 s.db) calls s)) := by
  constructor
  · intro hself
    obtain ⟨r, hsettles⟩ := step_settles x hsp
    exact hsettles.balance?_eq_iff hself
  · intro hseed
    have hstart : Settled s := by
      rw [Settled, hseed]
      exact ⟨rfl, Books.opening .seed 0⟩
    refine always_iff_each (fun s hs => hs.moneyConserved)
      (fun x s _ hs hok => step_settled hs hok) (fun x s _ hs hnot hcons => ?_)
      (fun _ _ => trivial) hstart
    obtain ⟨account, hc, hnew⟩ := not_not.mp hnot
    obtain ⟨r, hsettles⟩ := step_settles x hs.1
    have hsum := hsettles.sum_of_payableToSelf hc hnew
    have hold := hs.moneyConserved
    have hne := add_ne_self hc.positive (x := account.balance)
      (lt_trans x.1.instruction.amount_fits.2 (by norm_num))
    rw [hcons.1, hold.1] at hsum
    omega

/-- Alice pays 1000 paise to herself and has 1000 more. -/
def selfPayment : SettleCall where
  instruction := { alicePaysBob with receiverVpa := "alice@demo" }
  packetHash := "h"
  bridgeNodeId := "phone-bridge"
  hopCount := 1

theorem self_payment_gains :
    SelfPayment selfPayment.instruction ∧
      AccountTable.balance? Server.initial.db.current.accounts "alice@demo" = some 500000 ∧
      AccountTable.balance? (step (selfPayment, fun _ => 0) Server.initial).db.current.accounts
        "alice@demo" = some 501000 ∧
      (step (selfPayment, fun _ => 0) Server.initial).db.current.accounts.sum Account.balance =
        901000 := by
  decide

theorem self_payment_exact_seeded :
    ((∀ vpa, AccountTable.balance?
          (step (selfPayment, fun _ => 0) Server.initial).db.current.accounts vpa =
        AccountTable.balance? Server.initial.db.current.accounts vpa) ↔
      ¬ PayableToSelf selfPayment Server.initial.db) ∧
    (Always step MoneyConserved [({ selfPayment with instruction := alicePaysBob }, fun _ => 0)]
        Server.initial ↔
      Each step (fun x s => ¬ PayableToSelf x.1 s.db)
        [({ selfPayment with instruction := alicePaysBob }, fun _ => 0)] Server.initial) := by
  have hexact := self_payment_exact (selfPayment, fun _ => 0)
    [({ selfPayment with instruction := alicePaysBob }, fun _ => 0)] Server.initial rfl
  exact ⟨hexact.1 (by decide), hexact.2 rfl⟩

end UpiMesh
