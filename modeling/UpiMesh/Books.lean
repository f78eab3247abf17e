import UpiMesh.Balances

/-!
# The books behind the tables

The abstract content of the database is a double-entry ledger: its entries are the SETTLED rows, and
its balances are those of the `accounts` table. A transfer between two accounts posts one entry. The
conservation law of the ledger then bounds the balances, so that no credit overflows.
-/

namespace UpiMesh

open Concurrent DoubleEntry Int64Arith

/-- The accounts a run starts from: nobody is overdrawn, and all money together fits. -/
structure Endowment where
  accounts : AccountTable
  nonneg : ∀ a ∈ accounts.rows, 0 ≤ a.balance
  fits : accounts.sum Account.balance < 2 ^ 63

namespace Endowment

def seed : Endowment := ⟨Database.seedAccounts, by decide, by decide⟩

def total (E : Endowment) : ℤ := E.accounts.sum Account.balance

def opening (E : Endowment) (vpa : String) : ℤ := (E.accounts.find? vpa).elim 0 Account.balance

end Endowment

def Transaction.transfer (tx : Transaction) : Transfer String ℤ :=
  ⟨tx.senderVpa, tx.receiverVpa, tx.amount⟩

namespace TransactionTable

def settled (t : TransactionTable) : List Transaction := t.rows.filter (·.status = .SETTLED)

def credits (t : TransactionTable) (vpa : String) : ℤ :=
  ((t.settled.filter (·.receiverVpa = vpa)).map (·.amount)).sum

def debits (t : TransactionTable) (vpa : String) : ℤ :=
  ((t.settled.filter (·.senderVpa = vpa)).map (·.amount)).sum

theorem net_settled (t : TransactionTable) (vpa : String) :
    net (t.settled.map Transaction.transfer) vpa = t.credits vpa - t.debits vpa := by
  rw [net_eq_credits_sub_debits, credits, debits, List.filter_map, List.filter_map, List.map_map,
    List.map_map]
  rfl

end TransactionTable

/-- The ledger `L` describes the tables. -/
structure Represents (E : Endowment) (L : Ledger String ℤ) (t : Tables) : Prop where
  members : L.members = E.accounts.keys.toFinset
  opening : L.opening = E.opening
  entries : L.entries = t.transactions.settled.map Transaction.transfer
  keys : t.accounts.keys = E.accounts.keys
  balance : ∀ a ∈ t.accounts.rows, a.balance = L.balance a.vpa
  outcomes : ∀ tx ∈ t.transactions.rows, tx.status = .SETTLED ∨ tx.status = .REJECTED

/-- The tables are those of some ledger. -/
def Books (E : Endowment) (t : Tables) : Prop := ∃ L, Represents E L t

namespace Represents

variable {E : Endowment} {L : Ledger String ℤ} {t : Tables}

theorem balanced (h : Represents E L t) : Balanced L t.accounts :=
  ⟨h.members.trans (h.keys ▸ rfl), h.balance⟩

theorem total_opening (h : Represents E L t) : ∑ k ∈ L.members, L.opening k = E.total := by
  rw [h.members, h.opening]
  exact (Table.sum_eq_sum_keys _ _).symm

theorem balance_nonneg (h : Represents E L t) {a : Account} (ha : a ∈ t.accounts.rows) :
    0 ≤ a.balance := h.balanced.balance_nonneg ha

theorem balance_le_total (h : Represents E L t) {a : Account} (ha : a ∈ t.accounts.rows) :
    a.balance ≤ E.total := h.total_opening ▸ h.balanced.balance_le ha

theorem sum_eq_total (h : Represents E L t) : t.accounts.sum Account.balance = E.total :=
  h.balanced.sum_eq.trans h.total_opening

theorem amount_pos (h : Represents E L t) {tx : Transaction} (htx : tx ∈ t.transactions.rows)
    (hs : tx.status = .SETTLED) : 0 < tx.amount := by
  have hmem : tx.transfer ∈ L.entries := by
    rw [h.entries]
    exact List.mem_map_of_mem (List.mem_filter.mpr ⟨htx, decide_eq_true hs⟩)
  exact L.positive _ hmem

theorem balance_eq (h : Represents E L t) {a : Account} (ha : a ∈ t.accounts.rows) :
    a.balance = E.opening a.vpa + t.transactions.credits a.vpa - t.transactions.debits a.vpa := by
  rw [h.balance a ha, Ledger.balance, h.opening, h.entries, TransactionTable.net_settled]
  omega

theorem sum_fits (h : Represents E L t) : t.accounts.sum Account.balance < 2 ^ 63 := by
  rw [h.sum_eq_total]
  exact E.fits

theorem fits_credit (h : Represents E L t) {i : PaymentInstruction} {sender receiver : Account}
    (hc : Covered t.accounts i sender receiver) (hne : sender.vpa ≠ receiver.vpa) :
    Fits (receiver.balance + i.amount) := h.balanced.fits_credit h.sum_fits hc hne

theorem transfer (h : Represents E L t) {call : SettleCall} {settledAt : ℤ}
    {sender receiver : Account} (hc : Covered t.accounts call.instruction sender receiver)
    (hne : sender.vpa ≠ receiver.vpa)
    (hnew : cstr call.packetHash ∉ t.transactions.rows.map Transaction.packetHash) :
    Books E ⟨t.transfer sender receiver call.instruction.amount,
      t.transactions.insert (call.transaction settledAt .SETTLED) hnew⟩ := by
  have hs := Table.mem_of_find? hc.findSender
  have hr := Table.mem_of_find? hc.findReceiver
  have hposted := h.balanced.transfer h.sum_fits hc hne
  refine ⟨L.post (Balanced.posting sender receiver call.instruction.amount) (h.balanced.mem_members hs)
    (h.balanced.mem_members hr) hc.positive (h.balanced.covered_posting hc), h.members, h.opening, ?_, ?_,
    hposted.balance, ?_⟩
  · have hrow : (t.transactions.insert (call.transaction settledAt .SETTLED) hnew).settled =
        t.transactions.settled ++ [t.transactions.stored (call.transaction settledAt .SETTLED)] := by
      simp only [TransactionTable.settled, TransactionTable.insert, List.filter_append,
        TransactionTable.stored, SettleCall.transaction, decide_true, List.filter_cons_of_pos,
        List.filter_nil]
    have hskey := Table.key_of_find? hc.findSender
    have hrkey := Table.key_of_find? hc.findReceiver
    rw [hrow, List.map_append, ← h.entries]
    simp only [Ledger.post, Balanced.posting, hskey, hrkey]
    rfl
  · rw [← h.keys]
    exact Tables.keys_transfer _ hs hr
  · intro tx htx
    rcases List.mem_append.mp htx with htx | htx
    · exact h.outcomes tx htx
    · rw [List.mem_singleton.mp htx]
      exact Or.inl rfl

theorem reject (h : Represents E L t) {call : SettleCall} {settledAt : ℤ}
    (hnew : cstr call.packetHash ∉ t.transactions.rows.map Transaction.packetHash) :
    Represents E L ⟨t.accounts,
      t.transactions.insert (call.transaction settledAt .REJECTED) hnew⟩ := by
  refine ⟨h.members, h.opening, ?_, h.keys, h.balance, ?_⟩
  · have hrow : (t.transactions.insert (call.transaction settledAt .REJECTED) hnew).settled =
        t.transactions.settled := by
      simp [TransactionTable.settled, TransactionTable.insert, TransactionTable.stored,
        SettleCall.transaction]
    rw [hrow, h.entries]
  · intro tx htx
    rcases List.mem_append.mp htx with htx | htx
    · exact h.outcomes tx htx
    · rw [List.mem_singleton.mp htx]
      exact Or.inr rfl

end Represents

namespace Books

variable {E : Endowment} {t : Tables}

/-- Before anything is settled, the books are the opening balances. -/
theorem opening (E : Endowment) (sequence : ℤ) : Books E ⟨E.accounts, .empty sequence⟩ :=
  ⟨Balanced.ledger E.accounts E.nonneg, rfl, rfl, rfl, rfl, Balanced.opening.balance,
    by simp [TransactionTable.empty]⟩

/-- A call that moves money only between two accounts keeps the books. -/
theorem settles {call : SettleCall} {settledAt : ℤ} {db db' : Database} {r : Except Exn Transaction}
    (h : Books E db.current) (hcall : Settles call settledAt db r db')
    (hne : ∀ sender receiver, Covered db.current.accounts call.instruction sender receiver →
      cstr call.packetHash ∉ db.current.transactions.rows.map Transaction.packetHash →
      sender.vpa ≠ receiver.vpa) : Books E db'.current := by
  obtain ⟨L, hL⟩ := h
  cases hcall with
  | unknownSender _ => exact ⟨L, hL⟩
  | unknownReceiver _ _ => exact ⟨L, hL⟩
  | notPositive _ _ _ => exact ⟨L, hL⟩
  | duplicate _ _ => exact ⟨L, hL⟩
  | rejected _ hnew => exact ⟨L, hL.reject hnew⟩
  | settled hc hnew =>
    exact hL.transfer hc (hne _ _ hc hnew) hnew

end Books
end UpiMesh
