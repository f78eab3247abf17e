import UpiMesh.Lib.Ledger
import UpiMesh.SettlementSpec

/-!
# Balances as a ledger

The `accounts` table carries the balances of a double-entry ledger. A covered payment between two
accounts is a transfer posted to that ledger. The conservation law of the ledger bounds every balance
by the sum of all of them, so that no credit overflows as long as that sum fits.
-/

namespace UpiMesh

open DoubleEntry Int64Arith

/-- The balances of the table are those of the ledger. -/
structure Balanced (L : Ledger String ℤ) (accounts : AccountTable) : Prop where
  members : L.members = accounts.keys.toFinset
  balance : ∀ a ∈ accounts.rows, a.balance = L.balance a.vpa

namespace Balanced

variable {L : Ledger String ℤ} {accounts : AccountTable}

theorem mem_members (h : Balanced L accounts) {a : Account} (ha : a ∈ accounts.rows) :
    a.vpa ∈ L.members := by
  rw [h.members, List.mem_toFinset]
  exact Table.mem_keys.mpr ⟨a, ha, rfl⟩

theorem balance_nonneg (h : Balanced L accounts) {a : Account} (ha : a ∈ accounts.rows) :
    0 ≤ a.balance := by
  rw [h.balance a ha]
  exact L.balance_nonneg (h.mem_members ha)

theorem balance_le (h : Balanced L accounts) {a : Account} (ha : a ∈ accounts.rows) :
    a.balance ≤ ∑ k ∈ L.members, L.opening k := by
  rw [h.balance a ha]
  exact L.balance_le_sum (h.mem_members ha)

theorem add_balance_le (h : Balanced L accounts) {a b : Account} (ha : a ∈ accounts.rows)
    (hb : b ∈ accounts.rows) (hne : a.vpa ≠ b.vpa) :
    a.balance + b.balance ≤ ∑ k ∈ L.members, L.opening k := by
  rw [h.balance a ha, h.balance b hb]
  exact L.add_balance_le_sum (h.mem_members ha) (h.mem_members hb) hne

/-- The money in the table is the money the ledger was opened with. -/
theorem sum_eq (h : Balanced L accounts) :
    accounts.sum Account.balance = ∑ k ∈ L.members, L.opening k := by
  rw [Table.sum_eq_sum_keys, ← L.sum_balance, h.members]
  refine Finset.sum_congr rfl fun k hk => ?_
  obtain ⟨a, ha⟩ := Table.exists_find?_of_mem_keys (List.mem_toFinset.mp hk)
  rw [ha, Option.elim_some, h.balance a (Table.mem_of_find? ha), Table.key_of_find? ha]

/-- The ledger that opens with the balances of a table. -/
def ledger (accounts : AccountTable) (hnonneg : ∀ a ∈ accounts.rows, 0 ≤ a.balance) :
    Ledger String ℤ where
  members := accounts.keys.toFinset
  opening vpa := (accounts.find? vpa).elim 0 Account.balance
  entries := []
  internal := by simp
  positive := by simp
  solvent := by
    intro k _
    rw [net_nil, add_zero]
    cases h : accounts.find? k with
    | none => exact le_refl _
    | some a => exact hnonneg a (Table.mem_of_find? h)

theorem opening {hnonneg : ∀ a ∈ accounts.rows, 0 ≤ a.balance} :
    Balanced (ledger accounts hnonneg) accounts := by
  refine ⟨rfl, fun a ha => ?_⟩
  simp only [Ledger.balance, ledger, net_nil, add_zero, Table.find?_of_mem ha, Option.elim_some]

section Transfer

variable {i : PaymentInstruction} {sender receiver : Account}

/-- The credit of a covered payment between two accounts fits. -/
theorem fits_credit (h : Balanced L accounts) (hfits : accounts.sum Account.balance < 2 ^ 63)
    (hc : Covered accounts i sender receiver) (hne : sender.vpa ≠ receiver.vpa) :
    Fits (receiver.balance + i.amount) := by
  have hs := Table.mem_of_find? hc.findSender
  have hr := Table.mem_of_find? hc.findReceiver
  have hle := h.add_balance_le hs hr hne
  have hnn := h.balance_nonneg hr
  have hpos := hc.positive
  have hcov := hc.covered
  rw [h.sum_eq] at hfits
  constructor <;> omega

/-- What the ledger posts for a payment. -/
abbrev posting (sender receiver : Account) (amount : ℤ) : Transfer String ℤ :=
  ⟨sender.vpa, receiver.vpa, amount⟩

theorem covered_posting (h : Balanced L accounts) (hc : Covered accounts i sender receiver) :
    i.amount ≤ L.balance sender.vpa :=
  h.balance sender (Table.mem_of_find? hc.findSender) ▸ hc.covered

theorem transfer {t : Tables} (h : Balanced L t.accounts)
    (hfits : t.accounts.sum Account.balance < 2 ^ 63) (hc : Covered t.accounts i sender receiver)
    (hne : sender.vpa ≠ receiver.vpa) :
    Balanced (L.post (posting sender receiver i.amount) (h.mem_members (Table.mem_of_find? hc.findSender))
      (h.mem_members (Table.mem_of_find? hc.findReceiver)) hc.positive (h.covered_posting hc))
      (t.transfer sender receiver i.amount) := by
  have hs := Table.mem_of_find? hc.findSender
  have hr := Table.mem_of_find? hc.findReceiver
  refine ⟨?_, fun a ha => ?_⟩
  · rw [Tables.keys_transfer _ hs hr]
    exact h.members
  · have hfind := Table.find?_of_mem ha
    rw [Ledger.balance_post]
    rw [Tables.find?_transfer] at hfind
    by_cases hra : receiver.vpa = a.vpa
    · rw [if_pos hra] at hfind
      obtain rfl := Option.some.inj hfind
      rw [Account.balance_credit, add_of_fits (h.fits_credit hfits hc hne), h.balance receiver hr]
      simp [Transfer.effect, hne]
    · rw [if_neg hra] at hfind
      by_cases hsa : sender.vpa = a.vpa
      · rw [if_pos hsa] at hfind
        obtain rfl := Option.some.inj hfind
        rw [Account.balance_debit, sub_of_covered sender.balance_fits hc.positive hc.covered,
          h.balance sender hs]
        simp [Transfer.effect, hne.symm, sub_eq_add_neg]
      · rw [if_neg hsa] at hfind
        rw [h.balance a (Table.mem_of_find? hfind)]
        simp [Transfer.effect, hra, hsa]

end Transfer

end Balanced

/-- What a payment leaves of an account: its name, its holder and its version. -/
def Account.identity (a : Account) : String × String × ℤ := (a.vpa, a.holderName, a.version)

theorem Tables.map_identity_transfer {t : Tables} {sender receiver : Account} (amount : ℤ)
    (hs : sender ∈ t.accounts.rows) (hr : receiver ∈ t.accounts.rows) :
    (t.transfer sender receiver amount).rows.map Account.identity =
      t.accounts.rows.map Account.identity := by
  have hsender : t.accounts.find? (sender.debit amount).vpa = some sender := Table.find?_of_mem hs
  have hdebit : (t.accounts.upsert (sender.debit amount)).rows.map Account.identity =
      t.accounts.rows.map Account.identity := Table.map_upsert hsender rfl
  obtain ⟨r, hreceiver, hr⟩ : ∃ r, (t.accounts.upsert (sender.debit amount)).find?
      (receiver.credit amount).vpa = some r ∧ (receiver.credit amount).identity = r.identity := by
    rw [Table.find?_upsert]
    split_ifs with hk
    · have hsame : sender = receiver := List.inj_on_of_nodup_map t.accounts.nodup hs hr hk
      exact ⟨_, rfl, hsame ▸ rfl⟩
    · exact ⟨receiver, Table.find?_of_mem hr, rfl⟩
  rw [Tables.transfer, Table.map_upsert hreceiver hr, hdebit]

/-- Two tables agree when they have the same accounts with the same balances. -/
theorem AccountTable.ext_balance {t t' : AccountTable} {f : String → ℤ}
    (h : t.rows.map Account.identity = t'.rows.map Account.identity)
    (ht : ∀ a ∈ t.rows, a.balance = f a.vpa) (ht' : ∀ a ∈ t'.rows, a.balance = f a.vpa) : t = t' := by
  apply Table.ext
  have hlen : t.rows.length = t'.rows.length := by simpa using congrArg List.length h
  refine List.ext_getElem hlen fun n h₁ h₂ => ?_
  have hn : t.rows[n].identity = t'.rows[n].identity := by
    have := congrArg (fun l => l[n]?) h
    simpa [h₁, h₂] using this
  simp only [Account.identity, Prod.mk.injEq] at hn
  obtain ⟨hvpa, hholder, hversion⟩ := hn
  have hbalance : t.rows[n].balance = t'.rows[n].balance := by
    rw [ht _ (List.getElem_mem h₁), ht' _ (List.getElem_mem h₂), hvpa]
  generalize t.rows[n] = a at hvpa hholder hversion hbalance
  generalize t'.rows[n] = b at hvpa hholder hversion hbalance
  cases a
  cases b
  dsimp only at hvpa hholder hversion hbalance
  subst hvpa hholder hversion hbalance
  rfl

end UpiMesh
