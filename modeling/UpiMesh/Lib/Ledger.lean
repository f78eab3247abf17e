import Mathlib.Algebra.BigOperators.Ring.Finset
import Mathlib.Algebra.Order.BigOperators.Group.Finset
import Mathlib.Tactic.Abel

/-!
# Double-entry ledgers

A `Ledger` is an opening balance for every member of a finite set of accounts together with a list
of transfers. Its fields say that every transfer stays inside the set, moves a positive amount, and
that no member is overdrawn; `Ledger.post` builds the ledger with one more covered transfer. The sum
of the balances is that of the opening balances, so it bounds every single balance.
-/

open scoped BigOperators

namespace DoubleEntry

structure Transfer (κ M : Type*) where
  source : κ
  target : κ
  amount : M

section Net

variable {κ M : Type*} [DecidableEq κ] [AddCommGroup M]

/-- What one transfer adds to the account `k`. -/
def Transfer.effect (t : Transfer κ M) (k : κ) : M :=
  (if t.target = k then t.amount else 0) - (if t.source = k then t.amount else 0)

/-- Credits minus debits of the account `k`. -/
def net (ts : List (Transfer κ M)) (k : κ) : M := (ts.map fun t => t.effect k).sum

@[simp] theorem net_nil (k : κ) : net ([] : List (Transfer κ M)) k = 0 := rfl

@[simp] theorem net_append (ts us : List (Transfer κ M)) (k : κ) :
    net (ts ++ us) k = net ts k + net us k := by simp [net]

@[simp] theorem net_singleton (t : Transfer κ M) (k : κ) : net [t] k = t.effect k := by simp [net]

theorem net_cons (t : Transfer κ M) (ts : List (Transfer κ M)) (k : κ) :
    net (t :: ts) k = t.effect k + net ts k := by simp [net]

/-- The net effect is the credited amounts minus the debited ones. -/
theorem net_eq_credits_sub_debits (ts : List (Transfer κ M)) (k : κ) :
    net ts k = ((ts.filter (·.target = k)).map (·.amount)).sum -
      ((ts.filter (·.source = k)).map (·.amount)).sum := by
  induction ts with
  | nil => simp
  | cons t ts ih =>
    rw [net_cons, ih, Transfer.effect]
    by_cases ht : t.target = k <;> by_cases hs : t.source = k <;> simp [ht, hs] <;> abel

/-- What the account `k` pays. -/
def outflow (ts : List (Transfer κ M)) (k : κ) : M :=
  ((ts.filter (·.source = k)).map (·.amount)).sum

/-- What the account `k` is paid. -/
def inflow (ts : List (Transfer κ M)) (k : κ) : M :=
  ((ts.filter (·.target = k)).map (·.amount)).sum

theorem net_eq_inflow_sub_outflow (ts : List (Transfer κ M)) (k : κ) :
    net ts k = inflow ts k - outflow ts k := net_eq_credits_sub_debits ts k

theorem outflow_cons (t : Transfer κ M) (ts : List (Transfer κ M)) (k : κ) :
    outflow (t :: ts) k = (if t.source = k then t.amount else 0) + outflow ts k := by
  by_cases h : t.source = k <;> simp [outflow, h]

/-- The order of the transfers does not matter. -/
theorem net_perm {ts us : List (Transfer κ M)} (h : ts.Perm us) (k : κ) : net ts k = net us k :=
  (h.map _).sum_eq

theorem outflow_perm {ts us : List (Transfer κ M)} (h : ts.Perm us) (k : κ) :
    outflow ts k = outflow us k := ((h.filter _).map _).sum_eq

theorem sum_effect {K : Finset κ} {t : Transfer κ M} (hs : t.source ∈ K) (ht : t.target ∈ K) :
    ∑ k ∈ K, t.effect k = 0 := by
  simp only [Transfer.effect, Finset.sum_sub_distrib, Finset.sum_ite_eq, if_pos hs, if_pos ht,
    sub_self]

/-- Transfers inside a set of accounts move money but create none. -/
theorem sum_net {K : Finset κ} {ts : List (Transfer κ M)}
    (h : ∀ t ∈ ts, t.source ∈ K ∧ t.target ∈ K) : ∑ k ∈ K, net ts k = 0 := by
  induction ts with
  | nil => simp
  | cons t ts ih =>
    have ht := h t List.mem_cons_self
    have hts := ih fun u hu => h u (List.mem_cons_of_mem t hu)
    simp only [net_cons, Finset.sum_add_distrib, sum_effect ht.1 ht.2, hts, add_zero]

end Net

/-- The books: no transfer leaves the set, every amount is positive, nobody is overdrawn. -/
structure Ledger (κ M : Type*) [DecidableEq κ] [AddCommGroup M] [LinearOrder M] where
  members : Finset κ
  opening : κ → M
  entries : List (Transfer κ M)
  internal : ∀ t ∈ entries, t.source ∈ members ∧ t.target ∈ members
  positive : ∀ t ∈ entries, 0 < t.amount
  solvent : ∀ k ∈ members, 0 ≤ opening k + net entries k

namespace Ledger

variable {κ M : Type*} [DecidableEq κ] [AddCommGroup M] [LinearOrder M]

def balance (L : Ledger κ M) (k : κ) : M := L.opening k + net L.entries k

theorem balance_nonneg (L : Ledger κ M) {k : κ} (hk : k ∈ L.members) : 0 ≤ L.balance k :=
  L.solvent k hk

/-- Conservation of money. -/
theorem sum_balance (L : Ledger κ M) :
    ∑ k ∈ L.members, L.balance k = ∑ k ∈ L.members, L.opening k := by
  simp only [balance, Finset.sum_add_distrib, sum_net L.internal, add_zero]

variable [IsOrderedAddMonoid M]

/-- No account can hold more than the whole opening sum. -/
theorem balance_le_sum (L : Ledger κ M) {k : κ} (hk : k ∈ L.members) :
    L.balance k ≤ ∑ k ∈ L.members, L.opening k := by
  rw [← L.sum_balance]
  exact Finset.single_le_sum (fun i hi => L.balance_nonneg hi) hk

/-- Two accounts together cannot either. -/
theorem add_balance_le_sum (L : Ledger κ M) {k l : κ} (hk : k ∈ L.members) (hl : l ∈ L.members)
    (hne : k ≠ l) : L.balance k + L.balance l ≤ ∑ k ∈ L.members, L.opening k := by
  rw [← L.sum_balance, ← Finset.sum_pair hne]
  apply Finset.sum_le_sum_of_subset_of_nonneg
  · intro i hi
    rcases Finset.mem_insert.mp hi with rfl | hi
    · exact hk
    · exact Finset.mem_singleton.mp hi ▸ hl
  · exact fun i hi _ => L.balance_nonneg hi

theorem effect_post_solvent (L : Ledger κ M) {t : Transfer κ M} (hpos : 0 < t.amount)
    (hcov : t.amount ≤ L.balance t.source) {k : κ} (hk : k ∈ L.members) :
    0 ≤ L.opening k + (net L.entries k + t.effect k) := by
  have hnn := L.balance_nonneg hk
  rw [← add_assoc]
  change 0 ≤ L.balance k + _
  by_cases hs : t.source = k
  · subst hs
    have hdebit : 0 ≤ L.balance t.source - t.amount := sub_nonneg.mpr hcov
    by_cases ht : t.target = t.source
    · simpa only [Transfer.effect, if_pos ht, if_true, sub_self, add_zero] using hnn
    · simpa only [Transfer.effect, if_neg ht, if_true, zero_sub, ← sub_eq_add_neg] using hdebit
  · by_cases ht : t.target = k
    · simpa only [Transfer.effect, if_pos ht, if_neg hs, sub_zero] using add_nonneg hnn hpos.le
    · simpa only [Transfer.effect, if_neg ht, if_neg hs, sub_zero, add_zero] using hnn

/-- One more covered transfer between members. -/
def post (L : Ledger κ M) (t : Transfer κ M) (hs : t.source ∈ L.members) (ht : t.target ∈ L.members)
    (hpos : 0 < t.amount) (hcov : t.amount ≤ L.balance t.source) : Ledger κ M where
  members := L.members
  opening := L.opening
  entries := L.entries ++ [t]
  internal := by
    intro u hu
    rcases List.mem_append.mp hu with hu | hu
    · exact L.internal u hu
    · rw [List.mem_singleton.mp hu]
      exact ⟨hs, ht⟩
  positive := by
    intro u hu
    rcases List.mem_append.mp hu with hu | hu
    · exact L.positive u hu
    · rwa [List.mem_singleton.mp hu]
  solvent := by
    intro k hk
    rw [net_append, net_singleton]
    exact L.effect_post_solvent hpos hcov hk

theorem balance_post (L : Ledger κ M) (t : Transfer κ M) (hs : t.source ∈ L.members)
    (ht : t.target ∈ L.members) (hpos : 0 < t.amount) (hcov : t.amount ≤ L.balance t.source)
    (k : κ) : (L.post t hs ht hpos hcov).balance k = L.balance k + t.effect k := by
  simp only [balance, post, net_append, net_singleton, add_assoc]

section Batches

/-- The members can pay for all of the transfers out of what they have now. -/
structure Affords (L : Ledger κ M) (ts : List (Transfer κ M)) : Prop where
  internal : ∀ t ∈ ts, t.source ∈ L.members ∧ t.target ∈ L.members
  positive : ∀ t ∈ ts, 0 < t.amount
  covered : ∀ k ∈ L.members, outflow ts k ≤ L.balance k

variable {L : Ledger κ M} {t : Transfer κ M} {ts us : List (Transfer κ M)}

omit [IsOrderedAddMonoid M] in
theorem Affords.perm (h : L.Affords ts) (hperm : ts.Perm us) : L.Affords us :=
  ⟨fun u hu => h.internal u (hperm.mem_iff.mpr hu), fun u hu => h.positive u (hperm.mem_iff.mpr hu),
    fun k hk => outflow_perm hperm k ▸ h.covered k hk⟩

theorem outflow_nonneg (h : ∀ t ∈ ts, 0 < t.amount) (k : κ) : 0 ≤ outflow ts k := by
  apply List.sum_nonneg
  intro x hx
  obtain ⟨t, ht, rfl⟩ := List.mem_map.mp hx
  exact (h t (List.mem_of_mem_filter ht)).le

/-- The first transfer of the batch is covered. -/
theorem Affords.head (h : L.Affords (t :: ts)) : t.amount ≤ L.balance t.source := by
  obtain ⟨ht, hts⟩ := List.forall_mem_cons.mp h.positive
  have hcovered := h.covered t.source (h.internal t List.mem_cons_self).1
  rw [outflow_cons, if_pos rfl] at hcovered
  exact (le_add_of_nonneg_right (outflow_nonneg hts t.source)).trans hcovered

/-- After it the rest of the batch is affordable. -/
theorem Affords.tail (h : L.Affords (t :: ts)) (hs : t.source ∈ L.members)
    (ht : t.target ∈ L.members) (hpos : 0 < t.amount) (hcov : t.amount ≤ L.balance t.source) :
    (L.post t hs ht hpos hcov).Affords ts := by
  refine ⟨fun u hu => h.internal u (List.mem_cons_of_mem t hu),
    fun u hu => h.positive u (List.mem_cons_of_mem t hu), fun k hk => ?_⟩
  have hcovered := h.covered k hk
  rw [outflow_cons, add_comm, ← le_sub_iff_add_le] at hcovered
  rw [balance_post, Transfer.effect]
  refine hcovered.trans ?_
  rw [add_sub_assoc', sub_le_sub_iff_right]
  split_ifs
  · exact le_add_of_nonneg_right hpos.le
  · exact (add_zero _).ge

/-- An affordable batch can be posted. -/
theorem Affords.post (h : L.Affords ts) : ∃ L' : Ledger κ M, L'.members = L.members ∧
    L'.opening = L.opening ∧ ∀ k, L'.balance k = L.balance k + net ts k := by
  induction ts generalizing L with
  | nil => exact ⟨L, rfl, rfl, fun k => (add_zero _).symm⟩
  | cons t ts ih =>
    obtain ⟨hs, ht⟩ := h.internal t List.mem_cons_self
    have hpos := h.positive t List.mem_cons_self
    obtain ⟨L', hmembers, hopening, hbalance⟩ := ih (h.tail hs ht hpos h.head)
    refine ⟨L', hmembers, hopening, fun k => ?_⟩
    rw [hbalance, balance_post, net_cons, add_assoc]

end Batches

end Ledger
end DoubleEntry
