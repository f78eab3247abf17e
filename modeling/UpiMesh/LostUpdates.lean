import UpiMesh.Lib.Linearize
import UpiMesh.SettlementSpec

/-!
# Concurrent settlements

The copies of the accounts are read before the write block takes the connection mutex, and the block
writes them back as absolute balances. A commit of another call in between is lost. When every block
still finds the copies it read, the calls are linearizable: a settled call takes effect at its
commit, a rejected one where it read the sender, and a call whose hash was stored before at its first
action.
-/

namespace UpiMesh

open Concurrent SettlementService

/-- A call and the clock readings of its attempts; no statement fails. -/
def settleProgram (x : SettleCall × (ℕ → ℤ)) : Service (Except Exn Transaction) :=
  settle x.1 { settledAt := x.2 }

/-- What the claim compares of a row. -/
def Transaction.outcome (tx : Transaction) : String × String × String × ℤ × Status :=
  (tx.packetHash, tx.senderVpa, tx.receiverVpa, tx.amount, tx.status)

def TransactionTable.outcomes (t : TransactionTable) : List (String × String × String × ℤ × Status) :=
  t.rows.map Transaction.outcome

def TransactionTable.hashes (t : TransactionTable) : List String := t.rows.map Transaction.packetHash

/-- Some serial execution of the calls ends in these accounts and these rows. -/
def Serializable {ι : Type} (calls : ι → SettleCall × (ℕ → ℤ)) (s₀ s : Server) : Prop :=
  ∃ order : List ι, order.Nodup ∧ (∀ i, i ∈ order) ∧
    (Pool.serial Action.exec (fun i => settleProgram (calls i)) order s₀).db.current.accounts =
      s.db.current.accounts ∧
    (Pool.serial Action.exec (fun i => settleProgram (calls i)) order
        s₀).db.current.transactions.outcomes.Perm s.db.current.transactions.outcomes

/-- A write block runs on the rows that it read. -/
def ReadsCurrent (a : Action) (s : Server) : Prop :=
  match a with
  | .settleBlock sender receiver _ _ _ =>
      s.db.current.accounts.find? sender.vpa = some sender ∧
        s.db.current.accounts.find? receiver.vpa = some receiver
  | _ => True

/-- The calls have different hashes, name known accounts and pay a positive amount. -/
structure Payments {ι : Type} (calls : ι → SettleCall × (ℕ → ℤ)) (s₀ : Server) : Prop where
  closed : s₀.db.savepoint = none
  hashes : ∀ i j, cstr (calls i).1.packetHash = cstr (calls j).1.packetHash → i = j
  sender : ∀ i, cstr (calls i).1.instruction.senderVpa ∈ s₀.db.current.accounts.keys
  receiver : ∀ i, cstr (calls i).1.instruction.receiverVpa ∈ s₀.db.current.accounts.keys
  positive : ∀ i, 0 < (calls i).1.instruction.amount

/-- How far a call has come: it has not taken effect, it has been rejected without a row yet, or its
effect is complete. -/
inductive Stage where
  | pending
  | rejecting
  | done
  deriving DecidableEq

section Proof

variable {ι : Type} (calls : ι → SettleCall × (ℕ → ℤ)) (s₀ : Server)

/-- The hash of a call as it is stored. -/
def hashOf (i : ι) : String := cstr (calls i).1.packetHash

/-- The row a call leaves with this status, as far as it is compared. -/
def outcomeOf (i : ι) (status : Status) : String × String × String × ℤ × Status :=
  (hashOf calls i, cstr (calls i).1.instruction.senderVpa,
    cstr (calls i).1.instruction.receiverVpa, (calls i).1.instruction.amount, status)

/-- A rejection that has taken effect and whose row is still to be inserted. -/
def Outstanding (γ : ι → Stage) (x : String × String × String × ℤ × Status) : Prop :=
  ∃ i, γ i = .rejecting ∧ x = outcomeOf calls i .REJECTED

/-- The shared state `s` and the state `b` of the serial execution of the calls that have taken
effect: equal accounts, and rows that differ in the outstanding rejections. -/
structure Tracks (s b : Server) (γ : ι → Stage) : Prop where
  closed : s.db.savepoint = none
  closed_serial : b.db.savepoint = none
  accounts : b.db.current.accounts = s.db.current.accounts
  keys : s.db.current.accounts.keys = s₀.db.current.accounts.keys
  old : ∀ k ∈ s₀.db.current.transactions.hashes, k ∈ s.db.current.transactions.hashes
  outcomes : ∀ x, x ∈ b.db.current.transactions.outcomes ↔
    x ∈ s.db.current.transactions.outcomes ∨ Outstanding calls γ x
  fresh : ∀ i, γ i ≠ .done → hashOf calls i ∉ s₀.db.current.transactions.hashes →
    hashOf calls i ∉ s.db.current.transactions.hashes
  rejecting : ∀ i, γ i = .rejecting → hashOf calls i ∉ s₀.db.current.transactions.hashes

/-- The annotation of a thread of the pool. -/
abbrev Linear [DecidableEq ι] {α : Type} (Q : ι → Stage → α → Prop) (i : ι) (g : Stage)
    (p : Service α) : Prop :=
  Pool.Annotated Action.exec (fun _ => ReadsCurrent)
    (Pool.Linearized Action.exec (fun i => settleProgram (calls i)) s₀ (· ≠ .pending)
      (Tracks calls s₀)) (fun _ _ _ => True) Q i g p

variable {calls s₀} {i : ι} {s b : Server} {γ : ι → Stage}
  {x : String × String × String × ℤ × Status}

theorem mem_hashes {t : TransactionTable} {k : String} :
    k ∈ t.hashes ↔ ∃ x ∈ t.outcomes, x.1 = k := by
  simp only [TransactionTable.hashes, TransactionTable.outcomes, List.mem_map]
  constructor
  · rintro ⟨tx, htx, rfl⟩
    exact ⟨tx.outcome, ⟨tx, htx, rfl⟩, rfl⟩
  · rintro ⟨_, ⟨tx, htx, rfl⟩, rfl⟩
    exact ⟨tx, htx, rfl⟩

theorem mem_outcomes_insert {t : TransactionTable} {settledAt : ℤ} {status : Status}
    (hnew : cstr ((calls i).1.transaction settledAt status).packetHash ∉
      t.rows.map Transaction.packetHash) :
    x ∈ (t.insert ((calls i).1.transaction settledAt status) hnew).outcomes ↔
      x ∈ t.outcomes ∨ x = outcomeOf calls i status := by
  simp only [TransactionTable.outcomes, TransactionTable.insert, List.map_append,
    List.map_singleton, List.mem_append, List.mem_singleton]
  rfl

theorem mem_hashes_insert {t : TransactionTable} {settledAt : ℤ} {status : Status} {k : String}
    (hnew : cstr ((calls i).1.transaction settledAt status).packetHash ∉
      t.rows.map Transaction.packetHash) :
    k ∈ (t.insert ((calls i).1.transaction settledAt status) hnew).hashes ↔
      k ∈ t.hashes ∨ k = hashOf calls i := by
  simp only [TransactionTable.hashes, TransactionTable.insert, List.map_append,
    List.map_singleton, List.mem_append, List.mem_singleton]
  rfl

section Steps

variable [DecidableEq ι]

theorem outstanding_update (g : Stage) :
    Outstanding calls (Function.update γ i g) x ↔
      (g = .rejecting ∧ x = outcomeOf calls i .REJECTED) ∨
        ∃ j, j ≠ i ∧ γ j = .rejecting ∧ x = outcomeOf calls j .REJECTED := by
  constructor
  · rintro ⟨j, hj, rfl⟩
    by_cases hji : j = i
    · subst hji
      rw [Function.update_self] at hj
      exact Or.inl ⟨hj, rfl⟩
    · rw [Function.update_of_ne hji] at hj
      exact Or.inr ⟨j, hji, hj, rfl⟩
  · rintro (⟨hg, rfl⟩ | ⟨j, hji, hj, rfl⟩)
    · exact ⟨i, by rwa [Function.update_self], rfl⟩
    · exact ⟨j, by rwa [Function.update_of_ne hji], rfl⟩

theorem outstanding_iff (i : ι) :
    Outstanding calls γ x ↔ (γ i = .rejecting ∧ x = outcomeOf calls i .REJECTED) ∨
      ∃ j, j ≠ i ∧ γ j = .rejecting ∧ x = outcomeOf calls j .REJECTED := by
  rw [← outstanding_update (γ i), Function.update_eq_self]

/-- The stages of the other calls are as before. -/
theorem stage_of_update {g g' : Stage} (hg : g ≠ g') {j : ι} (hj : Function.update γ i g j = g') :
    j ≠ i ∧ γ j = g' := by
  by_cases hji : j = i
  · subst hji
    rw [Function.update_self] at hj
    exact absurd hj hg
  · exact ⟨hji, by rwa [Function.update_of_ne hji] at hj⟩

theorem stage_of_update_ne {g g' : Stage} (hg : g = g') {j : ι}
    (hj : Function.update γ i g j ≠ g') : j ≠ i ∧ γ j ≠ g' := by
  by_cases hji : j = i
  · subst hji
    rw [Function.update_self] at hj
    exact absurd hg hj
  · exact ⟨hji, by rwa [Function.update_of_ne hji] at hj⟩

end Steps

section Serial

variable (calls) in
theorem run_settleProgram (hsp : b.db.savepoint = none) (i : ι) :
    ∃ r db, ((settleProgram (calls i)).run b) = (r, { b with db }) ∧
      Settles (calls i).1 ((calls i).2 1) b.db r db :=
  run_settle (calls i).1 { settledAt := (calls i).2 } hsp fun _ => rfl

theorem serial_of_mem (hsp : b.db.savepoint = none)
    (hmem : hashOf calls i ∈ b.db.current.transactions.hashes) :
    ((settleProgram (calls i)).run b).2 = b := by
  obtain ⟨r, db, hrun, hsettles⟩ := run_settleProgram calls hsp i
  obtain rfl := hsettles.of_mem hmem
  rw [hrun]

theorem serial_of_short (hsp : b.db.savepoint = none)
    (hnew : hashOf calls i ∉ b.db.current.transactions.hashes) {sender receiver : Account}
    (hshort : Short b.db.current.accounts (calls i).1.instruction sender receiver) :
    ((settleProgram (calls i)).run b).2 = { b with db := ⟨⟨b.db.current.accounts,
      b.db.current.transactions.insert ((calls i).1.transaction ((calls i).2 1) .REJECTED) hnew⟩,
        b.db.savepoint⟩ } := by
  obtain ⟨r, db, hrun, hsettles⟩ := run_settleProgram calls hsp i
  obtain ⟨-, rfl⟩ := hsettles.of_short hshort hnew
  rw [hrun]

theorem serial_of_covered (hsp : b.db.savepoint = none)
    (hnew : hashOf calls i ∉ b.db.current.transactions.hashes) {sender receiver : Account}
    (hc : Covered b.db.current.accounts (calls i).1.instruction sender receiver) :
    ((settleProgram (calls i)).run b).2 = { b with db :=
      ⟨⟨b.db.current.transfer sender receiver (calls i).1.instruction.amount,
        b.db.current.transactions.insert ((calls i).1.transaction ((calls i).2 1) .SETTLED) hnew⟩,
        none⟩ } := by
  obtain ⟨r, db, hrun, hsettles⟩ := run_settleProgram calls hsp i
  obtain ⟨-, rfl⟩ := hsettles.of_covered hc hnew
  rw [hrun]

end Serial

section Points

variable [DecidableEq ι] (hpay : Payments calls s₀)

include hpay

omit [DecidableEq ι] in
theorem Tracks.payable (h : Tracks calls s₀ s b γ) (i : ι) :
    ∃ sender receiver, Payable s.db.current.accounts (calls i).1.instruction sender receiver := by
  obtain ⟨sender, hs⟩ := Table.exists_find?_of_mem_keys (h.keys ▸ hpay.sender i)
  obtain ⟨receiver, hr⟩ := Table.exists_find?_of_mem_keys (h.keys ▸ hpay.receiver i)
  exact ⟨sender, receiver, hs, hr, hpay.positive i⟩

omit [DecidableEq ι] in
/-- The row of a call that has not taken effect is not in the serial execution either. -/
theorem Tracks.new_serial (h : Tracks calls s₀ s b γ) (hi : γ i = .pending)
    (hnew : hashOf calls i ∉ s₀.db.current.transactions.hashes) :
    hashOf calls i ∉ b.db.current.transactions.hashes := by
  intro hmem
  obtain ⟨x, hx, hhash⟩ := mem_hashes.mp hmem
  rcases (h.outcomes x).mp hx with hx | ⟨j, hj, rfl⟩
  · have hpending : γ i ≠ .done := by simp [hi]
    exact h.fresh i hpending hnew (mem_hashes.mpr ⟨x, hx, hhash⟩)
  · obtain rfl := hpay.hashes j i hhash
    rw [hi] at hj
    cases hj

omit hpay in
/-- A call whose hash was stored before takes effect without a trace. -/
theorem Tracks.replayed (h : Tracks calls s₀ s b γ) (hi : γ i = .pending)
    (hold : hashOf calls i ∈ s₀.db.current.transactions.hashes) :
    Tracks calls s₀ s ((settleProgram (calls i)).run b).2 (Function.update γ i .done) := by
  have hmem : hashOf calls i ∈ b.db.current.transactions.hashes := by
    obtain ⟨x, hx, hhash⟩ := mem_hashes.mp (h.old _ hold)
    exact mem_hashes.mpr ⟨x, (h.outcomes x).mpr (Or.inl hx), hhash⟩
  rw [serial_of_mem h.closed_serial hmem]
  refine ⟨h.closed, h.closed_serial, h.accounts, h.keys, h.old, fun x => ?_, fun j hj => ?_,
    fun j hj => ?_⟩
  · rw [h.outcomes, outstanding_update, outstanding_iff i]
    simp [hi]
  · exact h.fresh j (stage_of_update_ne rfl hj).2
  · exact h.rejecting j (stage_of_update (by simp) hj).2

/-- A call that is short takes effect as a rejection. -/
theorem Tracks.rejected (h : Tracks calls s₀ s b γ) (hi : γ i = .pending)
    (hnew : hashOf calls i ∉ s₀.db.current.transactions.hashes) {sender receiver : Account}
    (hshort : Short s.db.current.accounts (calls i).1.instruction sender receiver) :
    Tracks calls s₀ s ((settleProgram (calls i)).run b).2 (Function.update γ i .rejecting) := by
  have hserial := h.new_serial hpay hi hnew
  rw [serial_of_short h.closed_serial hserial (h.accounts ▸ hshort)]
  refine ⟨h.closed, h.closed_serial, h.accounts, h.keys, h.old, fun x => ?_, fun j hj => ?_,
    fun j hj => ?_⟩
  · refine (mem_outcomes_insert hserial).trans ?_
    rw [h.outcomes, outstanding_update, outstanding_iff i]
    simp only [hi, reduceCtorEq, false_and, false_or, true_and]
    exact or_assoc.trans (or_congr_right or_comm)
  · by_cases hji : j = i
    · subst hji
      exact fun _ => h.fresh j (by simp [hi]) hnew
    · rw [Function.update_of_ne hji] at hj
      exact h.fresh j hj
  · by_cases hji : j = i
    · subst hji
      exact hnew
    · rw [Function.update_of_ne hji] at hj
      exact h.rejecting j hj

theorem Tracks.fresh_insert (h : Tracks calls s₀ s b γ) {settledAt : ℤ} {status : Status}
    (hnew : hashOf calls i ∉ s.db.current.transactions.hashes) {j : ι}
    (hj : Function.update γ i .done j ≠ .done)
    (hnewj : hashOf calls j ∉ s₀.db.current.transactions.hashes) :
    hashOf calls j ∉
      (s.db.current.transactions.insert ((calls i).1.transaction settledAt status) hnew).hashes := by
  obtain ⟨hji, hj⟩ := stage_of_update_ne rfl hj
  intro hmem
  rcases (mem_hashes_insert hnew).mp hmem with hmem | hsame
  · exact h.fresh j hj hnewj hmem
  · exact hji (hpay.hashes j i hsame)

/-- A rejected call inserts its row. -/
theorem Tracks.inserted (h : Tracks calls s₀ s b γ) (hi : γ i = .rejecting) {settledAt : ℤ}
    (hnew : hashOf calls i ∉ s.db.current.transactions.hashes) :
    Tracks calls s₀ { s with db := ⟨⟨s.db.current.accounts,
      s.db.current.transactions.insert ((calls i).1.transaction settledAt .REJECTED) hnew⟩,
        s.db.savepoint⟩ } b (Function.update γ i .done) := by
  refine ⟨h.closed, h.closed_serial, h.accounts, h.keys, fun k hk => ?_, fun x => ?_,
    fun j hj => h.fresh_insert hpay hnew hj, fun j hj => ?_⟩
  · exact (mem_hashes_insert hnew).mpr (Or.inl (h.old k hk))
  · refine Iff.trans ?_ (or_congr_left (mem_outcomes_insert hnew).symm)
    rw [h.outcomes, outstanding_update, outstanding_iff i]
    simp only [hi, reduceCtorEq, false_and, false_or, true_and]
    exact or_assoc.symm
  · exact h.rejecting j (stage_of_update (by simp) hj).2

/-- A covered call takes effect at its commit. -/
theorem Tracks.committed (h : Tracks calls s₀ s b γ) (hi : γ i = .pending) {settledAt : ℤ}
    (hnew₀ : hashOf calls i ∉ s₀.db.current.transactions.hashes)
    (hnew : hashOf calls i ∉ s.db.current.transactions.hashes) {sender receiver : Account}
    (hc : Covered s.db.current.accounts (calls i).1.instruction sender receiver) :
    Tracks calls s₀ { s with db := ⟨⟨s.db.current.transfer sender receiver
        (calls i).1.instruction.amount,
      s.db.current.transactions.insert ((calls i).1.transaction settledAt .SETTLED) hnew⟩, none⟩ }
      ((settleProgram (calls i)).run b).2 (Function.update γ i .done) := by
  have hserial := h.new_serial hpay hi hnew₀
  rw [serial_of_covered h.closed_serial hserial (h.accounts ▸ hc)]
  refine ⟨rfl, rfl, ?_, ?_, fun k hk => ?_, fun x => ?_, fun j hj => h.fresh_insert hpay hnew hj,
    fun j hj => ?_⟩
  · simp only [Tables.transfer, h.accounts]
  · exact (Tables.keys_transfer _ (Table.mem_of_find? hc.findSender)
      (Table.mem_of_find? hc.findReceiver)).trans h.keys
  · exact (mem_hashes_insert hnew).mpr (Or.inl (h.old k hk))
  · refine (mem_outcomes_insert hserial).trans (Iff.trans ?_ (or_congr_left
      (mem_outcomes_insert hnew).symm))
    rw [h.outcomes, outstanding_update, outstanding_iff i]
    simp only [hi, reduceCtorEq, false_and, false_or]
    exact or_assoc.trans ((or_congr_right or_comm).trans or_assoc.symm)
  · exact h.rejecting j (stage_of_update (by simp) hj).2

end Points

section Threads

variable [DecidableEq ι] {g : Stage}

/-- An action that changes nothing, at which no call takes effect. -/
theorem linear_silent {a : Action} {Q : Stage → a.Response → Prop}
    (h : ∀ s b γ, Tracks calls s₀ s b γ → γ i = g → (a.exec s).2 = s ∧ Q g (a.exec s).1) :
    Linear calls s₀ (fun _ => Q) i g (Program.call a) := by
  intro s γ hg hinv _
  obtain ⟨order, _, _, htracks⟩ := id hinv
  obtain ⟨hsame, hQ⟩ := h s _ γ htracks hg
  refine ⟨trivial, g, ?_, hQ⟩
  rw [hsame, ← hg, Function.update_eq_self]
  exact hinv

section Replayed

variable (hold : hashOf calls i ∈ s₀.db.current.transactions.hashes)

include hold

theorem linear_replayed_sender (hg : g ≠ .rejecting) {vpa : String} :
    Linear calls s₀ (fun _ g _ => g = .done) i g (findById vpa none) := by
  intro s γ hγ hinv _
  refine ⟨trivial, .done, ?_, rfl⟩
  cases g with
  | pending => exact hinv.point (by simp [hγ]) (by simp) fun b h => h.replayed hγ hold
  | rejecting => exact absurd rfl hg
  | done =>
    rw [← hγ, Function.update_eq_self]
    exact hinv

theorem linear_replayed_recordRejected {settledAt : ℤ} :
    Linear calls s₀ (fun _ g _ => g = .done) i .done
      (recordRejected (calls i).1 settledAt none) := by
  refine linear_silent fun s b γ htracks _ => ⟨?_, rfl⟩
  simp only [Action.exec]
  rw [save_transaction_of_mem (htracks.old _ hold)]

theorem linear_replayed_writeBlock {sender receiver : Account} {settledAt : ℤ} :
    Linear calls s₀ (fun _ g _ => g = .done) i .done
      (writeBlock sender receiver (calls i).1 settledAt {}) := by
  refine linear_silent fun s b γ htracks _ => ⟨?_, rfl⟩
  have hroll : ({} : AttemptFaults).rollback = none := rfl
  rcases settleBlock_of_rollback sender receiver (calls i).1 settledAt s.db hroll with
    ⟨r, hblock, _⟩ | ⟨_, hnew, _⟩
  · simp only [Action.exec, hblock]
  · exact absurd (htracks.old _ hold) hnew

theorem linear_replayed_attempt (hg : g ≠ .rejecting) {settledAt : ℤ} :
    Linear calls s₀ (fun _ g _ => g = .done) i g (attempt (calls i).1 settledAt {}) := by
  refine (linear_replayed_sender hold hg).bind fun g sender hdone => ?_
  subst hdone
  cases sender with
  | none => exact rfl
  | some sender =>
    have hread : Linear calls s₀ (fun _ g _ => g = .done) i .done
        (findById (calls i).1.instruction.receiverVpa none) :=
      linear_silent fun _ _ _ _ _ => ⟨rfl, rfl⟩
    refine hread.bind fun g receiver hdone => ?_
    subst hdone
    cases receiver with
    | none => exact rfl
    | some receiver =>
      unfold afterReads
      dsimp only
      split_ifs
      · exact rfl
      · refine (linear_replayed_recordRejected hold).bind fun g r hdone => ?_
        subst hdone
        cases r <;> exact rfl
      · exact (linear_replayed_writeBlock hold).bind fun _ _ hdone => hdone

theorem linear_replayed_attempts {env : SettleEnv} (hf : ∀ n, env.faults n = {}) {n remaining : ℕ}
    (hg : g ≠ .rejecting) (hlast : remaining = 0 → g = .done) :
    Linear calls s₀ (fun _ g _ => g = .done) i g (attempts (calls i).1 env n remaining) := by
  induction remaining generalizing n g with
  | zero => exact hlast rfl
  | succ remaining ih =>
    simp only [attempts, hf]
    refine (linear_replayed_attempt hold hg).bind fun g r hdone => ?_
    subst hdone
    cases r with
    | returned tx => exact rfl
    | thrown e => exact rfl
    | failed e =>
      dsimp only
      split_ifs
      · exact rfl
      · exact ih (by simp) fun _ => rfl

end Replayed

section New

variable (hpay : Payments calls s₀) (hnew₀ : hashOf calls i ∉ s₀.db.current.transactions.hashes)

include hpay hnew₀

/-- The read of the sender rejects a call that it finds short. -/
theorem linear_sender :
    Linear calls s₀ (fun _ g r => ∃ sender : Account, r = some sender ∧
        sender.vpa = cstr (calls i).1.instruction.senderVpa ∧
        ((g = .pending ∧ (calls i).1.instruction.amount ≤ sender.balance) ∨
          (g = .rejecting ∧ sender.balance < (calls i).1.instruction.amount)))
      i .pending (findById (calls i).1.instruction.senderVpa none) := by
  intro s γ hγ hinv _
  obtain ⟨order, _, _, htracks⟩ := id hinv
  obtain ⟨sender, receiver, hp⟩ := htracks.payable hpay i
  have hvpa := Table.key_of_find? hp.findSender
  by_cases hcov : (calls i).1.instruction.amount ≤ sender.balance
  · refine ⟨trivial, .pending, ?_, sender, hp.findSender, hvpa, Or.inl ⟨rfl, hcov⟩⟩
    have hsame : Function.update γ i .pending = γ := hγ ▸ Function.update_eq_self i γ
    rw [hsame]
    exact hinv
  · rw [not_le] at hcov
    refine ⟨trivial, .rejecting, ?_, sender, hp.findSender, hvpa, Or.inr ⟨rfl, hcov⟩⟩
    exact hinv.point (by simp [hγ]) (by simp) fun b h => h.rejected hpay hγ hnew₀ ⟨hp, hcov⟩

omit hnew₀ in
theorem linear_receiver :
    Linear calls s₀ (fun _ g' r => g' = g ∧ ∃ receiver : Account, r = some receiver ∧
        receiver.vpa = cstr (calls i).1.instruction.receiverVpa)
      i g (findById (calls i).1.instruction.receiverVpa none) := by
  refine linear_silent (a := .findById (calls i).1.instruction.receiverVpa none)
    (Q := fun g' r => g' = g ∧ ∃ receiver : Account, r = some receiver ∧
      receiver.vpa = cstr (calls i).1.instruction.receiverVpa) fun s b γ htracks _ => ⟨rfl, rfl, ?_⟩
  obtain ⟨sender, receiver, hp⟩ := htracks.payable hpay i
  exact ⟨receiver, hp.findReceiver, Table.key_of_find? hp.findReceiver⟩

theorem linear_recordRejected {settledAt : ℤ} :
    Linear calls s₀ (fun _ g r => g = .done ∧ ∃ tx, r = .ok tx) i .rejecting
      (recordRejected (calls i).1 settledAt none) := by
  intro s γ hγ hinv _
  obtain ⟨order, _, _, htracks⟩ := id hinv
  have hnew := htracks.fresh i (by simp [hγ]) hnew₀
  refine ⟨trivial, .done, ?_, rfl, ?_⟩
  · simp only [Action.exec]
    rw [save_transaction_of_notMem hnew]
    exact hinv.silent (by simp [hγ]) fun b h => h.inserted hpay hγ hnew
  · simp only [Action.exec]
    rw [save_transaction_of_notMem hnew]
    exact ⟨_, rfl⟩

theorem linear_writeBlock {sender receiver : Account} {settledAt : ℤ}
    (hs : sender.vpa = cstr (calls i).1.instruction.senderVpa)
    (hr : receiver.vpa = cstr (calls i).1.instruction.receiverVpa)
    (hcov : (calls i).1.instruction.amount ≤ sender.balance) :
    Linear calls s₀ (fun _ g r => g = .done ∧ ∃ tx, r = .committed tx) i .pending
      (writeBlock sender receiver (calls i).1 settledAt {}) := by
  intro s γ hγ hinv hcurrent
  obtain ⟨order, _, _, htracks⟩ := id hinv
  have hnew := htracks.fresh i (by simp [hγ]) hnew₀
  have hc : Covered s.db.current.accounts (calls i).1.instruction sender receiver :=
    ⟨⟨hs ▸ hcurrent.1, hr ▸ hcurrent.2, hpay.positive i⟩, hcov⟩
  obtain ⟨hr, hdb⟩ := (settleBlock_ends sender receiver (calls i).1 settledAt {} s.db).of_commits
    htracks.closed ⟨rfl, rfl, rfl⟩ hnew
  simp only [Action.exec, hr, hdb]
  refine ⟨trivial, .done, ?_, rfl, _, rfl⟩
  exact hinv.point (by simp [hγ]) (by simp) fun b h => h.committed hpay hγ hnew₀ hnew hc

theorem linear_attempt {settledAt : ℤ} :
    Linear calls s₀ (fun _ g r => g = .done ∧ ∃ tx, r = .returned tx) i .pending
      (attempt (calls i).1 settledAt {}) := by
  refine (linear_sender hpay hnew₀).bind fun g r hsender => ?_
  obtain ⟨sender, rfl, hs, hstage⟩ := hsender
  refine (linear_receiver hpay).bind fun g' r hreceiver => ?_
  obtain ⟨rfl, receiver, rfl, hr⟩ := hreceiver
  have hpos := hpay.positive i
  dsimp only
  unfold afterReads
  rcases hstage with ⟨rfl, hcov⟩ | ⟨rfl, hshort⟩
  · simp only [if_neg hpos.not_ge, if_neg hcov.not_gt]
    refine (linear_writeBlock hpay hnew₀ hs hr hcov).bind fun g r hwritten => ?_
    obtain ⟨rfl, tx, rfl⟩ := hwritten
    exact ⟨rfl, tx, rfl⟩
  · simp only [if_neg hpos.not_ge, if_pos hshort]
    refine (linear_recordRejected hpay hnew₀).bind fun g r hrecorded => ?_
    obtain ⟨rfl, tx, rfl⟩ := hrecorded
    exact ⟨rfl, tx, rfl⟩

end New

theorem linear_settle (hpay : Payments calls s₀) (i : ι) :
    Linear calls s₀ (fun _ g _ => g = .done) i .pending (settleProgram (calls i)) := by
  by_cases hold : hashOf calls i ∈ s₀.db.current.transactions.hashes
  · exact linear_replayed_attempts hold (fun _ => rfl) (by simp) (by simp [maxAttempts])
  · refine (linear_attempt hpay hold).bind fun g r hreturned => ?_
    obtain ⟨rfl, tx, rfl⟩ := hreturned
    exact rfl

end Threads

end Proof

theorem TransactionTable.nodup_outcomes (t : TransactionTable) : t.outcomes.Nodup := by
  have hhashes : (t.outcomes.map Prod.fst).Nodup := by
    rw [TransactionTable.outcomes, List.map_map]
    exact t.unique
  exact List.Nodup.of_map Prod.fst hhashes

/-- Calls whose write blocks all find the copies they read are serializable. -/
theorem serializable_of_reads_current {ι : Type} [DecidableEq ι]
    (calls : ι → SettleCall × (ℕ → ℤ)) (s₀ : Server) (hpay : Payments calls s₀)
    (trace : List (ι × Action))
    (c : Pool ι Action Action.Response (Except Exn Transaction) Server)
    (hrun : Pool.Run Action.exec (fun _ => ReadsCurrent)
      ⟨s₀, fun i => settleProgram (calls i)⟩ trace c) (hfinished : c.Finished) :
    Serializable calls s₀ c.shared := by
  have hstart : Pool.Sound Action.exec (fun _ => ReadsCurrent)
      (Pool.Linearized Action.exec (fun i => settleProgram (calls i)) s₀ (· ≠ .pending)
        (Tracks calls s₀)) (fun _ _ _ => True) (fun _ g _ => g = .done)
      ⟨s₀, fun i => settleProgram (calls i)⟩ := by
    refine ⟨fun _ => .pending, ⟨[], List.nodup_nil, by simp, ?_⟩, linear_settle hpay⟩
    refine ⟨hpay.closed, hpay.closed, rfl, rfl, fun _ h => h, fun x => ?_, fun _ _ h => h,
      fun i hi => by cases hi⟩
    simp [Outstanding]
  obtain ⟨γ, hinv, hret⟩ := (hstart.run hrun).returned
  have hdone : ∀ i, γ i = .done := by
    intro i
    obtain ⟨r, hr⟩ := hfinished i
    exact hret i r hr
  obtain ⟨order, hnodup, hall, htracks⟩ := hinv.order fun i => by simp [hdone]
  refine ⟨order, hnodup, hall, htracks.accounts, ?_⟩
  apply (List.perm_ext_iff_of_nodup (TransactionTable.nodup_outcomes _)
    (TransactionTable.nodup_outcomes _)).mpr
  intro x
  rw [htracks.outcomes]
  simp [Outstanding, hdone]

def alicePaysCarol : PaymentInstruction :=
  { alicePaysBob with
    receiverVpa := "carol@demo"
    amount := 2000
    nonce := "m"
    amount_fits := by decide }

/-- Two payments of Alice. -/
def twoPayments : Bool → SettleCall × (ℕ → ℤ)
  | true => (⟨alicePaysBob, "h1", "phone-bridge", 1⟩, fun _ => 0)
  | false => (⟨alicePaysCarol, "h2", "phone-bridge", 1⟩, fun _ => 0)

theorem payments_twoPayments : Payments twoPayments Server.initial := by
  refine ⟨rfl, by decide, fun i => ?_, fun i => ?_, fun i => ?_⟩
  · cases i <;> decide
  · cases i <;> decide
  · cases i <;> decide

/-- Both calls read before either writes. -/
theorem debit_lost :
    Payments twoPayments Server.initial ∧
    ∃ trace c, Pool.Run Action.exec Pool.AnyStep
        ⟨Server.initial, fun i => settleProgram (twoPayments i)⟩ trace c ∧ c.Finished ∧
      ¬ Serializable twoPayments Server.initial c.shared := by
  let start : Pool Bool Action Action.Response (Except Exn Transaction) Server :=
    ⟨Server.initial, fun i => settleProgram (twoPayments i)⟩
  let schedule := [true, true, false, false, true, false]
  obtain ⟨trace, hrun⟩ :=
    Pool.Run.of_schedule (Pool.admissible_anyStep Action.exec schedule start)
  have hreturned : ∀ i, ((schedule.foldl (Pool.advance Action.exec) start).threads i).returned? =
      true := by decide +kernel
  have hpool : ((schedule.foldl (Pool.advance Action.exec) start).shared.db.current.accounts.find?
      "alice@demo").map Account.balance = some 498000 := by decide +kernel
  refine ⟨payments_twoPayments, trace, _, hrun,
    fun i => Program.returned?_eq_true.mp (hreturned i), ?_⟩
  rintro ⟨order, hnodup, hall, haccounts, _⟩
  have hserial : ∀ order ∈ [true, false].permutations',
      ((Pool.serial Action.exec (fun i => settleProgram (twoPayments i)) order
        Server.initial).db.current.accounts.find? "alice@demo").map Account.balance =
          some 497000 := by decide +kernel
  have hdebited := hserial order (Pool.mem_orders hnodup hall (by decide) (by decide))
  rw [haccounts, hpool] at hdebited
  cases hdebited

/-- One call after the other. -/
theorem serializable_of_reads_current_two :
    ∃ trace c, Pool.Run Action.exec (fun _ => ReadsCurrent)
        ⟨Server.initial, fun i => settleProgram (twoPayments i)⟩ trace c ∧ c.Finished ∧
      Serializable twoPayments Server.initial c.shared := by
  let start : Pool Bool Action Action.Response (Except Exn Transaction) Server :=
    ⟨Server.initial, fun i => settleProgram (twoPayments i)⟩
  let schedule := [true, true, true, false, false, false]
  have hadmissible : Pool.Admissible Action.exec (fun _ => ReadsCurrent) schedule start :=
    ⟨trivial, trivial, ⟨rfl, rfl⟩, trivial, trivial, ⟨rfl, rfl⟩, trivial⟩
  obtain ⟨trace, hrun⟩ := Pool.Run.of_schedule hadmissible
  have hreturned : ∀ i, ((schedule.foldl (Pool.advance Action.exec) start).threads i).returned? =
      true := by decide +kernel
  have hfinished : (schedule.foldl (Pool.advance Action.exec) start).Finished :=
    fun i => Program.returned?_eq_true.mp (hreturned i)
  exact ⟨trace, _, hrun, hfinished, serializable_of_reads_current twoPayments Server.initial
    payments_twoPayments trace _ hrun hfinished⟩

end UpiMesh
