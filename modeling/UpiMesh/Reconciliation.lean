import UpiMesh.Api
import UpiMesh.Books
import UpiMesh.IngestionSpec

/-!
# Ledger reconciliation

Runs of fault-free `ingest` calls, evictor passes and database resets. As long as the payments that
reach the write block are between different accounts, the books stay in order after every step.
-/

namespace UpiMesh

open Int64Arith Sequential BridgeIngestionService

/-- The steps of these runs. Only a payment that reaches the write block is restricted. -/
def NamesTwoAccounts (crypto : CryptoService) : Op → Server → Prop
  | .ingest packet _ _ env, s =>
      (∀ n, env.faults n = {}) ∧ ∀ instruction sender receiver,
        Passes crypto packet env s instruction →
        Covered s.db.current.accounts instruction sender receiver → sender.vpa ≠ receiver.vpa
  | .evictExpired _, _ => True
  | .resetDatabase faults, _ => faults = {}
  | _, _ => False

/-- The accounts are reconciled with the SETTLED rows. -/
structure Reconciled (E : Endowment) (t : Tables) : Prop where
  keys : t.accounts.keys = E.accounts.keys
  balance : ∀ a ∈ t.accounts.rows, a.balance =
    E.opening a.vpa + t.transactions.credits a.vpa - t.transactions.debits a.vpa
  positive : ∀ tx ∈ t.transactions.rows, tx.status = .SETTLED → 0 < tx.amount
  outcomes : ∀ tx ∈ t.transactions.rows, tx.status = .SETTLED ∨ tx.status = .REJECTED
  total : t.accounts.sum Account.balance = E.total
  bounds : ∀ a ∈ t.accounts.rows, 0 ≤ a.balance ∧ a.balance ≤ E.total
  credit_fits : ∀ instruction sender receiver, Covered t.accounts instruction sender receiver →
    sender.vpa ≠ receiver.vpa → Fits (receiver.balance + instruction.amount)

theorem Books.reconciled {E : Endowment} {t : Tables} (h : Books E t) : Reconciled E t := by
  obtain ⟨L, hL⟩ := h
  exact
    { keys := hL.keys
      balance := fun a ha => hL.balance_eq ha
      positive := fun tx htx hs => hL.amount_pos htx hs
      outcomes := hL.outcomes
      total := hL.sum_eq_total
      bounds := fun a ha => ⟨hL.balance_nonneg ha, hL.balance_le_total ha⟩
      credit_fits := fun _ _ _ hc hne => hL.fits_credit hc hne }

/-- The books are in order and no transaction is open. -/
def Settled (s : Server) : Prop := s.db.savepoint = none ∧ Books .seed s.db.current

theorem exec_settled {crypto : CryptoService} {op : Op} {s : Server} (h : Settled s)
    (hop : NamesTwoAccounts crypto op s) : Settled (op.exec crypto s) := by
  obtain ⟨hsp, hbooks⟩ := h
  cases op with
  | ingest packet bridgeNodeId hopCount env =>
    obtain ⟨hf, hne⟩ := hop
    rw [Op.exec_ingest]
    by_cases hp : ∃ instruction, Passes crypto packet env s instruction
    · obtain ⟨instruction, hp⟩ := hp
      obtain ⟨r, db, hrun, hsettles⟩ := run_ingest_of_passes bridgeNodeId hopCount hsp
        hf hp
      rw [hrun]
      have hbooks' : Books .seed db.current :=
        hbooks.settles hsettles fun sender receiver hc _ => hne _ _ _ hp hc
      exact ⟨hsettles.savepoint hsp, hbooks'⟩
    · have hdb : ((ingest crypto packet bridgeNodeId hopCount env).run s).2.db = s.db :=
        run_ingest_of_not_passes (not_exists.mp hp)
      rw [Settled, hdb]
      exact ⟨hsp, hbooks⟩
  | evictExpired now => exact ⟨hsp, hbooks⟩
  | resetDatabase faults =>
    obtain rfl : faults = {} := hop
    exact ⟨hsp, Books.opening .seed _⟩
  | demoSend request env => exact hop.elim
  | meshGossip order => exact hop.elim
  | meshFlush env => exact hop.elim
  | meshReset order faults => exact hop.elim

/-- From the seeded database, the accounts are reconciled after every step: 900000 paise in all, and
every balance between nothing and all of it. -/
theorem ledger_reconciled (crypto : CryptoService) (ops : List Op) (s : Server)
    (hseed : s.db = Database.initial) (hops : Each (Op.exec crypto) (NamesTwoAccounts crypto) ops s) :
    Endowment.seed.total = 900000 ∧
      Always (Op.exec crypto) (fun s => Reconciled .seed s.db.current) ops s := by
  have hstart : Settled s := by
    rw [Settled, hseed]
    exact ⟨rfl, Books.opening .seed 0⟩
  refine ⟨by decide, hops.always ?_ ?_ hstart⟩
  · intro s hs
    exact hs.2.reconciled
  · intro op s hs hop
    exact exec_settled hs hop

/-- A payment, an eviction of its claim, its replay, and a reset. -/
def paymentReplayReset : List Op :=
  [.ingestAt "p1" "c1" 0, .evictExpired 86400001, .ingestAt "p1" "c1" 86400001,
    .resetDatabase {}]

theorem ledger_reconciled_replay :
    Endowment.seed.total = 900000 ∧
      Always (Op.exec (.ofList [("c1", alicePaysBob)])) (fun s => Reconciled .seed s.db.current)
        paymentReplayReset Server.initial := by
  have hne : ∀ (env : IngestEnv) (s : Server) instruction sender receiver,
      Passes (.ofList [("c1", alicePaysBob)]) ⟨"p1", 5, 0, "c1"⟩ env s instruction →
      Covered s.db.current.accounts instruction sender receiver → sender.vpa ≠ receiver.vpa := by
    intro env s instruction sender receiver hp hc
    have hopens := hp.opens
    obtain rfl := Except.ok.inj hopens
    rw [Table.key_of_find? hc.findSender, Table.key_of_find? hc.findReceiver]
    decide
  exact ledger_reconciled _ _ _ rfl
    ⟨⟨fun _ => rfl, fun _ _ _ => hne _ _ _ _ _⟩, trivial, ⟨fun _ => rfl, fun _ _ _ => hne _ _ _ _ _⟩,
      rfl, trivial⟩

end UpiMesh
