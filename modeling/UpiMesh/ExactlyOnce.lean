import UpiMesh.Api
import UpiMesh.IngestionSpec

/-!
# Exactly once under concurrency and eviction

Any number of `ingest` calls and evictor passes interleave at their atomic actions, with any
statement faults except a failing `ROLLBACK`. The ghost value of a call says that it has inserted a
row. Since `UNIQUE` admits one row per hash, at most one call per ciphertext inserts, and only a call
that has inserted answers SETTLED or REJECTED.
-/

namespace UpiMesh

open Concurrent BridgeIngestionService SettlementService

def Op.RollbackSucceeds : Op → Prop
  | .ingest _ _ _ env => ∀ n, (env.faults n).rollback = none
  | _ => True

/-- The accounts stay as they are, or one SETTLED row is inserted. -/
def MovesMoneyWithRow (s s' : Server) : Prop :=
  s'.db.current.accounts = s.db.current.accounts ∨
    ∃ row, row.status = .SETTLED ∧
      s'.db.current.transactions.rows = s.db.current.transactions.rows ++ [row]

section Proof

variable {ι : Type} [DecidableEq ι] (crypto : CryptoService) (ops : ι → Op)

/-- No transaction is open; the calls that have inserted a row carry different ciphertexts, and the
rows of these are stored. -/
def Inserted (s : Server) (γ : ι → Bool) : Prop :=
  s.db.savepoint = none ∧ ∀ i, γ i = true → ∃ c, (ops i).ciphertext? = some c ∧
    crypto.hashCiphertext c ∈ s.db.current.transactions.rows.map Transaction.packetHash ∧
    ∀ j, j ≠ i → γ j = true → (ops j).ciphertext? ≠ some c

/-- The annotation of a thread of the pool. -/
abbrev Keeps {α : Type} (Q : ι → Bool → α → Prop) (i : ι) (g : Bool) (p : Service α) : Prop :=
  Pool.Annotated Action.exec Pool.AnyStep (Inserted crypto ops) (fun _ => MovesMoneyWithRow) Q i g p

variable {crypto ops} {i : ι} {s s' : Server} {γ : ι → Bool}

omit [DecidableEq ι] in
theorem Inserted.of_db (h : Inserted crypto ops s γ) (hdb : s'.db = s.db) :
    Inserted crypto ops s' γ := by rwa [Inserted, hdb]

/-- One more row, by a call whose hash was not stored. -/
theorem Inserted.insert (h : Inserted crypto ops s γ) {c : String} {row : Transaction}
    (hc : (ops i).ciphertext? = some c) (hrow : row.packetHash = crypto.hashCiphertext c)
    (hnew : crypto.hashCiphertext c ∉ s.db.current.transactions.rows.map Transaction.packetHash)
    (hsp : s'.db.savepoint = none)
    (hrows : s'.db.current.transactions.rows = s.db.current.transactions.rows ++ [row]) :
    Inserted crypto ops s' (Function.update γ i true) := by
  have hmem : ∀ {k}, k ∈ s'.db.current.transactions.rows.map Transaction.packetHash ↔
      k ∈ s.db.current.transactions.rows.map Transaction.packetHash ∨
        k = crypto.hashCiphertext c := by
    intro k
    rw [hrows, List.map_append, List.mem_append, List.map_singleton, List.mem_singleton, hrow]
  refine ⟨hsp, fun j hj => ?_⟩
  by_cases hji : j = i
  · subst hji
    refine ⟨c, hc, hmem.mpr (Or.inr rfl), fun k hk hγ hsame => ?_⟩
    rw [Function.update_of_ne hk] at hγ
    obtain ⟨d, hd, hstored, _⟩ := h.2 k hγ
    rw [hsame] at hd
    obtain rfl := Option.some.inj hd
    exact hnew hstored
  · rw [Function.update_of_ne hji] at hj
    obtain ⟨d, hd, hstored, hothers⟩ := h.2 j hj
    refine ⟨d, hd, hmem.mpr (Or.inl hstored), fun k hk hγ hsame => ?_⟩
    by_cases hki : k = i
    · subst hki
      rw [hsame] at hc
      obtain rfl := Option.some.inj hc
      exact hnew hstored
    · rw [Function.update_of_ne hki] at hγ
      exact hothers k hk hγ hsame

/-- An action that leaves the database alone. -/
theorem keeps_act {α : Type} {Q : ι → Bool → α → Prop} {g : Bool} {a : Action}
    {next : a.Response → Service α} (hdb : ∀ s, (a.exec s).2.db = s.db)
    (hnext : ∀ r, Keeps crypto ops Q i g (next r)) :
    Keeps crypto ops Q i g (.act a next) := by
  intro s γ hg hinv _
  refine ⟨Or.inl (by rw [hdb]), g, ?_, hnext _⟩
  rw [← hg, Function.update_eq_self]
  exact hinv.of_db (hdb s)

/-- What a settlement promises: a returned row has been inserted. -/
def Returned (_ : ι) (g : Bool) (r : Except Exn Transaction) : Prop := ∀ tx, r = .ok tx → g = true

def AttemptReturned (_ : ι) (g : Bool) (r : AttemptResult) : Prop :=
  ∀ tx, r = .returned tx → g = true

variable {call : SettleCall} {c : String} {g : Bool}

theorem keeps_recordRejected {settledAt : ℤ} {fault : Option StatementFault}
    (hc : (ops i).ciphertext? = some c) (hhash : call.packetHash = crypto.hashCiphertext c) :
    Keeps crypto ops Returned i g (recordRejected call settledAt fault) := by
  intro s γ hg hinv _
  have hsame : Inserted crypto ops s (Function.update γ i g) := by
    rwa [← hg, Function.update_eq_self]
  simp only [Action.exec]
  cases fault with
  | some f => exact ⟨Or.inl rfl, g, hsame, fun tx htx => by cases htx⟩
  | none =>
    by_cases hdup : cstr call.packetHash ∈
        s.db.current.transactions.rows.map Transaction.packetHash
    · rw [save_transaction_of_mem hdup]
      exact ⟨Or.inl rfl, g, hsame, fun tx htx => by cases htx⟩
    · rw [save_transaction_of_notMem hdup]
      have hstored : cstr call.packetHash = crypto.hashCiphertext c := by
        rw [hhash, CryptoService.cstr_hashCiphertext]
      exact ⟨Or.inl rfl, true, hinv.insert hc hstored (hstored ▸ hdup) hinv.1 rfl, fun _ _ => rfl⟩

theorem keeps_writeBlock {sender receiver : Account} {settledAt : ℤ} {faults : AttemptFaults}
    (hc : (ops i).ciphertext? = some c) (hhash : call.packetHash = crypto.hashCiphertext c)
    (hroll : faults.rollback = none) :
    Keeps crypto ops (fun _ g r => ∀ tx, r = .committed tx → g = true) i g
      (writeBlock sender receiver call settledAt faults) := by
  intro s γ hg hinv _
  have hsame : Inserted crypto ops s (Function.update γ i g) := by
    rwa [← hg, Function.update_eq_self]
  rcases settleBlock_of_rollback sender receiver call settledAt s.db hroll with
    ⟨r, hblock, hr⟩ | ⟨tx, hnew, hblock⟩
  · simp only [Action.exec, hblock]
    exact ⟨Or.inl rfl, g, hsame, fun tx htx => absurd htx (hr tx)⟩
  · simp only [Action.exec, hblock]
    have hstored : cstr call.packetHash = crypto.hashCiphertext c := by
      rw [hhash, CryptoService.cstr_hashCiphertext]
    exact ⟨Or.inr ⟨_, rfl, rfl⟩, true, hinv.insert hc hstored (hstored ▸ hnew) rfl rfl,
      fun _ _ => rfl⟩

theorem keeps_afterReads {sender receiver : Account} {settledAt : ℤ} {faults : AttemptFaults}
    (hc : (ops i).ciphertext? = some c) (hhash : call.packetHash = crypto.hashCiphertext c)
    (hroll : faults.rollback = none) :
    Keeps crypto ops AttemptReturned i g (afterReads call settledAt faults sender receiver) := by
  unfold afterReads
  dsimp only
  split_ifs with hpos hshort
  · intro tx htx
    cases htx
  · refine (keeps_recordRejected hc hhash).bind fun g r hr => ?_
    cases r with
    | ok tx => exact fun _ _ => hr tx rfl
    | error e => exact fun tx htx => by cases htx
  · refine (keeps_writeBlock hc hhash hroll).bind fun g r hr => ?_
    cases r with
    | committed tx => exact fun _ _ => hr tx rfl
    | _ => exact fun tx htx => by cases htx

theorem keeps_attempt {settledAt : ℤ} {faults : AttemptFaults}
    (hc : (ops i).ciphertext? = some c) (hhash : call.packetHash = crypto.hashCiphertext c)
    (hroll : faults.rollback = none) :
    Keeps crypto ops AttemptReturned i g (attempt call settledAt faults) := by
  refine keeps_act (fun _ => rfl) fun sender => ?_
  cases sender with
  | none => exact fun tx htx => by cases htx
  | some sender =>
    refine keeps_act (fun _ => rfl) fun receiver => ?_
    cases receiver with
    | none => exact fun tx htx => by cases htx
    | some receiver => exact keeps_afterReads hc hhash hroll

theorem keeps_attempts {env : SettleEnv} {n remaining : ℕ}
    (hc : (ops i).ciphertext? = some c) (hhash : call.packetHash = crypto.hashCiphertext c)
    (hroll : ∀ n, (env.faults n).rollback = none) :
    Keeps crypto ops Returned i g (attempts call env n remaining) := by
  induction remaining generalizing n g with
  | zero => exact fun tx htx => by cases htx
  | succ remaining ih =>
    refine (keeps_attempt hc hhash (hroll n)).bind fun g r hr => ?_
    cases r with
    | returned tx => exact fun _ _ => hr tx rfl
    | thrown e => exact fun tx htx => by cases htx
    | failed e =>
      dsimp only
      split_ifs
      · exact fun tx htx => by cases htx
      · exact ih

/-- A decided answer has been inserted. -/
def Answered (_ : ι) (g : Bool) (r : IngestResult) : Prop := r.Decided → g = true

theorem not_decided_invalid {packetHash reason : String} {id : Option ℤ} :
    ¬ IngestResult.Decided ⟨"INVALID", packetHash, reason, id⟩ :=
  IngestResult.not_decided "INVALID" rfl (by decide) (by decide)

theorem keeps_ingest {packet : MeshPacket} {bridgeNodeId : String} {hopCount : ℤ} {env : IngestEnv}
    (hc : (ops i).ciphertext? = some packet.ciphertext)
    (hroll : ∀ n, (env.faults n).rollback = none) :
    Keeps crypto ops Answered i g (ingest crypto packet bridgeNodeId hopCount env) := by
  refine keeps_act (fun _ => rfl) fun won => ?_
  cases won with
  | false =>
    intro h
    exact absurd h (IngestResult.not_decided "DUPLICATE_DROPPED" rfl (by decide) (by decide))
  | true =>
    change Keeps crypto ops Answered i g (afterClaim crypto packet bridgeNodeId hopCount env _)
    unfold afterClaim
    cases crypto.decrypt packet.ciphertext with
    | error e => exact fun h => absurd h not_decided_invalid
    | ok instruction =>
      dsimp only
      split_ifs
      · exact fun h => absurd h not_decided_invalid
      · exact fun h => absurd h not_decided_invalid
      · refine (keeps_attempts hc rfl hroll).bind fun g r hr => ?_
        cases r with
        | ok tx => exact fun _ => hr tx rfl
        | error e => exact fun h => absurd h not_decided_invalid

/-- What a thread of the pool promises. -/
def Replied (_ : ι) (g : Bool) (r : Reply) : Prop :=
  ∀ answer, r = .ingested answer → answer.Decided → g = true

theorem keeps_program (hkind : (ops i).IngestsOrEvicts) (hroll : (ops i).RollbackSucceeds) :
    Keeps crypto ops Replied i g ((ops i).program crypto) := by
  cases hop : ops i with
  | ingest packet bridgeNodeId hopCount env =>
    rw [hop] at hroll
    have hc : (ops i).ciphertext? = some packet.ciphertext := by rw [hop]; rfl
    refine (keeps_ingest hc hroll).bind fun g r hr => ?_
    rintro answer hanswer
    obtain rfl := Reply.ingested.inj hanswer
    exact hr
  | evictExpired now => exact keeps_act (fun _ => rfl) fun _ answer hanswer => by cases hanswer
  | _ =>
    rw [hop] at hkind
    exact hkind.elim

end Proof

/-- In every state of every schedule: at most one row per hash; at most one of the calls with one
ciphertext has answered SETTLED or REJECTED; and a step that changes the accounts inserts exactly
one row, which is SETTLED. -/
theorem exactly_once {ι : Type} [DecidableEq ι] (crypto : CryptoService) (ops : ι → Op)
    (hkind : ∀ i, (ops i).IngestsOrEvicts) (hroll : ∀ i, (ops i).RollbackSucceeds) (s : Server)
    (hsp : s.db.savepoint = none) {trace : List (ι × Action)}
    {c : Pool ι Action Action.Response Reply Server}
    (hrun : Pool.Run Action.exec Pool.AnyStep ⟨s, fun i => (ops i).program crypto⟩ trace c) :
    (c.shared.db.current.transactions.rows.map Transaction.packetHash).Nodup ∧
      (∀ i j ri rj, c.threads i = .ret (.ingested ri) → c.threads j = .ret (.ingested rj) →
        (ops i).ciphertext? = (ops j).ciphertext? → ri.Decided → rj.Decided → i = j) ∧
      ∀ i a c', Pool.Step Action.exec c i a c' → MovesMoneyWithRow c.shared c'.shared := by
  have hstart : Pool.Sound Action.exec Pool.AnyStep (Inserted crypto ops)
      (fun _ => MovesMoneyWithRow) Replied
      ⟨s, fun i => (ops i).program crypto⟩ :=
    ⟨fun _ => false, ⟨hsp, fun i hi => by cases hi⟩, fun i => keeps_program (hkind i) (hroll i)⟩
  have hsound := hstart.run hrun
  refine ⟨c.shared.db.current.transactions.unique, ?_, fun i a c' hstep => ?_⟩
  · intro i j ri rj hi hj hsame hri hrj
    obtain ⟨γ, hinv, hret⟩ := hsound.returned
    have hγi := hret i _ hi ri rfl hri
    have hγj := hret j _ hj rj rfl hrj
    obtain ⟨c, hc, _, hothers⟩ := hinv.2 i hγi
    by_contra hne
    exact hothers j (Ne.symm hne) hγj (hsame ▸ hc)
  · exact (hsound.step hstep trivial).2

/-- Two calls with one packet and an evictor pass. -/
def uploadsAndPass : Fin 3 → Op
  | 0 => .ingestAt "p1" "c1" 0
  | 1 => .evictExpired 86400001
  | 2 => .ingestAt "p1" "c1" 0

/-- The pass evicts the claim of the first call, so that both calls read the accounts before either writes. -/
theorem exactly_once_two_uploads :
    ∃ trace c, Pool.Run Action.exec Pool.AnyStep
        ⟨Server.initial, fun i => (uploadsAndPass i).program (.ofList [("c1", alicePaysBob)])⟩ trace c ∧
      c.Finished ∧
      (c.shared.db.current.transactions.rows.map Transaction.packetHash).Nodup ∧
      (∀ i j ri rj, c.threads i = .ret (.ingested ri) → c.threads j = .ret (.ingested rj) →
        (uploadsAndPass i).ciphertext? = (uploadsAndPass j).ciphertext? → ri.Decided → rj.Decided →
          i = j) ∧
      ∀ i a c', Pool.Step Action.exec c i a c' → MovesMoneyWithRow c.shared c'.shared := by
  let start : Pool (Fin 3) Action Action.Response Reply Server :=
    ⟨Server.initial, fun i => (uploadsAndPass i).program (.ofList [("c1", alicePaysBob)])⟩
  let schedule : List (Fin 3) := [0, 1, 2, 0, 2, 0, 2, 0] ++ List.replicate 7 2
  obtain ⟨trace, hrun⟩ :=
    Pool.Run.of_schedule (Pool.admissible_anyStep Action.exec schedule start)
  have hreturned : ∀ i, ((schedule.foldl (Pool.advance Action.exec) start).threads i).returned? =
      true := by decide +kernel
  have hkind : ∀ i, (uploadsAndPass i).IngestsOrEvicts
    | 0 | 1 | 2 => trivial
  have hroll : ∀ i, (uploadsAndPass i).RollbackSucceeds
    | 0 | 2 => fun _ => rfl
    | 1 => trivial
  exact ⟨trace, _, hrun, fun i => Program.returned?_eq_true.mp (hreturned i),
    exactly_once _ uploadsAndPass hkind hroll Server.initial rfl hrun⟩

end UpiMesh
