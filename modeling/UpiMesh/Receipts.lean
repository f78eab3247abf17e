import UpiMesh.CallEffects
import UpiMesh.Lib.Collect
import UpiMesh.OpActions
import UpiMesh.Sections

/-!
# Receipts

An answer with a transaction id tells its client that a row is stored. Requests of all kinds are
handled by any number of threads, any statement except a `ROLLBACK` may fail, and the code runs lock
by lock. Every id is handed out once, and as long as nobody resets, every receipt names a stored row.
-/

namespace UpiMesh

open Concurrent

/-- An answer that names a row. Only `bridgeIngest` also returns the hash. -/
structure Receipt where
  transactionId : ℤ
  outcome : String
  packetHash : Option String
  deriving DecidableEq, Repr

def IngestResult.receipts (r : IngestResult) : List Receipt :=
  r.transactionId.toList.map fun id => ⟨id, r.outcome, some r.packetHash⟩

/-- An upload that stored nothing is answered with the id -1. -/
def FlushResult.receipts (r : FlushResult) : List Receipt :=
  if r.transactionId = -1 then [] else [⟨r.transactionId, r.outcome, none⟩]

def Reply.receipts : Reply → List Receipt
  | .ingested r => r.receipts
  | .flushed r => r.results.flatMap FlushResult.receipts
  | _ => []

def ServerReply.receipts {json : JsonLibrary} : ServerReply json → List Receipt
  | .replied r => r.receipts
  | _ => []

/-- The receipt is about this row. -/
structure Receipt.Names (r : Receipt) (tx : Transaction) : Prop where
  transactionId : r.transactionId = tx.id
  outcome : r.outcome = statusToString tx.status
  packetHash : ∀ h, r.packetHash = some h → h = tx.packetHash

/-- The receipts of the services. -/
def Service.receipts : Yield Action Action.Response Transaction := ⟨Action.Reports, Action.stored⟩

def Endpoint.receipts : Yield Call Call.Response Transaction := ⟨Call.Reports, Call.stored⟩

/-- The receipts are those of the rows, in order. The id -1 stands for no row. -/
def Issued (rows : List Transaction) (receipts : List Receipt) : Prop :=
  (∀ tx ∈ rows, tx.id ≠ -1) → List.Forall₂ Receipt.Names receipts rows

theorem Issued.nil : Issued [] [] := fun _ => .nil

theorem Issued.append {rows rows' : List Transaction} {receipts receipts' : List Receipt}
    (h : Issued rows receipts) (h' : Issued rows' receipts') :
    Issued (rows ++ rows') (receipts ++ receipts') := by
  intro hids
  refine List.rel_append (h fun tx htx => ?_) (h' fun tx htx => ?_)
  · exact hids tx (List.mem_append_left _ htx)
  · exact hids tx (List.mem_append_right _ htx)

section Programs

open SettlementService BridgeIngestionService

variable {crypto : CryptoService} {call : SettleCall}

/-- What a settlement returns, and what it has stored. -/
def SettleCall.Stores (call : SettleCall) (rows : List Transaction) : Except Exn Transaction → Prop
  | .ok tx => rows = [tx.bound] ∧ tx.packetHash = call.packetHash
  | .error _ => rows = []

def AttemptStores (call : SettleCall) (rows : List Transaction) : AttemptResult → Prop
  | .returned tx => rows = [tx.bound] ∧ tx.packetHash = call.packetHash
  | _ => rows = []

theorem attempt_collects {settledAt : ℤ} {faults : AttemptFaults} :
    (attempt call settledAt faults).Collects Service.receipts (AttemptStores call) := by
  refine .act fun sender _ => ?_
  cases sender with
  | none => exact .ret rfl
  | some sender =>
    refine .act fun receiver _ => ?_
    cases receiver with
    | none => exact .ret rfl
    | some receiver =>
      change Program.Collects Service.receipts _ (afterReads call settledAt faults sender receiver)
      unfold afterReads
      dsimp only
      split_ifs
      · exact .ret rfl
      · refine .act fun r hr => ?_
        cases r with
        | ok tx => exact .ret ⟨rfl, hr tx rfl⟩
        | error e => exact .ret rfl
      · refine .act fun r hr => ?_
        cases r with
        | committed tx => exact .ret ⟨rfl, hr tx rfl⟩
        | thrown e => exact .ret rfl
        | rolledBack e => exact .ret rfl

theorem attempts_collect {env : SettleEnv} {n remaining : ℕ} :
    (attempts call env n remaining).Collects Service.receipts call.Stores := by
  induction remaining generalizing n with
  | zero => exact .ret rfl
  | succ remaining ih =>
    refine attempt_collects.bind fun rows r hr => ?_
    cases r with
    | returned tx => exact .ret (by rwa [List.append_nil])
    | thrown e => exact .ret (by rwa [List.append_nil])
    | failed e =>
      obtain rfl : rows = [] := hr
      dsimp only
      split_ifs
      · exact .ret rfl
      · exact ih

/-- A hash has no NUL, so it is stored as it is answered. -/
theorem settled_receipts {rows : List Transaction} {r : Except Exn Transaction}
    (h : call.Stores rows r) (hcall : cstr call.packetHash = call.packetHash) :
    Issued rows (settled call.packetHash r).receipts := by
  cases r with
  | error e =>
    obtain rfl : rows = [] := h
    exact .nil
  | ok tx =>
    obtain ⟨rfl, hhash⟩ := h
    intro _
    refine .cons ⟨rfl, rfl, fun k hk => ?_⟩ .nil
    obtain rfl : call.packetHash = k := Option.some.inj hk
    rw [Transaction.bound, hhash, hcall]

theorem ingest_collects (packet : MeshPacket) (bridgeNodeId : String) (hopCount : ℤ) (env : IngestEnv) :
    (ingest crypto packet bridgeNodeId hopCount env).Collects Service.receipts
      fun rows r => Issued rows r.receipts := by
  refine .act fun won _ => ?_
  cases won with
  | false => exact .ret .nil
  | true =>
    change Program.Collects Service.receipts _ (afterClaim crypto packet bridgeNodeId hopCount env _)
    unfold afterClaim
    cases crypto.decrypt packet.ciphertext with
    | error e => exact .ret .nil
    | ok instruction =>
      dsimp only
      split_ifs
      · exact .ret .nil
      · exact .ret .nil
      · refine attempts_collect.bind fun rows r hr => .ret ?_
        rw [List.append_nil]
        exact settled_receipts hr (crypto.cstr_hashCiphertext _)

/-- The id and the outcome of an upload are passed on. -/
theorem flushResult_receipts {rows : List Transaction} {r : IngestResult} (up : BridgeUpload)
    (h : Issued rows r.receipts) : Issued rows (ApiController.flushResult up r).receipts := by
  intro hids
  have hnames := h hids
  obtain ⟨outcome, packetHash, reason, transactionId⟩ := r
  cases transactionId with
  | none =>
    obtain rfl : rows = [] := List.forall₂_nil_left_iff.mp hnames
    exact .nil
  | some id =>
    obtain ⟨tx, rest, hname, hrest, rfl⟩ := List.forall₂_cons_left_iff.mp hnames
    obtain rfl : rest = [] := List.forall₂_nil_left_iff.mp hrest
    have hid : id ≠ -1 := by
      rw [show id = tx.id from hname.transactionId]
      exact hids tx List.mem_cons_self
    have hreceipts : (ApiController.flushResult up ⟨outcome, packetHash, reason, some id⟩).receipts =
        [⟨id, outcome, none⟩] := if_neg hid
    rw [hreceipts]
    exact .cons ⟨hname.transactionId, hname.outcome, fun k hk => by cases hk⟩ .nil

theorem ingestUploads_collect (ingests : ℕ → IngestEnv) (n : ℕ) (uploads : List BridgeUpload) :
    (ApiController.ingestUploads crypto ingests n uploads).Collects Service.receipts
      fun rows results => Issued rows (results.flatMap FlushResult.receipts) := by
  induction uploads generalizing n with
  | nil => exact .ret .nil
  | cons up uploads ih =>
    refine (ingest_collects up.packet up.bridgeNodeId _ _).bind fun rows r hr => ?_
    refine (ih (n + 1)).bind fun rows' results hresults => .ret ?_
    rw [List.append_nil, List.flatMap_cons]
    exact (flushResult_receipts up hr).append hresults

/-- The actions on the devices and the cache store no row, and nor does a reset. -/
def Action.StoresNothing (a : Action) : Prop := ∀ r, a.stored r = []

theorem Action.OffDatabase.storesNothing {a : Action} (h : a.OffDatabase) : a.StoresNothing := by
  cases a with
  | settleBlock sender receiver call settledAt faults => exact h.elim
  | saveTransaction tx fault => exact h.elim
  | _ => exact fun _ => rfl

theorem stores_nothing {T : Action → Prop} (hT : ∀ a, T a → a.StoresNothing) {α : Type} {p : Service α}
    (hp : p.Uses T) : p.Collects Service.receipts fun rows _ => rows = [] := by
  refine Program.Uses.collects ?_
  induction p with
  | ret x => exact trivial
  | act a next ih => exact ⟨hT a hp.1, fun r => ih r (hp.2 r)⟩

/-- Whatever a mesh operation reads, it stores nothing. -/
theorem mesh_stores_nothing {α : Type} {p : Service α} {Q : Unit → α → Prop}
    (hp : p.Follows (meshProtocol fun _ _ => True) Q ()) :
    p.Collects Service.receipts fun rows _ => rows = [] :=
  stores_nothing (fun _ ha => (FilesOnly.offDatabase ha).storesNothing) (hp.uses findsOnly_true fun _ _ ha => ha)

open MeshSimulatorService

theorem meshFlush_collects (env : MeshFlushEnv) :
    (ApiController.meshFlush crypto env).Collects Service.receipts
      fun rows r => Issued rows (r.results.flatMap FlushResult.receipts) := by
  have hcollect : (collectBridgeUploads env.order).Collects Service.receipts
      fun rows _ => rows = [] := mesh_stores_nothing (collectFrom_follows _ _)
  refine hcollect.bind fun rows uploads hrows => ?_
  subst hrows
  refine (ingestUploads_collect env.ingests 0 uploads).bind fun rows results h => .ret ?_
  rwa [List.append_nil]

/-- An operation answers with the receipts of the rows that it has stored. -/
theorem Op.collects (op : Op) : (op.program crypto).Collects Service.receipts
    fun rows r => Issued rows r.receipts := by
  cases op with
  | ingest packet bridgeNodeId hopCount env =>
    refine (ingest_collects packet bridgeNodeId hopCount env).bind fun rows r hr => .ret ?_
    rwa [List.append_nil]
  | meshFlush env =>
    refine (meshFlush_collects env).bind fun rows r hr => .ret ?_
    rwa [List.append_nil]
  | evictExpired now => exact .act fun _ _ => .ret .nil
  | resetDatabase faults => exact .act fun _ _ => .ret .nil
  | demoSend request env =>
    have huses : (ApiController.demoSend crypto request env).Uses
        ((Op.demoSend request env).Performs crypto fun _ _ => True) :=
      demoSend_uses request env
    have hsend := stores_nothing (fun a ha => by cases ha; exact fun _ => rfl) huses
    exact hsend.bind fun rows r hrows => .ret (by rw [hrows]; exact .nil)
  | meshGossip order =>
    have hgossip : (ApiController.meshGossip order).Collects Service.receipts fun rows _ => rows = [] :=
      mesh_stores_nothing (gossipAmong_follows (fun _ _ _ _ _ => trivial) _ _)
    exact hgossip.bind fun rows r hrows => .ret (by rw [hrows]; exact .nil)
  | meshReset order faults =>
    have huses : (ApiController.meshReset order faults).Uses
        ((Op.meshReset order faults).Performs crypto fun _ _ => True) :=
      meshReset_uses order faults
    have hreset := stores_nothing (fun a ha => by cases ha <;> exact fun _ => rfl) huses
    exact hreset.bind fun rows r hrows => .ret (by rw [hrows]; exact .nil)

variable {json : JsonLibrary} {b : Binary64}

theorem serve_collects {α : Type} {p : Service α} {Q : List Transaction → α → Prop}
    (hp : p.Collects Service.receipts Q) : p.serve.Collects Endpoint.receipts Q :=
  hp.translate fun _ => .act fun _ hr => .ret ⟨hr, List.append_nil _⟩

theorem deviceStates_collect (packets : String → IterOrder) (devices : List VirtualDevice) :
    (ApiController.deviceStates packets devices).Uses fun c => ∀ r, Endpoint.receipts.yields c r = [] := by
  induction devices with
  | nil => exact trivial
  | cons d devices ih => exact ⟨fun _ => rfl, fun _ => ⟨fun _ => rfl, fun _ => ih.bind fun _ => trivial⟩⟩

theorem ServerCall.collects (call : ServerCall) :
    (call.program crypto json b).Collects Endpoint.receipts fun rows r => Issued rows r.receipts := by
  cases call with
  | operation op =>
    refine (serve_collects (Op.collects op)).bind fun rows r hr => .ret ?_
    rwa [List.append_nil]
  | meshState order =>
    have hstate : (ApiController.meshState order).Collects Endpoint.receipts fun rows _ => rows = [] :=
      Program.Uses.collects ((deviceStates_collect _ _).bind fun _ => ⟨fun _ => rfl, fun _ => trivial⟩)
    exact hstate.bind fun rows r hrows => .ret (by rw [hrows]; exact .nil)
  | listAccounts fault => exact .act fun _ _ => .ret .nil
  | listTransactions fault =>
    refine .act fun rows _ => ?_
    cases rows with
    | error e => exact .ret .nil
    | ok txs => exact .ret .nil

theorem ServerCall.programs_collect (calls : List ServerCall) :
    (programs crypto json b calls).Collects Endpoint.receipts
      fun rows replies => Issued rows (replies.flatMap ServerReply.receipts) := by
  induction calls with
  | nil => exact .ret .nil
  | cons call calls ih =>
    refine (ServerCall.collects call).bind fun rows r hr => ?_
    refine ih.bind fun rows' replies hreplies => .ret ?_
    rw [List.append_nil, List.flatMap_cons]
    exact hr.append hreplies

end Programs

section Threads

variable {ι : Type} [DecidableEq ι] {first : ℤ} {s s' : Server} {γ : ι → List Transaction}

def Server.sequence (s : Server) : ℤ := s.db.current.transactions.sequence

/-- The rows that the threads have been told of have different ids, each later than the ones before. -/
structure Numbered (first : ℤ) (s : Server) (γ : ι → List Transaction) : Prop where
  begun : first ≤ s.sequence
  range : ∀ i, ∀ row ∈ γ i, first < row.id ∧ row.id ≤ s.sequence
  increasing : ∀ i, (γ i).Pairwise (·.id < ·.id)
  apart : ∀ i j, i ≠ j → ∀ row ∈ γ i, ∀ row' ∈ γ j, row.id ≠ row'.id

omit [DecidableEq ι] in
theorem Numbered.later (h : Numbered first s γ) (hs : s.sequence ≤ s'.sequence) :
    Numbered first s' γ where
  begun := h.begun.trans hs
  range i row hrow := ⟨(h.range i row hrow).1, (h.range i row hrow).2.trans hs⟩
  increasing := h.increasing
  apart := h.apart

/-- One more row, with a new number. -/
theorem Numbered.add (h : Numbered first s γ) {i : ι} {row : Transaction}
    (hnew : s.sequence < row.id) (hs : row.id ≤ s'.sequence) :
    Numbered first s' (Function.update γ i (γ i ++ [row])) := by
  have hbefore : ∀ j, ∀ old ∈ γ j, old.id < row.id := fun j old hold =>
    (h.range j old hold).2.trans_lt hnew
  have hmem : ∀ j, ∀ x ∈ Function.update γ i (γ i ++ [row]) j, x ∈ γ j ∨ j = i ∧ x = row := by
    intro j x hx
    by_cases hj : j = i
    · subst hj
      rw [Function.update_self, List.mem_append, List.mem_singleton] at hx
      exact hx.imp_right fun hrow => ⟨rfl, hrow⟩
    · rw [Function.update_of_ne hj] at hx
      exact Or.inl hx
  have hlater := h.later (hnew.le.trans hs)
  refine ⟨hlater.begun, fun j x hx => ?_, fun j => ?_, fun j k hjk x hx y hy => ?_⟩
  · rcases hmem j x hx with hx | ⟨-, rfl⟩
    · exact hlater.range j x hx
    · exact ⟨h.begun.trans_lt hnew, hs⟩
  · by_cases hj : j = i
    · subst hj
      rw [Function.update_self]
      refine List.pairwise_append.mpr ⟨h.increasing j, List.pairwise_singleton _ _, ?_⟩
      intro old hold x hx
      rw [List.mem_singleton.mp hx]
      exact hbefore j old hold
    · rw [Function.update_of_ne hj]
      exact h.increasing j
  · rcases hmem j x hx with hold | ⟨rfl, rfl⟩
    · rcases hmem k y hy with hold' | ⟨rfl, rfl⟩
      · exact h.apart j k hjk x hold y hold'
      · exact (hbefore j x hold).ne
    · rcases hmem k y hy with hold' | ⟨rfl, -⟩
      · exact (hbefore k y hold').ne'
      · exact absurd rfl hjk

theorem gathers_numbered (T : Call → Prop) :
    Pool.Gathers Call.exec T Endpoint.receipts (Numbered (ι := ι) first) where
  responds c s _ _ _ := call_reports c s
  keeps i c s γ hinv _ := by
    obtain ⟨hsequence, hrows⟩ := (call_dbStep c s).sequence
    change Numbered first _ (Function.update γ i (γ i ++ c.stored (c.exec s).1))
    rcases hrows with hnone | ⟨row, hrow, hnew, hid⟩
    · rw [hnone, List.append_nil, Function.update_eq_self]
      exact hinv.later hsequence
    · rw [hrow]
      exact hinv.add hnew hid

/-- What the threads have been told of is stored. -/
def Stored (s : Server) (γ : ι → List Transaction) : Prop :=
  ∀ i, ∀ row ∈ γ i, row ∈ s.db.current.transactions.rows

/-- Every number after the first has gone to a row that a thread has been told of. -/
def Consecutive (first : ℤ) (s : Server) (γ : ι → List Transaction) : Prop :=
  s.db.savepoint = none ∧ ∀ n, first < n → n ≤ s.sequence → ∃ i, ∃ row ∈ γ i, row.id = n

/-- Every row that was not there at the start has been reported to a thread. -/
def Reported (rows : List Transaction) (s : Server) (γ : ι → List Transaction) : Prop :=
  s.db.savepoint = none ∧ ∀ row ∈ s.db.current.transactions.rows, row ∈ rows ∨ ∃ i, row ∈ γ i

theorem mem_update_append {i j : ι} {row : Transaction} {rows : List Transaction} :
    row ∈ Function.update γ i (γ i ++ rows) j ↔ row ∈ γ j ∨ j = i ∧ row ∈ rows := by
  by_cases hj : j = i
  · subst hj
    simp
  · simp [hj]

theorem gathers_stored :
    Pool.Gathers Call.exec (fun c => ¬ c.IsReset) Endpoint.receipts (Stored (ι := ι)) where
  responds c s _ _ _ := call_reports c s
  keeps i c s γ hinv hc := by
    obtain ⟨hold, hnew⟩ := (call_dbStep c s).rows_stay hc
    intro j row hrow
    rcases mem_update_append.mp hrow with hrow | ⟨-, hrow⟩
    · exact hold row (hinv j row hrow)
    · exact hnew row hrow

theorem gathers_consecutive :
    Pool.Gathers Call.exec Call.RollsBack Endpoint.receipts (Consecutive (ι := ι) first) where
  responds c s _ _ _ := call_reports c s
  keeps i c s γ hinv hc := by
    have hstep := call_dbStep c s
    refine ⟨(hstep.rows_reported hinv.1 hc).1, fun n hfirst hn => ?_⟩
    rcases hstep.consecutive hc hn with hold | ⟨row, hrow, hid⟩
    · obtain ⟨j, row, hrow, hid⟩ := hinv.2 n hfirst hold
      exact ⟨j, row, mem_update_append.mpr (Or.inl hrow), hid⟩
    · exact ⟨i, row, mem_update_append.mpr (Or.inr ⟨rfl, hrow⟩), hid⟩

theorem gathers_reported {rows : List Transaction} :
    Pool.Gathers Call.exec Call.RollsBack Endpoint.receipts (Reported (ι := ι) rows) where
  responds c s _ _ _ := call_reports c s
  keeps i c s γ hinv hc := by
    obtain ⟨hsp, hrows⟩ := (call_dbStep c s).rows_reported hinv.1 hc
    refine ⟨hsp, fun row hrow => ?_⟩
    rcases hrows row hrow with hold | hnew
    · rcases hinv.2 row hold with hold | ⟨j, hj⟩
      · exact Or.inl hold
      · exact Or.inr ⟨j, mem_update_append.mpr (Or.inl hj)⟩
    · exact Or.inr ⟨i, mem_update_append.mpr (Or.inr ⟨rfl, hnew⟩)⟩

end Threads

section Named

variable {receipts : List Receipt} {rows : List Transaction}

theorem ids_of_named (h : List.Forall₂ Receipt.Names receipts rows) :
    receipts.map Receipt.transactionId = rows.map Transaction.id := by
  induction h with
  | nil => rfl
  | cons hname _ ih => rw [List.map_cons, List.map_cons, hname.transactionId, ih]

theorem exists_row_of_named (h : List.Forall₂ Receipt.Names receipts rows) {r : Receipt}
    (hr : r ∈ receipts) : ∃ row ∈ rows, r.Names row := by
  induction h with
  | nil => exact absurd hr List.not_mem_nil
  | cons hname _ ih =>
    rcases List.mem_cons.mp hr with rfl | hr
    · exact ⟨_, List.mem_cons_self, hname⟩
    · obtain ⟨row, hrow, hname⟩ := ih hr
      exact ⟨row, List.mem_cons_of_mem _ hrow, hname⟩

theorem exists_receipt_of_named (h : List.Forall₂ Receipt.Names receipts rows) {row : Transaction}
    (hrow : row ∈ rows) : ∃ r ∈ receipts, r.Names row := by
  induction h with
  | nil => exact absurd hrow List.not_mem_nil
  | cons hname _ ih =>
    rcases List.mem_cons.mp hrow with rfl | hrow
    · exact ⟨_, List.mem_cons_self, hname⟩
    · obtain ⟨r, hr, hname⟩ := ih hrow
      exact ⟨r, List.mem_cons_of_mem _ hr, hname⟩

end Named

def bobPaysAlice : PaymentInstruction :=
  { alicePaysBob with senderVpa := "bob@demo", receiverVpa := "alice@demo", nonce := "m" }

/-- Two threads upload a payment each. -/
def twoPayers : Bool → List ServerCall
  | true => [.operation (.ingestAt "p1" "c1" 0)]
  | false => [.operation (.ingestAt "p2" "c2" 0)]

def twoPayersStart : LockedThreads Bool (List (ServerReply JsonValue.library)) :=
  Locked.initially (.ofList [("c1", alicePaysBob), ("c2", bobPaysAlice)]) JsonValue.library
    Binary64.nearest (fun _ _ => .sorted) twoPayers Server.initial

/-- Both claim, both read, and then one after the other writes. -/
def twoPayersSchedule : List Bool :=
  List.replicate 3 true ++ List.replicate 3 false ++ List.replicate 6 true ++ List.replicate 6 false ++
    List.replicate 13 true ++ List.replicate 13 false

theorem twoPayers_quiet (i : Bool) (call : ServerCall) (hcall : call ∈ twoPayers i) :
    call.NoReset ∧ call.RollbackSucceeds := by
  cases i with
  | true =>
    obtain rfl := List.mem_singleton.mp hcall
    exact ⟨trivial, fun _ henv n => congrArg (fun env => (SettleEnv.faults env n).rollback) henv⟩
  | false =>
    obtain rfl := List.mem_singleton.mp hcall
    exact ⟨trivial, fun _ henv n => congrArg (fun env => (SettleEnv.faults env n).rollback) henv⟩

theorem exists_twoPayers : ∃ trace, Pool.Run (Locking.exec guards) (Locking.Enabled guards)
    twoPayersStart trace (twoPayersSchedule.foldl (Pool.advance (Locking.exec guards)) twoPayersStart) := by
  have hadmissible : Pool.Admissible (Locking.exec guards) (Locking.Enabled guards) twoPayersSchedule
      twoPayersStart := by decide +kernel
  exact Pool.Run.of_schedule hadmissible

section Schedules

open Locking

variable {ι : Type} [DecidableEq ι] (crypto : CryptoService) (json : JsonLibrary) (b : Binary64)
  (order : ι → ℤ → IterOrder) (calls : ι → List ServerCall) (s : Server)

/-- Behind every schedule on the level of locks there are the rows that each thread has been told of. -/
theorem exists_told {T : Call → Prop} {J : Server → (ι → List Transaction) → Prop} (hs : 0 ≤ s.sequence)
    (hT : ∀ i, ∀ call ∈ calls i, ∀ c, call.Performs crypto (fun _ _ => True) c → T c)
    (hJ : Pool.Gathers Call.exec T Endpoint.receipts J) (hstart : J s fun _ => [])
    {trace : List (ι × Locking ι Mutex Access)} {c : LockedThreads ι (List (ServerReply json))}
    (hrun : Pool.Run (exec guards) (Enabled guards)
      (Locked.initially crypto json b order calls s) trace c) :
    ∃ (s' : Server) (γ : ι → List Transaction), Numbered s.sequence s' γ ∧ J s' γ ∧
      (∀ i replies, c.threads i = .ret replies →
        List.Forall₂ Receipt.Names (replies.flatMap ServerReply.receipts) (γ i)) ∧
      ∀ k, c.shared.owner k = none → c.shared.data k = s'.parts k := by
  obtain ⟨trace', c', hrun', hrelated⟩ := exists_related crypto json b order calls s hrun
  have hnumbered : Numbered s.sequence s fun _ : ι => [] :=
    ⟨le_rfl, fun _ _ h => absurd h List.not_mem_nil, fun _ => .nil,
      fun _ _ _ _ h => absurd h List.not_mem_nil⟩
  obtain ⟨γ, ⟨hγ, hJγ⟩, hret⟩ := hrun'.collect ((gathers_numbered T).and hJ) ⟨hnumbered, hstart⟩
    (fun i => ServerCall.programs_use (calls i) (hT i)) fun i => ServerCall.programs_collect (calls i)
  refine ⟨c'.shared, γ, hγ, hJγ, fun i replies hi => ?_, fun k hk => (hrelated.free k hk).symm⟩
  have hreturned := (hrelated.returned (implements_perform order) hi).1
  refine hret i replies hreturned fun row hrow => ?_
  have hrange := (hγ.range i row hrow).1
  omega

/-- While no `ROLLBACK` fails, no transaction id is handed out twice, not even after a reset: each thread
gets ever larger ones, and no two threads get the same. In the end no number has been left out. -/
theorem receipts_unique (hs : 0 ≤ s.sequence) (hsp : s.db.savepoint = none)
    (hroll : ∀ i, ∀ call ∈ calls i, call.RollbackSucceeds) (trace : List (ι × Locking ι Mutex Access))
    (c : LockedThreads ι (List (ServerReply json)))
    (hrun : Pool.Run (exec guards) (Enabled guards)
      (Locked.initially crypto json b order calls s) trace c) :
    (∀ i replies, c.threads i = .ret replies →
      ((replies.flatMap ServerReply.receipts).map Receipt.transactionId).Pairwise (· < ·)) ∧
    (∀ i j repliesᵢ repliesⱼ, i ≠ j → c.threads i = .ret repliesᵢ → c.threads j = .ret repliesⱼ →
      ∀ r ∈ repliesᵢ.flatMap ServerReply.receipts, ∀ r' ∈ repliesⱼ.flatMap ServerReply.receipts,
        r.transactionId ≠ r'.transactionId) ∧
    (c.shared.owner .connection = none → c.Finished →
      (c.shared.data .connection).savepoint = none ∧
      ∀ n, s.sequence < n → n ≤ (c.shared.data .connection).current.transactions.sequence →
        ∃ i replies, c.threads i = .ret replies ∧
          ∃ r ∈ replies.flatMap ServerReply.receipts, r.transactionId = n) := by
  have hstart : Consecutive s.sequence s fun _ : ι => [] := ⟨hsp, fun n hn hle => absurd hle (by omega)⟩
  obtain ⟨s', γ, hγ, ⟨hsp', hnumbers⟩, hnames, hdata⟩ := exists_told crypto json b order calls s hs
    (fun i call hcall c hc => hc.rollsBack (hroll i call hcall)) gathers_consecutive hstart hrun
  refine ⟨fun i replies hi => ?_, fun i j repliesᵢ repliesⱼ hij hi hj r hr r' hr' => ?_,
    fun hfree hdone => ?_⟩
  · rw [ids_of_named (hnames i replies hi), List.pairwise_map]
    exact hγ.increasing i
  · obtain ⟨row, hrow, hname⟩ := exists_row_of_named (hnames i repliesᵢ hi) hr
    obtain ⟨row', hrow', hname'⟩ := exists_row_of_named (hnames j repliesⱼ hj) hr'
    rw [hname.transactionId, hname'.transactionId]
    exact hγ.apart i j hij row hrow row' hrow'
  · rw [hdata .connection hfree]
    refine ⟨hsp', fun n hn hle => ?_⟩
    obtain ⟨i, row, hrow, hid⟩ := hnumbers n hn hle
    obtain ⟨replies, hreplies⟩ := hdone i
    obtain ⟨r, hr, hname⟩ := exists_receipt_of_named (hnames i replies hreplies) hrow
    exact ⟨i, replies, hreplies, r, hr, hname.transactionId.trans hid⟩

/-- Two payers get different receipts. -/
theorem receipts_unique_two_payers :
    ∃ (c : LockedThreads Bool (List (ServerReply JsonValue.library))) (r r' : Receipt),
      (∃ replies, c.threads true = .ret replies ∧ replies.flatMap ServerReply.receipts = [r]) ∧
      (∃ replies, c.threads false = .ret replies ∧ replies.flatMap ServerReply.receipts = [r']) ∧
      r.transactionId ≠ r'.transactionId := by
  obtain ⟨trace, hrun⟩ := exists_twoPayers
  obtain ⟨repliesᵢ, hi, hr⟩ : ∃ replies,
      (twoPayersSchedule.foldl (Pool.advance (exec guards)) twoPayersStart).threads true = .ret replies ∧
        replies.flatMap ServerReply.receipts = [⟨1, "SETTLED", some "6331"⟩] :=
    ⟨_, rfl, by decide +kernel⟩
  obtain ⟨repliesⱼ, hj, hr'⟩ : ∃ replies,
      (twoPayersSchedule.foldl (Pool.advance (exec guards)) twoPayersStart).threads false = .ret replies ∧
        replies.flatMap ServerReply.receipts = [⟨2, "SETTLED", some "6332"⟩] :=
    ⟨_, rfl, by decide +kernel⟩
  refine ⟨_, _, _, ⟨repliesᵢ, hi, hr⟩, ⟨repliesⱼ, hj, hr'⟩, ?_⟩
  exact (receipts_unique _ _ _ _ twoPayers Server.initial le_rfl rfl
    (fun i call hcall => (twoPayers_quiet i call hcall).2) trace _ hrun).2.1 true false _ _
    Bool.noConfusion hi hj _ (hr ▸ List.mem_cons_self) _ (hr' ▸ List.mem_cons_self)

/-- As long as nobody resets and no `ROLLBACK` fails, every receipt names a stored row, and in the end
every new row has been reported. -/
theorem receipts_stored (hs : 0 ≤ s.sequence) (hsp : s.db.savepoint = none)
    (hreset : ∀ i, ∀ call ∈ calls i, call.NoReset)
    (hroll : ∀ i, ∀ call ∈ calls i, call.RollbackSucceeds)
    (trace : List (ι × Locking ι Mutex Access)) (c : LockedThreads ι (List (ServerReply json)))
    (hrun : Pool.Run (exec guards) (Enabled guards)
      (Locked.initially crypto json b order calls s) trace c)
    (hfree : c.shared.owner .connection = none) :
    (∀ i replies, c.threads i = .ret replies → ∀ r ∈ replies.flatMap ServerReply.receipts,
      ∃ row ∈ (c.shared.data .connection).current.transactions.rows, r.Names row) ∧
    (c.Finished → ∀ row ∈ (c.shared.data .connection).current.transactions.rows,
        row ∈ s.db.current.transactions.rows ∨ ∃ i replies, c.threads i = .ret replies ∧
          ∃ r ∈ replies.flatMap ServerReply.receipts, r.Names row) := by
  constructor
  · obtain ⟨s', γ, -, hstored, hnames, hdata⟩ := exists_told crypto json b order calls s hs
      (fun i call hcall c hc => hc.not_isReset (hreset i call hcall)) gathers_stored
      (fun _ _ h => absurd h List.not_mem_nil) hrun
    intro i replies hi r hr
    obtain ⟨row, hrow, hname⟩ := exists_row_of_named (hnames i replies hi) hr
    rw [hdata .connection hfree]
    exact ⟨row, hstored i row hrow, hname⟩
  · intro hdone row hrow
    obtain ⟨s', γ, -, ⟨-, hreported⟩, hnames, hdata⟩ := exists_told crypto json b order calls s hs
      (fun i call hcall c hc => hc.rollsBack (hroll i call hcall)) gathers_reported
      ⟨hsp, fun _ h => Or.inl h⟩ hrun
    rw [hdata .connection hfree] at hrow
    rcases hreported row hrow with hold | ⟨i, hi⟩
    · exact Or.inl hold
    · obtain ⟨replies, hreplies⟩ := hdone i
      obtain ⟨r, hr, hname⟩ := exists_receipt_of_named (hnames i replies hreplies) hi
      exact Or.inr ⟨i, replies, hreplies, r, hr, hname⟩

/-- The two payers have the only two rows. -/
theorem receipts_stored_two_payers :
    ∃ c : LockedThreads Bool (List (ServerReply JsonValue.library)),
      ((c.shared.data .connection).current.transactions.rows.map Transaction.id = [1, 2]) ∧
      ∀ row ∈ (c.shared.data .connection).current.transactions.rows,
        ∃ i replies, c.threads i = .ret replies ∧
          ∃ r ∈ replies.flatMap ServerReply.receipts, r.Names row := by
  obtain ⟨trace, hrun⟩ := exists_twoPayers
  have hdone : (twoPayersSchedule.foldl (Pool.advance (exec guards)) twoPayersStart).Finished := by
    intro i
    cases i with
    | true => exact ⟨_, rfl⟩
    | false => exact ⟨_, rfl⟩
  have hreported := (receipts_stored _ _ _ _ twoPayers Server.initial le_rfl rfl
    (fun i call hcall => (twoPayers_quiet i call hcall).1)
    (fun i call hcall => (twoPayers_quiet i call hcall).2) trace _ hrun rfl).2 hdone
  refine ⟨_, ?_, fun row hrow => (hreported row hrow).resolve_left List.not_mem_nil⟩
  decide +kernel

end Schedules

end UpiMesh
