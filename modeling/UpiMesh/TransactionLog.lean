import UpiMesh.Answers
import UpiMesh.Connection
import UpiMesh.Lib.Firsts
import Mathlib.Data.List.Sort

/-!
# The transaction log, column by column

`TransactionRepository` binds the fields of a transaction to the positions of an `INSERT`, and reads
them back from the columns of a `SELECT`. Here a row is what SQLite stores in its ten columns. These
statements do on the columns what the repository does on whole transactions, and from an empty table
they leave the first transaction saved under each hash, numbered in the order of the saves.
-/

namespace UpiMesh

open Firsts

inductive SqlValue where
  | null
  | integer (n : ℤ)
  | text (s : String)
  deriving DecidableEq, Repr

/-- `sqlite3_bind_text` with length -1. -/
def bindText (s : String) : SqlValue := .text (cstr s)

def bindInt64 (n : ℤ) : SqlValue := .integer n

def bindInt (n : ℤ) : SqlValue := .integer n

def columnInt64 : SqlValue → ℤ
  | .integer n => n
  | _ => 0

/-- `sqlite3_column_int` keeps the low 32 bits. -/
def columnInt (v : SqlValue) : ℤ := (columnInt64 v).bmod (2 ^ 32)

/-- `sqlite3_column_text`, read as a C string. -/
def columnText : SqlValue → String
  | .text s => cstr s
  | _ => ""

/-- The columns of the `transactions` table. -/
inductive Column where
  | id
  | packetHash
  | senderVpa
  | receiverVpa
  | amount
  | signedAt
  | settledAt
  | bridgeNodeId
  | hopCount
  | status
  deriving DecidableEq, Repr

abbrev Row := Column → SqlValue

/-- The columns that `INSERT INTO transactions` names. -/
def insertColumns : List Column :=
  [.packetHash, .senderVpa, .receiverVpa, .amount, .signedAt, .settledAt, .bridgeNodeId, .hopCount,
    .status]

/-- The values bound to its parameters, in the order of their positions. -/
def bindings (tx : Transaction) : List SqlValue :=
  [bindText tx.packetHash, bindText tx.senderVpa, bindText tx.receiverVpa, bindInt64 tx.amount,
    bindInt64 tx.signedAt, bindInt64 tx.settledAt, bindText tx.bridgeNodeId, bindInt tx.hopCount,
    bindText (statusToString tx.status)]

/-- The columns that `findTop20ByOrderByIdDesc` selects. -/
def selectColumns : List Column :=
  [.id, .packetHash, .senderVpa, .receiverVpa, .amount, .signedAt, .settledAt, .bridgeNodeId,
    .hopCount, .status]

def parseStatus (str : String) : Status :=
  if str = "SETTLED" then .SETTLED
  else if str = "REJECTED" then .REJECTED
  else if str = "DUPLICATE_DROPPED" then .DUPLICATE_DROPPED
  else if str = "INVALID" then .INVALID
  else .INVALID

/-- What is read from the positions of a result row. -/
def readTransaction (values : List SqlValue) : Transaction where
  id := columnInt64 (values.getD 0 .null)
  packetHash := columnText (values.getD 1 .null)
  senderVpa := columnText (values.getD 2 .null)
  receiverVpa := columnText (values.getD 3 .null)
  amount := columnInt64 (values.getD 4 .null)
  signedAt := columnInt64 (values.getD 5 .null)
  settledAt := columnInt64 (values.getD 6 .null)
  bridgeNodeId := columnText (values.getD 7 .null)
  hopCount := columnInt (values.getD 8 .null)
  status := parseStatus (columnText (values.getD 9 .null))

/-- The rows in the order of their ids, and the largest id ever handed out. -/
structure SqlTable where
  rows : List Row
  sequence : ℤ

namespace SqlTable

def empty (sequence : ℤ) : SqlTable := ⟨[], sequence⟩

/-- The row that an `INSERT` makes; a column that it does not name is null. -/
def newRow (columns : List Column) (values : List SqlValue) (t : SqlTable) : Row
  | .id => .integer (t.sequence + 1)
  | c => ((columns.zip values).lookup c).getD .null

/-- `NOT NULL` on every column, and `UNIQUE` on the hash. -/
def insert (columns : List Column) (values : List SqlValue) (t : SqlTable) :
    Except String SqlTable :=
  let row := newRow columns values t
  if .null ∈ selectColumns.map row then .error "NOT NULL constraint failed"
  else if row .packetHash ∈ t.rows.map (· .packetHash) then
    .error "UNIQUE constraint failed: transactions.packetHash"
  else .ok ⟨t.rows ++ [row], t.sequence + 1⟩

/-- `TransactionRepository::save`; the row id of the last insert is the one that the table handed
out last. -/
def save (tx : Transaction) (t : SqlTable) : Except Exn Transaction × SqlTable :=
  match t.insert insertColumns (bindings tx) with
  | .error errmsg => (.error (TransactionRepository.saveFailed (.step errmsg)), t)
  | .ok t' => (.ok { tx with id := t'.sequence }, t')

def existsByPacketHash (packetHash : String) (t : SqlTable) : Bool :=
  bindText packetHash ∈ t.rows.map (· .packetHash)

def findTop20ByOrderByIdDesc (t : SqlTable) : List Transaction :=
  ((t.rows.insertionSort fun r r' => columnInt64 (r' .id) ≤ columnInt64 (r .id)).take 20).map
    fun row => readTransaction (selectColumns.map row)

/-- Saves one after the other, with what each of them returns. -/
def saveAll : List Transaction → SqlTable → List (Except Exn Transaction) × SqlTable
  | [], t => ([], t)
  | tx :: txs, t =>
    let result := save tx t
    let rest := saveAll txs result.2
    (result.1 :: rest.1, rest.2)

end SqlTable

/-- A transaction as its ten columns hold it. -/
def Transaction.columns (tx : Transaction) : Row
  | .id => .integer tx.id
  | .packetHash => .text tx.packetHash
  | .senderVpa => .text tx.senderVpa
  | .receiverVpa => .text tx.receiverVpa
  | .amount => .integer tx.amount
  | .signedAt => .integer tx.signedAt
  | .settledAt => .integer tx.settledAt
  | .bridgeNodeId => .text tx.bridgeNodeId
  | .hopCount => .integer tx.hopCount
  | .status => .text (statusToString tx.status)

/-- The strings have no NUL, and the hop count is an `int`. -/
structure Transaction.Storable (tx : Transaction) : Prop where
  packetHash : NulFree tx.packetHash
  senderVpa : NulFree tx.senderVpa
  receiverVpa : NulFree tx.receiverVpa
  bridgeNodeId : NulFree tx.bridgeNodeId
  hopCount : -2 ^ 31 ≤ tx.hopCount ∧ tx.hopCount < 2 ^ 31

theorem cstr_statusToString (status : Status) :
    cstr (statusToString status) = statusToString status := by
  cases status <;> decide

theorem parseStatus_statusToString (status : Status) :
    parseStatus (statusToString status) = status := by
  cases status <;> decide

/-- What has been stored in the columns is read back from the positions of the result. -/
theorem readTransaction_columns {tx : Transaction} (h : tx.Storable) :
    readTransaction (selectColumns.map tx.columns) = tx := by
  obtain ⟨hlo, hhi⟩ := h.hopCount
  have hhop : tx.hopCount.bmod (2 ^ 32) = tx.hopCount := by
    apply Int.bmod_eq_of_le <;> omega
  simp only [readTransaction, selectColumns, List.map_cons, List.getD_cons_zero,
    List.getD_cons_succ, Transaction.columns, columnInt64, columnInt, columnText, hhop,
    cstr_of_notMem h.packetHash, cstr_of_notMem h.senderVpa, cstr_of_notMem h.receiverVpa,
    cstr_of_notMem h.bridgeNodeId, cstr_statusToString, parseStatus_statusToString]

namespace SqlTable

/-- The table that holds the given transactions. -/
def ofTable (t : TransactionTable) : SqlTable := ⟨t.rows.map Transaction.columns, t.sequence⟩

variable {t : TransactionTable} {tx : Transaction}

/-- The bound values end up in the columns of the stored transaction. -/
theorem newRow_bindings :
    newRow insertColumns (bindings tx) (ofTable t) = (t.stored tx).columns := by
  funext c
  cases c with
  | status => exact congrArg SqlValue.text (cstr_statusToString tx.status)
  | _ => rfl

theorem map_packetHash_ofTable : (ofTable t).rows.map (· .packetHash) =
    (t.rows.map Transaction.packetHash).map .text := by
  simp only [ofTable, List.map_map]
  rfl

theorem bindText_mem_ofTable (packetHash : String) :
    bindText packetHash ∈ (ofTable t).rows.map (· .packetHash) ↔
      cstr packetHash ∈ t.rows.map Transaction.packetHash := by
  rw [map_packetHash_ofTable, bindText]
  exact List.mem_map_of_injective fun _ _ => SqlValue.text.inj

theorem save_ofTable_of_mem (h : cstr tx.packetHash ∈ t.rows.map Transaction.packetHash) :
    save tx (ofTable t) = (.error TransactionRepository.uniqueViolation, ofTable t) := by
  have hnull : SqlValue.null ∉ selectColumns.map (t.stored tx).columns := by
    simp [selectColumns, Transaction.columns]
  have hdup : (t.stored tx).columns .packetHash ∈ (ofTable t).rows.map (· .packetHash) :=
    (bindText_mem_ofTable tx.packetHash).mpr h
  simp only [save, insert, newRow_bindings, if_neg hnull, if_pos hdup]
  rfl

theorem save_ofTable_of_notMem (h : cstr tx.packetHash ∉ t.rows.map Transaction.packetHash) :
    save tx (ofTable t) = (.ok { tx with id := t.sequence + 1 }, ofTable (t.insert tx h)) := by
  have hnull : SqlValue.null ∉ selectColumns.map (t.stored tx).columns := by
    simp [selectColumns, Transaction.columns]
  have hnew : (t.stored tx).columns .packetHash ∉ (ofTable t).rows.map (· .packetHash) :=
    fun hdup => h ((bindText_mem_ofTable tx.packetHash).mp hdup)
  simp only [save, insert, newRow_bindings, if_neg hnull, if_neg hnew]
  simp only [ofTable, TransactionTable.insert, List.map_append, List.map_cons, List.map_nil]

/-- The statements on the columns do what the repository does on whole transactions. -/
theorem save_ofTable (tx : Transaction) (db : Database) :
    save tx (ofTable db.current.transactions) =
      ((TransactionRepository.save tx none db).1,
        ofTable (TransactionRepository.save tx none db).2.current.transactions) := by
  unfold TransactionRepository.save
  dsimp only
  split_ifs with h
  · exact save_ofTable_of_mem h
  · exact save_ofTable_of_notMem h

theorem existsByPacketHash_ofTable (packetHash : String) (db : Database) :
    existsByPacketHash packetHash (ofTable db.current.transactions) =
      TransactionRepository.existsByPacketHash packetHash db := by
  rw [existsByPacketHash, TransactionRepository.existsByPacketHash, decide_eq_decide]
  exact bindText_mem_ofTable packetHash

end SqlTable

section OrderBy

variable {α : Type*} {r : α → α → Prop} [DecidableRel r]

theorem orderedInsert_of_forall_not {a : α} {l : List α} (h : ∀ b ∈ l, ¬ r a b) :
    l.orderedInsert r a = l ++ [a] := by
  induction l with
  | nil => rfl
  | cons b l ih =>
    obtain ⟨hb, hl⟩ := List.forall_mem_cons.mp h
    rw [List.orderedInsert_cons, if_neg hb, ih hl, List.cons_append]

/-- Sorting a list that is in the opposite order reverses it. -/
theorem insertionSort_of_opposite {l : List α} (h : l.Pairwise fun a b => ¬ r a b) :
    l.insertionSort r = l.reverse := by
  induction l with
  | nil => rfl
  | cons a l ih =>
    obtain ⟨ha, hl⟩ := List.pairwise_cons.mp h
    rw [List.insertionSort_cons, ih hl, List.reverse_cons]
    exact orderedInsert_of_forall_not fun b hb => ha b (List.mem_reverse.mp hb)

end OrderBy

namespace SqlTable

theorem findTop20_ofTable {t : TransactionTable} (h : ∀ tx ∈ t.rows, tx.Storable) :
    (ofTable t).findTop20ByOrderByIdDesc = t.rows.reverse.take 20 := by
  have hsorted : (ofTable t).rows.Pairwise fun r r' => ¬ columnInt64 (r' .id) ≤ columnInt64 (r .id) :=
    List.pairwise_map.mpr (t.ascending.imp fun hlt => not_le.mpr hlt)
  rw [findTop20ByOrderByIdDesc, insertionSort_of_opposite hsorted, ofTable, ← List.map_reverse,
    ← List.map_take, List.map_map]
  refine (List.map_congr_left fun tx htx => ?_).trans (List.map_id _)
  exact readTransaction_columns (h tx (List.mem_reverse.mp (List.mem_of_mem_take htx)))

theorem top20Rows_eq (db : Database) (h : ∀ tx ∈ db.current.transactions.rows, tx.Storable) :
    Statement.top20Rows db none = .ok (ofTable db.current.transactions).findTop20ByOrderByIdDesc := by
  rw [findTop20_ofTable h]
  rfl

end SqlTable

/-- The transactions with consecutive ids. -/
def numbered (sequence : ℤ) (txs : List Transaction) : List Transaction :=
  txs.mapIdx fun i tx => { tx with id := sequence + 1 + i }

section Log

variable {sequence : ℤ} {txs : List Transaction}

theorem numbered_append_singleton (txs : List Transaction) (tx : Transaction) :
    numbered sequence (txs ++ [tx]) =
      numbered sequence txs ++ [{ tx with id := sequence + txs.length + 1 }] := by
  have hid : sequence + 1 + (txs.length : ℤ) = sequence + txs.length + 1 := by omega
  rw [numbered, List.mapIdx_concat, numbered, hid]

theorem map_packetHash_numbered (txs : List Transaction) :
    (numbered sequence txs).map Transaction.packetHash = txs.map Transaction.packetHash := by
  induction txs using List.reverseRecOn with
  | nil => rfl
  | append_singleton txs tx ih =>
    rw [numbered_append_singleton, List.map_append, List.map_append, ih]
    rfl

theorem storable_numbered (h : ∀ tx ∈ txs, tx.Storable) :
    ∀ tx ∈ numbered sequence txs, tx.Storable := by
  intro tx htx
  obtain ⟨i, hi, rfl⟩ := List.mem_mapIdx.mp htx
  have hstorable := h txs[i] (List.getElem_mem hi)
  exact ⟨hstorable.packetHash, hstorable.senderVpa, hstorable.receiverVpa, hstorable.bridgeNodeId,
    hstorable.hopCount⟩

/-- The table and the answers after some saves on an empty table. -/
structure Logged (sequence : ℤ) (txs : List Transaction) (t : TransactionTable)
    (results : List (Except Exn Transaction)) : Prop where
  rows : t.rows = numbered sequence (firsts Transaction.packetHash txs)
  next : t.sequence = sequence + (firsts Transaction.packetHash txs).length
  results : results.filterMap Except.toOption = t.rows

theorem TransactionTable.stored_storable {tx : Transaction} (t : TransactionTable)
    (h : tx.Storable) : t.stored tx = { tx with id := t.sequence + 1 } := by
  simp only [TransactionTable.stored, cstr_of_notMem h.packetHash, cstr_of_notMem h.senderVpa,
    cstr_of_notMem h.receiverVpa, cstr_of_notMem h.bridgeNodeId]

theorem Logged.mem_iff {t : TransactionTable} {results : List (Except Exn Transaction)}
    (h : Logged sequence txs t results) {tx : Transaction} (htx : tx.Storable) :
    cstr tx.packetHash ∈ t.rows.map Transaction.packetHash ↔
      tx.packetHash ∈ txs.map Transaction.packetHash := by
  rw [cstr_of_notMem htx.packetHash, h.rows, map_packetHash_numbered, mem_map_firsts]

/-- One more save appends the transaction, or changes nothing when its hash is there. -/
theorem Logged.save {t : TransactionTable} {results : List (Except Exn Transaction)}
    (h : Logged sequence txs t results) {tx : Transaction} (htx : tx.Storable) :
    ∃ t', (SqlTable.save tx (.ofTable t)).2 = .ofTable t' ∧
      Logged sequence (txs ++ [tx]) t' (results ++ [(SqlTable.save tx (.ofTable t)).1]) := by
  obtain ⟨hrows, hnext, hresults⟩ := h
  by_cases hdup : cstr tx.packetHash ∈ t.rows.map Transaction.packetHash
  · have hmem := (Logged.mem_iff ⟨hrows, hnext, hresults⟩ htx).mp hdup
    rw [SqlTable.save_ofTable_of_mem hdup]
    refine ⟨t, rfl, ?_, ?_, ?_⟩
    · rw [firsts_append_of_mem hmem, hrows]
    · rw [firsts_append_of_mem hmem, hnext]
    · rw [List.filterMap_append, hresults]
      exact List.append_nil t.rows
  · have hnew := fun hmem => hdup ((Logged.mem_iff ⟨hrows, hnext, hresults⟩ htx).mpr hmem)
    rw [SqlTable.save_ofTable_of_notMem hdup]
    refine ⟨t.insert tx hdup, rfl, ?_, ?_, ?_⟩
    · rw [firsts_append_of_notMem hnew, numbered_append_singleton, ← hrows, ← hnext,
        ← t.stored_storable htx]
      rfl
    · rw [firsts_append_of_notMem hnew, List.length_append, List.length_singleton]
      change t.sequence + 1 = _
      rw [hnext]
      omega
    · rw [List.filterMap_append, hresults]
      change t.rows ++ [{ tx with id := t.sequence + 1 }] = t.rows ++ [t.stored tx]
      rw [t.stored_storable htx]

theorem SqlTable.saveAll_append_singleton (txs : List Transaction) (tx : Transaction)
    (t : SqlTable) :
    saveAll (txs ++ [tx]) t =
      ((saveAll txs t).1 ++ [(SqlTable.save tx (saveAll txs t).2).1],
        (SqlTable.save tx (saveAll txs t).2).2) := by
  induction txs generalizing t with
  | nil => rfl
  | cons tx' txs ih =>
    rw [List.cons_append, saveAll, ih]
    rfl

theorem saveAll_logged (sequence : ℤ) (htxs : ∀ tx ∈ txs, tx.Storable) :
    ∃ t, (SqlTable.saveAll txs (.empty sequence)).2 = .ofTable t ∧
      Logged sequence txs t (SqlTable.saveAll txs (.empty sequence)).1 := by
  induction txs using List.reverseRecOn with
  | nil =>
    exact ⟨.empty sequence, rfl, rfl, (add_zero sequence).symm, rfl⟩
  | append_singleton txs tx ih =>
    rw [List.forall_mem_append, List.forall_mem_singleton] at htxs
    obtain ⟨t, ht, hlogged⟩ := ih htxs.1
    rw [SqlTable.saveAll_append_singleton, ht]
    exact hlogged.save htxs.2

end Log

/-- After any saves on an empty table: the next save throws exactly when its hash is there, and then
changes nothing. The table holds, with increasing ids, the first transaction saved under each hash, as
the saves returned them, and the query returns the last twenty, the newest first. -/
theorem transaction_log (sequence : ℤ) (txs : List Transaction) (htxs : ∀ tx ∈ txs, tx.Storable) :
    let saved := SqlTable.saveAll txs (.empty sequence)
    let log := numbered sequence (firsts Transaction.packetHash txs)
    (∀ tx : Transaction, tx.Storable →
      ((∃ e, (SqlTable.save tx saved.2).1 = .error e) ↔
        saved.2.existsByPacketHash tx.packetHash = true) ∧
      (saved.2.existsByPacketHash tx.packetHash = true →
        (SqlTable.save tx saved.2).2 = saved.2)) ∧
    saved.2.rows = log.map Transaction.columns ∧
    log.Pairwise (·.id < ·.id) ∧
    saved.1.filterMap Except.toOption = log ∧
    saved.2.findTop20ByOrderByIdDesc = log.reverse.take 20 := by
  obtain ⟨t, ht, hrows, hnext, hresults⟩ := saveAll_logged sequence htxs
  intro saved log
  have hlog : t.rows = log := hrows
  have hfirsts : ∀ tx ∈ firsts Transaction.packetHash txs, tx.Storable :=
    fun tx htx => htxs tx ((firsts_sublist txs).mem htx)
  have hstorable : ∀ tx ∈ t.rows, tx.Storable := by
    rw [hlog]
    exact storable_numbered hfirsts
  rw [show saved.2 = .ofTable t from ht]
  refine ⟨fun tx htx => ?_, ?_, ?_, ?_, ?_⟩
  · have hexists : (SqlTable.ofTable t).existsByPacketHash tx.packetHash = true ↔
        cstr tx.packetHash ∈ t.rows.map Transaction.packetHash := by
      rw [SqlTable.existsByPacketHash, decide_eq_true_iff]
      exact SqlTable.bindText_mem_ofTable tx.packetHash
    rw [hexists]
    by_cases hdup : cstr tx.packetHash ∈ t.rows.map Transaction.packetHash
    · rw [SqlTable.save_ofTable_of_mem hdup]
      exact ⟨⟨fun _ => hdup, fun _ => ⟨_, rfl⟩⟩, fun _ => rfl⟩
    · rw [SqlTable.save_ofTable_of_notMem hdup]
      refine ⟨⟨?_, fun h => absurd h hdup⟩, fun h => absurd h hdup⟩
      rintro ⟨e, he⟩
      cases he
  · rw [← hlog]
    rfl
  · rw [← hlog]
    exact t.ascending
  · rw [← hlog]
    exact hresults
  · rw [SqlTable.findTop20_ofTable hstorable, hlog]

/-- A payment, another row under its hash, and one under a new hash. -/
def threeSaves : List Transaction :=
  [SettleCall.transaction ⟨alicePaysBob, "h1", "phone-bridge", 1⟩ 5 .SETTLED,
    SettleCall.transaction ⟨alicePaysBob, "h1", "phone-alice", 3⟩ 6 .REJECTED,
    SettleCall.transaction ⟨alicePaysBob, "h2", "phone-bridge", 2⟩ 7 .REJECTED]

theorem storable_threeSaves : ∀ tx ∈ threeSaves, tx.Storable := by
  have hfree : ∀ tx ∈ threeSaves, NulFree tx.packetHash ∧ NulFree tx.senderVpa ∧
      NulFree tx.receiverVpa ∧ NulFree tx.bridgeNodeId ∧ -2 ^ 31 ≤ tx.hopCount ∧
      tx.hopCount < 2 ^ 31 := by
    unfold NulFree
    decide
  intro tx htx
  obtain ⟨hhash, hsender, hreceiver, hbridge, hhop⟩ := hfree tx htx
  exact ⟨hhash, hsender, hreceiver, hbridge, hhop⟩

theorem transaction_log_three_saves :
    (SqlTable.saveAll threeSaves (.empty 0)).2.findTop20ByOrderByIdDesc =
      [{ SettleCall.transaction ⟨alicePaysBob, "h2", "phone-bridge", 2⟩ 7 .REJECTED with id := 2 },
        { SettleCall.transaction ⟨alicePaysBob, "h1", "phone-bridge", 1⟩ 5 .SETTLED with id := 1 }] := by
  obtain ⟨-, -, -, -, htop⟩ := transaction_log 0 threeSaves storable_threeSaves
  rw [htop]
  decide

end UpiMesh
