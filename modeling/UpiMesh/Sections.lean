import UpiMesh.Lib.Progress
import UpiMesh.Locks

/-!
# The atomic actions are sections

Each call is performed by a section on one mutex that does to the server what the call does.
-/

namespace UpiMesh

open Concurrent Locking

namespace Server

variable (s : Server)

theorem update_device (deviceId : String) (held : HeldPackets) :
    Function.update s.parts (.device deviceId) held =
      { s with held := Function.update s.held deviceId held }.parts := by
  funext k
  cases k with
  | device d =>
    by_cases hd : d = deviceId
    · subst hd
      simp only [Function.update_self, parts]
    · have hk : Mutex.device d ≠ .device deviceId := fun h => hd (Mutex.device.inj h)
      simp only [Function.update_of_ne hk, Function.update_of_ne hd, parts]
  | cache => exact Function.update_of_ne Mutex.noConfusion _ _
  | connection => exact Function.update_of_ne Mutex.noConfusion _ _

theorem update_cache (seen : SeenHashes) :
    Function.update s.parts .cache seen = { s with seen }.parts := by
  funext k
  cases k with
  | device d => exact Function.update_of_ne Mutex.noConfusion _ _
  | cache => exact Function.update_self ..
  | connection => exact Function.update_of_ne Mutex.noConfusion _ _

theorem update_connection (db : Database) :
    Function.update s.parts .connection db = { s with db }.parts := by
  funext k
  cases k with
  | device d => exact Function.update_of_ne Mutex.noConfusion _ _
  | cache => exact Function.update_of_ne Mutex.noConfusion _ _
  | connection => exact Function.update_self ..

end Server

namespace Locked

variable {ι : Type} {i : ι}

section Keeps

theorem keeps_pushBack (deviceId : String) (keys : List String) :
    Keeps guards i (.device deviceId) (pushBack deviceId keys) := by
  induction keys with
  | nil => exact .ret []
  | cons key keys ih =>
    exact (Keeps.access rfl).bind fun entry => ih.bind fun result => .ret (entry.toList ++ result)

theorem keeps_eraseExpired (cutoffMillis : ℤ) (keys : List String) :
    Keeps guards i .cache (eraseExpired cutoffMillis keys) := by
  induction keys with
  | nil => exact .ret ()
  | cons key keys ih =>
    refine (Keeps.access rfl).bind fun entry => ?_
    cases entry with
    | none => exact ih
    | some claimedAt =>
      dsimp only
      split
      · exact (Keeps.access rfl).bind fun _ => ih
      · exact ih

theorem keeps_statement (stmt : Statement) : Keeps guards i .connection (statement stmt) :=
  Keeps.access rfl

theorem keeps_rollbackBlock (faults : AttemptFaults) (e : Exn) :
    Keeps guards i .connection (rollbackBlock faults e) := by
  refine (keeps_statement _).bind fun r => ?_
  cases r with
  | error e' => exact .ret _
  | ok _ => exact .ret _

theorem isSection_writeBlock (sender receiver : Account) (call : SettleCall) (settledAt : ℤ)
    (faults : AttemptFaults) :
    IsSection guards i .connection (writeBlock i sender receiver call settledAt faults) := by
  refine Keeps.isSection ?_
  refine (keeps_statement _).bind fun r => ?_
  cases r with
  | error e => exact .ret _
  | ok _ =>
    refine ((keeps_statement _).locked trivial).bind fun _ =>
      ((keeps_statement _).locked trivial).bind fun _ =>
        ((keeps_statement _).locked trivial).bind fun r => ?_
    cases r with
    | error e => exact keeps_rollbackBlock faults e
    | ok tx =>
      refine (keeps_statement _).bind fun r => ?_
      cases r with
      | error e => exact keeps_rollbackBlock faults e
      | ok _ => exact .ret _

theorem isSection_reset (faults : ResetFaults) :
    IsSection guards i .connection (reset i faults) := by
  refine Keeps.isSection ((keeps_statement _).bind fun r => ?_)
  cases r with
  | error e => exact .ret _
  | ok _ =>
    refine (keeps_statement _).bind fun r => ?_
    cases r with
    | error e => exact .ret _
    | ok _ => exact keeps_statement _

/-- Every call is performed by a section. -/
theorem isSection_perform (order : ℤ → IterOrder) (c : Call) :
    ∃ k, IsSection guards i k (perform i order c) := by
  cases c with
  | action a =>
    cases a with
    | getHeldPackets deviceId order =>
      have hkeeps : Keeps guards i (.device deviceId)
          (access (.heldKeys deviceId order) >>= pushBack deviceId) :=
        (Keeps.access rfl).bind (keeps_pushBack deviceId)
      exact ⟨_, hkeeps.isSection⟩
    | evictExpired now =>
      have hkeeps : Keeps guards i .cache (access (.seenKeys (order now)) >>=
          eraseExpired (now - IdempotencyService.ttlSeconds * 1000)) :=
        (Keeps.access rfl).bind (keeps_eraseExpired _)
      exact ⟨_, hkeeps.isSection⟩
    | settleBlock sender receiver call settledAt faults =>
      exact ⟨_, isSection_writeBlock sender receiver call settledAt faults⟩
    | resetDatabase faults => exact ⟨_, isSection_reset faults⟩
    | hold deviceId packet => exact ⟨_, Keeps.isSection (Keeps.access rfl)⟩
    | holds deviceId packetId => exact ⟨_, Keeps.isSection (Keeps.access rfl)⟩
    | packetCount deviceId => exact ⟨_, Keeps.isSection (Keeps.access rfl)⟩
    | clearDevice deviceId => exact ⟨_, Keeps.isSection (Keeps.access rfl)⟩
    | claim packetHash now => exact ⟨_, Keeps.isSection (Keeps.access rfl)⟩
    | clearSeen => exact ⟨_, Keeps.isSection (Keeps.access rfl)⟩
    | findById vpa fault => exact ⟨_, Keeps.isSection (keeps_statement _)⟩
    | saveTransaction tx fault => exact ⟨_, Keeps.isSection (keeps_statement _)⟩
  | query q =>
    cases q with
    | cacheSize => exact ⟨_, Keeps.isSection (Keeps.access rfl)⟩
    | findAll fault => exact ⟨_, Keeps.isSection (keeps_statement _)⟩
    | findTop20ByOrderByIdDesc fault => exact ⟨_, Keeps.isSection (keeps_statement _)⟩

end Keeps

section Leaves

variable (s : Server)

/-- An access that only reads. -/
theorem leaves_read {a : Access} {x : a.Response}
    (h : a.exec (s.parts a.guard) = (x, s.parts a.guard)) :
    Leaves guards (access a : LockedCode ι _) s.parts x s.parts := by
  have haccess := Leaves.access (ι := ι) (G := guards) (d := s.parts) a
  simp only [h, Function.update_eq_self] at haccess
  exact haccess

theorem leaves_statement (stmt : Statement) :
    Leaves guards (statement stmt : LockedCode ι _) s.parts (stmt.exec s.db).1
      { s with db := (stmt.exec s.db).2 }.parts := by
  have haccess := Leaves.access (ι := ι) (G := guards) (d := s.parts) (.statement stmt)
  rw [Server.update_connection] at haccess
  exact haccess

theorem leaves_pushBack (deviceId : String) (keys : List String) :
    Leaves guards (pushBack deviceId keys : LockedCode ι _) s.parts
      (keys.filterMap ((s.held deviceId)[·]?)) s.parts := by
  induction keys with
  | nil => exact .ret []
  | cons key keys ih =>
    have hentry : Leaves guards (access (.heldEntry deviceId key) : LockedCode ι _) s.parts
        (s.held deviceId)[key]? s.parts := leaves_read s rfl
    refine hentry.bind (ih.bind ?_)
    rw [List.filterMap_cons]
    cases (s.held deviceId)[key]? with
    | none => exact Leaves.ret _
    | some packet => exact Leaves.ret _

/-- What the loop of the evictor leaves does not depend on the order of the keys. -/
theorem leaves_eraseExpired (cutoffMillis : ℤ) (keys : List String) :
    ∃ seen : SeenHashes, Leaves guards (eraseExpired cutoffMillis keys : LockedCode ι _) s.parts ()
        { s with seen }.parts ∧
      ∀ h : String, seen[h]? =
        if h ∈ keys then s.seen[h]?.filter fun claimedAt => ¬ claimedAt < cutoffMillis
        else s.seen[h]? := by
  induction keys generalizing s with
  | nil => exact ⟨s.seen, .ret (), fun h => by simp⟩
  | cons key keys ih =>
    have hentry : Leaves guards (access (.seenEntry key) : LockedCode ι _) s.parts s.seen[key]?
        s.parts := leaves_read s rfl
    cases hkey : s.seen[key]? with
    | none =>
      obtain ⟨seen, hrest, hseen⟩ := ih s
      rw [hkey] at hentry
      refine ⟨seen, hentry.bind hrest, fun h => ?_⟩
      rw [hseen]
      by_cases hh : h = key
      · subst hh
        simp [hkey]
      · simp [hh]
    | some claimedAt =>
      rw [hkey] at hentry
      by_cases hold : claimedAt < cutoffMillis
      · have herase : Leaves guards (access (.eraseSeen key) : LockedCode ι _) s.parts ()
            { s with seen := s.seen.erase key }.parts := by
          have haccess := Leaves.access (ι := ι) (G := guards) (d := s.parts) (.eraseSeen key)
          rw [Server.update_cache] at haccess
          exact haccess
        obtain ⟨seen, hrest, hseen⟩ := ih { s with seen := s.seen.erase key }
        refine ⟨seen, hentry.bind ?_, fun h => ?_⟩
        · simp only [if_pos hold]
          exact herase.bind hrest
        · rw [hseen]
          simp only [Std.ExtTreeMap.getElem?_erase, Std.compare_eq_iff_eq]
          by_cases hh : h = key
          · subst hh
            simp [hkey, hold, Option.filter]
          · simp [hh, Ne.symm hh]
      · obtain ⟨seen, hrest, hseen⟩ := ih s
        refine ⟨seen, hentry.bind ?_, fun h => ?_⟩
        · simp only [if_neg hold]
          exact hrest
        · rw [hseen]
          by_cases hh : h = key
          · subst hh
            simp [hkey, hold, Option.filter]
          · simp [hh]

theorem leaves_evictExpired (order : IterOrder) (now : ℤ) :
    Leaves guards (evictExpired i order now) s.parts ()
      { s with seen := IdempotencyService.evictExpired now s.seen }.parts := by
  have hkeys : Leaves guards (access (.seenKeys order) : LockedCode ι _) s.parts
      (order.arrange s.seen.keys) s.parts := leaves_read s rfl
  obtain ⟨seen, hloop, hseen⟩ := leaves_eraseExpired (ι := ι) s
    (now - IdempotencyService.ttlSeconds * 1000) (order.arrange s.seen.keys)
  have heq : seen = IdempotencyService.evictExpired now s.seen := by
    refine Std.ExtTreeMap.ext_getElem? fun h => ?_
    rw [hseen, IdempotencyService.getElem?_evictExpired]
    split_ifs with hmem
    · rfl
    · rw [(order.perm _).mem_iff, Std.ExtTreeMap.mem_keys] at hmem
      rw [Std.ExtTreeMap.getElem?_eq_none hmem]
      rfl
  rw [← heq]
  exact (hkeys.bind hloop).locked

/-- The statements of a reset, one after the other up to the first that fails, are the reset. -/
theorem leaves_reset (faults : ResetFaults) :
    Leaves guards (reset i faults) s.parts (s.db.reset faults).1
      { s with db := (s.db.reset faults).2 }.parts := by
  refine Leaves.locked ?_
  have hrows := leaves_statement (ι := ι) s (.deleteTransactions faults.deleteTransactions)
  simp only [Statement.exec] at hrows
  unfold Database.reset
  generalize s.db.deleteTransactions faults.deleteTransactions = out at hrows ⊢
  obtain ⟨r, db⟩ := out
  cases r with
  | error e => exact hrows.bind (.ret _)
  | ok _ =>
    refine hrows.bind ?_
    have haccounts := leaves_statement (ι := ι) { s with db } (.deleteAccounts faults.deleteAccounts)
    simp only [Statement.exec] at haccounts
    dsimp only
    generalize db.deleteAccounts faults.deleteAccounts = out at haccounts ⊢
    obtain ⟨r, db⟩ := out
    cases r with
    | error e => exact haccounts.bind (.ret _)
    | ok _ => exact haccounts.bind (leaves_statement { s with db } (.insertSeed faults.insertSeed))

theorem leaves_saveAccount (account : Account) (fault : Option StatementFault) :
    Leaves guards (saveAccount i account fault) s.parts ()
      { s with db := AccountRepository.save account fault s.db }.parts :=
  (leaves_statement s (.upsertAccount account fault)).locked

theorem leaves_saveTransaction (tx : Transaction) (fault : Option StatementFault) :
    Leaves guards (saveTransaction i tx fault) s.parts (TransactionRepository.save tx fault s.db).1
      { s with db := (TransactionRepository.save tx fault s.db).2 }.parts :=
  (leaves_statement s (.insertTransaction tx fault)).locked

theorem leaves_execute (sql : ControlStatement) (fault : Option StatementFault) :
    Leaves guards (execute sql fault : LockedCode ι _) s.parts (s.db.execute sql fault).1
      { s with db := (s.db.execute sql fault).2 }.parts :=
  leaves_statement s (.control sql fault)

theorem leaves_rollbackBlock (faults : AttemptFaults) (e : Exn) :
    Leaves guards (rollbackBlock faults e : LockedCode ι _) s.parts
      (UpiMesh.rollbackBlock faults e s.db).1
      { s with db := (UpiMesh.rollbackBlock faults e s.db).2 }.parts := by
  have hrollback := leaves_execute (ι := ι) s .rollback faults.rollback
  unfold UpiMesh.rollbackBlock
  generalize s.db.execute .rollback faults.rollback = out at hrollback ⊢
  obtain ⟨r, db⟩ := out
  cases r with
  | error e' => exact hrollback.bind (.ret _)
  | ok _ => exact hrollback.bind (.ret _)

theorem leaves_writeBlock (sender receiver : Account) (call : SettleCall) (settledAt : ℤ)
    (faults : AttemptFaults) :
    Leaves guards (writeBlock i sender receiver call settledAt faults) s.parts
      (settleBlock sender receiver call settledAt faults s.db).1
      { s with db := (settleBlock sender receiver call settledAt faults s.db).2 }.parts := by
  refine Leaves.locked ?_
  have hbegin := leaves_execute (ι := ι) s .beginImmediate faults.beginImmediate
  unfold settleBlock
  generalize s.db.execute .beginImmediate faults.beginImmediate = out at hbegin ⊢
  obtain ⟨r, db⟩ := out
  cases r with
  | error e => exact hbegin.bind (.ret _)
  | ok _ =>
    refine hbegin.bind ?_
    dsimp only
    refine (leaves_saveAccount { s with db } (sender.debit call.instruction.amount)
      faults.saveSender).bind ?_
    generalize AccountRepository.save (sender.debit call.instruction.amount) faults.saveSender db = db
    refine (leaves_saveAccount { s with db } (receiver.credit call.instruction.amount)
      faults.saveReceiver).bind ?_
    generalize AccountRepository.save (receiver.credit call.instruction.amount) faults.saveReceiver
      db = db
    have hsave := leaves_saveTransaction (i := i) { s with db } (call.transaction settledAt .SETTLED)
      faults.insert
    dsimp only at hsave
    generalize TransactionRepository.save (call.transaction settledAt .SETTLED) faults.insert db = out
      at hsave ⊢
    obtain ⟨r, db⟩ := out
    cases r with
    | error e => exact hsave.bind (leaves_rollbackBlock { s with db } faults e)
    | ok tx =>
      refine hsave.bind ?_
      have hcommit := leaves_execute (ι := ι) { s with db } .commit faults.commit
      dsimp only at hcommit ⊢
      generalize db.execute .commit faults.commit = out at hcommit ⊢
      obtain ⟨r, db⟩ := out
      cases r with
      | error e => exact hcommit.bind (leaves_rollbackBlock { s with db } faults e)
      | ok _ => exact hcommit.bind (.ret _)

/-- Every call does on its own what it does as an atomic action. -/
theorem leaves_perform (order : ℤ → IterOrder) (c : Call) :
    Leaves guards (perform i order c) s.parts (c.exec s).1 (c.exec s).2.parts := by
  cases c with
  | action a =>
    cases a with
    | hold deviceId packet =>
      have haccess := Leaves.access (ι := ι) (G := guards) (d := s.parts) (.assignHeld deviceId packet)
      rw [Server.update_device] at haccess
      exact haccess.locked
    | holds deviceId packetId => exact (leaves_read s rfl).locked
    | packetCount deviceId => exact (leaves_read s rfl).locked
    | getHeldPackets deviceId order =>
      have hkeys : Leaves guards (access (.heldKeys deviceId order) : LockedCode ι _) s.parts
          (order.arrange (s.held deviceId).keys) s.parts := leaves_read s rfl
      exact (hkeys.bind (leaves_pushBack s deviceId _)).locked
    | clearDevice deviceId =>
      have haccess := Leaves.access (ι := ι) (G := guards) (d := s.parts) (.clearHeld deviceId)
      rw [Server.update_device] at haccess
      exact haccess.locked
    | claim packetHash now =>
      have haccess := Leaves.access (ι := ι) (G := guards) (d := s.parts) (.insertSeen packetHash now)
      rw [Server.update_cache] at haccess
      exact haccess.locked
    | evictExpired now => exact leaves_evictExpired s (order now) now
    | clearSeen =>
      have haccess := Leaves.access (ι := ι) (G := guards) (d := s.parts) .clearSeen
      rw [Server.update_cache] at haccess
      exact haccess.locked
    | findById vpa fault => exact (leaves_statement s (.selectAccount vpa fault)).locked
    | settleBlock sender receiver call settledAt faults =>
      exact leaves_writeBlock s sender receiver call settledAt faults
    | saveTransaction tx fault => exact leaves_saveTransaction s tx fault
    | resetDatabase faults => exact leaves_reset s faults
  | query q =>
    cases q with
    | cacheSize => exact (leaves_read s rfl).locked
    | findAll fault => exact (leaves_statement s (.selectAccounts fault)).locked
    | findTop20ByOrderByIdDesc fault => exact (leaves_statement s (.selectTop20 fault)).locked

end Leaves

section Levels

theorem expand_rollbackBlock (order : ℤ → IterOrder) (faults : AttemptFaults) (e : Exn) :
    (Connection.rollbackBlock faults e : Session ι _).expand (lower i order) = rollbackBlock faults e :=
  Program.expand_bind_eq rfl fun r => by cases r <;> rfl

theorem expand_writeBlock (order : ℤ → IterOrder) (sender receiver : Account) (call : SettleCall)
    (settledAt : ℤ) (faults : AttemptFaults) :
    (Connection.writeBlock i sender receiver call settledAt faults).expand (lower i order) =
      writeBlock i sender receiver call settledAt faults := by
  refine Program.expand_bind_eq rfl fun _ => Program.expand_bind_eq ?_ fun r => rfl
  refine Program.expand_bind_eq rfl fun r => ?_
  cases r with
  | error e => rfl
  | ok _ =>
    refine Program.expand_bind_eq rfl fun _ => Program.expand_bind_eq rfl fun _ =>
      Program.expand_bind_eq rfl fun r => ?_
    cases r with
    | error e => exact expand_rollbackBlock order faults e
    | ok tx =>
      refine Program.expand_bind_eq rfl fun r => ?_
      cases r with
      | error e => exact expand_rollbackBlock order faults e
      | ok _ => rfl

theorem expand_reset (order : ℤ → IterOrder) (faults : ResetFaults) :
    (Connection.reset i faults).expand (lower i order) = reset i faults := by
  refine Program.expand_bind_eq rfl fun _ => Program.expand_bind_eq ?_ fun r => rfl
  refine Program.expand_bind_eq rfl fun r => ?_
  cases r with
  | error e => rfl
  | ok _ =>
    refine Program.expand_bind_eq rfl fun r => ?_
    cases r with
    | error e => rfl
    | ok _ => exact Program.expand_call ..

theorem expand_perform (order : ℤ → IterOrder) (a : Action) :
    (Connection.perform i a).expand (lower i order) = perform i order (.action a) := by
  cases a with
  | findById vpa fault => rfl
  | saveTransaction tx fault => rfl
  | resetDatabase faults => exact expand_reset order faults
  | settleBlock sender receiver call settledAt faults => exact expand_writeBlock ..
  | _ => exact Program.expand_call ..

/-- With every other lock replaced by its section, a service on the level of statements is one on the
level of locks. -/
theorem expand_session (order : ℤ → IterOrder) {α : Type} (p : Service α) :
    (Connection.session i p).expand (lower i order) = code i order p.serve := by
  induction p with
  | ret r => rfl
  | act a next ih => exact Program.expand_bind_eq (expand_perform order a) ih

end Levels

end Locked

/-- What a call does to the components of the server. -/
def Call.onParts (c : Call) (d : (k : Mutex) → k.Data) : c.Response × ((k : Mutex) → k.Data) :=
  ((c.exec (.ofParts d)).1, (c.exec (.ofParts d)).2.parts)

/-- One thread resets the database while another reads the stores. -/
def resetAndRead : Bool → List ServerCall
  | true => [.operation (.resetDatabase {})]
  | false => [.meshState .listed, .listAccounts none]

/-- The two threads on the level of locks, with plain JSON trees. -/
def resetAndReadStart : LockedThreads Bool (List (ServerReply JsonValue.library)) :=
  Locked.initially (.ofList []) JsonValue.library Binary64.nearest (fun _ _ => .sorted) resetAndRead
    Server.initial

/-- The reset and the look at the devices alternate. -/
def resetAndReadSchedule : List Bool :=
  [true, false, true, false, true, false, true, false, true] ++ List.replicate 32 false

section Schedules

variable {ι : Type} [DecidableEq ι] (crypto : CryptoService) (json : JsonLibrary) (b : Binary64)
  (order : ι → ℤ → IterOrder) (calls : ι → List ServerCall) (s : Server)

omit [DecidableEq ι] in
theorem implements_perform :
    Implements guards (fun i => Locked.perform i (order i)) Call.onParts where
  isSection i c := Locked.isSection_perform (order i) c
  run i c d := by
    have hleaves := Locked.leaves_perform (i := i) (Server.ofParts d) (order i) c fun _ => none
    rwa [Server.parts_ofParts] at hleaves

/-- A state that the threads reach lock by lock is related to one that they reach by atomic actions. -/
theorem exists_related {trace : List (ι × Locking ι Mutex Access)}
    {c : LockedThreads ι (List (ServerReply json))}
    (hrun : Pool.Run (exec guards) (Enabled guards)
      (Locked.initially crypto json b order calls s) trace c) :
    ∃ trace' c', Pool.Run Call.exec Pool.AnyStep (ServerCall.initially crypto json b calls s)
        trace' c' ∧
      Related guards (fun i => Locked.perform i (order i)) c ⟨c'.shared.parts, c'.threads⟩ := by
  have hstart : Related guards (fun i => Locked.perform i (order i))
      (Locked.initially crypto json b order calls s)
      ⟨s.parts, fun i => ServerCall.programs crypto json b (calls i)⟩ := Related.initially _ _
  obtain ⟨trace', c', hrun', hrelated⟩ := hstart.run (implements_perform order) hrun
  have hserver := hrun'.map Call.exec Server.ofParts fun a d => by
    simp only [Call.onParts, Server.ofParts_parts]
  refine ⟨trace', _, hserver, ?_⟩
  rwa [Server.parts_ofParts]

/-- Every state that the threads reach lock by lock is one that they reach by atomic actions: who has
returned has returned the same replies, and what no thread has locked is the same. -/
theorem calls_atomic (trace : List (ι × Locking ι Mutex Access))
    (c : LockedThreads ι (List (ServerReply json)))
    (hrun : Pool.Run (exec guards) (Enabled guards)
      (Locked.initially crypto json b order calls s) trace c) :
    ∃ trace' c', Pool.Run Call.exec Pool.AnyStep (ServerCall.initially crypto json b calls s)
        trace' c' ∧
      (∀ i replies, c.threads i = .ret replies → c'.threads i = .ret replies) ∧
      ∀ k, c.shared.owner k = none → c.shared.data k = c'.shared.parts k := by
  obtain ⟨trace', c', hrun', hrelated⟩ := exists_related crypto json b order calls s hrun
  refine ⟨trace', c', hrun', fun i replies hi => ?_, fun k hk => (hrelated.free k hk).symm⟩
  exact (hrelated.returned (implements_perform order) hi).1

theorem exists_resetAndRead : ∃ trace, Pool.Run (exec guards) (Enabled guards) resetAndReadStart trace
    (resetAndReadSchedule.foldl (Pool.advance (exec guards)) resetAndReadStart) := by
  have hadmissible : Pool.Admissible (exec guards) (Enabled guards) resetAndReadSchedule
      resetAndReadStart := by decide +kernel
  exact Pool.Run.of_schedule hadmissible

/-- Both threads return, and the atomic actions make them return the same. -/
theorem calls_atomic_reset_and_read :
    ∃ trace' c', Pool.Run Call.exec Pool.AnyStep (ServerCall.initially (.ofList []) JsonValue.library
        Binary64.nearest resetAndRead Server.initial) trace' c' ∧
      c'.Finished ∧ c'.shared.db = Database.initial.reseeded := by
  obtain ⟨trace, hrun⟩ := exists_resetAndRead
  obtain ⟨trace', c', hrun', hreturned, hdata⟩ := calls_atomic (.ofList []) JsonValue.library
    Binary64.nearest (fun _ _ => .sorted) resetAndRead Server.initial trace _ hrun
  refine ⟨trace', c', hrun', fun i => ?_, (hdata .connection ?_).symm⟩
  · cases i with
    | true => exact ⟨_, hreturned true _ rfl⟩
    | false => exact ⟨_, hreturned false _ rfl⟩
  · decide +kernel

/-- The outcomes of all calls, with the state they leave, are those of the atomic actions. -/
theorem outcomes_iff (replies : ι → List (ServerReply json)) (s' : Server) :
    (∃ trace owner, Pool.Run (exec guards) (Enabled guards)
        (Locked.initially crypto json b order calls s) trace
        ⟨⟨owner, s'.parts⟩, fun i => .ret (replies i)⟩) ↔
      ∃ trace, Pool.Run Call.exec Pool.AnyStep (ServerCall.initially crypto json b calls s) trace
        ⟨s', fun i => .ret (replies i)⟩ := by
  constructor
  · rintro ⟨trace, owner, hrun⟩
    obtain ⟨trace', c', hrun', hrelated⟩ := exists_related crypto json b order calls s hrun
    have hfree : ∀ k, owner k = none := by
      intro k
      by_contra howned
      obtain ⟨⟨i, n⟩, hi⟩ := Option.ne_none_iff_exists'.mp howned
      exact (hrelated.returned (implements_perform order) rfl).2 k n hi
    have hparts : c'.shared.parts = s'.parts := funext fun k => hrelated.free k (hfree k)
    have hshared : c'.shared = s' := by
      rw [← Server.ofParts_parts c'.shared, hparts, Server.ofParts_parts]
    have hthreads : c'.threads = fun i => .ret (replies i) :=
      funext fun i => (hrelated.returned (implements_perform order) rfl).1
    have hc' : c' = ⟨s', fun i => .ret (replies i)⟩ := by rw [← hshared, ← hthreads]
    exact ⟨trace', hc' ▸ hrun'⟩
  · rintro ⟨trace, hrun⟩
    have hparts := hrun.map Call.onParts Server.parts fun a s => by
      simp only [Call.onParts, Server.ofParts_parts]
    obtain ⟨trace', hrun'⟩ := (implements_perform order).realize hparts
    exact ⟨trace', fun _ => none, hrun'⟩

/-- A thread touches only what it has locked, one of the threads that have not returned can go on, and
with finitely many threads every state can be left by a schedule in which all return. -/
theorem race_free_and_live (trace : List (ι × Locking ι Mutex Access))
    (c : LockedThreads ι (List (ServerReply json)))
    (hrun : Pool.Run (exec guards) (Enabled guards)
      (Locked.initially crypto json b order calls s) trace c) :
    (∀ i a next, c.threads i = .act (.access a) next → ∃ n, c.shared.owner a.guard = some (i, n)) ∧
    (∀ i, (∀ r, c.threads i ≠ .ret r) →
      ∃ j x c₁, Pool.Step (exec guards) c j x c₁ ∧ Enabled guards j x c.shared) ∧
    (Finite ι →
      ∃ rest c', Pool.Run (exec guards) (Enabled guards) c rest c' ∧ c'.Finished) := by
  have himpl := implements_perform order
  obtain ⟨_, _, _, hrelated⟩ := exists_related crypto json b order calls s hrun
  refine ⟨fun i a next hi => hrelated.owns himpl hi, fun i hi => hrelated.can_step himpl hi, ?_⟩
  intro _
  refine Pool.exists_run_finished (exec guards)
    (fun c => ∃ c', Related guards (fun i => Locked.perform i (order i)) c c')
    (fun c j x c₁ hinv hstep hok => ?_) (fun c i hinv hi => ?_) c ⟨_, hrelated⟩
  · obtain ⟨c', hc'⟩ := hinv
    obtain ⟨-, c₁', -, hc₁'⟩ := hc'.run himpl (.cons hstep hok (.nil c₁))
    exact ⟨c₁', hc₁'⟩
  · obtain ⟨c', hc'⟩ := hinv
    exact hc'.can_step himpl hi

/-- In the middle of the reset both threads can still be brought to their end. -/
theorem race_free_and_live_mid_reset :
    ∃ c : LockedThreads Bool (List (ServerReply JsonValue.library)),
      c.shared.owner .connection = some (true, 0) ∧
      ∃ rest c', Pool.Run (exec guards) (Enabled guards) c rest c' ∧ c'.Finished := by
  have hadmissible : Pool.Admissible (exec guards) (Enabled guards) (resetAndReadSchedule.take 4)
      resetAndReadStart := by decide +kernel
  obtain ⟨trace, hrun⟩ := Pool.Run.of_schedule hadmissible
  obtain ⟨-, -, hfinish⟩ := race_free_and_live (.ofList []) JsonValue.library Binary64.nearest
    (fun _ _ => .sorted) resetAndRead Server.initial trace _ hrun
  exact ⟨_, rfl, hfinish inferInstance⟩

end Schedules

end UpiMesh
