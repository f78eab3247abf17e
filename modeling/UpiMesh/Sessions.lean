import UpiMesh.Growth
import UpiMesh.Receipts

/-!
# What a session reads

A client that sends one request after another sees the server grow: a transaction of which it has been
told, or which it has seen listed, is in every later listing, unless twenty newer ones have taken its
place; and no device shows fewer packets than before. A listing whose statement fails on the way shows
fewer rows, but still the newest. All other sessions may do what they like, short of a reset, and the
code runs lock by lock.
-/

namespace UpiMesh

open Concurrent
open Std (ExtTreeMap)

theorem size_le_of_subset {m m' : HeldPackets} (h : ∀ packetId : String, packetId ∈ m → packetId ∈ m') :
    m.size ≤ m'.size := by
  have hkeys : m.keys.Subperm m'.keys :=
    ExtTreeMap.nodup_keys.subperm fun packetId hp =>
      ExtTreeMap.mem_keys.mpr (h packetId (ExtTreeMap.mem_keys.mp hp))
  have hlength := hkeys.length_le
  rwa [ExtTreeMap.length_keys, ExtTreeMap.length_keys] at hlength

theorem Server.Leads.size_le {s s' : Server} (h : s.Leads s') (d : String) :
    (s.held d).size ≤ (s'.held d).size := size_le_of_subset (h.ids d)

theorem VirtualDevice.length_getHeldPackets (order : IterOrder) (held : HeldPackets) :
    (getHeldPackets order held).length = held.size := by
  have hsome : ∀ packetId ∈ order.arrange held.keys, (held[packetId]?).isSome := by
    intro packetId hp
    rw [(order.perm _).mem_iff, ExtTreeMap.mem_keys] at hp
    rwa [← ExtTreeMap.mem_iff_isSome_getElem?]
  rw [getHeldPackets, List.length_filterMap_eq_countP, List.countP_eq_length.mpr hsome,
    (order.perm _).length_eq, ExtTreeMap.length_keys]

/-- The rows are stored. -/
def Told (rows : List Transaction) (s : Server) : Prop := ∀ row ∈ rows, row ∈ s.log ∧ row.id ≠ -1

/-- The count and the ids shown of a device, in terms of what it held before and after. -/
structure DeviceState.Between (s s' : Server) (d : DeviceState) : Prop where
  before : (s.held d.deviceId).size ≤ d.packetCount
  counted : d.packetCount ≤ d.packetIds.length
  after : d.packetIds.length ≤ (s'.held d.deviceId).size

theorem DeviceState.Between.widen {s s' t t' : Server} {d : DeviceState} (h : d.Between t t')
    (hs : s.Leads t) (hs' : t'.Leads s') : d.Between s s' :=
  ⟨(hs.size_le _).trans h.before, h.counted, h.after.trans (hs'.size_le _)⟩

/-- The answer to a listing of the newest transactions of this server. -/
def listingOf (json : JsonLibrary) (b : Binary64) (s : Server) (fault : Option QueryFault) :
    ServerReply json :=
  .transactions ((Statement.top20Rows s.db fault).map (·.map (Transaction.to_json json b)))

/-- The answer to a request, in terms of states between one before it and one after it. -/
structure Explains (json : JsonLibrary) (b : Binary64) (call : ServerCall) (reply : ServerReply json)
    (s s' : Server) : Prop where
  leads : s.Leads s'
  receipts : ∀ r ∈ reply.receipts, ∃ row ∈ s'.log, r.Names row
  listing : ∀ fault, call = .listTransactions fault → ∃ t, s.Leads t ∧ t.Leads s' ∧
    reply = listingOf json b t fault
  devices : ∀ state, reply = .state state → ∀ d ∈ state.devices, d.Between s s'

/-- The answers of a session, in terms of a sequence of states. -/
def Explained (json : JsonLibrary) (b : Binary64) :
    List ServerCall → List (ServerReply json) → Server → Server → Prop
  | [], [], s, s' => s.Leads s'
  | call :: calls, reply :: replies, s, s' =>
      ∃ t, Explains json b call reply s t ∧ Explained json b calls replies t s'
  | _, _, _, _ => False

section Programs

variable {crypto : CryptoService} {json : JsonLibrary} {b : Binary64} {told : List Transaction}
  {s : Server} {note : List Transaction → (c : Call) → c.Response → List Transaction}

theorem told_step {c : Call} (hc : c.Grows) (hs : Server.growing.keeps s) (h : Told told s) :
    Told (told ++ c.stored (c.exec s).1) (c.exec s).2 := by
  have hstep := call_dbStep c s
  obtain ⟨hold, hnew⟩ := hstep.rows_stay (not_isReset_of_clears hc.2)
  intro row hrow
  rcases List.mem_append.mp hrow with hrow | hrow
  · exact ⟨hold row (h row hrow).1, (h row hrow).2⟩
  · refine ⟨hnew row hrow, ?_⟩
    have hsequence := hs.2
    rcases hstep.sequence.2 with hnone | ⟨row', hrow', hlt, -⟩
    · rw [hnone] at hrow
      exact absurd hrow List.not_mem_nil
    · rw [hrow'] at hrow
      rw [List.mem_singleton.mp hrow]
      omega

variable (crypto json b)

theorem assures_receipts {call : ServerCall} (hreset : call.NoReset) (hroll : call.RollbackSucceeds)
    (h : Told told s) :
    (call.program crypto json b).Assures Call.exec Server.growing Endpoint.receipts.protocol.after
      (fun told' s' reply => Told told' s' ∧ ∀ r ∈ reply.receipts, ∃ row ∈ s'.log, r.Names row)
      told s := by
  have hcollects : (call.program crypto json b).Collects Endpoint.receipts
    fun rows r => Issued rows r.receipts := ServerCall.collects call
  refine (((hcollects told).restrict (ServerCall.uses_grows hreset hroll)).assures (K := Told)
    ?_ ?_ h).mono ?_
  · intro told s t h hleads row hrow
    exact ⟨hleads.log.subset (h row hrow).1, (h row hrow).2⟩
  · intro told c t hc ht h
    obtain ⟨hkeeps, hleads⟩ := hc.2.admits t ht
    exact ⟨call_reports c t, hkeeps, hleads, told_step hc.2 ht h⟩
  · rintro told' s' reply ⟨⟨new, rfl, hissued⟩, htold⟩
    refine ⟨htold, fun r hr => ?_⟩
    have hnamed := hissued fun tx htx => (htold tx (List.mem_append_right _ htx)).2
    obtain ⟨row, hrow, hname⟩ := exists_row_of_named hnamed hr
    exact ⟨row, (htold row (List.mem_append_right _ hrow)).1, hname⟩

theorem assures_listing {call : ServerCall} (hreset : call.NoReset) (hroll : call.RollbackSucceeds) :
    (call.program crypto json b).Assures Call.exec Server.growing note
      (fun _ s' reply => ∀ fault, call = .listTransactions fault → ∃ t, s.Leads t ∧ t.Leads s' ∧
        reply = listingOf json b t fault)
      told s := by
  by_cases hcall : ∃ fault, call = .listTransactions fault
  · obtain ⟨fault, rfl⟩ := hcall
    intro t ht hst
    refine ⟨ht, Server.growing.refl t, ?_⟩
    have hreply : ∀ rows, rows = Statement.top20Rows t.db fault → ∀ fault',
        ServerCall.listTransactions fault = .listTransactions fault' → ∃ u, s.Leads u ∧ u.Leads t ∧
          .transactions (rows.map (·.map (Transaction.to_json json b))) = listingOf json b u fault' := by
      rintro rows rfl fault' hfault
      obtain rfl := ServerCall.listTransactions.inj hfault
      exact ⟨t, hst, Server.growing.refl t, rfl⟩
    cases hrows : Statement.top20Rows t.db fault with
    | error e =>
      rw [show ((Call.query (.findTop20ByOrderByIdDesc fault)).exec t).1 = Except.error e from hrows]
      exact hreply _ hrows.symm
    | ok txs =>
      rw [show ((Call.query (.findTop20ByOrderByIdDesc fault)).exec t).1 = Except.ok txs from hrows]
      exact hreply _ hrows.symm
  · refine (Program.Uses.assures (ServerCall.uses_grows hreset hroll) fun c hc => hc.admits).mono ?_
    exact fun _ _ _ _ fault h => absurd ⟨fault, h⟩ hcall

theorem deviceStates_assure (packets : String → IterOrder) (devices : List VirtualDevice) :
    (ApiController.deviceStates packets devices).Assures Call.exec Server.growing note
      (fun _ s' states => ∀ d ∈ states, d.Between s s') told s := by
  induction devices generalizing told s with
  | nil => exact fun d hd => absurd hd List.not_mem_nil
  | cons d devices ih =>
    intro t ht hst
    refine ⟨ht, Server.growing.refl t, fun u hu htu => ⟨hu, Server.growing.refl u, ?_⟩⟩
    refine (ih.later hu).bind fun _ s' states hstates => ?_
    obtain ⟨hstates, -, hus'⟩ := hstates
    refine List.forall_mem_cons.mpr ⟨⟨hst.size_le d.deviceId, ?_, ?_⟩, fun d' hd' => ?_⟩
    · rw [List.length_map]
      change (t.held d.deviceId).size ≤ (VirtualDevice.getHeldPackets _ (u.held d.deviceId)).length
      rw [VirtualDevice.length_getHeldPackets]
      exact htu.size_le d.deviceId
    · rw [List.length_map]
      change (VirtualDevice.getHeldPackets _ (u.held d.deviceId)).length ≤ (s'.held d.deviceId).size
      rw [VirtualDevice.length_getHeldPackets]
      exact hus'.size_le d.deviceId
    · exact (hstates d' hd').widen (Server.growing.trans hst htu) (Server.growing.refl s')

theorem meshState_assures (order : MeshOrder) :
    (ApiController.meshState order).Assures Call.exec Server.growing note
      (fun _ s' state => ∀ d ∈ state.devices, d.Between s s') told s := by
  refine Program.Assures.bind (deviceStates_assure order.packets _) fun _ u states hstates t ht hut => ?_
  exact ⟨ht, Server.growing.refl t, fun d hd => (hstates d hd).widen (Server.growing.refl s) hut⟩

theorem assures_devices {call : ServerCall} (hreset : call.NoReset) (hroll : call.RollbackSucceeds) :
    (call.program crypto json b).Assures Call.exec Server.growing note
      (fun _ s' reply => ∀ state, reply = .state state → ∀ d ∈ state.devices, d.Between s s')
      told s := by
  cases call with
  | operation op =>
    have hop : (op.program crypto).serve.Uses Call.Grows :=
      Service.serve_uses (Op.uses_grows hreset hroll) fun _ ha => ha
    exact (hop.assures fun c hc => hc.admits).bind fun _ _ _ _ _ h => by cases h
  | meshState order =>
    refine (meshState_assures order).bind fun _ s' reply h state hstate => ?_
    cases hstate
    exact h
  | listAccounts fault =>
    have haccounts : (ApiController.listAccounts json b fault).Uses Call.Grows :=
      ⟨Query.grows _, fun _ => trivial⟩
    exact (haccounts.assures fun c hc => hc.admits).bind fun _ _ _ _ _ h => by cases h
  | listTransactions fault =>
    have htransactions : (ApiController.listTransactions json b fault).Uses Call.Grows :=
      ⟨Query.grows _, fun rows => by cases rows <;> exact trivial⟩
    exact (htransactions.assures fun c hc => hc.admits).bind fun _ _ _ _ _ h => by cases h

/-- Every request is answered in terms of states between the last one known before and the first one
known after. -/
theorem call_explains {call : ServerCall} (hreset : call.NoReset) (hroll : call.RollbackSucceeds)
    (hs : Server.growing.keeps s) (h : Told told s) :
    (call.program crypto json b).Assures Call.exec Server.growing Endpoint.receipts.protocol.after
      (fun told' s' reply => Server.growing.keeps s' ∧ Told told' s' ∧
        Explains json b call reply s s') told s := by
  refine (((assures_receipts crypto json b hreset hroll h).and ((assures_listing crypto json b hreset
    hroll).and (assures_devices crypto json b hreset hroll))).later hs).mono fun told' s' reply hpost => ?_
  obtain ⟨⟨⟨htold, hreceipts⟩, hlisting, hdevices⟩, hkeeps, hleads⟩ := hpost
  exact ⟨hkeeps, htold, hleads, hreceipts, hlisting, hdevices⟩

theorem programs_explain {calls : List ServerCall}
    (hcalls : ∀ call ∈ calls, call.NoReset ∧ call.RollbackSucceeds) (hs : Server.growing.keeps s)
    (h : Told told s) :
    (ServerCall.programs crypto json b calls).Assures Call.exec Server.growing
      Endpoint.receipts.protocol.after (fun _ s' replies => Explained json b calls replies s s')
      told s := by
  induction calls generalizing told s with
  | nil => exact Server.growing.refl s
  | cons call calls ih =>
    obtain ⟨⟨hreset, hroll⟩, hrest⟩ := List.forall_mem_cons.mp hcalls
    refine (call_explains crypto json b hreset hroll hs h).bind fun told' t reply hreply => ?_
    obtain ⟨ht, htold, hexplains⟩ := hreply
    exact (ih hrest ht htold).bind fun _ s' replies hreplies => ⟨t, hexplains, hreplies⟩

end Programs

/-- The row is listed, or the listing is full of newer ones: of twenty, or of as many as it delivered
before a step failed. -/
def Shown (fault : Option QueryFault) (txs : List Transaction) (tx : Transaction) : Prop :=
  tx ∈ txs ∨ (txs.length = 20 ∨ fault = some (.step txs.length)) ∧ ∀ tx' ∈ txs, tx.id < tx'.id

/-- The rows that a listing is answered with. Only one that cannot be prepared is not answered. -/
def Listed (json : JsonLibrary) (b : Binary64) (x : ServerCall × ServerReply json)
    (fault : Option QueryFault) (txs : List Transaction) : Prop :=
  x.1 = .listTransactions fault ∧ x.2 = .transactions (.ok (txs.map (Transaction.to_json json b)))

/-- What a client may conclude about a request from an earlier one of its session. -/
structure ReadsForward (json : JsonLibrary) (b : Binary64) (x y : ServerCall × ServerReply json) :
    Prop where
  receipts : ∀ fault, y.1 = .listTransactions fault → fault ≠ some .prepare → ∀ r ∈ x.2.receipts,
    ∃ txs, Listed json b y fault txs ∧ ∃ tx, r.Names tx ∧ Shown fault txs tx
  listings : ∀ fault fault', x.1 = .listTransactions fault → y.1 = .listTransactions fault' →
    fault ≠ some .prepare → fault' ≠ some .prepare → ∃ txs txs', Listed json b x fault txs ∧
      Listed json b y fault' txs' ∧ ∀ tx ∈ txs, Shown fault' txs' tx
  devices : ∀ state state', x.2 = .state state → y.2 = .state state' → ∀ d ∈ state.devices,
    ∀ d' ∈ state'.devices, d'.deviceId = d.deviceId → d.packetIds.length ≤ d'.packetCount

section Reads

variable {json : JsonLibrary} {b : Binary64}

/-- The rows of a listing that is answered are the first of the newest. -/
theorem top20Rows_ok (db : Database) {fault : Option QueryFault} (h : fault ≠ some .prepare) :
    ∃ n, Statement.top20Rows db fault = .ok (db.current.transactions.rows.reverse.take n) ∧
      (n = 20 ∨ n < 20 ∧ fault = some (.step n)) := by
  cases fault with
  | none => exact ⟨20, rfl, Or.inl rfl⟩
  | some f =>
    cases f with
    | prepare => exact absurd rfl h
    | step delivered =>
      refine ⟨min delivered 20, congrArg Except.ok (List.take_take ..), ?_⟩
      by_cases hn : delivered < 20
      · rw [min_eq_left hn.le]
        exact Or.inr ⟨hn, rfl⟩
      · exact Or.inl (min_eq_right (not_lt.mp hn))

/-- A row of the log is among its last ones, or these are all newer. -/
theorem newest_of_mem (s : Server) (n : ℕ) {row : Transaction} (h : row ∈ s.log) :
    row ∈ s.log.reverse.take n ∨ (s.log.reverse.take n).length = n ∧
      ∀ tx ∈ s.log.reverse.take n, row.id < tx.id := by
  have hsorted : s.log.reverse.Pairwise fun tx tx' => tx'.id < tx.id :=
    List.pairwise_reverse.mpr s.db.current.transactions.ascending
  have hmem : row ∈ s.log.reverse.take n ++ s.log.reverse.drop n := by
    rw [List.take_append_drop]
    exact List.mem_reverse.mpr h
  rw [← List.take_append_drop n s.log.reverse, List.pairwise_append] at hsorted
  rcases List.mem_append.mp hmem with hnew | hold
  · exact Or.inl hnew
  · have hpos := List.length_pos_of_mem hold
    rw [List.length_drop] at hpos
    refine Or.inr ⟨?_, fun tx htx => hsorted.2.2 tx htx row hold⟩
    rw [List.length_take]
    omega

/-- A listing that is answered shows every row of the log, and only those. -/
theorem exists_listed (s : Server) {call : ServerCall} {reply : ServerReply json}
    {fault : Option QueryFault} (hfault : fault ≠ some .prepare) (hcall : call = .listTransactions fault)
    (hreply : reply = listingOf json b s fault) : ∃ txs, Listed json b (call, reply) fault txs ∧
      (∀ tx ∈ txs, tx ∈ s.log) ∧ ∀ row ∈ s.log, Shown fault txs row := by
  obtain ⟨n, hrows, hn⟩ := top20Rows_ok s.db hfault
  refine ⟨s.log.reverse.take n, ⟨hcall, ?_⟩, fun tx htx => ?_, fun row hrow => ?_⟩
  · rw [hreply, listingOf, hrows]
    rfl
  · exact List.mem_reverse.mp (List.mem_of_mem_take htx)
  · rcases newest_of_mem s n hrow with hnew | ⟨hlength, holder⟩
    · exact Or.inl hnew
    · refine Or.inr ⟨?_, holder⟩
      rw [hlength]
      exact hn.imp_right And.right

theorem Explains.readsForward {call call' : ServerCall} {reply reply' : ServerReply json}
    {s s' t t' : Server} (h : Explains json b call reply s s') (hleads : s'.Leads t)
    (h' : Explains json b call' reply' t t') : ReadsForward json b (call, reply) (call', reply') := by
  refine ⟨fun fault hcall hfault r hr => ?_, fun fault fault' hcall hcall' hfault hfault' => ?_,
    fun state state' hs hs' d hd d' hd' hid => ?_⟩
  · obtain ⟨u, htu, -, hreply⟩ := h'.listing fault hcall
    obtain ⟨row, hrow, hname⟩ := h.receipts r hr
    have hsu : s'.Leads u := Server.growing.trans hleads htu
    obtain ⟨txs, hlisted, -, hshown⟩ := exists_listed u hfault hcall hreply
    exact ⟨txs, hlisted, row, hname, hshown row (hsu.log.subset hrow)⟩
  · obtain ⟨u, -, hus', hreply⟩ := h.listing fault hcall
    obtain ⟨u', htu', -, hreply'⟩ := h'.listing fault' hcall'
    have hleads' : u.Leads u' := Server.growing.trans hus' (Server.growing.trans hleads htu')
    obtain ⟨txs, hlisted, hlog, -⟩ := exists_listed u hfault hcall hreply
    obtain ⟨txs', hlisted', -, hshown⟩ := exists_listed u' hfault' hcall' hreply'
    exact ⟨txs, txs', hlisted, hlisted', fun tx htx => hshown tx (hleads'.log.subset (hlog tx htx))⟩
  · have hafter := (h.devices state hs d hd).after
    have hbefore := (h'.devices state' hs' d' hd').before
    rw [hid] at hbefore
    exact hafter.trans ((hleads.size_le d.deviceId).trans hbefore)

/-- Every request of the session has an answer, which is explained by states of its own. -/
theorem Explained.forall {calls : List ServerCall} {replies : List (ServerReply json)} {s s' : Server}
    (h : Explained json b calls replies s s') : calls.length = replies.length ∧
      ∀ x ∈ calls.zip replies, ∃ t t', s.Leads t ∧ Explains json b x.1 x.2 t t' := by
  induction calls generalizing replies s with
  | nil =>
    cases replies with
    | nil => exact ⟨rfl, fun _ hx => absurd hx List.not_mem_nil⟩
    | cons reply replies => exact h.elim
  | cons call calls ih =>
    cases replies with
    | nil => exact h.elim
    | cons reply replies =>
      obtain ⟨t, hexplains, hrest⟩ := h
      obtain ⟨hlength, hall⟩ := ih hrest
      refine ⟨congrArg (· + 1) hlength, List.forall_mem_cons.mpr ⟨?_, fun x hx => ?_⟩⟩
      · exact ⟨s, t, Server.growing.refl s, hexplains⟩
      · obtain ⟨u, u', htu, hx⟩ := hall x hx
        exact ⟨u, u', Server.growing.trans hexplains.leads htu, hx⟩

theorem Explained.readsForward {calls : List ServerCall} {replies : List (ServerReply json)}
    {s s' : Server} (h : Explained json b calls replies s s') :
    (calls.zip replies).Pairwise (ReadsForward json b) := by
  induction calls generalizing replies s with
  | nil => exact .nil
  | cons call calls ih =>
    cases replies with
    | nil => exact .nil
    | cons reply replies =>
      obtain ⟨t, hexplains, hrest⟩ := h
      refine List.pairwise_cons.mpr ⟨fun x hx => ?_, ih hrest⟩
      obtain ⟨u, u', htu, hx⟩ := hrest.forall.2 x hx
      exact hexplains.readsForward htu hx

end Reads

section Schedules

open Locking

variable {ι : Type} [DecidableEq ι] (crypto : CryptoService) (json : JsonLibrary) (b : Binary64)
  (order : ι → ℤ → IterOrder) (calls : ι → List ServerCall) (s : Server)

theorem exists_explained (hs : Server.growing.keeps s)
    (hcalls : ∀ i, ∀ call ∈ calls i, call.NoReset ∧ call.RollbackSucceeds)
    {trace : List (ι × Locking ι Mutex Access)} {c : LockedThreads ι (List (ServerReply json))}
    (hrun : Pool.Run (exec guards) (Enabled guards)
      (Locked.initially crypto json b order calls s) trace c)
    {i : ι} {replies : List (ServerReply json)} (hi : c.threads i = .ret replies) :
    ∃ s', Explained json b (calls i) replies s s' := by
  obtain ⟨trace', c', hrun', hrelated⟩ := exists_related crypto json b order calls s hrun
  have hstart : ∀ i, (ServerCall.programs crypto json b (calls i)).Assures Call.exec Server.growing
      Endpoint.receipts.protocol.after (fun _ s' replies => Explained json b (calls i) replies s s')
      [] s := fun i => programs_explain crypto json b (hcalls i) hs fun _ h => absurd h List.not_mem_nil
  obtain ⟨γ, -, -, -, hreturned⟩ := Pool.Run.assured (fun _ _ => True) hrun'
    (fun _ _ _ _ _ _ _ => trivial) hs trivial hstart
  obtain ⟨s', -, hexplained⟩ := hreturned i replies (hrelated.returned (implements_perform order) hi).1
  exact ⟨s', hexplained⟩

/-- As long as nobody resets and no `ROLLBACK` fails, every session reads its own writes, and what it has
read once it goes on reading. Only a listing that cannot be prepared ends in an exception. -/
theorem sessions_read_forward (hsp : s.db.savepoint = none) (hs : 0 ≤ s.sequence)
    (hcalls : ∀ i, ∀ call ∈ calls i, call.NoReset ∧ call.RollbackSucceeds)
    (trace : List (ι × Locking ι Mutex Access)) (c : LockedThreads ι (List (ServerReply json)))
    (hrun : Pool.Run (exec guards) (Enabled guards)
      (Locked.initially crypto json b order calls s) trace c)
    (i : ι) (replies : List (ServerReply json)) (hi : c.threads i = .ret replies) :
    (calls i).length = replies.length ∧ ((calls i).zip replies).Pairwise (ReadsForward json b) ∧
      (∀ state, .state state ∈ replies → ∀ d ∈ state.devices, d.packetCount ≤ d.packetIds.length) ∧
      ∀ reply, (.listTransactions (some .prepare), reply) ∈ (calls i).zip replies →
        reply = .transactions (.error (.runtimeError "Failed to prepare findTop20 statement")) := by
  obtain ⟨s', hexplained⟩ := exists_explained crypto json b order calls s ⟨hsp, hs⟩ hcalls hrun hi
  obtain ⟨hlength, hall⟩ := hexplained.forall
  refine ⟨hlength, hexplained.readsForward, fun state hstate d hd => ?_, fun reply hreply => ?_⟩
  · rw [← List.map_snd_zip hlength.ge] at hstate
    obtain ⟨x, hx, hreply⟩ := List.mem_map.mp hstate
    obtain ⟨t, t', -, hexplains⟩ := hall x hx
    exact (hexplains.devices state hreply d hd).counted
  · obtain ⟨t, t', -, hexplains⟩ := hall _ hreply
    obtain ⟨u, -, -, hlisting⟩ := hexplains.listing _ rfl
    exact hlisting

/-- A client looks at the devices, uploads a payment, looks again and asks for the listing, while another
one sends and gossips. -/
def uploadAndList : Bool → List ServerCall
  | true => [.meshState .listed, .operation (.ingestAt "p1" "c1" 0), .listTransactions none,
      .meshState .listed]
  | false => [.operation (.meshGossip .listed), .operation (.ingestAt "p2" "c2" 0)]

def uploadAndListStart : LockedThreads Bool (List (ServerReply JsonValue.library)) :=
  Locked.initially (.ofList [("c1", alicePaysBob), ("c2", bobPaysAlice)]) JsonValue.library
    Binary64.nearest (fun _ _ => .sorted) uploadAndList Server.initial

/-- The two take turns while both have something to do. -/
def uploadAndListSchedule : List Bool :=
  List.replicate 30 true ++ List.replicate 60 false ++ List.replicate 100 true ++ List.replicate 100 false

/-- Four answers, each of which is good for the later ones. -/
theorem sessions_read_forward_upload_and_list :
    ∃ (c : LockedThreads Bool (List (ServerReply JsonValue.library))) (replies : _),
      c.threads true = .ret replies ∧ 4 = replies.length ∧ ((uploadAndList true).zip replies).Pairwise
        (ReadsForward JsonValue.library Binary64.nearest) := by
  have hadmissible : Pool.Admissible (exec guards) (Enabled guards) uploadAndListSchedule
      uploadAndListStart := by decide +kernel
  obtain ⟨trace, hrun⟩ := Pool.Run.of_schedule hadmissible
  have hreturned : ((uploadAndListSchedule.foldl (Pool.advance (exec guards))
      uploadAndListStart).threads true).returned? = true := by decide +kernel
  obtain ⟨replies, hreplies⟩ := Program.returned?_eq_true.mp hreturned
  have hroll : ∀ packetId ciphertext now,
      (ServerCall.operation (.ingestAt packetId ciphertext now)).RollbackSucceeds := by
    rintro _ _ _ env rfl n
    rfl
  have hcalls : ∀ i, ∀ call ∈ uploadAndList i, call.NoReset ∧ call.RollbackSucceeds := by
    intro i
    cases i with
    | true =>
      simp only [uploadAndList, List.forall_mem_cons]
      exact ⟨⟨trivial, fun _ h => h.elim⟩, ⟨trivial, hroll _ _ _⟩, ⟨trivial, fun _ h => h.elim⟩,
        ⟨trivial, fun _ h => h.elim⟩, fun _ h => absurd h List.not_mem_nil⟩
    | false =>
      simp only [uploadAndList, List.forall_mem_cons]
      exact ⟨⟨trivial, fun _ h => h.elim⟩, ⟨trivial, hroll _ _ _⟩, fun _ h => absurd h List.not_mem_nil⟩
  obtain ⟨hlength, hpairs, -, -⟩ := sessions_read_forward _ _ _ _ _ Server.initial rfl le_rfl hcalls trace _
    hrun true replies hreplies
  exact ⟨_, replies, hreplies, hlength, hpairs⟩

end Schedules

end UpiMesh
