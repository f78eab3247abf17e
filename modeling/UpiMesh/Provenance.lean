import UpiMesh.ConcurrentDelivery

/-!
# Where the rows come from

If no client uploads packets of its own, then whatever the devices hold and the server has recorded goes
back to a `demoSend`: every row has the parties, the amount, the time and the hash of one of the payments
that the clients have asked for, the bridge as its uploader, and the number of hops that its copy has
made. All interleavings, faults, resets and evictions are allowed, and the code runs lock by lock.
-/

namespace UpiMesh

open Concurrent MeshSimulatorService

/-- The client does not bring a packet of its own. -/
def ServerCall.Internal : ServerCall → Prop
  | .operation (.ingest ..) => False
  | _ => True

section Origin

variable {ι : Type} (crypto : CryptoService) (calls : ι → List ServerCall)

/-- One of the clients has asked for the payment, and this is its ciphertext. -/
structure Sent (request : DemoSendRequest) (env : DemoSendEnv) (ciphertext : String) : Prop where
  requested : ∃ i, .operation (.demoSend request env) ∈ calls i
  encrypted : crypto.encrypt (ApiController.instruction crypto request env) env.random = .ok ciphertext

/-- A packet that has made so many hops from its start device. -/
structure Hopped (request : DemoSendRequest) (env : DemoSendEnv) (ciphertext : String) (hops : ℕ)
    (q : MeshPacket) : Prop where
  copied : q = { ApiController.packet request env ciphertext with
    ttl := ApiController.startTtl request - hops }
  allowed : hops = 0 ∨ (hops : ℤ) ≤ ApiController.startTtl request

def Copy (_ : String) (q : MeshPacket) : Prop :=
  ∃ request env ciphertext hops, Sent crypto calls request env ciphertext ∧
    Hopped request env ciphertext hops q

/-- The row records an upload of the payment after so many hops. -/
structure Records (request : DemoSendRequest) (env : DemoSendEnv) (ciphertext : String) (hops : ℕ)
    (row : Transaction) : Prop where
  packetHash : row.packetHash = crypto.hashCiphertext ciphertext
  senderVpa : row.senderVpa = cstr request.senderVpa
  receiverVpa : row.receiverVpa = cstr request.receiverVpa
  amount : row.amount = request.amount
  signedAt : row.signedAt = env.now
  bridgeNodeId : row.bridgeNodeId = "phone-bridge"
  hopCount : row.hopCount = Int.bmod (5 - (ApiController.startTtl request - hops)) (2 ^ 32)
  allowed : hops = 0 ∨ (hops : ℤ) ≤ ApiController.startTtl request

def FromSend (row : Transaction) : Prop :=
  ∃ request env ciphertext hops, Sent crypto calls request env ciphertext ∧
    Records crypto request env ciphertext hops row

/-- Devices and database hold only what has been sent. -/
structure Traced (s : Server) : Prop where
  held : s.HoldsOnly (Copy crypto calls)
  current : ∀ row ∈ s.log, FromSend crypto calls row
  saved : ∀ t, s.db.savepoint = some t → ∀ row ∈ t.transactions.rows, FromSend crypto calls row

/-- The calls of the clients. -/
def Performed (c : Call) : Prop :=
  ∃ i, ∃ call ∈ calls i, call.Internal ∧ call.Performs crypto (Copy crypto calls) c

variable {crypto calls}

theorem BridgeUpload.FromBridge.bridgeNodeId {up : BridgeUpload} (h : up.FromBridge) :
    up.bridgeNodeId = "phone-bridge" := by
  obtain ⟨d, hd, hinternet, hid⟩ := h
  have hbridge : ∀ d ∈ defaultDevices, d.hasInternet = true → d.deviceId = "phone-bridge" := by decide
  rw [← hid]
  exact hbridge d hd hinternet

theorem copy_copy (d : String) (q : MeshPacket) (h : Copy crypto calls d q) (httl : 0 < q.ttl)
    (dst : String) : Copy crypto calls dst q.copy := by
  obtain ⟨request, env, ciphertext, hops, hsent, hcopied, -⟩ := h
  refine ⟨request, env, ciphertext, hops + 1, hsent, ?_, Or.inr ?_⟩
  · subst hcopied
    simp only [MeshPacket.copy, Nat.cast_add, Nat.cast_one, sub_add_eq_sub_sub]
  · subst hcopied
    dsimp only at httl
    omega

/-- What an upload of a copy inserts records the payment. -/
theorem fromSend_of_uploads
    (hround : ∀ request env ciphertext, Sent crypto calls request env ciphertext →
      crypto.decrypt ciphertext = .ok (ApiController.instruction crypto request env))
    {up : BridgeUpload} (hup : Copy crypto calls up.bridgeNodeId up.packet) (hbridge : up.FromBridge)
    {env : IngestEnv} {a : Action}
    (ha : Uploads crypto up.packet.ciphertext up.bridgeNodeId (ApiController.hopCount up.packet) env a)
    {tx : Transaction} (htx : (Call.action a).inserts = some tx) (t : TransactionTable) :
    FromSend crypto calls (t.stored tx) := by
  obtain ⟨request, sendEnv, ciphertext, hops, hsent, hcopied, hallowed⟩ := hup
  cases ha with
  | claim => cases htx
  | @settles instruction _ hd _ ha =>
    have hciphertext : up.packet.ciphertext = ciphertext := by rw [hcopied]; rfl
    rw [hciphertext, hround _ _ _ hsent] at hd
    obtain rfl := Except.ok.inj hd
    have hrecords : ∀ settledAt status, Records crypto request sendEnv ciphertext hops
        (t.stored (SettleCall.transaction ⟨ApiController.instruction crypto request sendEnv,
          crypto.hashCiphertext up.packet.ciphertext, up.bridgeNodeId,
          ApiController.hopCount up.packet⟩ settledAt status)) := by
      intro settledAt status
      refine ⟨?_, rfl, rfl, rfl, rfl, ?_, ?_, hallowed⟩
      · change cstr (crypto.hashCiphertext up.packet.ciphertext) = _
        rw [CryptoService.cstr_hashCiphertext, hciphertext]
      · change cstr up.bridgeNodeId = _
        rw [hbridge.bridgeNodeId]
        decide
      · change ApiController.hopCount up.packet = _
        rw [hcopied]
        rfl
    cases ha with
    | findById => cases htx
    | settleBlock =>
      obtain rfl := Option.some.inj htx
      exact ⟨request, sendEnv, ciphertext, hops, hsent, hrecords _ _⟩
    | saveTransaction =>
      obtain rfl := Option.some.inj htx
      exact ⟨request, sendEnv, ciphertext, hops, hsent, hrecords _ _⟩

theorem Uploads.held_exec {ciphertext bridgeNodeId : String} {hopCount : ℤ} {env : IngestEnv}
    {a : Action} (ha : Uploads crypto ciphertext bridgeNodeId hopCount env a) (s : Server) :
    (a.exec s).2.held = s.held := by
  cases ha with
  | claim => rfl
  | settles _ _ ha => cases ha <;> rfl

/-- A call that a client makes keeps everything traced, and reads only copies from the devices. -/
theorem Traced.step (hround : ∀ request env ciphertext, Sent crypto calls request env ciphertext →
      crypto.decrypt ciphertext = .ok (ApiController.instruction crypto request env)) {s : Server}
    (h : Traced crypto calls s) {c : Call} (hc : Performed crypto calls c) :
    ServerCall.Finds (Copy crypto calls) c (c.exec s).1 ∧ Traced crypto calls (c.exec s).2 := by
  obtain ⟨i, call, hcall, hinternal, hperforms⟩ := hc
  have hnothing : c.inserts = none → (∀ row ∈ (c.exec s).2.log, FromSend crypto calls row) ∧
      ∀ t, (c.exec s).2.db.savepoint = some t → ∀ row ∈ t.transactions.rows,
        FromSend crypto calls row := by
    intro hnone
    refine (call_dbStep c s).forall_rows h.current h.saved fun tx htx => ?_
    rw [hnone] at htx
    cases htx
  have hsame : c.inserts = none → (c.exec s).2.held = s.held → Traced crypto calls (c.exec s).2 := by
    intro hnone hheld
    refine ⟨?_, (hnothing hnone).1, (hnothing hnone).2⟩
    rw [Server.HoldsOnly, hheld]
    exact h.held
  have hread : ∀ d order, ∀ q ∈ VirtualDevice.getHeldPackets order (s.held d), Copy crypto calls d q := by
    intro d order q hq
    obtain ⟨k, hk⟩ := VirtualDevice.mem_getHeldPackets.mp hq
    exact (h.held d k q hk).2
  cases hperforms with
  | operation ha =>
    cases ha with
    | ingest ha => exact hinternal.elim
    | evictExpired => exact ⟨trivial, hsame rfl rfl⟩
    | resetDatabase => exact ⟨trivial, hsame rfl rfl⟩
    | @inject request env ciphertext hc =>
      have hcopy : Copy crypto calls (ApiController.startDevice request)
          (ApiController.packet request env ciphertext) := by
        refine ⟨request, env, ciphertext, 0, ⟨⟨i, hcall⟩, hc⟩, ?_, Or.inl rfl⟩
        simp only [Nat.cast_zero, sub_zero]
        rfl
      exact ⟨trivial, h.held.hold hcopy, (hnothing rfl).1, (hnothing rfl).2⟩
    | gossip ha =>
      obtain ⟨hfinds, hheld⟩ := ha.exec h.held
      have hrows := hnothing (by cases ha <;> rfl)
      exact ⟨hfinds, hheld, hrows.1, hrows.2⟩
    | collect => exact ⟨hread _ _, hsame rfl rfl⟩
    | upload hF hbridge ha =>
      have hrows := (call_dbStep (.action _) s).forall_rows h.current h.saved fun tx htx =>
        fromSend_of_uploads hround hF hbridge ha htx s.db.current.transactions
      refine ⟨?_, ?_, hrows.1, hrows.2⟩
      · cases ha with
        | claim => exact trivial
        | settles _ _ ha => cases ha <;> exact trivial
      · rw [Server.HoldsOnly]
        simp only [Call.exec, ha.held_exec s]
        exact h.held
    | clearDevice => exact ⟨trivial, h.held.clear _, (hnothing rfl).1, (hnothing rfl).2⟩
    | clearSeen => exact ⟨trivial, hsame rfl rfl⟩
    | reset => exact ⟨trivial, hsame rfl rfl⟩
  | count => exact ⟨trivial, hsame rfl rfl⟩
  | look => exact ⟨hread _ _, hsame rfl rfl⟩
  | cacheSize => exact ⟨trivial, hsame rfl rfl⟩
  | accounts => exact ⟨trivial, hsame rfl rfl⟩
  | transactions => exact ⟨trivial, hsame rfl rfl⟩

end Origin

section Count

variable {crypto : CryptoService} {calls : List ServerCall}

/-- The hash of the packet that a request sends, if it sends one. -/
def sentHash (crypto : CryptoService) : ServerCall → Option String
  | .operation (.demoSend request env) =>
    match crypto.encrypt (ApiController.instruction crypto request env) env.random with
    | .ok ciphertext => some (crypto.hashCiphertext ciphertext)
    | .error _ => none
  | _ => none

def ServerCall.sends : ServerCall → Bool
  | .operation (.demoSend ..) => true
  | _ => false

theorem length_sentHashes_le : (calls.filterMap (sentHash crypto)).length ≤ calls.countP ServerCall.sends := by
  induction calls with
  | nil => exact le_rfl
  | cons call calls ih =>
    rw [List.filterMap_cons, List.countP_cons]
    cases hhash : sentHash crypto call with
    | none => exact ih.trans (Nat.le_add_right _ _)
    | some h =>
      have hsends : call.sends = true := by
        cases call with
        | operation op =>
          cases op with
          | demoSend request env => rfl
          | _ => cases hhash
        | _ => cases hhash
      rw [if_pos hsends, List.length_cons]
      exact Nat.add_le_add_right ih 1

theorem Sent.sentHash {ι : Type} {crypto : CryptoService} {calls : ι → List ServerCall}
    {request : DemoSendRequest} {env : DemoSendEnv} {ciphertext : String}
    (h : Sent crypto calls request env ciphertext) :
    ∃ i, crypto.hashCiphertext ciphertext ∈ (calls i).filterMap (UpiMesh.sentHash crypto) := by
  obtain ⟨⟨i, hi⟩, hc⟩ := h
  refine ⟨i, List.mem_filterMap.mpr ⟨_, hi, ?_⟩⟩
  rw [UpiMesh.sentHash, hc]

end Count

section Schedules

open Locking

variable {ι : Type} [DecidableEq ι] (crypto : CryptoService) (json : JsonLibrary) (b : Binary64)
  (order : ι → ℤ → IterOrder) (calls : ι → List ServerCall)

/-- Every row that the server ever shows records one of the payments that the clients have asked for, and
there are no more rows than such requests. -/
theorem rows_record_sends [Fintype ι]
    (hopens : ∀ i request env c, .operation (.demoSend request env) ∈ calls i →
      crypto.encrypt (ApiController.instruction crypto request env) env.random = .ok c →
      crypto.decrypt c = .ok (ApiController.instruction crypto request env))
    (hcalls : ∀ i, ∀ call ∈ calls i, call.Internal)
    (trace : List (ι × Locking ι Mutex Access)) (c : LockedThreads ι (List (ServerReply json)))
    (hrun : Pool.Run (exec guards) (Enabled guards)
      (Locked.initially crypto json b order calls Server.initial) trace c)
    (hfree : c.shared.owner .connection = none) :
    (∀ row ∈ (c.shared.data .connection).current.transactions.rows, FromSend crypto calls row) ∧
      (c.shared.data .connection).current.transactions.rows.length ≤
        ∑ i, (calls i).countP ServerCall.sends := by
  obtain ⟨trace', c', hrun', hrelated⟩ := exists_related crypto json b order calls _ hrun
  have hround : ∀ request env ciphertext, Sent crypto calls request env ciphertext →
      crypto.decrypt ciphertext = .ok (ApiController.instruction crypto request env) := by
    rintro request env ciphertext ⟨⟨i, hi⟩, hc⟩
    exact hopens i request env ciphertext hi hc
  have hpreserved : Pool.Preserved Call.exec Pool.AnyStep
      (ServerCall.protocol (Performed crypto calls) (Copy crypto calls))
      (fun s (_ : ι → Unit) => Traced crypto calls s) :=
    ⟨fun _ _ _ _ hinv hc _ => (hinv.step hround hc).1, fun _ _ _ _ hinv hc _ => (hinv.step hround hc).2⟩
  have hstart : Traced crypto calls Server.initial :=
    ⟨Server.holdsOnly_initial _, fun _ h => absurd h List.not_mem_nil, fun t ht => by cases ht⟩
  obtain ⟨_, htraced, -⟩ := hrun'.follow hpreserved (γ := fun _ => ()) hstart fun i =>
    ServerCall.programs_follow (copy_copy) (calls i) fun call hcall c hc =>
      ⟨i, call, hcall, hcalls i call hcall, hc⟩
  have hdata : c.shared.data .connection = c'.shared.db := (hrelated.free .connection hfree).symm
  rw [hdata]
  refine ⟨htraced.current, ?_⟩
  -- different rows have different hashes, and each of them has been sent
  have hsubset : c'.shared.log.map Transaction.packetHash ⊆
      Finset.univ.toList.flatMap fun i => (calls i).filterMap (sentHash crypto) := by
    intro h hh
    obtain ⟨row, hrow, rfl⟩ := List.mem_map.mp hh
    obtain ⟨request, env, ciphertext, hops, hsent, hrecords⟩ := htraced.current row hrow
    obtain ⟨i, hi⟩ := hsent.sentHash
    rw [hrecords.packetHash]
    exact List.mem_flatMap.mpr ⟨i, Finset.mem_toList.mpr (Finset.mem_univ i), hi⟩
  have hlength := (c'.shared.db.current.transactions.unique.subperm hsubset).length_le
  rw [List.length_map, List.length_flatMap] at hlength
  refine hlength.trans ?_
  rw [Finset.sum_map_toList]
  exact Finset.sum_le_sum fun i _ => length_sentHashes_le

/-- One of two clients sends a payment, and there is one row. -/
theorem rows_record_sends_two_flushes :
    ∃ c : LockedThreads Bool (List (ServerReply JsonValue.library)),
      (c.shared.data .connection).current.transactions.rows ≠ [] ∧
      (∀ row ∈ (c.shared.data .connection).current.transactions.rows,
        FromSend tenRupeesCrypto twoFlushes row) ∧
      (c.shared.data .connection).current.transactions.rows.length ≤ 1 := by
  obtain ⟨trace, hrun⟩ := exists_twoFlushes
  have hcalls : ∀ i, ∀ call ∈ twoFlushes i, call.Internal := by
    intro i
    cases i with
    | true => exact List.forall_mem_cons.mpr ⟨trivial, List.forall_mem_cons.mpr ⟨trivial,
        List.forall_mem_singleton.mpr trivial⟩⟩
    | false => exact List.forall_mem_cons.mpr ⟨trivial, List.forall_mem_cons.mpr ⟨trivial,
        List.forall_mem_singleton.mpr trivial⟩⟩
  have hfree : (twoFlushesSchedule.foldl (Pool.advance (exec guards)) twoFlushesStart).shared.owner
      .connection = none := by decide +kernel
  have hrows := rows_record_sends tenRupeesCrypto JsonValue.library Binary64.nearest
    (fun _ _ => .sorted) twoFlushes (fun _ _ _ _ _ h => CryptoService.decrypt_encrypt_ofList h) hcalls trace _
    hrun hfree
  exact ⟨_, by decide +kernel, hrows.1, hrows.2⟩

end Schedules

end UpiMesh
