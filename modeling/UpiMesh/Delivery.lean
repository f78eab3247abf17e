import UpiMesh.IngestionSpec
import UpiMesh.SettlementRows
import UpiMesh.Untouched

/-!
# End-to-end delivery

What happens to a packet after `demoSend` put it on its start device. No operation other than a
reset takes it off a device or changes its ciphertext, one gossip round brings it to the bridge, and
from then on the first flush that uploads it decides it: within a day of its signature it is fresh,
and its parties stay known. Everything before the `demoSend` may interleave in any way.
-/

namespace UpiMesh

open Concurrent Int64Arith BridgeIngestionService SettlementService

/-- The row decides the payment. -/
def Transaction.Decides (tx : Transaction) (i : PaymentInstruction) : Prop :=
  (tx.status = .SETTLED ∨ tx.status = .REJECTED) ∧ tx.senderVpa = i.senderVpa ∧
    tx.receiverVpa = i.receiverVpa ∧ tx.amount = i.amount ∧ tx.signedAt = i.signedAt

/-- The hash has a row. -/
def Database.Stored (db : Database) (packetHash : String) : Prop :=
  packetHash ∈ db.current.transactions.rows.map Transaction.packetHash

/-- An operation after the `demoSend`: no reset, no failing statement, other packet ids and
ciphertexts, and flushes on the day that follows the clock value `since`. -/
def Op.Follows (packetId ciphertext : String) (since : ℤ) : Op → Prop
  | .ingest packet _ _ env => packet.ciphertext ≠ ciphertext ∧ ∀ n, env.faults n = {}
  | .evictExpired _ => True
  | .demoSend _ env => env.packetId ≠ packetId
  | .meshGossip _ => True
  | .meshFlush env => ∀ m, (∀ n, (env.ingests m).faults n = {}) ∧
      since ≤ (env.ingests m).freshNow ∧ (env.ingests m).freshNow < since + 86400000
  | .resetDatabase _ => False
  | .meshReset .. => False

/-- What is known about a payment on its way: its parties exist, its rows decide it, and a claim has
left a row. -/
structure Tracked (crypto : CryptoService) (i : PaymentInstruction) (ciphertext : String)
    (s : Server) : Prop where
  closed : s.db.savepoint = none
  sender : i.senderVpa ∈ s.db.current.accounts.keys
  receiver : i.receiverVpa ∈ s.db.current.accounts.keys
  rows : ∀ tx ∈ s.db.current.transactions.rows,
    tx.packetHash = crypto.hashCiphertext ciphertext → tx.Decides i
  claimed : crypto.hashCiphertext ciphertext ∈ s.seen →
    s.db.Stored (crypto.hashCiphertext ciphertext)

theorem fresh_within_day {now signedAt : ℤ} (hle : signedAt ≤ now) (hlt : now < signedAt + 86400000) :
    Fresh now signedAt := by
  have hfits : Fits (now - signedAt) := by
    constructor <;> omega
  have hdiv := (tdiv_thousand (now - signedAt)).1 (by omega)
  unfold Fresh ageSeconds maxAgeSeconds
  rw [sub_of_fits hfits, hdiv]
  omega

/-- The name of a stored account is found by what is bound for it. -/
theorem find?_cstr_of_mem_keys {accounts : AccountTable} {vpa : String} (h : vpa ∈ accounts.keys) :
    cstr vpa = vpa ∧ ∃ account, accounts.find? (cstr vpa) = some account := by
  obtain ⟨account, hmem, rfl⟩ := Table.mem_keys.mp h
  rw [account.vpa_text]
  exact ⟨rfl, account, Table.find?_of_mem hmem⟩

/-- Neither the database nor the cache has changed. -/
theorem Tracked.congr {crypto : CryptoService} {i : PaymentInstruction} {ciphertext : String}
    {s s' : Server} (h : Tracked crypto i ciphertext s) (hdb : s'.db = s.db)
    (hseen : s'.seen = s.seen) : Tracked crypto i ciphertext s' := by
  refine ⟨hdb ▸ h.closed, hdb ▸ h.sender, hdb ▸ h.receiver, hdb ▸ h.rows, ?_⟩
  rw [hdb, hseen]
  exact h.claimed

theorem Tracked.payable {crypto : CryptoService} {i : PaymentInstruction} {ciphertext : String}
    {s : Server} (h : Tracked crypto i ciphertext s) (hpos : 0 < i.amount) :
    ∃ sender receiver, Payable s.db.current.accounts i sender receiver := by
  obtain ⟨-, sender, hs⟩ := find?_cstr_of_mem_keys h.sender
  obtain ⟨-, receiver, hr⟩ := find?_cstr_of_mem_keys h.receiver
  exact ⟨sender, receiver, hs, hr, hpos⟩

section Ingest

variable {crypto : CryptoService} {i : PaymentInstruction} {ciphertext : String} {s : Server}
  {packet : MeshPacket} {bridgeNodeId : String} {hopCount : ℤ} {env : IngestEnv}

/-- The rows after a call without faults: the old ones, and perhaps one that decides the
instruction of its ciphertext. -/
theorem rows_run_ingest (hsp : s.db.savepoint = none) (hf : ∀ n, env.faults n = {}) :
    ((ingest crypto packet bridgeNodeId hopCount env).run s).2.db.current.transactions.rows =
        s.db.current.transactions.rows ∨
      ∃ i row, crypto.decrypt packet.ciphertext = .ok i ∧
        row.packetHash = crypto.hashCiphertext packet.ciphertext ∧
        (cstr i.senderVpa = i.senderVpa → cstr i.receiverVpa = i.receiverVpa → row.Decides i) ∧
        ((ingest crypto packet bridgeNodeId hopCount env).run s).2.db.current.transactions.rows =
          s.db.current.transactions.rows ++ [row] := by
  by_cases hp : ∃ i, Passes crypto packet env s i
  · obtain ⟨i, hp⟩ := hp
    obtain ⟨r, db, hrun, hsettles⟩ := run_ingest_of_passes bridgeNodeId hopCount hsp hf hp
    rw [hrun]
    rcases hsettles.appends with hrows | ⟨status, hstatus, settledAt, hrows⟩
    · exact Or.inl hrows
    · refine Or.inr ⟨i, _, hp.opens, ?_, fun hs hr => ⟨hstatus, hs, hr, rfl, rfl⟩, hrows⟩
      exact CryptoService.cstr_hashCiphertext crypto packet.ciphertext
  · rw [run_ingest_of_not_passes (not_exists.mp hp)]
    exact Or.inl rfl

theorem stored_run_ingest (hsp : s.db.savepoint = none) (hf : ∀ n, env.faults n = {})
    {packetHash : String} (h : s.db.Stored packetHash) :
    ((ingest crypto packet bridgeNodeId hopCount env).run s).2.db.Stored packetHash := by
  unfold Database.Stored
  rcases rows_run_ingest hsp hf with hrows | ⟨_, _, _, _, _, hrows⟩
  · rw [hrows]
    exact h
  · rw [hrows, List.map_append]
    exact List.mem_append_left _ h

/-- A fresh upload of the packet leaves a row, whether or not it wins the claim. -/
theorem stored_of_fresh (h : Tracked crypto i ciphertext s) (hpos : 0 < i.amount)
    (hd : crypto.decrypt ciphertext = .ok i) (hf : ∀ n, env.faults n = {})
    (hc : packet.ciphertext = ciphertext) (hfresh : Fresh env.freshNow i.signedAt) :
    ((ingest crypto packet bridgeNodeId hopCount env).run s).2.db.Stored
      (crypto.hashCiphertext ciphertext) := by
  subst hc
  by_cases hseen : crypto.hashCiphertext packet.ciphertext ∈ s.seen
  · exact stored_run_ingest h.closed hf (h.claimed hseen)
  · obtain ⟨r, db, hrun, hsettles⟩ :=
      run_ingest_of_passes bridgeNodeId hopCount h.closed hf ⟨hseen, hd, hfresh⟩
    obtain ⟨sender, receiver, hpay⟩ := h.payable hpos
    have hmem := hsettles.mem_rows hpay
    rw [CryptoService.cstr_hashCiphertext] at hmem
    rw [hrun]
    exact hmem

theorem tracked_ingest (hinj : Function.Injective crypto.sha256) (h : Tracked crypto i ciphertext s)
    (hpos : 0 < i.amount) (hd : crypto.decrypt ciphertext = .ok i) (hf : ∀ n, env.faults n = {})
    (hfresh : packet.ciphertext = ciphertext → Fresh env.freshNow i.signedAt) :
    Tracked crypto i ciphertext
      ((ingest crypto packet bridgeNodeId hopCount env).run s).2 := by
  have hkeys := keys_run_ingest crypto packet bridgeNodeId hopCount env s
  refine ⟨savepoint_run_ingest h.closed hf, hkeys ▸ h.sender, hkeys ▸ h.receiver, ?_, ?_⟩
  · intro tx htx hhash
    rcases rows_run_ingest h.closed hf with hrows | ⟨j, row, hj, hrowhash, hrow, hrows⟩
    · exact h.rows tx (hrows ▸ htx) hhash
    · rw [hrows] at htx
      rcases List.mem_append.mp htx with htx | htx
      · exact h.rows tx htx hhash
      · obtain rfl := List.mem_singleton.mp htx
        have hc : packet.ciphertext = ciphertext :=
          (CryptoService.hashCiphertext_inj hinj).mp (hrowhash.symm.trans hhash)
        rw [hc, hd] at hj
        obtain rfl := Except.ok.inj hj
        exact hrow (find?_cstr_of_mem_keys h.sender).1 (find?_cstr_of_mem_keys h.receiver).1
  · rw [seen_run_ingest, IdempotencyService.mem_claim]
    rintro (hsame | hold)
    · have hc : packet.ciphertext = ciphertext := (CryptoService.hashCiphertext_inj hinj).mp hsame
      exact stored_of_fresh h hpos hd hf hc (hfresh hc)
    · exact stored_run_ingest h.closed hf (h.claimed hold)

end Ingest

section Run

variable (crypto : CryptoService) (i : PaymentInstruction) (packetId ciphertext : String)

/-- The packet is on its way: its payment is tracked, and whatever has its id has its ciphertext. -/
structure InTransit (s : Server) : Prop extends Tracked crypto i ciphertext s where
  carried : HeldAll (fun q => q.packetId = packetId → q.ciphertext = ciphertext) s

/-- Nothing is lost: the devices that hold the packet go on holding the same copy, and a row of the
payment stays. -/
structure Preserves (s s' : Server) : Prop where
  held : ∀ (d : String) (q : MeshPacket),
    (s.held d)[packetId]? = some q → (s'.held d)[packetId]? = some q
  stored : s.db.Stored (crypto.hashCiphertext ciphertext) →
    s'.db.Stored (crypto.hashCiphertext ciphertext)

variable {crypto i packetId ciphertext} {s s' s'' : Server}

theorem Preserves.refl (s : Server) : Preserves crypto packetId ciphertext s s :=
  ⟨fun _ _ h => h, fun h => h⟩

theorem Preserves.trans (h : Preserves crypto packetId ciphertext s s')
    (h' : Preserves crypto packetId ciphertext s' s'') : Preserves crypto packetId ciphertext s s'' :=
  ⟨fun d q hq => h'.held d q (h.held d q hq), fun hs => h'.stored (h.stored hs)⟩

/-- An `ingest` that keeps the payment on its way: if it uploads the packet, it does so in time. -/
def Op.UploadsInTime (i : PaymentInstruction) (ciphertext : String) : Op → Prop
  | .ingest packet _ _ env => (∀ n, env.faults n = {}) ∧
      (packet.ciphertext = ciphertext → Fresh env.freshNow i.signedAt)
  | _ => False

theorem inTransit_ingest (hinj : Function.Injective crypto.sha256) (hpos : 0 < i.amount)
    (hd : crypto.decrypt ciphertext = .ok i) {op : Op} (hop : op.UploadsInTime i ciphertext)
    (h : InTransit crypto i packetId ciphertext s) :
    InTransit crypto i packetId ciphertext (op.exec crypto s) ∧
      Preserves crypto packetId ciphertext s (op.exec crypto s) := by
  cases op with
  | ingest packet bridgeNodeId hopCount env =>
    obtain ⟨hf, hfresh⟩ := hop
    rw [Op.exec_ingest]
    have hheld := held_run_ingest crypto packet bridgeNodeId hopCount env s
    refine ⟨⟨tracked_ingest hinj h.toTracked hpos hd hf hfresh, ?_⟩, ?_, ?_⟩
    · rw [HeldAll, hheld]
      exact h.carried
    · rw [hheld]
      exact fun _ _ hq => hq
    · exact stored_run_ingest h.closed hf
  | _ => exact hop.elim

theorem inTransit_ingests (hinj : Function.Injective crypto.sha256) (hpos : 0 < i.amount)
    (hd : crypto.decrypt ciphertext = .ok i) {ops : List Op}
    (hops : ∀ op ∈ ops, op.UploadsInTime i ciphertext)
    (h : InTransit crypto i packetId ciphertext s) :
    InTransit crypto i packetId ciphertext (Op.execAll crypto ops s) ∧
      Preserves crypto packetId ciphertext s (Op.execAll crypto ops s) :=
  Sequential.after_related .refl (fun _ _ _ => .trans)
    (fun _ _ hop h => inTransit_ingest hinj hpos hd hop h) hops h

theorem upload_in_time {env : MeshFlushEnv} {bridgeUploads : List BridgeUpload}
    (h : (Op.meshFlush env).Follows packetId ciphertext i.signedAt) :
    ∀ op ∈ ApiController.ingestCalls env.ingests 0 bridgeUploads,
      op.UploadsInTime i ciphertext := by
  intro op hop
  obtain ⟨up, _, m, rfl⟩ := ApiController.mem_ingestCalls hop
  obtain ⟨hf, hle, hlt⟩ := h m
  exact ⟨hf, fun _ => fresh_within_day hle hlt⟩

theorem inTransit_step (hinj : Function.Injective crypto.sha256) (hpos : 0 < i.amount)
    (hd : crypto.decrypt ciphertext = .ok i) {op : Op}
    (hop : op.Follows packetId ciphertext i.signedAt)
    (h : InTransit crypto i packetId ciphertext s) :
    InTransit crypto i packetId ciphertext (op.exec crypto s) ∧
      Preserves crypto packetId ciphertext s (op.exec crypto s) := by
  cases op with
  | ingest packet bridgeNodeId hopCount env =>
    exact inTransit_ingest hinj hpos hd ⟨hop.2, fun hc => absurd hc hop.1⟩ h
  | evictExpired now =>
    have hclaimed : crypto.hashCiphertext ciphertext ∈ IdempotencyService.evictExpired now s.seen →
        s.db.Stored (crypto.hashCiphertext ciphertext) := fun hseen =>
      h.claimed (IdempotencyService.mem_of_mem_evictExpired hseen)
    exact ⟨⟨⟨h.closed, h.sender, h.receiver, h.rows, hclaimed⟩, h.carried⟩, fun _ _ hq => hq, id⟩
  | resetDatabase faults => exact hop.elim
  | demoSend request env =>
    rw [Op.exec_demoSend]
    cases crypto.encrypt (ApiController.instruction crypto request env) env.random with
    | error e => exact ⟨h, .refl s⟩
    | ok c =>
      cases MeshSimulatorService.getDevice (ApiController.startDevice request) with
      | none => exact ⟨h, .refl s⟩
      | some d =>
        have hother : (ApiController.packet request env c).packetId ≠ packetId := hop
        have hcarried := h.carried.hold (fun hid => absurd hid hother) d.deviceId
        refine ⟨⟨h.toTracked.congr rfl rfl, hcarried⟩, ?_, id⟩
        intro d' q hq
        rw [getElem?_hold, if_neg fun hk => hother hk.2]
        exact hq
  | meshGossip order =>
    obtain ⟨s', hs', hkept, hheld, -⟩ :=
      MeshSimulatorService.gossipOnce_spreads order (fun q hq => hq) h.carried
    rw [Op.exec_meshGossip, ← hs']
    refine ⟨⟨h.toTracked.congr hkept.db hkept.seen, hheld⟩, fun d q hq => ?_, ?_⟩
    · exact hkept.held d packetId q hq
    · rw [hkept.db]
      exact id
  | meshFlush env =>
    rw [Op.exec_meshFlush]
    exact inTransit_ingests hinj hpos hd (upload_in_time hop) h
  | meshReset order faults => exact hop.elim

theorem inTransit_run (hinj : Function.Injective crypto.sha256) (hpos : 0 < i.amount)
    (hd : crypto.decrypt ciphertext = .ok i) {ops : List Op}
    (hops : ∀ op ∈ ops, op.Follows packetId ciphertext i.signedAt)
    (h : InTransit crypto i packetId ciphertext s) :
    InTransit crypto i packetId ciphertext (Op.execAll crypto ops s) ∧
      Preserves crypto packetId ciphertext s (Op.execAll crypto ops s) :=
  Sequential.after_related .refl (fun _ _ _ => .trans)
    (fun _ _ hop h => inTransit_step hinj hpos hd hop h) hops h

/-- A flush decides what the bridge holds. -/
theorem stored_of_flush (hinj : Function.Injective crypto.sha256) (hpos : 0 < i.amount)
    (hd : crypto.decrypt ciphertext = .ok i) {env : MeshFlushEnv}
    (hop : (Op.meshFlush env).Follows packetId ciphertext i.signedAt)
    (h : InTransit crypto i packetId ciphertext s) {q : MeshPacket}
    (hq : (s.held "phone-bridge")[packetId]? = some q) :
    ((Op.meshFlush env).exec crypto s).db.Stored (crypto.hashCiphertext ciphertext) := by
  rw [Op.exec_meshFlush]
  have hup : (⟨"phone-bridge", q⟩ : BridgeUpload) ∈ ApiController.bridgeUploads env.order s := by
    refine ApiController.mem_bridgeUploads.mpr ⟨⟨"phone-bridge", true⟩, ?_, rfl, rfl, packetId, hq⟩
    simp [MeshSimulatorService.defaultDevices]
  have hc : q.ciphertext = ciphertext := by
    obtain ⟨hid, hc⟩ := h.carried "phone-bridge" packetId q hq
    exact hc hid
  have hall : ∀ op ∈ ApiController.ingestCalls env.ingests 0
      (ApiController.bridgeUploads env.order s), op.UploadsInTime i ciphertext := upload_in_time hop
  obtain ⟨m, hm⟩ : ∃ m, .ingest q "phone-bridge" (ApiController.hopCount q) (env.ingests m) ∈
      ApiController.ingestCalls env.ingests 0 (ApiController.bridgeUploads env.order s) :=
    ApiController.exists_mem_ingestCalls hup
  obtain ⟨front, rest, hsplit⟩ := List.append_of_mem hm
  rw [hsplit] at hall ⊢
  obtain ⟨hfront, hrest⟩ := List.forall_mem_append.mp hall
  obtain ⟨hthis, hrest⟩ := List.forall_mem_cons.mp hrest
  obtain ⟨hmid, -⟩ := inTransit_ingests hinj hpos hd hfront h
  obtain ⟨hafter, -⟩ := inTransit_ingest hinj hpos hd hthis hmid
  obtain ⟨-, hpres⟩ := inTransit_ingests hinj hpos hd hrest hafter
  rw [Op.execAll, Sequential.after_append, Sequential.after_cons]
  refine hpres.stored ?_
  rw [Op.exec_ingest]
  exact stored_of_fresh hmid.toTracked hpos hd hthis.1 hc (hthis.2 hc)

/-- A gossip round brings the packet from its start device to the bridge. -/
theorem reaches_bridge (crypto : CryptoService) (order : MeshOrder) {d : VirtualDevice}
    (hd : d ∈ MeshSimulatorService.defaultDevices) {P : MeshPacket → Prop}
    (hP : ∀ q, P q → P { q with ttl := q.ttl - 1 }) (hs : HeldAll P s) {q : MeshPacket}
    (hq : (s.held d.deviceId)[packetId]? = some q) (httl : 0 < q.ttl ∨ d.deviceId = "phone-bridge") :
    ∃ q', (((Op.meshGossip order).exec crypto s).held "phone-bridge")[packetId]? = some q' := by
  obtain ⟨s', hs', hkept, -, hreached⟩ := MeshSimulatorService.gossipOnce_spreads order hP hs
  rw [Op.exec_meshGossip, ← hs']
  rcases httl with httl | hbridge
  · have hbridge : (⟨"phone-bridge", true⟩ : VirtualDevice) ∈ MeshSimulatorService.defaultDevices := by
      simp [MeshSimulatorService.defaultDevices]
    have hmem := hreached d hd packetId q hq httl _ hbridge
    exact mem_iff_exists_getElem?.mp hmem
  · exact ⟨q, hkept.held "phone-bridge" packetId q (hbridge ▸ hq)⟩

/-- What `demoSend` starts in a state that the packet has not reached. -/
theorem inTransit_demoSend {request : DemoSendRequest} {env : DemoSendEnv} {d : VirtualDevice}
    (henc : crypto.encrypt (ApiController.instruction crypto request env) env.random = .ok ciphertext)
    (hdev : MeshSimulatorService.getDevice (ApiController.startDevice request) = some d)
    (hnew : Untouched crypto env.packetId ciphertext s)
    (hsender : request.senderVpa ∈ s.db.current.accounts.keys)
    (hreceiver : request.receiverVpa ∈ s.db.current.accounts.keys) :
    InTransit crypto (ApiController.instruction crypto request env) env.packetId ciphertext
        ((Op.demoSend request env).exec crypto s) ∧
      (((Op.demoSend request env).exec crypto s).held d.deviceId)[env.packetId]? =
        some (ApiController.packet request env ciphertext) := by
  have hexec : (Op.demoSend request env).exec crypto s = s.updateDevice d.deviceId
      (VirtualDevice.hold (ApiController.packet request env ciphertext)) := by
    rw [Op.exec_demoSend, henc, hdev]
  rw [hexec]
  refine ⟨⟨⟨hnew.closed, hsender, hreceiver, fun tx htx hhash => ?_, fun hseen => ?_⟩, ?_⟩, ?_⟩
  · exact absurd (List.mem_map.mpr ⟨tx, htx, hhash⟩) hnew.unsettled
  · exact absurd hseen hnew.unclaimed
  · have hothers : HeldAll (fun q => q.packetId = env.packetId → q.ciphertext = ciphertext) s :=
      hnew.held.mono fun q hq hid => absurd hid hq.1
    exact hothers.hold (fun _ => rfl) d.deviceId
  · rw [getElem?_hold, if_pos ⟨rfl, rfl⟩]

end Run

/-- One row of a table has a given hash. -/
theorem TransactionTable.filter_packetHash {t : TransactionTable} {tx : Transaction}
    (h : tx ∈ t.rows) : t.rows.filter (·.packetHash = tx.packetHash) = [tx] := by
  have hsame : ∀ x ∈ t.rows,
      decide (x.packetHash = tx.packetHash) = decide (x = tx) := by
    intro x hx
    rw [decide_eq_decide]
    exact ⟨List.inj_on_of_nodup_map t.unique hx h, fun hxt => hxt ▸ rfl⟩
  have hcount := List.count_eq_one_of_mem (List.Nodup.of_map _ t.unique) h
  rw [List.filter_congr hsame, List.filter_eq, hcount, List.replicate_one]

/-- After a `demoSend` in any state reachable by operations that avoid its packet, and a later run
with a gossip round and a flush at its end, exactly one row has the hash of its ciphertext, and that
row decides the payment. -/
theorem delivered {ι : Type} [DecidableEq ι] (crypto : CryptoService)
    (hinj : Function.Injective crypto.sha256)
    (hround : ∀ i random c, 0 < i.amount → i.amount ≤ 2 ^ 50 → crypto.encrypt i random = .ok c →
      crypto.decrypt c = .ok i)
    (request : DemoSendRequest) (env : DemoSendEnv) (ciphertext : String)
    (henc : crypto.encrypt (ApiController.instruction crypto request env) env.random = .ok ciphertext)
    (hpos : 0 < request.amount) (hmax : request.amount ≤ 2 ^ 50) (d : VirtualDevice)
    (hdev : MeshSimulatorService.getDevice (ApiController.startDevice request) = some d)
    (httl : 1 ≤ ApiController.startTtl request ∨
      ApiController.startDevice request = "phone-bridge")
    (earlier : ι → Op) (hearlier : ∀ i, (earlier i).Avoids crypto env.packetId ciphertext)
    (trace : List (ι × Action)) (c : Pool ι Action Action.Response Reply Server)
    (hrun : Pool.Run Action.exec Pool.AnyStep
      ⟨Server.initial, fun i => (earlier i).program crypto⟩ trace c)
    (hsender : request.senderVpa ∈ c.shared.db.current.accounts.keys)
    (hreceiver : request.receiverVpa ∈ c.shared.db.current.accounts.keys)
    (later : List Op) (hlater : ∀ op ∈ later, op.Follows env.packetId ciphertext env.now)
    (order : MeshOrder) (hgossip : .meshGossip order ∈ later) (flush : MeshFlushEnv)
    (hflush : (Op.meshFlush flush).Follows env.packetId ciphertext env.now) :
    ∃ row, (Op.execAll crypto (.demoSend request env :: later ++ [.meshFlush flush])
        c.shared).db.current.transactions.rows.filter
          (·.packetHash = crypto.hashCiphertext ciphertext) = [row] ∧
      row.Decides (ApiController.instruction crypto request env) := by
  have hnew := untouched_of_avoids hinj hearlier hrun
  have hopens := hround _ _ _ hpos hmax henc
  obtain ⟨hstart, hpacket⟩ := inTransit_demoSend henc hdev hnew hsender hreceiver
  have hdevice : d.deviceId = ApiController.startDevice request := by
    simpa using List.find?_some hdev
  have hlisted : d ∈ MeshSimulatorService.defaultDevices := List.mem_of_find?_eq_some hdev
  obtain ⟨before, after, rfl⟩ := List.append_of_mem hgossip
  obtain ⟨hbefore, hrest⟩ := List.forall_mem_append.mp hlater
  obtain ⟨hgossip', hafter⟩ := List.forall_mem_cons.mp hrest
  -- up to the gossip round the start device keeps the packet as it was sent
  obtain ⟨hmid, hpres⟩ := inTransit_run hinj hpos hopens hbefore hstart
  have hheld := hpres.held _ _ hpacket
  obtain ⟨q, hq⟩ := reaches_bridge crypto order hlisted (fun _ h => h) hmid.carried hheld
    (httl.imp (fun h => h) fun h => hdevice.trans h)
  -- after it the bridge keeps some copy, which the last flush uploads
  obtain ⟨hgossiped, -⟩ := inTransit_step hinj hpos hopens hgossip' hmid
  obtain ⟨hend, hpres'⟩ := inTransit_run hinj hpos hopens hafter hgossiped
  have hstored := stored_of_flush hinj hpos hopens hflush hend (hpres'.held _ _ hq)
  obtain ⟨hflushed, -⟩ := inTransit_step hinj hpos hopens hflush hend
  obtain ⟨row, hrow, hhash⟩ := List.mem_map.mp hstored
  have hexec : Op.execAll crypto (.demoSend request env :: (before ++ .meshGossip order :: after) ++
      [.meshFlush flush]) c.shared = (Op.meshFlush flush).exec crypto (Op.execAll crypto after
        ((Op.meshGossip order).exec crypto (Op.execAll crypto before
          ((Op.demoSend request env).exec crypto c.shared)))) := by
    simp only [Op.execAll, List.cons_append, Sequential.after_cons, Sequential.after_append,
      Sequential.after_nil]
  rw [hexec]
  refine ⟨row, ?_, hflushed.rows row hrow hhash⟩
  rw [← hhash]
  exact TransactionTable.filter_packetHash hrow

/-- Alice sends 1000 paise to Bob from her own phone. -/
def tenRupees : DemoSendRequest where
  senderVpa := "alice@demo"
  receiverVpa := "bob@demo"
  amount := 1000
  pin := "1234"
  amount_fits := alicePaysBob.amount_fits

def tenRupeesEnv : DemoSendEnv where
  nonce := "n"
  packetId := "p1"
  now := 0
  random := ⟨[], [], []⟩
  now_fits := alicePaysBob.signedAt_fits

/-- A service that encrypts this payment. Its digest of the PIN is the PIN. -/
def tenRupeesCrypto : CryptoService := .ofList [("c1", { alicePaysBob with pinHash := "31323334" })]

theorem delivered_ten_rupees :
    ∃ row, (Op.execAll tenRupeesCrypto (.demoSend tenRupees tenRupeesEnv :: [.meshGossip .listed] ++
        [.meshFlush ⟨.listed, fun _ => { settledAt := fun _ => 1, claimNow := 1, freshNow := 1 }⟩])
        Server.initial).db.current.transactions.rows.filter
          (·.packetHash = tenRupeesCrypto.hashCiphertext "c1") = [row] ∧
      row.Decides (ApiController.instruction tenRupeesCrypto tenRupees tenRupeesEnv) :=
  delivered tenRupeesCrypto (CryptoService.sha256_ofList_injective _)
    (fun _ _ _ _ _ h => CryptoService.decrypt_encrypt_ofList h) tenRupees tenRupeesEnv "c1" rfl
    (by decide) (by decide) ⟨"phone-alice", false⟩ rfl (Or.inl (by decide))
    (fun _ : Unit => .ingestAt "p0" "c0" 0) (fun _ => ⟨by decide, fun _ => rfl⟩) []
    ⟨Server.initial, _⟩ (.nil _) (by decide) (by decide) [.meshGossip .listed]
    (by simp [Op.Follows]) .listed (by simp) _
    (fun _ => ⟨fun _ => rfl, (by decide : (0 : ℤ) ≤ 1), (by decide : (1 : ℤ) < 0 + 86400000)⟩)

end UpiMesh
