import UpiMesh.CallEffects
import UpiMesh.MeshActions
import UpiMesh.SettlementActions

/-!
# The actions of every request

Whatever other threads do in between, a request performs only the actions listed here. The list of a
flush speaks of packets that have been read from a device, so it is relative to a property `F` that all
packets on the devices have.
-/

namespace UpiMesh

open Concurrent BridgeIngestionService

/-- The actions of one upload of a ciphertext. -/
inductive Uploads (crypto : CryptoService) (ciphertext bridgeNodeId : String) (hopCount : ℤ)
    (env : IngestEnv) : Action → Prop
  | claim : Uploads crypto ciphertext bridgeNodeId hopCount env
      (.claim (crypto.hashCiphertext ciphertext) env.claimNow)
  | settles {instruction : PaymentInstruction} {a : Action}
      (hd : crypto.decrypt ciphertext = .ok instruction)
      (hfresh : Fresh env.freshNow instruction.signedAt)
      (ha : SettlementService.Performs (fun _ => True)
        ⟨instruction, crypto.hashCiphertext ciphertext, bridgeNodeId, hopCount⟩ env.toSettleEnv a) :
      Uploads crypto ciphertext bridgeNodeId hopCount env a

/-- The upload comes from a device with a connection to the internet. -/
def BridgeUpload.FromBridge (up : BridgeUpload) : Prop :=
  ∃ d ∈ MeshSimulatorService.defaultDevices, d.hasInternet = true ∧ d.deviceId = up.bridgeNodeId

inductive Op.Performs (crypto : CryptoService) (F : String → MeshPacket → Prop) : Op → Action → Prop
  | ingest {packet : MeshPacket} {bridgeNodeId : String} {hopCount : ℤ} {env : IngestEnv} {a : Action}
      (ha : Uploads crypto packet.ciphertext bridgeNodeId hopCount env a) :
      Performs crypto F (.ingest packet bridgeNodeId hopCount env) a
  | evictExpired {now : ℤ} : Performs crypto F (.evictExpired now) (.evictExpired now)
  | resetDatabase {faults : ResetFaults} : Performs crypto F (.resetDatabase faults) (.resetDatabase faults)
  | inject {request : DemoSendRequest} {env : DemoSendEnv} {ciphertext : String}
      (hc : crypto.encrypt (ApiController.instruction crypto request env) env.random = .ok ciphertext) :
      Performs crypto F (.demoSend request env)
        (.hold (ApiController.startDevice request) (ApiController.packet request env ciphertext))
  | gossip {order : MeshOrder} {a : Action} (ha : FilesOnly F a) : Performs crypto F (.meshGossip order) a
  | collect {env : MeshFlushEnv} {d : String} {order : IterOrder} :
      Performs crypto F (.meshFlush env) (.getHeldPackets d order)
  | upload {env : MeshFlushEnv} {up : BridgeUpload} {n : ℕ} {a : Action}
      (hF : F up.bridgeNodeId up.packet) (hbridge : up.FromBridge)
      (ha : Uploads crypto up.packet.ciphertext up.bridgeNodeId (ApiController.hopCount up.packet)
        (env.ingests n) a) :
      Performs crypto F (.meshFlush env) a
  | clearDevice {order : MeshOrder} {faults : ResetFaults} {d : String} :
      Performs crypto F (.meshReset order faults) (.clearDevice d)
  | clearSeen {order : MeshOrder} {faults : ResetFaults} :
      Performs crypto F (.meshReset order faults) .clearSeen
  | reset {order : MeshOrder} {faults : ResetFaults} :
      Performs crypto F (.meshReset order faults) (.resetDatabase faults)

/-- What an operation may do, and what it relies on when it reads a device. -/
def Op.protocol (crypto : CryptoService) (F : String → MeshPacket → Prop) (op : Op) :
    Protocol Action Action.Response Unit := .stateless (op.Performs crypto F) (FindsOnly F)

section Follows

variable {crypto : CryptoService} {F : String → MeshPacket → Prop} {g : Unit}

theorem FilesOnly.offDatabase {a : Action} (ha : FilesOnly F a) : a.OffDatabase := by
  cases ha <;> exact trivial

theorem findsOnly_true (a : Action) (r : a.Response) : FindsOnly (fun _ _ => True) a r := by
  cases a with
  | getHeldPackets d order => exact fun _ _ => trivial
  | _ => exact trivial

theorem settle_uploads {ciphertext bridgeNodeId : String} {hopCount : ℤ} {env : IngestEnv}
    {instruction : PaymentInstruction} (hd : crypto.decrypt ciphertext = .ok instruction)
    (hfresh : Fresh env.freshNow instruction.signedAt) :
    (SettlementService.settle
      ⟨instruction, crypto.hashCiphertext ciphertext, bridgeNodeId, hopCount⟩ env.toSettleEnv).Uses
        (Uploads crypto ciphertext bridgeNodeId hopCount env) :=
  SettlementService.settle_uses fun _ ha => .settles hd hfresh ha

theorem ingest_uploads (packet : MeshPacket) (bridgeNodeId : String) (hopCount : ℤ) (env : IngestEnv) :
    (ingest crypto packet bridgeNodeId hopCount env).Uses
      (Uploads crypto packet.ciphertext bridgeNodeId hopCount env) := by
  refine ⟨.claim, fun won => ?_⟩
  cases won with
  | false => exact trivial
  | true =>
    change (afterClaim crypto packet bridgeNodeId hopCount env _).Uses _
    unfold afterClaim
    cases hd : crypto.decrypt packet.ciphertext with
    | error e => exact trivial
    | ok instruction =>
      dsimp only
      split_ifs with hstale hfuture
      · exact trivial
      · exact trivial
      · have hfresh : Fresh env.freshNow instruction.signedAt := ⟨not_lt.mp hstale, not_lt.mp hfuture⟩
        exact (settle_uploads hd hfresh).bind fun _ => trivial

theorem ingestUploads_follows {env : MeshFlushEnv} {n : ℕ} {uploads : List BridgeUpload}
    (h : ∀ up ∈ uploads, F up.bridgeNodeId up.packet ∧ up.FromBridge) :
    (ApiController.ingestUploads crypto env.ingests n uploads).Follows
      ((Op.meshFlush env).protocol crypto F) (fun _ _ => True) g := by
  induction uploads generalizing n g with
  | nil => exact trivial
  | cons up uploads ih =>
    obtain ⟨hup, hrest⟩ := List.forall_mem_cons.mp h
    have hingest : (ingest crypto up.packet up.bridgeNodeId (ApiController.hopCount up.packet)
        (env.ingests n)).Uses (Uploads crypto up.packet.ciphertext up.bridgeNodeId
          (ApiController.hopCount up.packet) (env.ingests n)) :=
      ingest_uploads up.packet up.bridgeNodeId (ApiController.hopCount up.packet) (env.ingests n)
    refine (hingest.follows fun a ha => .upload hup.1 hup.2 ha).bind fun _ _ _ => ?_
    exact (ih hrest).bind fun _ _ _ => trivial

open MeshSimulatorService

theorem collect_follows {env : MeshFlushEnv} (packets : String → IterOrder)
    {devices : List VirtualDevice} (hdevices : ∀ d ∈ devices, d ∈ defaultDevices) :
    (collectFrom packets devices).Follows ((Op.meshFlush env).protocol crypto F)
      (fun _ uploads => ∀ up ∈ uploads, F up.bridgeNodeId up.packet ∧ up.FromBridge) g := by
  induction devices generalizing g with
  | nil => exact fun _ h => absurd h List.not_mem_nil
  | cons d devices ih =>
    obtain ⟨hd, hrest⟩ := List.forall_mem_cons.mp hdevices
    unfold collectFrom
    split_ifs with hinternet
    · refine ⟨.collect, fun held hheld => (ih hrest).bind fun _ rest hrest up hup => ?_⟩
      rcases List.mem_append.mp hup with hup | hup
      · obtain ⟨q, hq, rfl⟩ := List.mem_map.mp hup
        exact ⟨hheld q hq, d, hd, hinternet, rfl⟩
      · exact hrest up hup
    · exact ih hrest

theorem gossip_follows (hF : ∀ src q, F src q → 0 < q.ttl → ∀ dst, F dst q.copy) (order : MeshOrder) :
    (ApiController.meshGossip order).Follows ((Op.meshGossip order).protocol crypto F)
      (fun _ _ => True) g :=
  (gossipAmong_follows hF order.packets (getDevices order)).weaken (fun _ _ ha => .gossip ha)
    (fun _ _ hr => hr) fun _ _ _ => rfl

theorem demoSend_uses (request : DemoSendRequest) (env : DemoSendEnv) :
    (ApiController.demoSend crypto request env).Uses ((Op.demoSend request env).Performs crypto F) := by
  unfold ApiController.demoSend
  cases hc : crypto.encrypt (ApiController.instruction crypto request env) env.random with
  | error e => exact trivial
  | ok ciphertext =>
    dsimp only [inject, getDevice]
    cases hfind : defaultDevices.find? (·.deviceId = ApiController.startDevice request) with
    | none => exact trivial
    | some d =>
      have hid : d.deviceId = ApiController.startDevice request := by
        simpa using List.find?_some hfind
      refine ⟨?_, fun _ => trivial⟩
      rw [hid]
      exact .inject hc

theorem meshReset_uses (order : MeshOrder) (faults : ResetFaults) :
    (ApiController.meshReset order faults).Uses ((Op.meshReset order faults).Performs crypto F) := by
  have hclear : ∀ devices,
      (clearAll devices).Uses ((Op.meshReset order faults).Performs crypto F) := by
    intro devices
    induction devices with
    | nil => exact trivial
    | cons d devices ih => exact ⟨.clearDevice, fun _ => ih⟩
  exact (hclear _).bind fun _ => ⟨.clearSeen, fun _ => ⟨.reset, fun _ => trivial⟩⟩

/-- Every operation does what it may do, when copies keep the property. -/
theorem Op.follows (hF : ∀ src q, F src q → 0 < q.ttl → ∀ dst, F dst q.copy) (op : Op) :
    (op.program crypto).Follows (op.protocol crypto F) (fun _ _ => True) g := by
  cases op with
  | ingest packet bridgeNodeId hopCount env =>
    have hingest : (BridgeIngestionService.ingest crypto packet bridgeNodeId hopCount env).Uses
        (Uploads crypto packet.ciphertext bridgeNodeId hopCount env) :=
      ingest_uploads packet bridgeNodeId hopCount env
    exact (hingest.follows fun a ha => .ingest ha).bind fun _ _ _ => trivial
  | evictExpired now => exact ⟨.evictExpired, fun _ _ => trivial⟩
  | resetDatabase faults => exact ⟨.resetDatabase, fun _ _ => trivial⟩
  | demoSend request env =>
    exact ((demoSend_uses request env).follows fun _ ha => ha).bind fun _ _ _ => trivial
  | meshGossip order => exact (gossip_follows hF order).bind fun _ _ _ => trivial
  | meshFlush env =>
    have hflush : (ApiController.meshFlush crypto env).Follows ((Op.meshFlush env).protocol crypto F)
        (fun _ _ => True) g :=
      (collect_follows env.order.packets fun d hd =>
        (env.order.devices_perm _).mem_iff.mp hd).bind fun _ uploads huploads =>
        (ingestUploads_follows huploads).bind fun _ _ _ => trivial
    exact hflush.bind fun _ _ _ => trivial
  | meshReset order faults =>
    exact ((meshReset_uses order faults).follows fun _ ha => ha).bind fun _ _ _ => trivial

/-- The actions of an operation, whatever the devices hold. -/
theorem Op.uses (op : Op) : (op.program crypto).Uses (op.Performs crypto fun _ _ => True) :=
  (Op.follows (g := ()) (fun _ _ _ _ _ => trivial) op).uses findsOnly_true fun _ _ ha => ha

end Follows

namespace ServerCall

/-- The calls of a request. -/
inductive Performs (crypto : CryptoService) (F : String → MeshPacket → Prop) : ServerCall → Call → Prop
  | operation {op : Op} {a : Action} (ha : op.Performs crypto F a) :
      Performs crypto F (.operation op) (.action a)
  | count {order : MeshOrder} {d : String} :
      Performs crypto F (.meshState order) (.action (.packetCount d))
  | look {order : MeshOrder} {d : String} {packets : IterOrder} :
      Performs crypto F (.meshState order) (.action (.getHeldPackets d packets))
  | cacheSize {order : MeshOrder} : Performs crypto F (.meshState order) (.query .cacheSize)
  | accounts {fault : Option QueryFault} :
      Performs crypto F (.listAccounts fault) (.query (.findAll fault))
  | transactions {fault : Option QueryFault} :
      Performs crypto F (.listTransactions fault) (.query (.findTop20ByOrderByIdDesc fault))

/-- A device that is read holds packets with the property. -/
def Finds (F : String → MeshPacket → Prop) : (c : Call) → c.Response → Prop
  | .action a, r => FindsOnly F a r
  | .query _, _ => True

def protocol (T : Call → Prop) (F : String → MeshPacket → Prop) : Protocol Call Call.Response Unit :=
  .stateless T (Finds F)

variable {crypto : CryptoService} {json : JsonLibrary} {b : Binary64} {F : String → MeshPacket → Prop}
  {T : Call → Prop} {g : Unit}

theorem serve_follows {α : Type} {p : Service α} {op : Op} {Q : Unit → α → Prop}
    (h : p.Follows (op.protocol crypto F) Q g) (hT : ∀ a, op.Performs crypto F a → T (.action a)) :
    p.serve.Follows (protocol T F) Q g := by
  induction p generalizing g with
  | ret x => exact h
  | act a next ih => exact ⟨hT a h.1, fun r hr => ih r (h.2 r hr)⟩

theorem deviceStates_follows {order : MeshOrder} (hT : ∀ c, (meshState order).Performs crypto F c → T c)
    (packets : String → IterOrder) (devices : List VirtualDevice) :
    (ApiController.deviceStates packets devices).Follows (protocol T F) (fun _ _ => True) g := by
  induction devices generalizing g with
  | nil => exact trivial
  | cons d devices ih =>
    exact ⟨hT _ .count, fun _ _ => ⟨hT _ .look, fun _ _ => ih.bind fun _ _ _ => trivial⟩⟩

theorem program_follows (hF : ∀ src q, F src q → 0 < q.ttl → ∀ dst, F dst q.copy) (call : ServerCall)
    (hT : ∀ c, call.Performs crypto F c → T c) :
    (call.program crypto json b).Follows (protocol T F) (fun _ _ => True) g := by
  cases call with
  | operation op =>
    exact (serve_follows (Op.follows hF op) fun a ha => hT _ (.operation ha)).bind fun _ _ _ => trivial
  | meshState order =>
    have hstate : (ApiController.meshState order).Follows (protocol T F) (fun _ _ => True) g :=
      (deviceStates_follows hT order.packets _).bind fun _ _ _ =>
        ⟨hT _ .cacheSize, fun _ _ => trivial⟩
    exact hstate.bind fun _ _ _ => trivial
  | listAccounts fault => exact ⟨hT _ .accounts, fun _ _ => trivial⟩
  | listTransactions fault =>
    refine ⟨hT _ .transactions, fun rows _ => ?_⟩
    cases rows with
    | error e => exact trivial
    | ok txs => exact trivial

/-- A thread performs the calls of its requests. -/
theorem programs_follow (hF : ∀ src q, F src q → 0 < q.ttl → ∀ dst, F dst q.copy)
    (calls : List ServerCall) (hT : ∀ call ∈ calls, ∀ c, call.Performs crypto F c → T c) :
    (programs crypto json b calls).Follows (protocol T F) (fun _ _ => True) g := by
  induction calls generalizing g with
  | nil => exact trivial
  | cons call calls ih =>
    obtain ⟨hcall, hcalls⟩ := List.forall_mem_cons.mp hT
    refine (program_follows hF call hcall).bind fun _ _ _ => ?_
    exact (ih hcalls).bind fun _ _ _ => trivial

/-- The same, whatever the devices hold. -/
theorem programs_use (calls : List ServerCall)
    (hT : ∀ call ∈ calls, ∀ c, call.Performs crypto (fun _ _ => True) c → T c) :
    (programs crypto json b calls).Uses T := by
  have hfollows : (programs crypto json b calls).Follows (protocol T fun _ _ => True)
      (fun _ _ => True) () := programs_follow (fun _ _ _ _ _ => trivial) calls hT
  refine hfollows.uses (fun c r => ?_) fun _ _ hc => hc
  cases c with
  | action a => exact findsOnly_true a r
  | query q => exact trivial

/-- The request resets nothing. -/
def NoReset : ServerCall → Prop
  | .operation (.resetDatabase _) => False
  | .operation (.meshReset ..) => False
  | _ => True

/-- The environments of the settlements of a request. -/
def SettlesIn : ServerCall → SettleEnv → Prop
  | .operation (.ingest _ _ _ env), settleEnv => settleEnv = env.toSettleEnv
  | .operation (.meshFlush env), settleEnv => ∃ m, settleEnv = (env.ingests m).toSettleEnv
  | _, _ => False

/-- No `ROLLBACK` of the request fails. -/
def RollbackSucceeds (call : ServerCall) : Prop :=
  ∀ env, call.SettlesIn env → ∀ n, (env.faults n).rollback = none

/-- The calls of a request, as far as they concern the database. -/
inductive OnDatabase (call : ServerCall) : Call → Prop
  | elsewhere {a : Action} (ha : a.OffDatabase) : OnDatabase call (.action a)
  | query {q : Query} : OnDatabase call (.query q)
  | reset {faults : ResetFaults} (h : ¬ call.NoReset) :
      OnDatabase call (.action (.resetDatabase faults))
  | settles {settle : SettleCall} {env : SettleEnv} {a : Action} (henv : call.SettlesIn env)
      (ha : SettlementService.Performs (fun _ => True) settle env a) : OnDatabase call (.action a)

theorem Performs.onDatabase {call : ServerCall} {c : Call} (h : call.Performs crypto F c) :
    call.OnDatabase c := by
  cases h with
  | operation ha =>
    cases ha with
    | ingest ha =>
      cases ha with
      | claim => exact .elsewhere trivial
      | settles _ _ ha => exact .settles rfl ha
    | upload _ _ ha =>
      cases ha with
      | claim => exact .elsewhere trivial
      | settles _ _ ha => exact .settles ⟨_, rfl⟩ ha
    | gossip ha => exact .elsewhere ha.offDatabase
    | resetDatabase => exact .reset id
    | reset => exact .reset id
    | _ => exact .elsewhere trivial
  | count => exact .elsewhere trivial
  | look => exact .elsewhere trivial
  | _ => exact .query

theorem Performs.not_isReset {call : ServerCall} {c : Call} (h : call.Performs crypto F c)
    (hcall : call.NoReset) : ¬ c.IsReset := by
  cases h.onDatabase with
  | @elsewhere a ha =>
    cases a with
    | resetDatabase faults => exact absurd ha id
    | _ => exact id
  | query => exact id
  | reset hno => exact absurd hcall hno
  | settles _ ha => cases ha <;> exact id

theorem Performs.rollsBack {call : ServerCall} {c : Call} (h : call.Performs crypto F c)
    (hcall : call.RollbackSucceeds) : c.RollsBack := by
  cases h.onDatabase with
  | elsewhere ha => exact ha.rollsBack
  | query => exact trivial
  | reset h => exact trivial
  | settles henv ha =>
    cases ha with
    | settleBlock _ _ _ _ => exact hcall _ henv _
    | _ => exact trivial

/-- Whatever is recorded outside a transaction is a rejection. -/
theorem Performs.recordsRejections {call : ServerCall} {c : Call} (h : call.Performs crypto F c) :
    c.RecordsRejections := by
  cases h.onDatabase with
  | elsewhere ha => exact ha.recordsRejections
  | query => exact trivial
  | reset h => exact trivial
  | settles henv ha =>
    cases ha with
    | saveTransaction => exact rfl
    | _ => exact trivial

end ServerCall

end UpiMesh
