import UpiMesh.Api

/-!
# What the mesh operations do on their own

Run without interference, the operations of the mesh change nothing but the packets that the devices
hold. A gossip round overwrites no packet and only files copies with a smaller ttl. A flush is the
sequence of its `ingest` calls.
-/

namespace UpiMesh

open Concurrent Sequential

/-- Every packet on a device is filed under its own id and has the property `F` there. -/
def Server.HoldsOnly (F : String → MeshPacket → Prop) (s : Server) : Prop :=
  ∀ (d k : String) (q : MeshPacket), (s.held d)[k]? = some q → q.packetId = k ∧ F d q

/-- Every held packet is filed under its own id and has the property. -/
def HeldAll (P : MeshPacket → Prop) (s : Server) : Prop :=
  ∀ (d k : String) (q : MeshPacket), (s.held d)[k]? = some q → q.packetId = k ∧ P q

theorem HeldAll.mono {P Q : MeshPacket → Prop} {s : Server} (h : HeldAll P s)
    (hPQ : ∀ q, P q → Q q) : HeldAll Q s :=
  fun d k q hq => ⟨(h d k q hq).1, hPQ q (h d k q hq).2⟩

/-- Only the mesh has changed, and every packet is still where it was. -/
structure Extends (s s' : Server) : Prop where
  seen : s'.seen = s.seen
  db : s'.db = s.db
  held : ∀ (d k : String) (q : MeshPacket), (s.held d)[k]? = some q → (s'.held d)[k]? = some q

theorem Extends.refl (s : Server) : Extends s s := ⟨rfl, rfl, fun _ _ _ h => h⟩

theorem Extends.trans {s s' s'' : Server} (h : Extends s s') (h' : Extends s' s'') : Extends s s'' :=
  ⟨h'.seen.trans h.seen, h'.db.trans h.db, fun d k q hq => h'.held d k q (h.held d k q hq)⟩

theorem Extends.mem {s s' : Server} (h : Extends s s') {d k : String} (hk : k ∈ s.held d) :
    k ∈ s'.held d := by
  obtain ⟨q, hq⟩ := mem_iff_exists_getElem?.mp hk
  exact mem_of_getElem?_eq_some (h.held d k q hq)

theorem getElem?_hold (s : Server) (d d' k : String) (packet : MeshPacket) :
    ((s.updateDevice d (VirtualDevice.hold packet)).held d')[k]? =
      if d' = d ∧ packet.packetId = k then some packet else (s.held d')[k]? := by
  by_cases hd : d' = d
  · subst hd
    simp only [Server.updateDevice, Function.update_self, VirtualDevice.hold,
      Std.ExtTreeMap.getElem?_insert, Std.compare_eq_iff_eq, true_and]
  · simp only [Server.updateDevice, Function.update_of_ne hd, hd, false_and, if_false]

theorem Server.HoldsOnly.hold {F : String → MeshPacket → Prop} {s : Server} (h : s.HoldsOnly F)
    {d : String} {packet : MeshPacket} (hF : F d packet) :
    (s.updateDevice d (VirtualDevice.hold packet)).HoldsOnly F := by
  intro d' k q hq
  rw [getElem?_hold] at hq
  by_cases hk : d' = d ∧ packet.packetId = k
  · rw [if_pos hk] at hq
    obtain rfl := Option.some.inj hq
    obtain ⟨rfl, rfl⟩ := hk
    exact ⟨rfl, hF⟩
  · rw [if_neg hk] at hq
    exact h d' k q hq

theorem Server.holdsOnly_initial (F : String → MeshPacket → Prop) : Server.initial.HoldsOnly F := by
  intro d k q hq
  rw [Server.initial, Std.ExtTreeMap.getElem?_empty] at hq
  cases hq

theorem HeldAll.hold {P : MeshPacket → Prop} {s : Server} (h : HeldAll P s) {packet : MeshPacket}
    (hP : P packet) (d : String) : HeldAll P (s.updateDevice d (VirtualDevice.hold packet)) :=
  Server.HoldsOnly.hold (F := fun _ => P) h hP

theorem Extends.hold {s : Server} {d : String} {packet : MeshPacket}
    (hnew : packet.packetId ∉ s.held d) :
    Extends s (s.updateDevice d (VirtualDevice.hold packet)) := by
  refine ⟨rfl, rfl, fun d' k q hq => ?_⟩
  rw [getElem?_hold, if_neg, hq]
  rintro ⟨rfl, rfl⟩
  exact hnew (mem_of_getElem?_eq_some hq)

namespace MeshSimulatorService

open VirtualDevice

section Gossip

variable {P : MeshPacket → Prop} {s : Server}

theorem run_offer_cons (src dst : VirtualDevice) (packet : MeshPacket)
    (devices : List VirtualDevice) (s : Server) :
    (offer src packet (dst :: devices)).run s =
      if dst = src ∨ packet.packetId ∈ s.held dst.deviceId then (offer src packet devices).run s
      else
        let rest := (offer src packet devices).run (s.updateDevice dst.deviceId
          (VirtualDevice.hold { packet with ttl := packet.ttl - 1 }))
        (rest.1 + 1, rest.2) := by
  by_cases hsrc : dst = src
  · simp only [offer, hsrc, if_true, true_or]
  · simp only [offer, hsrc, if_false, false_or, callHolds, Program.call_bind, Service.run,
      Program.run_act, Action.exec, VirtualDevice.holds]
    by_cases hheld : packet.packetId ∈ s.held dst.deviceId
    · simp only [Std.ExtTreeMap.contains_iff_mem.mpr hheld, if_true, hheld]
    · have hno : (s.held dst.deviceId).contains packet.packetId = false := by
        rwa [Std.ExtTreeMap.mem_iff_contains, Bool.not_eq_true] at hheld
      simp only [hno, Bool.false_eq_true, if_false, hheld, callHold, Program.call_bind,
        Program.run_act, Action.exec, Program.run_bind, Program.pure_eq, Program.run_ret]

/-- What a stretch of gossip from one device achieves: no packet is overwritten, every packet filed
has the property, and the packets that may still hop are on every listed device but their source. -/
structure Spreads (P : MeshPacket → Prop) (src : VirtualDevice) (packets : List MeshPacket)
    (devices : List VirtualDevice) (s s' : Server) : Prop where
  kept : Extends s s'
  held : HeldAll P s'
  reached : ∀ q ∈ packets, 0 < q.ttl → ∀ d ∈ devices, d ≠ src → q.packetId ∈ s'.held d.deviceId

theorem offer_spreads (src : VirtualDevice) {packet : MeshPacket}
    (hP : P { packet with ttl := packet.ttl - 1 }) (devices : List VirtualDevice)
    (hs : HeldAll P s) :
    Spreads P src [packet] devices s ((offer src packet devices).run s).2 := by
  induction devices generalizing s with
  | nil => exact ⟨.refl s, hs, fun _ _ _ d hd => absurd hd List.not_mem_nil⟩
  | cons dst devices ih =>
    rw [run_offer_cons]
    by_cases hskip : dst = src ∨ packet.packetId ∈ s.held dst.deviceId
    · rw [if_pos hskip]
      obtain ⟨hkept, hheld, hreached⟩ := ih hs
      refine ⟨hkept, hheld, fun q hq httl d hd hne => ?_⟩
      rcases List.mem_cons.mp hd with rfl | hd
      · obtain rfl := List.mem_singleton.mp hq
        exact hkept.mem (hskip.resolve_left hne)
      · exact hreached q hq httl d hd hne
    · rw [if_neg hskip]
      obtain ⟨-, hnew⟩ := not_or.mp hskip
      obtain ⟨hkept, hheld, hreached⟩ := ih (hs.hold hP dst.deviceId)
      have hkept' : Extends s _ := (Extends.hold (by exact hnew)).trans hkept
      refine ⟨hkept', hheld, fun q hq httl d hd hne => ?_⟩
      rcases List.mem_cons.mp hd with rfl | hd
      · obtain rfl := List.mem_singleton.mp hq
        apply hkept.mem
        rw [mem_iff_exists_getElem?, getElem?_hold, if_pos ⟨rfl, rfl⟩]
        exact ⟨_, rfl⟩
      · exact hreached q hq httl d hd hne

theorem spread_spreads (src : VirtualDevice) {packets : List MeshPacket}
    (hP : ∀ q ∈ packets, P { q with ttl := q.ttl - 1 }) (devices : List VirtualDevice)
    (hs : HeldAll P s) :
    Spreads P src packets devices s ((spread devices src packets).run s).2 := by
  induction packets generalizing s with
  | nil => exact ⟨.refl s, hs, fun q hq => absurd hq List.not_mem_nil⟩
  | cons packet packets ih =>
    obtain ⟨hpacket, hpackets⟩ := List.forall_mem_cons.mp hP
    by_cases httl : packet.ttl ≤ 0
    · simp only [spread, if_pos httl]
      obtain ⟨hkept, hheld, hreached⟩ := ih hpackets hs
      refine ⟨hkept, hheld, fun q hq hpos d hd hne => ?_⟩
      rcases List.mem_cons.mp hq with rfl | hq
      · omega
      · exact hreached q hq hpos d hd hne
    · simp only [spread, if_neg httl, Service.run, Program.run_bind, Program.pure_eq,
        Program.run_ret]
      have hoffer := offer_spreads src hpacket devices hs
      obtain ⟨hkept, hheld, hreached⟩ := ih hpackets hoffer.held
      refine ⟨hoffer.kept.trans hkept, hheld, fun q hq hpos d hd hne => ?_⟩
      rcases List.mem_cons.mp hq with rfl | hq
      · exact hkept.mem (hoffer.reached q (List.mem_singleton_self q) hpos d hd hne)
      · exact hreached q hq hpos d hd hne

theorem spreadAll_spreads (devices : List VirtualDevice)
    {sources : List (VirtualDevice × List MeshPacket)}
    (hP : ∀ source ∈ sources, ∀ q ∈ source.2, P { q with ttl := q.ttl - 1 }) (hs : HeldAll P s) :
    ∃ s', s' = ((spreadAll devices sources).run s).2 ∧ Extends s s' ∧ HeldAll P s' ∧
      ∀ source ∈ sources, Spreads P source.1 source.2 devices s s' := by
  induction sources generalizing s with
  | nil => exact ⟨s, rfl, .refl s, hs, fun _ h => absurd h List.not_mem_nil⟩
  | cons source sources ih =>
    obtain ⟨hsource, hsources⟩ := List.forall_mem_cons.mp hP
    have hfirst := spread_spreads source.1 hsource devices hs
    obtain ⟨s', hs', hkept, hheld, hreached⟩ := ih hsources hfirst.held
    refine ⟨s', ?_, hfirst.kept.trans hkept, hheld, fun x hx => ?_⟩
    · simp only [spreadAll, Service.run, Program.run_bind, Program.pure_eq, Program.run_ret]
      exact hs'
    · rcases List.mem_cons.mp hx with rfl | hx
      · exact ⟨hfirst.kept.trans hkept, hheld,
          fun q hq hpos d hd hne => hkept.mem (hfirst.reached q hq hpos d hd hne)⟩
      · exact ⟨hfirst.kept.trans hkept, hheld, (hreached x hx).reached⟩

theorem run_snapshot (packets : String → IterOrder) (devices : List VirtualDevice) (s : Server) :
    (snapshot packets devices).run s = (devices.map fun d =>
      (d, VirtualDevice.getHeldPackets (packets d.deviceId) (s.held d.deviceId)), s) := by
  induction devices with
  | nil => rfl
  | cons d devices ih =>
    rw [Service.run] at ih
    simp only [snapshot, callGetHeldPackets, Program.call_bind, Service.run, Program.run_act,
      Action.exec, Program.run_bind, ih, Program.pure_eq, Program.run_ret, List.map_cons]

theorem run_snapshotMap (devices : List VirtualDevice) (s : Server) :
    ((snapshotMap devices).run s).2 = s := by
  induction devices with
  | nil => rfl
  | cons d devices ih =>
    rw [Service.run] at ih
    simp only [snapshotMap, callPacketCount, Program.call_bind, Service.run, Program.run_act,
      Action.exec, Program.run_bind, ih, Program.pure_eq, Program.run_ret]

/-- `gossipOnce` on a mesh with the given devices. -/
def gossipAmong (packets : String → IterOrder) (devices : List VirtualDevice) :
    Service GossipResult := do
  let held ← snapshot packets devices
  let transfers ← spreadAll devices held
  let counts ← snapshotMap devices
  pure ⟨transfers, counts⟩

/-- A round reads every device, hands on what may still hop, and counts. -/
theorem run_gossipAmong (packets : String → IterOrder) (devices : List VirtualDevice) (s : Server) :
    (gossipAmong packets devices).run s =
      let spread := (spreadAll devices (devices.map fun d =>
        (d, VirtualDevice.getHeldPackets (packets d.deviceId) (s.held d.deviceId)))).run s
      (⟨spread.1, ((snapshotMap devices).run spread.2).1⟩, spread.2) := by
  have hsnapshot := run_snapshot packets devices s
  have hcounts : ∀ s, (Program.run Action.exec (snapshotMap devices) s).2 = s :=
    run_snapshotMap devices
  rw [Service.run] at hsnapshot
  simp only [gossipAmong, Service.run, Program.run_bind, hsnapshot, hcounts, Program.pure_eq,
    Program.run_ret]

theorem run_gossipOnce (order : MeshOrder) (s : Server) :
    (gossipOnce order).run s =
      let spread := (spreadAll (getDevices order) ((getDevices order).map fun d =>
        (d, VirtualDevice.getHeldPackets (order.packets d.deviceId) (s.held d.deviceId)))).run s
      (⟨spread.1, ((snapshotMap (getDevices order)).run spread.2).1⟩, spread.2) :=
  run_gossipAmong order.packets (getDevices order) s

theorem run_collectFrom (packets : String → IterOrder) (devices : List VirtualDevice) (s : Server) :
    (collectFrom packets devices).run s = ((devices.filter (·.hasInternet)).flatMap fun d =>
      (VirtualDevice.getHeldPackets (packets d.deviceId) (s.held d.deviceId)).map
        (⟨d.deviceId, ·⟩), s) := by
  induction devices with
  | nil => rfl
  | cons d devices ih =>
    rw [Service.run] at ih
    by_cases hd : d.hasInternet
    · simp only [collectFrom, if_pos hd, callGetHeldPackets, Program.call_bind, Service.run,
        Program.run_act, Action.exec, Program.run_bind, ih, Program.pure_eq, Program.run_ret,
        List.filter_cons_of_pos hd, List.flatMap_cons]
    · simp only [collectFrom, if_neg hd, Service.run, ih, List.filter_cons_of_neg hd]

/-- Everything a device holds at the start of a round and may still hop is on every device after
it. -/
theorem gossipAmong_spreads (packets : String → IterOrder) (devices : List VirtualDevice)
    (hP : ∀ q, P q → P { q with ttl := q.ttl - 1 }) (hs : HeldAll P s) :
    ∃ s', s' = ((gossipAmong packets devices).run s).2 ∧ Extends s s' ∧ HeldAll P s' ∧
      ∀ src ∈ devices, ∀ (k : String) (q : MeshPacket),
        (s.held src.deviceId)[k]? = some q → 0 < q.ttl →
        ∀ d ∈ devices, k ∈ s'.held d.deviceId := by
  let sources := devices.map fun d =>
    (d, VirtualDevice.getHeldPackets (packets d.deviceId) (s.held d.deviceId))
  have hsources : ∀ source ∈ sources, ∀ q ∈ source.2, P { q with ttl := q.ttl - 1 } := by
    intro source hsource q hq
    obtain ⟨d, _, rfl⟩ := List.mem_map.mp hsource
    obtain ⟨k, hk⟩ := VirtualDevice.mem_getHeldPackets.mp hq
    exact hP q (hs d.deviceId k q hk).2
  obtain ⟨s', hs', hkept, hheld, hreached⟩ := spreadAll_spreads devices hsources hs
  refine ⟨s', ?_, hkept, hheld, fun src hsrc k q hq httl d hd => ?_⟩
  · rw [run_gossipAmong]
    exact hs'
  · by_cases hne : d = src
    · rw [hne]
      exact hkept.mem (mem_of_getElem?_eq_some hq)
    · have hspread := hreached _ (List.mem_map.mpr ⟨src, hsrc, rfl⟩)
      rw [← (hs src.deviceId k q hq).1]
      exact hspread.reached q (VirtualDevice.mem_getHeldPackets.mpr ⟨k, hq⟩) httl d hd hne

theorem gossipOnce_spreads (order : MeshOrder)
    (hP : ∀ q, P q → P { q with ttl := q.ttl - 1 }) (hs : HeldAll P s) :
    ∃ s', s' = ((gossipOnce order).run s).2 ∧ Extends s s' ∧ HeldAll P s' ∧
      ∀ src ∈ defaultDevices, ∀ (k : String) (q : MeshPacket),
        (s.held src.deviceId)[k]? = some q → 0 < q.ttl →
        ∀ d ∈ defaultDevices, k ∈ s'.held d.deviceId := by
  have hmem : ∀ d, d ∈ getDevices order ↔ d ∈ defaultDevices :=
    fun d => (order.devices_perm defaultDevices).mem_iff
  obtain ⟨s', hs', hkept, hheld, hreached⟩ :=
    gossipAmong_spreads order.packets (getDevices order) hP hs
  refine ⟨s', hs', hkept, hheld, fun src hsrc k q hq httl d hd => ?_⟩
  exact hreached src ((hmem src).mpr hsrc) k q hq httl d ((hmem d).mpr hd)

end Gossip

theorem run_clearAll (devices : List VirtualDevice) (s : Server) :
    (clearAll devices).run s =
      ((), { s with held := fun id => if id ∈ devices.map (·.deviceId) then ∅ else s.held id }) := by
  induction devices generalizing s with
  | nil => simp [clearAll, Service.run]
  | cons d devices ih =>
    have hrun : (clearAll (d :: devices)).run s =
        (clearAll devices).run (s.updateDevice d.deviceId fun _ => ∅) := rfl
    rw [hrun, ih]
    refine Prod.ext rfl (Server.ext ?_ rfl rfl)
    funext id
    simp only [Server.updateDevice, List.map_cons, List.mem_cons]
    by_cases hd : id = d.deviceId
    · simp [hd]
    · simp [hd]

end MeshSimulatorService

/-- After a reset the cache is empty, and the database has been reset as far as its statements
succeeded. -/
theorem Op.exec_meshReset (crypto : CryptoService) (order : MeshOrder) (faults : ResetFaults)
    (s : Server) :
    ((Op.meshReset order faults).exec crypto s).seen = ∅ ∧
      ((Op.meshReset order faults).exec crypto s).db = (s.db.reset faults).2 := by
  have hclear := MeshSimulatorService.run_clearAll (MeshSimulatorService.getDevices order) s
  rw [Service.run] at hclear
  simp only [Op.exec, Op.program, ApiController.meshReset, MeshSimulatorService.resetMesh,
    Service.run, Program.run_bind, Program.run_call, Program.pure_eq, Program.run_ret, hclear]
  exact ⟨rfl, rfl⟩

/-- The packet reaches its start device, or nothing happens. -/
theorem Op.exec_demoSend (crypto : CryptoService) (request : DemoSendRequest) (env : DemoSendEnv)
    (s : Server) :
    (Op.demoSend request env).exec crypto s =
      match crypto.encrypt (ApiController.instruction crypto request env) env.random,
        MeshSimulatorService.getDevice (ApiController.startDevice request) with
      | .ok ciphertext, some d => s.updateDevice d.deviceId
          (VirtualDevice.hold (ApiController.packet request env ciphertext))
      | _, _ => s := by
  simp only [Op.exec, Op.program, ApiController.demoSend, MeshSimulatorService.inject]
  cases crypto.encrypt (ApiController.instruction crypto request env) env.random with
  | error e => rfl
  | ok ciphertext =>
    cases MeshSimulatorService.getDevice (ApiController.startDevice request) with
    | none => rfl
    | some d => rfl

theorem Op.exec_meshGossip (crypto : CryptoService) (order : MeshOrder) (s : Server) :
    (Op.meshGossip order).exec crypto s = ((MeshSimulatorService.gossipOnce order).run s).2 := by
  simp only [Op.exec, Op.program, ApiController.meshGossip, Program.run_bind, Program.pure_eq,
    Program.run_ret]

namespace ApiController

/-- The `ingest` calls of a flush. -/
def ingestCalls (ingests : ℕ → IngestEnv) : ℕ → List BridgeUpload → List Op
  | _, [] => []
  | n, up :: uploads =>
    .ingest up.packet up.bridgeNodeId (hopCount up.packet) (ingests n) ::
      ingestCalls ingests (n + 1) uploads

theorem mem_ingestCalls {ingests : ℕ → IngestEnv} {n : ℕ} {uploads : List BridgeUpload} {op : Op}
    (h : op ∈ ingestCalls ingests n uploads) :
    ∃ up ∈ uploads, ∃ m,
      op = .ingest up.packet up.bridgeNodeId (hopCount up.packet) (ingests m) := by
  induction uploads generalizing n with
  | nil => exact absurd h List.not_mem_nil
  | cons up uploads ih =>
    rcases List.mem_cons.mp h with rfl | h
    · exact ⟨up, List.mem_cons_self, n, rfl⟩
    · obtain ⟨up', hup, m, rfl⟩ := ih h
      exact ⟨up', List.mem_cons_of_mem _ hup, m, rfl⟩

theorem exists_mem_ingestCalls {ingests : ℕ → IngestEnv} {n : ℕ} {uploads : List BridgeUpload}
    {up : BridgeUpload} (h : up ∈ uploads) :
    ∃ m, .ingest up.packet up.bridgeNodeId (hopCount up.packet) (ingests m) ∈
      ingestCalls ingests n uploads := by
  induction uploads generalizing n with
  | nil => exact absurd h List.not_mem_nil
  | cons up' uploads ih =>
    rcases List.mem_cons.mp h with rfl | h
    · exact ⟨n, List.mem_cons_self⟩
    · obtain ⟨m, hm⟩ := ih (n := n + 1) h
      exact ⟨m, List.mem_cons_of_mem _ hm⟩

theorem run_ingestUploads (crypto : CryptoService) (ingests : ℕ → IngestEnv) (n : ℕ)
    (uploads : List BridgeUpload) (s : Server) :
    ((ingestUploads crypto ingests n uploads).run s).2 =
      Op.execAll crypto (ingestCalls ingests n uploads) s := by
  induction uploads generalizing n s with
  | nil => rfl
  | cons up uploads ih =>
    simp only [ingestUploads, ingestCalls, Sequential.after_cons, Op.exec_ingest, Service.run,
      Program.run_bind, Program.pure_eq, Program.run_ret]
    exact ih (n + 1) _

/-- What the bridge uploads in a flush. -/
def bridgeUploads (order : MeshOrder) (s : Server) : List BridgeUpload :=
  ((MeshSimulatorService.collectBridgeUploads order).run s).1

theorem mem_bridgeUploads {order : MeshOrder} {s : Server} {up : BridgeUpload} :
    up ∈ bridgeUploads order s ↔ ∃ d ∈ MeshSimulatorService.defaultDevices, d.hasInternet ∧
      up.bridgeNodeId = d.deviceId ∧ ∃ k : String, (s.held d.deviceId)[k]? = some up.packet := by
  have hmem : ∀ d, d ∈ MeshSimulatorService.getDevices order ↔
      d ∈ MeshSimulatorService.defaultDevices :=
    fun d => (order.devices_perm MeshSimulatorService.defaultDevices).mem_iff
  simp only [bridgeUploads, MeshSimulatorService.collectBridgeUploads,
    MeshSimulatorService.run_collectFrom, List.mem_flatMap, List.mem_filter, List.mem_map,
    VirtualDevice.mem_getHeldPackets, hmem]
  constructor
  · rintro ⟨d, ⟨hd, hnet⟩, q, hq, rfl⟩
    exact ⟨d, hd, hnet, rfl, hq⟩
  · rintro ⟨d, hd, hnet, hid, hq⟩
    exact ⟨d, ⟨hd, hnet⟩, up.packet, hq, by rw [← hid]⟩

/-- A flush collects without side effects, and then uploads. -/
theorem run_meshFlush (crypto : CryptoService) (env : MeshFlushEnv) (s : Server) :
    (meshFlush crypto env).run s =
      let results := (ingestUploads crypto env.ingests 0 (bridgeUploads env.order s)).run s
      (⟨(bridgeUploads env.order s).length, results.1⟩, results.2) := by
  have hcollect := MeshSimulatorService.run_collectFrom env.order.packets
    (MeshSimulatorService.getDevices env.order) s
  have hstate : ((MeshSimulatorService.collectBridgeUploads env.order).run s).2 = s := by
    rw [MeshSimulatorService.collectBridgeUploads, hcollect]
  simp only [meshFlush, bridgeUploads, Service.run, Program.run_bind, Program.pure_eq,
    Program.run_ret] at hstate ⊢
  rw [hstate]

end ApiController

/-- A flush is the sequence of its `ingest` calls. -/
theorem Op.exec_meshFlush (crypto : CryptoService) (env : MeshFlushEnv) (s : Server) :
    (Op.meshFlush env).exec crypto s = Op.execAll crypto
      (ApiController.ingestCalls env.ingests 0 (ApiController.bridgeUploads env.order s)) s := by
  have hrun := ApiController.run_meshFlush crypto env s
  rw [← ApiController.run_ingestUploads]
  rw [Service.run] at hrun
  simp only [Op.exec, Op.program, Service.run, Program.run_bind, hrun, Program.pure_eq,
    Program.run_ret]

end UpiMesh
