import UpiMesh.Delivery

/-!
# Hop counts

A packet does not carry the number of its hops; a flush reconstructs it as `5 - ttl`. The mesh is run
here once more on copies that also carry the packet they started as and the number of transfers they
went through. Forgetting this history gives back what the devices hold. A transfer takes one from the
ttl, so the reconstruction is right for the packets that were injected with the ttl 5.
-/

namespace UpiMesh

open Concurrent MeshSimulatorService
open Std (ExtTreeMap)

/-- A held packet with its history. -/
structure TracedCopy where
  packet : MeshPacket
  injected : MeshPacket
  hops : ℕ
  ttl_add_hops : packet.ttl + hops = injected.ttl
  ttl_nonneg : 0 < hops → 0 ≤ packet.ttl

namespace TracedCopy

def start (packet : MeshPacket) : TracedCopy where
  packet := packet
  injected := packet
  hops := 0
  ttl_add_hops := add_zero _
  ttl_nonneg h := absurd h (lt_irrefl 0)

/-- The copy that arrives at another device. -/
def transfer (c : TracedCopy) (h : 0 < c.packet.ttl) : TracedCopy where
  packet := { c.packet with ttl := c.packet.ttl - 1 }
  injected := c.injected
  hops := c.hops + 1
  ttl_add_hops := by
    have hsum := c.ttl_add_hops
    change c.packet.ttl - 1 + ((c.hops + 1 : ℕ) : ℤ) = c.injected.ttl
    omega
  ttl_nonneg _ := by
    change 0 ≤ c.packet.ttl - 1
    omega

end TracedCopy

/-- What every device holds, with histories. -/
abbrev Traces := String → ExtTreeMap String TracedCopy

namespace Traces

/-- The packets alone. -/
def held (m : Traces) (d : String) : HeldPackets := (m d).map fun _ c => c.packet

def hold (m : Traces) (d : String) (c : TracedCopy) : Traces :=
  Function.update m d ((m d).insert c.packet.packetId c)

def offer (src : VirtualDevice) (c : TracedCopy) (h : 0 < c.packet.ttl) :
    List VirtualDevice → Traces → Traces
  | [], m => m
  | dst :: devices, m =>
    if dst = src ∨ c.packet.packetId ∈ m dst.deviceId then offer src c h devices m
    else offer src c h devices (m.hold dst.deviceId (c.transfer h))

def spread (devices : List VirtualDevice) (src : VirtualDevice) : List TracedCopy → Traces → Traces
  | [], m => m
  | c :: copies, m =>
    if h : 0 < c.packet.ttl then spread devices src copies (offer src c h devices m)
    else spread devices src copies m

def spreadAll (devices : List VirtualDevice) :
    List (VirtualDevice × List TracedCopy) → Traces → Traces
  | [], m => m
  | source :: sources, m => spreadAll devices sources (spread devices source.1 source.2 m)

def getHeldCopies (m : Traces) (order : IterOrder) (d : String) : List TracedCopy :=
  (order.arrange (m d).keys).filterMap ((m d)[·]?)

def gossipOnce (order : MeshOrder) (m : Traces) : Traces :=
  spreadAll (getDevices order) ((getDevices order).map fun d =>
    (d, m.getHeldCopies (order.packets d.deviceId) d.deviceId)) m

def resetMesh (order : MeshOrder) (m : Traces) : Traces :=
  fun d => if d ∈ (getDevices order).map (·.deviceId) then ∅ else m d

end Traces

/-- The operations that fill and empty the mesh. -/
inductive DemoOp where
  | demoSend (request : DemoSendRequest) (env : DemoSendEnv)
  | gossipOnce (order : MeshOrder)
  | resetMesh (order : MeshOrder)

namespace DemoOp

variable (crypto : CryptoService)

def exec : DemoOp → Server → Server
  | .demoSend request env, s => (Op.demoSend request env).exec crypto s
  | .gossipOnce order, s => ((MeshSimulatorService.gossipOnce order).run s).2
  | .resetMesh order, s => ((MeshSimulatorService.resetMesh order).run s).2

/-- The operation with histories. -/
def trace : DemoOp → Traces → Traces
  | .demoSend request env, m =>
    match crypto.encrypt (ApiController.instruction crypto request env) env.random,
      getDevice (ApiController.startDevice request) with
    | .ok ciphertext, some d => m.hold d.deviceId (.start (ApiController.packet request env ciphertext))
    | _, _ => m
  | .gossipOnce order, m => m.gossipOnce order
  | .resetMesh order, m => m.resetMesh order

end DemoOp

namespace Traces

section Erasure

variable {m : Traces} {s : Server}

theorem mem_held {d k : String} : k ∈ m.held d ↔ k ∈ m d := ExtTreeMap.mem_map

theorem getElem?_held {d k : String} : (m.held d)[k]? = (m d)[k]?.map TracedCopy.packet :=
  ExtTreeMap.getElem?_map

theorem getElem?_hold (m : Traces) (d d' k : String) (c : TracedCopy) :
    (m.hold d c d')[k]? = if d' = d ∧ c.packet.packetId = k then some c else (m d')[k]? := by
  by_cases hd : d' = d
  · subst hd
    simp only [hold, Function.update_self, ExtTreeMap.getElem?_insert, Std.compare_eq_iff_eq,
      true_and]
  · simp only [hold, Function.update_of_ne hd, hd, false_and, if_false]

theorem held_hold (hs : s.held = m.held) (d : String) (c : TracedCopy) :
    (s.updateDevice d (VirtualDevice.hold c.packet)).held = (m.hold d c).held := by
  funext d'
  apply ExtTreeMap.ext_getElem?
  intro k
  rw [UpiMesh.getElem?_hold, getElem?_held, getElem?_hold, hs, getElem?_held]
  split_ifs <;> rfl

theorem getHeldPackets_held (order : IterOrder) (d : String) :
    VirtualDevice.getHeldPackets order (m.held d) =
      (m.getHeldCopies order d).map TracedCopy.packet := by
  rw [VirtualDevice.getHeldPackets, getHeldCopies, List.map_filterMap, held, ExtTreeMap.keys_map]
  refine List.filterMap_congr fun k _ => ?_
  exact getElem?_held

theorem offer_held (src : VirtualDevice) (c : TracedCopy) (h : 0 < c.packet.ttl)
    (devices : List VirtualDevice) (hs : s.held = m.held) :
    ((MeshSimulatorService.offer src c.packet devices).run s).2.held =
      (offer src c h devices m).held := by
  induction devices generalizing s m with
  | nil => exact hs
  | cons dst devices ih =>
    rw [run_offer_cons, offer, hs]
    simp only [mem_held]
    split_ifs
    · exact ih hs
    · exact ih (held_hold hs dst.deviceId (c.transfer h))

theorem spread_held (devices : List VirtualDevice) (src : VirtualDevice) (copies : List TracedCopy)
    (hs : s.held = m.held) :
    ((MeshSimulatorService.spread devices src (copies.map TracedCopy.packet)).run s).2.held =
      (spread devices src copies m).held := by
  induction copies generalizing s m with
  | nil => exact hs
  | cons c copies ih =>
    by_cases h : 0 < c.packet.ttl
    · simp only [List.map_cons, MeshSimulatorService.spread, if_neg (not_le.mpr h), Service.run,
        Program.run_bind, Program.pure_eq, Program.run_ret, spread, dif_pos h]
      exact ih (offer_held src c h devices hs)
    · simp only [List.map_cons, MeshSimulatorService.spread, if_pos (not_lt.mp h), spread, dif_neg h]
      exact ih hs

theorem spreadAll_held (devices : List VirtualDevice)
    (sources : List (VirtualDevice × List TracedCopy)) (hs : s.held = m.held) :
    ((MeshSimulatorService.spreadAll devices
        (sources.map fun source => (source.1, source.2.map TracedCopy.packet))).run s).2.held =
      (spreadAll devices sources m).held := by
  induction sources generalizing s m with
  | nil => exact hs
  | cons source sources ih =>
    simp only [List.map_cons, MeshSimulatorService.spreadAll, Service.run, Program.run_bind,
      Program.pure_eq, Program.run_ret, spreadAll]
    exact ih (spread_held devices source.1 source.2 hs)

theorem gossipOnce_held (order : MeshOrder) (hs : s.held = m.held) :
    ((MeshSimulatorService.gossipOnce order).run s).2.held = (gossipOnce order m).held := by
  have hsources : ((getDevices order).map fun d => (d, VirtualDevice.getHeldPackets
      (order.packets d.deviceId) (s.held d.deviceId))) = ((getDevices order).map fun d =>
        (d, m.getHeldCopies (order.packets d.deviceId) d.deviceId)).map fun source =>
          (source.1, source.2.map TracedCopy.packet) := by
    rw [List.map_map]
    refine List.map_congr_left fun d _ => ?_
    rw [hs, getHeldPackets_held]
    rfl
  rw [run_gossipOnce, hsources]
  exact spreadAll_held (getDevices order) _ hs

theorem exec_held (crypto : CryptoService) (op : DemoOp) (hs : s.held = m.held) :
    (op.exec crypto s).held = (op.trace crypto m).held := by
  cases op with
  | demoSend request env =>
    rw [DemoOp.exec, Op.exec_demoSend, DemoOp.trace]
    cases crypto.encrypt (ApiController.instruction crypto request env) env.random with
    | error e => exact hs
    | ok ciphertext =>
      cases getDevice (ApiController.startDevice request) with
      | none => exact hs
      | some d => exact held_hold hs d.deviceId (.start _)
  | gossipOnce order => exact gossipOnce_held order hs
  | resetMesh order =>
    rw [DemoOp.exec, MeshSimulatorService.resetMesh, run_clearAll, DemoOp.trace]
    funext d
    simp only [resetMesh, held]
    split_ifs
    · rfl
    · rw [hs, held]

theorem held_run (crypto : CryptoService) (ops : List DemoOp) (hs : s.held = m.held) :
    (Sequential.after (DemoOp.exec crypto) ops s).held =
      held (Sequential.after (DemoOp.trace crypto) ops m) := by
  induction ops generalizing s m with
  | nil => exact hs
  | cons op ops ih => exact ih (exec_held crypto op hs)

end Erasure

/-- Every copy is filed under its own id, and started as a packet with the property. -/
def From (P : MeshPacket → Prop) (m : Traces) : Prop :=
  ∀ (d k : String) (c : TracedCopy), (m d)[k]? = some c → c.packet.packetId = k ∧ P c.injected

section From

variable {P : MeshPacket → Prop} {m : Traces}

theorem From.hold (h : m.From P) {c : TracedCopy} (hc : P c.injected) (d : String) :
    (m.hold d c).From P := by
  intro d' k c' hc'
  rw [getElem?_hold] at hc'
  split_ifs at hc' with hk
  · obtain rfl := Option.some.inj hc'
    exact ⟨hk.2, hc⟩
  · exact h d' k c' hc'

theorem From.offer (h : m.From P) (src : VirtualDevice) {c : TracedCopy} (hc : P c.injected)
    (hpos : 0 < c.packet.ttl) (devices : List VirtualDevice) :
    (m.offer src c hpos devices).From P := by
  induction devices generalizing m with
  | nil => exact h
  | cons dst devices ih =>
    unfold Traces.offer
    split_ifs
    · exact ih h
    · exact ih (h.hold (by exact hc) dst.deviceId)

theorem From.spread (h : m.From P) (devices : List VirtualDevice) (src : VirtualDevice)
    {copies : List TracedCopy} (hcopies : ∀ c ∈ copies, P c.injected) :
    (m.spread devices src copies).From P := by
  induction copies generalizing m with
  | nil => exact h
  | cons c copies ih =>
    obtain ⟨hc, hcopies⟩ := List.forall_mem_cons.mp hcopies
    unfold Traces.spread
    split_ifs with hpos
    · exact ih (h.offer src hc hpos devices) hcopies
    · exact ih h hcopies

theorem From.spreadAll (h : m.From P) (devices : List VirtualDevice)
    {sources : List (VirtualDevice × List TracedCopy)}
    (hsources : ∀ source ∈ sources, ∀ c ∈ source.2, P c.injected) :
    (m.spreadAll devices sources).From P := by
  induction sources generalizing m with
  | nil => exact h
  | cons source sources ih =>
    obtain ⟨hsource, hsources⟩ := List.forall_mem_cons.mp hsources
    exact ih (h.spread devices source.1 hsource) hsources

theorem From.trace (h : m.From P) (crypto : CryptoService) {op : DemoOp}
    (hop : ∀ request env ciphertext, op = .demoSend request env →
      P (ApiController.packet request env ciphertext)) : (op.trace crypto m).From P := by
  cases op with
  | demoSend request env =>
    rw [DemoOp.trace]
    cases crypto.encrypt (ApiController.instruction crypto request env) env.random with
    | error e => exact h
    | ok ciphertext =>
      cases getDevice (ApiController.startDevice request) with
      | none => exact h
      | some d => exact h.hold (c := .start _) (hop request env ciphertext rfl) d.deviceId
  | gossipOnce order =>
    apply h.spreadAll
    intro source hsource c hc
    obtain ⟨d, _, rfl⟩ := List.mem_map.mp hsource
    obtain ⟨k, _, hk⟩ := List.mem_filterMap.mp hc
    exact (h d.deviceId k c hk).2
  | resetMesh order =>
    intro d k c hc
    simp only [DemoOp.trace, resetMesh] at hc
    split_ifs at hc
    · rw [ExtTreeMap.getElem?_empty] at hc
      cases hc
    · exact h d k c hc

theorem From.run (h : m.From P) (crypto : CryptoService) {ops : List DemoOp}
    (hops : ∀ request env ciphertext, .demoSend request env ∈ ops →
      P (ApiController.packet request env ciphertext)) :
    From P (Sequential.after (DemoOp.trace crypto) ops m) := by
  induction ops generalizing m with
  | nil => exact h
  | cons op ops ih =>
    refine ih (h.trace crypto fun request env ciphertext hop => ?_)
      fun request env ciphertext hop => ?_
    · exact hops request env ciphertext (hop ▸ List.mem_cons_self)
    · exact hops request env ciphertext (List.mem_cons_of_mem op hop)

end From

/-- Nothing is held yet. -/
def empty : Traces := fun _ => ∅

end Traces

/-- The hop count that a flush computes is the number of transfers, which is not negative, and the
subtraction stays within `int`. -/
structure TrueHopCount (c : TracedCopy) : Prop where
  eq : ApiController.hopCount c.packet = c.hops
  nonneg : 0 ≤ ApiController.hopCount c.packet
  in_range : -2 ^ 31 ≤ 5 - c.packet.ttl ∧ 5 - c.packet.ttl < 2 ^ 31

theorem trueHopCount_iff (c : TracedCopy) : TrueHopCount c ↔ c.injected.ttl = 5 := by
  have hsum := c.ttl_add_hops
  have hlate := c.ttl_nonneg
  constructor
  · rintro ⟨heq, -, hlo, hhi⟩
    have hexact : ApiController.hopCount c.packet = 5 - c.packet.ttl := by
      apply Int.bmod_eq_of_le <;> omega
    omega
  · intro hfive
    have hexact : ApiController.hopCount c.packet = 5 - c.packet.ttl := by
      apply Int.bmod_eq_of_le <;> omega
    refine ⟨?_, ?_, ?_, ?_⟩ <;> omega

/-- In every run, the hop count of an upload is the number of its transfers exactly when its packet
was sent with the ttl 5. -/
theorem hop_count_iff (crypto : CryptoService) (ops : List DemoOp) (order : MeshOrder)
    (up : BridgeUpload) (hup : up ∈ ApiController.bridgeUploads order
      (Sequential.after (DemoOp.exec crypto) ops Server.initial)) :
    ∃ c request env ciphertext,
      (Sequential.after (DemoOp.trace crypto) ops Traces.empty up.bridgeNodeId)[up.packet.packetId]? =
        some c ∧ c.packet = up.packet ∧ .demoSend request env ∈ ops ∧
      c.injected = ApiController.packet request env ciphertext ∧
      (TrueHopCount c ↔ ApiController.startTtl request = 5) := by
  let sent (p : MeshPacket) : Prop := ∃ request env ciphertext,
    .demoSend request env ∈ ops ∧ p = ApiController.packet request env ciphertext
  obtain ⟨d, _, _, hd, k, hk⟩ := ApiController.mem_bridgeUploads.mp hup
  have hempty : Server.initial.held = Traces.held Traces.empty := by
    funext d
    exact (ExtTreeMap.map_eq_empty_iff.mpr rfl).symm
  rw [Traces.held_run crypto ops hempty, Traces.getElem?_held, ← hd] at hk
  obtain ⟨c, hc, hpacket⟩ := Option.map_eq_some_iff.mp hk
  have hnone : Traces.empty.From sent := by
    intro d k c hc
    rw [Traces.empty, ExtTreeMap.getElem?_empty] at hc
    cases hc
  obtain ⟨hkey, request, env, ciphertext, hop, hinjected⟩ := hnone.run crypto
    (fun request env ciphertext hop => ⟨request, env, ciphertext, hop, rfl⟩) _ k c hc
  refine ⟨c, request, env, ciphertext, ?_, hpacket, hop, hinjected, ?_⟩
  · rw [← hpacket, hkey, hc]
  · rw [trueHopCount_iff, hinjected]
    rfl

/-- The payment is sent with the ttl 3, and one gossip round takes it to the bridge. -/
def shortLived : List DemoOp :=
  [.demoSend { tenRupees with ttl := some 3 } tenRupeesEnv, .gossipOnce .listed]

theorem hop_count_of_ttl_three :
    ∃ c, ⟨"phone-bridge", ⟨"p1", 2, 0, "c1"⟩⟩ ∈ ApiController.bridgeUploads .listed
        (Sequential.after (DemoOp.exec tenRupeesCrypto) shortLived Server.initial) ∧
      (Sequential.after (DemoOp.trace tenRupeesCrypto) shortLived Traces.empty
        "phone-bridge")["p1"]? = some c ∧
      c.packet = ⟨"p1", 2, 0, "c1"⟩ ∧ c.hops = 1 ∧ ApiController.hopCount c.packet = 3 := by
  have hupload : ⟨"phone-bridge", ⟨"p1", 2, 0, "c1"⟩⟩ ∈ ApiController.bridgeUploads .listed
      (Sequential.after (DemoOp.exec tenRupeesCrypto) shortLived Server.initial) := by
    decide +kernel
  have hcopy : ((Sequential.after (DemoOp.trace tenRupeesCrypto) shortLived Traces.empty
      "phone-bridge")["p1"]?).map (fun c => (c.packet, c.hops)) =
        some (⟨"p1", 2, 0, "c1"⟩, 1) := by decide +kernel
  obtain ⟨c, hc, hpair⟩ := Option.map_eq_some_iff.mp hcopy
  obtain ⟨hpacket, hhops⟩ := Prod.mk.inj hpair
  refine ⟨c, hupload, hc, hpacket, hhops, ?_⟩
  rw [hpacket]
  decide

/-- With the ttl 5 the same run is counted as it should be. -/
theorem hop_count_iff_default_ttl :
    ∃ c request env ciphertext,
      (Sequential.after (DemoOp.trace tenRupeesCrypto)
        [.demoSend tenRupees tenRupeesEnv, .gossipOnce .listed] Traces.empty
          "phone-bridge")["p1"]? = some c ∧
      c.packet = ⟨"p1", 4, 0, "c1"⟩ ∧
      .demoSend request env ∈ [DemoOp.demoSend tenRupees tenRupeesEnv, .gossipOnce .listed] ∧
      c.injected = ApiController.packet request env ciphertext ∧
      (TrueHopCount c ↔ ApiController.startTtl request = 5) :=
  hop_count_iff tenRupeesCrypto [.demoSend tenRupees tenRupeesEnv, .gossipOnce .listed] .listed
    ⟨"phone-bridge", ⟨"p1", 4, 0, "c1"⟩⟩ (by decide +kernel)

end UpiMesh
