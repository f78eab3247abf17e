import UpiMesh.GossipEffect

/-!
# Gossip saturates in one round

Whatever may still hop reaches every device in the first round, so a second one finds nothing to do.
The ttl therefore never acts beyond the first hop: in a sequential run with fresh ids a copy that is
not on its start device is on all devices, and a round makes no copy of it.
-/

namespace UpiMesh

open Concurrent MeshSimulatorService
open Std (ExtTreeMap)

section Saturated

variable {devices : List VirtualDevice} {s s' s'' : Server} {result result' : GossipResult}

/-- What may hop before a round is on every device after it. -/
theorem GossipEffect.reached (h : GossipEffect devices s result s') {src d : VirtualDevice}
    (hsrc : src ∈ devices) (hd : d ∈ devices) {k : String} {q : MeshPacket}
    (hq : (s.held src.deviceId)[k]? = some q) (httl : 0 < q.ttl) : k ∈ s'.held d.deviceId := by
  by_cases hne : src = d
  · rw [← hne]
    exact h.kept.mem (mem_of_getElem?_eq_some hq)
  · exact (h.mem_iff d hd k).mpr (Or.inr ⟨src, hsrc, hne, q, hq, httl⟩)

/-- What may hop after a round is on every device. -/
theorem GossipEffect.saturated (h : GossipEffect devices s result s') {src d : VirtualDevice}
    (hsrc : src ∈ devices) (hd : d ∈ devices) {k : String} {q : MeshPacket}
    (hq : (s'.held src.deviceId)[k]? = some q) (httl : 0 < q.ttl) : k ∈ s'.held d.deviceId := by
  by_cases hold : k ∈ s.held src.deviceId
  · obtain ⟨p, hp⟩ := mem_iff_exists_getElem?.mp hold
    obtain rfl := Option.some.inj ((h.kept.held _ _ _ hp).symm.trans hq)
    exact h.reached hsrc hd hp httl
  · obtain ⟨x, hx, -, p, hp, hpos, -⟩ := h.copies src hsrc k q hold hq
    exact h.reached hx hd hp hpos

/-- The second of two rounds leaves every device as it is. -/
theorem GossipEffect.again_held (h : GossipEffect devices s result s')
    (h' : GossipEffect devices s' result' s'') : s''.held = s'.held := by
  funext d
  by_cases hlisted : ∀ dst ∈ devices, dst.deviceId ≠ d
  · exact h'.others d hlisted
  · push Not at hlisted
    obtain ⟨dst, hdst, rfl⟩ := hlisted
    have hmem : ∀ k, k ∈ s''.held dst.deviceId → k ∈ s'.held dst.deviceId := by
      intro k hk
      rcases (h'.mem_iff dst hdst k).mp hk with hold | ⟨src, hsrc, -, q, hq, httl⟩
      · exact hold
      · exact h.saturated hsrc hdst hq httl
    apply ExtTreeMap.ext_getElem?
    intro k
    apply Option.ext
    intro q
    refine ⟨fun hq => ?_, h'.kept.held _ k q⟩
    obtain ⟨p, hp⟩ := mem_iff_exists_getElem?.mp (hmem k (mem_of_getElem?_eq_some hq))
    obtain rfl := Option.some.inj ((h'.kept.held _ _ _ hp).symm.trans hq)
    exact hp

theorem GossipEffect.again (h : GossipEffect devices s result s')
    (h' : GossipEffect devices s' result' s'') : result'.transfers = 0 ∧ s'' = s' := by
  have hheld := h.again_held h'
  refine ⟨?_, Server.ext hheld h'.kept.seen h'.kept.db⟩
  have htotal := h'.transfers
  rw [Server.total, Server.total, hheld] at htotal
  omega

end Saturated

namespace MeshOp

/-- The id of an injected packet. -/
def packetId? : MeshOp → Option String
  | .inject _ packet => some packet.packetId
  | _ => none

/-- The server after the operation has run on its own on a mesh with the given devices. -/
def execOn (devices : List VirtualDevice) (op : MeshOp) (s : Server) : Server :=
  ((op.program devices).run s).2

variable {devices : List VirtualDevice} {s : Server}

theorem execOn_inject (senderDeviceId : String) (packet : MeshPacket) :
    (inject senderDeviceId packet).execOn devices s =
      if senderDeviceId ∈ devices.map (·.deviceId) then
        s.updateDevice senderDeviceId (VirtualDevice.hold packet)
      else s := by
  cases hfind : devices.find? (·.deviceId = senderDeviceId) with
  | none =>
    have hno : senderDeviceId ∉ devices.map (·.deviceId) := by
      intro hmem
      obtain ⟨d, hd, hid⟩ := List.mem_map.mp hmem
      exact List.find?_eq_none.mp hfind d hd (by simpa using hid)
    rw [if_neg hno]
    simp only [execOn, program, injectInto, hfind]
    rfl
  | some d =>
    have hid : d.deviceId = senderDeviceId := by simpa using List.find?_some hfind
    rw [if_pos (List.mem_map.mpr ⟨d, List.mem_of_find?_eq_some hfind, hid⟩)]
    simp only [execOn, program, injectInto, hfind]
    rw [← hid]
    rfl

theorem execOn_gossipOnce (order : MeshOrder) :
    (gossipOnce order).execOn devices s =
      ((gossipAmong order.packets (order.devices devices)).run s).2 := by
  simp only [execOn, program, Service.run, Program.run_bind, Program.pure_eq, Program.run_ret]

theorem execOn_resetMesh (order : MeshOrder) :
    (resetMesh order).execOn devices s =
      { s with held := fun id => if id ∈ devices.map (·.deviceId) then ∅ else s.held id } := by
  have hids : ∀ id, id ∈ (order.devices devices).map (·.deviceId) ↔
      id ∈ devices.map (·.deviceId) :=
    fun id => ((order.devices_perm devices).map _).mem_iff
  rw [execOn, program, run_clearAll]
  simp only [hids]

end MeshOp

theorem mem_held_hold {s : Server} {d d' k : String} {packet : MeshPacket}
    (hk : k ∈ (s.updateDevice d (VirtualDevice.hold packet)).held d') :
    k ∈ s.held d' ∨ d' = d ∧ packet.packetId = k := by
  rw [mem_iff_exists_getElem?, getElem?_hold] at hk
  split_ifs at hk with hnew
  · exact Or.inr hnew
  · exact Or.inl (mem_iff_exists_getElem?.mpr hk)

/-- What holds after the operations `ops`: only the listed devices hold packets, and every packet is
an injected one on its start device, or a copy of one that is everywhere by now. -/
structure OneHop (devices : List VirtualDevice) (ops : List MeshOp) (s : Server) : Prop where
  located : ∀ (d k : String), k ∈ s.held d → d ∈ devices.map (·.deviceId)
  origin : ∀ (d k : String) (q : MeshPacket), (s.held d)[k]? = some q →
    ∃ start packet, MeshOp.inject start packet ∈ ops ∧ packet.packetId = k ∧
      (d = start ∧ q = packet ∨
        d ≠ start ∧ q = packet.copy ∧ ∀ dst ∈ devices, k ∈ s.held dst.deviceId)

section Steps

variable {devices : List VirtualDevice} {ops : List MeshOp} {s : Server}

theorem OneHop.initial : OneHop devices [] Server.initial where
  located _ _ hk := absurd hk ExtTreeMap.not_mem_empty
  origin _ _ _ hq := absurd (mem_of_getElem?_eq_some hq) ExtTreeMap.not_mem_empty

theorem OneHop.filed (h : OneHop devices ops s) : HeldAll (fun _ => True) s := by
  intro d k q hq
  obtain ⟨start, packet, -, rfl, ⟨-, rfl⟩ | ⟨-, rfl, -⟩⟩ := h.origin d k q hq
  · exact ⟨rfl, trivial⟩
  · exact ⟨rfl, trivial⟩

theorem OneHop.injected (h : OneHop devices ops s) {d k : String} (hk : k ∈ s.held d) :
    k ∈ ops.filterMap MeshOp.packetId? := by
  obtain ⟨q, hq⟩ := mem_iff_exists_getElem?.mp hk
  obtain ⟨start, packet, hop, hid, -⟩ := h.origin d k q hq
  exact List.mem_filterMap.mpr ⟨_, hop, congrArg some hid⟩

theorem OneHop.mono (h : OneHop devices ops s) {ops' : List MeshOp} (hops : ops ⊆ ops') :
    OneHop devices ops' s := by
  refine ⟨h.located, fun d k q hq => ?_⟩
  obtain ⟨start, packet, hop, hrest⟩ := h.origin d k q hq
  exact ⟨start, packet, hops hop, hrest⟩

theorem OneHop.hold (h : OneHop devices ops s) {start : String} {packet : MeshPacket}
    (hstart : start ∈ devices.map (·.deviceId)) (hop : .inject start packet ∈ ops)
    (hfresh : ∀ d, packet.packetId ∉ s.held d) :
    OneHop devices ops (s.updateDevice start (VirtualDevice.hold packet)) := by
  have hkept : Extends s (s.updateDevice start (VirtualDevice.hold packet)) :=
    .hold (hfresh start)
  refine ⟨fun d k hk => ?_, fun d k q hq => ?_⟩
  · rcases mem_held_hold hk with hold | ⟨rfl, -⟩
    · exact h.located d k hold
    · exact hstart
  · rw [getElem?_hold] at hq
    split_ifs at hq with hnew
    · obtain ⟨rfl, hid⟩ := hnew
      exact ⟨d, packet, hop, hid, Or.inl ⟨rfl, (Option.some.inj hq).symm⟩⟩
    · obtain ⟨start', packet', hop', hid, horiginal | ⟨hne, hcopy, hall⟩⟩ := h.origin d k q hq
      · exact ⟨start', packet', hop', hid, Or.inl horiginal⟩
      · refine ⟨start', packet', hop', hid, Or.inr ⟨hne, hcopy, fun dst hdst => ?_⟩⟩
        exact hkept.mem (hall dst hdst)

/-- Only an injected packet on its start device can be copied: a copy of it is everywhere already. -/
theorem OneHop.gossip (h : OneHop devices ops s) {s' : Server} {result : GossipResult}
    (heffect : GossipEffect devices s result s') : OneHop devices ops s' := by
  have hlocated : ∀ (d k : String), k ∈ s'.held d → d ∈ devices.map (·.deviceId) := by
    intro d k hk
    by_contra hnot
    have hothers : ∀ dst ∈ devices, dst.deviceId ≠ d :=
      fun dst hdst hid => hnot (List.mem_map.mpr ⟨dst, hdst, hid⟩)
    rw [heffect.others d hothers] at hk
    exact hnot (h.located d k hk)
  refine ⟨hlocated, fun d k q hq => ?_⟩
  by_cases hold : k ∈ s.held d
  · obtain ⟨p, hp⟩ := mem_iff_exists_getElem?.mp hold
    obtain rfl := Option.some.inj ((heffect.kept.held d k p hp).symm.trans hq)
    obtain ⟨start, packet, hop, hid, horiginal | ⟨hne, hcopy, hall⟩⟩ := h.origin d k p hp
    · exact ⟨start, packet, hop, hid, Or.inl horiginal⟩
    · refine ⟨start, packet, hop, hid, Or.inr ⟨hne, hcopy, fun dst hdst => ?_⟩⟩
      exact heffect.kept.mem (hall dst hdst)
  · obtain ⟨dst, hdst, rfl⟩ := List.mem_map.mp (hlocated d k (mem_of_getElem?_eq_some hq))
    obtain ⟨src, hsrc, -, p, hp, httl, hcopy⟩ := heffect.copies dst hdst k q hold hq
    have hall : ∀ dst ∈ devices, k ∈ s'.held dst.deviceId :=
      fun dst hdst => heffect.reached hsrc hdst hp httl
    obtain ⟨start, packet, hop, hid, ⟨rfl, rfl⟩ | ⟨-, -, heverywhere⟩⟩ :=
      h.origin src.deviceId k p hp
    · refine ⟨src.deviceId, p, hop, hid, Or.inr ⟨fun hsame => ?_, hcopy, hall⟩⟩
      exact hold (hsame ▸ mem_of_getElem?_eq_some hp)
    · exact absurd (heverywhere dst hdst) hold

/-- A reset empties all devices that hold anything. -/
theorem OneHop.reset (h : OneHop devices ops s) (order : MeshOrder) :
    OneHop devices ops ((MeshOp.resetMesh order).execOn devices s) := by
  have hempty : ∀ (d k : String), k ∉ ((MeshOp.resetMesh order).execOn devices s).held d := by
    intro d k hk
    rw [MeshOp.execOn_resetMesh] at hk
    dsimp only at hk
    split_ifs at hk with hlisted
    · exact ExtTreeMap.not_mem_empty hk
    · exact hlisted (h.located d k hk)
  exact ⟨fun d k hk => absurd hk (hempty d k),
    fun d k q hq => absurd (mem_of_getElem?_eq_some hq) (hempty d k)⟩

theorem OneHop.step (h : OneHop devices ops s) (op : MeshOp)
    (hfresh : ∀ k, op.packetId? = some k → k ∉ ops.filterMap MeshOp.packetId?) :
    OneHop devices (ops ++ [op]) (op.execOn devices s) := by
  have hmono := h.mono (List.subset_append_left ops [op])
  cases op with
  | inject start packet =>
    rw [MeshOp.execOn_inject]
    split_ifs with hstart
    · refine hmono.hold hstart (List.mem_append_right ops (List.mem_singleton_self _)) fun d hd => ?_
      exact hfresh packet.packetId rfl (h.injected hd)
    · exact hmono
  | gossipOnce order =>
    rw [MeshOp.execOn_gossipOnce]
    exact hmono.gossip (gossip_effect devices order s h.filed)
  | resetMesh order => exact hmono.reset order

theorem OneHop.run (hnodup : (ops.filterMap MeshOp.packetId?).Nodup) :
    OneHop devices ops (Sequential.after (MeshOp.execOn devices) ops Server.initial) := by
  induction ops using List.reverseRecOn with
  | nil => exact .initial
  | append_singleton ops op ih =>
    rw [List.filterMap_append] at hnodup
    obtain ⟨hops, -, hdisjoint⟩ := List.nodup_append'.mp hnodup
    rw [Sequential.after_append]
    refine (ih hops).step op fun k hk hmem => ?_
    refine hdisjoint hmem (List.mem_filterMap.mpr ⟨op, List.mem_singleton_self op, hk⟩)

end Steps

/-- A second round in a row makes no transfer and changes nothing, whatever the iteration orders of
the two are. So in a sequential run with fresh ids every held packet is an injected one on its start
device or, anywhere else, a copy that has made one hop. -/
theorem gossip_saturates (devices : List VirtualDevice) :
    (∀ (order order' : MeshOrder) (s : Server), HeldAll (fun _ => True) s →
      let first := (gossipAmong order.packets (order.devices devices)).run s
      let second := (gossipAmong order'.packets (order'.devices devices)).run first.2
      second.1.transfers = 0 ∧ second.2 = first.2) ∧
    ∀ ops : List MeshOp, (ops.filterMap MeshOp.packetId?).Nodup →
      ∀ (d k : String) (q : MeshPacket),
        ((Sequential.after (MeshOp.execOn devices) ops Server.initial).held d)[k]? = some q →
        ∃ start packet, MeshOp.inject start packet ∈ ops ∧ packet.packetId = k ∧
          (d = start ∧ q = packet ∨ d ≠ start ∧ q = packet.copy) := by
  refine ⟨fun order order' s hfiled => ?_, fun ops hnodup d k q hq => ?_⟩
  · intro first second
    have hfirst := gossip_effect devices order s hfiled
    have hfiled' : HeldAll (fun _ => True) first.2 := by
      obtain ⟨s', hs', -, hheld, -⟩ := gossipAmong_spreads order.packets (order.devices devices)
        (fun _ _ => trivial) hfiled
      rw [hs'] at hheld
      exact hheld
    exact hfirst.again (gossip_effect devices order' first.2 hfiled')
  · obtain ⟨start, packet, hop, hid, horiginal | ⟨hne, hcopy, -⟩⟩ :=
      (OneHop.run hnodup).origin d k q hq
    · exact ⟨start, packet, hop, hid, Or.inl horiginal⟩
    · exact ⟨start, packet, hop, hid, Or.inr ⟨hne, hcopy⟩⟩

/-- The devices in reverse. -/
def MeshOrder.reversed : MeshOrder := ⟨List.reverse, fun _ => .sorted, List.reverse_perm⟩

/-- A packet with five hops left is injected, spread, and spread again. -/
def twoRounds : List MeshOp :=
  [.inject "phone-alice" ⟨"p1", 5, 0, "c1"⟩, .gossipOnce .listed, .gossipOnce .reversed]

theorem gossip_saturates_two_rounds :
    ((gossipAmong MeshOrder.reversed.packets (MeshOrder.reversed.devices defaultDevices)).run
        ((gossipAmong MeshOrder.listed.packets (MeshOrder.listed.devices defaultDevices)).run
          twoCopies).2).1.transfers = 0 ∧
      ((Sequential.after (MeshOp.execOn defaultDevices) twoRounds Server.initial).held
        "phone-bridge")["p1"]? = some ⟨"p1", 4, 0, "c1"⟩ ∧
      ∃ start packet, MeshOp.inject start packet ∈ twoRounds ∧ packet.packetId = "p1" ∧
        ("phone-bridge" = start ∧ (⟨"p1", 4, 0, "c1"⟩ : MeshPacket) = packet ∨
          "phone-bridge" ≠ start ∧ (⟨"p1", 4, 0, "c1"⟩ : MeshPacket) = packet.copy) := by
  have hbridge : ((Sequential.after (MeshOp.execOn defaultDevices) twoRounds Server.initial).held
      "phone-bridge")["p1"]? = some ⟨"p1", 4, 0, "c1"⟩ := by
    decide +kernel
  obtain ⟨hrounds, hrun⟩ := gossip_saturates defaultDevices
  have htwice := hrounds .listed .reversed twoCopies heldAll_twoCopies
  exact ⟨htwice.1, hbridge, hrun twoRounds (by decide) "phone-bridge" "p1" _ hbridge⟩

end UpiMesh
