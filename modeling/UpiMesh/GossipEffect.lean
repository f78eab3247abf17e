import UpiMesh.MeshActions

/-!
# The effect of a gossip round

A round reads a snapshot of every device and tests `holds` on the live devices that it is changing.
On any devices, with any packets on them, it adds copies and nothing else: an id gets to every device
that some other device could send it to, each new copy has been made of what a device held before the
round, and the number of transfers is the number of packets gained.
-/

namespace UpiMesh

open Concurrent MeshSimulatorService
open Std (ExtTreeMap)

/-- The number of packets on some devices. -/
def Server.total (ids : Finset String) (s : Server) : ℕ := ∑ d ∈ ids, (s.held d).size

section Transfers

variable {ids : Finset String} {s : Server}

theorem total_hold {d : String} {packet : MeshPacket} (hd : d ∈ ids)
    (hnew : packet.packetId ∉ s.held d) :
    (s.updateDevice d (VirtualDevice.hold packet)).total ids = s.total ids + 1 := by
  have hothers : ∑ d' ∈ ids.erase d,
      ((s.updateDevice d (VirtualDevice.hold packet)).held d').size =
        ∑ d' ∈ ids.erase d, (s.held d').size := by
    refine Finset.sum_congr rfl fun d' hd' => ?_
    simp only [Server.updateDevice, Function.update_of_ne (Finset.ne_of_mem_erase hd')]
  have hsize : ((s.updateDevice d (VirtualDevice.hold packet)).held d).size =
      (s.held d).size + 1 := by
    rw [← ExtTreeMap.contains_iff_mem] at hnew
    simp only [Server.updateDevice, Function.update_self, VirtualDevice.hold,
      ExtTreeMap.size_insert, if_neg hnew]
  rw [Server.total, Server.total, ← Finset.add_sum_erase ids _ hd, hothers, hsize,
    ← Finset.add_sum_erase ids (fun d => (s.held d).size) hd]
  omega

theorem offer_transfers (src : VirtualDevice) (packet : MeshPacket) {devices : List VirtualDevice}
    (hids : ∀ dst ∈ devices, dst.deviceId ∈ ids) (s : Server) :
    ((offer src packet devices).run s).2.total ids =
      s.total ids + ((offer src packet devices).run s).1 := by
  induction devices generalizing s with
  | nil => rfl
  | cons dst devices ih =>
    obtain ⟨hdst, hdevices⟩ := List.forall_mem_cons.mp hids
    rw [run_offer_cons]
    split_ifs with hskip
    · exact ih hdevices s
    · have hnew : packet.packetId ∉ s.held dst.deviceId := (not_or.mp hskip).2
      have hhold : (s.updateDevice dst.deviceId (VirtualDevice.hold
          { packet with ttl := packet.ttl - 1 })).total ids = s.total ids + 1 := total_hold hdst hnew
      have hrest := ih hdevices (s.updateDevice dst.deviceId (VirtualDevice.hold
        { packet with ttl := packet.ttl - 1 }))
      dsimp only
      omega

theorem spread_transfers {devices : List VirtualDevice}
    (hids : ∀ dst ∈ devices, dst.deviceId ∈ ids) (src : VirtualDevice) (packets : List MeshPacket)
    (s : Server) :
    ((spread devices src packets).run s).2.total ids =
      s.total ids + ((spread devices src packets).run s).1 := by
  induction packets generalizing s with
  | nil => rfl
  | cons packet packets ih =>
    unfold spread
    split_ifs
    · exact ih s
    · have hoffer := offer_transfers src packet hids s
      have hrest := ih ((offer src packet devices).run s).2
      simp only [Service.run, Program.run_bind, Program.pure_eq, Program.run_ret] at hoffer hrest ⊢
      omega

theorem spreadAll_transfers {devices : List VirtualDevice}
    (hids : ∀ dst ∈ devices, dst.deviceId ∈ ids) (sources : List (VirtualDevice × List MeshPacket))
    (s : Server) :
    ((spreadAll devices sources).run s).2.total ids =
      s.total ids + ((spreadAll devices sources).run s).1 := by
  induction sources generalizing s with
  | nil => rfl
  | cons source sources ih =>
    have hfirst := spread_transfers hids source.1 source.2 s
    have hrest := ih ((spread devices source.1 source.2).run s).2
    simp only [spreadAll, Service.run, Program.run_bind, Program.pure_eq,
      Program.run_ret] at hfirst hrest ⊢
    omega

/-- A round makes one transfer for every packet that the devices gain. -/
theorem gossipAmong_transfers (packets : String → IterOrder) (devices : List VirtualDevice)
    (s : Server) :
    ((gossipAmong packets devices).run s).2.total (devices.map (·.deviceId)).toFinset =
      s.total (devices.map (·.deviceId)).toFinset +
        ((gossipAmong packets devices).run s).1.transfers := by
  rw [run_gossipAmong]
  exact spreadAll_transfers
    (fun dst hdst => List.mem_toFinset.mpr (List.mem_map_of_mem hdst)) _ s

theorem getElem?_snapshotMap (devices : List VirtualDevice) (s : Server) (k : String) :
    (((snapshotMap devices).run s).1)[k]? =
      if k ∈ devices.map (·.deviceId) then some (s.held k).size else none := by
  induction devices with
  | nil => rfl
  | cons d devices ih =>
    have hrun : ((snapshotMap (d :: devices)).run s).1 =
        ((snapshotMap devices).run s).1.insert d.deviceId (s.held d.deviceId).size := by
      simp only [snapshotMap, VirtualDevice.callPacketCount, Program.call_bind, Service.run,
        Program.run_act, Action.exec, Program.run_bind, Program.pure_eq, Program.run_ret]
      rfl
    rw [hrun, ExtTreeMap.getElem?_insert, ih]
    by_cases hk : k = d.deviceId
    · simp [hk]
    · have hk' : ¬ d.deviceId = k := fun h => hk h.symm
      simp only [Std.compare_eq_iff_eq, if_neg hk', List.map_cons, List.mem_cons, hk, false_or]

/-- The counts depend on the devices alone. -/
theorem snapshotMap_perm {devices devices' : List VirtualDevice} (h : devices.Perm devices')
    {s s' : Server} (hs : s.held = s'.held) :
    ((snapshotMap devices).run s).1 = ((snapshotMap devices').run s').1 := by
  apply ExtTreeMap.ext_getElem?
  intro k
  simp only [getElem?_snapshotMap, (h.map _).mem_iff, hs]

end Transfers

/-- A packet `q'` on device `d` that was there before the round, or that is the copy of a packet that
another device held. -/
def HandedAmong (devices : List VirtualDevice) (s : Server) (d : String) (q' : MeshPacket) : Prop :=
  (s.held d)[q'.packetId]? = some q' ∨ ((∃ dst ∈ devices, dst.deviceId = d) ∧
    ∃ src ∈ devices, ∃ q, (s.held src.deviceId)[q'.packetId]? = some q ∧ 0 < q.ttl ∧ q' = q.copy)

/-- Whatever is on a device after a round has been there before or has been handed on to it. -/
theorem gossipAmong_handed (packets : String → IterOrder) (devices : List VirtualDevice) {s : Server}
    (hs : HeldAll (fun _ => True) s) :
    ((gossipAmong packets devices).run s).2.HoldsOnly (HandedAmong devices s) := by
  have hcopies : ∀ source ∈ devices.map fun d => (d, VirtualDevice.getHeldPackets
      (packets d.deviceId) (s.held d.deviceId)), ∀ q ∈ source.2, 0 < q.ttl →
        ∀ dst ∈ devices, HandedAmong devices s dst.deviceId q.copy := by
    intro source hsource q hq httl dst hdst
    obtain ⟨src, hsrc, rfl⟩ := List.mem_map.mp hsource
    obtain ⟨k, hk⟩ := VirtualDevice.mem_getHeldPackets.mp hq
    obtain ⟨rfl, -⟩ := hs src.deviceId k q hk
    exact Or.inr ⟨⟨dst, hdst, rfl⟩, src, hsrc, q, hk, httl, rfl⟩
  have hstart : s.HoldsOnly (HandedAmong devices s) := by
    intro d k q hq
    obtain ⟨rfl, -⟩ := hs d k q hq
    exact ⟨rfl, Or.inl hq⟩
  have hmaintains : (spreadAll devices (devices.map fun d =>
      (d, VirtualDevice.getHeldPackets (packets d.deviceId) (s.held d.deviceId)))).Maintains
        Action.exec (Server.HoldsOnly (HandedAmong devices s)) (fun _ => True) :=
    (spreadAll_follows (g := ()) hcopies).maintains (fun _ _ _ => trivial)
      (fun _ _ _ ha hinv => (FilesOnly.exec ha hinv).1)
      (fun _ _ _ ha hinv => (FilesOnly.exec ha hinv).2)
  rw [run_gossipAmong]
  exact (hmaintains.run hstart).1

/-- What a round with the reply `result` does to some devices. -/
structure GossipEffect (devices : List VirtualDevice) (s : Server) (result : GossipResult)
    (s' : Server) : Prop where
  kept : Extends s s'
  mem_iff : ∀ d ∈ devices, ∀ k : String, k ∈ s'.held d.deviceId ↔ k ∈ s.held d.deviceId ∨
    ∃ src ∈ devices, src ≠ d ∧ ∃ q, (s.held src.deviceId)[k]? = some q ∧ 0 < q.ttl
  copies : ∀ d ∈ devices, ∀ (k : String) (q' : MeshPacket), k ∉ s.held d.deviceId →
    (s'.held d.deviceId)[k]? = some q' → ∃ src ∈ devices, src ≠ d ∧
      ∃ q, (s.held src.deviceId)[k]? = some q ∧ 0 < q.ttl ∧ q' = q.copy
  others : ∀ d, (∀ dst ∈ devices, dst.deviceId ≠ d) → s'.held d = s.held d
  transfers : s'.total (devices.map (·.deviceId)).toFinset =
    s.total (devices.map (·.deviceId)).toFinset + result.transfers
  counts : ∀ k : String, result.deviceCounts[k]? =
    if k ∈ devices.map (·.deviceId) then some (s'.held k).size else none

section Effect

variable {devices : List VirtualDevice} {s : Server}

/-- A new copy comes from another device, since the device itself does not hold the packet. -/
theorem HandedAmong.new {d : VirtualDevice} {q' : MeshPacket}
    (h : HandedAmong devices s d.deviceId q') (hnew : q'.packetId ∉ s.held d.deviceId) :
    ∃ src ∈ devices, src ≠ d ∧
      ∃ q, (s.held src.deviceId)[q'.packetId]? = some q ∧ 0 < q.ttl ∧ q' = q.copy := by
  rcases h with hkept | ⟨-, src, hsrc, q, hq, httl, hcopy⟩
  · exact absurd (mem_of_getElem?_eq_some hkept) hnew
  · refine ⟨src, hsrc, ?_, q, hq, httl, hcopy⟩
    rintro rfl
    exact hnew (mem_of_getElem?_eq_some hq)

/-- The effect of a round that walks over the devices in the listed order. -/
theorem gossipAmong_effect (packets : String → IterOrder) (devices : List VirtualDevice)
    (hs : HeldAll (fun _ => True) s) :
    GossipEffect devices s ((gossipAmong packets devices).run s).1
      ((gossipAmong packets devices).run s).2 := by
  obtain ⟨s', hs', hkept, -, hreached⟩ :=
    gossipAmong_spreads packets devices (fun _ _ => trivial) hs
  have hhanded := gossipAmong_handed packets devices hs
  have htransfers := gossipAmong_transfers packets devices s
  have hcounts : ∀ k : String, ((gossipAmong packets devices).run s).1.deviceCounts[k]? =
      if k ∈ devices.map (·.deviceId) then
        some (((gossipAmong packets devices).run s).2.held k).size else none := by
    intro k
    rw [run_gossipAmong]
    exact getElem?_snapshotMap devices _ k
  rw [← hs'] at hhanded htransfers hcounts ⊢
  refine ⟨hkept, fun d hd k => ⟨fun hk => ?_, ?_⟩, fun d hd k q' hnew hq' => ?_, fun d hd => ?_,
    htransfers, hcounts⟩
  · by_cases hold : k ∈ s.held d.deviceId
    · exact Or.inl hold
    · obtain ⟨q', hq'⟩ := mem_iff_exists_getElem?.mp hk
      obtain ⟨rfl, hfrom⟩ := hhanded d.deviceId k q' hq'
      obtain ⟨src, hsrc, hne, q, hq, httl, -⟩ := hfrom.new hold
      exact Or.inr ⟨src, hsrc, hne, q, hq, httl⟩
  · rintro (hold | ⟨src, hsrc, -, q, hq, httl⟩)
    · exact hkept.mem hold
    · exact hreached src hsrc k q hq httl d hd
  · obtain ⟨rfl, hfrom⟩ := hhanded d.deviceId k q' hq'
    exact hfrom.new hnew
  · apply ExtTreeMap.ext_getElem?
    intro k
    apply Option.ext
    intro q
    refine ⟨fun hq => ?_, hkept.held d k q⟩
    obtain ⟨rfl, hold | ⟨⟨dst, hdst, hid⟩, -⟩⟩ := hhanded d k q hq
    · exact hold
    · exact absurd hid (hd dst hdst)

end Effect

/-- The effect does not depend on how the devices are listed. -/
theorem GossipEffect.perm {devices devices' : List VirtualDevice} {s s' : Server}
    {result : GossipResult} (h : GossipEffect devices' s result s') (hperm : devices'.Perm devices) :
    GossipEffect devices s result s' := by
  have hids : (devices'.map (·.deviceId)).toFinset = (devices.map (·.deviceId)).toFinset :=
    List.toFinset_eq_of_perm _ _ (hperm.map _)
  refine ⟨h.kept, fun d hd k => ?_, fun d hd => ?_, fun d hd => ?_, ?_, fun k => ?_⟩
  · simpa only [hperm.mem_iff] using h.mem_iff d (hperm.mem_iff.mpr hd) k
  · simpa only [hperm.mem_iff] using h.copies d (hperm.mem_iff.mpr hd)
  · exact h.others d fun dst hdst => hd dst (hperm.mem_iff.mp hdst)
  · rw [← hids]
    exact h.transfers
  · simpa only [(hperm.map _).mem_iff] using h.counts k

/-- On any devices with any packets, in any iteration orders, a gossip round has its exact effect. -/
theorem gossip_effect (devices : List VirtualDevice) (order : MeshOrder) (s : Server)
    (hfiled : HeldAll (fun _ => True) s) :
    GossipEffect devices s ((gossipAmong order.packets (order.devices devices)).run s).1
      ((gossipAmong order.packets (order.devices devices)).run s).2 :=
  (gossipAmong_effect order.packets (order.devices devices) hfiled).perm (order.devices_perm devices)

/-- Two phones hold the same packet, one of them with no hop left. -/
def twoCopies : Server :=
  (Server.initial.updateDevice "phone-alice" (VirtualDevice.hold ⟨"p1", 0, 0, "c1"⟩)).updateDevice
    "phone-stranger1" (VirtualDevice.hold ⟨"p1", 1, 0, "c1"⟩)

theorem heldAll_twoCopies : HeldAll (fun _ => True) twoCopies :=
  HeldAll.hold (HeldAll.hold (Server.holdsOnly_initial _) trivial _) trivial _

/-- The bridge gets its copy from the other one. -/
theorem gossip_effect_two_copies :
    GossipEffect defaultDevices twoCopies ((gossipOnce .listed).run twoCopies).1
        ((gossipOnce .listed).run twoCopies).2 ∧
      (((gossipOnce .listed).run twoCopies).2.held "phone-bridge").contains "p1" = true := by
  refine ⟨gossip_effect defaultDevices .listed twoCopies heldAll_twoCopies, ?_⟩
  decide +kernel

end UpiMesh
