import UpiMesh.MeshActions

/-!
# Copies stay faithful

A gossip round checks `holds` and calls `hold` in separate steps and works from snapshots that other
rounds and resets overtake. Every packet in flight is nevertheless a copy of an injected one, with
nothing changed but its ttl, and copies are only made of packets that may still hop.
-/

namespace UpiMesh

open Concurrent

/-- The packet `q` on device `d` is what was injected at the device `start`, or a copy of it. -/
structure CopyOf (start : String) (injected : MeshPacket) (d : String) (q : MeshPacket) : Prop where
  packetId : q.packetId = injected.packetId
  createdAt : q.createdAt = injected.createdAt
  ciphertext : q.ciphertext = injected.ciphertext
  ttl_le : q.ttl ≤ injected.ttl
  nonneg : q.ttl < injected.ttl → 0 ≤ q.ttl
  confined : injected.ttl ≤ 0 → d = start

theorem CopyOf.refl (start : String) (packet : MeshPacket) : CopyOf start packet start packet :=
  ⟨rfl, rfl, rfl, le_refl _, fun h => absurd h (lt_irrefl _), fun _ => rfl⟩

theorem CopyOf.copy {start src : String} {injected q : MeshPacket}
    (h : CopyOf start injected src q) (hpos : 0 < q.ttl) (dst : String) :
    CopyOf start injected dst q.copy := by
  have hle := h.ttl_le
  refine ⟨h.packetId, h.createdAt, h.ciphertext, ?_, fun _ => ?_, fun hstuck => ?_⟩
  · change q.ttl - 1 ≤ injected.ttl
    omega
  · change 0 ≤ q.ttl - 1
    omega
  · omega

section Pool

variable {ι : Type} (ops : ι → MeshOp)

/-- The packet comes from one of the injections. -/
def Injected (d : String) (q : MeshPacket) : Prop :=
  ∃ i start packet, ops i = .inject start packet ∧ CopyOf start packet d q

/-- No two injections use the same packet id. -/
def FreshIds : Prop :=
  ∀ i j start start' packet packet', ops i = .inject start packet → ops j = .inject start' packet' →
    packet.packetId = packet'.packetId → i = j

variable {ops}

theorem follows_injected (devices : List VirtualDevice) (i : ι) :
    ((ops i).program devices).Follows (meshProtocol (Injected ops)) (fun _ _ => True) () := by
  refine MeshOp.follows (fun src q hq hpos dst => ?_) devices fun d packet hop => ?_
  · obtain ⟨j, start, packet, hj, hcopy⟩ := hq
    exact ⟨j, start, packet, hj, hcopy.copy hpos dst⟩
  · exact ⟨i, d, packet, hop, .refl d packet⟩

/-- In every reachable state a held packet is filed under its own id, and it is a faithful copy of
the packet that was injected under that id. -/
theorem copies_stay_faithful [DecidableEq ι] (devices : List VirtualDevice) (hfresh : FreshIds ops)
    (trace : List (ι × Action)) (c : Pool ι Action Action.Response Unit Server)
    (hrun : Pool.Run Action.exec Pool.AnyStep
      ⟨Server.initial, fun i => (ops i).program devices⟩ trace c)
    (d k : String) (q : MeshPacket) (hq : (c.shared.held d)[k]? = some q) :
    q.packetId = k ∧ (∃ i start packet, ops i = .inject start packet ∧ packet.packetId = k) ∧
      ∀ i start packet, ops i = .inject start packet → packet.packetId = k →
        CopyOf start packet d q := by
  obtain ⟨_, hinv, _⟩ := hrun.follow (preserved_holdsOnly (Injected ops)) (γ := fun _ => ())
    (Server.holdsOnly_initial _) (follows_injected devices)
  obtain ⟨rfl, i, start, packet, hi, hcopy⟩ := hinv d k q hq
  refine ⟨rfl, ⟨i, start, packet, hi, hcopy.packetId.symm⟩, fun j start' packet' hj hid => ?_⟩
  obtain rfl := hfresh j i _ _ _ _ hj hi (hid.trans hcopy.packetId)
  obtain ⟨rfl, rfl⟩ := MeshOp.inject.inj (hi.symm.trans hj)
  exact hcopy

end Pool

/-- A packet that is sent, a gossip round and a reset. -/
def sendGossipReset : Fin 3 → MeshOp
  | 0 => .inject "phone-alice" ⟨"p1", 2, 0, "c1"⟩
  | 1 => .gossipOnce .listed
  | 2 => .resetMesh .listed

/-- The reset comes between the reads of the round and its writes. -/
theorem copies_stay_faithful_overtaken :
    ∃ trace c q, Pool.Run Action.exec Pool.AnyStep ⟨Server.initial, fun i =>
        (sendGossipReset i).program MeshSimulatorService.defaultDevices⟩ trace c ∧
      (c.shared.held "phone-bridge")["p1"]? = some q ∧
      CopyOf "phone-alice" ⟨"p1", 2, 0, "c1"⟩ "phone-bridge" q := by
  let start : Pool (Fin 3) Action Action.Response Unit Server :=
    ⟨Server.initial, fun i => (sendGossipReset i).program MeshSimulatorService.defaultDevices⟩
  let schedule : List (Fin 3) :=
    [0] ++ List.replicate 5 1 ++ List.replicate 5 2 ++ List.replicate 13 1
  obtain ⟨trace, hrun⟩ :=
    Pool.Run.of_schedule (Pool.admissible_anyStep Action.exec schedule start)
  have hheld : ((schedule.foldl (Pool.advance Action.exec) start).shared.held
      "phone-bridge").contains "p1" = true := by decide +kernel
  obtain ⟨q, hq⟩ := mem_iff_exists_getElem?.mp (Std.ExtTreeMap.contains_iff_mem.mp hheld)
  have honly : ∀ i d packet, sendGossipReset i = .inject d packet → i = 0 := by
    intro i d packet h
    match i with
    | 0 => rfl
    | 1 => cases h
    | 2 => cases h
  have hfresh : FreshIds sendGossipReset := fun i j d d' packet packet' hi hj _ =>
    (honly i d packet hi).trans (honly j d' packet' hj).symm
  obtain ⟨_, _, hcopy⟩ := copies_stay_faithful MeshSimulatorService.defaultDevices hfresh trace _
    hrun "phone-bridge" "p1" q hq
  exact ⟨trace, _, q, hrun, hq, hcopy 0 _ _ rfl rfl⟩

end UpiMesh
