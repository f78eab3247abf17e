import UpiMesh.Lib.Protocol
import UpiMesh.MeshSpec

/-!
# The actions of the mesh operations

Whatever happens between its actions, a mesh operation files the packet it injects, and copies, with
the ttl reduced by one, of packets that it has read from a device and that may still hop. It works
from snapshots, which other operations may have overtaken; what it relies on is therefore a property
that a packet has on a device for good.
-/

namespace UpiMesh

open Concurrent

/-- The copy that gossip hands on. -/
abbrev MeshPacket.copy (packet : MeshPacket) : MeshPacket := { packet with ttl := packet.ttl - 1 }

/-- The actions of an operation that files only packets with the property. -/
inductive FilesOnly (F : String → MeshPacket → Prop) : Action → Prop
  | hold {d : String} {packet : MeshPacket} (h : F d packet) : FilesOnly F (.hold d packet)
  | holds {d packetId : String} : FilesOnly F (.holds d packetId)
  | packetCount {d : String} : FilesOnly F (.packetCount d)
  | getHeldPackets {d : String} {order : IterOrder} : FilesOnly F (.getHeldPackets d order)
  | clearDevice {d : String} : FilesOnly F (.clearDevice d)

/-- A device that is read holds packets with the property. -/
def FindsOnly (F : String → MeshPacket → Prop) : (a : Action) → a.Response → Prop
  | .getHeldPackets d _, packets => ∀ q ∈ packets, F d q
  | _, _ => True

def meshProtocol (F : String → MeshPacket → Prop) : Protocol Action Action.Response Unit :=
  .stateless (FilesOnly F) (FindsOnly F)

section Exec

variable {F : String → MeshPacket → Prop} {s : Server}

theorem Server.HoldsOnly.clear (h : s.HoldsOnly F) (d : String) :
    (s.updateDevice d fun _ => ∅).HoldsOnly F := by
  intro d' k q hq
  by_cases hd : d' = d
  · subst hd
    simp only [Server.updateDevice, Function.update_self, Std.ExtTreeMap.getElem?_empty,
      reduceCtorEq] at hq
  · simp only [Server.updateDevice, Function.update_of_ne hd] at hq
    exact h d' k q hq

theorem FilesOnly.exec {a : Action} (ha : FilesOnly F a) (h : s.HoldsOnly F) :
    FindsOnly F a (a.exec s).1 ∧ (a.exec s).2.HoldsOnly F := by
  cases ha with
  | hold hF => exact ⟨trivial, h.hold hF⟩
  | holds => exact ⟨trivial, h⟩
  | packetCount => exact ⟨trivial, h⟩
  | getHeldPackets =>
    refine ⟨fun q hq => ?_, h⟩
    obtain ⟨k, hk⟩ := VirtualDevice.mem_getHeldPackets.mp hq
    exact (h _ k q hk).2
  | clearDevice => exact ⟨trivial, h.clear _⟩

end Exec

namespace MeshSimulatorService

open VirtualDevice

/-- `inject` on a mesh with the given devices. -/
def injectInto (devices : List VirtualDevice) (senderDeviceId : String) (packet : MeshPacket) :
    Service (Except Exn Unit) :=
  match devices.find? (·.deviceId = senderDeviceId) with
  | none => pure (.error (unknownDevice senderDeviceId))
  | some sender => do
    callHold sender.deviceId packet
    pure (.ok ())

section Follows

variable {F : String → MeshPacket → Prop} {g : Unit}

theorem injectInto_follows {devices : List VirtualDevice} {senderDeviceId : String}
    {packet : MeshPacket} (h : F senderDeviceId packet) :
    (injectInto devices senderDeviceId packet).Follows (meshProtocol F) (fun _ _ => True) g := by
  unfold injectInto
  cases hfind : devices.find? (·.deviceId = senderDeviceId) with
  | none => exact trivial
  | some sender =>
    have hid : sender.deviceId = senderDeviceId := by simpa using List.find?_some hfind
    exact ⟨.hold (hid.symm ▸ h), fun _ _ => trivial⟩

theorem snapshot_follows (packets : String → IterOrder) (devices : List VirtualDevice) :
    (snapshot packets devices).Follows (meshProtocol F)
      (fun _ held => ∀ source ∈ held, ∀ q ∈ source.2, F source.1.deviceId q) g := by
  induction devices generalizing g with
  | nil => exact fun _ h => absurd h List.not_mem_nil
  | cons d devices ih =>
    refine ⟨.getHeldPackets, fun held hheld => ih.bind fun _ rest hrest => ?_⟩
    exact List.forall_mem_cons.mpr ⟨hheld, hrest⟩

theorem offer_follows {src : VirtualDevice} {packet : MeshPacket} {devices : List VirtualDevice}
    (h : ∀ dst ∈ devices, F dst.deviceId packet.copy) :
    (offer src packet devices).Follows (meshProtocol F) (fun _ _ => True) g := by
  induction devices generalizing g with
  | nil => exact trivial
  | cons dst devices ih =>
    obtain ⟨hdst, hdevices⟩ := List.forall_mem_cons.mp h
    unfold offer
    split_ifs
    · exact ih hdevices
    · refine ⟨.holds, fun held _ => ?_⟩
      cases held with
      | true => exact ih hdevices
      | false => exact ⟨.hold hdst, fun _ _ => (ih hdevices).bind fun _ _ _ => trivial⟩

theorem spread_follows {src : VirtualDevice} {packets : List MeshPacket}
    {devices : List VirtualDevice}
    (h : ∀ q ∈ packets, 0 < q.ttl → ∀ dst ∈ devices, F dst.deviceId q.copy) :
    (spread devices src packets).Follows (meshProtocol F) (fun _ _ => True) g := by
  induction packets generalizing g with
  | nil => exact trivial
  | cons packet packets ih =>
    obtain ⟨hpacket, hpackets⟩ := List.forall_mem_cons.mp h
    unfold spread
    split_ifs with httl
    · exact ih hpackets
    · refine (offer_follows (hpacket (not_le.mp httl))).bind fun _ _ _ => ?_
      exact (ih hpackets).bind fun _ _ _ => trivial

theorem spreadAll_follows {devices : List VirtualDevice}
    {sources : List (VirtualDevice × List MeshPacket)}
    (h : ∀ source ∈ sources, ∀ q ∈ source.2, 0 < q.ttl → ∀ dst ∈ devices, F dst.deviceId q.copy) :
    (spreadAll devices sources).Follows (meshProtocol F) (fun _ _ => True) g := by
  induction sources generalizing g with
  | nil => exact trivial
  | cons source sources ih =>
    obtain ⟨hsource, hsources⟩ := List.forall_mem_cons.mp h
    refine (spread_follows hsource).bind fun _ _ _ => ?_
    exact (ih hsources).bind fun _ _ _ => trivial

theorem snapshotMap_follows (devices : List VirtualDevice) :
    (snapshotMap devices).Follows (meshProtocol F) (fun _ _ => True) g := by
  induction devices generalizing g with
  | nil => exact trivial
  | cons d devices ih => exact ⟨.packetCount, fun _ _ => ih.bind fun _ _ _ => trivial⟩

theorem gossipAmong_follows (hF : ∀ src q, F src q → 0 < q.ttl → ∀ dst, F dst q.copy)
    (packets : String → IterOrder) (devices : List VirtualDevice) :
    (gossipAmong packets devices).Follows (meshProtocol F) (fun _ _ => True) g := by
  refine (snapshot_follows packets devices).bind fun _ held hheld => ?_
  have hcopies : ∀ source ∈ held, ∀ q ∈ source.2, 0 < q.ttl →
      ∀ dst ∈ devices, F dst.deviceId q.copy :=
    fun source hsource q hq httl dst _ => hF _ q (hheld source hsource q hq) httl dst.deviceId
  refine (spreadAll_follows hcopies).bind fun _ _ _ => ?_
  exact (snapshotMap_follows devices).bind fun _ _ _ => trivial

theorem collectFrom_follows (packets : String → IterOrder) (devices : List VirtualDevice) :
    (collectFrom packets devices).Follows (meshProtocol F)
      (fun _ uploads => ∀ up ∈ uploads, F up.bridgeNodeId up.packet) g := by
  induction devices generalizing g with
  | nil => exact fun _ h => absurd h List.not_mem_nil
  | cons d devices ih =>
    unfold collectFrom
    split_ifs
    · refine ⟨.getHeldPackets, fun held hheld => ih.bind fun _ rest hrest up hup => ?_⟩
      rcases List.mem_append.mp hup with hup | hup
      · obtain ⟨q, hq, rfl⟩ := List.mem_map.mp hup
        exact hheld q hq
      · exact hrest up hup
    · exact ih

theorem clearAll_follows (devices : List VirtualDevice) :
    (clearAll devices).Follows (meshProtocol F) (fun _ _ => True) g := by
  induction devices generalizing g with
  | nil => exact trivial
  | cons d devices ih => exact ⟨.clearDevice, fun _ _ => ih⟩

end Follows

end MeshSimulatorService

/-- An operation on the devices. -/
inductive MeshOp where
  | inject (senderDeviceId : String) (packet : MeshPacket)
  | gossipOnce (order : MeshOrder)
  | resetMesh (order : MeshOrder)

namespace MeshOp

open MeshSimulatorService

/-- The operation on a mesh with the given devices, without its reply. -/
def program (devices : List VirtualDevice) : MeshOp → Service Unit
  | .inject senderDeviceId packet => do
    let _ ← injectInto devices senderDeviceId packet
    pure ()
  | .gossipOnce order => do
    let _ ← gossipAmong order.packets (order.devices devices)
    pure ()
  | .resetMesh order => clearAll (order.devices devices)

/-- On the devices that the constructor seeds these are the operations of the simulator. -/
theorem program_defaultDevices (op : MeshOp) :
    op.program defaultDevices = match op with
      | .inject senderDeviceId packet => do
        let _ ← MeshSimulatorService.inject senderDeviceId packet
        pure ()
      | .gossipOnce order => do
        let _ ← MeshSimulatorService.gossipOnce order
        pure ()
      | .resetMesh order => MeshSimulatorService.resetMesh order := by
  cases op with
  | inject senderDeviceId packet => rfl
  | gossipOnce order => rfl
  | resetMesh order => rfl

/-- An operation files copies of what it finds, and the packet it injects. -/
theorem follows {F : String → MeshPacket → Prop} {g : Unit}
    (hF : ∀ src q, F src q → 0 < q.ttl → ∀ dst, F dst q.copy) (devices : List VirtualDevice)
    {op : MeshOp} (hop : ∀ d packet, op = .inject d packet → F d packet) :
    (op.program devices).Follows (meshProtocol F) (fun _ _ => True) g := by
  cases op with
  | inject d packet => exact (injectInto_follows (hop d packet rfl)).bind fun _ _ _ => trivial
  | gossipOnce order => exact (gossipAmong_follows hF _ _).bind fun _ _ _ => trivial
  | resetMesh order => exact clearAll_follows _

end MeshOp

/-- What the devices hold keeps the property under every schedule. -/
theorem preserved_holdsOnly {ι : Type} [DecidableEq ι] (F : String → MeshPacket → Prop) :
    Pool.Preserved Action.exec Pool.AnyStep (meshProtocol F)
      (fun s (_ : ι → Unit) => s.HoldsOnly F) where
  responds _ _ _ _ hinv ha _ := (FilesOnly.exec ha hinv).1
  keeps _ _ _ _ hinv ha _ := (FilesOnly.exec ha hinv).2

end UpiMesh
