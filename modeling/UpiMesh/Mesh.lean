import UpiMesh.Server

/-!
# MeshSimulatorService

The virtual devices are fixed at construction. Each operation walks over `devices_` and over the
packets of a device in some bucket order, which `MeshOrder` supplies.
-/

namespace UpiMesh

open Concurrent
open Std (ExtTreeMap)

/-- A device without the packets it holds, which are part of the server state. -/
structure VirtualDevice where
  deviceId : String
  hasInternet : Bool
  deriving DecidableEq, Repr

structure MeshOrder where
  devices : List VirtualDevice → List VirtualDevice
  packets : String → IterOrder
  devices_perm : ∀ l, (devices l).Perm l

/-- The order of `seedDefaultDevices`, with sorted packets. -/
def MeshOrder.listed : MeshOrder := ⟨id, fun _ => .sorted, fun _ => .refl _⟩

structure GossipResult where
  transfers : ℕ
  deviceCounts : ExtTreeMap String ℕ

structure BridgeUpload where
  bridgeNodeId : String
  packet : MeshPacket
  deriving DecidableEq, Repr

namespace VirtualDevice

def callHold (deviceId : String) (packet : MeshPacket) : Service Unit :=
  Program.call (Action.hold deviceId packet)

def callHolds (deviceId packetId : String) : Service Bool :=
  Program.call (Action.holds deviceId packetId)

def callPacketCount (deviceId : String) : Service ℕ := Program.call (Action.packetCount deviceId)

def callGetHeldPackets (deviceId : String) (order : IterOrder) : Service (List MeshPacket) :=
  Program.call (Action.getHeldPackets deviceId order)

def callClear (deviceId : String) : Service Unit := Program.call (Action.clearDevice deviceId)

end VirtualDevice

namespace MeshSimulatorService

open VirtualDevice

/-- `seedDefaultDevices`. -/
def defaultDevices : List VirtualDevice :=
  [⟨"phone-alice", false⟩, ⟨"phone-stranger1", false⟩, ⟨"phone-stranger2", false⟩,
    ⟨"phone-stranger3", false⟩, ⟨"phone-bridge", true⟩]

def getDevices (order : MeshOrder) : List VirtualDevice := order.devices defaultDevices

def getDevice (id : String) : Option VirtualDevice := defaultDevices.find? (·.deviceId = id)

def unknownDevice (id : String) : Exn := .invalidArgument ("Unknown device: " ++ id)

def inject (senderDeviceId : String) (packet : MeshPacket) : Service (Except Exn Unit) :=
  match getDevice senderDeviceId with
  | none => pure (.error (unknownDevice senderDeviceId))
  | some sender => do
    callHold sender.deviceId packet
    pure (.ok ())

/-- What each device holds when gossip asks it, one device after another. -/
def snapshot (packets : String → IterOrder) :
    List VirtualDevice → Service (List (VirtualDevice × List MeshPacket))
  | [] => pure []
  | d :: devices => do
    let held ← callGetHeldPackets d.deviceId (packets d.deviceId)
    let rest ← snapshot packets devices
    pure ((d, held) :: rest)

/-- The innermost loop: one packet of `src` is offered to every other device. -/
def offer (src : VirtualDevice) (packet : MeshPacket) : List VirtualDevice → Service ℕ
  | [] => pure 0
  | dst :: devices =>
    if dst = src then offer src packet devices
    else do
      if ← callHolds dst.deviceId packet.packetId then offer src packet devices
      else do
        callHold dst.deviceId { packet with ttl := packet.ttl - 1 }
        let transfers ← offer src packet devices
        pure (transfers + 1)

def spread (devices : List VirtualDevice) (src : VirtualDevice) : List MeshPacket → Service ℕ
  | [] => pure 0
  | packet :: held =>
    if packet.ttl ≤ 0 then spread devices src held
    else do
      let transfers ← offer src packet devices
      let rest ← spread devices src held
      pure (transfers + rest)

def spreadAll (devices : List VirtualDevice) :
    List (VirtualDevice × List MeshPacket) → Service ℕ
  | [] => pure 0
  | (src, held) :: sources => do
    let transfers ← spread devices src held
    let rest ← spreadAll devices sources
    pure (transfers + rest)

def snapshotMap : List VirtualDevice → Service (ExtTreeMap String ℕ)
  | [] => pure ∅
  | d :: devices => do
    let count ← callPacketCount d.deviceId
    let rest ← snapshotMap devices
    pure (rest.insert d.deviceId count)

def gossipOnce (order : MeshOrder) : Service GossipResult := do
  let devices := getDevices order
  let held ← snapshot order.packets devices
  let transfers ← spreadAll devices held
  let counts ← snapshotMap devices
  pure ⟨transfers, counts⟩

def collectFrom (packets : String → IterOrder) : List VirtualDevice → Service (List BridgeUpload)
  | [] => pure []
  | d :: devices =>
    if d.hasInternet then do
      let held ← callGetHeldPackets d.deviceId (packets d.deviceId)
      let rest ← collectFrom packets devices
      pure (held.map (⟨d.deviceId, ·⟩) ++ rest)
    else collectFrom packets devices

def collectBridgeUploads (order : MeshOrder) : Service (List BridgeUpload) :=
  collectFrom order.packets (getDevices order)

def clearAll : List VirtualDevice → Service Unit
  | [] => pure ()
  | d :: devices => do
    callClear d.deviceId
    clearAll devices

def resetMesh (order : MeshOrder) : Service Unit := clearAll (getDevices order)

end MeshSimulatorService
end UpiMesh
