import UpiMesh.Types
import Std.Data.ExtTreeMap.Lemmas

/-!
# The in-memory stores

The contents of a `VirtualDevice` and of the `IdempotencyService`. Both are `std::unordered_map`s in
the source: a map here is extensional, and every traversal is given an `IterOrder`, an arbitrary
rearrangement of the keys that stands for the order of the buckets.
-/

namespace UpiMesh

open Std (ExtTreeMap)

/-- An iteration order of a hash map. -/
structure IterOrder where
  arrange : List String → List String
  perm : ∀ l, (arrange l).Perm l

/-- The sorted order. -/
def IterOrder.sorted : IterOrder := ⟨id, fun _ => .refl _⟩

theorem mem_iff_exists_getElem? {V : Type} {m : ExtTreeMap String V} {k : String} :
    k ∈ m ↔ ∃ v, m[k]? = some v := by
  rw [ExtTreeMap.mem_iff_isSome_getElem?, Option.isSome_iff_exists]

theorem mem_of_getElem?_eq_some {V : Type} {m : ExtTreeMap String V} {k : String} {v : V}
    (h : m[k]? = some v) : k ∈ m := mem_iff_exists_getElem?.mpr ⟨v, h⟩

abbrev HeldPackets := ExtTreeMap String MeshPacket

namespace VirtualDevice

def hold (packet : MeshPacket) (held : HeldPackets) : HeldPackets :=
  held.insert packet.packetId packet

def holds (packetId : String) (held : HeldPackets) : Bool := held.contains packetId

def packetCount (held : HeldPackets) : ℕ := held.size

def getHeldPackets (order : IterOrder) (held : HeldPackets) : List MeshPacket :=
  (order.arrange held.keys).filterMap (held[·]?)

theorem mem_getHeldPackets {order : IterOrder} {held : HeldPackets} {packet : MeshPacket} :
    packet ∈ getHeldPackets order held ↔ ∃ packetId : String, held[packetId]? = some packet := by
  simp only [getHeldPackets, List.mem_filterMap, (order.perm _).mem_iff, ExtTreeMap.mem_keys]
  constructor
  · rintro ⟨packetId, _, h⟩
    exact ⟨packetId, h⟩
  · rintro ⟨packetId, h⟩
    exact ⟨packetId, mem_of_getElem?_eq_some h, h⟩

end VirtualDevice

/-- `seen_`: when each hash was claimed. -/
abbrev SeenHashes := ExtTreeMap String ℤ

namespace IdempotencyService

def ttlSeconds : ℤ := 86400

/-- `insert` keeps the timestamp of a hash that is already there. -/
def claim (packetHash : String) (now : ℤ) (seen : SeenHashes) : Bool × SeenHashes :=
  (!seen.contains packetHash, seen.insertIfNew packetHash now)

/-- One pass of the evictor thread. -/
def evictExpired (now : ℤ) (seen : SeenHashes) : SeenHashes :=
  seen.filter fun _ claimedAt => ¬ claimedAt < now - ttlSeconds * 1000

theorem getElem?_claim (packetHash h : String) (now : ℤ) (seen : SeenHashes) :
    (claim packetHash now seen).2[h]? =
      if packetHash = h ∧ packetHash ∉ seen then some now else seen[h]? := by
  simp only [claim, ExtTreeMap.getElem?_insertIfNew, Std.compare_eq_iff_eq]

theorem mem_claim (packetHash h : String) (now : ℤ) (seen : SeenHashes) :
    h ∈ (claim packetHash now seen).2 ↔ packetHash = h ∨ h ∈ seen := by
  simp only [claim, ExtTreeMap.mem_insertIfNew, Std.compare_eq_iff_eq]

/-- Claiming a hash that is taken changes nothing. -/
theorem claim_of_mem {packetHash : String} {now : ℤ} {seen : SeenHashes} (h : packetHash ∈ seen) :
    claim packetHash now seen = (false, seen) := by
  refine Prod.ext (by simpa [claim] using h) ?_
  apply ExtTreeMap.ext_getElem?
  intro k
  rw [getElem?_claim, if_neg fun hk => hk.2 h]

theorem claim_fst_of_notMem {packetHash : String} {now : ℤ} {seen : SeenHashes}
    (h : packetHash ∉ seen) : (claim packetHash now seen).1 = true := by
  have hc : seen.contains packetHash = false := by
    rwa [ExtTreeMap.mem_iff_contains, Bool.not_eq_true] at h
  simp only [claim, hc, Bool.not_false]

theorem getElem?_evictExpired (now : ℤ) (seen : SeenHashes) (h : String) :
    (evictExpired now seen)[h]? =
      seen[h]?.filter fun claimedAt => ¬ claimedAt < now - ttlSeconds * 1000 := by
  simp only [evictExpired, ExtTreeMap.getElem?_filter]
  rw [Option.pfilter_eq_filter]

theorem mem_of_mem_evictExpired {now : ℤ} {seen : SeenHashes} {h : String}
    (hmem : h ∈ evictExpired now seen) : h ∈ seen := by
  rw [ExtTreeMap.mem_iff_isSome_getElem?] at hmem ⊢
  rw [getElem?_evictExpired] at hmem
  exact Option.isSome_of_isSome_filter _ _ hmem

end IdempotencyService
end UpiMesh
