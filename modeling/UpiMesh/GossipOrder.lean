import UpiMesh.GossipSaturation

/-!
# Gossip and iteration orders

A gossip round tests `holds` on the live devices while it reads from a snapshot, so with two copies
of a packet the source that is visited first decides the ttl of the next one. Without interference
this never happens: an id is on at most one device, or on all of them. In such a state every device
that a round reaches can only be reached from one source, whatever the iteration orders are, and the
number of transfers is the number of packets gained.
-/

namespace UpiMesh

open Concurrent MeshSimulatorService
open Std (ExtTreeMap)

/-- A round makes one transfer for every packet that the devices gain. -/
theorem gossipOnce_transfers (order : MeshOrder) (s : Server) :
    ((gossipOnce order).run s).2.total (defaultDevices.map (·.deviceId)).toFinset =
      s.total (defaultDevices.map (·.deviceId)).toFinset + ((gossipOnce order).run s).1.transfers := by
  have hids : ((getDevices order).map (·.deviceId)).toFinset =
      (defaultDevices.map (·.deviceId)).toFinset :=
    List.toFinset_eq_of_perm _ _ ((order.devices_perm defaultDevices).map _)
  rw [← hids]
  exact gossipAmong_transfers order.packets (getDevices order) s

/-- Every packet id is on at most one of the devices, or on all of them, and every packet is filed
under its own id. -/
structure Server.Tidy (s : Server) : Prop where
  filed : HeldAll (fun _ => True) s
  lone : ∀ (k : String), ∀ d₁ ∈ defaultDevices, ∀ d₂ ∈ defaultDevices, d₁ ≠ d₂ →
    k ∈ s.held d₁.deviceId → k ∈ s.held d₂.deviceId → ∀ d ∈ defaultDevices, k ∈ s.held d.deviceId

/-- A packet `q'` on device `d` that was there before the round, or that is the copy of a packet that
was on some device. -/
def Handed (s : Server) (d : String) (q' : MeshPacket) : Prop :=
  (s.held d)[q'.packetId]? = some q' ∨ ((∃ dst ∈ defaultDevices, dst.deviceId = d) ∧
    ∃ src ∈ defaultDevices, ∃ q, (s.held src.deviceId)[q'.packetId]? = some q ∧ 0 < q.ttl ∧
      q' = q.copy)

section Round

variable {s : Server}

/-- Whatever is on a device after a round has been there before or has been handed on to it. -/
theorem gossipOnce_handed (order : MeshOrder) (hs : HeldAll (fun _ => True) s) :
    ((gossipOnce order).run s).2.HoldsOnly (Handed s) := by
  have hmem : ∀ d, d ∈ getDevices order ↔ d ∈ defaultDevices :=
    fun d => (order.devices_perm defaultDevices).mem_iff
  intro d k q hq
  obtain ⟨hkey, hkept | ⟨⟨dst, hdst, hd⟩, src, hsrc, p, hp⟩⟩ :=
    gossipAmong_handed order.packets (getDevices order) hs d k q hq
  · exact ⟨hkey, Or.inl hkept⟩
  · exact ⟨hkey, Or.inr ⟨⟨dst, (hmem dst).mp hdst, hd⟩, src, (hmem src).mp hsrc, p, hp⟩⟩

/-- A device gets a packet that it does not hold from the only device that does. -/
theorem Server.Tidy.copy_unique (h : s.Tidy) {d k : String} (hnew : k ∉ s.held d)
    {q₁ q₂ : MeshPacket} (hk₁ : q₁.packetId = k) (h₁ : Handed s d q₁) (hk₂ : q₂.packetId = k)
    (h₂ : Handed s d q₂) : q₁ = q₂ := by
  have hcopied : ∀ {q' : MeshPacket}, q'.packetId = k → Handed s d q' →
      (∃ dst ∈ defaultDevices, dst.deviceId = d) ∧ ∃ src ∈ defaultDevices, ∃ q,
        (s.held src.deviceId)[k]? = some q ∧ q' = q.copy := by
    rintro q' rfl (hkept | ⟨hdst, src, hsrc, q, hq, _, rfl⟩)
    · exact absurd (mem_of_getElem?_eq_some hkept) hnew
    · exact ⟨hdst, src, hsrc, q, hq, rfl⟩
  obtain ⟨⟨dst, hdst, rfl⟩, src₁, hsrc₁, p₁, hp₁, rfl⟩ := hcopied hk₁ h₁
  obtain ⟨-, src₂, hsrc₂, p₂, hp₂, rfl⟩ := hcopied hk₂ h₂
  by_cases hsame : src₁ = src₂
  · subst hsame
    rw [Option.some.inj (hp₁.symm.trans hp₂)]
  · exact absurd (h.lone k src₁ hsrc₁ src₂ hsrc₂ hsame (mem_of_getElem?_eq_some hp₁)
      (mem_of_getElem?_eq_some hp₂) dst hdst) hnew

/-- A packet that is on a device after a round in one order is there after a round in any other. -/
theorem Server.Tidy.gossipOnce_le (h : s.Tidy) (order order' : MeshOrder) {d k : String}
    {q : MeshPacket} (hq : (((gossipOnce order).run s).2.held d)[k]? = some q) :
    (((gossipOnce order').run s).2.held d)[k]? = some q := by
  obtain ⟨s₁, rfl, hkept₁, -, -⟩ := gossipOnce_spreads order (fun _ _ => trivial) h.filed
  obtain ⟨s₂, rfl, hkept₂, -, hreached⟩ := gossipOnce_spreads order' (fun _ _ => trivial) h.filed
  by_cases hold : k ∈ s.held d
  · obtain ⟨q₀, hq₀⟩ := mem_iff_exists_getElem?.mp hold
    rw [hkept₁.held d k q₀ hq₀] at hq
    rw [← hq]
    exact hkept₂.held d k q₀ hq₀
  · obtain ⟨hkey, hhanded⟩ := gossipOnce_handed order h.filed d k q hq
    have hmem : k ∈ ((gossipOnce order').run s).2.held d := by
      rcases hhanded with hkept | ⟨⟨dst, hdst, rfl⟩, src, hsrc, p, hp, httl, -⟩
      · exact absurd (mem_of_getElem?_eq_some (hkey ▸ hkept)) hold
      · exact hreached src hsrc k p (hkey ▸ hp) httl dst hdst
    obtain ⟨q', hq'⟩ := mem_iff_exists_getElem?.mp hmem
    obtain ⟨hkey', hhanded'⟩ := gossipOnce_handed order' h.filed d k q' hq'
    rw [hq', h.copy_unique hold hkey hhanded hkey' hhanded']

/-- In a tidy state neither the devices after a round nor its reply depend on the orders. -/
theorem Server.Tidy.gossipOnce_eq (h : s.Tidy) (order order' : MeshOrder) :
    (gossipOnce order).run s = (gossipOnce order').run s := by
  have hheld : ((gossipOnce order).run s).2.held = ((gossipOnce order').run s).2.held := by
    funext d
    apply ExtTreeMap.ext_getElem?
    intro k
    apply Option.ext
    intro q
    exact ⟨h.gossipOnce_le order order', h.gossipOnce_le order' order⟩
  obtain ⟨s₁, rfl, hkept₁, -, -⟩ := gossipOnce_spreads order (fun _ _ => trivial) h.filed
  obtain ⟨s₂, rfl, hkept₂, -, -⟩ := gossipOnce_spreads order' (fun _ _ => trivial) h.filed
  have hstate : ((gossipOnce order).run s).2 = ((gossipOnce order').run s).2 :=
    Server.ext hheld (hkept₁.seen.trans hkept₂.seen.symm) (hkept₁.db.trans hkept₂.db.symm)
  have htransfers : ((gossipOnce order).run s).1.transfers =
      ((gossipOnce order').run s).1.transfers := by
    have hfirst := gossipOnce_transfers order s
    have hsecond := gossipOnce_transfers order' s
    rw [hstate] at hfirst
    omega
  have hperm : (getDevices order).Perm (getDevices order') :=
    (order.devices_perm defaultDevices).trans (order'.devices_perm defaultDevices).symm
  have hcounts : ((gossipOnce order).run s).1.deviceCounts =
      ((gossipOnce order').run s).1.deviceCounts := by
    rw [run_gossipOnce, run_gossipOnce] at hheld ⊢
    exact snapshotMap_perm hperm hheld
  generalize (gossipOnce order).run s = out at hstate htransfers hcounts ⊢
  generalize (gossipOnce order').run s = out' at hstate htransfers hcounts ⊢
  obtain ⟨⟨transfers, counts⟩, s₁⟩ := out
  obtain ⟨⟨transfers', counts'⟩, s₂⟩ := out'
  subst hstate htransfers hcounts
  rfl

end Round

/-- The server after the operation has run without interference. -/
def MeshOp.exec (op : MeshOp) (s : Server) : Server := ((op.program defaultDevices).run s).2

/-- Operations with fresh ids that inject the same id are one operation. -/
theorem MeshOp.inject_unique {ops : List MeshOp} (hnodup : (ops.filterMap packetId?).Nodup)
    {start₁ start₂ : String} {packet₁ packet₂ : MeshPacket}
    (h₁ : .inject start₁ packet₁ ∈ ops) (h₂ : .inject start₂ packet₂ ∈ ops)
    (hid : packet₁.packetId = packet₂.packetId) : start₁ = start₂ := by
  have hpairwise := List.pairwise_filterMap.mp hnodup
  have hsymm : Std.Symm fun op op' : MeshOp =>
      ∀ k, packetId? op = some k → ∀ k', packetId? op' = some k' → k ≠ k' :=
    ⟨fun _ _ h k hk k' hk' => (h k' hk' k hk).symm⟩
  by_contra hne
  have hops : inject start₁ packet₁ ≠ inject start₂ packet₂ := fun h => hne (inject.inj h).1
  exact hpairwise.forall h₁ h₂ hops packet₁.packetId rfl packet₂.packetId rfl hid

/-- After a run with fresh ids a packet on two devices has been copied, and copies are everywhere. -/
theorem OneHop.tidy {ops : List MeshOp} {s : Server} (h : OneHop defaultDevices ops s)
    (hnodup : (ops.filterMap MeshOp.packetId?).Nodup) : s.Tidy := by
  have hinj : ∀ d₁ ∈ defaultDevices, ∀ d₂ ∈ defaultDevices, d₁.deviceId = d₂.deviceId → d₁ = d₂ := by
    decide
  refine ⟨h.filed, fun k d₁ hd₁ d₂ hd₂ hne h₁ h₂ => ?_⟩
  obtain ⟨q₁, hq₁⟩ := mem_iff_exists_getElem?.mp h₁
  obtain ⟨q₂, hq₂⟩ := mem_iff_exists_getElem?.mp h₂
  obtain ⟨start₁, packet₁, hop₁, hid₁, ⟨hstart₁, -⟩ | ⟨-, -, hall⟩⟩ := h.origin _ _ _ hq₁
  · obtain ⟨start₂, packet₂, hop₂, hid₂, ⟨hstart₂, -⟩ | ⟨-, -, hall⟩⟩ := h.origin _ _ _ hq₂
    · have hstart := MeshOp.inject_unique hnodup hop₁ hop₂ (hid₁.trans hid₂.symm)
      exact absurd (hinj d₁ hd₁ d₂ hd₂ (hstart₁.trans (hstart.trans hstart₂.symm))) hne
    · exact hall
  · exact hall

/-- In every state that a sequential run with fresh packet ids reaches, a gossip round leaves the same
packets on every device and reports the same numbers whatever the iteration orders are. -/
theorem gossip_order_irrelevant (ops : List MeshOp)
    (hfresh : (ops.filterMap MeshOp.packetId?).Nodup) (order order' : MeshOrder) :
    (gossipOnce order).run (Sequential.after MeshOp.exec ops Server.initial) =
      (gossipOnce order').run (Sequential.after MeshOp.exec ops Server.initial) := by
  have hrun : OneHop defaultDevices ops (Sequential.after MeshOp.exec ops Server.initial) :=
    OneHop.run hfresh
  exact (hrun.tidy hfresh).gossipOnce_eq order order'

theorem gossip_order_irrelevant_reversed :
    (gossipOnce .listed).run (Sequential.after MeshOp.exec
        [.inject "phone-alice" ⟨"p1", 2, 0, "c1"⟩, .inject "phone-bridge" ⟨"p2", 1, 0, "c2"⟩]
        Server.initial) =
      (gossipOnce .reversed).run (Sequential.after MeshOp.exec
        [.inject "phone-alice" ⟨"p1", 2, 0, "c1"⟩, .inject "phone-bridge" ⟨"p2", 1, 0, "c2"⟩]
        Server.initial) :=
  gossip_order_irrelevant [.inject "phone-alice" ⟨"p1", 2, 0, "c1"⟩,
    .inject "phone-bridge" ⟨"p2", 1, 0, "c2"⟩] (by decide) .listed .reversed

end UpiMesh
