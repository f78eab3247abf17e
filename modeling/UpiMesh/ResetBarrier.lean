import UpiMesh.Delivery
import UpiMesh.Epochs
import UpiMesh.Growth
import UpiMesh.MeshSpec
import UpiMesh.SettlementActions

/-!
# Reset among other operations

Each device, the cache and the connection have a lock of their own, and nothing is held across two
steps of an operation. What an operation has read before a reset it may still write after it. A reset is
a barrier when each operation is on one side of it; what happens on one side is a matter of the
operations there.
-/

namespace UpiMesh

open Concurrent

section Programs

/-- The program takes no step that only counts. -/
abbrev CountsNothing {α : Type} (p : Service α) : Prop := p.Uses fun a => ¬ a.Counts

theorem countsNothing_settle (call : SettleCall) (env : SettleEnv) :
    CountsNothing (SettlementService.settle call env) := by
  apply SettlementService.settle_uses
  intro a ha hcounts
  cases ha <;> exact hcounts

theorem countsNothing_ingest (crypto : CryptoService) (packet : MeshPacket) (bridgeNodeId : String)
    (hopCount : ℤ) (env : IngestEnv) :
    CountsNothing (BridgeIngestionService.ingest crypto packet bridgeNodeId hopCount env) := by
  refine ⟨id, fun won => ?_⟩
  cases won with
  | false => exact trivial
  | true =>
    change CountsNothing (BridgeIngestionService.afterClaim crypto packet bridgeNodeId hopCount env _)
    unfold BridgeIngestionService.afterClaim
    cases crypto.decrypt packet.ciphertext with
    | error e => exact trivial
    | ok instruction =>
      dsimp only
      split_ifs
      · exact trivial
      · exact trivial
      · exact (countsNothing_settle _ _).bind fun _ => trivial

theorem countsNothing_ingestUploads (crypto : CryptoService) (ingests : ℕ → IngestEnv) (n : ℕ)
    (uploads : List BridgeUpload) :
    CountsNothing (ApiController.ingestUploads crypto ingests n uploads) := by
  induction uploads generalizing n with
  | nil => exact trivial
  | cons up uploads ih =>
    refine (countsNothing_ingest crypto up.packet up.bridgeNodeId _ (ingests n)).bind fun _ => ?_
    exact (ih (n + 1)).bind fun _ => trivial

open MeshSimulatorService

theorem countsNothing_collectFrom (packets : String → IterOrder) (devices : List VirtualDevice) :
    CountsNothing (collectFrom packets devices) := by
  induction devices with
  | nil => exact trivial
  | cons d devices ih =>
    unfold collectFrom
    split_ifs
    · exact ⟨id, fun _ => ih.bind fun _ => trivial⟩
    · exact ih

theorem countsNothing_snapshot (packets : String → IterOrder) (devices : List VirtualDevice) :
    CountsNothing (snapshot packets devices) := by
  induction devices with
  | nil => exact trivial
  | cons d devices ih => exact ⟨id, fun _ => ih.bind fun _ => trivial⟩

theorem countsNothing_offer (src : VirtualDevice) (packet : MeshPacket)
    (devices : List VirtualDevice) : CountsNothing (offer src packet devices) := by
  induction devices with
  | nil => exact trivial
  | cons dst devices ih =>
    unfold offer
    split_ifs
    · exact ih
    · refine ⟨id, fun known => ?_⟩
      cases known with
      | true => exact ih
      | false => exact ⟨id, fun _ => ih.bind fun _ => trivial⟩

theorem countsNothing_spreadAll (devices : List VirtualDevice)
    (sources : List (VirtualDevice × List MeshPacket)) :
    CountsNothing (spreadAll devices sources) := by
  have hspread : ∀ src packets, CountsNothing (spread devices src packets) := by
    intro src packets
    induction packets with
    | nil => exact trivial
    | cons packet packets ih =>
      unfold spread
      split_ifs
      · exact ih
      · exact (countsNothing_offer src packet devices).bind fun _ => ih.bind fun _ => trivial
  induction sources with
  | nil => exact trivial
  | cons source sources ih =>
    exact (hspread source.1 source.2).bind fun _ => ih.bind fun _ => trivial

theorem countsNothing_clearAll (devices : List VirtualDevice) :
    CountsNothing (clearAll devices) := by
  induction devices with
  | nil => exact trivial
  | cons d devices ih => exact ⟨id, fun _ => ih⟩

theorem counts_snapshotMap (devices : List VirtualDevice) :
    (snapshotMap devices).Uses Action.Counts := by
  induction devices with
  | nil => exact trivial
  | cons d devices ih => exact ⟨trivial, fun _ => ih.bind fun _ => trivial⟩

/-- Only a gossip round counts, at its end. -/
theorem countsLast_program (crypto : CryptoService) (op : Op) :
    (op.program crypto).ObservesLast Action.Counts := by
  cases op with
  | ingest packet bridgeNodeId hopCount env =>
    exact .bind (countsNothing_ingest crypto packet bridgeNodeId hopCount env) fun _ => trivial
  | evictExpired now => exact Or.inr ⟨id, fun _ => trivial⟩
  | resetDatabase faults => exact Or.inr ⟨id, fun _ => trivial⟩
  | demoSend request env =>
    have hsend : CountsNothing (ApiController.demoSend crypto request env) := by
      unfold ApiController.demoSend
      cases crypto.encrypt (ApiController.instruction crypto request env) env.random with
      | error e => exact trivial
      | ok c =>
        dsimp only [inject]
        cases getDevice (ApiController.startDevice request) with
        | none => exact trivial
        | some d => exact ⟨id, fun _ => trivial⟩
    exact .bind hsend fun _ => trivial
  | meshGossip order =>
    simp only [Op.program, ApiController.meshGossip, gossipOnce, Program.bind_assoc]
    refine .bind (countsNothing_snapshot order.packets _) fun held => ?_
    refine .bind (countsNothing_spreadAll _ held) fun transfers => ?_
    apply Program.Uses.observesLast
    exact (counts_snapshotMap _).bind fun _ => trivial
  | meshFlush env =>
    have hflush : CountsNothing (ApiController.meshFlush crypto env) :=
      (countsNothing_collectFrom _ _).bind fun uploads =>
        (countsNothing_ingestUploads crypto env.ingests 0 uploads).bind fun _ => trivial
    exact .bind hflush fun _ => trivial
  | meshReset order faults =>
    have hreset : CountsNothing (ApiController.meshReset order faults) :=
      (countsNothing_clearAll _).bind fun _ => ⟨id, fun _ => ⟨id, fun _ => trivial⟩⟩
    exact .bind hreset fun _ => trivial

end Programs

open MeshSimulatorService

section Clears

/-- The steps of a reset. -/
def clears (order : MeshOrder) : List Action :=
  (getDevices order).map (fun d => .clearDevice d.deviceId) ++ [.clearSeen, .resetDatabase {}]

theorem clearAll_lists (devices : List VirtualDevice) :
    (clearAll devices).Lists (devices.map fun d => Action.clearDevice d.deviceId) := by
  induction devices with
  | nil => exact rfl
  | cons d devices ih => exact ⟨_, rfl, fun _ => ih⟩

theorem meshReset_lists (crypto : CryptoService) (order : MeshOrder) :
    ((Op.meshReset order {}).program crypto).Lists (clears order) := by
  have hreset : (ApiController.meshReset order {}).Lists (clears order) :=
    (clearAll_lists _).bind fun _ => ⟨_, rfl, fun _ => ⟨_, rfl, fun _ => rfl⟩⟩
  have hend : ∀ r : Except Exn Unit, (pure (Reply.wasReset r) : Service Reply).Lists [] := fun _ => rfl
  have hprogram := hreset.bind hend
  rwa [List.append_nil] at hprogram

variable {order : MeshOrder}

theorem mem_clears {a : Action} : a ∈ clears order ↔
    (∃ d ∈ defaultDevices, a = .clearDevice d.deviceId) ∨ a = .clearSeen ∨ a = .resetDatabase {} := by
  have hmem : ∀ d, d ∈ getDevices order ↔ d ∈ defaultDevices :=
    fun d => (order.devices_perm defaultDevices).mem_iff
  simp only [clears, List.mem_append, List.mem_map, hmem, List.mem_cons, List.not_mem_nil, or_false,
    eq_comm]

theorem not_counts_clears {a : Action} (h : a ∈ clears order) : ¬ a.Counts := by
  rcases mem_clears.mp h with ⟨d, -, rfl⟩ | rfl | rfl <;> exact id

theorem nodup_clears : ((clears order).map Action.store).Nodup := by
  have hdevices : ((getDevices order).map fun d => Store.device d.deviceId).Perm
      (defaultDevices.map fun d => Store.device d.deviceId) := (order.devices_perm defaultDevices).map _
  have hstores : (clears order).map Action.store =
      (getDevices order).map (fun d => Store.device d.deviceId) ++ [.cache, .database] := by
    simp only [clears, List.map_append, List.map_map, List.map_cons, List.map_nil]
    rfl
  rw [hstores]
  exact (hdevices.append_right _).nodup_iff.mpr (by decide)

theorem clears_wipe (old : Server) (a : Action) (ha : a ∈ clears order) (s : Server)
    (h : a.store.Same s old) : a.store.Same (a.exec s).2 old.wiped := by
  rcases mem_clears.mp ha with ⟨d, -, rfl⟩ | rfl | rfl
  · exact Function.update_self ..
  · rfl
  · exact congrArg Database.reseeded h

theorem clearsOnce_of_run {ι : Type} [DecidableEq ι] {crypto : CryptoService} {r : ι} {x : Reply}
    {trace : List (ι × Action)} {c c' : Pool ι Action Action.Response Reply Server}
    (hrun : Pool.Run Action.exec Pool.AnyStep c trace c')
    (hr : c.threads r = (Op.meshReset order {}).program crypto) (hret : c'.threads r = .ret x) :
    ClearsOnce r (clears order) trace := by
  have hlists := hrun.lists_returned (hr ▸ meshReset_lists crypto order) hret
  refine ⟨fun x hx hxr => ?_, ?_, fun a ha => ?_⟩
  · rw [← hlists]
    exact List.mem_map_of_mem (List.mem_filter.mpr ⟨hx, by simpa using hxr⟩)
  · have hnodup : (((trace.filter fun x => x.1 = r).map Prod.snd).map Action.store).Nodup := by
      rw [hlists]
      exact nodup_clears
    rw [List.Nodup, List.pairwise_map, List.pairwise_map, List.pairwise_filter] at hnodup
    exact hnodup.imp fun hxy hx hy => hxy (by simpa using hx) (by simpa using hy)
  · rw [← hlists] at ha
    obtain ⟨y, hy, rfl⟩ := List.mem_map.mp ha
    obtain ⟨hmem, hyr⟩ := List.mem_filter.mp hy
    exact ⟨y, hmem, by simpa using hyr, rfl⟩

end Clears

/-- No packet on a device, no claimed hash, the seeded accounts and no row. -/
structure Cleared (s : Server) : Prop where
  held : ∀ d ∈ defaultDevices, s.held d.deviceId = ∅
  seen : s.seen = ∅
  accounts : s.db.current.accounts = Database.seedAccounts
  rows : s.db.current.transactions.rows = []

theorem exec_reset (crypto : CryptoService) (order : MeshOrder) (s : Server) :
    (Op.meshReset order {}).exec crypto s =
      ⟨fun id => if id ∈ (getDevices order).map (·.deviceId) then ∅ else s.held id, ∅, s.db.reseeded⟩ := by
  have hclear := run_clearAll (getDevices order) s
  rw [Service.run] at hclear
  simp only [Op.exec, Op.program, ApiController.meshReset, resetMesh, Service.run, Program.run_bind,
    Program.run_call, Program.pure_eq, Program.run_ret, hclear]
  rfl

theorem cleared_meshReset (crypto : CryptoService) (order : MeshOrder) (s : Server) :
    Cleared ((Op.meshReset order {}).exec crypto s) := by
  rw [exec_reset]
  refine ⟨fun d hd => ?_, rfl, rfl, rfl⟩
  have hmem : d ∈ getDevices order := (order.devices_perm defaultDevices).mem_iff.mpr hd
  exact if_pos (List.mem_map_of_mem hmem)

/-- A gossip round only touches the devices. -/
theorem meshGossip_other (crypto : CryptoService) (order : MeshOrder) {X : Store}
    (hX : ∀ d ∈ defaultDevices, X ≠ .device d.deviceId) (s : Server) :
    X.Same ((Op.meshGossip order).exec crypto s) s := by
  have hdevices : ∀ d ∈ getDevices order, X ≠ .device d.deviceId := fun d hd =>
    hX d ((order.devices_perm defaultDevices).mem_iff.mp hd)
  have huses : (gossipOnce order).Uses fun a => X ≠ a.store :=
    gossipAmong_uses hdevices (fun d hd _ => hdevices d hd) (fun d hd _ => hdevices d hd) hdevices
  rw [Op.exec_meshGossip]
  exact run_other huses s

theorem gossips_other (crypto : CryptoService) {ι : Type} {ops : ι → Op} {idles : List ι}
    (hidles : ∀ i ∈ idles, ∃ order, ops i = .meshGossip order) {X : Store}
    (hX : ∀ d ∈ defaultDevices, X ≠ .device d.deviceId) (s : Server) :
    X.Same (Op.execAll crypto (idles.map ops) s) s := by
  induction idles generalizing s with
  | nil => exact .refl X s
  | cons i idles ih =>
    obtain ⟨⟨order, hi⟩, hrest⟩ := List.forall_mem_cons.mp hidles
    rw [List.map_cons, Op.execAll, Sequential.after_cons, hi]
    exact (ih hrest _).trans (meshGossip_other crypto order hX s)

/-- A reset leaves what it clears as it leaves a server with the same database, and all else alone. -/
theorem reset_clears (crypto : CryptoService) {order : MeshOrder} {s old : Server}
    (hdb : s.db = old.db) {X : Store} :
    ((∃ a ∈ clears order, a.store = X) → X.Same ((Op.meshReset order {}).exec crypto s) old.wiped) ∧
      ((¬ ∃ a ∈ clears order, a.store = X) → X.Same ((Op.meshReset order {}).exec crypto s) s) := by
  rw [exec_reset]
  refine ⟨?_, fun hX => ?_⟩
  · rintro ⟨a, ha, rfl⟩
    rcases mem_clears.mp ha with ⟨d, hd, rfl⟩ | rfl | rfl
    · have hmem : d ∈ getDevices order := (order.devices_perm defaultDevices).mem_iff.mpr hd
      exact if_pos (List.mem_map_of_mem hmem)
    · rfl
    · exact congrArg Database.reseeded hdb
  · cases X with
    | cache => exact absurd ⟨.clearSeen, mem_clears.mpr (Or.inr (Or.inl rfl)), rfl⟩ hX
    | database => exact absurd ⟨.resetDatabase {}, mem_clears.mpr (Or.inr (Or.inr rfl)), rfl⟩ hX
    | device id =>
      refine if_neg fun hid => hX ?_
      obtain ⟨d, hd, rfl⟩ := List.mem_map.mp hid
      have hmem : d ∈ defaultDevices := (order.devices_perm defaultDevices).mem_iff.mp hd
      exact ⟨.clearDevice d.deviceId, mem_clears.mpr (Or.inl ⟨d, hmem, rfl⟩), rfl⟩

theorem serial_program {ι : Type} (crypto : CryptoService) (ops : ι → Op) (order : List ι)
    (s : Server) :
    Pool.serial Action.exec (fun i => (ops i).program crypto) order s =
      Op.execAll crypto (order.map ops) s := by
  rw [Pool.serial, Op.execAll, Sequential.after, List.foldl_map]
  rfl

section Barrier

variable {ι : Type} [DecidableEq ι] {crypto : CryptoService} {ops : ι → Op} {side : ι → Side} {σ : Side}
  {trace : List (ι × Action)}

/-- The operations of one side, when the steps of theirs that conflict follow one order. -/
theorem serial_side {u : Server} {d : Pool ι Action Action.Response Reply Server}
    (hrun : Pool.Run Action.exec Pool.AnyStep ⟨u, fun i => (ops i).program crypto⟩
      ((withoutCounts trace).filter fun x => side x.1 = σ) d)
    (hpassive : ∀ i, side i = σ → ∀ s, ((d.threads i).run Action.exec s).2 = s) {order : List ι}
    (hnodup : order.Nodup) (hall : ∀ x ∈ trace, side x.1 = σ → x.1 ∈ order)
    (hσ : ∀ i ∈ order, side i = σ)
    (hord : Pool.Respects (fun a b => a.Counts ∨ b.Counts ∨ Action.Independent a b) order
      (trace.filter fun x => side x.1 = σ)) :
    d.shared = Op.execAll crypto (order.map ops) u := by
  have hsublist : ((withoutCounts trace).filter fun x => side x.1 = σ).Sublist
      (trace.filter fun x => side x.1 = σ) := List.filter_sublist.filter _
  have hcounts : ∀ x ∈ (withoutCounts trace).filter fun x => side x.1 = σ, ¬ x.2.Counts :=
    fun x hx => by simpa using (List.mem_filter.mp (List.mem_filter.mp hx).1).2
  have hord' : Pool.Respects Action.Independent order
      ((withoutCounts trace).filter fun x => side x.1 = σ) := by
    refine (List.Pairwise.sublist hsublist hord).imp_of_mem ?_
    intro x y hx hy hxy hne hconf
    exact hxy hne fun hind => hconf ((hind.resolve_left (hcounts x hx)).resolve_left (hcounts y hy))
  rw [← serial_program]
  refine hrun.serializable Action.exchangeable_independent hnodup (fun x hx => ?_)
    (fun i hi => hpassive i (hσ i hi)) hord'
  obtain ⟨hmem, hx⟩ := List.mem_filter.mp hx
  exact hall x (List.mem_filter.mp hmem).1 (by simpa using hx)

/-- When each operation is on one side of the reset, the server ends as after the operations before the
reset, the reset, and the operations after it, which start from cleared stores. If on each side the steps
that conflict follow one order, it ends in the state of a serial execution. -/
theorem reset_is_barrier {ι : Type} [DecidableEq ι] (crypto : CryptoService) (ops : ι → Op) (r : ι)
    (devices : MeshOrder) (hreset : ops r = .meshReset devices {}) (s : Server)
    (trace : List (ι × Action)) (c : Pool ι Action Action.Response Reply Server)
    (hrun : Pool.Run Action.exec Pool.AnyStep ⟨s, fun i => (ops i).program crypto⟩ trace c)
    (hfinished : c.Finished) (side : ι → Side) (hside : ∀ i, side i = .reset ↔ i = r)
    (hsided : Sided r side trace s) :
    (∃ before after : Pool ι Action Action.Response Reply Server,
      Pool.Run Action.exec Pool.AnyStep ⟨s, fun i => (ops i).program crypto⟩
        ((withoutCounts trace).filter fun x => side x.1 = .before) before ∧
      Pool.Run Action.exec Pool.AnyStep
        ⟨(ops r).exec crypto before.shared, fun i => (ops i).program crypto⟩
        ((withoutCounts trace).filter fun x => side x.1 = .after) after ∧
      Cleared ((ops r).exec crypto before.shared) ∧ c.shared = after.shared) ∧
    ∀ befores idles afters : List ι, (befores ++ idles ++ r :: afters).Nodup →
      (∀ x ∈ trace, x.1 ∈ befores ++ idles ++ r :: afters) → (∀ i ∈ befores, side i = .before) →
      (∀ i ∈ idles, side i = .idle ∧ ∃ order, ops i = .meshGossip order) →
      (∀ i ∈ afters, side i = .after) →
      Pool.Respects (fun a b => a.Counts ∨ b.Counts ∨ Action.Independent a b) befores
        (trace.filter fun x => side x.1 = .before) →
      Pool.Respects (fun a b => a.Counts ∨ b.Counts ∨ Action.Independent a b) afters
        (trace.filter fun x => side x.1 = .after) →
      c.shared = Op.execAll crypto ((befores ++ idles ++ r :: afters).map ops) s := by
  obtain ⟨x, hx⟩ := hfinished r
  have hclears : ClearsOnce r (clears devices) trace :=
    clearsOnce_of_run hrun (congrArg (Op.program crypto) hreset) hx
  have hcounts : ∀ a ∈ clears devices, ¬ a.Counts := fun _ => not_counts_clears
  obtain ⟨d, hd, hshared, hthreads⟩ := hrun.skip (fun a s h => Action.exec_counts h s) rfl
    fun i => Or.inl ⟨rfl, countsLast_program crypto (ops i)⟩
  have hpassive : ∀ i s, ((d.threads i).run Action.exec s).2 = s := by
    intro i s
    rcases hthreads i with hsame | huses
    · obtain ⟨x, hx⟩ := hfinished i
      rw [hsame, hx, Program.run_ret]
    · exact huses.run_eq (fun a s h => Action.exec_counts h s) s
  obtain ⟨b, hb, hold, hbthreads⟩ := exists_old_epoch hside hclears hcounts hsided hd
  have hahead : ∀ X, Ahead r trace X ↔ ∃ a ∈ clears devices, a.store = X := by
    intro X
    constructor
    · rintro ⟨y, hy, hyr, rfl⟩
      exact ⟨y.2, hclears.only y hy hyr, rfl⟩
    · rintro ⟨a, ha, rfl⟩
      exact hclears.all a ha
  -- what the reset leaves of `u`, the operations after it turn into the final state
  have hnew : ∀ u : Server, u.db = b.shared.db →
      (∀ X, (¬ ∃ a ∈ clears devices, a.store = X) → X.Same u b.shared) →
      ∃ a, Pool.Run Action.exec Pool.AnyStep
          ⟨(Op.meshReset devices {}).exec crypto u, fun i => (ops i).program crypto⟩
          ((withoutCounts trace).filter fun x => side x.1 = .after) a ∧
        a.shared = d.shared ∧ ∀ i, side i = .after → a.threads i = d.threads i := by
    intro u hdb hkept
    refine exists_new_epoch hside hclears hcounts hsided clears_wipe hd (fun X hX => ?_) fun X hX => ?_
    · rw [hold] at hdb
      exact (reset_clears crypto hdb).1 ((hahead X).mp hX)
    · have hX' := fun hin => hX ((hahead X).mpr hin)
      have hfound : X.Same b.shared s := hold ▸ found_of_not_ahead hX s
      exact ((reset_clears crypto hdb).2 hX').trans ((hkept X hX').trans hfound)
  refine ⟨?_, fun befores idles afters hnodup hall hbefores hidles hafters hordb horda => ?_⟩
  · obtain ⟨a, ha, hend, -⟩ := hnew b.shared rfl fun X _ => .refl X _
    rw [hreset]
    exact ⟨b, a, hb, ha, cleared_meshReset crypto devices b.shared, hshared.symm.trans hend.symm⟩
  · have hnodups := List.nodup_append.mp hnodup
    have hmem : ∀ x ∈ trace, x.1 ∈ befores ∨ x.1 ∈ idles ∨ x.1 = r ∨ x.1 ∈ afters := fun x hx => by
      simpa only [List.mem_append, List.mem_cons, or_assoc] using hall x hx
    have hserialb : b.shared = Op.execAll crypto (befores.map ops) s := by
      refine serial_side hb (fun i hi => ?_) (List.nodup_append.mp hnodups.1).1 (fun x hx hs => ?_)
        hbefores hordb
      · rw [hbthreads i hi]
        exact hpassive i
      · rcases hmem x hx with hin | hin | hin | hin
        · exact hin
        · rw [(hidles _ hin).1] at hs
          cases hs
        · rw [(hside _).mpr hin] at hs
          cases hs
        · rw [hafters _ hin] at hs
          cases hs
    have hidle : ∀ X : Store, (∀ d ∈ defaultDevices, X ≠ .device d.deviceId) →
        X.Same (Op.execAll crypto (idles.map ops) b.shared) b.shared :=
      fun X hX => gossips_other crypto (fun i hi => (hidles i hi).2) hX b.shared
    obtain ⟨a, ha, hend, hathreads⟩ := hnew (Op.execAll crypto (idles.map ops) b.shared)
      (hidle .database fun _ _ => nofun) fun X hX => hidle X fun d hd hXd =>
        hX ⟨.clearDevice d.deviceId, mem_clears.mpr (Or.inl ⟨d, hd, rfl⟩), hXd.symm⟩
    have hseriala : a.shared = Op.execAll crypto (afters.map ops)
        ((Op.meshReset devices {}).exec crypto (Op.execAll crypto (idles.map ops) b.shared)) := by
      refine serial_side ha (fun i hi => ?_) (List.nodup_cons.mp hnodups.2.1).2 (fun x hx hs => ?_)
        hafters horda
      · rw [hathreads i hi]
        exact hpassive i
      · rcases hmem x hx with hin | hin | hin | hin
        · rw [hbefores _ hin] at hs
          cases hs
        · rw [(hidles _ hin).1] at hs
          cases hs
        · rw [(hside _).mpr hin] at hs
          cases hs
        · exact hin
    rw [← hshared, ← hend, hseriala, hserialb, List.map_append, List.map_append, List.map_cons, hreset]
    simp only [Op.execAll, Sequential.after_append, Sequential.after_cons]

end Barrier

/-- A payment is uploaded, another one is sent and a gossip round runs while the server is reset. -/
def aroundReset : Fin 4 → Op
  | 0 => .meshReset .listed {}
  | 1 => .demoSend tenRupees tenRupeesEnv
  | 2 => .ingestAt "p2" "c1" 0
  | 3 => .meshGossip .listed

def sideOfReset : Fin 4 → Side
  | 0 => .reset
  | 1 => .after
  | 2 => .before
  | 3 => .idle

/-- A packet without hops left waits on the phone of Alice. -/
def hopsSpent : Server :=
  Server.initial.updateDevice "phone-alice" (VirtualDevice.hold ⟨"p0", 0, 0, "c0"⟩)

/-- The upload and the gossip round have begun when the first device is cleared. The new packet is filed
before the other stores are. -/
theorem reset_is_barrier_overlapping :
    ∃ trace c, Pool.Run Action.exec Pool.AnyStep
        ⟨hopsSpent, fun i => (aroundReset i).program tenRupeesCrypto⟩ trace c ∧
      c.shared = Op.execAll tenRupeesCrypto ([2, 3, 0, 1].map aroundReset) hopsSpent := by
  let start : Pool (Fin 4) Action Action.Response Reply Server :=
    ⟨hopsSpent, fun i => (aroundReset i).program tenRupeesCrypto⟩
  let schedule : List (Fin 4) := [2, 3, 0, 1, 3, 3, 3, 3, 0, 0, 0, 0, 0, 2, 2, 2, 3, 3, 3, 3, 3, 0]
  let trace := Pool.traceOf Action.exec schedule start
  have hrun : Pool.Run Action.exec Pool.AnyStep start trace
      (schedule.foldl (Pool.advance Action.exec) start) :=
    .of_traceOf (Pool.admissible_anyStep Action.exec schedule start)
  have hreturned : ∀ i, ((schedule.foldl (Pool.advance Action.exec) start).threads i).returned? =
      true := by decide +kernel
  have hsided : Sided 0 sideOfReset trace hopsSpent := by decide +kernel
  have hbefore : ∀ x ∈ trace.filter fun x => sideOfReset x.1 = .before, x.1 = 2 := by decide +kernel
  have hafter : ∀ x ∈ trace.filter fun x => sideOfReset x.1 = .after, x.1 = 1 := by decide +kernel
  have hbarrier := reset_is_barrier tenRupeesCrypto aroundReset 0 .listed rfl hopsSpent trace _ hrun
    (fun i => Program.returned?_eq_true.mp (hreturned i)) sideOfReset (by decide) hsided
  refine ⟨trace, _, hrun, hbarrier.2 [2] [3] [1] (by decide) (fun x _ => ?_) (by decide) (fun i hi => ?_)
    (by decide) ?_ ?_⟩
  · generalize x.1 = i
    revert i
    decide
  · obtain rfl := List.mem_singleton.mp hi
    exact ⟨rfl, .listed, rfl⟩
  · exact Pool.respects_of_thread hbefore
  · exact Pool.respects_of_thread hafter

/-- Alice pays Carol almost all she has. -/
def carolPaid : PaymentInstruction :=
  { alicePaysBob with
    receiverVpa := "carol@demo"
    amount := 498000
    nonce := "m"
    amount_fits := by decide }

def carolPaidCrypto : CryptoService := .ofList [("c0", carolPaid), ("c1", alicePaysBob)]

/-- That payment is settled, another one of Alice waits on her phone. -/
def carolPaidServer : Server :=
  ((Op.ingestAt "p0" "c0" 0).exec carolPaidCrypto Server.initial).updateDevice "phone-alice"
    (VirtualDevice.hold ⟨"p1", 5, 0, "c1"⟩)

def acrossReset : Fin 3 → Op
  | 0 => .meshReset .listed {}
  | 1 => .ingestAt "p1" "c1" 0
  | 2 => .meshGossip .listed

/-- The reset comes between the reads of an upload and of a gossip round and their writes: the accounts
lose 498000 paise and the packet is on the phones again. -/
theorem old_epoch_survives_reset :
    ∃ trace c, Pool.Run Action.exec Pool.AnyStep
        ⟨carolPaidServer, fun i => (acrossReset i).program carolPaidCrypto⟩ trace c ∧ c.Finished ∧
      c.shared.db.current.accounts.sum Account.balance = 402000 ∧
      (c.shared.held "phone-bridge").contains "p1" = true ∧
      ∀ order : List (Fin 3), order.Nodup → (∀ i, i ∈ order) →
        c.shared ≠ Op.execAll carolPaidCrypto (order.map acrossReset) carolPaidServer := by
  let start : Pool (Fin 3) Action Action.Response Reply Server :=
    ⟨carolPaidServer, fun i => (acrossReset i).program carolPaidCrypto⟩
  let schedule : List (Fin 3) := List.replicate 3 1 ++ List.replicate 5 2 ++ List.replicate 7 0 ++
    [1] ++ List.replicate 13 2
  obtain ⟨trace, hrun⟩ :=
    Pool.Run.of_schedule (Pool.admissible_anyStep Action.exec schedule start)
  have hreturned : ∀ i, ((schedule.foldl (Pool.advance Action.exec) start).threads i).returned? =
      true := by decide +kernel
  have hsum : (schedule.foldl (Pool.advance Action.exec) start).shared.db.current.accounts.sum
      Account.balance = 402000 := by decide +kernel
  have hkept : ((schedule.foldl (Pool.advance Action.exec) start).shared.held
      "phone-bridge").contains "p1" = true := by decide +kernel
  refine ⟨trace, _, hrun, fun i => Program.returned?_eq_true.mp (hreturned i), hsum, hkept, ?_⟩
  intro order hnodup hall hsame
  have hserial : ∀ order ∈ ([0, 1, 2] : List (Fin 3)).permutations',
      (Op.execAll carolPaidCrypto (order.map acrossReset) carolPaidServer).db.current.accounts.sum
        Account.balance = 900000 := by decide +kernel
  have hseeded := hserial order (Pool.mem_orders hnodup hall (by decide) (by decide))
  rw [← hsame, hsum] at hseeded
  cases hseeded

end UpiMesh
