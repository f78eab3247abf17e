import UpiMesh.Lib.Rely
import UpiMesh.OpActions

/-!
# What grows

Without resets and without a failing `ROLLBACK`, the transaction log only gets longer, no transaction
stays open, and no device loses a packet id. Gossip, too, only adds to the devices.
-/

namespace UpiMesh

open Concurrent
open Std (ExtTreeMap)

/-- The action takes away packets or rows. -/
def Action.Clears : Action → Prop
  | .clearDevice _ => True
  | .resetDatabase _ => True
  | _ => False

/-- The call takes nothing away and leaves no transaction open. -/
def Call.Grows (c : Call) : Prop :=
  c.RollsBack ∧ ∀ a, c = .action a → ¬ a.Clears

/-- The rows of the transaction log. -/
abbrev Server.log (s : Server) : List Transaction := s.db.current.transactions.rows

/-- The log and the packet ids on the devices. -/
structure Server.Leads (s s' : Server) : Prop where
  log : s.log <+: s'.log
  ids : ∀ (d packetId : String), packetId ∈ s.held d → packetId ∈ s'.held d

def Server.growing : Evolution Server where
  keeps s := s.db.savepoint = none ∧ 0 ≤ s.db.current.transactions.sequence
  leads := Server.Leads
  refl _ := ⟨List.prefix_rfl, fun _ _ h => h⟩
  trans h h' := ⟨h.log.trans h'.log, fun d packetId hp => h'.ids d packetId (h.ids d packetId hp)⟩

theorem Action.ids_exec {a : Action} (ha : ¬ a.Clears) (s : Server) (d packetId : String)
    (h : packetId ∈ s.held d) : packetId ∈ (a.exec s).2.held d := by
  cases a with
  | hold d' packet =>
    by_cases hd : d = d'
    · subst hd
      simp only [Action.exec, Server.updateDevice, Function.update_self, VirtualDevice.hold,
        ExtTreeMap.mem_insert]
      exact Or.inr h
    · simpa only [Action.exec, Server.updateDevice, Function.update_of_ne hd] using h
  | clearDevice d' => exact absurd trivial ha
  | resetDatabase faults => exact absurd trivial ha
  | _ => exact h

theorem not_isReset_of_clears {c : Call} (h : ∀ a, c = .action a → ¬ a.Clears) : ¬ c.IsReset := by
  intro hreset
  cases c with
  | action a =>
    cases a with
    | resetDatabase faults => exact h _ rfl trivial
    | _ => exact hreset
  | query q => exact hreset

theorem Call.Grows.admits {c : Call} (h : c.Grows) : Server.growing.Admits Call.exec c := by
  obtain ⟨hroll, hclears⟩ := h
  rintro s ⟨hsp, hsequence⟩
  have hreset : ¬ c.IsReset := not_isReset_of_clears hclears
  have hstep := call_dbStep c s
  refine ⟨⟨(hstep.rows_reported hsp hroll).1, hsequence.trans hstep.sequence.1⟩,
    hstep.rows_prefix hreset, fun d packetId hp => ?_⟩
  cases c with
  | action a => exact Action.ids_exec (hclears a rfl) s d packetId hp
  | query q => exact hp

namespace MeshSimulatorService

variable {T : Action → Prop}

/-- A gossip round asks its devices, and files copies on them. -/
theorem gossipAmong_uses {packets : String → IterOrder} {devices : List VirtualDevice}
    (hget : ∀ d ∈ devices, T (.getHeldPackets d.deviceId (packets d.deviceId)))
    (hholds : ∀ d ∈ devices, ∀ packetId, T (.holds d.deviceId packetId))
    (hhold : ∀ d ∈ devices, ∀ packet, T (.hold d.deviceId packet))
    (hcount : ∀ d ∈ devices, T (.packetCount d.deviceId)) : (gossipAmong packets devices).Uses T := by
  have hsnapshot : ∀ sources ⊆ devices, (snapshot packets sources).Uses T := by
    intro sources hsources
    induction sources with
    | nil => exact trivial
    | cons d sources ih =>
      obtain ⟨hd, hrest⟩ := List.cons_subset.mp hsources
      exact ⟨hget d hd, fun _ => (ih hrest).bind fun _ => trivial⟩
  have hoffer : ∀ src packet, ∀ targets ⊆ devices, (offer src packet targets).Uses T := by
    intro src packet targets htargets
    induction targets with
    | nil => exact trivial
    | cons dst targets ih =>
      obtain ⟨hdst, hrest⟩ := List.cons_subset.mp htargets
      unfold offer
      split_ifs
      · exact ih hrest
      · refine ⟨hholds dst hdst _, fun held => ?_⟩
        cases held with
        | true => exact ih hrest
        | false => exact ⟨hhold dst hdst _, fun _ => (ih hrest).bind fun _ => trivial⟩
  have hspread : ∀ src held, (spread devices src held).Uses T := by
    intro src held
    induction held with
    | nil => exact trivial
    | cons packet held ih =>
      unfold spread
      split_ifs
      · exact ih
      · exact (hoffer _ _ _ (List.Subset.refl _)).bind fun _ => ih.bind fun _ => trivial
  have hspreadAll : ∀ sources, (spreadAll devices sources).Uses T := by
    intro sources
    induction sources with
    | nil => exact trivial
    | cons source sources ih => exact (hspread _ _).bind fun _ => ih.bind fun _ => trivial
  have hcounts : ∀ counted ⊆ devices, (snapshotMap counted).Uses T := by
    intro counted hcounted
    induction counted with
    | nil => exact trivial
    | cons d counted ih =>
      obtain ⟨hd, hrest⟩ := List.cons_subset.mp hcounted
      exact ⟨hcount d hd, fun _ => (ih hrest).bind fun _ => trivial⟩
  exact (hsnapshot _ (List.Subset.refl _)).bind fun _ => (hspreadAll _).bind fun _ =>
    (hcounts _ (List.Subset.refl _)).bind fun _ => trivial

end MeshSimulatorService

section Uses

variable {crypto : CryptoService} {json : JsonLibrary} {b : Binary64}

theorem Service.serve_uses {α : Type} {p : Service α} {T : Action → Prop} {T' : Call → Prop}
    (h : p.Uses T) (hT : ∀ a, T a → T' (.action a)) : p.serve.Uses T' := by
  induction p with
  | ret x => exact trivial
  | act a next ih => exact ⟨hT a h.1, fun r => ih r (h.2 r)⟩

theorem Uploads.not_clears {ciphertext bridgeNodeId : String} {hopCount : ℤ} {env : IngestEnv}
    {a : Action} (h : Uploads crypto ciphertext bridgeNodeId hopCount env a) : ¬ a.Clears := by
  cases h with
  | claim => exact id
  | settles _ _ ha => cases ha <;> exact id

/-- An operation that is no reset clears nothing. -/
theorem Op.uses_grows {op : Op} (hreset : (ServerCall.operation op).NoReset)
    (hroll : (ServerCall.operation op).RollbackSucceeds) :
    (op.program crypto).Uses fun a => (Call.action a).Grows := by
  have hrolls : (op.program crypto).Uses fun a => (Call.action a).RollsBack :=
    (Op.uses op).mono fun a ha => (ServerCall.Performs.operation ha).rollsBack hroll
  have hclears : (op.program crypto).Uses fun a => ¬ a.Clears := by
    cases op with
    | meshGossip order =>
      have hgossip : (ApiController.meshGossip order).Uses fun a => ¬ a.Clears :=
        MeshSimulatorService.gossipAmong_uses (fun _ _ => id) (fun _ _ _ => id) (fun _ _ _ => id)
          fun _ _ => id
      exact hgossip.bind fun _ => trivial
    | resetDatabase faults => exact hreset.elim
    | meshReset order faults => exact hreset.elim
    | ingest packet bridgeNodeId hopCount env =>
      refine (Op.uses _).mono fun a ha => ?_
      cases ha with
      | ingest ha => exact ha.not_clears
    | evictExpired now =>
      refine (Op.uses _).mono fun a ha => ?_
      cases ha with
      | evictExpired => exact id
    | demoSend request env =>
      refine (Op.uses _).mono fun a ha => ?_
      cases ha with
      | inject _ => exact id
    | meshFlush env =>
      refine (Op.uses _).mono fun a ha => ?_
      cases ha with
      | collect => exact id
      | upload _ _ ha => exact ha.not_clears
  refine (hrolls.and hclears).mono fun a ha => ⟨ha.1, fun a' ha' => ?_⟩
  exact Call.action.inj ha' ▸ ha.2

theorem deviceStates_uses (packets : String → IterOrder) (devices : List VirtualDevice) :
    (ApiController.deviceStates packets devices).Uses Call.Grows := by
  induction devices with
  | nil => exact trivial
  | cons d devices ih =>
    have hcount : (Call.action (.packetCount d.deviceId)).Grows :=
      ⟨trivial, fun a ha => Call.action.inj ha ▸ id⟩
    have hget : (Call.action (.getHeldPackets d.deviceId (packets d.deviceId))).Grows :=
      ⟨trivial, fun a ha => Call.action.inj ha ▸ id⟩
    exact ⟨hcount, fun _ => ⟨hget, fun _ => ih.bind fun _ => trivial⟩⟩

theorem Query.grows (q : Query) : (Call.query q).Grows := ⟨trivial, fun _ h => by cases h⟩

theorem ServerCall.uses_grows {call : ServerCall} (hreset : call.NoReset)
    (hroll : call.RollbackSucceeds) : (call.program crypto json b).Uses Call.Grows := by
  cases call with
  | operation op =>
    exact (Service.serve_uses (Op.uses_grows hreset hroll) fun _ ha => ha).bind fun _ => trivial
  | meshState order =>
    have hstate : (ApiController.meshState order).Uses Call.Grows :=
      (deviceStates_uses _ _).bind fun _ => ⟨Query.grows _, fun _ => trivial⟩
    exact hstate.bind fun _ => trivial
  | listAccounts fault => exact ⟨Query.grows _, fun _ => trivial⟩
  | listTransactions fault =>
    refine ⟨Query.grows _, fun rows => ?_⟩
    cases rows with
    | error e => exact trivial
    | ok txs => exact trivial

end Uses

end UpiMesh
