import UpiMesh.Lib.Serial
import UpiMesh.MeshSpec

/-!
# Which atomic actions conflict

Actions on different stores do not conflict, nor do two reads, nor actions on one store that concern
different packets, hashes or accounts. Such actions can be exchanged: neither sees the other, and
the final states agree.
-/

namespace UpiMesh

open Concurrent

/-- What a lock protects. -/
inductive Store where
  | device (deviceId : String)
  | cache
  | database
  deriving DecidableEq, Repr

namespace Action

def store : Action → Store
  | .hold deviceId _ => .device deviceId
  | .holds deviceId _ => .device deviceId
  | .packetCount deviceId => .device deviceId
  | .getHeldPackets deviceId _ => .device deviceId
  | .clearDevice deviceId => .device deviceId
  | .claim _ _ => .cache
  | .evictExpired _ => .cache
  | .clearSeen => .cache
  | .findById _ _ => .database
  | .settleBlock .. => .database
  | .saveTransaction _ _ => .database
  | .resetDatabase _ => .database

def ReadsOnly : Action → Prop
  | .holds _ _ => True
  | .packetCount _ => True
  | .getHeldPackets _ _ => True
  | .findById _ _ => True
  | _ => False

/-- A step whose response only appears in a reply. -/
def Counts : Action → Prop
  | .packetCount _ => True
  | _ => False

instance : DecidablePred Counts
  | .packetCount _ => isTrue trivial
  | .hold _ _ => isFalse id
  | .holds _ _ => isFalse id
  | .getHeldPackets _ _ => isFalse id
  | .clearDevice _ => isFalse id
  | .claim _ _ => isFalse id
  | .evictExpired _ => isFalse id
  | .clearSeen => isFalse id
  | .findById _ _ => isFalse id
  | .settleBlock .. => isFalse id
  | .saveTransaction _ _ => isFalse id
  | .resetDatabase _ => isFalse id

/-- Steps on one store that concern different packets, hashes or accounts, and reads of an account
next to the insert of a row. -/
inductive Apart : Action → Action → Prop
  | hold_hold {deviceId : String} {p q : MeshPacket} (h : p.packetId ≠ q.packetId) :
      Apart (.hold deviceId p) (.hold deviceId q)
  | holds_hold {deviceId packetId : String} {p : MeshPacket} (h : p.packetId ≠ packetId) :
      Apart (.holds deviceId packetId) (.hold deviceId p)
  | claim_claim {packetHash packetHash' : String} {now now' : ℤ} (h : packetHash ≠ packetHash') :
      Apart (.claim packetHash now) (.claim packetHash' now')
  | findById_settleBlock {vpa : String} {fault : Option StatementFault} {sender receiver : Account}
      {call : SettleCall} {settledAt : ℤ} {faults : AttemptFaults} (hs : sender.vpa ≠ cstr vpa)
      (hr : receiver.vpa ≠ cstr vpa) :
      Apart (.findById vpa fault) (.settleBlock sender receiver call settledAt faults)
  | findById_saveTransaction {vpa : String} {fault fault' : Option StatementFault}
      {tx : Transaction} : Apart (.findById vpa fault) (.saveTransaction tx fault')

/-- Steps that do not conflict. -/
def Independent (a b : Action) : Prop :=
  a.store ≠ b.store ∨ (a.ReadsOnly ∧ b.ReadsOnly) ∨ a.Apart b ∨ b.Apart a

/-- Neither step sees the other, and their order does not matter. -/
def Exchanges (a b : Action) : Prop :=
  ∀ s, (a.exec (b.exec s).2).1 = (a.exec s).1 ∧ (b.exec (a.exec s).2).1 = (b.exec s).1 ∧
    (b.exec (a.exec s).2).2 = (a.exec (b.exec s).2).2

theorem Exchanges.symm {a b : Action} (h : a.Exchanges b) : b.Exchanges a := by
  intro s
  obtain ⟨ha, hb, hs⟩ := h s
  exact ⟨hb, ha, hs.symm⟩

section Locality

variable {a b : Action}

theorem exec_device {d : String} (h : a.store = .device d) :
    ∃ (r : HeldPackets → a.Response) (f : HeldPackets → HeldPackets),
      ∀ s, a.exec s = (r (s.held d), s.updateDevice d f) := by
  have hread : ∀ s : Server, s = s.updateDevice d id := by
    intro s
    rw [Server.updateDevice, id, Function.update_eq_self]
  cases a with
  | hold d' p =>
    obtain rfl := Store.device.inj h
    exact ⟨fun _ => (), VirtualDevice.hold p, fun s => rfl⟩
  | holds d' k =>
    obtain rfl := Store.device.inj h
    exact ⟨VirtualDevice.holds k, id, fun s => Prod.ext rfl (hread s)⟩
  | packetCount d' =>
    obtain rfl := Store.device.inj h
    exact ⟨VirtualDevice.packetCount, id, fun s => Prod.ext rfl (hread s)⟩
  | getHeldPackets d' order =>
    obtain rfl := Store.device.inj h
    exact ⟨VirtualDevice.getHeldPackets order, id, fun s => Prod.ext rfl (hread s)⟩
  | clearDevice d' =>
    obtain rfl := Store.device.inj h
    exact ⟨fun _ => (), fun _ => ∅, fun s => rfl⟩
  | _ => cases h

theorem exec_cache (h : a.store = .cache) :
    ∃ (r : SeenHashes → a.Response) (f : SeenHashes → SeenHashes),
      ∀ s, a.exec s = (r s.seen, { s with seen := f s.seen }) := by
  cases a with
  | claim k now =>
    exact ⟨fun seen => (IdempotencyService.claim k now seen).1,
      fun seen => (IdempotencyService.claim k now seen).2, fun s => rfl⟩
  | evictExpired now => exact ⟨fun _ => (), IdempotencyService.evictExpired now, fun s => rfl⟩
  | clearSeen => exact ⟨fun _ => (), fun _ => ∅, fun s => rfl⟩
  | _ => cases h

theorem exec_database (h : a.store = .database) :
    ∃ (r : Database → a.Response) (f : Database → Database),
      ∀ s, a.exec s = (r s.db, { s with db := f s.db }) := by
  cases a with
  | findById vpa fault =>
    exact ⟨AccountRepository.findById vpa fault, id, fun s => rfl⟩
  | settleBlock sender receiver call settledAt faults =>
    exact ⟨fun db => (UpiMesh.settleBlock sender receiver call settledAt faults db).1,
      fun db => (UpiMesh.settleBlock sender receiver call settledAt faults db).2, fun s => rfl⟩
  | saveTransaction tx fault =>
    exact ⟨fun db => (TransactionRepository.save tx fault db).1,
      fun db => (TransactionRepository.save tx fault db).2, fun s => rfl⟩
  | resetDatabase faults =>
    exact ⟨fun db => (db.reset faults).1, fun db => (db.reset faults).2, fun s => rfl⟩
  | _ => cases h

theorem updateDevice_comm {d e : String} (hde : d ≠ e) (f g : HeldPackets → HeldPackets)
    (s : Server) :
    (s.updateDevice d f).updateDevice e g = (s.updateDevice e g).updateDevice d f := by
  simp only [Server.updateDevice, Function.update_of_ne hde, Function.update_of_ne hde.symm]
  rw [Function.update_comm hde]

theorem exchanges_devices {d e : String} (ha : a.store = .device d) (hb : b.store = .device e)
    (hde : d ≠ e) : a.Exchanges b := by
  obtain ⟨ra, fa, hea⟩ := exec_device ha
  obtain ⟨rb, fb, heb⟩ := exec_device hb
  intro s
  simp only [hea, heb]
  refine ⟨?_, ?_, updateDevice_comm hde fa fb s⟩
  · simp only [Server.updateDevice, Function.update_of_ne hde]
  · simp only [Server.updateDevice, Function.update_of_ne hde.symm]

theorem exchanges_device_cache {d : String} (ha : a.store = .device d) (hb : b.store = .cache) :
    a.Exchanges b := by
  obtain ⟨ra, fa, hea⟩ := exec_device ha
  obtain ⟨rb, fb, heb⟩ := exec_cache hb
  intro s
  simp only [hea, heb, Server.updateDevice, and_self]

theorem exchanges_device_database {d : String} (ha : a.store = .device d)
    (hb : b.store = .database) : a.Exchanges b := by
  obtain ⟨ra, fa, hea⟩ := exec_device ha
  obtain ⟨rb, fb, heb⟩ := exec_database hb
  intro s
  simp only [hea, heb, Server.updateDevice, and_self]

theorem exchanges_cache_database (ha : a.store = .cache) (hb : b.store = .database) :
    a.Exchanges b := by
  obtain ⟨ra, fa, hea⟩ := exec_cache ha
  obtain ⟨rb, fb, heb⟩ := exec_database hb
  intro s
  simp only [hea, heb, and_self]

theorem exchanges_of_store_ne (h : a.store ≠ b.store) : a.Exchanges b := by
  cases ha : a.store with
  | device d =>
    cases hb : b.store with
    | device e =>
      refine exchanges_devices ha hb ?_
      rintro rfl
      exact h (ha.trans hb.symm)
    | cache => exact exchanges_device_cache ha hb
    | database => exact exchanges_device_database ha hb
  | cache =>
    cases hb : b.store with
    | device e => exact (exchanges_device_cache hb ha).symm
    | cache => exact absurd (ha.trans hb.symm) h
    | database => exact exchanges_cache_database ha hb
  | database =>
    cases hb : b.store with
    | device e => exact (exchanges_device_database hb ha).symm
    | cache => exact (exchanges_cache_database hb ha).symm
    | database => exact absurd (ha.trans hb.symm) h

theorem exec_readsOnly (h : a.ReadsOnly) (s : Server) : (a.exec s).2 = s := by
  cases a with
  | holds _ _ => rfl
  | packetCount _ => rfl
  | getHeldPackets _ _ => rfl
  | findById _ _ => rfl
  | _ => exact h.elim

theorem exchanges_of_readsOnly (ha : a.ReadsOnly) (hb : b.ReadsOnly) : a.Exchanges b := by
  intro s
  rw [exec_readsOnly ha, exec_readsOnly hb, exec_readsOnly ha]
  exact ⟨rfl, rfl, rfl⟩

theorem hold_comm {p q : MeshPacket} (h : p.packetId ≠ q.packetId) (held : HeldPackets) :
    VirtualDevice.hold q (VirtualDevice.hold p held) =
      VirtualDevice.hold p (VirtualDevice.hold q held) := by
  apply Std.ExtTreeMap.ext_getElem?
  intro k
  simp only [VirtualDevice.hold, Std.ExtTreeMap.getElem?_insert, Std.compare_eq_iff_eq]
  by_cases hp : p.packetId = k
  · have hq : q.packetId ≠ k := fun hq => h (hp.trans hq.symm)
    simp only [hp, hq, if_true, if_false]
  · simp only [hp, if_false]

theorem holds_hold {p : MeshPacket} {k : String} (h : p.packetId ≠ k) (held : HeldPackets) :
    VirtualDevice.holds k (VirtualDevice.hold p held) = VirtualDevice.holds k held := by
  simp only [VirtualDevice.holds, VirtualDevice.hold, Std.ExtTreeMap.contains_insert]
  have hne : (compare p.packetId k == Ordering.eq) = false := by simpa using h
  rw [hne, Bool.false_or]

theorem claim_fst_claim {k k' : String} (h : k ≠ k') (now now' : ℤ) (seen : SeenHashes) :
    (IdempotencyService.claim k now (IdempotencyService.claim k' now' seen).2).1 =
      (IdempotencyService.claim k now seen).1 := by
  have hmem := IdempotencyService.mem_claim k' k now' seen
  by_cases hk : k ∈ seen
  · rw [IdempotencyService.claim_of_mem hk, IdempotencyService.claim_of_mem (hmem.mpr (Or.inr hk))]
  · have hk' : k ∉ (IdempotencyService.claim k' now' seen).2 := fun hin =>
      (hmem.mp hin).elim (fun he => h he.symm) hk
    rw [IdempotencyService.claim_fst_of_notMem hk, IdempotencyService.claim_fst_of_notMem hk']

theorem claim_comm {k k' : String} (h : k ≠ k') (now now' : ℤ) (seen : SeenHashes) :
    (IdempotencyService.claim k' now' (IdempotencyService.claim k now seen).2).2 =
      (IdempotencyService.claim k now (IdempotencyService.claim k' now' seen).2).2 := by
  apply Std.ExtTreeMap.ext_getElem?
  intro x
  simp only [IdempotencyService.getElem?_claim, IdempotencyService.mem_claim]
  by_cases hk : k = x
  · subst hk
    simp [h, h.symm]
  · by_cases hk' : k' = x
    · subst hk'
      simp [h]
    · simp [hk, hk']

/-- The write block only touches the two accounts it was given. -/
theorem find?_settleBlock {sender receiver : Account} {call : SettleCall} {settledAt : ℤ}
    {faults : AttemptFaults} {db : Database} {k : String} (hs : sender.vpa ≠ k)
    (hr : receiver.vpa ≠ k) :
    (UpiMesh.settleBlock sender receiver call settledAt faults db).2.current.accounts.find? k =
      db.current.accounts.find? k := by
  have hsaved : (savedAccounts sender receiver call.instruction.amount faults
      db.current.accounts).find? k = db.current.accounts.find? k := by
    have hdebit : (sender.debit call.instruction.amount).vpa ≠ k := hs
    have hcredit : (receiver.credit call.instruction.amount).vpa ≠ k := hr
    unfold savedAccounts
    dsimp only
    split_ifs
    · rw [Table.find?_upsert, if_neg hcredit, Table.find?_upsert, if_neg hdebit]
    · rw [Table.find?_upsert, if_neg hcredit]
    · rw [Table.find?_upsert, if_neg hdebit]
    · rfl
  have hends := settleBlock_ends sender receiver call settledAt faults db
  generalize UpiMesh.settleBlock sender receiver call settledAt faults db = out at hends ⊢
  obtain ⟨r, db'⟩ := out
  cases hends with
  | unbegun _ => rfl
  | committed _ _ _ _ _ => exact hsaved
  | rolledBack _ _ _ _ _ => rfl
  | leftOpen _ _ _ _ haccounts _ =>
    rw [haccounts]
    exact hsaved

theorem findById_congr {vpa : String} {fault : Option StatementFault} {db db' : Database}
    (h : db'.current.accounts.find? (cstr vpa) = db.current.accounts.find? (cstr vpa)) :
    AccountRepository.findById vpa fault db' = AccountRepository.findById vpa fault db := by
  cases fault with
  | some f => rfl
  | none => exact h

theorem exchanges_of_apart (h : a.Apart b) : a.Exchanges b := by
  intro s
  cases h with
  | hold_hold h =>
    refine ⟨rfl, rfl, ?_⟩
    simp only [exec, Server.updateDevice, Function.update_self, Function.update_idem, hold_comm h]
  | holds_hold h =>
    refine ⟨?_, rfl, rfl⟩
    simp only [exec, Server.updateDevice, Function.update_self, holds_hold h]
  | @claim_claim k k' now now' h =>
    refine ⟨claim_fst_claim h now now' s.seen, claim_fst_claim h.symm now' now s.seen, ?_⟩
    simp only [exec, claim_comm h]
  | findById_settleBlock hs hr => exact ⟨findById_congr (find?_settleBlock hs hr), rfl, rfl⟩
  | findById_saveTransaction =>
    refine ⟨findById_congr ?_, rfl, rfl⟩
    simp only [exec, TransactionRepository.accounts_save]

theorem exchangeable_independent : Pool.Exchangeable Action.exec Independent := by
  intro a b s h
  rcases h with h | ⟨ha, hb⟩ | h | h
  · exact exchanges_of_store_ne h s
  · exact exchanges_of_readsOnly ha hb s
  · exact exchanges_of_apart h s
  · exact (exchanges_of_apart h).symm s

end Locality

end Action

end UpiMesh
