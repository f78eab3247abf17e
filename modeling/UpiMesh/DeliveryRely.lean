import UpiMesh.Growth
import UpiMesh.Untouched
import UpiMesh.Delivery

/-!
# A packet on its way, under interference

What every thread keeps true of a packet that has been sent: no device has another ciphertext under its
id, its start device keeps it as it was sent, and the rows of its ciphertext decide its payment. Each
service keeps this whatever the others do, a gossip round moreover brings the packet to every device,
and a flush of a device that holds it hears of its claim.
-/

namespace UpiMesh

open Concurrent
open Std (ExtTreeMap)

/-- The packet `p`, sent from `start` with the instruction `i`, is on its way. -/
structure Underway (crypto : CryptoService) (i : PaymentInstruction) (p : MeshPacket) (start : String)
    (s : Server) : Prop where
  closed : s.db.savepoint = none
  sender : i.senderVpa ∈ s.db.current.accounts.keys
  receiver : i.receiverVpa ∈ s.db.current.accounts.keys
  rows : ∀ tx ∈ s.log, tx.packetHash = crypto.hashCiphertext p.ciphertext → tx.Decides i
  carried : HeldAll (fun q => q.packetId = p.packetId → q.ciphertext = p.ciphertext) s
  started : ∀ d, p.packetId ∈ s.held d → (s.held start)[p.packetId]? = some p

def delivery (crypto : CryptoService) (i : PaymentInstruction) (p : MeshPacket) (start : String) :
    Evolution Server where
  keeps := Underway crypto i p start
  leads := Server.Leads
  refl := Server.growing.refl
  trans := Server.growing.trans

/-- What a thread has heard of the claim of a hash. -/
structure Heard where
  won : Bool
  lost : Bool

def Heard.any (g : Heard) : Bool := g.won || g.lost

def hear (packetHash : String) (g : Heard) : (a : Action) → a.Response → Heard
  | .claim h _, r => if h = packetHash then ⟨g.won || r, g.lost || !r⟩ else g
  | _, _ => g

section Admits

variable {crypto : CryptoService} {i : PaymentInstruction} {p : MeshPacket} {start : String}
  {s s' : Server}

/-- Neither the devices nor the database have changed. -/
theorem Underway.congr (h : Underway crypto i p start s) (hheld : s'.held = s.held) (hdb : s'.db = s.db) :
    Underway crypto i p start s' := by
  refine ⟨hdb ▸ h.closed, hdb ▸ h.sender, hdb ▸ h.receiver, ?_, ?_, ?_⟩
  · rw [Server.log, hdb]
    exact h.rows
  · rw [HeldAll, hheld]
    exact h.carried
  · rw [hheld]
    exact h.started

/-- The actions that touch neither the devices nor the database. -/
def Action.OnlyReads : Action → Prop
  | .holds .. => True
  | .packetCount _ => True
  | .getHeldPackets .. => True
  | .claim .. => True
  | .evictExpired _ => True
  | .findById .. => True
  | _ => False

theorem Action.OnlyReads.admits {a : Action} (h : a.OnlyReads) :
    (delivery crypto i p start).Admits Action.exec a := by
  intro s hs
  cases a with
  | hold => exact h.elim
  | clearDevice => exact h.elim
  | clearSeen => exact h.elim
  | settleBlock => exact h.elim
  | saveTransaction => exact h.elim
  | resetDatabase faults => exact h.elim
  | _ => exact ⟨hs.congr rfl rfl, List.prefix_rfl, fun _ _ h => h⟩

/-- Another packet may be filed, and the packet itself on its start device. -/
theorem Underway.hold (h : Underway crypto i p start s) {d : String} {q : MeshPacket}
    (hq : q.packetId = p.packetId → q.ciphertext = p.ciphertext ∧
      (d = start → q = p) ∧ (d ≠ start → p.packetId ∈ s.held start)) :
    Underway crypto i p start (s.updateDevice d (VirtualDevice.hold q)) := by
  refine ⟨h.closed, h.sender, h.receiver, h.rows, h.carried.hold (fun hid => (hq hid).1) d, ?_⟩
  intro d' hd'
  rw [getElem?_hold]
  by_cases hid : q.packetId = p.packetId
  · obtain ⟨-, hsame, hother⟩ := hq hid
    by_cases hstart : start = d
    · rw [if_pos ⟨hstart, hid⟩, hsame hstart.symm]
    · rw [if_neg fun hc => hstart hc.1]
      exact h.started start (hother (Ne.symm hstart))
  · rw [if_neg fun hc => hid hc.2]
    refine h.started d' ?_
    obtain ⟨q', hq'⟩ := mem_iff_exists_getElem?.mp hd'
    rw [getElem?_hold, if_neg fun hc => hid hc.2] at hq'
    exact mem_of_getElem?_eq_some hq'

theorem Underway.hold_admitted (h : Underway crypto i p start s) {d : String} {q : MeshPacket}
    (hq : q.packetId = p.packetId → q.ciphertext = p.ciphertext ∧
      (d = start → q = p) ∧ (d ≠ start → p.packetId ∈ s.held start)) :
    Underway crypto i p start ((Action.hold d q).exec s).2 ∧ s.Leads ((Action.hold d q).exec s).2 :=
  ⟨h.hold hq, List.prefix_rfl, Action.ids_exec id s⟩

/-- A call that leaves the devices alone, and inserts no row of the packet but one that decides it. -/
theorem Underway.database (h : Underway crypto i p start s) {c : Call} (hc : c.Grows)
    (hheld : (c.exec s).2.held = s.held)
    (hinserts : ∀ tx, c.inserts = some tx → cstr tx.packetHash = crypto.hashCiphertext p.ciphertext →
      (s.db.current.transactions.stored tx).Decides i) :
    Underway crypto i p start (c.exec s).2 ∧ s.Leads (c.exec s).2 := by
  obtain ⟨hroll, hclears⟩ := hc
  have hreset : ¬ c.IsReset := not_isReset_of_clears hclears
  have hstep := call_dbStep c s
  obtain ⟨hclosed, hreported⟩ := hstep.rows_reported h.closed hroll
  refine ⟨⟨hclosed, hstep.keys_stay hreset h.sender, hstep.keys_stay hreset h.receiver, ?_, ?_, ?_⟩,
    hstep.rows_prefix hreset, fun d packetId hp => hheld ▸ hp⟩
  · intro row hrow hhash
    rcases hreported row hrow with hold | hnew
    · exact h.rows row hold hhash
    · obtain ⟨tx, htx, rfl⟩ := hstep.rows_inserted hnew
      exact hinserts tx htx hhash
  · rw [HeldAll, hheld]
    exact h.carried
  · rw [hheld]
    exact h.started

/-- Whatever an `ingest` call does, it may do. -/
theorem uploads_admits (hinj : Function.Injective crypto.sha256)
    (hopens : crypto.decrypt p.ciphertext = .ok i) {ciphertext bridgeNodeId : String} {hopCount : ℤ}
    {env : IngestEnv} (hf : ∀ n, env.faults n = {}) {a : Action}
    (ha : Uploads crypto ciphertext bridgeNodeId hopCount env a) :
    (delivery crypto i p start).Admits Action.exec a := by
  cases ha with
  | claim => exact Action.OnlyReads.admits trivial
  | @settles instruction _ hd _ ha =>
    intro s (hs : Underway crypto i p start s)
    have hdecides : ∀ settledAt status, status = Status.SETTLED ∨ status = Status.REJECTED →
        cstr (crypto.hashCiphertext ciphertext) = crypto.hashCiphertext p.ciphertext →
        (s.db.current.transactions.stored (SettleCall.transaction ⟨instruction,
          crypto.hashCiphertext ciphertext, bridgeNodeId, hopCount⟩ settledAt status)).Decides i := by
      intro settledAt status hstatus hhash
      rw [CryptoService.cstr_hashCiphertext] at hhash
      obtain rfl := (CryptoService.hashCiphertext_inj hinj).mp hhash
      obtain rfl := Except.ok.inj (hd.symm.trans hopens)
      exact ⟨hstatus, (find?_cstr_of_mem_keys hs.sender).1, (find?_cstr_of_mem_keys hs.receiver).1,
        rfl, rfl⟩
    cases ha with
    | @findById vpa fault =>
      have hreads : (Action.findById vpa fault).OnlyReads := trivial
      exact hreads.admits s hs
    | @settleBlock sender receiver n _ _ _ _ =>
      have hroll : (env.faults n).rollback = none := by rw [hf]
      refine hs.database (c := .action _) ⟨hroll, fun a ha => Call.action.inj ha ▸ id⟩ rfl ?_
      intro tx htx hhash
      obtain rfl := Option.some.inj htx
      exact hdecides _ _ (Or.inl rfl) hhash
    | saveTransaction =>
      refine hs.database (c := .action _) ⟨trivial, fun a ha => Call.action.inj ha ▸ id⟩ rfl ?_
      intro tx htx hhash
      obtain rfl := Option.some.inj htx
      exact hdecides _ _ (Or.inr rfl) hhash

end Admits

/-- A service, on a server on which the packet is on its way. -/
abbrev Carries (crypto : CryptoService) (i : PaymentInstruction) (p : MeshPacket) (start : String)
    {α : Type} (Q : Heard → Server → α → Prop) (g : Heard) (s : Server) (service : Service α) : Prop :=
  service.Assures Action.exec (delivery crypto i p start) (hear (crypto.hashCiphertext p.ciphertext)) Q g s

section Ingest

open SettlementService BridgeIngestionService

variable {crypto : CryptoService} {i : PaymentInstruction} {p : MeshPacket} {start : String}
  {s s' : Server} {g : Heard}

theorem Server.Leads.stored (h : s.Leads s') {packetHash : String} (hs : s.db.Stored packetHash) :
    s'.db.Stored packetHash := (h.log.map Transaction.packetHash).subset hs

/-- A save without faults leaves a row with the hash, old or new. -/
theorem stored_save (tx : Transaction) (db : Database) :
    (TransactionRepository.save tx none db).2.Stored (cstr tx.packetHash) := by
  by_cases h : cstr tx.packetHash ∈ db.current.transactions.rows.map Transaction.packetHash
  · rw [show TransactionRepository.save tx none db = _ from dif_pos h]
    exact h
  · rw [show TransactionRepository.save tx none db = _ from dif_neg h]
    refine List.mem_map.mpr ⟨db.current.transactions.stored tx, ?_, rfl⟩
    exact List.mem_append_right _ (List.mem_singleton_self _)

/-- So does a write block without faults. -/
theorem stored_settleBlock (sender receiver : Account) (call : SettleCall) (settledAt : ℤ)
    {db : Database} (hsp : db.savepoint = none) :
    (settleBlock sender receiver call settledAt {} db).2.Stored (cstr call.packetHash) := by
  have hends := settleBlock_ends sender receiver call settledAt {} db
  generalize settleBlock sender receiver call settledAt {} db = out at hends ⊢
  obtain ⟨r, db'⟩ := out
  cases hends with
  | unbegun h => exact absurd rfl (h.resolve_left (not_not.mpr hsp))
  | committed _ _ _ _ hnew =>
    refine List.mem_map.mpr ⟨db.current.transactions.stored (call.transaction settledAt .SETTLED), ?_, rfl⟩
    exact List.mem_append_right _ (List.mem_singleton_self _)
  | rolledBack _ _ _ hfail _ =>
    rcases hfail with hinsert | hcommit | hstored
    · exact absurd rfl hinsert
    · exact absurd rfl hcommit
    · exact hstored
  | leftOpen _ _ hroll _ _ _ => exact absurd rfl hroll

section Settle

variable {call : SettleCall} {env : SettleEnv} (hcall : call.instruction = i)
  (hhash : call.packetHash = crypto.hashCiphertext p.ciphertext) (hpos : 0 < i.amount)
  (hf : ∀ n, env.faults n = {})
  (hadmits : ∀ a, SettlementService.Performs (fun _ => True) call env a →
    (delivery crypto i p start).Admits Action.exec a)

include hcall hhash hpos hf hadmits

/-- One attempt to settle the payment leaves a row. -/
theorem attempt_carries (n : ℕ) :
    Carries crypto i p start (fun g' s' _ => g' = g ∧ s'.db.Stored (crypto.hashCiphertext p.ciphertext))
      g s (attempt call (env.settledAt n) (env.faults n)) := by
  have hbound : cstr call.packetHash = crypto.hashCiphertext p.ciphertext := by
    rw [hhash, CryptoService.cstr_hashCiphertext]
  have hsave : (delivery crypto i p start).Admits Action.exec
      (.saveTransaction (call.transaction (env.settledAt n) .REJECTED) (env.faults n).insert) :=
    hadmits _ .saveTransaction
  have hblock : ∀ sender receiver : Account, call.instruction.amount ≤ sender.balance →
      (delivery crypto i p start).Admits Action.exec
        (.settleBlock sender receiver call (env.settledAt n) (env.faults n)) :=
    fun sender receiver hcov => hadmits _ (.settleBlock trivial trivial (hcall ▸ hpos) hcov)
  rw [hf] at hsave hblock ⊢
  intro t (ht : Underway crypto i p start t) _
  refine ⟨ht, Server.growing.refl t, ?_⟩
  obtain ⟨-, sender, hsender⟩ := find?_cstr_of_mem_keys ht.sender
  have hread : ((Action.findById call.instruction.senderVpa none).exec t).1 = some sender := by
    rw [hcall]
    exact hsender
  generalize ((Action.findById call.instruction.senderVpa none).exec t).1 = r at hread ⊢
  subst hread
  intro u (hu : Underway crypto i p start u) _
  refine ⟨hu, Server.growing.refl u, ?_⟩
  obtain ⟨-, receiver, hreceiver⟩ := find?_cstr_of_mem_keys hu.receiver
  have hread' : ((Action.findById call.instruction.receiverVpa none).exec u).1 = some receiver := by
    rw [hcall]
    exact hreceiver
  generalize ((Action.findById call.instruction.receiverVpa none).exec u).1 = r at hread' ⊢
  subst hread'
  change Carries crypto i p start _ _ _ (afterReads call (env.settledAt n) {} sender receiver)
  unfold afterReads
  dsimp only
  rw [if_neg (not_le.mpr (hcall ▸ hpos))]
  split_ifs with hshort
  · intro v (hv : Underway crypto i p start v) _
    obtain ⟨hkeeps, hleads⟩ := hsave v hv
    refine ⟨hkeeps, hleads, ?_⟩
    have hstored := stored_save (call.transaction (env.settledAt n) .REJECTED) v.db
    rw [show (call.transaction (env.settledAt n) .REJECTED).packetHash = call.packetHash from rfl,
      hbound] at hstored
    generalize ((Action.saveTransaction (call.transaction (env.settledAt n) .REJECTED) none).exec v).1 = r
    cases r with
    | ok tx => exact ⟨rfl, hstored⟩
    | error e => exact ⟨rfl, hstored⟩
  · intro v (hv : Underway crypto i p start v) _
    obtain ⟨hkeeps, hleads⟩ := hblock sender receiver (not_lt.mp hshort) v hv
    refine ⟨hkeeps, hleads, rfl, ?_⟩
    have hstored := stored_settleBlock sender receiver call (env.settledAt n) hv.closed
    rwa [hbound] at hstored

theorem attempts_carry {n remaining : ℕ} (hs : Underway crypto i p start s) (hremaining : 0 < remaining) :
    Carries crypto i p start (fun g' s' _ => g' = g ∧ s'.db.Stored (crypto.hashCiphertext p.ciphertext))
      g s (attempts call env n remaining) := by
  cases remaining with
  | zero => exact absurd hremaining (lt_irrefl 0)
  | succ remaining =>
    have hfirst := (attempt_carries (g := g) (s := s) hcall hhash hpos hf hadmits n).later hs
    refine hfirst.bind fun g' s' r hr => ?_
    obtain ⟨⟨rfl, hstored⟩, hs', -⟩ := hr
    cases r with
    | returned tx => exact ⟨rfl, hstored⟩
    | thrown e => exact ⟨rfl, hstored⟩
    | failed e =>
      dsimp only
      split_ifs
      · exact ⟨rfl, hstored⟩
      · -- later attempts change nothing about the row
        have huses : (attempts call env (n + 1) remaining).Uses
            (SettlementService.Performs (fun _ => True) call env) :=
          (attempts_follows (g := ())).uses reads_true fun _ _ ha => ha
        have hrest : Carries crypto i p start (fun g'' _ _ => g'' = g') g' s'
            (attempts call env (n + 1) remaining) :=
          huses.unnoted hadmits fun g a r ha => by cases ha <;> rfl
        refine (hrest.later hs').mono fun g'' s'' x hx => ?_
        exact ⟨hx.1, hx.2.2.stored hstored⟩

end Settle

/-- Who has won the claim has left a row. -/
def Heard.Backed (packetHash : String) (g : Heard) (s : Server) : Prop :=
  g.won = true → s.db.Stored packetHash

theorem Heard.Backed.later {packetHash : String} (h : g.Backed packetHash s) (hs : s.Leads s') :
    g.Backed packetHash s' := fun hwon => hs.stored (h hwon)

/-- What a thread that has won or lost the claim knows of it afterwards. -/
structure Heard.After (packetHash : String) (g g' : Heard) (s' : Server) : Prop where
  backed : g'.Backed packetHash s'
  any : g.any = true → g'.any = true

theorem ingest_carries (hinj : Function.Injective crypto.sha256)
    (hopens : crypto.decrypt p.ciphertext = .ok i) (hpos : 0 < i.amount) {packet : MeshPacket}
    {bridgeNodeId : String} {hopCount : ℤ} {env : IngestEnv} (hf : ∀ n, env.faults n = {})
    (hfresh : packet.ciphertext = p.ciphertext → Fresh env.freshNow i.signedAt)
    (hs : Underway crypto i p start s) (hg : g.Backed (crypto.hashCiphertext p.ciphertext) s) :
    Carries crypto i p start (fun g' s' _ => g.After (crypto.hashCiphertext p.ciphertext) g' s' ∧
      (packet.ciphertext = p.ciphertext → g'.any = true)) g s
      (ingest crypto packet bridgeNodeId hopCount env) := by
  by_cases hsame : packet.ciphertext = p.ciphertext
  · intro t (ht : Underway crypto i p start t) hst
    have hreads : (Action.claim (crypto.hashCiphertext packet.ciphertext) env.claimNow).OnlyReads :=
      trivial
    obtain ⟨hkeeps, hleads⟩ := hreads.admits t ht
    refine ⟨hkeeps, hleads, ?_⟩
    generalize ((Action.claim (crypto.hashCiphertext packet.ciphertext) env.claimNow).exec t).1 = r
    have hnote : hear (crypto.hashCiphertext p.ciphertext) g
        (.claim (crypto.hashCiphertext packet.ciphertext) env.claimNow) r =
          ⟨g.won || r, g.lost || !r⟩ := if_pos (by rw [hsame])
    rw [hnote]
    cases r with
    | false =>
      refine ⟨⟨fun hwon => ?_, fun _ => ?_⟩, fun _ => ?_⟩
      · simp only [Bool.or_false] at hwon
        exact (hg.later (Server.growing.trans hst hleads)) hwon
      · simp [Heard.any]
      · simp [Heard.any]
    | true =>
      obtain ⟨hold, hnew⟩ := hfresh hsame
      have hdecrypt : crypto.decrypt packet.ciphertext = .ok i := by rw [hsame, hopens]
      change Carries crypto i p start _ _ _ (afterClaim crypto packet bridgeNodeId hopCount env _)
      unfold afterClaim
      rw [hdecrypt]
      dsimp only
      rw [if_neg (not_lt.mpr hold), if_neg (not_lt.mpr hnew)]
      have hadmits : ∀ a, SettlementService.Performs (fun _ => True) ⟨i,
          crypto.hashCiphertext packet.ciphertext, bridgeNodeId, hopCount⟩ env.toSettleEnv a →
            (delivery crypto i p start).Admits Action.exec a := fun a ha =>
        uploads_admits hinj hopens hf (.settles hdecrypt ⟨hold, hnew⟩ ha)
      have hsettle : Carries crypto i p start
          (fun g' s' _ => g' = ⟨g.won || true, g.lost || !true⟩ ∧
            s'.db.Stored (crypto.hashCiphertext p.ciphertext)) ⟨g.won || true, g.lost || !true⟩ _
          (settle _ env.toSettleEnv) :=
        attempts_carry rfl (by rw [hsame]) hpos hf hadmits hkeeps (by decide : 0 < maxAttempts)
      refine hsettle.bind fun g' s' tx htx => ?_
      obtain ⟨rfl, hstored⟩ := htx
      refine ⟨⟨fun _ => hstored, fun _ => ?_⟩, fun _ => ?_⟩
      · simp [Heard.any]
      · simp [Heard.any]
  · -- the claim is another one, of which no note is taken
    have huses : (ingest crypto packet bridgeNodeId hopCount env).Uses
        (Uploads crypto packet.ciphertext bridgeNodeId hopCount env) :=
      ingest_uploads packet bridgeNodeId hopCount env
    have hrun : Carries crypto i p start (fun g' _ _ => g' = g) g s
        (ingest crypto packet bridgeNodeId hopCount env) := by
      refine huses.unnoted (fun a ha => uploads_admits hinj hopens hf ha) fun g a r ha => ?_
      cases ha with
      | claim => exact if_neg fun h => hsame ((CryptoService.hashCiphertext_inj hinj).mp h)
      | settles _ _ ha => cases ha <;> rfl
    refine (hrun.later hs).mono fun g' s' r hr => ?_
    obtain ⟨rfl, -, hleads⟩ := hr
    exact ⟨⟨hg.later hleads, fun h => h⟩, fun h => absurd h hsame⟩

end Ingest

section Mesh

open MeshSimulatorService

variable {crypto : CryptoService} {i : PaymentInstruction} {p : MeshPacket} {start : String}
  {s s' : Server} {g : Heard}

/-- What is known of a packet that has been read from a device. -/
def Known (p : MeshPacket) (start : String) (s : Server) (q : MeshPacket) : Prop :=
  q.packetId = p.packetId → q.ciphertext = p.ciphertext ∧ p.packetId ∈ s.held start

theorem Known.later {q : MeshPacket} (h : Known p start s q) (hs : s.Leads s') : Known p start s' q :=
  fun hid => ⟨(h hid).1, hs.ids _ _ (h hid).2⟩

theorem Underway.known (h : Underway crypto i p start s) {d : String} {order : IterOrder} {q : MeshPacket}
    (hq : q ∈ VirtualDevice.getHeldPackets order (s.held d)) : Known p start s q := by
  obtain ⟨k, hk⟩ := VirtualDevice.mem_getHeldPackets.mp hq
  obtain ⟨hfiled, hcarried⟩ := h.carried d k q hk
  intro hid
  have hmem : p.packetId ∈ s.held d := by
    rw [← hid, hfiled]
    exact mem_of_getElem?_eq_some hk
  exact ⟨hcarried hid, mem_of_getElem?_eq_some (h.started d hmem)⟩

theorem snapshot_carries (packets : String → IterOrder) (devices : List VirtualDevice)
    (hs : Underway crypto i p start s) :
    Carries crypto i p start (fun g' s' sources => g' = g ∧
      (∀ source ∈ sources, ∀ q ∈ source.2, Known p start s' q) ∧
      ∀ d ∈ devices, d.deviceId = start → p.packetId ∈ s.held start →
        ∃ held, (d, held) ∈ sources ∧ p ∈ held) g s (snapshot packets devices) := by
  induction devices generalizing s with
  | nil => exact ⟨rfl, fun _ h => absurd h List.not_mem_nil, fun _ h => absurd h List.not_mem_nil⟩
  | cons d devices ih =>
    intro t (ht : Underway crypto i p start t) hst
    refine ⟨ht, Server.growing.refl t, ((ih ht).later ht).bind fun g' s' sources hsources => ?_⟩
    obtain ⟨⟨rfl, hknown, hlisted⟩, -, hleads⟩ := hsources
    refine ⟨rfl, List.forall_mem_cons.mpr ⟨fun q hq => (ht.known hq).later hleads, hknown⟩, ?_⟩
    intro d' hd' hstart hheld
    have hheld' : p.packetId ∈ t.held start := hst.ids _ _ hheld
    rcases List.mem_cons.mp hd' with rfl | hd'
    · refine ⟨_, List.mem_cons_self, VirtualDevice.mem_getHeldPackets.mpr ⟨p.packetId, ?_⟩⟩
      rw [hstart]
      exact ht.started start hheld'
    · obtain ⟨held, hmem, hp⟩ := hlisted d' hd' hstart hheld'
      exact ⟨held, List.mem_cons_of_mem _ hmem, hp⟩

theorem offer_carries {src : VirtualDevice} {packet : MeshPacket} (devices : List VirtualDevice)
    (hs : Underway crypto i p start s) (hknown : Known p start s packet) :
    Carries crypto i p start (fun g' s' _ => g' = g ∧ (packet.packetId = p.packetId →
      ∀ dst ∈ devices, dst = src ∨ p.packetId ∈ s'.held dst.deviceId)) g s
      (offer src packet devices) := by
  induction devices generalizing s with
  | nil => exact ⟨rfl, fun _ _ h => absurd h List.not_mem_nil⟩
  | cons dst devices ih =>
    unfold offer
    split_ifs with hsrc
    · refine (ih hs hknown).mono fun g' s' _ h => ?_
      exact ⟨h.1, fun hid => List.forall_mem_cons.mpr ⟨Or.inl hsrc, h.2 hid⟩⟩
    · intro t (ht : Underway crypto i p start t) hst
      refine ⟨ht, Server.growing.refl t, ?_⟩
      have hknownt := hknown.later hst
      by_cases hheld : packet.packetId ∈ t.held dst.deviceId
      · have hholds : ((Action.holds dst.deviceId packet.packetId).exec t).1 = true := hheld
        generalize ((Action.holds dst.deviceId packet.packetId).exec t).1 = r at hholds ⊢
        subst hholds
        refine ((ih ht hknownt).later ht).mono fun g' s' _ h => ?_
        obtain ⟨⟨rfl, hrest⟩, -, hleads⟩ := h
        refine ⟨rfl, fun hid => List.forall_mem_cons.mpr ⟨Or.inr ?_, hrest hid⟩⟩
        exact hleads.ids _ _ (hid ▸ hheld)
      · have hholds : ((Action.holds dst.deviceId packet.packetId).exec t).1 = false :=
          Bool.eq_false_iff.mpr hheld
        generalize ((Action.holds dst.deviceId packet.packetId).exec t).1 = r at hholds ⊢
        subst hholds
        intro u (hu : Underway crypto i p start u) htu
        -- the start device was found to hold the packet, so this is another device or another packet
        have hcopy : packet.packetId = p.packetId → packet.copy.ciphertext = p.ciphertext ∧
            (dst.deviceId = start → packet.copy = p) ∧
            (dst.deviceId ≠ start → p.packetId ∈ u.held start) := by
          intro hid
          obtain ⟨hciphertext, hstart⟩ := hknownt hid
          refine ⟨hciphertext, fun hdst => ?_, fun _ => htu.ids _ _ hstart⟩
          rw [hdst, hid] at hheld
          exact absurd hstart hheld
        obtain ⟨hkeeps, hleads⟩ := hu.hold_admitted (d := dst.deviceId) (q := packet.copy) hcopy
        have hknown' := hknownt.later (Server.growing.trans htu hleads)
        refine ⟨hkeeps, hleads, ((ih hkeeps hknown').later hkeeps).bind fun g' s' _ h => ?_⟩
        obtain ⟨⟨rfl, hrest⟩, -, hleads'⟩ := h
        refine ⟨rfl, fun hid => List.forall_mem_cons.mpr ⟨Or.inr ?_, hrest hid⟩⟩
        have hfiled : ((u.updateDevice dst.deviceId (VirtualDevice.hold packet.copy)).held
            dst.deviceId)[p.packetId]? = some packet.copy := by rw [getElem?_hold, if_pos ⟨rfl, hid⟩]
        exact hleads'.ids _ _ (mem_of_getElem?_eq_some hfiled)

theorem spread_carries (devices : List VirtualDevice) {src : VirtualDevice} {held : List MeshPacket}
    (hs : Underway crypto i p start s) (hknown : ∀ q ∈ held, Known p start s q) :
    Carries crypto i p start (fun g' s' _ => g' = g ∧ (p ∈ held → 0 < p.ttl →
      ∀ dst ∈ devices, dst = src ∨ p.packetId ∈ s'.held dst.deviceId)) g s (spread devices src held) := by
  induction held generalizing s with
  | nil => exact ⟨rfl, fun h => absurd h List.not_mem_nil⟩
  | cons packet held ih =>
    obtain ⟨hpacket, hheld⟩ := List.forall_mem_cons.mp hknown
    unfold spread
    split_ifs with httl
    · refine (ih hs hheld).mono fun g' s' _ h => ⟨h.1, fun hp hpos => ?_⟩
      rcases List.mem_cons.mp hp with rfl | hp
      · exact absurd httl (not_le.mpr hpos)
      · exact h.2 hp hpos
    · refine ((offer_carries devices hs hpacket).later hs).bind fun k t _ h => ?_
      obtain ⟨⟨rfl, hoffered⟩, ht, hst⟩ := h
      refine ((ih ht fun q hq => (hheld q hq).later hst).later ht).bind fun g' s' _ h => ?_
      obtain ⟨⟨rfl, hrest⟩, -, hts'⟩ := h
      refine ⟨rfl, fun hp hpos => ?_⟩
      rcases List.mem_cons.mp hp with rfl | hp
      · exact fun dst hdst => (hoffered rfl dst hdst).imp_right (hts'.ids _ _)
      · exact hrest hp hpos

theorem spreadAll_carries (devices : List VirtualDevice) {sources : List (VirtualDevice × List MeshPacket)}
    (hs : Underway crypto i p start s) (hknown : ∀ source ∈ sources, ∀ q ∈ source.2, Known p start s q) :
    Carries crypto i p start (fun g' s' _ => g' = g ∧ (0 < p.ttl → ∀ src held, (src, held) ∈ sources →
      p ∈ held → ∀ dst ∈ devices, dst = src ∨ p.packetId ∈ s'.held dst.deviceId)) g s
      (spreadAll devices sources) := by
  induction sources generalizing s with
  | nil => exact ⟨rfl, fun _ _ _ h => absurd h List.not_mem_nil⟩
  | cons source sources ih =>
    obtain ⟨src, held⟩ := source
    obtain ⟨hheld, hsources⟩ := List.forall_mem_cons.mp hknown
    refine ((spread_carries devices hs hheld).later hs).bind fun k t _ h => ?_
    obtain ⟨⟨rfl, hspread⟩, ht, hst⟩ := h
    refine ((ih ht fun source hsource q hq => (hsources source hsource q hq).later hst).later
      ht).bind fun g' s' _ h => ?_
    obtain ⟨⟨rfl, hrest⟩, -, hts'⟩ := h
    refine ⟨rfl, fun hpos src' held' hmem hp => ?_⟩
    rcases List.mem_cons.mp hmem with hfirst | hmem
    · obtain ⟨rfl, rfl⟩ := Prod.mk.inj hfirst
      exact fun dst hdst => (hspread hp hpos dst hdst).imp_right (hts'.ids _ _)
    · exact hrest hpos src' held' hmem hp

/-- A gossip round that starts when the start device holds the packet brings it to every device. -/
theorem gossip_carries (packets : String → IterOrder) (devices : List VirtualDevice)
    (hs : Underway crypto i p start s) :
    Carries crypto i p start (fun g' s' _ => g' = g ∧ (p.packetId ∈ s.held start → 0 < p.ttl →
      (∃ d ∈ devices, d.deviceId = start) → ∀ d ∈ devices, p.packetId ∈ s'.held d.deviceId)) g s
      (gossipAmong packets devices) := by
  refine ((snapshot_carries packets devices hs).later hs).bind fun g₁ t sources h => ?_
  obtain ⟨⟨rfl, hknown, hlisted⟩, ht, hst⟩ := h
  refine ((spreadAll_carries devices ht hknown).later ht).bind fun g₂ u _ h => ?_
  obtain ⟨⟨rfl, hspread⟩, hu, htu⟩ := h
  have huses : ∀ ds, (snapshotMap ds).Uses fun a => ∃ d, a = .packetCount d := by
    intro ds
    induction ds with
    | nil => exact trivial
    | cons d ds ih => exact ⟨⟨_, rfl⟩, fun _ => ih.bind fun _ => trivial⟩
  have hcounts : Carries crypto i p start (fun g' _ _ => g' = g₂) g₂ u (snapshotMap devices) := by
    refine (huses devices).unnoted ?_ ?_
    · rintro _ ⟨d, rfl⟩
      exact Action.OnlyReads.admits trivial
    · rintro g _ r ⟨d, rfl⟩
      rfl
  refine (hcounts.later hu).bind fun g' s' _ h => ?_
  obtain ⟨rfl, -, hus'⟩ := h
  refine ⟨rfl, fun hheld hpos hin d hd => ?_⟩
  obtain ⟨src, hsrc, rfl⟩ := hin
  obtain ⟨held, hmem, hp⟩ := hlisted src hsrc rfl hheld
  rcases hspread hpos src held hmem hp d hd with rfl | hd'
  · exact hus'.ids _ _ (htu.ids _ _ (hst.ids _ _ hheld))
  · exact hus'.ids _ _ hd'

/-- A bridge that holds the packet uploads it. -/
theorem collect_carries (packets : String → IterOrder) (devices : List VirtualDevice)
    (hs : Underway crypto i p start s) :
    Carries crypto i p start (fun g' _ uploads => g' = g ∧ ∀ d ∈ devices, d.hasInternet = true →
      p.packetId ∈ s.held d.deviceId → ∃ up ∈ uploads, up.bridgeNodeId = d.deviceId ∧
        up.packet.packetId = p.packetId ∧ up.packet.ciphertext = p.ciphertext) g s
      (collectFrom packets devices) := by
  induction devices generalizing s with
  | nil => exact ⟨rfl, fun _ h => absurd h List.not_mem_nil⟩
  | cons d devices ih =>
    unfold collectFrom
    split_ifs with hinternet
    · intro t (ht : Underway crypto i p start t) hst
      refine ⟨ht, Server.growing.refl t, (ih ht).bind fun g' s' uploads h => ?_⟩
      obtain ⟨rfl, hrest⟩ := h
      refine ⟨rfl, List.forall_mem_cons.mpr ⟨fun _ hheld => ?_, fun d' hd' hinternet' hheld => ?_⟩⟩
      · obtain ⟨q, hq⟩ := mem_iff_exists_getElem?.mp (hst.ids _ _ hheld)
        obtain ⟨hid, hciphertext⟩ := ht.carried _ _ q hq
        have hmem : q ∈ VirtualDevice.getHeldPackets (packets d.deviceId) (t.held d.deviceId) :=
          VirtualDevice.mem_getHeldPackets.mpr ⟨_, hq⟩
        exact ⟨⟨d.deviceId, q⟩, List.mem_append_left _ (List.mem_map.mpr ⟨q, hmem, rfl⟩), rfl, hid,
          hciphertext hid⟩
      · obtain ⟨up, hup, hup'⟩ := hrest d' hd' hinternet' (hst.ids _ _ hheld)
        exact ⟨up, List.mem_append_right _ hup, hup'⟩
    · refine (ih hs).mono fun g' s' uploads h => ⟨h.1, List.forall_mem_cons.mpr ⟨?_, h.2⟩⟩
      exact fun h => absurd h hinternet

/-- A flush hears of the claim of every upload of the packet, and answers every upload. -/
theorem ingestUploads_carries (hinj : Function.Injective crypto.sha256)
    (hopens : crypto.decrypt p.ciphertext = .ok i) (hpos : 0 < i.amount) {ingests : ℕ → IngestEnv}
    (hingests : ∀ m, (∀ n, (ingests m).faults n = {}) ∧
      BridgeIngestionService.Fresh (ingests m).freshNow i.signedAt) {n : ℕ} {uploads : List BridgeUpload}
    (hs : Underway crypto i p start s) (hg : g.Backed (crypto.hashCiphertext p.ciphertext) s) :
    Carries crypto i p start (fun g' s' results => g.After (crypto.hashCiphertext p.ciphertext) g' s' ∧
      (∀ up ∈ uploads, up.packet.ciphertext = p.ciphertext → g'.any = true) ∧
      results.map (fun r => (r.bridgeNode, r.packetId)) =
        uploads.map fun up => (up.bridgeNodeId, ApiController.substr up.packet.packetId 8)) g s
      (ApiController.ingestUploads crypto ingests n uploads) := by
  induction uploads generalizing s g n with
  | nil => exact ⟨⟨hg, fun h => h⟩, fun _ h => absurd h List.not_mem_nil, rfl⟩
  | cons up uploads ih =>
    obtain ⟨hf, hfresh⟩ := hingests n
    refine ((ingest_carries hinj hopens hpos hf (fun _ => hfresh) hs hg).later hs).bind fun g₁ t r h => ?_
    obtain ⟨⟨hafter, hheard⟩, ht, -⟩ := h
    refine (ih ht hafter.backed).bind fun g' _ results h => ?_
    obtain ⟨hafter', hheard', hresults⟩ := h
    refine ⟨⟨hafter'.backed, fun h => hafter'.any (hafter.any h)⟩, ?_, ?_⟩
    · exact List.forall_mem_cons.mpr ⟨fun hup => hafter'.any (hheard hup), hheard'⟩
    · rw [List.map_cons, List.map_cons, hresults]
      rfl

end Mesh

end UpiMesh
