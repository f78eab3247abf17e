import UpiMesh.DeliveryRely
import UpiMesh.Sections

/-!
# Delivery under interference

A client sends a payment, later starts a gossip round, and later a flush, with any requests in between;
other clients do what they like at the same time, short of a reset, and the code runs lock by lock. When
all have been answered, the packet is on every device, the flush has answered for it, and exactly one row
has its hash and decides the payment.
-/

namespace UpiMesh

open Concurrent MeshSimulatorService

/-- A request that does not stand in the way of a payment: nothing is reset, no statement fails, no other
packet has the id, and what is uploaded of it is uploaded in time. -/
def ServerCall.Admitted (request : DemoSendRequest) (env : DemoSendEnv) (ciphertext : String) :
    ServerCall → Prop
  | .operation (.ingest packet _ _ ingestEnv) => (∀ n, ingestEnv.faults n = {}) ∧
      (packet.ciphertext = ciphertext → BridgeIngestionService.Fresh ingestEnv.freshNow env.now)
  | .operation (.demoSend other otherEnv) => otherEnv.packetId = env.packetId →
      other = request ∧ otherEnv = env
  | .operation (.meshFlush flush) => ∀ m, (∀ n, (flush.ingests m).faults n = {}) ∧
      BridgeIngestionService.Fresh (flush.ingests m).freshNow env.now
  | .operation (.resetDatabase _) => False
  | .operation (.meshReset ..) => False
  | _ => True

/-- What a thread hears of a claim in its calls. -/
def hears (packetHash : String) (g : Heard) : (c : Call) → c.Response → Heard
  | .action a, r => hear packetHash g a r
  | .query _, _ => g

/-- Whoever has heard of the claim, somebody has won it. -/
def Claimed {ι : Type} (packetHash : String) (s : Server) (γ : ι → Heard) : Prop :=
  (packetHash ∈ s.seen ∨ ∃ j, (γ j).lost = true) → ∃ j, (γ j).won = true

section Claims

variable {ι : Type} [DecidableEq ι] {packetHash : String} {s : Server} {γ : ι → Heard}

/-- A thread that hears of no claim. -/
theorem Claimed.unheard (h : Claimed packetHash s γ) {s' : Server}
    (hseen : packetHash ∈ s'.seen → packetHash ∈ s.seen) (i : ι) :
    Claimed packetHash s' (Function.update γ i (γ i)) := by
  rw [Function.update_eq_self]
  exact fun h' => h (h'.imp_left hseen)

theorem Claimed.claim (h : Claimed packetHash s γ) (i : ι) (now : ℤ) :
    Claimed packetHash ((Action.claim packetHash now).exec s).2
      (Function.update γ i (hear packetHash (γ i) (.claim packetHash now)
        ((Action.claim packetHash now).exec s).1)) := by
  have hnote : ∀ r, hear packetHash (γ i) (.claim packetHash now) r =
      ⟨(γ i).won || r, (γ i).lost || !r⟩ := fun r => if_pos rfl
  rw [hnote]
  by_cases hseen : packetHash ∈ s.seen
  · obtain ⟨j, hj⟩ := h (Or.inl hseen)
    refine fun _ => ⟨j, ?_⟩
    by_cases hji : j = i
    · subst hji
      simp only [Function.update_self, hj, Bool.true_or]
    · simpa only [Function.update_of_ne hji] using hj
  · have hwon : (IdempotencyService.claim packetHash now s.seen).1 = true :=
      IdempotencyService.claim_fst_of_notMem hseen
    rw [show ((Action.claim packetHash now).exec s).1 = true from hwon]
    exact fun _ => ⟨i, by simp only [Function.update_self, Bool.or_true]⟩

theorem Claimed.step (h : Claimed packetHash s γ) (i : ι) (c : Call) :
    Claimed packetHash (c.exec s).2 (Function.update γ i (hears packetHash (γ i) c (c.exec s).1)) := by
  cases c with
  | query q => exact h.unheard (fun hs => hs) i
  | action a =>
    cases a with
    | claim k now =>
      by_cases hk : k = packetHash
      · subst hk
        exact h.claim i now
      · have hnote : hears packetHash (γ i) (.action (.claim k now))
            ((Call.action (.claim k now)).exec s).1 = γ i := if_neg hk
        rw [hnote]
        refine h.unheard (fun hs => ?_) i
        exact ((IdempotencyService.mem_claim k packetHash now s.seen).mp hs).resolve_left hk
    | evictExpired now => exact h.unheard (fun hs => IdempotencyService.mem_of_mem_evictExpired hs) i
    | clearSeen => exact h.unheard (fun hs => absurd hs Std.ExtTreeMap.not_mem_empty) i
    | _ => exact h.unheard (fun hs => hs) i

end Claims

/-- How an endpoint proceeds while the payment is on its way. -/
abbrev Proceeds (crypto : CryptoService) (request : DemoSendRequest) (env : DemoSendEnv)
    (ciphertext : String) {α : Type} (Q : Heard → Server → α → Prop) (g : Heard) (s : Server)
    (p : Endpoint α) : Prop :=
  p.Assures Call.exec (delivery crypto (ApiController.instruction crypto request env)
    (ApiController.packet request env ciphertext) (ApiController.startDevice request))
    (hears (crypto.hashCiphertext ciphertext)) Q g s

/-- The payment is on its way. -/
abbrev OnItsWay (crypto : CryptoService) (request : DemoSendRequest) (env : DemoSendEnv)
    (ciphertext : String) (s : Server) : Prop :=
  Underway crypto (ApiController.instruction crypto request env)
    (ApiController.packet request env ciphertext) (ApiController.startDevice request) s

section Calls

variable {crypto : CryptoService} {json : JsonLibrary} {b : Binary64} {request : DemoSendRequest}
  {env : DemoSendEnv} {ciphertext : String} {s : Server} {g : Heard}

theorem serve_proceeds {α : Type} {service : Service α} {Q : Heard → Server → α → Prop}
    (h : Carries crypto (ApiController.instruction crypto request env)
      (ApiController.packet request env ciphertext) (ApiController.startDevice request) Q g s service) :
    Proceeds crypto request env ciphertext Q g s service.serve := by
  induction service generalizing g s with
  | ret x => exact h
  | act a next ih =>
    intro t ht hst
    obtain ⟨hkeeps, hleads, hnext⟩ := h t ht hst
    exact ⟨hkeeps, hleads, ih _ hnext⟩

theorem operation_proceeds {op : Op} {Q : Heard → Server → Reply → Prop}
    (h : Carries crypto (ApiController.instruction crypto request env)
      (ApiController.packet request env ciphertext) (ApiController.startDevice request) Q g s
      (op.program crypto)) :
    Proceeds crypto request env ciphertext (fun g' s' reply => ∃ r, reply = .replied r ∧ Q g' s' r) g s
      ((ServerCall.operation op).program crypto json b) :=
  (serve_proceeds h).bind fun _ _ r hr => ⟨r, rfl, hr⟩

theorem After.of_unheard {α : Type} {p : Endpoint α} (hs : OnItsWay crypto request env ciphertext s)
    (hg : g.Backed (crypto.hashCiphertext ciphertext) s)
    (h : Proceeds crypto request env ciphertext (fun g' _ _ => g' = g) g s p) :
    Proceeds crypto request env ciphertext
      (fun g' s' _ => g.After (crypto.hashCiphertext ciphertext) g' s') g s p := by
  refine (h.later hs).mono fun g' s' _ hx => ?_
  obtain ⟨rfl, -, hleads⟩ := hx
  exact ⟨hg.later hleads, fun hany => hany⟩

/-- Calls that hear of no claim and change nothing that matters. -/
def Call.Unheard : Call → Prop
  | .action (.claim ..) => False
  | .action a => a.OnlyReads
  | .query _ => True

theorem unheard_proceeds {α : Type} {p : Endpoint α} (h : p.Uses Call.Unheard)
    (hs : OnItsWay crypto request env ciphertext s)
    (hg : g.Backed (crypto.hashCiphertext ciphertext) s) :
    Proceeds crypto request env ciphertext
      (fun g' s' _ => g.After (crypto.hashCiphertext ciphertext) g' s') g s p := by
  refine After.of_unheard hs hg (h.unnoted ?_ ?_)
  · intro c hc
    cases c with
    | query q => exact fun t ht => ⟨ht, Server.growing.refl t⟩
    | action a =>
      have hreads : a.OnlyReads := by
        cases a with
        | claim k now => exact hc.elim
        | _ => exact hc
      exact hreads.admits
  · intro g c r hc
    cases c with
    | query q => rfl
    | action a =>
      cases a with
      | claim k now => exact hc.elim
      | _ => rfl

/-- Another client's packet is filed, or this one where it starts. -/
theorem demoSend_carries {other : DemoSendRequest} {otherEnv : DemoSendEnv}
    (hother : otherEnv.packetId = env.packetId → other = request ∧ otherEnv = env)
    (henc : crypto.encrypt (ApiController.instruction crypto request env) env.random = .ok ciphertext)
    (hs : OnItsWay crypto request env ciphertext s) :
    Carries crypto (ApiController.instruction crypto request env)
      (ApiController.packet request env ciphertext) (ApiController.startDevice request)
      (fun g' s' _ => g' = g ∧ (other = request → otherEnv = env →
        (getDevice (ApiController.startDevice request)).isSome →
          env.packetId ∈ s'.held (ApiController.startDevice request))) g s
      (ApiController.demoSend crypto other otherEnv) := by
  unfold ApiController.demoSend
  cases hc : crypto.encrypt (ApiController.instruction crypto other otherEnv) otherEnv.random with
  | error e =>
    refine ⟨rfl, ?_⟩
    rintro rfl rfl -
    rw [henc] at hc
    cases hc
  | ok c =>
    dsimp only [inject]
    cases hfind : getDevice (ApiController.startDevice other) with
    | none =>
      refine ⟨rfl, ?_⟩
      rintro rfl rfl hsome
      rw [hfind] at hsome
      cases hsome
    | some d =>
      have hid : d.deviceId = ApiController.startDevice other := by
        simpa using List.find?_some hfind
      intro t (ht : OnItsWay crypto request env ciphertext t) _
      have hhold := ht.hold_admitted (d := d.deviceId) (q := ApiController.packet other otherEnv c)
        (fun hsame => by
          obtain ⟨rfl, rfl⟩ := hother hsame
          obtain rfl := Except.ok.inj (hc.symm.trans henc)
          exact ⟨rfl, fun _ => rfl, fun h => absurd hid h⟩)
      refine ⟨hhold.1, hhold.2, rfl, ?_⟩
      rintro rfl rfl -
      have hfiled : ((t.updateDevice d.deviceId (VirtualDevice.hold (ApiController.packet other otherEnv
          c))).held d.deviceId)[otherEnv.packetId]? = some (ApiController.packet other otherEnv c) := by
        rw [getElem?_hold, if_pos ⟨rfl, rfl⟩]
      rw [← hid]
      exact mem_of_getElem?_eq_some hfiled

/-- A gossip round as a request. -/
theorem meshGossip_proceeds (order : MeshOrder) (hs : OnItsWay crypto request env ciphertext s) :
    Carries crypto (ApiController.instruction crypto request env)
      (ApiController.packet request env ciphertext) (ApiController.startDevice request)
      (fun g' s' _ => g' = g ∧ (env.packetId ∈ s.held (ApiController.startDevice request) →
        0 < ApiController.startTtl request → (getDevice (ApiController.startDevice request)).isSome →
          ∀ d ∈ defaultDevices, env.packetId ∈ s'.held d.deviceId)) g s
      (ApiController.meshGossip order) := by
  refine (gossip_carries order.packets (getDevices order) hs).mono fun g' s' _ h => ?_
  refine ⟨h.1, fun hheld httl hsome d hd => ?_⟩
  obtain ⟨src, hsrc⟩ := Option.isSome_iff_exists.mp hsome
  have hid : src.deviceId = ApiController.startDevice request := by simpa using List.find?_some hsrc
  have hlisted : src ∈ getDevices order :=
    (order.devices_perm _).mem_iff.mpr (List.mem_of_find?_eq_some hsrc)
  exact h.2 hheld httl ⟨src, hlisted, hid⟩ d ((order.devices_perm _).mem_iff.mpr hd)

section Requests

variable (hinj : Function.Injective crypto.sha256)
  (henc : crypto.encrypt (ApiController.instruction crypto request env) env.random = .ok ciphertext)
  (hopens : crypto.decrypt ciphertext = .ok (ApiController.instruction crypto request env))
  (hpos : 0 < request.amount)

include hinj hopens hpos in
/-- A flush in time hears of the claim if the bridge holds the packet, and answers for it. -/
theorem meshFlush_carries {flush : MeshFlushEnv}
    (hflush : (ServerCall.operation (.meshFlush flush)).Admitted request env ciphertext)
    (hs : OnItsWay crypto request env ciphertext s)
    (hg : g.Backed (crypto.hashCiphertext ciphertext) s) :
    Carries crypto (ApiController.instruction crypto request env)
      (ApiController.packet request env ciphertext) (ApiController.startDevice request)
      (fun g' s' reply => g.After (crypto.hashCiphertext ciphertext) g' s' ∧
        (env.packetId ∈ s.held "phone-bridge" → g'.any = true ∧ ∃ r ∈ reply.results,
          r.bridgeNode = "phone-bridge" ∧ r.packetId = ApiController.substr env.packetId 8)) g s
      (ApiController.meshFlush crypto flush) := by
  have hingests : ∀ m, (∀ n, (flush.ingests m).faults n = {}) ∧ BridgeIngestionService.Fresh
      (flush.ingests m).freshNow (ApiController.instruction crypto request env).signedAt := hflush
  refine ((collect_carries flush.order.packets (getDevices flush.order) hs).later hs).bind
    fun g₁ t uploads h => ?_
  obtain ⟨⟨rfl, hcollected⟩, ht, hst⟩ := h
  refine (ingestUploads_carries hinj hopens hpos hingests ht (hg.later hst)).bind fun g' s' results h => ?_
  obtain ⟨hafter, hheard, hresults⟩ := h
  refine ⟨hafter, fun hheld => ?_⟩
  have hbridge : (⟨"phone-bridge", true⟩ : VirtualDevice) ∈ getDevices flush.order :=
    (flush.order.devices_perm _).mem_iff.mpr (by decide)
  obtain ⟨up, hup, hnode, hid, hciphertext⟩ := hcollected _ hbridge rfl hheld
  have hmem : (up.bridgeNodeId, ApiController.substr up.packet.packetId 8) ∈
      results.map fun r => (r.bridgeNode, r.packetId) := by
    rw [hresults]
    exact List.mem_map.mpr ⟨up, hup, rfl⟩
  obtain ⟨r, hr, hpair⟩ := List.mem_map.mp hmem
  obtain ⟨hrnode, hrid⟩ := Prod.mk.inj hpair
  refine ⟨hheard up hup hciphertext, r, hr, hrnode.trans hnode, ?_⟩
  rw [hrid, hid]
  rfl

include hinj henc hopens hpos

/-- Every admitted request proceeds, and leaves a row behind if it wins the claim. -/
theorem call_proceeds {call : ServerCall} (hcall : call.Admitted request env ciphertext)
    (hs : OnItsWay crypto request env ciphertext s)
    (hg : g.Backed (crypto.hashCiphertext ciphertext) s) :
    Proceeds crypto request env ciphertext
      (fun g' s' _ => g.After (crypto.hashCiphertext ciphertext) g' s') g s
      (call.program crypto json b) := by
  cases call with
  | operation op =>
    refine Program.Assures.bind ?_ fun g' s' r h => h
    cases op with
    | ingest packet bridgeNodeId hopCount ingestEnv =>
      obtain ⟨hf, hfresh⟩ := hcall
      exact serve_proceeds
        ((ingest_carries hinj hopens hpos hf hfresh hs hg).bind fun g' s' r h => h.1)
    | evictExpired now => exact unheard_proceeds ⟨trivial, fun _ => trivial⟩ hs hg
    | resetDatabase faults => exact hcall.elim
    | demoSend other otherEnv =>
      refine After.of_unheard hs hg (serve_proceeds ?_)
      exact (demoSend_carries hcall henc hs).bind fun g' s' r h => h.1
    | meshGossip order =>
      refine After.of_unheard hs hg (serve_proceeds ?_)
      exact (meshGossip_proceeds order hs).bind fun g' s' r h => h.1
    | meshFlush flush =>
      exact serve_proceeds ((meshFlush_carries hinj hopens hpos hcall hs hg).bind fun g' s' r h => h.1)
    | meshReset order faults => exact hcall.elim
  | meshState order =>
    refine unheard_proceeds ?_ hs hg
    have hstates : ∀ devices, (ApiController.deviceStates order.packets devices).Uses Call.Unheard := by
      intro devices
      induction devices with
      | nil => exact trivial
      | cons d devices ih => exact ⟨trivial, fun _ => ⟨trivial, fun _ => ih.bind fun _ => trivial⟩⟩
    have hstate : (ApiController.meshState order).Uses Call.Unheard :=
      (hstates _).bind fun _ => ⟨trivial, fun _ => trivial⟩
    exact hstate.bind fun _ => trivial
  | listAccounts fault => exact unheard_proceeds ⟨trivial, fun _ => trivial⟩ hs hg
  | listTransactions fault =>
    exact unheard_proceeds ⟨trivial, fun rows => by cases rows <;> exact trivial⟩ hs hg

theorem programs_proceed {calls : List ServerCall}
    (hcalls : ∀ call ∈ calls, call.Admitted request env ciphertext)
    (hs : OnItsWay crypto request env ciphertext s)
    (hg : g.Backed (crypto.hashCiphertext ciphertext) s) :
    Proceeds crypto request env ciphertext
      (fun g' s' _ => g.After (crypto.hashCiphertext ciphertext) g' s') g s
      (ServerCall.programs crypto json b calls) := by
  induction calls generalizing s g with
  | nil => exact ⟨hg, fun h => h⟩
  | cons call calls ih =>
    obtain ⟨hcall, hcalls⟩ := List.forall_mem_cons.mp hcalls
    refine ((call_proceeds hinj henc hopens hpos hcall hs hg).later hs).bind fun g₁ t r h => ?_
    obtain ⟨hafter, ht, -⟩ := h
    refine (ih hcalls ht hafter.backed).bind fun g' s' replies h => ?_
    exact ⟨h.backed, fun hany => h.any (hafter.any hany)⟩

/-- What the client knows at the end of its session, in which the flush is request number `n`. -/
structure Confirmed (crypto : CryptoService) (json : JsonLibrary) (request : DemoSendRequest)
    (env : DemoSendEnv) (ciphertext : String) (n : ℕ) (g : Heard) (s : Server)
    (replies : List (ServerReply json)) : Prop where
  backed : g.Backed (crypto.hashCiphertext ciphertext) s
  heard : g.any = true
  everywhere : 1 ≤ ApiController.startTtl request →
    ∀ d ∈ defaultDevices, env.packetId ∈ s.held d.deviceId
  answered : ∃ reply, replies[n]? = some (.replied (.flushed reply)) ∧ ∃ r ∈ reply.results,
    r.bridgeNode = "phone-bridge" ∧ r.packetId = ApiController.substr env.packetId 8

omit hinj henc hopens hpos in
theorem Confirmed.cons {n : ℕ} {replies : List (ServerReply json)}
    (h : Confirmed crypto json request env ciphertext n g s replies) (reply : ServerReply json) :
    Confirmed crypto json request env ciphertext (n + 1) g s (reply :: replies) := by
  obtain ⟨flushed, hflushed, hr⟩ := h.answered
  exact ⟨h.backed, h.heard, h.everywhere, flushed, List.getElem?_cons_succ.trans hflushed, hr⟩

/-- The requests before a part of the session change nothing about its outcome. -/
theorem prefix_proceeds {n : ℕ} {before rest : List ServerCall}
    (hbefore : ∀ call ∈ before, call.Admitted request env ciphertext)
    (hs : OnItsWay crypto request env ciphertext s)
    (hg : g.Backed (crypto.hashCiphertext ciphertext) s)
    (hrest : ∀ k t, OnItsWay crypto request env ciphertext t → s.Leads t →
      k.Backed (crypto.hashCiphertext ciphertext) t →
      Proceeds crypto request env ciphertext (Confirmed crypto json request env ciphertext n) k t
        (ServerCall.programs crypto json b rest)) :
    Proceeds crypto request env ciphertext
      (Confirmed crypto json request env ciphertext (n + before.length)) g s
      (ServerCall.programs crypto json b (before ++ rest)) := by
  induction before generalizing s g with
  | nil => exact hrest g s hs (Server.growing.refl s) hg
  | cons call before ih =>
    obtain ⟨hcall, hbefore⟩ := List.forall_mem_cons.mp hbefore
    refine ((call_proceeds hinj henc hopens hpos hcall hs hg).later hs).bind fun g₁ t r h => ?_
    obtain ⟨hafter, ht, hst⟩ := h
    refine (ih hbefore ht hafter.backed fun k u hu htu hk =>
      hrest k u hu (Server.growing.trans hst htu) hk).bind fun g' s' replies h => ?_
    exact h.cons r

/-- The flush confirms, if by then the bridge holds the packet. -/
theorem flush_confirms {flush : MeshFlushEnv} {after : List ServerCall}
    (hflush : (ServerCall.operation (.meshFlush flush)).Admitted request env ciphertext)
    (hafter : ∀ call ∈ after, call.Admitted request env ciphertext)
    (hs : OnItsWay crypto request env ciphertext s)
    (hg : g.Backed (crypto.hashCiphertext ciphertext) s) (hbridge : env.packetId ∈ s.held "phone-bridge")
    (heverywhere : 1 ≤ ApiController.startTtl request →
      ∀ d ∈ defaultDevices, env.packetId ∈ s.held d.deviceId) :
    Proceeds crypto request env ciphertext (Confirmed crypto json request env ciphertext 0) g s
      (ServerCall.programs crypto json b (.operation (.meshFlush flush) :: after)) := by
  have hop : Carries crypto _ _ _ (fun g' s' r => g.After (crypto.hashCiphertext ciphertext) g' s' ∧
      g'.any = true ∧ ∃ flushed, r = .flushed flushed ∧ ∃ r ∈ flushed.results,
        r.bridgeNode = "phone-bridge" ∧ r.packetId = ApiController.substr env.packetId 8) g s
      ((Op.meshFlush flush).program crypto) :=
    (meshFlush_carries hinj hopens hpos hflush hs hg).bind fun g' s' r h =>
      ⟨h.1, (h.2 hbridge).1, r, rfl, (h.2 hbridge).2⟩
  refine ((operation_proceeds hop).later hs).bind fun g₁ t reply h => ?_
  obtain ⟨⟨_, rfl, hbacked, hany, flushed, rfl, hr⟩, ht, hst⟩ := h
  refine ((programs_proceed hinj henc hopens hpos hafter ht hbacked.backed).later ht).bind
    fun g' s' replies h => ?_
  obtain ⟨hlast, -, hts'⟩ := h
  refine ⟨hlast.backed, hlast.any hany, fun httl d hd => ?_, flushed, rfl, hr⟩
  exact hts'.ids _ _ (hst.ids _ _ (heverywhere httl d hd))

/-- So does a gossip round with a flush some time after it, if the start device holds the packet. -/
theorem gossip_confirms {order : MeshOrder} {flush : MeshFlushEnv} {mid after : List ServerCall}
    (hmid : ∀ call ∈ mid, call.Admitted request env ciphertext)
    (hflush : (ServerCall.operation (.meshFlush flush)).Admitted request env ciphertext)
    (hafter : ∀ call ∈ after, call.Admitted request env ciphertext)
    (hdev : (getDevice (ApiController.startDevice request)).isSome)
    (httl : 1 ≤ ApiController.startTtl request ∨ ApiController.startDevice request = "phone-bridge")
    (hs : OnItsWay crypto request env ciphertext s)
    (hg : g.Backed (crypto.hashCiphertext ciphertext) s)
    (hheld : env.packetId ∈ s.held (ApiController.startDevice request)) :
    Proceeds crypto request env ciphertext
      (Confirmed crypto json request env ciphertext (0 + mid.length + 1)) g s
      (ServerCall.programs crypto json b
        (.operation (.meshGossip order) :: (mid ++ .operation (.meshFlush flush) :: after))) := by
  have hop : Carries crypto _ _ _ (fun g' s' _ => g' = g ∧ (1 ≤ ApiController.startTtl request →
      ∀ d ∈ defaultDevices, env.packetId ∈ s'.held d.deviceId)) g s
      ((Op.meshGossip order).program crypto) :=
    (meshGossip_proceeds order hs).bind fun g' s' r h =>
      ⟨h.1, fun hpos => h.2 hheld (by omega) hdev⟩
  refine ((operation_proceeds hop).later hs).bind fun g₁ t reply h => ?_
  obtain ⟨⟨_, _, rfl, heverywhere⟩, ht, hst⟩ := h
  have hbridge : env.packetId ∈ t.held "phone-bridge" := by
    rcases httl with hpos | hbridge
    · exact heverywhere hpos ⟨"phone-bridge", true⟩ (by decide)
    · rw [← hbridge]
      exact hst.ids _ _ hheld
  refine (prefix_proceeds (n := 0) hinj henc hopens hpos hmid ht (hg.later hst)
      fun k u hu htu hk => ?_).bind
    fun g' s' replies h => ?_
  · exact flush_confirms hinj henc hopens hpos hflush hafter hu hk (htu.ids _ _ hbridge)
      fun hpos d hd => htu.ids _ _ (heverywhere hpos d hd)
  · exact h.cons reply

/-- The whole session. -/
theorem session_confirms {order : MeshOrder} {flush : MeshFlushEnv}
    {before mid mid' after : List ServerCall}
    (hcalls : ∀ call ∈ before ++ .operation (.demoSend request env) :: (mid ++
      .operation (.meshGossip order) :: (mid' ++ .operation (.meshFlush flush) :: after)),
      call.Admitted request env ciphertext)
    (hdev : (getDevice (ApiController.startDevice request)).isSome)
    (httl : 1 ≤ ApiController.startTtl request ∨ ApiController.startDevice request = "phone-bridge")
    (hs : OnItsWay crypto request env ciphertext s)
    (hg : g.Backed (crypto.hashCiphertext ciphertext) s) :
    Proceeds crypto request env ciphertext (Confirmed crypto json request env ciphertext
      (0 + mid'.length + 1 + mid.length + 1 + before.length)) g s
      (ServerCall.programs crypto json b (before ++ .operation (.demoSend request env) :: (mid ++
        .operation (.meshGossip order) :: (mid' ++ .operation (.meshFlush flush) :: after)))) := by
  obtain ⟨hbefore, hcalls⟩ := List.forall_mem_append.mp hcalls
  obtain ⟨-, hcalls⟩ := List.forall_mem_cons.mp hcalls
  obtain ⟨hmid, hcalls⟩ := List.forall_mem_append.mp hcalls
  obtain ⟨-, hcalls⟩ := List.forall_mem_cons.mp hcalls
  obtain ⟨hmid', hcalls⟩ := List.forall_mem_append.mp hcalls
  obtain ⟨hflush, hafter⟩ := List.forall_mem_cons.mp hcalls
  refine prefix_proceeds hinj henc hopens hpos hbefore hs hg fun k t ht _ hk => ?_
  have hop : Carries crypto _ _ _ (fun g' s' _ => g' = k ∧
      env.packetId ∈ s'.held (ApiController.startDevice request)) k t
      ((Op.demoSend request env).program crypto) :=
    (demoSend_carries (fun _ => ⟨rfl, rfl⟩) henc ht).bind fun g' s' r h => ⟨h.1, h.2 rfl rfl hdev⟩
  refine ((operation_proceeds hop).later ht).bind fun g₁ u reply h => ?_
  obtain ⟨⟨_, _, rfl, hheld⟩, hu, htu⟩ := h
  refine (prefix_proceeds (n := 0 + mid'.length + 1) hinj henc hopens hpos hmid hu (hk.later htu)
      fun k v hv huv hk => ?_).bind
    fun g' s' replies h => ?_
  · exact gossip_confirms hinj henc hopens hpos hmid' hflush hafter hdev httl hv hk
      (huv.ids _ _ hheld)
  · exact h.cons reply

end Requests
end Calls

/-- A flush at clock value 1. -/
def flushAtOne : ServerCall :=
  .operation (.meshFlush ⟨.listed, fun _ => { settledAt := fun _ => 1, claimNow := 1, freshNow := 1 }⟩)

/-- One client sends, gossips and flushes; the other one gossips and flushes, too. -/
def twoFlushes : Bool → List ServerCall
  | true => [.operation (.demoSend tenRupees tenRupeesEnv), .operation (.meshGossip .listed), flushAtOne]
  | false => [.operation (.meshGossip .listed), .operation (.evictExpired 1), flushAtOne]

def twoFlushesStart : LockedThreads Bool (List (ServerReply JsonValue.library)) :=
  Locked.initially tenRupeesCrypto JsonValue.library Binary64.nearest (fun _ _ => .sorted) twoFlushes
    Server.initial

/-- The second gossip round overtakes the first one, and the second flush comes before the first one. -/
def twoFlushesSchedule : List Bool :=
  List.replicate 16 true ++ List.replicate 250 false ++ List.replicate 250 true

theorem exists_twoFlushes : ∃ trace, Pool.Run (Locking.exec guards) (Locking.Enabled guards)
    twoFlushesStart trace (twoFlushesSchedule.foldl (Pool.advance (Locking.exec guards)) twoFlushesStart) := by
  have hadmissible : Pool.Admissible (Locking.exec guards) (Locking.Enabled guards) twoFlushesSchedule
      twoFlushesStart := by decide +kernel
  exact Pool.Run.of_schedule hadmissible

section Schedules

open Locking

variable {ι : Type} [DecidableEq ι] (crypto : CryptoService) (json : JsonLibrary) (b : Binary64)
  (order : ι → ℤ → IterOrder) (calls : ι → List ServerCall) (s : Server)

/-- When all requests have been answered, a payment that one of the clients has sent, gossiped and flushed
is on every device and decided by exactly one row, and the flush has answered for it. -/
theorem delivered_under_interference (hinj : Function.Injective crypto.sha256) (request : DemoSendRequest)
    (env : DemoSendEnv) (ciphertext : String)
    (henc : crypto.encrypt (ApiController.instruction crypto request env) env.random = .ok ciphertext)
    (hopens : crypto.decrypt ciphertext = .ok (ApiController.instruction crypto request env))
    (hpos : 0 < request.amount) (hdev : (getDevice (ApiController.startDevice request)).isSome)
    (httl : 1 ≤ ApiController.startTtl request ∨ ApiController.startDevice request = "phone-bridge")
    (hnew : Untouched crypto env.packetId ciphertext s)
    (hsender : request.senderVpa ∈ s.db.current.accounts.keys)
    (hreceiver : request.receiverVpa ∈ s.db.current.accounts.keys)
    (hcalls : ∀ i, ∀ call ∈ calls i, call.Admitted request env ciphertext)
    (client : ι) (before mid mid' after : List ServerCall) (gossip : MeshOrder) (flush : MeshFlushEnv)
    (hclient : calls client = before ++ .operation (.demoSend request env) :: (mid ++
      .operation (.meshGossip gossip) :: (mid' ++ .operation (.meshFlush flush) :: after)))
    (trace : List (ι × Locking ι Mutex Access)) (c : LockedThreads ι (List (ServerReply json)))
    (hrun : Pool.Run (exec guards) (Enabled guards)
      (Locked.initially crypto json b order calls s) trace c) (hdone : c.Finished) :
    (∃ row, (c.shared.data .connection).current.transactions.rows.filter
        (·.packetHash = crypto.hashCiphertext ciphertext) = [row] ∧
      row.Decides (ApiController.instruction crypto request env)) ∧
    (1 ≤ ApiController.startTtl request → ∀ d ∈ defaultDevices,
      env.packetId ∈ c.shared.data (.device d.deviceId)) ∧
    ∃ replies reply, c.threads client = .ret replies ∧
      replies[before.length + 1 + mid.length + 1 + mid'.length]? = some (.replied (.flushed reply)) ∧
      ∃ r ∈ reply.results, r.bridgeNode = "phone-bridge" ∧
        r.packetId = ApiController.substr env.packetId 8 := by
  obtain ⟨trace', c', hrun', hrelated⟩ := exists_related crypto json b order calls s hrun
  have hfree : ∀ k, c.shared.owner k = none := by
    intro k
    by_contra howned
    obtain ⟨⟨i, n⟩, hi⟩ := Option.ne_none_iff_exists'.mp howned
    obtain ⟨replies, hreplies⟩ := hdone i
    exact (hrelated.returned (implements_perform order) hreplies).2 k n hi
  have hdata : ∀ k, c.shared.data k = c'.shared.parts k := fun k => (hrelated.free k (hfree k)).symm
  have hstart : OnItsWay crypto request env ciphertext s := by
    refine ⟨hnew.closed, hsender, hreceiver, fun tx htx hhash => ?_, ?_, fun d hd => ?_⟩
    · exact absurd (List.mem_map.mpr ⟨tx, htx, hhash⟩) hnew.unsettled
    · exact hnew.held.mono fun q hq hid => absurd hid hq.1
    · obtain ⟨q, hq⟩ := mem_iff_exists_getElem?.mp hd
      obtain ⟨hfiled, hother⟩ := hnew.held d _ q hq
      exact absurd hfiled hother.1
  have hnone : Heard.Backed (crypto.hashCiphertext ciphertext) ⟨false, false⟩ s := fun h => by cases h
  have hthreads : ∀ i, Proceeds crypto request env ciphertext (fun g s' replies =>
      g.Backed (crypto.hashCiphertext ciphertext) s' ∧
        (i = client → Confirmed crypto json request env ciphertext
          (0 + mid'.length + 1 + mid.length + 1 + before.length) g s' replies)) ⟨false, false⟩ s
      (ServerCall.programs crypto json b (calls i)) := by
    intro i
    by_cases hi : i = client
    · subst hi
      rw [hclient]
      refine (session_confirms hinj henc hopens hpos (hclient ▸ hcalls i) hdev httl hstart hnone).mono
        fun g' s' replies h => ⟨h.backed, fun _ => h⟩
    · exact (programs_proceed hinj henc hopens hpos (hcalls i) hstart hnone).mono
        fun g' s' replies h => ⟨h.backed, fun h => absurd h hi⟩
  have hunclaimed : Claimed (ι := ι) (crypto.hashCiphertext ciphertext) s fun _ => ⟨false, false⟩ := by
    rintro (hseen | ⟨j, hj⟩)
    · exact absurd hseen hnew.unclaimed
    · cases hj
  obtain ⟨γ, hkeeps, -, hclaimed, hends⟩ := Pool.Run.assured (Claimed (crypto.hashCiphertext ciphertext))
    hrun' (fun i c s γ _ _ hγ => hγ.step i c) hstart hunclaimed hthreads
  have hend : ∀ i, ∃ replies, c.threads i = .ret replies ∧ c'.threads i = .ret replies := by
    intro i
    obtain ⟨replies, hreplies⟩ := hdone i
    exact ⟨replies, hreplies, (hrelated.returned (implements_perform order) hreplies).1⟩
  obtain ⟨replies, hreplies, hreplies'⟩ := hend client
  obtain ⟨t, ht, -, hconfirmed⟩ := hends client replies hreplies'
  have hconf := hconfirmed rfl
  obtain ⟨reply, hreply, hr⟩ := hconf.answered
  have hindex : 0 + mid'.length + 1 + mid.length + 1 + before.length =
      before.length + 1 + mid.length + 1 + mid'.length := by omega
  rw [hindex] at hreply
  refine ⟨?_, fun hpos d hd => ?_, replies, reply, hreplies, hreply, hr⟩
  · -- whoever has won the claim has left the row
    have hwinner : ∃ j, (γ j).won = true := by
      have hheard := hconf.heard
      rw [Heard.any, Bool.or_eq_true] at hheard
      rcases hheard with hwon | hlost
      · exact ⟨client, hwon⟩
      · exact hclaimed (Or.inr ⟨client, hlost⟩)
    obtain ⟨j, hj⟩ := hwinner
    obtain ⟨repliesⱼ, -, hrepliesⱼ⟩ := hend j
    obtain ⟨u, hu, hbacked, -⟩ := hends j repliesⱼ hrepliesⱼ
    have hstored : c'.shared.db.Stored (crypto.hashCiphertext ciphertext) :=
      Server.Leads.stored hu (hbacked hj)
    obtain ⟨row, hrow, hhash⟩ := List.mem_map.mp hstored
    rw [hdata .connection]
    refine ⟨row, ?_, hkeeps.rows row hrow hhash⟩
    rw [← hhash]
    exact TransactionTable.filter_packetHash hrow
  · rw [hdata (.device d.deviceId)]
    exact ht.ids _ _ (hconf.everywhere hpos d hd)

/-- The payment of the first client is settled by the flush of the second. -/
theorem delivered_under_interference_two_flushes :
    ∃ c : LockedThreads Bool (List (ServerReply JsonValue.library)), c.Finished ∧
      ∃ row, (c.shared.data .connection).current.transactions.rows.filter
          (·.packetHash = tenRupeesCrypto.hashCiphertext "c1") = [row] ∧
        row.Decides (ApiController.instruction tenRupeesCrypto tenRupees tenRupeesEnv) := by
  obtain ⟨trace, hrun⟩ := exists_twoFlushes
  have hreturned : ∀ i, ((twoFlushesSchedule.foldl (Pool.advance (exec guards))
      twoFlushesStart).threads i).returned? = true := by decide +kernel
  have hdone : (twoFlushesSchedule.foldl (Pool.advance (exec guards)) twoFlushesStart).Finished :=
    fun i => Program.returned?_eq_true.mp (hreturned i)
  have hfresh : BridgeIngestionService.Fresh 1 0 := by decide
  have hflush : flushAtOne.Admitted tenRupees tenRupeesEnv "c1" := fun _ => ⟨fun _ => rfl, hfresh⟩
  have hcalls : ∀ i, ∀ call ∈ twoFlushes i, call.Admitted tenRupees tenRupeesEnv "c1" := by
    intro i
    cases i with
    | true =>
      exact List.forall_mem_cons.mpr ⟨fun _ => ⟨rfl, rfl⟩, List.forall_mem_cons.mpr ⟨trivial,
        List.forall_mem_singleton.mpr hflush⟩⟩
    | false =>
      exact List.forall_mem_cons.mpr ⟨trivial, List.forall_mem_cons.mpr ⟨trivial,
        List.forall_mem_singleton.mpr hflush⟩⟩
  exact ⟨_, hdone, (delivered_under_interference tenRupeesCrypto JsonValue.library Binary64.nearest
    (fun _ _ => .sorted) twoFlushes Server.initial (CryptoService.sha256_ofList_injective _) tenRupees
    tenRupeesEnv "c1" rfl rfl (by decide) rfl (Or.inl (by decide)) untouched_initial (by decide)
    (by decide) hcalls true [] [] [] [] .listed _ rfl trace _ hrun hdone).1⟩

end Schedules

end UpiMesh
