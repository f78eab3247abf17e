import UpiMesh.HttpSchedules

/-!
# Which requests succeed

Every request is answered once, with the status that its body, the encryption and the start device call
for; the exceptions are the bodies that are neither objects nor null, the uploads that do not convert, a
reset of which a statement fails, a transaction listing whose statement cannot be prepared, and a listing
that cannot be dumped. Only resets and passes of the evictor change a server without a 200.
-/

namespace UpiMesh

open Concurrent Locking

section Reading

variable {lib : JsonCpp} (members : List (String × JsonValue lib.Double)) {α : Type}
  (as : JsonValue lib.Double → Except Thrown α) (key : String)

/-- The member is there and converts. -/
def ReadsField (x : α) : Prop := ∃ v, members.lookup key = some v ∧ as v = .ok x

/-- The member is not there, or it converts. -/
def ReadsOptional (x : Option α) : Prop :=
  match members.lookup key with
  | none => x = none
  | some v => ∃ y, as v = .ok y ∧ x = some y

end Reading

/-- The value is null, or an object without one of the members. -/
def JsonValue.Misses {Double : Type} (fields : List String) : JsonValue Double → Prop
  | .null => True
  | .object members => ∃ key ∈ fields, members.lookup key = none
  | _ => False

/-- There is no body, or it misses one of the fields. -/
def HttpRequest.Lacks {lib : JsonCpp} (request : HttpRequest lib) (fields : List String) : Prop :=
  match request.getJsonObject with
  | none => True
  | some j => j.Misses fields

section Outcomes

variable (web : HttpServer)

/-- What a body of `demoSend` says. -/
structure HttpServer.Reads (members : List (String × JsonValue web.lib.Double))
    (payment : HttpServer.Payment) (ttl : Option ℤ) (startDevice : Option String) : Prop where
  senderVpa : ReadsField members web.lib.asString "senderVpa" payment.senderVpa
  receiverVpa : ReadsField members web.lib.asString "receiverVpa" payment.receiverVpa
  amount : ReadsField members web.asDouble "amount" payment.amountDecimal
  pin : ReadsField members web.lib.asString "pin" payment.pin
  ttl : ReadsOptional members web.lib.asInt "ttl" ttl
  startDevice : ReadsOptional members web.lib.asString "startDevice" startDevice

namespace Task

variable {web}

/-- The request is answered with a 400. -/
def Bad : Task web.lib → Prop
  | .demoSend request _ => request.Lacks HttpServer.sendFields
  | .bridgeIngest request _ => request.Lacks ApiController.requiredFields
  | _ => False

/-- The body can be read, the instruction can be encrypted, and the start device is known. -/
def Sends (web : HttpServer) (members : List (String × JsonValue web.lib.Double)) (env : DemoSendEnv) :
    Prop :=
  ∃ payment ttl startDevice, web.Reads members payment ttl startDevice ∧
    (∃ c, web.crypto.encrypt (payment.instruction web env) env.random = .ok c) ∧
    MeshSimulatorService.getDevice (startDevice.getD "phone-alice") ≠ none

/-- The request is answered with a 200. -/
def Succeeds : Task web.lib → Prop
  | .demoSend request env =>
      ∃ members, request.getJsonObject = some (.object members) ∧ Sends web members env
  | .bridgeIngest request _ => request.Answerable ∧ ¬ request.Lacks ApiController.requiredFields
  | .meshReset _ faults => faults = {}
  | .listAccounts _ => False
  | .listTransactions _ => False
  | .evictExpired _ => False
  | _ => True

/-- The request reads a table, and these are the rows. -/
def Lists : Task web.lib → List web.json.Json → Prop
  | .listAccounts _, rows => ∃ accounts : List Account,
      rows = accounts.map (Account.to_json web.json web.binary64)
  | .listTransactions fault, rows => fault ≠ some .prepare ∧ ∃ txs : List Transaction,
      txs.length ≤ 20 ∧ rows = txs.map (Transaction.to_json web.json web.binary64)
  | _, _ => False

/-- The request is answered with a 500. -/
def Fails : Task web.lib → Prop
  | .demoSend request env => ∃ members, request.getJsonObject = some (.object members) ∧
      ¬ request.Lacks HttpServer.sendFields ∧ ¬ Sends web members env
  | _ => False

/-- The request takes something away. -/
def Clears : Task web.lib → Prop
  | .meshReset .. => True
  | .evictExpired _ => True
  | _ => False

/-- The evictor answers nobody. -/
def Silent : Task web.lib → Prop
  | .evictExpired _ => True
  | _ => False

/-- The answer that a request gets. -/
structure Answered (task : Task web.lib) (a : Answer web.json) : Prop where
  succeeds : task.Succeeds → ∃ body, a = web.replied (web.ok body)
  bad : task.Bad → ∃ message, a = web.replied (web.badRequest message)
  fails : task.Fails → ∃ e, a = web.replied (web.internalError e)
  lists : (∃ rows, task.Lists rows) → ∃ rows, task.Lists rows ∧
    (web.dumpThrows rows = none ∧ a = web.replied (web.ok (.array rows)) ∨
      ∃ e, web.dumpThrows rows = some e ∧ a = web.left (.service e))
  left : ¬ task.Succeeds → ¬ task.Bad → ¬ task.Fails → (¬ ∃ rows, task.Lists rows) →
    a.callbacks = [] ∧ (a.raised = none ↔ task.Silent)

end Task

section Fields

variable {web} (hlib : web.lib.Documented) {members : List (String × JsonValue web.lib.Double)}

include hlib

theorem field_of_lookup {α : Type} (as : JsonValue web.lib.Double → Except Thrown α) {key : String}
    {v : JsonValue web.lib.Double} (hv : members.lookup key = some v) :
    web.field (.object members) as key = as v := by
  rw [HttpServer.field, hlib.member_object _ _ _ hv]
  rfl

theorem field_eq_ok {α : Type} {as : JsonValue web.lib.Double → Except Thrown α} {key : String}
    (hkey : members.lookup key ≠ none) {x : α} :
    web.field (.object members) as key = .ok x ↔ ReadsField members as key x := by
  obtain ⟨v, hv⟩ := Option.ne_none_iff_exists'.mp hkey
  rw [field_of_lookup hlib as hv, ReadsField, hv]
  simp only [Option.some.injEq, exists_eq_left']

theorem optionalField_eq_ok {α : Type} {as : JsonValue web.lib.Double → Except Thrown α} {key : String}
    {x : Option α} :
    web.optionalField (.object members) as key = .ok x ↔ ReadsOptional members as key x := by
  rw [HttpServer.optionalField, hlib.isMember_object, ReadsOptional]
  cases hkey : members.lookup key with
  | none =>
    change Except.ok none = Except.ok x ↔ x = none
    rw [Except.ok.injEq, eq_comm]
  | some v =>
    have hfield := field_of_lookup hlib as hkey
    change (web.field (.object members) as key >>= fun y => .ok (some y)) = .ok x ↔
      ∃ y, as v = .ok y ∧ x = some y
    rw [hfield]
    cases as v with
    | error e => simp [bind, Except.bind]
    | ok y => simp [bind, Except.bind, eq_comm]

theorem readPayment_eq_ok (hall : ∀ key ∈ HttpServer.sendFields, members.lookup key ≠ none)
    {payment : HttpServer.Payment} : web.readPayment (.object members) = .ok payment ↔
      ReadsField members web.lib.asString "senderVpa" payment.senderVpa ∧
      ReadsField members web.lib.asString "receiverVpa" payment.receiverVpa ∧
      ReadsField members web.asDouble "amount" payment.amountDecimal ∧
      ReadsField members web.lib.asString "pin" payment.pin := by
  rw [← field_eq_ok hlib (hall _ (by decide)), ← field_eq_ok hlib (hall _ (by decide)),
    ← field_eq_ok hlib (hall _ (by decide)), ← field_eq_ok hlib (hall _ (by decide))]
  constructor
  · intro h
    obtain ⟨a, ha, h⟩ := bind_eq_ok h
    obtain ⟨b, hb, h⟩ := bind_eq_ok h
    obtain ⟨c, hc, h⟩ := bind_eq_ok h
    obtain ⟨d, hd, h⟩ := bind_eq_ok h
    obtain rfl := Except.ok.inj h
    exact ⟨ha, hb, hc, hd⟩
  · rintro ⟨ha, hb, hc, hd⟩
    rw [HttpServer.readPayment, ha, hb, hc, hd]
    rfl

theorem lacks_spec (j : JsonValue web.lib.Double) (key : String) (keys : List String) :
    match ApiController.lacks web.lib j (key :: keys) with
    | .error _ => ¬ j.IsObjectOrNull
    | .ok true => j.Misses (key :: keys)
    | .ok false => ∃ members, j = .object members ∧ ∀ k ∈ key :: keys, members.lookup k ≠ none := by
  by_cases hj : j.IsObjectOrNull
  · cases j with
    | null =>
      have hlacks : ApiController.lacks web.lib .null (key :: keys) = .ok true := by
        rw [ApiController.lacks, hlib.isMember_null]
        rfl
      rw [hlacks]
      exact trivial
    | object members =>
      rw [ApiController.lacks_object hlib]
      cases hany : (key :: keys).any fun key => (members.lookup key).isNone with
      | true =>
        obtain ⟨k, hk, hnone⟩ := List.any_eq_true.mp hany
        exact ⟨k, hk, Option.isNone_iff_eq_none.mp hnone⟩
      | false =>
        refine ⟨members, rfl, fun k hk hnone => List.any_eq_false.mp hany k hk ?_⟩
        rw [hnone]
        rfl
    | _ => exact hj.elim
  · obtain ⟨e, he⟩ := hlib.isMember_other j key hj
    have hlacks : ApiController.lacks web.lib j (key :: keys) = .error e := by
      rw [ApiController.lacks, he]
      rfl
    rw [hlacks]
    exact hj

end Fields

section Plans

variable {web}

/-- Every answer that the plan can lead to. -/
def Plan.Gives (web : HttpServer) (Q : Answer web.json → Prop) : Plan web.json → Prop
  | .answer a => Q a
  | .call c respond =>
      (c.program web.crypto web.json web.binary64).Returns Call.exec fun reply => Q (respond reply)

theorem Plan.Gives.returns {Q : Answer web.json → Prop} {plan : Plan web.json}
    (h : plan.Gives web Q) : (plan.program web).Returns Call.exec Q := by
  cases plan with
  | answer a => exact h
  | call c respond => exact Program.Returns.bind h fun _ hr => hr

theorem serve_returns {α : Type} {p : Service α} {Q : α → Prop} (h : p.Returns Action.exec Q) :
    p.serve.Returns Call.exec Q := by
  induction p with
  | ret x => exact h
  | act a next ih => exact fun s => ih _ (h s)

theorem operation_returns {op : Op} {α : Type} {p : Service α} (reply : α → Reply)
    (hop : op.program web.crypto = p >>= fun r => pure (reply r)) {Q : α → Prop}
    (h : p.Returns Action.exec Q) {Q' : ServerReply web.json → Prop}
    (hQ : ∀ r, Q r → Q' (.replied (reply r))) :
    ((ServerCall.operation op).program web.crypto web.json web.binary64).Returns Call.exec Q' := by
  have hreplies : (op.program web.crypto).Returns Action.exec fun r => Q' (.replied r) := by
    rw [hop]
    exact h.bind fun r hr => hQ r hr
  exact (serve_returns hreplies).bind fun _ hr => hr

/-- Sending succeeds when the instruction can be encrypted and the start device is known. -/
theorem demoSend_returns (crypto : CryptoService) (request : DemoSendRequest) (env : DemoSendEnv) :
    (ApiController.demoSend crypto request env).Returns Action.exec fun r =>
      match r with
      | .ok _ => (∃ c, crypto.encrypt (ApiController.instruction crypto request env) env.random = .ok c) ∧
          MeshSimulatorService.getDevice (ApiController.startDevice request) ≠ none
      | .error _ =>
          ¬ ((∃ c, crypto.encrypt (ApiController.instruction crypto request env) env.random = .ok c) ∧
            MeshSimulatorService.getDevice (ApiController.startDevice request) ≠ none) := by
  unfold ApiController.demoSend MeshSimulatorService.inject
  cases hc : crypto.encrypt (ApiController.instruction crypto request env) env.random with
  | error e =>
    rintro ⟨⟨c, hc'⟩, -⟩
    cases hc'
  | ok ciphertext =>
    cases hdevice : MeshSimulatorService.getDevice (ApiController.startDevice request) with
    | none => exact fun h => h.2 rfl
    | some d => exact fun _ => ⟨⟨ciphertext, rfl⟩, Option.some_ne_none d⟩

end Plans

namespace Task

variable {web} {request : HttpRequest web.lib}

theorem Answered.of_ok (task : Task web.lib) (h : task.Succeeds) (hbad : ¬ task.Bad)
    (hfails : ¬ task.Fails) (hlists : ∀ rows, ¬ task.Lists rows) (body : HttpBody web.json) :
    task.Answered (web.replied (web.ok body)) :=
  ⟨fun _ => ⟨body, rfl⟩, fun hb => absurd hb hbad, fun hf => absurd hf hfails,
    fun ⟨rows, hl⟩ => absurd hl (hlists rows), fun hs => absurd h hs⟩

theorem Answered.of_bad (task : Task web.lib) (h : task.Bad) (hsucceeds : ¬ task.Succeeds)
    (hfails : ¬ task.Fails) (hlists : ∀ rows, ¬ task.Lists rows) (message : String) :
    task.Answered (web.replied (web.badRequest message)) :=
  ⟨fun hs => absurd hs hsucceeds, fun _ => ⟨message, rfl⟩, fun hf => absurd hf hfails,
    fun ⟨rows, hl⟩ => absurd hl (hlists rows), fun _ hb => absurd h hb⟩

theorem Answered.of_fails (task : Task web.lib) (h : task.Fails) (hsucceeds : ¬ task.Succeeds)
    (hbad : ¬ task.Bad) (hlists : ∀ rows, ¬ task.Lists rows) (e : Raised) :
    task.Answered (web.replied (web.internalError e)) :=
  ⟨fun hs => absurd hs hsucceeds, fun hb => absurd hb hbad, fun _ => ⟨e, rfl⟩,
    fun ⟨rows, hl⟩ => absurd hl (hlists rows), fun _ _ hf => absurd h hf⟩

theorem Answered.of_left (task : Task web.lib) (hsucceeds : ¬ task.Succeeds) (hbad : ¬ task.Bad)
    (hfails : ¬ task.Fails) (hlists : ∀ rows, ¬ task.Lists rows) (hsilent : ¬ task.Silent) (e : Raised) :
    task.Answered (web.left e) :=
  ⟨fun hs => absurd hs hsucceeds, fun hb => absurd hb hbad, fun hf => absurd hf hfails,
    fun ⟨rows, hl⟩ => absurd hl (hlists rows),
    fun _ _ _ _ => ⟨rfl, iff_of_false (Option.some_ne_none e) hsilent⟩⟩

theorem Answered.of_listed (task : Task web.lib) {rows : List web.json.Json} (h : task.Lists rows)
    (hsucceeds : ¬ task.Succeeds) (hbad : ¬ task.Bad) (hfails : ¬ task.Fails) :
    task.Answered (web.listed rows) := by
  refine ⟨fun hs => absurd hs hsucceeds, fun hb => absurd hb hbad, fun hf => absurd hf hfails,
    fun _ => ⟨rows, h, ?_⟩, fun _ _ _ hl => absurd ⟨rows, h⟩ hl⟩
  unfold HttpServer.listed HttpServer.dump
  cases web.dumpThrows rows with
  | none => exact Or.inl ⟨rfl, rfl⟩
  | some e => exact Or.inr ⟨e, rfl, rfl⟩

end Task

section Lacking

variable {lib : JsonCpp} {request : HttpRequest lib} {fields : List String}

theorem HttpRequest.lacks_none (h : request.getJsonObject = none) : request.Lacks fields := by
  rw [Lacks, h]
  exact trivial

theorem HttpRequest.lacks_iff {j : JsonValue lib.Double} (h : request.getJsonObject = some j) :
    request.Lacks fields ↔ j.Misses fields := by
  rw [Lacks, h]

theorem JsonValue.misses_objectOrNull {Double : Type} {j : JsonValue Double} (h : j.Misses fields) :
    j.IsObjectOrNull := by
  cases j with
  | null => exact trivial
  | object members => exact trivial
  | _ => exact h.elim

theorem not_misses {Double : Type} {members : List (String × JsonValue Double)}
    (h : ∀ k ∈ fields, members.lookup k ≠ none) : ¬ (JsonValue.object members).Misses fields := by
  rintro ⟨k, hk, hnone⟩
  exact h k hk hnone

end Lacking

section DemoSend

variable {web} (hlib : web.lib.Documented) {request : HttpRequest web.lib} {env : DemoSendEnv}

/-- The body misses a field, and nothing else can be said of it. -/
theorem not_sends_of_misses {members : List (String × JsonValue web.lib.Double)}
    (h : (JsonValue.object members).Misses HttpServer.sendFields) : ¬ Task.Sends web members env := by
  rintro ⟨payment, ttl, startDevice, hreads, -⟩
  obtain ⟨key, hkey, hnone⟩ := h
  have hpresent : ∃ v, members.lookup key = some v := by
    simp only [HttpServer.sendFields, List.mem_cons, List.not_mem_nil, or_false] at hkey
    rcases hkey with rfl | rfl | rfl | rfl
    · exact hreads.senderVpa.imp fun _ h => h.1
    · exact hreads.receiverVpa.imp fun _ h => h.1
    · exact hreads.amount.imp fun _ h => h.1
    · exact hreads.pin.imp fun _ h => h.1
  obtain ⟨v, hv⟩ := hpresent
  rw [hnone] at hv
  cases hv

include hlib

section Complete

variable {members : List (String × JsonValue web.lib.Double)}
  (hall : ∀ key ∈ HttpServer.sendFields, members.lookup key ≠ none)

include hall

theorem reads_iff {payment : HttpServer.Payment} {ttl : Option ℤ} {startDevice : Option String} :
    web.Reads members payment ttl startDevice ↔
      web.readPayment (.object members) = .ok payment ∧
        web.optionalField (.object members) web.lib.asInt "ttl" = .ok ttl ∧
        web.optionalField (.object members) web.lib.asString "startDevice" = .ok startDevice := by
  rw [readPayment_eq_ok hlib hall, optionalField_eq_ok hlib, optionalField_eq_ok hlib]
  constructor
  · exact fun h => ⟨⟨h.senderVpa, h.receiverVpa, h.amount, h.pin⟩, h.ttl, h.startDevice⟩
  · exact fun h => ⟨h.1.1, h.1.2.1, h.1.2.2.1, h.1.2.2.2, h.2.1, h.2.2⟩

theorem planSend_gives {payment : HttpServer.Payment}
    (hpayment : web.readPayment (.object members) = .ok payment) {Q : Answer web.json → Prop}
    (hok : Task.Sends web members env → ∀ body, Q (web.replied (web.ok body)))
    (hfails : ¬ Task.Sends web members env → ∀ e, Q (web.replied (web.internalError e))) :
    (web.planSend payment env (.object members)).Gives web Q := by
  have hunique : Task.Sends web members env → ∃ ttl startDevice,
      web.optionalField (.object members) web.lib.asInt "ttl" = .ok ttl ∧
      web.optionalField (.object members) web.lib.asString "startDevice" = .ok startDevice ∧
      (∃ c, web.crypto.encrypt (payment.instruction web env) env.random = .ok c) ∧
      MeshSimulatorService.getDevice (startDevice.getD "phone-alice") ≠ none := by
    rintro ⟨payment', ttl, startDevice, hreads, hsends⟩
    obtain ⟨hpayment', httl, hdevice⟩ := (reads_iff hlib hall).mp hreads
    obtain rfl := Except.ok.inj (hpayment.symm.trans hpayment')
    exact ⟨ttl, startDevice, httl, hdevice, hsends⟩
  unfold HttpServer.planSend
  cases hc : web.crypto.encrypt (payment.instruction web env) env.random with
  | error e =>
    refine hfails (fun h => ?_) _
    obtain ⟨_, _, _, _, ⟨c, hc'⟩, -⟩ := hunique h
    rw [hc] at hc'
    cases hc'
  | ok ciphertext =>
    dsimp only
    cases httl : web.optionalField (.object members) web.lib.asInt "ttl" with
    | error e =>
      refine hfails (fun h => ?_) _
      obtain ⟨_, _, httl', -⟩ := hunique h
      rw [httl] at httl'
      cases httl'
    | ok ttl =>
      dsimp only
      cases hdevice : web.optionalField (.object members) web.lib.asString "startDevice" with
      | error e =>
        refine hfails (fun h => ?_) _
        obtain ⟨_, _, _, hdevice', -⟩ := hunique h
        rw [hdevice] at hdevice'
        cases hdevice'
      | ok startDevice =>
        have hreads := (reads_iff hlib hall).mpr ⟨hpayment, httl, hdevice⟩
        refine operation_returns .sent rfl (demoSend_returns web.crypto _ env) fun r hr => ?_
        cases r with
        | ok reply => exact hok ⟨payment, ttl, startDevice, hreads, hr⟩ _
        | error e =>
          refine hfails (fun h => hr ?_) _
          obtain ⟨_, _, _, hdevice', hsends⟩ := hunique h
          rw [hdevice] at hdevice'
          obtain rfl := Except.ok.inj hdevice'
          exact hsends

end Complete

theorem planDemoSend_gives :
    (web.planDemoSend request env).Gives web (Task.Answered (.demoSend request env)) := by
  unfold HttpServer.planDemoSend
  cases hbody : request.getJsonObject with
  | none =>
    refine Task.Answered.of_bad (.demoSend request env) (HttpRequest.lacks_none hbody) ?_ ?_ (fun _ => id) _
    · rintro ⟨members, hmembers, -⟩
      rw [hbody] at hmembers
      cases hmembers
    · rintro ⟨members, hmembers, -⟩
      rw [hbody] at hmembers
      cases hmembers
  | some j =>
    have hspec := lacks_spec hlib j "senderVpa" ["receiverVpa", "amount", "pin"]
    have hsome : ∀ members, request.getJsonObject = some (.object members) → j = .object members := by
      intro members hmembers
      exact Option.some.inj (hbody.symm.trans hmembers)
    dsimp only [HttpServer.sendFields]
    cases hlacks : ApiController.lacks web.lib j ["senderVpa", "receiverVpa", "amount", "pin"] with
    | error e =>
      rw [hlacks] at hspec
      refine Task.Answered.of_left (.demoSend request env) ?_ (fun h => ?_) ?_ (fun _ => id) id _
      · rintro ⟨members, hmembers, -⟩
        rw [hsome members hmembers] at hspec
        exact hspec trivial
      · exact hspec (JsonValue.misses_objectOrNull ((HttpRequest.lacks_iff hbody).mp h))
      · rintro ⟨members, hmembers, -⟩
        rw [hsome members hmembers] at hspec
        exact hspec trivial
    | ok missing =>
      rw [hlacks] at hspec
      cases missing with
      | true =>
        refine Task.Answered.of_bad (.demoSend request env) ((HttpRequest.lacks_iff hbody).mpr hspec) ?_ ?_
          (fun _ => id) _
        · rintro ⟨members, hmembers, hsends⟩
          rw [hsome members hmembers] at hspec
          exact not_sends_of_misses hspec hsends
        · rintro ⟨members, -, hcomplete, -⟩
          exact hcomplete ((HttpRequest.lacks_iff hbody).mpr hspec)
      | false =>
        obtain ⟨members, rfl, hall⟩ := hspec
        have hbad : ¬ request.Lacks HttpServer.sendFields :=
          fun h => not_misses hall ((HttpRequest.lacks_iff hbody).mp h)
        have hok : Task.Sends web members env → ∀ body,
            (Task.demoSend request env).Answered (web.replied (web.ok body)) := by
          intro h body
          refine Task.Answered.of_ok (.demoSend request env) ⟨members, hbody, h⟩ hbad ?_ (fun _ => id) body
          rintro ⟨members', hmembers', -, hfails⟩
          obtain rfl := JsonValue.object.inj (hsome members' hmembers')
          exact hfails h
        have hfails : ¬ Task.Sends web members env → ∀ e,
            (Task.demoSend request env).Answered (web.replied (web.internalError e)) := by
          intro h e
          refine Task.Answered.of_fails (.demoSend request env) ⟨members, hbody, hbad, h⟩ ?_ hbad
            (fun _ => id) e
          rintro ⟨members', hmembers', hsends⟩
          obtain rfl := JsonValue.object.inj (hsome members' hmembers')
          exact h hsends
        dsimp only
        cases hpayment : web.readPayment (.object members) with
        | error e =>
          refine hfails (fun h => ?_) _
          obtain ⟨payment, ttl, startDevice, hreads, -⟩ := h
          have hread := ((reads_iff hlib hall).mp hreads).1
          rw [hpayment] at hread
          cases hread
        | ok payment => exact planSend_gives hlib hall hpayment hok hfails

end DemoSend

section BridgeIngest

variable {web} (hlib : web.lib.Documented) {request : HttpRequest web.lib} {env : IngestEnv}

include hlib

/-- With all fields there, the request is answerable when the packet and the hop count can be read. -/
theorem answerable_iff {members : List (String × JsonValue web.lib.Double)}
    (hbody : request.getJsonObject = some (.object members))
    (hall : ∀ key ∈ ApiController.requiredFields, members.lookup key ≠ none) :
    request.Answerable ↔
      AnsweredOnce web.crypto env (ApiController.bridgeIngest web.lib web.crypto request env).handled := by
  have hcomplete : ¬ ∃ key ∈ ApiController.requiredFields, members.lookup key = none := not_misses hall
  rw [answered_complete_iff hlib hbody hall, HttpRequest.Answerable, hbody]
  exact or_iff_right hcomplete

theorem planBridgeIngest_gives :
    (web.planBridgeIngest request env).Gives web (Task.Answered (.bridgeIngest request env)) := by
  unfold HttpServer.planBridgeIngest
  cases hbody : request.getJsonObject with
  | none =>
    have hbad : request.Lacks ApiController.requiredFields := HttpRequest.lacks_none hbody
    exact Task.Answered.of_bad (.bridgeIngest request env) hbad (fun h => h.2 hbad) id (fun _ => id) _
  | some j =>
    have hspec := lacks_spec hlib j "packetId" ["ttl", "createdAt", "ciphertext"]
    dsimp only [ApiController.requiredFields]
    cases hlacks : ApiController.lacks web.lib j ["packetId", "ttl", "createdAt", "ciphertext"] with
    | error e =>
      rw [hlacks] at hspec
      refine Task.Answered.of_left (.bridgeIngest request env) (fun h => ?_) (fun h => ?_) id
        (fun _ => id) id _
      · exact not_answerable_other hbody hspec h.1
      · exact hspec (JsonValue.misses_objectOrNull ((HttpRequest.lacks_iff hbody).mp h))
    | ok missing =>
      rw [hlacks] at hspec
      cases missing with
      | true =>
        have hbad : request.Lacks ApiController.requiredFields :=
          (HttpRequest.lacks_iff hbody).mpr hspec
        exact Task.Answered.of_bad (.bridgeIngest request env) hbad (fun h => h.2 hbad) id (fun _ => id) _
      | false =>
        obtain ⟨members, rfl, hall⟩ := hspec
        have hbad : ¬ request.Lacks ApiController.requiredFields :=
          fun h => not_misses hall ((HttpRequest.lacks_iff hbody).mp h)
        have hanswerable : request.Answerable ↔ AnsweredOnce web.crypto env
            (ApiController.bridgeIngest web.lib web.crypto request env).handled :=
          answerable_iff hlib hbody hall
        have hleft : ∀ e, (ApiController.bridgeIngest web.lib web.crypto request env).handled =
            pure ⟨[], some e⟩ → (Task.bridgeIngest request env).Answered (web.left (.conversion e)) := by
          intro e hthrown
          refine Task.Answered.of_left (.bridgeIngest request env) (fun h => ?_) hbad id
            (fun _ => id) id _
          have honce := hanswerable.mp h.1
          rw [hthrown] at honce
          exact not_answered_thrown e honce
        dsimp only
        cases hhops : ApiController.hopCountOf web.lib request with
        | error e => exact hleft e (ApiController.bridgeIngest_hopCount hbody hlacks hhops)
        | ok hopCount =>
          dsimp only
          cases hpacket : ApiController.packetOf web.lib (.object members) with
          | error e => exact hleft e (ApiController.bridgeIngest_packet hbody hlacks hhops hpacket)
          | ok packet =>
            have hsucceeds : request.Answerable := by
              rw [hanswerable, ApiController.bridgeIngest_ok hbody hlacks hhops hpacket]
              exact Or.inr ⟨packet, _, hopCount, rfl⟩
            refine operation_returns .ingested rfl (Program.returns_true _) fun r _ => ?_
            exact Task.Answered.of_ok (.bridgeIngest request env) ⟨hsucceeds, hbad⟩ hbad id (fun _ => id) _

end BridgeIngest

section Requests

variable {web}

/-- A listing that is answered has at most twenty rows. -/
theorem exists_top20Rows (db : Database) {fault : Option QueryFault} (h : fault ≠ some .prepare) :
    ∃ txs, Statement.top20Rows db fault = .ok txs ∧ txs.length ≤ 20 := by
  match fault with
  | none => exact ⟨_, rfl, List.length_take_le _ _⟩
  | some .prepare => exact absurd rfl h
  | some (.step n) => exact ⟨_, rfl, (List.length_take_le' _ _).trans (List.length_take_le _ _)⟩

/-- A reset ends well when none of its statements fails. -/
theorem meshReset_returns (order : MeshOrder) (faults : ResetFaults) :
    (ApiController.meshReset order faults).Returns Action.exec fun r => (∃ x, r = .ok x) ↔ faults = {} := by
  refine (Program.returns_true (MeshSimulatorService.resetMesh order)).bind fun _ _ => fun _ s => ?_
  exact Database.reset_eq_ok faults s.db

/-- Whatever the stores answer, a request is answered as it deserves. -/
theorem Task.plan_gives (hlib : web.lib.Documented) (task : Task web.lib) :
    (task.plan web).Gives web task.Answered := by
  cases task with
  | getServerKey => exact Answered.of_ok .getServerKey trivial id id (fun _ => id) _
  | demoSend request env => exact planDemoSend_gives hlib
  | meshState order =>
    refine (Program.returns_true (ApiController.meshState order)).bind fun r _ => ?_
    exact Answered.of_ok (.meshState order) trivial id id (fun _ => id) _
  | meshGossip order =>
    refine operation_returns .gossiped rfl (Program.returns_true _) fun r _ => ?_
    exact Answered.of_ok (.meshGossip order) trivial id id (fun _ => id) _
  | meshFlush env =>
    refine operation_returns .flushed rfl (Program.returns_true _) fun r _ => ?_
    exact Answered.of_ok (.meshFlush env) trivial id id (fun _ => id) _
  | meshReset order faults =>
    refine operation_returns .wasReset rfl (meshReset_returns order faults) fun r hr => ?_
    cases r with
    | ok _ => exact Answered.of_ok (.meshReset order faults) (hr.mp ⟨(), rfl⟩) id id (fun _ => id) _
    | error e =>
      refine Answered.of_left (.meshReset order faults) (fun h => ?_) id id (fun _ => id) id _
      obtain ⟨_, hok⟩ := hr.mpr h
      cases hok
  | bridgeIngest request env => exact planBridgeIngest_gives hlib
  | listAccounts fault =>
    exact fun rows => Answered.of_listed (.listAccounts fault) ⟨_, rfl⟩ id id id
  | listTransactions fault =>
    intro s
    by_cases hfault : fault = some .prepare
    · subst hfault
      exact Answered.of_left (.listTransactions (some .prepare)) id id id (fun _ h => h.1 rfl) id _
    · obtain ⟨txs, hrows, hlength⟩ := exists_top20Rows s.db hfault
      have hlisted : (Task.listTransactions fault).Answered
          (web.listed (txs.map (Transaction.to_json web.json web.binary64))) :=
        Answered.of_listed (.listTransactions fault) ⟨hfault, txs, hlength, rfl⟩ id id id
      rw [show ((Call.query (.findTop20ByOrderByIdDesc fault)).exec s).1 = Except.ok txs from hrows]
      exact hlisted
  | evictExpired now =>
    exact fun _ => ⟨fun h => h.elim, fun h => h.elim, fun h => h.elim, fun ⟨_, h⟩ => h.elim,
      fun _ _ _ _ => ⟨rfl, iff_of_true rfl trivial⟩⟩

theorem Task.program_returns (hlib : web.lib.Documented) (task : Task web.lib) :
    (task.program web).Returns Call.exec task.Answered := by
  rw [task.program_eq]
  exact (task.plan_gives hlib).returns

theorem Task.programs_return (hlib : web.lib.Documented) (tasks : List (Task web.lib)) :
    (Task.programs web tasks).Returns Call.exec (List.Forall₂ Task.Answered tasks) := by
  induction tasks with
  | nil => exact .nil
  | cons task tasks ih =>
    exact (task.program_returns hlib).bind fun a ha => ih.bind fun answers hanswers => .cons ha hanswers

/-- The call changes nothing. -/
def Call.Idle (c : Call) : Prop := ∀ s, (c.exec s).2 = s

/-- What is passed on has been read from the body. -/
theorem planDemoSend_call (hlib : web.lib.Documented) {request : HttpRequest web.lib} {env : DemoSendEnv}
    {c : ServerCall} {respond : ServerReply web.json → Answer web.json}
    (h : web.planDemoSend request env = .call c respond) :
    ∃ members payment ttl startDevice, request.getJsonObject = some (.object members) ∧
      web.Reads members payment ttl startDevice ∧
      c = .operation (.demoSend (payment.request web ttl startDevice) env) ∧ respond = web.respond := by
  unfold HttpServer.planDemoSend at h
  split at h
  · cases h
  · rename_i j hbody
    have hspec := lacks_spec hlib j "senderVpa" ["receiverVpa", "amount", "pin"]
    split at h
    · cases h
    · cases h
    · rename_i hlacks
      change ApiController.lacks web.lib j ["senderVpa", "receiverVpa", "amount", "pin"] = _ at hlacks
      rw [hlacks] at hspec
      obtain ⟨members, rfl, hall⟩ := hspec
      split at h
      · cases h
      · rename_i payment hpayment
        unfold HttpServer.planSend at h
        split at h
        · cases h
        · split at h
          · cases h
          · rename_i ttl httl
            split at h
            · cases h
            · rename_i startDevice hdevice
              obtain ⟨rfl, rfl⟩ := Plan.call.inj h
              exact ⟨members, payment, ttl, startDevice, hbody,
                (reads_iff hlib hall).mpr ⟨hpayment, httl, hdevice⟩, rfl, rfl⟩

theorem planBridgeIngest_call {request : HttpRequest web.lib} {env : IngestEnv} {c : ServerCall}
    {respond : ServerReply web.json → Answer web.json}
    (h : web.planBridgeIngest request env = .call c respond) :
    ∃ packet bridgeNodeId hopCount, c = .operation (.ingest packet bridgeNodeId hopCount env) ∧
      respond = web.respond := by
  unfold HttpServer.planBridgeIngest at h
  split at h
  · cases h
  · split at h
    · cases h
    · cases h
    · split at h
      · cases h
      · split at h
        · cases h
        · obtain ⟨rfl, rfl⟩ := Plan.call.inj h
          exact ⟨_, _, _, rfl, rfl⟩

/-- A 200 is a success, unless it shows a table. -/
theorem Task.Answered.succeeds_of_ok {task : Task web.lib} {body : HttpBody web.json}
    (h : task.Answered (web.replied (web.ok body))) (hlists : ∀ rows, ¬ task.Lists rows) :
    task.Succeeds := by
  by_contra hsucceeds
  have hstatus : ∀ r : HttpReply web.json, r.statusCode ≠ 200 →
      web.replied (web.ok body) ≠ web.replied r := by
    intro r hr hsame
    exact hr (congrArg HttpReply.statusCode (List.singleton_inj.mp (congrArg Answer.callbacks hsame))).symm
  have hbad : ¬ task.Bad := fun hb => by
    obtain ⟨message, hsame⟩ := h.bad hb
    exact hstatus _ (show 400 ≠ 200 by decide) hsame
  have hfails : ¬ task.Fails := fun hf => by
    obtain ⟨e, hsame⟩ := h.fails hf
    exact hstatus _ (show 500 ≠ 200 by decide) hsame
  exact List.cons_ne_nil _ _ (h.left hsucceeds hbad hfails fun ⟨rows, hl⟩ => hlists rows hl).1

/-- An upload that is passed on has succeeded. -/
theorem planBridgeIngest_succeeds (hlib : web.lib.Documented) {request : HttpRequest web.lib}
    {env : IngestEnv} {c : ServerCall} {respond : ServerReply web.json → Answer web.json}
    (h : web.planBridgeIngest request env = .call c respond) :
    (Task.bridgeIngest request env).Succeeds := by
  have hgives : (web.planBridgeIngest request env).Gives web _ := planBridgeIngest_gives hlib
  rw [h] at hgives
  obtain ⟨packet, bridgeNodeId, hopCount, rfl, rfl⟩ := planBridgeIngest_call h
  have hreply : ((ServerCall.operation (.ingest packet bridgeNodeId hopCount env)).program web.crypto
      web.json web.binary64).Returns Call.exec fun reply => ∃ r, reply = .replied (.ingested r) :=
    operation_returns .ingested rfl (Program.returns_true _) fun r _ => ⟨r, rfl⟩
  obtain ⟨r, hr⟩ := hreply.run Server.initial
  have hanswered := hgives.run Server.initial
  rw [hr] at hanswered
  exact hanswered.succeeds_of_ok fun _ => id

/-- A request that does not succeed changes nothing, unless it was to take something away. -/
theorem Task.idle (hlib : web.lib.Documented) (task : Task web.lib) (h : ¬ task.Succeeds)
    (hclears : ¬ task.Clears) : (task.program web).Uses Call.Idle := by
  rw [task.program_eq]
  have hgives := task.plan_gives hlib
  cases task with
  | demoSend request env =>
    change (web.planDemoSend request env).Gives web _ at hgives
    change ((web.planDemoSend request env).program web).Uses _
    cases hplan : web.planDemoSend request env with
    | answer a => exact trivial
    | call c respond =>
      obtain ⟨members, payment, ttl, startDevice, -, -, rfl, rfl⟩ := planDemoSend_call hlib hplan
      rw [hplan] at hgives
      unfold Plan.Gives at hgives
      unfold Plan.program
      simp only [ServerCall.program, Op.program, ApiController.demoSend, MeshSimulatorService.inject]
        at hgives ⊢
      cases hc : web.crypto.encrypt (ApiController.instruction web.crypto
          (payment.request web ttl startDevice) env) env.random with
      | error e => exact trivial
      | ok ciphertext =>
        rw [hc] at hgives
        cases hdevice : MeshSimulatorService.getDevice (ApiController.startDevice
            (payment.request web ttl startDevice)) with
        | none => exact trivial
        | some d =>
          rw [hdevice] at hgives
          exact absurd ((hgives Server.initial).succeeds_of_ok fun _ => id) h
  | bridgeIngest request env =>
    change ((web.planBridgeIngest request env).program web).Uses _
    cases hplan : web.planBridgeIngest request env with
    | answer a => exact trivial
    | call c respond => exact absurd (planBridgeIngest_succeeds hlib hplan) h
  | meshReset order faults => exact absurd trivial hclears
  | listAccounts fault => exact ⟨fun _ => rfl, fun rows => trivial⟩
  | listTransactions fault =>
    refine ⟨fun _ => rfl, fun rows => ?_⟩
    cases rows with
    | error e => exact trivial
    | ok txs => exact trivial
  | evictExpired now => exact absurd trivial hclears
  | _ => exact absurd trivial h

end Requests

end Outcomes

section Schedules

variable {ι : Type} [DecidableEq ι] (web : HttpServer) (order : ι → ℤ → IterOrder)
  (tasks : ι → List (Task web.lib)) (s : Server)

/-- Whatever the server does at the same time, a client that has been served has got for each request the
answer that it deserves, and of the requests that did not succeed only the resets have changed anything. -/
theorem requests_answered (hlib : web.lib.Documented) (trace : List (ι × Locking ι Mutex Access))
    (c : LockedThreads ι (List (Answer web.json)))
    (hrun : Pool.Run (exec guards) (Enabled guards) (Task.initially web order tasks s) trace c) (i : ι)
    (answers : List (Answer web.json)) (hi : c.threads i = .ret answers) :
    List.Forall₂ Task.Answered (tasks i) answers ∧
      ∀ task ∈ tasks i, ¬ task.Succeeds → ¬ task.Clears → (task.program web).Uses Call.Idle := by
  refine ⟨?_, fun task _ hs hclears => task.idle hlib hs hclears⟩
  obtain ⟨trace', c', hrun', hreturned⟩ := exists_atomic_requests web order tasks s hrun
  exact hrun'.returns (fun i => Task.programs_return hlib (tasks i)) (hreturned i answers hi)

/-- A payment and its listing, beside null for a body, an array, and a listing that cannot be prepared. -/
theorem requests_answered_send_and_list :
    ∃ (c : LockedThreads Bool (List (Answer JsonValue.library))) (answers : _), c.threads true = .ret answers ∧
      List.Forall₂ Task.Answered (sendAndList true) answers ∧
      ∀ task ∈ sendAndList true, ¬ task.Succeeds → ¬ task.Clears →
        (task.program tenRupeesWeb).Uses Call.Idle := by
  obtain ⟨trace, hrun⟩ := exists_sendAndList
  obtain ⟨answers, hanswers⟩ := sendAndList_returned true
  exact ⟨_, answers, hanswers, requests_answered tenRupeesWeb (fun _ _ => .sorted) sendAndList
    Server.initial JsonCpp.documented_plain trace _ hrun true answers hanswers⟩

end Schedules

end UpiMesh
