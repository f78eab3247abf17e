import UpiMesh.BridgeIngest
import UpiMesh.Endpoints

/-!
# The HTTP requests

The handlers of `ApiController` from the request to the callback. A handler may call its callback, and it
may be left by an exception: only `demoSend` catches what its body throws. `Task.plan` says in advance what
becomes of a request: it is answered without touching the stores, or it is one call of the server.
-/

namespace UpiMesh

open Concurrent

/-- What a handler may be left by: a conversion of the request, or a service. -/
inductive Raised where
  | conversion (e : Thrown)
  | service (e : Exn)
  deriving DecidableEq, Repr

def Thrown.what : Thrown → String
  | .logicError w => w
  | .invalidArgument w => w
  | .outOfRange w => w

def Raised.what : Raised → String
  | .conversion e => e.what
  | .service e => e.what

/-- A `Json::Value`, in which no response has a double, or an array of `nlohmann::json`. -/
inductive HttpBody (json : JsonLibrary) where
  | value (j : JsonValue Empty)
  | array (rows : List json.Json)

structure HttpReply (json : JsonLibrary) where
  statusCode : ℕ
  body : HttpBody json

/-- What is left of a handled request: the responses given to the callback, and the exception that nobody
has caught. -/
structure Answer (json : JsonLibrary) where
  callbacks : List (HttpReply json)
  raised : Option Raised

abbrev Handling (json : JsonLibrary) := ExceptT Raised (StateT (List (HttpReply json)) Endpoint)

def Handling.answer {json : JsonLibrary} (h : Handling json Unit) : Endpoint (Answer json) := do
  let (result, callbacks) ← (ExceptT.run h).run []
  match result with
  | .ok () => pure ⟨callbacks, none⟩
  | .error e => pure ⟨callbacks, some e⟩

namespace HttpBody

variable {json : JsonLibrary}

/-- A `Json::Value` that members are assigned to one by one. -/
def ofMembers : List (String × JsonValue Empty) → JsonValue Empty
  | [] => .null
  | members => .object members

def object (members : List (String × JsonValue Empty)) : HttpBody json := .value (ofMembers members)

def ofKey (publicKey : String) : HttpBody json := object
  [("publicKey", .string publicKey),
    ("algorithm", .string "RSA-2048 / OAEP-SHA256"),
    ("hybridScheme", .string "RSA-OAEP encrypts an AES-256-GCM session key")]

def ofError (error message : String) : HttpBody json := object
  [("error", .string error), ("message", .string message)]

def ofSend (r : DemoSendReply) : HttpBody json := object
  [("packetId", .string r.packetId),
    ("ciphertextPreview", .string r.ciphertextPreview),
    ("fullCiphertext", .string r.fullCiphertext),
    ("ttl", .integer r.ttl),
    ("injectedAt", .string r.injectedAt)]

def ofDevice (d : DeviceState) : JsonValue Empty := ofMembers
  [("deviceId", .string d.deviceId),
    ("hasInternet", .boolean d.hasInternet),
    ("packetCount", .integer d.packetCount),
    ("packetIds", .array (d.packetIds.map .string))]

def ofState (r : MeshStateReply) : HttpBody json := object
  [("devices", .array (r.devices.map ofDevice)),
    ("idempotencyCacheSize", .integer r.idempotencyCacheSize)]

def ofGossip (r : GossipResult) : HttpBody json := object
  [("transfers", .integer r.transfers),
    ("deviceCounts", ofMembers (r.deviceCounts.toList.map fun (k, v) => (k, .integer v)))]

def ofUpload (r : FlushResult) : JsonValue Empty := ofMembers
  [("bridgeNode", .string r.bridgeNode),
    ("packetId", .string r.packetId),
    ("outcome", .string r.outcome),
    ("reason", .string r.reason),
    ("transactionId", .integer r.transactionId)]

def ofFlush (r : MeshFlushReply) : HttpBody json := object
  [("uploadsAttempted", .integer r.uploadsAttempted),
    ("results", .array (r.results.map ofUpload))]

def ofReset : HttpBody json := object [("status", .string "mesh and idempotency cache cleared")]

def ofIngest (outcome packetHash reason : String) (transactionId : Option ℤ) : HttpBody json := object
  [("outcome", .string outcome),
    ("packetHash", .string packetHash),
    ("reason", .string reason),
    ("transactionId", (transactionId.map .integer).getD .null)]

def ofResponse : ResponseBody → HttpBody json
  | .failure error message => ofError error message
  | .ingest outcome packetHash reason transactionId => ofIngest outcome packetHash reason transactionId

end HttpBody

/-- What `bridgeIngest` leaves behind. -/
def Handled.answer {json : JsonLibrary} (h : Handled) : Answer json where
  callbacks := h.callbacks.map fun r => ⟨r.statusCode, .ofResponse r.body⟩
  raised := h.thrown.map .conversion

/-- The keys and libraries that the handlers are built with. `dumpThrows` is what `dump` of an array throws,
if it throws: a text in it need not be UTF-8. -/
structure HttpServer where
  lib : JsonCpp
  asDouble : JsonValue lib.Double → Except Thrown ℚ
  json : JsonLibrary
  dumpThrows : List json.Json → Option Exn
  binary64 : Binary64
  crypto : CryptoService
  publicKey : String

namespace HttpServer

variable (web : HttpServer)

def callback (r : HttpReply web.json) : Handling web.json Unit := modify (· ++ [r])

def convert {α : Type} (x : Except Thrown α) : Handling web.json α :=
  ExceptT.mk (pure (x.mapError .conversion))

def throwing {α : Type} (p : Endpoint (Except Exn α)) : Handling web.json α := do
  match ← p with
  | .ok x => pure x
  | .error e => throw (.service e)

def ok (body : HttpBody web.json) : HttpReply web.json := ⟨200, body⟩

def badRequest (message : String) : HttpReply web.json := ⟨400, .ofError "bad_request" message⟩

def internalError (e : Raised) : HttpReply web.json :=
  ⟨500, .ofError "internal_error" (cstr e.what)⟩

def getServerKey : Handling web.json Unit := web.callback (web.ok (.ofKey web.publicKey))

def sendFields : List String := ["senderVpa", "receiverVpa", "amount", "pin"]

/-- A member read by one of the conversions. -/
def field {α : Type} (j : JsonValue web.lib.Double) (as : JsonValue web.lib.Double → Except Thrown α)
    (key : String) : Except Thrown α := do
  as (← web.lib.member j key)

/-- `isMember(key) ? … : …`. -/
def optionalField {α : Type} (j : JsonValue web.lib.Double)
    (as : JsonValue web.lib.Double → Except Thrown α) (key : String) : Except Thrown (Option α) := do
  if ← web.lib.isMember j key then
    let x ← web.field j as key
    pure (some x)
  else pure none

/-- The fields of `demoSend` that go into the instruction. -/
structure Payment where
  senderVpa : String
  receiverVpa : String
  amountDecimal : ℚ
  pin : String

def Payment.amount (p : Payment) : ℤ := PaymentInstruction.paise web.binary64 p.amountDecimal

/-- The request once its fields have been read. -/
def Payment.request (p : Payment) (ttl : Option ℤ) (startDevice : Option String) : DemoSendRequest where
  senderVpa := p.senderVpa
  receiverVpa := p.receiverVpa
  amount := p.amount web
  pin := p.pin
  ttl := ttl
  startDevice := startDevice
  amount_fits := web.binary64.toInt64_fits _

def Payment.instruction (p : Payment) (env : DemoSendEnv) : PaymentInstruction where
  senderVpa := p.senderVpa
  receiverVpa := p.receiverVpa
  amount := p.amount web
  pinHash := ApiController.sha256Hex web.crypto p.pin
  nonce := env.nonce
  signedAt := env.now
  amount_fits := web.binary64.toInt64_fits _
  signedAt_fits := env.now_fits

def readPayment (j : JsonValue web.lib.Double) : Except Thrown Payment := do
  let senderVpa ← web.field j web.lib.asString "senderVpa"
  let receiverVpa ← web.field j web.lib.asString "receiverVpa"
  let amountDecimal ← web.field j web.asDouble "amount"
  let pin ← web.field j web.lib.asString "pin"
  pure { senderVpa, receiverVpa, amountDecimal, pin }

/-- The end of the `try` block: the packet goes to its start device. -/
def sendPacket (startDevice : String) (packet : MeshPacket) : Handling web.json Unit := do
  web.throwing (MeshSimulatorService.inject startDevice packet).serve
  web.callback (web.ok (.ofSend {
    packetId := packet.packetId
    ciphertextPreview := ApiController.substr packet.ciphertext 64 ++ "..."
    fullCiphertext := packet.ciphertext
    ttl := packet.ttl
    injectedAt := startDevice }))

/-- The instruction is encrypted before the routing fields are read. -/
def sendPayment (payment : Payment) (j : JsonValue web.lib.Double) (env : DemoSendEnv) :
    Handling web.json Unit := do
  let ciphertext ← web.throwing (pure (web.crypto.encrypt (payment.instruction web env) env.random))
  let ttl ← web.convert (web.optionalField j web.lib.asInt "ttl")
  let startDevice ← web.convert (web.optionalField j web.lib.asString "startDevice")
  web.sendPacket (startDevice.getD "phone-alice") {
    packetId := env.packetId
    ttl := ttl.getD 5
    createdAt := env.now
    ciphertext }

/-- The `try` block of `demoSend`. -/
def send (j : JsonValue web.lib.Double) (env : DemoSendEnv) : Handling web.json Unit := do
  let payment ← web.convert (web.readPayment j)
  web.sendPayment payment j env

def demoSend (request : HttpRequest web.lib) (env : DemoSendEnv) : Handling web.json Unit := do
  match request.getJsonObject with
  | none => web.callback (web.badRequest "Invalid JSON")
  | some j =>
    if ← web.convert (ApiController.lacks web.lib j sendFields) then
      web.callback (web.badRequest "Missing required fields")
    else
      tryCatch (web.send j env) fun e => web.callback (web.internalError e)

def meshState (order : MeshOrder) : Handling web.json Unit := do
  let r ← ApiController.meshState order
  web.callback (web.ok (.ofState r))

def meshGossip (order : MeshOrder) : Handling web.json Unit := do
  let r ← (ApiController.meshGossip order).serve
  web.callback (web.ok (.ofGossip r))

def meshFlush (env : MeshFlushEnv) : Handling web.json Unit := do
  let r ← (ApiController.meshFlush web.crypto env).serve
  web.callback (web.ok (.ofFlush r))

def meshReset (order : MeshOrder) (faults : ResetFaults) : Handling web.json Unit := do
  web.throwing (ApiController.meshReset order faults).serve
  web.callback (web.ok .ofReset)

def dump (rows : List web.json.Json) : Except Exn (HttpBody web.json) :=
  match web.dumpThrows rows with
  | none => .ok (.array rows)
  | some e => .error e

def sendArray (rows : List web.json.Json) : Handling web.json Unit := do
  let body ← web.throwing (pure (web.dump rows))
  web.callback (web.ok body)

def listAccounts (fault : Option QueryFault) : Handling web.json Unit := do
  let rows ← ApiController.listAccounts web.json web.binary64 fault
  web.sendArray rows

def listTransactions (fault : Option QueryFault) : Handling web.json Unit := do
  let rows ← web.throwing (ApiController.listTransactions web.json web.binary64 fault)
  web.sendArray rows

def bridgeIngest (request : HttpRequest web.lib) (env : IngestEnv) : Endpoint (Answer web.json) := do
  let h ← (ApiController.bridgeIngest web.lib web.crypto request env).handled.serve
  pure h.answer

end HttpServer

/-- What a thread of the server is given to do: a request, by its route, or a pass of the evictor, which
answers nobody. -/
inductive Task (lib : JsonCpp) where
  | getServerKey
  | demoSend (request : HttpRequest lib) (env : DemoSendEnv)
  | meshState (order : MeshOrder)
  | meshGossip (order : MeshOrder)
  | meshFlush (env : MeshFlushEnv)
  | meshReset (order : MeshOrder) (faults : ResetFaults)
  | bridgeIngest (request : HttpRequest lib) (env : IngestEnv)
  | listAccounts (fault : Option QueryFault)
  | listTransactions (fault : Option QueryFault)
  | evictExpired (now : ℤ)

namespace Task

variable (web : HttpServer)

def program : Task web.lib → Endpoint (Answer web.json)
  | .getServerKey => web.getServerKey.answer
  | .demoSend request env => (web.demoSend request env).answer
  | .meshState order => (web.meshState order).answer
  | .meshGossip order => (web.meshGossip order).answer
  | .meshFlush env => (web.meshFlush env).answer
  | .meshReset order faults => (web.meshReset order faults).answer
  | .bridgeIngest request env => web.bridgeIngest request env
  | .listAccounts fault => (web.listAccounts fault).answer
  | .listTransactions fault => (web.listTransactions fault).answer
  | .evictExpired now => do
    Service.serve (Program.call (Action.evictExpired now))
    pure ⟨[], none⟩

/-- A thread handles one request after another. -/
def programs : List (Task web.lib) → Endpoint (List (Answer web.json))
  | [] => pure []
  | task :: tasks => do
    let answer ← task.program web
    let answers ← programs tasks
    pure (answer :: answers)

end Task

/-- What becomes of a request. -/
inductive Plan (json : JsonLibrary) where
  | answer (a : Answer json)
  | call (c : ServerCall) (respond : ServerReply json → Answer json)

namespace HttpServer

variable (web : HttpServer)

def replied (r : HttpReply web.json) : Answer web.json := ⟨[r], none⟩

def left (e : Raised) : Answer web.json := ⟨[], some e⟩

/-- The response with an array for its body. -/
def listed (rows : List web.json.Json) : Answer web.json :=
  match web.dump rows with
  | .ok body => web.replied (web.ok body)
  | .error e => web.left (.service e)

/-- The response that shows a reply of the server. A pass of the evictor has none. -/
def respond : ServerReply web.json → Answer web.json
  | .replied .done => ⟨[], none⟩
  | .replied (.wasReset (.ok ())) => web.replied (web.ok .ofReset)
  | .replied (.wasReset (.error e)) => web.left (.service e)
  | .replied (.ingested r) =>
      web.replied (web.ok (.ofIngest r.outcome r.packetHash r.reason r.transactionId))
  | .replied (.sent (.ok r)) => web.replied (web.ok (.ofSend r))
  | .replied (.sent (.error e)) => web.replied (web.internalError (.service e))
  | .replied (.gossiped r) => web.replied (web.ok (.ofGossip r))
  | .replied (.flushed r) => web.replied (web.ok (.ofFlush r))
  | .state r => web.replied (web.ok (.ofState r))
  | .accounts rows => web.listed rows
  | .transactions (.ok rows) => web.listed rows
  | .transactions (.error e) => web.left (.service e)

/-- The `try` block with the fields that follow the encryption. -/
def planSend (payment : Payment) (env : DemoSendEnv) (j : JsonValue web.lib.Double) : Plan web.json :=
  match web.crypto.encrypt (payment.instruction web env) env.random with
  | .error e => .answer (web.replied (web.internalError (.service e)))
  | .ok _ =>
    match web.optionalField j web.lib.asInt "ttl" with
    | .error e => .answer (web.replied (web.internalError (.conversion e)))
    | .ok ttl =>
      match web.optionalField j web.lib.asString "startDevice" with
      | .error e => .answer (web.replied (web.internalError (.conversion e)))
      | .ok startDevice =>
        .call (.operation (.demoSend (payment.request web ttl startDevice) env)) web.respond

def planDemoSend (request : HttpRequest web.lib) (env : DemoSendEnv) : Plan web.json :=
  match request.getJsonObject with
  | none => .answer (web.replied (web.badRequest "Invalid JSON"))
  | some j =>
    match ApiController.lacks web.lib j sendFields with
    | .error e => .answer (web.left (.conversion e))
    | .ok true => .answer (web.replied (web.badRequest "Missing required fields"))
    | .ok false =>
      match web.readPayment j with
      | .error e => .answer (web.replied (web.internalError (.conversion e)))
      | .ok payment => web.planSend payment env j

def planBridgeIngest (request : HttpRequest web.lib) (env : IngestEnv) : Plan web.json :=
  match request.getJsonObject with
  | none => .answer (web.replied (web.badRequest "Invalid JSON"))
  | some j =>
    match ApiController.lacks web.lib j ApiController.requiredFields with
    | .error e => .answer (web.left (.conversion e))
    | .ok true => .answer (web.replied (web.badRequest "Missing required fields"))
    | .ok false =>
      match ApiController.hopCountOf web.lib request with
      | .error e => .answer (web.left (.conversion e))
      | .ok hopCount =>
        match ApiController.packetOf web.lib j with
        | .error e => .answer (web.left (.conversion e))
        | .ok packet =>
          .call (.operation (.ingest packet (ApiController.uploaderOf web.lib request) hopCount env))
            web.respond

end HttpServer

namespace Plan

variable (web : HttpServer)

def program : Plan web.json → Endpoint (Answer web.json)
  | .answer a => pure a
  | .call c respond => do
    let reply ← c.program web.crypto web.json web.binary64
    pure (respond reply)

end Plan

namespace Task

variable (web : HttpServer)

def plan : Task web.lib → Plan web.json
  | .getServerKey => .answer (web.replied (web.ok (.ofKey web.publicKey)))
  | .demoSend request env => web.planDemoSend request env
  | .meshState order => .call (.meshState order) web.respond
  | .meshGossip order => .call (.operation (.meshGossip order)) web.respond
  | .meshFlush env => .call (.operation (.meshFlush env)) web.respond
  | .meshReset order faults => .call (.operation (.meshReset order faults)) web.respond
  | .bridgeIngest request env => web.planBridgeIngest request env
  | .listAccounts fault => .call (.listAccounts fault) web.respond
  | .listTransactions fault => .call (.listTransactions fault) web.respond
  | .evictExpired now => .call (.operation (.evictExpired now)) web.respond

end Task

section Equations

variable {web : HttpServer}

/-- A call followed by one callback. -/
theorem answer_call {α : Type} (p : Endpoint α) (response : α → HttpReply web.json) :
    Handling.answer (do let r ← p; web.callback (response r)) =
      (do let r ← p; pure (web.replied (response r))) := by
  induction p with
  | ret a => rfl
  | act a next ih =>
    change Program.act a _ = Program.act a _
    exact congrArg (Program.act a) (funext ih)

/-- A call that may throw, followed by the rest of the handler. -/
theorem answer_throwing {α : Type} (p : Endpoint (Except Exn α)) (k : α → Handling web.json Unit) :
    Handling.answer (do let r ← web.throwing p; k r) = (do
      match ← p with
      | .ok r => (k r).answer
      | .error e => pure (web.left (.service e))) := by
  induction p with
  | ret r =>
    cases r with
    | ok x => rfl
    | error e => rfl
  | act a next ih =>
    change Program.act a _ = Program.act a _
    exact congrArg (Program.act a) (funext ih)

theorem answer_sendArray (rows : List web.json.Json) :
    (web.sendArray rows).answer = pure (web.listed rows) := by
  unfold HttpServer.sendArray HttpServer.listed
  cases web.dump rows with
  | ok body => rfl
  | error e => rfl

theorem serve_bind {α β : Type} (p : Service α) (k : α → Service β) :
    (p >>= k).serve = p.serve >>= fun r => (k r).serve := Program.expand_bind _ p k

/-- The program of an operation that is one service call. -/
theorem program_operation {α : Type} {p : Service α} {op : Op} (reply : α → Reply)
    (hop : op.program web.crypto = p >>= fun r => pure (reply r))
    (respond : ServerReply web.json → Answer web.json) :
    (Plan.call (.operation op) respond).program web =
      p.serve >>= fun r => pure (respond (.replied (reply r))) := by
  rw [Plan.program, ServerCall.program, hop, serve_bind, Program.bind_assoc, Program.bind_assoc]
  rfl

/-- What the handler of `demoSend` catches. -/
def caught (h : Handling web.json Unit) : Handling web.json Unit :=
  tryCatch h fun e => web.callback (web.internalError e)

/-- Injecting a packet that has been encrypted. -/
theorem answer_sendPacket (request : DemoSendRequest) {env : DemoSendEnv} {ciphertext : String}
    (hc : web.crypto.encrypt (ApiController.instruction web.crypto request env) env.random =
      .ok ciphertext) :
    (caught (web.sendPacket (ApiController.startDevice request)
      (ApiController.packet request env ciphertext))).answer =
        (Plan.call (.operation (.demoSend request env)) web.respond).program web := by
  simp only [Plan.program, ServerCall.program, Op.program, ApiController.demoSend, hc]
  unfold HttpServer.sendPacket MeshSimulatorService.inject
  cases MeshSimulatorService.getDevice (ApiController.startDevice request) with
  | none => rfl
  | some d => rfl

theorem answer_sendPayment (payment : HttpServer.Payment) (env : DemoSendEnv)
    (j : JsonValue web.lib.Double) :
    (caught (web.sendPayment payment j env)).answer = (web.planSend payment env j).program web := by
  unfold HttpServer.sendPayment HttpServer.planSend
  cases hc : web.crypto.encrypt (payment.instruction web env) env.random with
  | error e => rfl
  | ok ciphertext =>
    cases httl : web.optionalField j web.lib.asInt "ttl" with
    | error e => rfl
    | ok ttl =>
      cases hdevice : web.optionalField j web.lib.asString "startDevice" with
      | error e => rfl
      | ok startDevice =>
        exact answer_sendPacket (payment.request web ttl startDevice) hc

theorem answer_demoSend (request : HttpRequest web.lib) (env : DemoSendEnv) :
    (web.demoSend request env).answer = (web.planDemoSend request env).program web := by
  unfold HttpServer.demoSend HttpServer.planDemoSend
  cases request.getJsonObject with
  | none => rfl
  | some j =>
    dsimp only
    cases hlacks : ApiController.lacks web.lib j HttpServer.sendFields with
    | error e => rfl
    | ok missing =>
      cases missing with
      | true => rfl
      | false =>
        change (caught (web.send j env)).answer = _
        unfold HttpServer.send
        cases hpayment : web.readPayment j with
        | error e => rfl
        | ok payment => exact answer_sendPayment payment env j

theorem answer_bridgeIngest (request : HttpRequest web.lib) (env : IngestEnv) :
    web.bridgeIngest request env = (web.planBridgeIngest request env).program web := by
  unfold HttpServer.bridgeIngest HttpServer.planBridgeIngest
  cases hbody : request.getJsonObject with
  | none =>
    rw [ApiController.bridgeIngest_none hbody]
    rfl
  | some j =>
    dsimp only
    cases hlacks : ApiController.lacks web.lib j ApiController.requiredFields with
    | error e =>
      rw [ApiController.bridgeIngest_not_object hbody hlacks]
      rfl
    | ok missing =>
      cases missing with
      | true =>
        rw [ApiController.bridgeIngest_lacks hbody hlacks]
        rfl
      | false =>
        dsimp only
        cases hhops : ApiController.hopCountOf web.lib request with
        | error e =>
          rw [ApiController.bridgeIngest_hopCount hbody hlacks hhops]
          rfl
        | ok hopCount =>
          dsimp only
          cases hpacket : ApiController.packetOf web.lib j with
          | error e =>
            rw [ApiController.bridgeIngest_packet hbody hlacks hhops hpacket]
            rfl
          | ok packet =>
            rw [ApiController.bridgeIngest_ok hbody hlacks hhops hpacket]
            dsimp only
            rw [program_operation .ingested rfl, serve_bind, Program.bind_assoc]
            rfl

theorem answer_meshReset (order : MeshOrder) (faults : ResetFaults) :
    (web.meshReset order faults).answer =
      (Plan.call (.operation (.meshReset order faults)) web.respond).program web := by
  have hcall := answer_throwing (ApiController.meshReset order faults).serve
    fun _ => web.callback (web.ok .ofReset)
  rw [program_operation .wasReset rfl]
  refine hcall.trans (congrArg (_ >>= ·) (funext fun r => ?_))
  cases r with
  | ok _ => rfl
  | error e => rfl

theorem answer_listAccounts (fault : Option QueryFault) :
    (web.listAccounts fault).answer = (Plan.call (.listAccounts fault) web.respond).program web :=
  congrArg (Program.act _) (funext fun _ => answer_sendArray _)

theorem answer_listTransactions (fault : Option QueryFault) :
    (web.listTransactions fault).answer =
      (Plan.call (.listTransactions fault) web.respond).program web := by
  refine congrArg (Program.act _) (funext fun rows => ?_)
  cases rows with
  | error e => rfl
  | ok txs => exact answer_sendArray _

/-- Every request is handled as planned. -/
theorem Task.program_eq (task : Task web.lib) : task.program web = (task.plan web).program web := by
  cases task with
  | getServerKey => rfl
  | demoSend request env => exact answer_demoSend request env
  | meshState order =>
    have hcall := answer_call (ApiController.meshState order) fun r => web.ok (.ofState r)
    rw [plan, Plan.program, ServerCall.program, Program.bind_assoc]
    exact hcall
  | meshGossip order =>
    have hcall := answer_call (ApiController.meshGossip order).serve fun r => web.ok (.ofGossip r)
    rw [plan, program_operation .gossiped rfl]
    exact hcall
  | meshFlush env =>
    have hcall := answer_call (ApiController.meshFlush web.crypto env).serve fun r => web.ok (.ofFlush r)
    rw [plan, program_operation .flushed rfl]
    exact hcall
  | meshReset order faults => exact answer_meshReset order faults
  | bridgeIngest request env => exact answer_bridgeIngest request env
  | listAccounts fault => exact answer_listAccounts fault
  | listTransactions fault => exact answer_listTransactions fault
  | evictExpired now => rfl

end Equations

end UpiMesh
