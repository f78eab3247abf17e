import UpiMesh.Api
import UpiMesh.Lib.LeadingInt
import UpiMesh.PaymentJson

/-!
# ApiController::bridgeIngest

The handler of `/bridge/ingest`, from the request to the callback. The conversions of the JSON fields and
of the `X-Hop-Count` header throw, and no `try` block surrounds them.
-/

namespace UpiMesh

open Concurrent

/-- What the conversions throw. -/
inductive Thrown where
  | logicError (what : String)
  | invalidArgument (what : String)
  | outOfRange (what : String)
  deriving DecidableEq, Repr

/-- `std::stoi`: `strtol` on the C string, and the range check of `int`. -/
def stoi (s : String) : Except Thrown ℤ :=
  match LeadingInt.read (cstr s).toList with
  | none => .error (.invalidArgument "stoi")
  | some n => if -2 ^ 31 ≤ n ∧ n < 2 ^ 31 then .ok n else .error (.outOfRange "stoi")

/-- The text starts with an integer that is an `int`. -/
def IntText (s : String) : Prop :=
  ∃ n, LeadingInt.Starts (cstr s).toList n ∧ -2 ^ 31 ≤ n ∧ n < 2 ^ 31

theorem stoi_eq_ok_iff {s : String} {n : ℤ} :
    stoi s = .ok n ↔ LeadingInt.Starts (cstr s).toList n ∧ -2 ^ 31 ≤ n ∧ n < 2 ^ 31 := by
  rw [← LeadingInt.read_eq_some_iff, stoi]
  cases LeadingInt.read (cstr s).toList with
  | none => simp
  | some m =>
    by_cases hrange : -2 ^ 31 ≤ m ∧ m < 2 ^ 31
    · simp only [hrange, and_self, if_true, Except.ok.injEq, Option.some.injEq]
      constructor
      · rintro rfl
        exact ⟨rfl, hrange⟩
      · exact fun h => h.1
    · simp only [hrange, if_false, Option.some.injEq, reduceCtorEq, false_iff]
      rintro ⟨rfl, h⟩
      exact hrange h

theorem exists_stoi_iff {s : String} : (∃ n, stoi s = .ok n) ↔ IntText s :=
  exists_congr fun _ => stoi_eq_ok_iff

namespace JsonValue

variable {Double : Type}

def IsObjectOrNull : JsonValue Double → Prop
  | .null => True
  | .object _ => True
  | _ => False

/-- Everything but an array or an object has a text. -/
def HasText : JsonValue Double → Prop
  | .array _ => False
  | .object _ => False
  | _ => True

/-- Null, booleans and the numbers in range convert to an integer type. -/
def HasInt (lo hi : ℤ) (inRange : Double → Bool) : JsonValue Double → Prop
  | .null => True
  | .boolean _ => True
  | .integer n => lo ≤ n ∧ n < hi
  | .real x => inRange x = true
  | _ => False

end JsonValue

/-- `Json::Value`, as far as the handler uses it. -/
structure JsonCpp where
  Double : Type
  inIntRange : Double → Bool
  inInt64Range : Double → Bool
  isMember : JsonValue Double → String → Except Thrown Bool
  member : JsonValue Double → String → Except Thrown (JsonValue Double)
  asString : JsonValue Double → Except Thrown String
  asInt : JsonValue Double → Except Thrown ℤ
  asInt64 : JsonValue Double → Except Thrown ℤ

/-- What is documented of it. -/
structure JsonCpp.Documented (lib : JsonCpp) : Prop where
  isMember_null : ∀ key, lib.isMember .null key = .ok false
  isMember_object : ∀ members key,
    lib.isMember (.object members) key = .ok (members.lookup key).isSome
  isMember_other : ∀ j key, ¬ j.IsObjectOrNull → ∃ e, lib.isMember j key = .error e
  member_object : ∀ members key v, members.lookup key = some v →
    lib.member (.object members) key = .ok v
  asString_iff : ∀ v, (∃ s, lib.asString v = .ok s) ↔ v.HasText
  asInt_iff : ∀ v, (∃ n, lib.asInt v = .ok n) ↔ v.HasInt (-2 ^ 31) (2 ^ 31) lib.inIntRange
  asInt64_iff : ∀ v, (∃ n, lib.asInt64 v = .ok n) ↔ v.HasInt (-2 ^ 63) (2 ^ 63) lib.inInt64Range

structure HttpRequest (lib : JsonCpp) where
  getJsonObject : Option (JsonValue lib.Double)
  getHeader : String → String

inductive ResponseBody where
  | failure (error message : String)
  | ingest (outcome packetHash reason : String) (transactionId : Option ℤ)
  deriving DecidableEq, Repr

structure HttpResponse where
  statusCode : ℕ
  body : ResponseBody
  deriving DecidableEq, Repr

/-- What a handler leaves behind: the responses it gave to its callback, in order, and the exception it
was left by. -/
structure Handled where
  callbacks : List HttpResponse
  thrown : Option Thrown
  deriving DecidableEq, Repr

/-- Handler code: it may throw, and keeps the responses given so far. -/
abbrev Handler := ExceptT Thrown (StateT (List HttpResponse) Service)

def Handler.handled (h : Handler Unit) : Service Handled := do
  let (result, callbacks) ← (ExceptT.run h).run []
  match result with
  | .ok () => pure ⟨callbacks, none⟩
  | .error e => pure ⟨callbacks, some e⟩

namespace ApiController

def callback (response : HttpResponse) : Handler Unit := modify (· ++ [response])

def attempt {α : Type} (x : Except Thrown α) : Handler α := ExceptT.mk (pure x)

def badRequest (message : String) : HttpResponse := ⟨400, .failure "bad_request" message⟩

def ingestResponse (r : IngestResult) : HttpResponse :=
  ⟨200, .ingest r.outcome r.packetHash r.reason r.transactionId⟩

def requiredFields : List String := ["packetId", "ttl", "createdAt", "ciphertext"]

variable (lib : JsonCpp)

/-- `!isMember(key) || …` over the required fields. -/
def lacks (j : JsonValue lib.Double) : List String → Except Thrown Bool
  | [] => .ok false
  | key :: keys => do
    if ← lib.isMember j key then lacks j keys else pure true

def uploaderOf (request : HttpRequest lib) : String :=
  let bridgeNodeId := request.getHeader "X-Bridge-Node-Id"
  if bridgeNodeId = "" then "unknown" else bridgeNodeId

def hopCountOf (request : HttpRequest lib) : Except Thrown ℤ :=
  let hopCountStr := request.getHeader "X-Hop-Count"
  if hopCountStr = "" then .ok 0 else stoi hopCountStr

def packetOf (j : JsonValue lib.Double) : Except Thrown MeshPacket := do
  let packetId ← lib.asString (← lib.member j "packetId")
  let ttl ← lib.asInt (← lib.member j "ttl")
  let createdAt ← lib.asInt64 (← lib.member j "createdAt")
  let ciphertext ← lib.asString (← lib.member j "ciphertext")
  pure { packetId, ttl, createdAt, ciphertext }

def bridgeIngest (crypto : CryptoService) (request : HttpRequest lib) (env : IngestEnv) :
    Handler Unit := do
  match request.getJsonObject with
  | none => callback (badRequest "Invalid JSON")
  | some j =>
    if ← attempt (lacks lib j requiredFields) then
      callback (badRequest "Missing required fields")
    else
      let hopCount ← attempt (hopCountOf lib request)
      let packet ← attempt (packetOf lib j)
      let r ← BridgeIngestionService.ingest crypto packet (uploaderOf lib request) hopCount env
      callback (ingestResponse r)

variable {lib} {crypto : CryptoService} {request : HttpRequest lib} {env : IngestEnv}

/-- A service call followed by one callback. -/
theorem handled_call {α : Type} (p : Service α) (response : α → HttpResponse) :
    Handler.handled (do let r ← p; callback (response r)) =
      (do let r ← p; pure ⟨[response r], none⟩) := by
  induction p with
  | ret a => rfl
  | act a next ih =>
    change Program.act a _ = Program.act a _
    exact congrArg (Program.act a) (funext ih)

theorem bridgeIngest_none (h : request.getJsonObject = none) :
    (bridgeIngest lib crypto request env).handled = pure ⟨[badRequest "Invalid JSON"], none⟩ := by
  rw [bridgeIngest, h]
  rfl

section Body

variable {j : JsonValue lib.Double} (h : request.getJsonObject = some j)

include h

theorem bridgeIngest_lacks (hlacks : lacks lib j requiredFields = .ok true) :
    (bridgeIngest lib crypto request env).handled =
      pure ⟨[badRequest "Missing required fields"], none⟩ := by
  rw [bridgeIngest, h]
  simp only [hlacks]
  rfl

theorem bridgeIngest_not_object {e : Thrown} (hlacks : lacks lib j requiredFields = .error e) :
    (bridgeIngest lib crypto request env).handled = pure ⟨[], some e⟩ := by
  rw [bridgeIngest, h]
  simp only [hlacks]
  rfl

variable (hlacks : lacks lib j requiredFields = .ok false)

include hlacks

theorem bridgeIngest_hopCount {e : Thrown} (hhops : hopCountOf lib request = .error e) :
    (bridgeIngest lib crypto request env).handled = pure ⟨[], some e⟩ := by
  rw [bridgeIngest, h]
  simp only [hlacks, hhops]
  rfl

theorem bridgeIngest_packet {hopCount : ℤ} (hhops : hopCountOf lib request = .ok hopCount)
    {e : Thrown} (hpacket : packetOf lib j = .error e) :
    (bridgeIngest lib crypto request env).handled = pure ⟨[], some e⟩ := by
  rw [bridgeIngest, h]
  simp only [hlacks, hhops, hpacket]
  rfl

theorem bridgeIngest_ok {hopCount : ℤ} (hhops : hopCountOf lib request = .ok hopCount)
    {packet : MeshPacket} (hpacket : packetOf lib j = .ok packet) :
    (bridgeIngest lib crypto request env).handled = (do
      let r ← BridgeIngestionService.ingest crypto packet (uploaderOf lib request) hopCount env
      pure ⟨[ingestResponse r], none⟩) := by
  rw [bridgeIngest, h]
  simp only [hlacks, hhops, hpacket]
  exact handled_call _ ingestResponse

end Body

/-- The hop count can be read. -/
theorem exists_hopCount_iff : (∃ n, hopCountOf lib request = .ok n) ↔
    request.getHeader "X-Hop-Count" = "" ∨ IntText (request.getHeader "X-Hop-Count") := by
  rw [← exists_stoi_iff]
  by_cases hempty : request.getHeader "X-Hop-Count" = ""
  · have hzero : hopCountOf lib request = .ok 0 := if_pos hempty
    exact iff_of_true ⟨0, hzero⟩ (Or.inl hempty)
  · have hread : hopCountOf lib request = stoi (request.getHeader "X-Hop-Count") := if_neg hempty
    rw [hread, or_iff_right hempty]

variable (hlib : lib.Documented)

include hlib

/-- On an object the check of the fields ends, with whether one is missing. -/
theorem lacks_object (members : List (String × JsonValue lib.Double)) (keys : List String) :
    lacks lib (.object members) keys = .ok (keys.any fun key => (members.lookup key).isNone) := by
  induction keys with
  | nil => rfl
  | cons key keys ih =>
    cases hkey : members.lookup key with
    | none =>
      simp only [lacks, hlib.isMember_object, hkey, bind, Except.bind, pure, Except.pure, List.any_cons]
      rfl
    | some v =>
      simp only [lacks, hlib.isMember_object, hkey, bind, Except.bind, List.any_cons, ih]
      rfl

theorem lacks_null : lacks lib .null requiredFields = .ok true := by
  simp only [requiredFields, lacks, hlib.isMember_null, bind, Except.bind]
  rfl

theorem lacks_other {j : JsonValue lib.Double} (h : ¬ j.IsObjectOrNull) :
    ∃ e, lacks lib j requiredFields = .error e := by
  obtain ⟨e, he⟩ := hlib.isMember_other j "packetId" h
  exact ⟨e, by simp only [requiredFields, lacks, he, bind, Except.bind]⟩

/-- The packet can be read from an object with the four fields. -/
theorem exists_packet_iff {members : List (String × JsonValue lib.Double)}
    {packetId ttl createdAt ciphertext : JsonValue lib.Double}
    (hid : members.lookup "packetId" = some packetId) (httl : members.lookup "ttl" = some ttl)
    (hcreated : members.lookup "createdAt" = some createdAt)
    (hcipher : members.lookup "ciphertext" = some ciphertext) :
    (∃ packet, packetOf lib (.object members) = .ok packet) ↔
      packetId.HasText ∧ ttl.HasInt (-2 ^ 31) (2 ^ 31) lib.inIntRange ∧
        createdAt.HasInt (-2 ^ 63) (2 ^ 63) lib.inInt64Range ∧ ciphertext.HasText := by
  rw [← hlib.asString_iff, ← hlib.asInt_iff, ← hlib.asInt64_iff, ← hlib.asString_iff]
  simp only [packetOf, hlib.member_object _ _ _ hid, hlib.member_object _ _ _ httl,
    hlib.member_object _ _ _ hcreated, hlib.member_object _ _ _ hcipher]
  constructor
  · rintro ⟨packet, h⟩
    obtain ⟨a, ha, h⟩ := bind_eq_ok (x := lib.asString packetId) h
    obtain ⟨b, hb, h⟩ := bind_eq_ok (x := lib.asInt ttl) h
    obtain ⟨c, hc, h⟩ := bind_eq_ok (x := lib.asInt64 createdAt) h
    obtain ⟨d, hd, -⟩ := bind_eq_ok (x := lib.asString ciphertext) h
    exact ⟨⟨a, ha⟩, ⟨b, hb⟩, ⟨c, hc⟩, ⟨d, hd⟩⟩
  · rintro ⟨⟨a, ha⟩, ⟨b, hb⟩, ⟨c, hc⟩, ⟨d, hd⟩⟩
    simp only [ha, hb, hc, hd, bind, Except.bind]
    exact ⟨_, rfl⟩

end ApiController

open ApiController

/-- The request is answered: with a 400 and without any action on the stores, or with the result of one
call of `ingest`. The callback is called once, and no exception leaves the handler. -/
def AnsweredOnce (crypto : CryptoService) (env : IngestEnv) (p : Service Handled) : Prop :=
  (∃ response, response.statusCode = 400 ∧ p = pure ⟨[response], none⟩) ∨
    ∃ packet bridgeNodeId hopCount, p = (do
      let r ← BridgeIngestionService.ingest crypto packet bridgeNodeId hopCount env
      pure ⟨[ingestResponse r], none⟩)

/-- What an answered request leaves on a server that nothing else runs on. -/
theorem AnsweredOnce.run {crypto : CryptoService} {env : IngestEnv} {p : Service Handled}
    (h : AnsweredOnce crypto env p) (s : Server) :
    (p.run s).1.thrown = none ∧
      ((∃ response, (p.run s).1.callbacks = [response] ∧ response.statusCode = 400 ∧
          (p.run s).2 = s) ∨
        ∃ packet bridgeNodeId hopCount,
          let ingested := (BridgeIngestionService.ingest crypto packet bridgeNodeId hopCount env).run s
          (p.run s).1.callbacks = [ingestResponse ingested.1] ∧ (p.run s).2 = ingested.2) := by
  rcases h with ⟨response, hstatus, rfl⟩ | ⟨packet, bridgeNodeId, hopCount, rfl⟩
  · exact ⟨rfl, Or.inl ⟨response, rfl, hstatus, rfl⟩⟩
  · simp only [Service.run, Program.run_bind, Program.pure_eq, Program.run_ret]
    exact ⟨trivial, Or.inr ⟨packet, bridgeNodeId, hopCount, rfl, rfl⟩⟩

theorem not_answered_thrown {crypto : CryptoService} {env : IngestEnv} (e : Thrown) :
    ¬ AnsweredOnce crypto env (pure ⟨[], some e⟩) := by
  intro h
  have hthrown := (h.run Server.initial).1
  cases hthrown

/-- The four fields are there and convert to the types of a packet. -/
def JsonCpp.Converts (lib : JsonCpp) (members : List (String × JsonValue lib.Double)) : Prop :=
  (∃ v, members.lookup "packetId" = some v ∧ v.HasText) ∧
    (∃ v, members.lookup "ttl" = some v ∧ v.HasInt (-2 ^ 31) (2 ^ 31) lib.inIntRange) ∧
    (∃ v, members.lookup "createdAt" = some v ∧ v.HasInt (-2 ^ 63) (2 ^ 63) lib.inInt64Range) ∧
    ∃ v, members.lookup "ciphertext" = some v ∧ v.HasText

/-- No body, the body `null`, an object that misses a field, or one that converts, with a hop count that
is absent or an integer. -/
def HttpRequest.Answerable {lib : JsonCpp} (request : HttpRequest lib) : Prop :=
  match request.getJsonObject with
  | none => True
  | some .null => True
  | some (.object members) =>
    (∃ key ∈ requiredFields, members.lookup key = none) ∨
      (request.getHeader "X-Hop-Count" = "" ∨ IntText (request.getHeader "X-Hop-Count")) ∧
        lib.Converts members
  | some _ => False

theorem not_answerable_other {lib : JsonCpp} {request : HttpRequest lib}
    {j : JsonValue lib.Double} (h : request.getJsonObject = some j) (hj : ¬ j.IsObjectOrNull) :
    ¬ request.Answerable := by
  rw [HttpRequest.Answerable, h]
  cases j with
  | null => exact absurd trivial hj
  | object members => exact absurd trivial hj
  | _ => exact id

section Object

variable {lib : JsonCpp} (hlib : lib.Documented) {crypto : CryptoService} {request : HttpRequest lib}
  {env : IngestEnv} {members : List (String × JsonValue lib.Double)}
  (h : request.getJsonObject = some (.object members))

include hlib h

theorem answered_missing (hmissing : ∃ key ∈ requiredFields, members.lookup key = none) :
    AnsweredOnce crypto env (bridgeIngest lib crypto request env).handled := by
  obtain ⟨key, hkey, hnone⟩ := hmissing
  have hany : (requiredFields.any fun key => (members.lookup key).isNone) = true :=
    List.any_eq_true.mpr ⟨key, hkey, by rw [hnone]; rfl⟩
  have hlacks := lacks_object hlib members requiredFields
  rw [hany] at hlacks
  exact Or.inl ⟨_, rfl, bridgeIngest_lacks h hlacks⟩

/-- With all fields there, the request is answered when the hop count and the fields can be read. -/
theorem answered_complete_iff (hall : ∀ key ∈ requiredFields, members.lookup key ≠ none) :
    AnsweredOnce crypto env (bridgeIngest lib crypto request env).handled ↔
      (request.getHeader "X-Hop-Count" = "" ∨ IntText (request.getHeader "X-Hop-Count")) ∧
        lib.Converts members := by
  have hany : (requiredFields.any fun key => (members.lookup key).isNone) = false := by
    rw [List.any_eq_false]
    intro key hkey hnone
    exact hall key hkey (Option.isNone_iff_eq_none.mp hnone)
  have hlacks := lacks_object hlib members requiredFields
  rw [hany] at hlacks
  have hfield : ∀ key ∈ requiredFields, ∃ v, members.lookup key = some v :=
    fun key hkey => Option.ne_none_iff_exists'.mp (hall key hkey)
  obtain ⟨packetId, hid⟩ := hfield "packetId" (by decide)
  obtain ⟨ttl, httl⟩ := hfield "ttl" (by decide)
  obtain ⟨createdAt, hcreated⟩ := hfield "createdAt" (by decide)
  obtain ⟨ciphertext, hcipher⟩ := hfield "ciphertext" (by decide)
  have hconverts : lib.Converts members ↔
      ∃ packet, packetOf lib (.object members) = .ok packet := by
    rw [exists_packet_iff hlib hid httl hcreated hcipher]
    simp only [JsonCpp.Converts, hid, httl, hcreated, hcipher, Option.some.injEq, exists_eq_left']
  rw [← exists_hopCount_iff, hconverts]
  cases hhops : hopCountOf lib request with
  | error e =>
    rw [bridgeIngest_hopCount h hlacks hhops]
    refine iff_of_false (not_answered_thrown e) ?_
    rintro ⟨⟨n, hn⟩, -⟩
    cases hn
  | ok hopCount =>
    cases hpacket : packetOf lib (.object members) with
    | error e =>
      rw [bridgeIngest_packet h hlacks hhops hpacket]
      refine iff_of_false (not_answered_thrown e) ?_
      rintro ⟨-, packet, hp⟩
      cases hp
    | ok packet =>
      rw [bridgeIngest_ok h hlacks hhops hpacket]
      exact iff_of_true (Or.inr ⟨packet, _, hopCount, rfl⟩) ⟨⟨hopCount, rfl⟩, packet, rfl⟩

end Object

/-- Exactly these requests are answered. -/
theorem answered_iff (lib : JsonCpp) (hlib : lib.Documented) (crypto : CryptoService)
    (request : HttpRequest lib) (env : IngestEnv) :
    AnsweredOnce crypto env (bridgeIngest lib crypto request env).handled ↔ request.Answerable := by
  cases hbody : request.getJsonObject with
  | none =>
    rw [bridgeIngest_none hbody, HttpRequest.Answerable, hbody]
    exact iff_of_true (Or.inl ⟨_, rfl, rfl⟩) trivial
  | some j =>
    by_cases hj : j.IsObjectOrNull
    · cases j with
      | null =>
        rw [bridgeIngest_lacks hbody (lacks_null hlib), HttpRequest.Answerable, hbody]
        exact iff_of_true (Or.inl ⟨_, rfl, rfl⟩) trivial
      | object members =>
        rw [HttpRequest.Answerable, hbody]
        by_cases hmissing : ∃ key ∈ requiredFields, members.lookup key = none
        · exact iff_of_true (answered_missing hlib hbody hmissing) (Or.inl hmissing)
        · have hall : ∀ key ∈ requiredFields, members.lookup key ≠ none :=
            fun key hkey hnone => hmissing ⟨key, hkey, hnone⟩
          rw [answered_complete_iff hlib hbody hall]
          exact (or_iff_right hmissing).symm
      | _ => exact hj.elim
    · obtain ⟨e, hlacks⟩ := lacks_other hlib hj
      rw [bridgeIngest_not_object hbody hlacks]
      exact iff_of_false (not_answered_thrown e) (not_answerable_other hbody hj)

namespace JsonCpp

def typeError (what : String) : Thrown := .logicError ("Value is not convertible to " ++ what)

def intIn (lo hi : ℤ) (what : String) : JsonValue ℚ → Except Thrown ℤ
  | .null => .ok 0
  | .boolean b => .ok b.toNat
  | .integer n => if lo ≤ n ∧ n < hi then .ok n else .error (typeError what)
  | .real x =>
    if (lo : ℚ) ≤ x ∧ x < hi then .ok (if 0 ≤ x then ⌊x⌋ else ⌈x⌉) else .error (typeError what)
  | _ => .error (typeError what)

/-- The library on plain trees, with exact numbers. -/
def plain : JsonCpp where
  Double := ℚ
  inIntRange x := decide (((-2 ^ 31 : ℤ) : ℚ) ≤ x ∧ x < ((2 ^ 31 : ℤ) : ℚ))
  inInt64Range x := decide (((-2 ^ 63 : ℤ) : ℚ) ≤ x ∧ x < ((2 ^ 63 : ℤ) : ℚ))
  isMember
    | .null, _ => .ok false
    | .object members, key => .ok (members.lookup key).isSome
    | _, _ => .error (.logicError "requires objectValue or nullValue")
  member
    | .null, _ => .ok .null
    | .object members, key => .ok ((members.lookup key).getD .null)
    | _, _ => .error (.logicError "requires objectValue")
  asString
    | .null => .ok ""
    | .boolean b => .ok (if b then "true" else "false")
    | .integer n => .ok (toString n)
    | .real x => .ok (toString x)
    | .string s => .ok s
    | _ => .error (typeError "string")
  asInt := intIn (-2 ^ 31) (2 ^ 31) "Int"
  asInt64 := intIn (-2 ^ 63) (2 ^ 63) "Int64"

theorem exists_intIn_iff {lo hi : ℤ} {what : String} {v : JsonValue ℚ} :
    (∃ n, intIn lo hi what v = .ok n) ↔
      v.HasInt lo hi fun x => decide ((lo : ℚ) ≤ x ∧ x < (hi : ℚ)) := by
  cases v with
  | null => exact iff_of_true ⟨0, rfl⟩ trivial
  | boolean b => exact iff_of_true ⟨b.toNat, rfl⟩ trivial
  | integer n =>
    by_cases hrange : lo ≤ n ∧ n < hi
    · exact iff_of_true ⟨n, if_pos hrange⟩ hrange
    · simp [intIn, JsonValue.HasInt, hrange]
  | real x =>
    by_cases hrange : (lo : ℚ) ≤ x ∧ x < hi
    · exact iff_of_true ⟨_, if_pos hrange⟩ (decide_eq_true hrange)
    · simp [intIn, JsonValue.HasInt, hrange]
  | string s => simp [intIn, JsonValue.HasInt]
  | array elements => simp [intIn, JsonValue.HasInt]
  | object members => simp [intIn, JsonValue.HasInt]

theorem documented_plain : plain.Documented where
  isMember_null _ := rfl
  isMember_object _ _ := rfl
  isMember_other j _ h := by
    cases j with
    | null => exact absurd trivial h
    | object members => exact absurd trivial h
    | _ => exact ⟨_, rfl⟩
  member_object members key v h := by
    have hfound : (members.lookup key).getD .null = v := by rw [h, Option.getD_some]
    exact congrArg Except.ok hfound
  asString_iff v := by
    cases v with
    | array elements => simp [plain, JsonValue.HasText]
    | object members => simp [plain, JsonValue.HasText]
    | _ => exact iff_of_true ⟨_, rfl⟩ trivial
  asInt_iff _ := exists_intIn_iff
  asInt64_iff _ := exists_intIn_iff

end JsonCpp

def uploadMembers : List (String × JsonValue ℚ) :=
  [("packetId", .string "p1"), ("ttl", .integer 5), ("createdAt", .integer 0),
    ("ciphertext", .string "c1")]

/-- An upload with the given hop count. -/
def uploadRequest (hopCount : String) : HttpRequest .plain where
  getJsonObject := some (.object uploadMembers)
  getHeader field := if field = "X-Hop-Count" then hopCount else ""

def ingestAtZero : IngestEnv := { settledAt := fun _ => 0, claimNow := 0, freshNow := 0 }

/-- Neither an array as the body nor a hop count that is no number is answered. -/
theorem array_body_unanswered :
    ¬ AnsweredOnce (.ofList []) ingestAtZero
        (bridgeIngest .plain (.ofList []) ⟨some (.array []), fun _ => ""⟩ ingestAtZero).handled ∧
      ¬ AnsweredOnce (.ofList []) ingestAtZero
        (bridgeIngest .plain (.ofList []) (uploadRequest "abc") ingestAtZero).handled := by
  constructor
  · obtain ⟨e, hlacks⟩ := lacks_other JsonCpp.documented_plain (j := .array []) id
    rw [bridgeIngest_not_object rfl hlacks]
    exact not_answered_thrown e
  · have hlacks : lacks .plain (.object uploadMembers) requiredFields = .ok false := rfl
    have hhops : hopCountOf .plain (uploadRequest "abc") = .error (.invalidArgument "stoi") := by
      decide
    rw [bridgeIngest_hopCount rfl hlacks hhops]
    exact not_answered_thrown _

theorem answered_iff_upload :
    AnsweredOnce (.ofList []) ingestAtZero
      (bridgeIngest .plain (.ofList []) (uploadRequest " +2nd") ingestAtZero).handled := by
  apply (answered_iff .plain JsonCpp.documented_plain (.ofList []) (uploadRequest " +2nd")
    ingestAtZero).mpr
  have hhops : IntText " +2nd" := exists_stoi_iff.mp ⟨2, by decide⟩
  refine Or.inr ⟨Or.inr hhops, ⟨.string "p1", rfl, trivial⟩, ⟨.integer 5, rfl, ?_⟩,
    ⟨.integer 0, rfl, ?_⟩, ⟨.string "c1", rfl, trivial⟩⟩
  · exact ⟨by decide, by decide⟩
  · exact ⟨by decide, by decide⟩

end UpiMesh
