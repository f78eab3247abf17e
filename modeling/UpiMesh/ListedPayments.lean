import UpiMesh.HttpOutcomes
import UpiMesh.Provenance
import UpiMesh.WireFormat

/-!
# What the listing shows

From the body of `/demo/send` to the body of `/transactions`: an amount is typed in rupees, kept in paise,
encrypted in rupees, settled in paise and listed in rupees. If nobody uploads a packet of its own, each
listed row shows the parties and the very number that some client has typed, whatever else goes on.
-/

namespace UpiMesh

open Concurrent

section Tracing

variable {ι : Type} (crypto : CryptoService) (json : JsonLibrary) (b : Binary64)
  (calls : ι → List ServerCall)

/-- The server while it holds nothing but what has been sent. -/
def tracing : Evolution Server where
  keeps := Traced crypto calls
  leads _ _ := True
  refl _ := trivial
  trans _ _ := trivial

/-- A transaction listing shows rows that go back to what has been sent. -/
def Lists (call : ServerCall) (reply : ServerReply json) : Prop :=
  ∀ fault, call = .listTransactions fault → ∃ r, reply = .transactions r ∧ ∀ rows, r = .ok rows →
    ∃ txs : List Transaction, rows = txs.map (Transaction.to_json json b) ∧
      ∀ tx ∈ txs, FromSend crypto calls tx

variable {crypto calls}

theorem mem_of_mem_top20Rows {db : Database} {fault : Option QueryFault} {txs : List Transaction}
    (h : Statement.top20Rows db fault = .ok txs) {tx : Transaction} (htx : tx ∈ txs) :
    tx ∈ db.current.transactions.rows := by
  have hmem : tx ∈ db.current.transactions.rows.reverse.take 20 := by
    match fault with
    | none =>
      obtain rfl := Except.ok.inj h
      exact htx
    | some .prepare => cases h
    | some (.step delivered) =>
      obtain rfl := Except.ok.inj h
      exact List.mem_of_mem_take htx
  exact List.mem_reverse.mp (List.mem_of_mem_take hmem)

/-- An endpoint that a client may call keeps the server traced. -/
theorem follows_assures (hround : ∀ request env ciphertext, Sent crypto calls request env ciphertext →
      crypto.decrypt ciphertext = .ok (ApiController.instruction crypto request env))
    {α : Type} {p : Endpoint α} {Q : Unit → α → Prop} {s : Server}
    (h : p.Follows (ServerCall.protocol (Performed crypto calls) (Copy crypto calls)) Q ()) :
    p.Assures Call.exec (tracing crypto calls) (fun _ _ _ => ()) (fun _ _ _ => True) () s := by
  have hassures : p.Assures Call.exec (tracing crypto calls) (fun _ _ _ => ())
      (fun g _ x => Q g x ∧ True) () s := by
    refine h.assures (fun _ _ _ _ _ => trivial) (fun g c t hc ht _ => ?_) trivial
    obtain ⟨hfinds, hkeeps⟩ := ht.step hround hc
    exact ⟨hfinds, hkeeps, trivial, trivial⟩
  exact hassures.mono fun _ _ _ _ => trivial

theorem call_lists (hround : ∀ request env ciphertext, Sent crypto calls request env ciphertext →
      crypto.decrypt ciphertext = .ok (ApiController.instruction crypto request env))
    {call : ServerCall} (hcall : ∀ c, call.Performs crypto (Copy crypto calls) c →
      Performed crypto calls c) {s : Server} :
    (call.program crypto json b).Assures Call.exec (tracing crypto calls) (fun _ _ _ => ())
      (fun _ _ reply => Lists crypto json b calls call reply) () s := by
  by_cases hlisting : ∃ fault, call = .listTransactions fault
  · obtain ⟨fault, rfl⟩ := hlisting
    intro t ht _
    refine ⟨ht, trivial, ?_⟩
    generalize hrows : ((Call.query (.findTop20ByOrderByIdDesc fault)).exec t).1 = r
    cases r with
    | error e => exact fun _ _ => ⟨_, rfl, fun rows h => by cases h⟩
    | ok txs =>
      refine fun _ _ => ⟨_, rfl, fun rows h => ⟨txs, (Except.ok.inj h).symm, fun tx htx => ?_⟩⟩
      exact ht.current tx (mem_of_mem_top20Rows hrows htx)
  · have hfollows : (call.program crypto json b).Follows (ServerCall.protocol (Performed crypto calls)
        (Copy crypto calls)) (fun _ _ => True) () := ServerCall.program_follows copy_copy call hcall
    exact (follows_assures hround hfollows).mono fun _ _ _ _ fault h => absurd ⟨fault, h⟩ hlisting

theorem programs_list (hround : ∀ request env ciphertext, Sent crypto calls request env ciphertext →
      crypto.decrypt ciphertext = .ok (ApiController.instruction crypto request env))
    (session : List ServerCall) (hsession : ∀ call ∈ session, ∀ c,
      call.Performs crypto (Copy crypto calls) c → Performed crypto calls c) {s : Server} :
    (ServerCall.programs crypto json b session).Assures Call.exec (tracing crypto calls)
      (fun _ _ _ => ()) (fun _ _ replies => List.Forall₂ (Lists crypto json b calls) session replies)
      () s := by
  induction session generalizing s with
  | nil => exact .nil
  | cons call session ih =>
    obtain ⟨hcall, hrest⟩ := List.forall_mem_cons.mp hsession
    exact (call_lists json b hround hcall).bind fun _ _ reply hreply =>
      (ih hrest).bind fun _ _ replies hreplies => .cons hreply hreplies

end Tracing

/-- Rupees with at most two decimals, of up to 2⁵⁰ paise. -/
def TwoDecimals (b : Binary64) (x : ℚ) : Prop :=
  ∃ paise : ℤ, |paise| ≤ 2 ^ 50 ∧ x = PaymentInstruction.rupees b paise

section Listing

variable (web : HttpServer)

/-- One of the clients asks for the payment in a body of `demoSend`. -/
def Requested {ι : Type} (tasks : ι → List (Task web.lib)) (payment : HttpServer.Payment)
    (env : DemoSendEnv) : Prop :=
  ∃ i request members ttl startDevice, .demoSend request env ∈ tasks i ∧
    request.getJsonObject = some (.object members) ∧ web.Reads members payment ttl startDevice

/-- The listed row shows the payment, under the hash of its ciphertext. -/
structure Shows (payment : HttpServer.Payment) (env : DemoSendEnv) (ciphertext : String)
    (x : web.json.Json) : Prop where
  packetHash : (web.json.atKey x "packetHash" >>= web.json.getString) =
    .ok (web.crypto.hashCiphertext ciphertext)
  senderVpa : (web.json.atKey x "senderVpa" >>= web.json.getString) = .ok (cstr payment.senderVpa)
  receiverVpa : (web.json.atKey x "receiverVpa" >>= web.json.getString) = .ok (cstr payment.receiverVpa)
  amount : (web.json.atKey x "amount" >>= web.json.getDouble) = .ok payment.amountDecimal
  signedAt : (web.json.atKey x "signedAt" >>= web.json.getInt64) = .ok ⟨env.now, env.now_fits⟩

/-- An answer to a listing shows payments that have been asked for. -/
def ShowsRequested {ι : Type} (tasks : ι → List (Task web.lib)) (task : Task web.lib)
    (answer : Answer web.json) : Prop :=
  ∀ fault, task = .listTransactions fault → ∀ rows, answer = web.replied (web.ok (.array rows)) →
    ∀ x ∈ rows, ∃ payment env ciphertext, Requested web tasks payment env ∧
      web.crypto.encrypt (payment.instruction web env) env.random = .ok ciphertext ∧
      Shows web payment env ciphertext x

variable {web}

/-- The members of a listed transaction. -/
theorem atKey_to_json (json : JsonLibrary) (b : Binary64) (t : Transaction) :
    json.atKey (Transaction.to_json json b t) "packetHash" = .ok (json.string t.packetHash) ∧
    json.atKey (Transaction.to_json json b t) "senderVpa" = .ok (json.string t.senderVpa) ∧
    json.atKey (Transaction.to_json json b t) "receiverVpa" = .ok (json.string t.receiverVpa) ∧
    json.atKey (Transaction.to_json json b t) "amount" =
      .ok (json.float (PaymentInstruction.rupees b t.amount)) ∧
    json.atKey (Transaction.to_json json b t) "signedAt" = .ok (json.integer t.signedAt) := by
  refine ⟨?_, ?_, ?_, ?_, ?_⟩ <;> exact json.atKey_object _ _ _ (by simp) (by simp)

/-- A row that records the request shows it. -/
theorem shows_of_records {payment : HttpServer.Payment} {ttl : Option ℤ} {startDevice : Option String}
    {env : DemoSendEnv} {ciphertext : String} {hops : ℕ} {row : Transaction}
    (htyped : TwoDecimals web.binary64 payment.amountDecimal)
    (h : Records web.crypto (payment.request web ttl startDevice) env ciphertext hops row) :
    Shows web payment env ciphertext (Transaction.to_json web.json web.binary64 row) := by
  obtain ⟨hhash, hsender, hreceiver, hamount, hsigned⟩ := atKey_to_json web.json web.binary64 row
  obtain ⟨paise, hrange, hrupees⟩ := htyped
  have hpaise : row.amount = paise := by
    calc row.amount = PaymentInstruction.paise web.binary64 payment.amountDecimal := h.amount
      _ = paise := by rw [hrupees, PaymentInstruction.paise_rupees hrange]
  refine ⟨?_, ?_, ?_, ?_, ?_⟩
  · rw [hhash, h.packetHash]
    exact web.json.getString_string _
  · rw [hsender, h.senderVpa]
    exact web.json.getString_string _
  · rw [hreceiver, h.receiverVpa]
    exact web.json.getString_string _
  · rw [hamount, hpaise, hrupees]
    exact web.json.getDouble_float _
  · rw [hsigned, h.signedAt]
    exact web.json.getInt64_integer _ env.now_fits

variable {ι : Type} {tasks : ι → List (Task web.lib)}

/-- Whatever the clients send has been read from one of their requests. -/
theorem requested_of_call (hlib : web.lib.Documented) {i : ι} {sent : DemoSendRequest} {env : DemoSendEnv}
    (h : .operation (.demoSend sent env) ∈ Task.calls web (tasks i)) :
    ∃ request members payment ttl startDevice, .demoSend request env ∈ tasks i ∧
      request.getJsonObject = some (.object members) ∧ web.Reads members payment ttl startDevice ∧
      sent = payment.request web ttl startDevice := by
  obtain ⟨task, htask, respond, hplan⟩ := Task.exists_of_mem_calls h
  cases task with
  | demoSend request env' =>
    obtain ⟨members, payment, ttl, startDevice, hbody, hreads, hcall, -⟩ := planDemoSend_call hlib hplan
    obtain ⟨rfl, rfl⟩ := Op.demoSend.inj (ServerCall.operation.inj hcall)
    exact ⟨request, members, payment, ttl, startDevice, htask, hbody, hreads, rfl⟩
  | bridgeIngest request env' =>
    obtain ⟨_, _, _, hcall, -⟩ := planBridgeIngest_call hplan
    cases hcall
  | _ => cases hplan

/-- Without accepted uploads, no client brings a packet of its own. -/
theorem internal_calls (hlib : web.lib.Documented)
    (hinternal : ∀ i request env, .bridgeIngest request env ∈ tasks i →
      ¬ (Task.bridgeIngest request env).Succeeds)
    {i : ι} {call : ServerCall} (h : call ∈ Task.calls web (tasks i)) : call.Internal := by
  obtain ⟨task, htask, respond, hplan⟩ := Task.exists_of_mem_calls h
  cases task with
  | demoSend request env =>
    obtain ⟨_, _, _, _, -, -, rfl, -⟩ := planDemoSend_call hlib hplan
    exact trivial
  | bridgeIngest request env =>
    exact absurd (planBridgeIngest_succeeds hlib hplan) (hinternal i request env htask)
  | getServerKey => cases hplan
  | _ =>
    obtain ⟨rfl, -⟩ := Plan.call.inj hplan
    exact trivial

/-- A body that is an array is the one that has been dumped. -/
theorem listed_eq_ok {rows rows' : List web.json.Json}
    (h : web.listed rows = web.replied (web.ok (.array rows'))) : rows = rows' := by
  unfold HttpServer.listed HttpServer.dump at h
  cases hdump : web.dumpThrows rows with
  | none =>
    rw [hdump] at h
    have hsame := List.singleton_inj.mp (congrArg Answer.callbacks h)
    exact HttpBody.array.inj (congrArg HttpReply.body hsame)
  | some e =>
    rw [hdump] at h
    cases congrArg Answer.callbacks h

/-- A listing of rows that go back to sends shows requests. -/
theorem shows_of_lists (hlib : web.lib.Documented)
    (htyped : ∀ payment env, Requested web tasks payment env →
      TwoDecimals web.binary64 payment.amountDecimal)
    {task : Task web.lib} {c : ServerCall} {respond : ServerReply web.json → Answer web.json}
    {reply : ServerReply web.json} (hplan : task.plan web = .call c respond)
    (h : Lists web.crypto web.json web.binary64 (fun i => Task.calls web (tasks i)) c reply) :
    ShowsRequested web tasks task (respond reply) := by
  rintro fault rfl rows hrows x hx
  obtain ⟨rfl, rfl⟩ := Plan.call.inj hplan
  obtain ⟨r, rfl, hlisted⟩ := h fault rfl
  cases r with
  | error e => cases congrArg Answer.callbacks hrows
  | ok rows' =>
    obtain rfl : rows' = rows := listed_eq_ok hrows
    obtain ⟨txs, rfl, hsent⟩ := hlisted _ rfl
    obtain ⟨row, hrow, rfl⟩ := List.mem_map.mp hx
    obtain ⟨sent, env, ciphertext, hops, ⟨⟨i, hi⟩, hc⟩, hrecords⟩ := hsent row hrow
    obtain ⟨request, members, payment, ttl, startDevice, htask, hbody, hreads, rfl⟩ :=
      requested_of_call hlib hi
    have hrequested : Requested web tasks payment env :=
      ⟨i, request, members, ttl, startDevice, htask, hbody, hreads⟩
    exact ⟨payment, env, ciphertext, hrequested, hc, shows_of_records (htyped _ _ hrequested) hrecords⟩

end Listing

section Schedules

open Locking

variable {ι : Type} [DecidableEq ι] (web : HttpServer) (order : ι → ℤ → IterOrder)
  (tasks : ι → List (Task web.lib))

/-- If what the clients send can be decrypted again, listings show requests. -/
theorem listings_show_sent (hlib : web.lib.Documented)
    (hinternal : ∀ i request env, .bridgeIngest request env ∈ tasks i →
      ¬ (Task.bridgeIngest request env).Succeeds)
    (htyped : ∀ payment env, Requested web tasks payment env →
      TwoDecimals web.binary64 payment.amountDecimal)
    (hround : ∀ request env ciphertext, Sent web.crypto (fun i => Task.calls web (tasks i)) request env
      ciphertext → web.crypto.decrypt ciphertext =
        .ok (ApiController.instruction web.crypto request env))
    {trace : List (ι × Locking ι Mutex Access)} {c : LockedThreads ι (List (Answer web.json))}
    (hrun : Pool.Run (exec guards) (Enabled guards) (Task.initially web order tasks Server.initial)
      trace c)
    {i : ι} {answers : List (Answer web.json)} (hi : c.threads i = .ret answers) :
    List.Forall₂ (ShowsRequested web tasks) (tasks i) answers := by
  rw [Task.initially_eq] at hrun
  obtain ⟨d, hd, rfl⟩ := (Pool.Run.mapResults_iff _).mp hrun
  obtain ⟨replies, hreplies, rfl⟩ := Pool.mapResults_ret hi
  obtain ⟨trace', d', hd', hrelated⟩ := exists_related web.crypto web.json web.binary64 order _ _ hd
  have hstart : Traced web.crypto (fun i => Task.calls web (tasks i)) Server.initial :=
    ⟨Server.holdsOnly_initial _, fun _ h => absurd h List.not_mem_nil, fun t ht => by cases ht⟩
  obtain ⟨_, -, -, -, hlisted⟩ := hd'.assured (fun _ _ => True) (fun _ _ _ _ _ _ _ => trivial) hstart
    trivial fun j => programs_list web.json web.binary64 hround (Task.calls web (tasks j))
      fun call hcall c hc => ⟨j, call, hcall, internal_calls hlib hinternal hcall, hc⟩
  obtain ⟨_, -, hlists⟩ := hlisted i replies (hrelated.returned (implements_perform order) hreplies).1
  refine Task.answers_forall₂ (fun task a hplan => ?_) (fun task c respond reply hplan hreply => ?_) hlists
  · rintro fault rfl
    cases hplan
  · exact shows_of_lists hlib htyped hplan hreply

/-- Whatever the clients send, gossip, flush and reset at the same time, each row that one of them is shown
has the parties and the amount, to the digit, of a body that one of them has posted. -/
theorem listings_show_requests (hlib : web.lib.Documented)
    (hinternal : ∀ i request env, .bridgeIngest request env ∈ tasks i →
      ¬ (Task.bridgeIngest request env).Succeeds)
    (htyped : ∀ payment env, Requested web tasks payment env →
      TwoDecimals web.binary64 payment.amountDecimal)
    (hopens : ∀ payment env c, Requested web tasks payment env →
      web.crypto.encrypt (payment.instruction web env) env.random = .ok c →
      web.crypto.decrypt c = .ok (payment.instruction web env))
    (trace : List (ι × Locking ι Mutex Access)) (c : LockedThreads ι (List (Answer web.json)))
    (hrun : Pool.Run (exec guards) (Enabled guards) (Task.initially web order tasks Server.initial)
      trace c)
    (i : ι) (answers : List (Answer web.json)) (hi : c.threads i = .ret answers) :
    List.Forall₂ (ShowsRequested web tasks) (tasks i) answers := by
  refine listings_show_sent web order tasks hlib hinternal htyped ?_ hrun hi
  rintro _ env ciphertext ⟨⟨j, hj⟩, hc⟩
  obtain ⟨request, members, payment, ttl, startDevice, htask, hbody, hreads, rfl⟩ :=
    requested_of_call hlib hj
  exact hopens payment env ciphertext ⟨j, request, members, ttl, startDevice, htask, hbody, hreads⟩ hc

/-- `HybridCryptoService` decrypts what it has encrypted, so that no more is asked of the encryption than
OpenSSL and the JSON library promise. -/
theorem listings_show_sealed_requests (hlib : web.lib.Documented) {ssl : OpenSSL} (hssl : ssl.Documented)
    {text : JsonText web.json.Json} (htext : text.ParseInvertsDump)
    (hcrypto : web.crypto =
      HybridCryptoService.service ssl (HybridCryptoService.codec web.json web.binary64 text))
    (hinternal : ∀ i request env, .bridgeIngest request env ∈ tasks i →
      ¬ (Task.bridgeIngest request env).Succeeds)
    (hrequested : ∀ payment env, Requested web tasks payment env →
      TwoDecimals web.binary64 payment.amountDecimal ∧ env.random.iv.length = 12)
    {trace : List (ι × Locking ι Mutex Access)} {c : LockedThreads ι (List (Answer web.json))}
    (hrun : Pool.Run (exec guards) (Enabled guards) (Task.initially web order tasks Server.initial)
      trace c)
    {i : ι} {answers : List (Answer web.json)} (hi : c.threads i = .ret answers) :
    List.Forall₂ (ShowsRequested web tasks) (tasks i) answers := by
  refine listings_show_sent web order tasks hlib hinternal (fun payment env h => (hrequested _ _ h).1) ?_
    hrun hi
  rintro _ env ciphertext ⟨⟨j, hj⟩, hc⟩
  obtain ⟨request, members, payment, ttl, startDevice, htask, hbody, hreads, rfl⟩ :=
    requested_of_call hlib hj
  obtain ⟨⟨paise, hrange, hrupees⟩, hiv⟩ :=
    hrequested payment env ⟨j, request, members, ttl, startDevice, htask, hbody, hreads⟩
  have hamount : |payment.amount web| ≤ 2 ^ 50 := by
    rw [HttpServer.Payment.amount, hrupees, PaymentInstruction.paise_rupees hrange]
    exact hrange
  rw [hcrypto] at hc ⊢
  exact HybridCryptoService.decrypt_encrypt hssl htext hamount hiv hc

/-- The only payment asked for is one of ten rupees. -/
theorem requested_ten_rupees {payment : HttpServer.Payment} {env : DemoSendEnv}
    (h : Requested tenRupeesWeb sendAndList payment env) : payment.amountDecimal = 10 := by
  obtain ⟨i, request, members, ttl, startDevice, htask, hbody, hreads⟩ := h
  obtain ⟨v, hv, hread⟩ := hreads.amount
  cases i with
  | true =>
    simp only [sendAndList, List.mem_cons, reduceCtorEq, List.not_mem_nil,
      or_false] at htask
    obtain ⟨rfl, rfl⟩ := htask
    obtain rfl := JsonValue.object.inj (Option.some.inj hbody)
    obtain rfl := Option.some.inj hv
    exact (Except.ok.inj hread).symm
  | false =>
    simp only [sendAndList, List.mem_cons, reduceCtorEq, List.not_mem_nil,
      or_false] at htask
    obtain ⟨rfl, rfl⟩ := htask
    cases Option.some.inj hbody

/-- The ten rupees are settled and shown as ten rupees. -/
theorem listings_show_requests_ten_rupees :
    ∃ (c : LockedThreads Bool (List (Answer JsonValue.library))) (answers : _), c.threads true = .ret answers ∧
      (c.shared.data .connection).current.transactions.rows ≠ [] ∧
      List.Forall₂ (ShowsRequested tenRupeesWeb sendAndList) (sendAndList true) answers := by
  obtain ⟨trace, hrun⟩ := exists_sendAndList
  obtain ⟨answers, hanswers⟩ := sendAndList_returned true
  have hinternal : ∀ i request env, .bridgeIngest request env ∈ sendAndList i →
      ¬ (Task.bridgeIngest request env).Succeeds := by
    rintro i request env htask ⟨hanswerable, -⟩
    cases i with
    | true => simp [sendAndList] at htask
    | false =>
      simp only [sendAndList, List.mem_cons, reduceCtorEq, List.not_mem_nil,
        or_false, false_or] at htask
      obtain ⟨rfl, rfl⟩ := htask
      exact hanswerable
  have htyped : ∀ payment env, Requested tenRupeesWeb sendAndList payment env →
      TwoDecimals tenRupeesWeb.binary64 payment.amountDecimal := by
    intro payment env h
    rw [requested_ten_rupees h]
    exact ⟨1000, by decide, by norm_num [PaymentInstruction.rupees, tenRupeesWeb, Binary64.exact]⟩
  have hlisted := listings_show_requests tenRupeesWeb (fun _ _ => .sorted) sendAndList
    JsonCpp.documented_plain hinternal htyped (fun _ _ _ _ h => CryptoService.decrypt_encrypt_ofList h)
    trace _ hrun true answers hanswers
  exact ⟨_, answers, hanswers, by decide +kernel, hlisted⟩

end Schedules

end UpiMesh
