import UpiMesh.History
import UpiMesh.MeshSpec
import UpiMesh.SettlementRows

/-!
# Payments that deduplication drops

A claim is never given back, whatever the `ingest` that took it answers. A later call with the same
ciphertext is dropped, which is harmless when the first one was decided or when the packet can never
settle. It loses a payment when the first call was too early for the packet's date, or was stopped
by a failing statement.
-/

namespace UpiMesh

open Sequential Int64Arith BridgeIngestionService IdempotencyService SettlementService

/-- The ciphertext does not open, is not fresh at this clock value, or is not payable. -/
def CannotSettle (crypto : CryptoService) (accounts : AccountTable) (ciphertext : String)
    (now : ℤ) : Prop :=
  ∀ i, crypto.decrypt ciphertext = .ok i →
    ¬ Fresh now i.signedAt ∨ ¬ ∃ sender receiver, Payable accounts i sender receiver

/-- The statements of the call let it settle or reject its payment. -/
def Decides (call : SettleCall) (env : SettleEnv) (db : Database) : Prop :=
  ∀ sender receiver,
    (Covered db.current.accounts call.instruction sender receiver →
      db.savepoint = none ∧ env.CompletesFrom 1 maxAttempts) ∧
    (Short db.current.accounts call.instruction sender receiver →
      (env.faults 1).ReadsSucceed ∧ (env.faults 1).insert = none)

/-- An `ingest` that takes the claim of a payable packet without a row is not too early for it, and
decides it if it is fresh; a reset deletes the rows. -/
def DecidesClaims (crypto : CryptoService) : Op → Server → Prop
  | .ingest packet bridgeNodeId hopCount env, s =>
      crypto.hashCiphertext packet.ciphertext ∉ s.seen → ∀ i sender receiver,
        crypto.decrypt packet.ciphertext = .ok i →
        Payable s.db.current.accounts i sender receiver →
        crypto.hashCiphertext packet.ciphertext ∉
          s.db.current.transactions.rows.map Transaction.packetHash →
        -300 ≤ ageSeconds env.freshNow i.signedAt ∧
          (Fresh env.freshNow i.signedAt →
            Decides ⟨i, crypto.hashCiphertext packet.ciphertext, bridgeNodeId, hopCount⟩
              env.toSettleEnv s.db)
  | .meshReset _ faults, _ => faults.deleteTransactions = none
  | _, _ => True

/-- A dropped ciphertext has been answered since the last clear, or cannot settle now either. -/
def DropJustified (crypto : CryptoService) : Op → History → Prop
  | .ingest packet bridgeNodeId hopCount env, h =>
      ((ingest crypto packet bridgeNodeId hopCount env).run h.server).1.outcome =
          "DUPLICATE_DROPPED" →
        packet.ciphertext ∈ h.answered ∨
          CannotSettle crypto h.server.db.current.accounts packet.ciphertext env.claimNow
  | _, _ => True

/-- The steps of these runs. -/
def Op.IngestsEvictsOrResets : Op → Prop
  | .meshReset .. => True
  | op => op.IngestsOrEvicts

/-- Every row and every claim has been answered, except for claims that can never settle. -/
structure Accounted (crypto : CryptoService) (h : History) : Prop where
  clock : 0 ≤ h.clock
  rows : ∀ c, crypto.hashCiphertext c ∈
    h.server.db.current.transactions.rows.map Transaction.packetHash → c ∈ h.answered
  seen : ∀ c, crypto.hashCiphertext c ∈ h.server.seen → c ∈ h.answered ∨
    ∀ now, h.clock ≤ now → now < 2 ^ 62 → CannotSettle crypto h.server.db.current.accounts c now

theorem exists_payable_of_keys {accounts accounts' : AccountTable} {i : PaymentInstruction}
    (hkeys : accounts'.keys = accounts.keys)
    (h : ∃ sender receiver, Payable accounts' i sender receiver) :
    ∃ sender receiver, Payable accounts i sender receiver := by
  obtain ⟨_, _, hp⟩ := h
  obtain ⟨sender, hs⟩ := Table.exists_find?_of_mem_keys
    (hkeys ▸ Table.mem_keys_of_find? hp.findSender)
  obtain ⟨receiver, hr⟩ := Table.exists_find?_of_mem_keys
    (hkeys ▸ Table.mem_keys_of_find? hp.findReceiver)
  exact ⟨sender, receiver, hs, hr, hp.positive⟩

theorem CannotSettle.of_keys {crypto : CryptoService} {accounts accounts' : AccountTable} {c : String}
    {now : ℤ} (hkeys : accounts'.keys = accounts.keys) (h : CannotSettle crypto accounts c now) :
    CannotSettle crypto accounts' c now := fun i hd =>
  (h i hd).imp_right fun hnot hp => hnot (exists_payable_of_keys hkeys hp)

/-- What is stale stays stale. -/
theorem not_fresh_of_stale {now later signedAt : ℤ} (hnow : 0 ≤ now) (hle : now ≤ later)
    (hlt : later < 2 ^ 62) (hs : Fits signedAt) (hage : maxAgeSeconds < ageSeconds now signedAt) :
    ¬ Fresh later signedAt := by
  obtain ⟨hold, -⟩ := ageSeconds_limits hnow (by omega) hs
  have hlate : ¬ (now - signedAt ≤ 86400999 ∨ 2 ^ 63 ≤ now - signedAt) :=
    fun h => hage.not_ge (hold.mpr h)
  rw [fresh_iff (by omega) hlt hs]
  omega

section Ingest

variable {crypto : CryptoService} {h : History} {packet : MeshPacket} {bridgeNodeId : String}
  {hopCount : ℤ} {env : IngestEnv}

theorem decided_of_ok {packetHash : String} {r : Except Exn Transaction} {db : Database}
    {call : SettleCall} {senv : SettleEnv} {db₀ : Database}
    (hends : AttemptsEnd call senv db₀ 1 maxAttempts r db) (hok : ∃ tx, r = .ok tx) :
    (settled packetHash r).Decided := by
  obtain ⟨tx, rfl⟩ := hok
  rcases hends.status with hstatus | hstatus
  · exact Or.inl (by rw [settled, hstatus]; rfl)
  · exact Or.inr (by rw [settled, hstatus]; rfl)

/-- Only a call that finds the hash in the cache answers DUPLICATE_DROPPED. -/
theorem outcome_of_notMem {s : Server}
    (hnew : crypto.hashCiphertext packet.ciphertext ∉ s.seen) :
    ((ingest crypto packet bridgeNodeId hopCount env).run s).1.outcome ≠ "DUPLICATE_DROPPED" := by
  by_cases hp : ∃ i, Passes crypto packet env s i
  · obtain ⟨i, hp⟩ := hp
    obtain ⟨r, db, hrun, hends⟩ := run_ingest_settle bridgeNodeId hopCount hp
    rw [hrun]
    cases r with
    | ok tx =>
      have hdecided : (settled (crypto.hashCiphertext packet.ciphertext) (.ok tx)).Decided :=
        decided_of_ok hends ⟨tx, rfl⟩
      rcases hdecided with hout | hout
      · rw [hout]
        decide
      · rw [hout]
        decide
    | error e =>
      change "INVALID" ≠ "DUPLICATE_DROPPED"
      decide
  · have hends := run_ingest crypto packet bridgeNodeId hopCount env s
    generalize (ingest crypto packet bridgeNodeId hopCount env).run s = out at hends ⊢
    obtain ⟨r, s'⟩ := out
    cases hends with
    | duplicate hmem => exact absurd hmem hnew
    | settled hseen hd hfresh _ => exact absurd ⟨_, hseen, hd, hfresh⟩ hp
    | _ =>
      change "INVALID" ≠ "DUPLICATE_DROPPED"
      decide

theorem mem_answered_record {c : String} (hc : c ∈ h.answered) :
    c ∈ ((Op.ingest packet bridgeNodeId hopCount env).record crypto h).answered := by
  simp only [Op.record]
  split_ifs
  · exact List.mem_cons_of_mem _ hc
  · exact hc

theorem mem_answered_of_decided
    (hout : ((ingest crypto packet bridgeNodeId hopCount env).run h.server).1.Decided) :
    packet.ciphertext ∈ ((Op.ingest packet bridgeNodeId hopCount env).record crypto h).answered := by
  simp only [Op.record, if_pos hout]
  exact List.mem_cons_self

/-- The claim of a payable packet is answered. -/
theorem answered_of_payable (hacc : Accounted crypto h)
    (hok : DecidesClaims crypto (.ingest packet bridgeNodeId hopCount env) h.server)
    {i : PaymentInstruction} (hp : Passes crypto packet env h.server i)
    (hpay : ∃ sender receiver, Payable h.server.db.current.accounts i sender receiver) :
    packet.ciphertext ∈ ((Op.ingest packet bridgeNodeId hopCount env).record crypto h).answered := by
  obtain ⟨sender, receiver, hpay⟩ := hpay
  by_cases hrow : crypto.hashCiphertext packet.ciphertext ∈
      h.server.db.current.transactions.rows.map Transaction.packetHash
  · exact mem_answered_record (hacc.rows _ hrow)
  obtain ⟨r, db, hrun, hends⟩ := run_ingest_settle bridgeNodeId hopCount hp
  obtain ⟨hcovered, hshort⟩ :=
    (hok hp.unclaimed i sender receiver hp.opens hpay hrow).2 hp.fresh sender receiver
  have hnew : cstr (crypto.hashCiphertext packet.ciphertext) ∉
      h.server.db.current.transactions.rows.map Transaction.packetHash := by
    rwa [CryptoService.cstr_hashCiphertext]
  have hdecided : ∃ tx, r = .ok tx := by
    by_cases hcov : i.amount ≤ sender.balance
    · have hc : Covered h.server.db.current.accounts i sender receiver := ⟨hpay, hcov⟩
      exact hends.ok_of_completes (hcovered hc).1 hc hnew rfl (hcovered hc).2
    · have hs : Short h.server.db.current.accounts i sender receiver := ⟨hpay, not_le.mp hcov⟩
      exact hends.ok_of_short hs hnew (hshort hs).1 (hshort hs).2
  apply mem_answered_of_decided
  rw [hrun]
  exact decided_of_ok hends hdecided

/-- The claim of the packet is answered or can never settle. -/
theorem claim_accounted (hacc : Accounted crypto h)
    (horder : (Op.ingest packet bridgeNodeId hopCount env).InOrder h.clock)
    (hok : DecidesClaims crypto (.ingest packet bridgeNodeId hopCount env) h.server)
    (hnew : crypto.hashCiphertext packet.ciphertext ∉ h.server.seen) :
    packet.ciphertext ∈ ((Op.ingest packet bridgeNodeId hopCount env).record crypto h).answered ∨
      ∀ now, env.freshNow ≤ now → now < 2 ^ 62 →
        CannotSettle crypto h.server.db.current.accounts packet.ciphertext now := by
  by_contra hnot
  obtain ⟨hunanswered, hcan⟩ := not_or.mp hnot
  apply hcan
  intro now hle hlt i hd
  by_contra hsettle
  obtain ⟨hfreshLater, hpay⟩ := not_or.mp hsettle
  rw [not_not] at hfreshLater hpay
  have hclock := hacc.clock
  obtain ⟨hlo, hmid, hhi⟩ := horder
  by_cases hfresh : Fresh env.freshNow i.signedAt
  · exact hunanswered (answered_of_payable hacc hok ⟨hnew, hd, hfresh⟩ hpay)
  · obtain ⟨sender, receiver, hpay⟩ := hpay
    have hrow : crypto.hashCiphertext packet.ciphertext ∉
        h.server.db.current.transactions.rows.map Transaction.packetHash := fun hrow =>
      hunanswered (mem_answered_record (hacc.rows _ hrow))
    have hage := (hok hnew i sender receiver hd hpay hrow).1
    have hstale : maxAgeSeconds < ageSeconds env.freshNow i.signedAt :=
      not_le.mp fun hle => hfresh ⟨hle, hage⟩
    exact not_fresh_of_stale (by omega) hle hlt i.signedAt_fits hstale hfreshLater

/-- A new row is that of the packet, which is then answered. -/
theorem rows_accounted (hinj : Function.Injective crypto.sha256) (hacc : Accounted crypto h)
    (hok : DecidesClaims crypto (.ingest packet bridgeNodeId hopCount env) h.server) {c : String}
    (hrow : crypto.hashCiphertext c ∈
      ((ingest crypto packet bridgeNodeId hopCount env).run
        h.server).2.db.current.transactions.rows.map Transaction.packetHash) :
    c ∈ ((Op.ingest packet bridgeNodeId hopCount env).record crypto h).answered := by
  by_cases hp : ∃ i, Passes crypto packet env h.server i
  · obtain ⟨i, hp⟩ := hp
    obtain ⟨r, db, hrun, hends⟩ := run_ingest_settle bridgeNodeId hopCount hp
    rw [hrun] at hrow
    by_cases hpay : ∃ sender receiver, Payable h.server.db.current.accounts i sender receiver
    · rcases hends.mem_rows rfl hrow with hold | hthis
      · exact mem_answered_record (hacc.rows c hold)
      · rw [CryptoService.cstr_hashCiphertext, CryptoService.hashCiphertext_inj hinj] at hthis
        exact hthis ▸ answered_of_payable hacc hok hp hpay
    · obtain rfl := hends.db_of_not_payable fun sender receiver hs => hpay ⟨sender, receiver, hs⟩
      exact mem_answered_record (hacc.rows c hrow)
  · rw [run_ingest_of_not_passes (not_exists.mp hp)] at hrow
    exact mem_answered_record (hacc.rows c hrow)

theorem accounted_ingest (hinj : Function.Injective crypto.sha256) (hacc : Accounted crypto h)
    (horder : (Op.ingest packet bridgeNodeId hopCount env).InOrder h.clock)
    (hok : DecidesClaims crypto (.ingest packet bridgeNodeId hopCount env) h.server) :
    DropJustified crypto (.ingest packet bridgeNodeId hopCount env) h ∧
      Accounted crypto ((Op.ingest packet bridgeNodeId hopCount env).record crypto h) := by
  have hclock := hacc.clock
  obtain ⟨hlo, hmid, hhi⟩ := horder
  refine ⟨fun hdropped => ?_, ?_, fun c hrow => rows_accounted hinj hacc hok hrow, fun c hseen => ?_⟩
  · have hmem : crypto.hashCiphertext packet.ciphertext ∈ h.server.seen := by
      by_contra hnew
      exact outcome_of_notMem hnew hdropped
    exact (hacc.seen _ hmem).imp_right fun hcan => hcan _ hlo (by omega)
  · change 0 ≤ env.freshNow
    omega
  · have hkeys := keys_run_ingest crypto packet bridgeNodeId hopCount env h.server
    have hold : crypto.hashCiphertext c ∈ h.server.seen →
        c ∈ ((Op.ingest packet bridgeNodeId hopCount env).record crypto h).answered ∨
        ∀ now, env.freshNow ≤ now → now < 2 ^ 62 →
          CannotSettle crypto h.server.db.current.accounts c now := fun hmem =>
      (hacc.seen c hmem).imp mem_answered_record fun hcan now hle => hcan now (by omega)
    have hclaim : c ∈ ((Op.ingest packet bridgeNodeId hopCount env).record crypto h).answered ∨
        ∀ now, env.freshNow ≤ now → now < 2 ^ 62 →
          CannotSettle crypto h.server.db.current.accounts c now := by
      simp only [Op.record, seen_run_ingest, mem_claim] at hseen
      by_cases hmem : crypto.hashCiphertext c ∈ h.server.seen
      · exact hold hmem
      · have heq := hseen.resolve_right hmem
        have hc := (CryptoService.hashCiphertext_inj hinj).mp heq
        subst hc
        exact claim_accounted hacc ⟨hlo, hmid, hhi⟩ hok hmem
    exact hclaim.imp_right fun hcan now hle hlt => (hcan now hle hlt).of_keys hkeys

end Ingest

/-- In a run whose claims are all decided, or were hopeless, nothing payable is dropped. -/
theorem drops_justified (crypto : CryptoService) (hinj : Function.Injective crypto.sha256)
    (ops : List Op) (h : History) (hclock : 0 ≤ h.clock) (hseen : h.server.seen = ∅)
    (hrows : h.server.db.current.transactions.rows = [])
    (hops : Each (Op.record crypto) (fun op h => op.IngestsEvictsOrResets ∧ op.InOrder h.clock ∧
      DecidesClaims crypto op h.server) ops h) :
    Each (Op.record crypto) (DropJustified crypto) ops h := by
  have hstart : Accounted crypto h := by
    refine ⟨hclock, fun c hc => ?_, fun c hc => ?_⟩
    · rw [hrows] at hc
      cases hc
    · rw [hseen] at hc
      exact absurd hc Std.ExtTreeMap.not_mem_empty
  refine hops.guarantee (fun op h hacc hok => ?_) hstart
  obtain ⟨hkind, horder, hdecides⟩ := hok
  cases op with
  | ingest packet bridgeNodeId hopCount env => exact accounted_ingest hinj hacc horder hdecides
  | evictExpired now =>
    refine ⟨trivial, le_trans hacc.clock horder.1, hacc.rows, fun c hmem => ?_⟩
    exact (hacc.seen c (mem_of_mem_evictExpired hmem)).imp_right fun hcan later hle =>
      hcan later (le_trans horder.1 hle)
  | meshReset order faults =>
    obtain ⟨hseen, hdb⟩ := Op.exec_meshReset crypto order faults h.server
    refine ⟨trivial, hacc.clock, fun c hc => ?_, fun c hc => ?_⟩
    · simp only [Op.record, hdb, Database.rows_reset hdecides] at hc
      cases hc
    · simp only [Op.record, hseen] at hc
      exact absurd hc Std.ExtTreeMap.not_mem_empty
  | _ => exact hkind.elim

/-- A packet that arrives 400 seconds before it was signed. -/
def signedLater : PaymentInstruction :=
  { alicePaysBob with signedAt := 400000, signedAt_fits := by decide }

/-- Rejected as future-dated at 0, the packet is dropped at 200000, when it could settle. -/
theorem dropped_while_payable :
    ¬ Each (Op.record (.ofList [("c1", signedLater)])) (DropJustified (.ofList [("c1", signedLater)]))
      [.ingestAt "p1" "c1" 0, .ingestAt "p1" "c1" 200000] ⟨Server.initial, 0, []⟩ := by
  intro hrun
  rcases hrun.2.1 (by decide) with hanswered | hcan
  · exact absurd hanswered (by decide)
  · rcases hcan signedLater rfl with hstale | hnot
    · exact hstale ((fresh_iff (by decide) (by decide) signedLater.signedAt_fits).mpr (by decide))
    · have halice : Database.seedAccounts.find? "alice@demo" = some
          { vpa := "alice@demo", holderName := "Alice", balance := 500000, version := 0 } := by decide
      have hbob : Database.seedAccounts.find? "bob@demo" = some
          { vpa := "bob@demo", holderName := "Bob", balance := 100000, version := 0 } := by decide
      exact hnot ⟨_, _, halice, hbob, by decide⟩

theorem decides_of_no_faults {call : SettleCall} {env : SettleEnv} {db : Database}
    (hsp : db.savepoint = none) (hf : ∀ n, env.faults n = {}) : Decides call env db := by
  intro sender receiver
  refine ⟨fun _ => ⟨hsp, ?_⟩, fun _ => ?_⟩
  · refine ⟨?_, Or.inl ?_⟩
    · rw [hf]
      exact ⟨rfl, rfl⟩
    · rw [hf]
      exact ⟨rfl, rfl, rfl⟩
  · rw [hf]
    exact ⟨⟨rfl, rfl⟩, rfl⟩

theorem drops_justified_replay :
    Each (Op.record (.ofList [("c1", alicePaysBob)]))
      (DropJustified (.ofList [("c1", alicePaysBob)]))
      [.ingestAt "p1" "c1" 0, .evictExpired 1, .ingestAt "p1" "c1" 2, .meshReset .listed {}]
      ⟨Server.initial, 0, []⟩ := by
  have hdecides : ∀ (now : ℤ) (s : Server), -300 ≤ ageSeconds now 0 → s.db.savepoint = none →
      DecidesClaims (.ofList [("c1", alicePaysBob)]) (.ingestAt "p1" "c1" now) s := by
    intro now s hage hsp _ i _ _ hd _ _
    obtain rfl := Except.ok.inj hd
    exact ⟨hage, fun _ => decides_of_no_faults hsp fun _ => rfl⟩
  refine drops_justified _ (CryptoService.sha256_ofList_injective _) _ _ (le_refl 0) rfl rfl ?_
  refine ⟨⟨trivial, ⟨le_refl 0, le_refl 0, by norm_num⟩, hdecides 0 _ (by decide) rfl⟩,
    ⟨trivial, ⟨by decide, by norm_num⟩, trivial⟩,
    ⟨trivial, ⟨by decide, by decide, by norm_num⟩, hdecides 2 _ (by decide) rfl⟩,
    ⟨trivial, trivial, rfl⟩, trivial⟩

end UpiMesh
