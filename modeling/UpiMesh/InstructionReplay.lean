import UpiMesh.Api
import UpiMesh.IngestionSpec
import UpiMesh.SettlementRows

/-!
# Settling one instruction twice

The idempotency key is the hash of the ciphertext, while the effect of a packet is that of the
instruction inside. A second encryption of an instruction has another hash, and nothing looks at the
nonce, so the instruction is settled again whenever the account still covers it.
-/

namespace UpiMesh

open Sequential BridgeIngestionService SettlementService

/-- The same payment, whatever the PIN. -/
def SamePayment (i j : PaymentInstruction) : Prop :=
  i.senderVpa = j.senderVpa ∧ i.receiverVpa = j.receiverVpa ∧ i.amount = j.amount ∧
    i.nonce = j.nonce ∧ i.signedAt = j.signedAt

theorem SamePayment.symm {i j : PaymentInstruction} (h : SamePayment i j) : SamePayment j i :=
  ⟨h.1.symm, h.2.1.symm, h.2.2.1.symm, h.2.2.2.1.symm, h.2.2.2.2.symm⟩

def HasSettledRow (db : Database) (packetHash : String) : Prop :=
  ∃ tx ∈ db.current.transactions.rows, tx.packetHash = packetHash ∧ tx.status = .SETTLED

instance (db : Database) (packetHash : String) : Decidable (HasSettledRow db packetHash) :=
  inferInstanceAs (Decidable (∃ tx ∈ db.current.transactions.rows, _ ∧ _))

/-- Among the ciphertexts of one payment, at most one has a SETTLED row. -/
def SettledOnce (crypto : CryptoService) (s : Server) : Prop :=
  ∀ c d i j, crypto.decrypt c = .ok i → crypto.decrypt d = .ok j → SamePayment i j →
    HasSettledRow s.db (crypto.hashCiphertext c) → HasSettledRow s.db (crypto.hashCiphertext d) →
    c = d

/-- A guard on the step and the state before it: an upload that wins the claim, opens freshly and gets
to a SETTLED row, of a payment for which another ciphertext has such a row already. -/
def SettlesAgain (crypto : CryptoService) : Op → Server → Prop
  | .ingest packet bridgeNodeId hopCount env, s => ∃ i d j,
      Passes crypto packet env s i ∧
      StoresSettled ⟨i, crypto.hashCiphertext packet.ciphertext, bridgeNodeId, hopCount⟩
        env.toSettleEnv s.db ∧
      d ≠ packet.ciphertext ∧ crypto.decrypt d = .ok j ∧ SamePayment i j ∧
      HasSettledRow s.db (crypto.hashCiphertext d)
  | _, _ => False

section Rows

variable {call : SettleCall} {db db' : Database} {packetHash : String}

theorem hasSettledRow_append_settled (h : Appends call .SETTLED db db') :
    HasSettledRow db' packetHash ↔ packetHash = cstr call.packetHash ∨ HasSettledRow db packetHash := by
  obtain ⟨settledAt, hrows⟩ := h
  simp only [HasSettledRow, hrows, List.mem_append, List.mem_singleton]
  constructor
  · rintro ⟨tx, hmem | rfl, hhash, hstatus⟩
    · exact Or.inr ⟨tx, hmem, hhash, hstatus⟩
    · exact Or.inl hhash.symm
  · rintro (rfl | ⟨tx, hmem, hhash, hstatus⟩)
    · exact ⟨_, Or.inr rfl, rfl, rfl⟩
    · exact ⟨tx, Or.inl hmem, hhash, hstatus⟩

theorem hasSettledRow_append_rejected (h : Appends call .REJECTED db db') :
    HasSettledRow db' packetHash ↔ HasSettledRow db packetHash := by
  obtain ⟨settledAt, hrows⟩ := h
  simp only [HasSettledRow, hrows, List.mem_append, List.mem_singleton]
  constructor
  · rintro ⟨tx, hmem | rfl, hhash, hstatus⟩
    · exact ⟨tx, hmem, hhash, hstatus⟩
    · cases hstatus
  · rintro ⟨tx, hmem, hhash, hstatus⟩
    exact ⟨tx, Or.inl hmem, hhash, hstatus⟩

end Rows

section Step

variable {crypto : CryptoService} {packet : MeshPacket} {bridgeNodeId : String} {hopCount : ℤ}
  {env : IngestEnv} {s : Server} {packetHash : String}

/-- A call that stores a SETTLED row stores it for the hash of its ciphertext. -/
theorem hasSettledRow_ingest_of_stores {i : PaymentInstruction}
    (hp : Passes crypto packet env s i)
    (hstores : StoresSettled ⟨i, crypto.hashCiphertext packet.ciphertext, bridgeNodeId, hopCount⟩
      env.toSettleEnv s.db) :
    HasSettledRow ((ingest crypto packet bridgeNodeId hopCount env).run s).2.db packetHash ↔
      packetHash = crypto.hashCiphertext packet.ciphertext ∨ HasSettledRow s.db packetHash := by
  obtain ⟨r, db, hrun, hends⟩ := run_ingest_settle bridgeNodeId hopCount hp
  obtain ⟨sender, receiver, hc⟩ := hstores.covered
  rw [hrun, hasSettledRow_append_settled (hends.appends_settled hstores.closed hc hstores.new rfl
    hstores.stores), CryptoService.cstr_hashCiphertext]

/-- Every other call leaves the SETTLED rows as they are. -/
theorem hasSettledRow_ingest_of_not_stores
    (hnot : ∀ i, Passes crypto packet env s i →
      ¬ StoresSettled ⟨i, crypto.hashCiphertext packet.ciphertext, bridgeNodeId, hopCount⟩
        env.toSettleEnv s.db) :
    HasSettledRow ((ingest crypto packet bridgeNodeId hopCount env).run s).2.db packetHash ↔
      HasSettledRow s.db packetHash := by
  by_cases hp : ∃ i, Passes crypto packet env s i
  · obtain ⟨i, hp⟩ := hp
    obtain ⟨r, db, hrun, hends⟩ := run_ingest_settle bridgeNodeId hopCount hp
    rw [hrun]
    have hrows := hends.appends_rejected fun ⟨hsp, hc, hnew, hstores⟩ =>
      hnot i hp ⟨hsp, hc, hnew, hstores⟩
    rcases hrows with hrows | hrows
    · simp only [HasSettledRow, hrows]
    · exact hasSettledRow_append_rejected hrows
  · rw [run_ingest_of_not_passes (not_exists.mp hp)]

/-- A SETTLED row that was not there before is for the ciphertext of the call. -/
theorem hasSettledRow_of_ingest
    (h : HasSettledRow ((ingest crypto packet bridgeNodeId hopCount env).run s).2.db packetHash) :
    packetHash = crypto.hashCiphertext packet.ciphertext ∨ HasSettledRow s.db packetHash := by
  by_cases hstores : ∃ i, Passes crypto packet env s i ∧
      StoresSettled ⟨i, crypto.hashCiphertext packet.ciphertext, bridgeNodeId, hopCount⟩
        env.toSettleEnv s.db
  · obtain ⟨i, hp, hstores⟩ := hstores
    exact (hasSettledRow_ingest_of_stores hp hstores).mp h
  · have hnot : ∀ i, Passes crypto packet env s i →
        ¬ StoresSettled ⟨i, crypto.hashCiphertext packet.ciphertext, bridgeNodeId, hopCount⟩
          env.toSettleEnv s.db := fun i hp hst => hstores ⟨i, hp, hst⟩
    exact Or.inr ((hasSettledRow_ingest_of_not_stores hnot).mp h)

theorem settledOnce_ingest (hinj : Function.Injective crypto.sha256) (h : SettledOnce crypto s)
    (hok : ¬ SettlesAgain crypto (.ingest packet bridgeNodeId hopCount env) s) :
    SettledOnce crypto ((Op.ingest packet bridgeNodeId hopCount env).exec crypto s) := by
  rw [Op.exec_ingest]
  by_cases hstores : ∃ i, Passes crypto packet env s i ∧
      StoresSettled ⟨i, crypto.hashCiphertext packet.ciphertext, bridgeNodeId, hopCount⟩
        env.toSettleEnv s.db
  · obtain ⟨i, hp, hstores⟩ := hstores
    -- the new row is for this ciphertext, and no other ciphertext of the payment has one
    have hother : ∀ d j, crypto.decrypt d = .ok j → SamePayment i j →
        HasSettledRow s.db (crypto.hashCiphertext d) → d = packet.ciphertext := by
      intro d j hd hsame hrow
      by_contra hne
      exact hok ⟨i, d, j, hp, hstores, hne, hd, hsame, hrow⟩
    intro c d ic id hc hd hsame hrowc hrowd
    rw [hasSettledRow_ingest_of_stores hp hstores, CryptoService.hashCiphertext_inj hinj]
      at hrowc hrowd
    rcases hrowc with rfl | hrowc
    · obtain rfl := Except.ok.inj (hp.opens.symm.trans hc)
      rcases hrowd with rfl | hrowd
      · rfl
      · exact (hother d id hd hsame hrowd).symm
    · rcases hrowd with rfl | hrowd
      · obtain rfl := Except.ok.inj (hp.opens.symm.trans hd)
        exact hother c ic hc hsame.symm hrowc
      · exact h c d ic id hc hd hsame hrowc hrowd
  · intro c d ic id hc hd hsame hrowc hrowd
    have hnot : ∀ i, Passes crypto packet env s i →
        ¬ StoresSettled ⟨i, crypto.hashCiphertext packet.ciphertext, bridgeNodeId, hopCount⟩
          env.toSettleEnv s.db := fun i hp hst => hstores ⟨i, hp, hst⟩
    rw [hasSettledRow_ingest_of_not_stores hnot] at hrowc hrowd
    exact h c d ic id hc hd hsame hrowc hrowd

theorem not_settledOnce_ingest
    (hagain : SettlesAgain crypto (.ingest packet bridgeNodeId hopCount env) s) :
    ¬ SettledOnce crypto ((Op.ingest packet bridgeNodeId hopCount env).exec crypto s) := by
  obtain ⟨i, d, j, hp, hstores, hne, hd, hsame, hrow⟩ := hagain
  intro honce
  rw [Op.exec_ingest] at honce
  refine hne (honce d packet.ciphertext j i hd hp.opens hsame.symm ?_ ?_)
  · exact (hasSettledRow_ingest_of_stores hp hstores).mpr (Or.inr hrow)
  · exact (hasSettledRow_ingest_of_stores hp hstores).mpr (Or.inl rfl)

end Step

/-- After a reset, no payment is settled under two ciphertexts exactly as long as no step settles a
payment again. -/
theorem settled_once_iff (crypto : CryptoService) (hinj : Function.Injective crypto.sha256)
    (ops : List Op) (hops : ∀ op ∈ ops, op.IngestsOrEvicts) (s : Server)
    (hreset : s.db.current.transactions.rows = []) :
    Always (Op.exec crypto) (SettledOnce crypto) ops s ↔
      Each (Op.exec crypto) (fun op s => ¬ SettlesAgain crypto op s) ops s := by
  have hstart : SettledOnce crypto s := by
    rintro c d i j _ _ _ ⟨tx, htx, _⟩ _
    rw [hreset] at htx
    cases htx
  refine always_iff_each (fun _ h => h) (fun op s hop h hok => ?_) (fun op s hop h hnot => ?_)
    hops hstart
  · cases op with
    | ingest packet bridgeNodeId hopCount env => exact settledOnce_ingest hinj h hok
    | evictExpired now => exact h
    | _ => exact hop.elim
  · cases op with
    | ingest packet bridgeNodeId hopCount env => exact not_settledOnce_ingest (not_not.mp hnot)
    | evictExpired now => exact absurd id hnot
    | _ => exact hop.elim

/-- No two ciphertexts that are uploaded carry one payment. -/
def UploadsDistinct (crypto : CryptoService) (ops : List Op) : Prop :=
  ∀ op ∈ ops, ∀ op' ∈ ops, ∀ c ∈ op.ciphertext?, ∀ d ∈ op'.ciphertext?, ∀ i j,
    crypto.decrypt c = .ok i → crypto.decrypt d = .ok j → SamePayment i j → c = d

/-- Only uploaded ciphertexts get a SETTLED row, so that distinct ones settle no payment twice. -/
theorem settled_once_of_distinct (crypto : CryptoService) (hinj : Function.Injective crypto.sha256)
    (ops : List Op) (hops : ∀ op ∈ ops, op.IngestsOrEvicts) (s : Server)
    (hreset : s.db.current.transactions.rows = []) (hdistinct : UploadsDistinct crypto ops) :
    Always (Op.exec crypto) (SettledOnce crypto) ops s := by
  let Uploaded : String → Prop := fun d => ∃ op ∈ ops, d ∈ op.ciphertext?
  let Inv : Server → Prop := fun s =>
    SettledOnce crypto s ∧ ∀ d, HasSettledRow s.db (crypto.hashCiphertext d) → Uploaded d
  have hnone : ∀ packetHash, ¬ HasSettledRow s.db packetHash := by
    rintro packetHash ⟨tx, htx, -⟩
    rw [hreset] at htx
    cases htx
  have hstart : Inv s :=
    ⟨fun c d i j _ _ _ hrow => absurd hrow (hnone _), fun d hrow => absurd hrow (hnone _)⟩
  have hstep : ∀ op s, Inv s → op ∈ ops → Inv (op.exec crypto s) := by
    rintro op s ⟨honce, hrows⟩ hop
    have hkind := hops op hop
    cases op with
    | ingest packet bridgeNodeId hopCount env =>
      have huploaded : Uploaded packet.ciphertext := ⟨_, hop, rfl⟩
      refine ⟨settledOnce_ingest hinj honce ?_, fun d hrow => ?_⟩
      · rintro ⟨i, d, j, hp, -, hne, hd, hsame, hrow⟩
        obtain ⟨op', hop', hd'⟩ := hrows d hrow
        exact hne (hdistinct _ hop _ hop' _ rfl d hd' i j hp.opens hd hsame).symm
      · rw [Op.exec_ingest] at hrow
        rcases hasSettledRow_of_ingest hrow with hhash | hrow
        · rwa [(CryptoService.hashCiphertext_inj hinj).mp hhash]
        · exact hrows d hrow
    | evictExpired now => exact ⟨honce, hrows⟩
    | _ => exact hkind.elim
  exact (each_input_iff.mpr fun _ hop => hop).always (fun _ h => h.1) hstep hstart

/-- A service that knows two keys and one instruction. -/
def twoKeys : CryptoService where
  sha256 c := c.toUTF8.data.toList
  encrypt instruction random :=
    if instruction = alicePaysBob then .ok (if random.aesKey = [] then "c1" else "c2")
    else .error (.runtimeError "Failed during AES-GCM encrypt update")
  decrypt ciphertext :=
    if ciphertext = "c1" ∨ ciphertext = "c2" then .ok alicePaysBob
    else .error (.invalidArgument "Ciphertext too short")

theorem twoKeys_decrypt_encrypt (i : PaymentInstruction) (random : EncryptionRandomness) (c : String)
    (h : twoKeys.encrypt i random = .ok c) : twoKeys.decrypt c = .ok i := by
  by_cases hi : i = alicePaysBob
  · subst hi
    by_cases hkey : random.aesKey = []
    · obtain rfl : "c1" = c := by simpa [twoKeys, hkey] using h
      rfl
    · obtain rfl : "c2" = c := by simpa [twoKeys, hkey] using h
      rfl
  · simp [twoKeys, hi] at h

/-- One instruction, encrypted under both keys, is settled twice. -/
theorem settled_under_two_keys :
    Function.Injective twoKeys.sha256 ∧
      (∀ i random c, twoKeys.encrypt i random = .ok c → twoKeys.decrypt c = .ok i) ∧
      ¬ Always (Op.exec twoKeys) (SettledOnce twoKeys) [.ingestAt "p1" "c1" 0, .ingestAt "p2" "c2" 0]
        Server.initial := by
  refine ⟨CryptoService.sha256_ofList_injective [], twoKeys_decrypt_encrypt, fun h => ?_⟩
  have honce := h.2.2 "c1" "c2" alicePaysBob alicePaysBob rfl rfl ⟨rfl, rfl, rfl, rfl, rfl⟩
  exact absurd (honce (by decide) (by decide)) (by decide)

theorem settled_once_iff_one_packet :
    Always (Op.exec twoKeys) (SettledOnce twoKeys) [.ingestAt "p1" "c1" 0, .evictExpired 1]
        Server.initial ↔
      Each (Op.exec twoKeys) (fun op s => ¬ SettlesAgain twoKeys op s)
        [.ingestAt "p1" "c1" 0, .evictExpired 1] Server.initial :=
  settled_once_iff twoKeys (CryptoService.sha256_ofList_injective []) _
    (by simp [Op.ingestAt, Op.IngestsOrEvicts]) Server.initial rfl

end UpiMesh
