import UpiMesh.History

/-!
# What the cache may forget

An entry is evicted 24 hours after its claim, while a packet is fresh until 24 hours and a second
after its signature. A claim that is taken a second or more after the signature outlives the
freshness of its packet. An earlier one can be evicted while the packet is still fresh, and the next
`ingest` passes the gate and the freshness check again.
-/

namespace UpiMesh

open Sequential Int64Arith BridgeIngestionService IdempotencyService

/-- An `ingest` of this ciphertext does not get past the claim and the freshness check. -/
def StaysOut (crypto : CryptoService) (ciphertext : String) : Op → History → Prop
  | .ingest packet _ _ env, h =>
      packet.ciphertext = ciphertext → ∀ i, ¬ Passes crypto packet env h.server i
  | _, _ => True

/-- The steps of a run on a clock that does not go back. -/
def OnClock (op : Op) (h : History) : Prop := op.IngestsOrEvicts ∧ op.InOrder h.clock

/-- The ciphertext is in the cache with a late claim, or stale for good. -/
def Remembered (packetHash : String) (signedAt : ℤ) (h : History) : Prop :=
  0 ≤ h.clock ∧ ((∃ claimedAt, h.server.seen[packetHash]? = some claimedAt ∧
    signedAt + 999 ≤ claimedAt) ∨ signedAt + 86401000 ≤ h.clock ∨ 2 ^ 62 + 300999 ≤ signedAt)

section Step

variable {crypto : CryptoService} {h : History} {packet : MeshPacket} {bridgeNodeId : String}
  {hopCount : ℤ} {env : IngestEnv} {now signedAt : ℤ} {packetHash : String}

theorem not_passes_of_remembered {i : PaymentInstruction}
    (hrem : Remembered (crypto.hashCiphertext packet.ciphertext) i.signedAt h)
    (hd : crypto.decrypt packet.ciphertext = .ok i)
    (horder : (Op.ingest packet bridgeNodeId hopCount env).InOrder h.clock) :
    ∀ j, ¬ Passes crypto packet env h.server j := by
  intro j hp
  obtain rfl := Except.ok.inj (hd.symm.trans hp.opens)
  obtain ⟨hclock, hentry⟩ := hrem
  obtain ⟨hlo, hmid, hhi⟩ := horder
  have hfresh := (fresh_iff (by omega) hhi i.signedAt_fits).mp hp.fresh
  rcases hentry with ⟨t, ht, _⟩ | hstale | hfuture
  · exact hp.unclaimed (mem_of_getElem?_eq_some ht)
  · omega
  · omega

theorem remembered_ingest (hrem : Remembered packetHash signedAt h)
    (horder : (Op.ingest packet bridgeNodeId hopCount env).InOrder h.clock) :
    Remembered packetHash signedAt
      ((Op.ingest packet bridgeNodeId hopCount env).record crypto h) := by
  obtain ⟨hclock, hentry⟩ := hrem
  obtain ⟨hlo, hmid, hhi⟩ := horder
  refine ⟨by change 0 ≤ env.freshNow; omega, ?_⟩
  rcases hentry with ⟨t, ht, hle⟩ | hstale | hfuture
  · refine Or.inl ⟨t, ?_, hle⟩
    have hmem := mem_of_getElem?_eq_some ht
    simp only [Op.record, seen_run_ingest]
    rw [getElem?_claim, if_neg, ht]
    rintro ⟨heq, hnotMem⟩
    exact hnotMem (heq ▸ hmem)
  · refine Or.inr (Or.inl ?_)
    change signedAt + 86401000 ≤ env.freshNow
    omega
  · exact Or.inr (Or.inr hfuture)

/-- An entry with a late claim is evicted only after its packet has become stale. -/
theorem remembered_evictExpired (hrem : Remembered packetHash signedAt h)
    (horder : (Op.evictExpired now).InOrder h.clock) :
    Remembered packetHash signedAt ((Op.evictExpired now).record crypto h) := by
  obtain ⟨hclock, hentry⟩ := hrem
  obtain ⟨hlo, hhi⟩ := horder
  refine ⟨le_trans hclock hlo, ?_⟩
  rcases hentry with ⟨t, ht, hle⟩ | hstale | hfuture
  · by_cases hexpired : t < now - ttlSeconds * 1000
    · refine Or.inr (Or.inl ?_)
      simp only [Op.record, ttlSeconds] at hexpired ⊢
      omega
    · refine Or.inl ⟨t, ?_, hle⟩
      simp only [Op.record, Op.exec_evictExpired, getElem?_evictExpired, ht, Option.filter_some,
        decide_not, hexpired, decide_false, Bool.not_false, if_true]
  · exact Or.inr (Or.inl (le_trans hstale hlo))
  · exact Or.inr (Or.inr hfuture)

theorem remembered_claim {i : PaymentInstruction}
    (hnew : crypto.hashCiphertext packet.ciphertext ∉ h.server.seen) (hclaim : 0 ≤ env.freshNow)
    (hlate : i.signedAt + 999 ≤ env.claimNow ∨ i.signedAt + 86401000 ≤ env.freshNow ∨
      2 ^ 62 + 300999 ≤ i.signedAt) :
    Remembered (crypto.hashCiphertext packet.ciphertext) i.signedAt
      ((Op.ingest packet bridgeNodeId hopCount env).record crypto h) := by
  refine ⟨hclaim, ?_⟩
  rcases hlate with hlate | hstale | hfuture
  · refine Or.inl ⟨env.claimNow, ?_, hlate⟩
    simp only [Op.record, seen_run_ingest]
    rw [getElem?_claim, if_pos ⟨rfl, hnew⟩]
  · exact Or.inr (Or.inl hstale)
  · exact Or.inr (Or.inr hfuture)

/-- A pass more than 24 hours after the claim makes room for the ciphertext. -/
theorem passes_after_eviction {i : PaymentInstruction} {env' : IngestEnv}
    (hnew : crypto.hashCiphertext packet.ciphertext ∉ h.server.seen)
    (hd : crypto.decrypt packet.ciphertext = .ok i) (hnow : env.claimNow + 86400000 < now)
    (hfresh : Fresh env'.freshNow i.signedAt) :
    Passes crypto packet env' ((Op.evictExpired now).record crypto
      ((Op.ingest packet bridgeNodeId hopCount env).record crypto h)).server i := by
  refine ⟨?_, hd, hfresh⟩
  have hexpired : env.claimNow + ttlSeconds * 1000 < now := hnow
  rw [Std.ExtTreeMap.mem_iff_isSome_getElem?]
  simp only [Op.record, Op.exec_evictExpired, getElem?_evictExpired, seen_run_ingest]
  rw [getElem?_claim, if_pos ⟨rfl, hnew⟩]
  simp [hexpired]

end Step

/-- After an `ingest` that takes the claim, no run of further calls and evictor passes lets the
ciphertext past the claim and the freshness check again exactly when the claim came at least 999
milliseconds after the signature, unless the packet was stale at once or is signed beyond the range
of the clock. -/
theorem stays_out_iff (crypto : CryptoService) (packet : MeshPacket) (bridgeNodeId : String)
    (hopCount : ℤ) (env : IngestEnv) (i : PaymentInstruction) (h : History)
    (hnew : crypto.hashCiphertext packet.ciphertext ∉ h.server.seen)
    (hd : crypto.decrypt packet.ciphertext = .ok i) (hclock : 0 ≤ env.claimNow)
    (horder : env.claimNow ≤ env.freshNow) (hrange : env.freshNow + 86400001 < 2 ^ 62) :
    (∀ ops, Each (Op.record crypto) OnClock ops
          ((Op.ingest packet bridgeNodeId hopCount env).record crypto h) →
        Each (Op.record crypto) (StaysOut crypto packet.ciphertext) ops
          ((Op.ingest packet bridgeNodeId hopCount env).record crypto h)) ↔
      i.signedAt + 999 ≤ env.claimNow ∨ i.signedAt + 86401000 ≤ env.freshNow ∨
        2 ^ 62 + 300999 ≤ i.signedAt := by
  constructor
  · intro hall
    by_contra hearly
    -- the evictor pass and the replay at the first moment that suits both
    let now := max (env.claimNow + 86400001) (max env.freshNow (i.signedAt - 300999))
    have hfits := i.signedAt_fits
    have hevict : env.claimNow + 86400000 < now := by omega
    have hfresh : Fresh now i.signedAt := (fresh_iff (by omega) (by omega) hfits).mpr (by omega)
    let again : IngestEnv := { settledAt := fun _ => 0, claimNow := now, freshNow := now }
    have hrun := hall [.evictExpired now, .ingest packet bridgeNodeId hopCount again]
      ⟨⟨trivial, (by omega : env.freshNow ≤ now), by omega⟩,
        ⟨trivial, le_refl now, le_refl now, (by omega : now < 2 ^ 62)⟩, trivial⟩
    exact hrun.2.1 rfl i (passes_after_eviction hnew hd hevict hfresh)
  · intro hlate ops hops
    refine hops.guarantee (fun op h hrem hok => ?_) (remembered_claim hnew (by omega) hlate)
    obtain ⟨hkind, hin⟩ := hok
    cases op with
    | ingest packet' bridgeNodeId hopCount env =>
      refine ⟨fun heq => ?_, remembered_ingest hrem hin⟩
      exact not_passes_of_remembered (heq ▸ hrem) (heq ▸ hd) hin
    | evictExpired now => exact ⟨trivial, remembered_evictExpired hrem hin⟩
    | _ => exact hkind.elim

/-- A packet from a phone whose clock is five minutes ahead. -/
def aheadOfTime : PaymentInstruction := 
  { alicePaysBob with signedAt := 300000, signedAt_fits := by decide }

/-- Claimed at 0 and evicted at 86400001, the packet passes again. -/
theorem evicted_while_fresh :
    Each (Op.record (.ofList [("c1", aheadOfTime)])) OnClock
        [.ingestAt "p1" "c1" 0, .evictExpired 86400001, .ingestAt "p1" "c1" 86400001] ⟨Server.initial, 0, []⟩ ∧
      ¬ Each (Op.record (.ofList [("c1", aheadOfTime)]))
        (StaysOut (.ofList [("c1", aheadOfTime)]) "c1") [.evictExpired 86400001, .ingestAt "p1" "c1" 86400001]
        ((Op.ingestAt "p1" "c1" 0).record (.ofList [("c1", aheadOfTime)]) ⟨Server.initial, 0, []⟩) := by
  have hfresh : Fresh 86400001 aheadOfTime.signedAt :=
    (fresh_iff (by decide) (by decide) aheadOfTime.signedAt_fits).mpr (by decide)
  constructor
  · exact ⟨⟨trivial, le_refl 0, le_refl 0, by norm_num⟩, ⟨trivial, by decide, by norm_num⟩,
      ⟨trivial, le_refl 86400001, le_refl 86400001, by norm_num⟩, trivial⟩
  · intro hrun
    exact hrun.2.1 rfl aheadOfTime (passes_after_eviction (by decide) rfl (by decide) hfresh)

theorem stays_out_iff_late_claim :
    (∀ ops, Each (Op.record (.ofList [("c1", alicePaysBob)])) OnClock ops
          ((Op.ingestAt "p1" "c1" 1000).record (.ofList [("c1", alicePaysBob)]) ⟨Server.initial, 0, []⟩) →
        Each (Op.record (.ofList [("c1", alicePaysBob)]))
          (StaysOut (.ofList [("c1", alicePaysBob)]) "c1") ops
          ((Op.ingestAt "p1" "c1" 1000).record (.ofList [("c1", alicePaysBob)]) ⟨Server.initial, 0, []⟩)) ↔
      alicePaysBob.signedAt + 999 ≤ 1000 ∨ alicePaysBob.signedAt + 86401000 ≤ 1000 ∨
        2 ^ 62 + 300999 ≤ alicePaysBob.signedAt :=
  stays_out_iff (.ofList [("c1", alicePaysBob)]) ⟨"p1", 5, 0, "c1"⟩ "phone-bridge" 1
    { settledAt := fun _ => 1000, claimNow := 1000, freshNow := 1000 } alicePaysBob
    ⟨Server.initial, 0, []⟩ (by decide) rfl (by decide) (by decide) (by decide)

end UpiMesh
