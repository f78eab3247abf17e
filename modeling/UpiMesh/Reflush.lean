import UpiMesh.IngestionSpec
import UpiMesh.MeshSpec

/-!
# Flushing twice

The bridge keeps what it has uploaded, so every flush replays all of it. After a flush the hash of
each upload is in the cache, whatever became of the upload; another flush is then turned away at the
idempotency gate for every packet. Within one flush the gate opens at most once for a ciphertext.
-/

namespace UpiMesh.ApiController

open Concurrent BridgeIngestionService

/-- The answers to the uploads of a ciphertext, without the drops. -/
def answers (ciphertext : String) (uploads : List BridgeUpload) (results : List FlushResult) :
    List FlushResult :=
  ((uploads.zip results).filter fun x =>
    x.1.packet.ciphertext = ciphertext ∧ x.2.outcome ≠ "DUPLICATE_DROPPED").map Prod.snd

/-- The answer to an upload that is known already. -/
def dropped (crypto : CryptoService) (up : BridgeUpload) : FlushResult :=
  flushResult up ⟨"DUPLICATE_DROPPED", crypto.hashCiphertext up.packet.ciphertext, "", none⟩

section Uploads

variable (crypto : CryptoService) (ingests : ℕ → IngestEnv) (n : ℕ) (up : BridgeUpload)
  (uploads : List BridgeUpload) (s : Server)

theorem run_ingestUploads_cons :
    (ingestUploads crypto ingests n (up :: uploads)).run s =
      let first := (ingest crypto up.packet up.bridgeNodeId (hopCount up.packet) (ingests n)).run s
      let rest := (ingestUploads crypto ingests (n + 1) uploads).run first.2
      (flushResult up first.1 :: rest.1, rest.2) := by
  simp only [ingestUploads, Service.run, Program.run_bind, Program.pure_eq, Program.run_ret]

/-- The calls only touch the cache and the database. -/
theorem held_run_ingestUploads : ((ingestUploads crypto ingests n uploads).run s).2.held = s.held := by
  induction uploads generalizing n s with
  | nil => rfl
  | cons up uploads ih =>
    rw [run_ingestUploads_cons]
    exact (ih (n + 1) _).trans (held_run_ingest _ _ _ _ _ s)

variable {crypto n up uploads s}

theorem mem_seen_run_ingestUploads {packetHash : String} :
    packetHash ∈ ((ingestUploads crypto ingests n uploads).run s).2.seen ↔
      packetHash ∈ s.seen ∨
        ∃ up ∈ uploads, crypto.hashCiphertext up.packet.ciphertext = packetHash := by
  induction uploads generalizing n s with
  | nil =>
    constructor
    · exact Or.inl
    · rintro (h | ⟨up, hup, _⟩)
      · exact h
      · exact absurd hup List.not_mem_nil
  | cons up uploads ih =>
    rw [run_ingestUploads_cons]
    dsimp only
    rw [ih, seen_run_ingest, IdempotencyService.mem_claim, List.exists_mem_cons_iff]
    tauto

/-- Uploads whose hashes are in the cache are dropped, and nothing else happens. -/
theorem run_ingestUploads_of_seen
    (h : ∀ up ∈ uploads, crypto.hashCiphertext up.packet.ciphertext ∈ s.seen) :
    (ingestUploads crypto ingests n uploads).run s = (uploads.map (dropped crypto), s) := by
  induction uploads generalizing n with
  | nil => rfl
  | cons up uploads ih =>
    obtain ⟨hup, huploads⟩ := List.forall_mem_cons.mp h
    rw [run_ingestUploads_cons, run_ingest_of_mem hup]
    dsimp only
    rw [ih huploads]
    rfl

theorem length_run_ingestUploads :
    ((ingestUploads crypto ingests n uploads).run s).1.length = uploads.length := by
  induction uploads generalizing n s with
  | nil => rfl
  | cons up uploads ih =>
    rw [run_ingestUploads_cons, List.length_cons, List.length_cons, ih]

theorem answers_cons {ciphertext : String} {r : FlushResult} {results : List FlushResult} :
    answers ciphertext (up :: uploads) (r :: results) =
      if up.packet.ciphertext = ciphertext ∧ r.outcome ≠ "DUPLICATE_DROPPED" then
        r :: answers ciphertext uploads results
      else answers ciphertext uploads results := by
  simp only [answers, List.zip_cons_cons, List.filter_cons, decide_eq_true_eq]
  split_ifs <;> rfl

/-- Once its hash is in the cache, a ciphertext is only dropped. -/
theorem answers_of_seen {ciphertext : String} (h : crypto.hashCiphertext ciphertext ∈ s.seen) :
    answers ciphertext uploads ((ingestUploads crypto ingests n uploads).run s).1 = [] := by
  induction uploads generalizing n s with
  | nil => rfl
  | cons up uploads ih =>
    rw [run_ingestUploads_cons, answers_cons]
    have hlater : crypto.hashCiphertext ciphertext ∈ ((ingest crypto up.packet up.bridgeNodeId
        (hopCount up.packet) (ingests n)).run s).2.seen := by
      rw [seen_run_ingest, IdempotencyService.mem_claim]
      exact Or.inr h
    rw [if_neg, ih hlater]
    rintro ⟨rfl, houtcome⟩
    rw [run_ingest_of_mem h] at houtcome
    exact houtcome rfl

theorem length_answers (ciphertext : String) :
    (answers ciphertext uploads ((ingestUploads crypto ingests n uploads).run s).1).length ≤ 1 := by
  induction uploads generalizing n s with
  | nil => exact Nat.zero_le 1
  | cons up uploads ih =>
    rw [run_ingestUploads_cons, answers_cons]
    split_ifs with hanswered
    · obtain ⟨rfl, -⟩ := hanswered
      rw [answers_of_seen]
      · exact le_refl 1
      · rw [seen_run_ingest, IdempotencyService.mem_claim]
        exact Or.inl rfl
    · exact ih

end Uploads

/-- Of two flushes in a row the second only drops duplicates and changes nothing; and the first one
gives each ciphertext at most one other answer. -/
theorem second_flush_changes_nothing (crypto : CryptoService) (env env' : MeshFlushEnv)
    (s : Server) :
    let first := (meshFlush crypto env).run s
    let second := (meshFlush crypto env').run first.2
    second.1.results = (bridgeUploads env'.order first.2).map (dropped crypto) ∧
      second.2 = first.2 ∧
      first.1.results.length = (bridgeUploads env.order s).length ∧
      ∀ ciphertext,
        (answers ciphertext (bridgeUploads env.order s) first.1.results).length ≤ 1 := by
  intro first second
  have hfirst : first = (meshFlush crypto env).run s := rfl
  have hsecond : second = (meshFlush crypto env').run first.2 := rfl
  rw [run_meshFlush] at hfirst hsecond
  have hknown : ∀ up ∈ bridgeUploads env'.order first.2,
      crypto.hashCiphertext up.packet.ciphertext ∈ first.2.seen := by
    intro up hup
    rw [mem_bridgeUploads, hfirst, held_run_ingestUploads, ← mem_bridgeUploads] at hup
    rw [hfirst, mem_seen_run_ingestUploads]
    exact Or.inr ⟨up, hup, rfl⟩
  rw [run_ingestUploads_of_seen env'.ingests hknown] at hsecond
  refine ⟨by rw [hsecond], by rw [hsecond], ?_, fun ciphertext => ?_⟩
  · rw [hfirst]
    exact length_run_ingestUploads env.ingests
  · rw [hfirst]
    exact length_answers env.ingests ciphertext

end UpiMesh.ApiController
