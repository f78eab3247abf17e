import UpiMesh.Lib.Run
import UpiMesh.Stores
import Mathlib.Data.Set.Card

/-!
# Traces of the idempotency cache

The log of a trace records every claim with its answer, every evictor pass and every clear, the last
one first. What the cache holds can be read off the log: a hash is there with the time of its latest
successful claim, unless a later pass has found that time too old or a later clear has removed it.
-/

namespace UpiMesh

open Std (ExtTreeMap)

namespace IdempotencyService

/-- The loop of a pass over the entries in bucket order; `erase` leaves the order of the others. -/
def evictLoop (cutoffMillis : ℤ) : List String → SeenHashes → SeenHashes
  | [], seen => seen
  | h :: hashes, seen =>
    match seen[h]? with
    | some claimedAt =>
      if claimedAt < cutoffMillis then evictLoop cutoffMillis hashes (seen.erase h)
      else evictLoop cutoffMillis hashes seen
    | none => evictLoop cutoffMillis hashes seen

def evictPass (order : IterOrder) (now : ℤ) (seen : SeenHashes) : SeenHashes :=
  evictLoop (now - ttlSeconds * 1000) (order.arrange seen.keys) seen

theorem getElem?_evictLoop (cutoffMillis : ℤ) (hashes : List String) (seen : SeenHashes)
    (h : String) :
    (evictLoop cutoffMillis hashes seen)[h]? =
      if h ∈ hashes then seen[h]?.filter fun claimedAt => ¬ claimedAt < cutoffMillis
      else seen[h]? := by
  induction hashes generalizing seen with
  | nil => rfl
  | cons h' hashes ih =>
    by_cases hh : h = h'
    · subst hh
      cases hseen : seen[h]? with
      | none => simp [evictLoop, hseen, ih]
      | some claimedAt =>
        by_cases hold : claimedAt < cutoffMillis
        · have hlt : ¬ cutoffMillis ≤ claimedAt := not_le.mpr hold
          simp [evictLoop, hseen, hold, ih, Option.filter_some, hlt]
        · have hle : cutoffMillis ≤ claimedAt := not_lt.mp hold
          simp [evictLoop, hseen, hold, ih, Option.filter_some, hle]
    · have hne : ¬ h' = h := fun e => hh e.symm
      cases hseen : seen[h']? with
      | none => simp [evictLoop, hseen, ih, hh]
      | some claimedAt =>
        by_cases hold : claimedAt < cutoffMillis
        · simp [evictLoop, hseen, hold, ih, hh, hne, ExtTreeMap.getElem?_erase]
        · simp [evictLoop, hseen, hold, ih, hh]

/-- Whatever the bucket order is, a pass erases the entries that are too old. -/
theorem evictPass_eq (order : IterOrder) (now : ℤ) (seen : SeenHashes) :
    evictPass order now seen = evictExpired now seen := by
  apply ExtTreeMap.ext_getElem?
  intro h
  rw [evictPass, getElem?_evictLoop, getElem?_evictExpired]
  split_ifs with hmem
  · rfl
  · rw [(order.perm _).mem_iff, ExtTreeMap.mem_keys, ← ExtTreeMap.isSome_getElem?_iff_mem,
      Bool.not_eq_true, Option.isSome_eq_false_iff, Option.isNone_iff_eq_none] at hmem
    rw [hmem]
    rfl

end IdempotencyService

open IdempotencyService

inductive CacheEvent where
  | claim (packetHash : String) (now : ℤ)
  | evict (order : IterOrder) (now : ℤ)
  | clear

inductive CacheRecord where
  | claim (packetHash : String) (now : ℤ) (answer : Bool)
  | evict (now : ℤ)
  | clear
  deriving DecidableEq

structure CacheTrace where
  seen : SeenHashes
  log : List CacheRecord

namespace CacheTrace

def start : CacheTrace := ⟨∅, []⟩

def step : CacheEvent → CacheTrace → CacheTrace
  | .claim packetHash now, t =>
    let result := claim packetHash now t.seen
    ⟨result.2, .claim packetHash now result.1 :: t.log⟩
  | .evict order now, t => ⟨evictPass order now t.seen, .evict now :: t.log⟩
  | .clear, t => ⟨∅, .clear :: t.log⟩

end CacheTrace

/-- The records after the last clear. -/
def sinceClear (log : List CacheRecord) : List CacheRecord := log.takeWhile (· ≠ .clear)

/-- The latest successful claim of the hash since the last clear is at `c`, and `later` is what
follows it. -/
def LatestClaim (log : List CacheRecord) (h : String) (c : ℤ) (later : List CacheRecord) : Prop :=
  (∃ earlier, sinceClear log = later ++ .claim h c true :: earlier) ∧
    ∀ c', .claim h c' true ∉ later

/-- A pass that finds a claim at `c` too old. -/
def Expires (records : List CacheRecord) (c : ℤ) : Prop :=
  ∃ e, .evict e ∈ records ∧ c < e - 86400000

def Unevicted (log : List CacheRecord) (h : String) (c : ℤ) : Prop :=
  ∃ later, LatestClaim log h c later ∧ ¬ Expires later c

section Log

variable {log : List CacheRecord} {h : String} {c : ℤ} {later : List CacheRecord}

theorem sinceClear_clear : sinceClear (.clear :: log) = [] := rfl

theorem sinceClear_cons {record : CacheRecord} (hrecord : record ≠ .clear) :
    sinceClear (record :: log) = record :: sinceClear log := by
  simp [sinceClear, hrecord]

theorem not_latestClaim_clear : ¬ LatestClaim (.clear :: log) h c later := by
  rintro ⟨⟨earlier, hlog⟩, -⟩
  rw [sinceClear_clear] at hlog
  simp at hlog

/-- A record that is no successful claim of the hash keeps its latest claim. -/
theorem latestClaim_cons_other {record : CacheRecord} (hrecord : record ≠ .clear)
    (hother : ∀ c', record ≠ .claim h c' true) :
    LatestClaim (record :: log) h c later ↔
      ∃ later', later = record :: later' ∧ LatestClaim log h c later' := by
  rw [LatestClaim, sinceClear_cons hrecord]
  constructor
  · rintro ⟨⟨earlier, hlog⟩, hlatest⟩
    rcases List.cons_eq_append_iff.mp hlog with ⟨-, hfirst⟩ | ⟨later', rfl, hrest⟩
    · exact absurd (List.cons.inj hfirst).1.symm (hother c)
    · exact ⟨later', rfl, ⟨earlier, hrest⟩, fun c' hc' => hlatest c' (List.mem_cons_of_mem _ hc')⟩
  · rintro ⟨later', rfl, ⟨earlier, hlog⟩, hlatest⟩
    refine ⟨⟨earlier, by rw [hlog, List.cons_append]⟩, fun c' hc' => ?_⟩
    rcases List.mem_cons.mp hc' with hc' | hc'
    · exact hother c' hc'.symm
    · exact hlatest c' hc'

/-- A successful claim is the latest one. -/
theorem latestClaim_cons_self {now : ℤ} :
    LatestClaim (.claim h now true :: log) h c later ↔ later = [] ∧ c = now := by
  rw [LatestClaim, sinceClear_cons (by simp)]
  constructor
  · rintro ⟨⟨earlier, hlog⟩, hlatest⟩
    rcases List.cons_eq_append_iff.mp hlog with ⟨rfl, hfirst⟩ | ⟨later', rfl, -⟩
    · have hclaim := (List.cons.inj hfirst).1
      simp only [CacheRecord.claim.injEq, true_and, and_true] at hclaim
      exact ⟨rfl, hclaim⟩
    · exact absurd List.mem_cons_self (hlatest now)
  · rintro ⟨rfl, rfl⟩
    exact ⟨⟨sinceClear log, rfl⟩, fun _ => List.not_mem_nil⟩

/-- A hash that has been claimed since the last clear has a latest claim. -/
theorem exists_latestClaim (hmem : .claim h c true ∈ sinceClear log) :
    ∃ c' later, LatestClaim log h c' later := by
  simp only [LatestClaim]
  generalize sinceClear log = records at hmem ⊢
  induction records with
  | nil => exact absurd hmem List.not_mem_nil
  | cons record records ih =>
    by_cases hfirst : ∃ c', record = .claim h c' true
    · obtain ⟨c', rfl⟩ := hfirst
      exact ⟨c', [], ⟨records, rfl⟩, fun _ => List.not_mem_nil⟩
    · have hrest : .claim h c true ∈ records :=
        (List.mem_cons.mp hmem).resolve_left fun he => hfirst ⟨c, he.symm⟩
      obtain ⟨c', later, ⟨earlier, rfl⟩, hlatest⟩ := ih hrest
      refine ⟨c', record :: later, ⟨earlier, rfl⟩, fun c'' hc'' => ?_⟩
      rcases List.mem_cons.mp hc'' with he | hlater
      · exact hfirst ⟨c'', he.symm⟩
      · exact hlatest c'' hlater

theorem LatestClaim.unique {c' : ℤ} {later' : List CacheRecord} (hl : LatestClaim log h c later)
    (hl' : LatestClaim log h c' later') : c' = c ∧ later' = later := by
  obtain ⟨⟨earlier, hlog⟩, hlatest⟩ := hl
  obtain ⟨⟨earlier', hlog'⟩, hlatest'⟩ := hl'
  rcases List.append_eq_append_iff.mp (hlog.symm.trans hlog') with
    ⟨between, rfl, hrest⟩ | ⟨between, rfl, hrest⟩
  · cases between with
    | nil =>
      rw [List.nil_append, List.cons.injEq, CacheRecord.claim.injEq] at hrest
      exact ⟨hrest.1.2.1.symm, List.append_nil later⟩
    | cons record between =>
      rw [List.cons_append, List.cons.injEq] at hrest
      exact absurd (List.mem_append_right later (hrest.1 ▸ List.mem_cons_self)) (hlatest' c)
  · cases between with
    | nil =>
      rw [List.nil_append, List.cons.injEq, CacheRecord.claim.injEq] at hrest
      exact ⟨hrest.1.2.1, (List.append_nil later').symm⟩
    | cons record between =>
      rw [List.cons_append, List.cons.injEq] at hrest
      exact absurd (List.mem_append_right later' (hrest.1 ▸ List.mem_cons_self)) (hlatest c')

/-- When no claim of the hash is unevicted. -/
theorem forall_not_unevicted_iff : (∀ c, ¬ Unevicted log h c) ↔
    (∀ c, .claim h c true ∉ sinceClear log) ∨
      ∃ c later, LatestClaim log h c later ∧ Expires later c := by
  constructor
  · intro hnone
    by_cases hclaimed : ∃ c, .claim h c true ∈ sinceClear log
    · obtain ⟨c, hc⟩ := hclaimed
      obtain ⟨c', later, hlatest⟩ := exists_latestClaim hc
      refine Or.inr ⟨c', later, hlatest, ?_⟩
      by_contra hkept
      exact hnone c' ⟨later, hlatest, hkept⟩
    · exact Or.inl (not_exists.mp hclaimed)
  · rintro (hnone | ⟨c, later, hlatest, hexpires⟩) c' ⟨later', hlatest', hkept⟩
    · obtain ⟨⟨earlier, hlog⟩, -⟩ := hlatest'
      apply hnone c'
      rw [hlog]
      exact List.mem_append_right later' List.mem_cons_self
    · obtain ⟨rfl, rfl⟩ := hlatest.unique hlatest'
      exact hkept hexpires

theorem not_unevicted_nil : ¬ Unevicted [] h c := by
  rintro ⟨later, ⟨⟨earlier, hlog⟩, -⟩, -⟩
  simp [sinceClear] at hlog

theorem not_unevicted_clear : ¬ Unevicted (.clear :: log) h c :=
  fun ⟨_, hlatest, _⟩ => not_latestClaim_clear hlatest

theorem unevicted_cons_self {now : ℤ} :
    Unevicted (.claim h now true :: log) h c ↔ c = now := by
  constructor
  · rintro ⟨later, hlatest, -⟩
    exact (latestClaim_cons_self.mp hlatest).2
  · rintro rfl
    exact ⟨[], latestClaim_cons_self.mpr ⟨rfl, rfl⟩, fun ⟨_, he, _⟩ => absurd he List.not_mem_nil⟩

theorem unevicted_cons_other {record : CacheRecord} (hrecord : record ≠ .clear)
    (hother : ∀ c', record ≠ .claim h c' true) :
    Unevicted (record :: log) h c ↔
      Unevicted log h c ∧ ∀ e, record = .evict e → ¬ c < e - 86400000 := by
  constructor
  · rintro ⟨later, hlatest, hkept⟩
    obtain ⟨later', rfl, hlatest'⟩ := (latestClaim_cons_other hrecord hother).mp hlatest
    refine ⟨⟨later', hlatest', ?_⟩, ?_⟩
    · rintro ⟨e, he, hlt⟩
      exact hkept ⟨e, List.mem_cons_of_mem _ he, hlt⟩
    · rintro e rfl hlt
      exact hkept ⟨e, List.mem_cons_self, hlt⟩
  · rintro ⟨⟨later, hlatest, hkept⟩, hrecent⟩
    refine ⟨record :: later, (latestClaim_cons_other hrecord hother).mpr ⟨later, rfl, hlatest⟩, ?_⟩
    rintro ⟨e, he, hlt⟩
    rcases List.mem_cons.mp he with rfl | he
    · exact hrecent e rfl hlt
    · exact hkept ⟨e, he, hlt⟩

end Log

/-- The cache holds the claims that the log shows to be unevicted. -/
def LogReflected (t : CacheTrace) : Prop :=
  ∀ (h : String) (c : ℤ), t.seen[h]? = some c ↔ Unevicted t.log h c

section Trace

variable {t : CacheTrace}

theorem LogReflected.start : LogReflected .start := by
  intro h c
  refine ⟨fun hc => ?_, fun hc => absurd hc not_unevicted_nil⟩
  rw [CacheTrace.start, ExtTreeMap.getElem?_empty] at hc
  cases hc

theorem LogReflected.claim (ht : LogReflected t) (packetHash : String) (now : ℤ) :
    LogReflected (CacheTrace.step (.claim packetHash now) t) := by
  intro h c
  simp only [CacheTrace.step]
  by_cases hmem : packetHash ∈ t.seen
  · rw [claim_of_mem hmem, unevicted_cons_other (by simp) (by simp), ht h c]
    exact ⟨fun hc => ⟨hc, by simp⟩, And.left⟩
  · rw [getElem?_claim, claim_fst_of_notMem hmem]
    by_cases hh : packetHash = h
    · subst hh
      rw [if_pos ⟨rfl, hmem⟩, unevicted_cons_self, Option.some.injEq, eq_comm]
    · rw [if_neg fun hnew => hh hnew.1, unevicted_cons_other (by simp) (by simp [hh]), ht h c]
      exact ⟨fun hc => ⟨hc, by simp⟩, And.left⟩

theorem getElem?_evictPass (order : IterOrder) (now : ℤ) (seen : SeenHashes) (h : String) (c : ℤ) :
    (evictPass order now seen)[h]? = some c ↔ seen[h]? = some c ∧ ¬ c < now - 86400000 := by
  rw [evictPass_eq, getElem?_evictExpired, Option.filter_eq_some_iff]
  simp [ttlSeconds]

theorem LogReflected.step (ht : LogReflected t) (event : CacheEvent) :
    LogReflected (CacheTrace.step event t) := by
  cases event with
  | claim packetHash now => exact ht.claim packetHash now
  | evict order now =>
    intro h c
    simp only [CacheTrace.step]
    rw [getElem?_evictPass, unevicted_cons_other (by simp) (by simp), ht h c]
    simp
  | clear =>
    intro h c
    refine ⟨fun hc => ?_, fun hc => absurd hc not_unevicted_clear⟩
    rw [CacheTrace.step, ExtTreeMap.getElem?_empty] at hc
    cases hc

theorem LogReflected.run (events : List CacheEvent) :
    LogReflected (Sequential.after CacheTrace.step events .start) := by
  have hrun : ∀ t, LogReflected t → LogReflected (Sequential.after CacheTrace.step events t) := by
    induction events with
    | nil => exact fun _ ht => ht
    | cons event events ih => exact fun t ht => ih _ (ht.step event)
  exact hrun _ .start

/-- A claim is refused while the latest successful one is unevicted. -/
theorem LogReflected.claim_iff (ht : LogReflected t) (packetHash : String) (now : ℤ) :
    (IdempotencyService.claim packetHash now t.seen).1 = true ↔
      ∀ c, ¬ Unevicted t.log packetHash c := by
  constructor
  · intro hclaim c hc
    rw [claim_of_mem (mem_of_getElem?_eq_some ((ht packetHash c).mpr hc))] at hclaim
    cases hclaim
  · intro hnone
    apply claim_fst_of_notMem
    intro hmem
    obtain ⟨c, hc⟩ := mem_iff_exists_getElem?.mp hmem
    exact hnone c ((ht packetHash c).mp hc)

theorem LogReflected.size (ht : LogReflected t) :
    t.seen.size = {h | ∃ c, Unevicted t.log h c}.ncard := by
  have hset : {h | ∃ c, Unevicted t.log h c} = (t.seen.keys.toFinset : Set String) := by
    ext h
    rw [Set.mem_ofPred_eq, Finset.mem_coe, List.mem_toFinset, ExtTreeMap.mem_keys,
      mem_iff_exists_getElem?]
    exact exists_congr fun c => (ht h c).symm
  rw [hset, Set.ncard_coe_finset, List.toFinset_card_of_nodup ExtTreeMap.nodup_keys,
    ExtTreeMap.length_keys]

end Trace

/-- In the state that any trace reaches, a claim is granted when the log shows no successful claim
since the last clear or a pass that has expired the latest one. A refused claim changes nothing, a
pass removes what is older than its cutoff, and the size counts the unevicted claims. -/
theorem cache_trace (events : List CacheEvent) :
    let t := Sequential.after CacheTrace.step events CacheTrace.start
    (∀ (packetHash : String) (now : ℤ), (claim packetHash now t.seen).1 = true ↔
      (∀ c, .claim packetHash c true ∉ sinceClear t.log) ∨
        ∃ c later, LatestClaim t.log packetHash c later ∧ Expires later c) ∧
    (∀ (packetHash : String) (now : ℤ), (claim packetHash now t.seen).1 = false →
      (claim packetHash now t.seen).2 = t.seen) ∧
    (∀ (order : IterOrder) (now : ℤ) (h : String) (c : ℤ),
      (evictPass order now t.seen)[h]? = some c ↔
        t.seen[h]? = some c ∧ ¬ c < now - 86400000) ∧
    t.seen.size = {h | ∃ c, Unevicted t.log h c}.ncard := by
  intro t
  have ht : LogReflected t := .run events
  refine ⟨fun packetHash now => (ht.claim_iff packetHash now).trans forall_not_unevicted_iff,
    fun packetHash now hrefused => ?_, fun order now => getElem?_evictPass order now t.seen, ht.size⟩
  by_cases hmem : packetHash ∈ t.seen
  · rw [claim_of_mem hmem]
  · rw [claim_fst_of_notMem hmem] at hrefused
    cases hrefused

end UpiMesh
