import UpiMesh.EvictorThread

/-!
# How long the cache remembers

Until the flag is raised, the evictor passes no more than once a minute and no less than once a minute
and the time of its steps. So a claimed hash is refused for 24 hours, and forgotten about a minute after
that. The wall clock is taken to run along with the steady one.
-/

namespace UpiMesh

open Sequential IdempotencyService

/-- The wall clock is ahead of the steady one. A claim has read it before it waits for the mutex, a pass
reads it once it has come to the eviction. -/
def LifeEvent.Stamped (ahead : ℤ) (lag : ℕ) : LifeEvent → Life → Prop
  | .claim _ now, s => s.clock + ahead - lag ≤ now ∧ now ≤ s.clock + ahead
  | .pass _ now, s => s.since + ahead ≤ now ∧ now ≤ s.clock + ahead
  | _, _ => True

/-- How late the thread can have come to the point where it is, after its last pass. -/
def EvictorAt.OnBeat (lag : ℕ) (lastPass since : ℤ) : EvictorAt → Prop
  | .loopTest => since ≤ lastPass
  | .locking => since ≤ lastPass + lag
  | .entering => since ≤ lastPass + 2 * lag
  | .testing deadline => since ≤ deadline ∧ deadline ≤ lastPass + 60000 + 3 * lag
  | .blocking deadline => since ≤ deadline + lag ∧ deadline ≤ lastPass + 60000 + 3 * lag
  | .waiting deadline => since ≤ deadline + 2 * lag ∧ deadline ≤ lastPass + 60000 + 3 * lag
  | .relocking deadline => since ≤ deadline + 3 * lag ∧ deadline ≤ lastPass + 60000 + 3 * lag
  | .timedOut => since ≤ lastPass + 60000 + 7 * lag
  | .evicting => since ≤ lastPass + 60000 + 8 * lag
  | .leaving | .ended => True

theorem EvictorAt.OnBeat.next {lag : ℕ} {lastPass since clock : ℤ} {stopFlag : Bool}
    {point : EvictorAt} (hclock : clock ≤ since + lag)
    (hawake : ∀ deadline, point ≠ .waiting deadline) (hnew : point ≠ .evicting)
    (h : point.OnBeat lag lastPass since) :
    (point.next clock stopFlag).OnBeat lag lastPass clock := by
  cases point with
  | waiting deadline => exact absurd rfl (hawake deadline)
  | evicting => exact absurd rfl hnew
  | loopTest =>
    cases stopFlag with
    | false =>
      change clock ≤ lastPass + lag
      change since ≤ lastPass at h
      omega
    | true => trivial
  | testing deadline =>
    cases stopFlag with
    | false => exact ⟨by have := h.1; omega, h.2⟩
    | true => trivial
  | timedOut =>
    cases stopFlag with
    | false =>
      change clock ≤ lastPass + 60000 + 8 * lag
      change since ≤ lastPass + 60000 + 7 * lag at h
      omega
    | true => trivial
  | relocking deadline =>
    obtain ⟨hsince, hdeadline⟩ := h
    rw [EvictorAt.next]
    split_ifs with hlt
    · exact ⟨hlt.le, hdeadline⟩
    · change clock ≤ lastPass + 60000 + 7 * lag
      omega
  | leaving => trivial
  | ended => trivial
  | _ =>
    simp only [EvictorAt.next, EvictorAt.OnBeat] at h ⊢
    omega

namespace Life

abbrev TakesInTime (ahead : ℤ) (lag : ℕ) (s : Life) (events : List LifeEvent) : Prop :=
  Each step (fun event s => s.enabled event ∧ event.Prompt lag s ∧ event.Stamped ahead lag s)
    events s

/-- The thread keeps the beat, and its last pass has left no entry that is too old. -/
structure Timely (ahead : ℤ) (lag : ℕ) (s : Life) : Prop where
  regular : s.Regular
  punctual : s.Punctual lag
  beat : s.evictor.OnBeat lag s.lastPass s.since
  entries : ∀ (h : String) (claimedAt : ℤ), s.seen[h]? = some claimedAt →
    s.lastPass + ahead - lag - 86400000 ≤ claimedAt

theorem timely_fresh (ahead : ℤ) (lag : ℕ) (clock : ℤ) : (fresh clock).Timely ahead lag := by
  refine ⟨regular_fresh clock, punctual_fresh lag clock, le_refl clock, fun h claimedAt hentry => ?_⟩
  simp [fresh] at hentry

variable {ahead : ℤ} {lag : ℕ} {s : Life} {event : LifeEvent}

@[simp] theorem notify_lastPass (s : Life) : s.notify.lastPass = s.lastPass := by
  unfold notify
  split <;> rfl

theorem Timely.beat_notify (hs : s.Timely ahead lag) :
    s.notify.evictor.OnBeat lag s.notify.lastPass s.notify.since := by
  have hbeat := hs.beat
  unfold notify
  split
  · rename_i deadline hwaiting
    have hclock := hs.punctual (by rw [hwaiting]; exact nofun)
    rw [hwaiting] at hbeat hclock
    obtain ⟨hsince, hdeadline⟩ := hbeat
    simp only [EvictorAt.release] at hclock
    exact ⟨by change s.clock ≤ _; omega, hdeadline⟩
  · exact hbeat

/-- What a pass at its time leaves. -/
theorem Timely.entries_pass (hs : s.Timely ahead lag) (hevicting : s.evictor = .evicting)
    (order : IterOrder) {now : ℤ} (hnow : s.since + ahead ≤ now) {h : String} {claimedAt : ℤ}
    (hentry : (evictPass order now s.seen)[h]? = some claimedAt) :
    s.clock + ahead - lag - 86400000 ≤ claimedAt := by
  have hclock := hs.punctual (by rw [hevicting]; exact nofun)
  rw [hevicting] at hclock
  simp only [EvictorAt.release] at hclock
  rw [evictPass_eq, getElem?_evictExpired, Option.filter_eq_some_iff] at hentry
  have hyoung : now - ttlSeconds * 1000 ≤ claimedAt := by simpa using hentry.2
  rw [ttlSeconds] at hyoung
  omega

theorem destroy_same (s : Life) : (Life.step .destroy s).seen = s.seen ∧
    (Life.step .destroy s).lastPass = s.lastPass ∧ (Life.step .destroy s).clock = s.clock := by
  rw [Life.step]
  cases s.destructor with
  | notifying => exact ⟨notify_seen s, notify_lastPass s, notify_clock s⟩
  | _ => exact ⟨rfl, rfl, rfl⟩

theorem Timely.beat_evictor (hs : s.Timely ahead lag) (h : s.enabled .evictor = true) :
    (s.evictor.next s.clock s.stopFlag).OnBeat lag s.lastPass s.clock := by
  obtain ⟨hawake, hnew, hrunning⟩ := of_enabled_evictor h
  have hclock := hs.punctual hrunning
  refine hs.beat.next ?_ hawake hnew
  cases hat : s.evictor with
  | waiting deadline => exact absurd hat (hawake deadline)
  | _ => rwa [hat] at hclock

theorem Timely.beat_step (hs : s.Timely ahead lag) (h : s.enabled event = true) :
    (Life.step event s).evictor.OnBeat lag (Life.step event s).lastPass (Life.step event s).since := by
  cases event with
  | evictor => exact hs.beat_evictor h
  | pass order now => exact le_refl s.clock
  | wake => exact hs.beat_notify
  | destroy =>
    rw [Life.step]
    cases s.destructor with
    | notifying => exact hs.beat_notify
    | _ => exact hs.beat
  | _ => exact hs.beat

theorem Timely.entries_step (hs : s.Timely ahead lag) (h : s.enabled event = true)
    (hstamp : event.Stamped ahead lag s) (k : String) (claimedAt : ℤ)
    (hentry : (Life.step event s).seen[k]? = some claimedAt) :
    (Life.step event s).lastPass + ahead - lag - 86400000 ≤ claimedAt := by
  cases event with
  | pass order now => exact hs.entries_pass (of_decide_eq_true h) order hstamp.1 hentry
  | claim packetHash now =>
    have hlast := hs.regular.lastPass_le
    have hread := hstamp.1
    change s.lastPass + ahead - lag - 86400000 ≤ claimedAt
    simp only [Life.step, getElem?_claim] at hentry
    split_ifs at hentry
    · obtain rfl := Option.some.inj hentry
      omega
    · exact hs.entries k claimedAt hentry
  | clear => simp [Life.step] at hentry
  | wake =>
    simp only [Life.step, notify_seen, notify_lastPass] at hentry ⊢
    exact hs.entries k claimedAt hentry
  | destroy =>
    rw [(destroy_same s).1] at hentry
    rw [(destroy_same s).2.1]
    exact hs.entries k claimedAt hentry
  | _ => exact hs.entries k claimedAt hentry

theorem Timely.step (hs : s.Timely ahead lag) (h : s.enabled event = true)
    (htime : event.Prompt lag s) (hstamp : event.Stamped ahead lag s) :
    (Life.step event s).Timely ahead lag :=
  ⟨hs.regular.step h, hs.punctual.step htime, hs.beat_step h, hs.entries_step h hstamp⟩

/-- Until the flag is raised, the last pass is about a minute ago at most. -/
theorem Timely.clock_le (hs : s.Timely ahead lag) (hrunning : s.stopFlag = false) :
    s.clock ≤ s.lastPass + 60000 + 9 * lag := by
  have hbeat := hs.beat
  have hpoint := hs.regular.point
  have hclock := hs.punctual
  rw [hrunning] at hpoint
  cases hat : s.evictor <;> rw [hat] at hbeat hpoint <;>
    simp only [Punctual, hat, EvictorAt.OnBeat, EvictorAt.Regular, EvictorAt.release, ne_eq,
      reduceCtorEq, not_false_eq_true, forall_const] at hbeat hpoint hclock <;> omega

section Runs

variable {k : String} {claimedAt : ℤ}

/-- An entry stays for 24 hours. -/
theorem kept_step (hstamp : event.Stamped ahead lag s) (hclear : event ≠ .clear)
    (hs : s.clock + ahead ≤ claimedAt + 86400000 → s.seen[k]? = some claimedAt)
    (hclock : (Life.step event s).clock + ahead ≤ claimedAt + 86400000) :
    (Life.step event s).seen[k]? = some claimedAt := by
  cases event with
  | evictor => exact hs hclock
  | pass order now =>
    have hyoung : now - ttlSeconds * 1000 ≤ claimedAt := by
      have hread := hstamp.2
      change s.clock + ahead ≤ claimedAt + 86400000 at hclock
      rw [ttlSeconds]
      omega
    change (evictPass order now s.seen)[k]? = some claimedAt
    rw [evictPass_eq, getElem?_evictExpired, hs hclock]
    simpa using hyoung
  | wake =>
    simp only [Life.step, notify_seen, notify_clock] at hclock ⊢
    exact hs hclock
  | tick millis =>
    change s.clock + millis + ahead ≤ claimedAt + 86400000 at hclock
    exact hs (by omega)
  | claim packetHash now =>
    have hentry := hs hclock
    simp only [Life.step, getElem?_claim]
    rw [if_neg ?_]
    · exact hentry
    · rintro ⟨rfl, hnew⟩
      exact hnew (mem_of_getElem?_eq_some hentry)
  | clear => exact absurd rfl hclear
  | destroy =>
    obtain ⟨hseen, -, hsame⟩ := destroy_same s
    rw [hsame] at hclock
    rw [hseen]
    exact hs hclock

theorem timely_run {events : List LifeEvent} (hs : s.Timely ahead lag)
    (hevents : s.TakesInTime ahead lag events) : (s.run events).Timely ahead lag := by
  have hstep : ∀ (event : LifeEvent) (t : Life), t.Timely ahead lag →
      t.enabled event ∧ event.Prompt lag t ∧ event.Stamped ahead lag t →
      (Life.step event t).Timely ahead lag := fun event t ht hok => ht.step hok.1 hok.2.1 hok.2.2
  exact hevents.invariant hstep hs

theorem kept_run {later : List LifeEvent} (hentry : s.seen[k]? = some claimedAt)
    (hlater : s.TakesInTime ahead lag later) (hclear : ∀ event ∈ later, event ≠ .clear)
    (hclock : (s.run later).clock + ahead ≤ claimedAt + 86400000) :
    (s.run later).seen[k]? = some claimedAt := by
  have hstep : ∀ (event : LifeEvent) (t : Life),
      (t.clock + ahead ≤ claimedAt + 86400000 → t.seen[k]? = some claimedAt) →
      (t.enabled event ∧ event.Prompt lag t ∧ event.Stamped ahead lag t) ∧ event ≠ .clear →
      (Life.step event t).clock + ahead ≤ claimedAt + 86400000 →
        (Life.step event t).seen[k]? = some claimedAt :=
    fun event t ht hok => kept_step hok.1.2.2 hok.2 ht
  exact (hlater.and (each_input_iff.mpr hclear)).invariant hstep (fun _ => hentry) hclock

/-- Between two passes at least a minute goes by. -/
theorem passes_le {events : List LifeEvent} (hs : s.Regular) (hevents : s.Takes events) :
    60000 * ((events.map LifeEvent.passes).sum : ℤ) ≤ (s.run events).lastPass - s.lastPass := by
  induction events generalizing s with
  | nil => simp
  | cons event events ih =>
    obtain ⟨h, hrest⟩ := hevents
    have hlater := ih (hs.step h) hrest
    have hfirst : 60000 * (event.passes : ℤ) ≤ (Life.step event s).lastPass - s.lastPass := by
      cases event with
      | pass order now =>
        have hpoint := hs.point
        rw [of_decide_eq_true h] at hpoint
        change 60000 * (1 : ℤ) ≤ s.clock - s.lastPass
        change s.lastPass + 60000 ≤ s.clock at hpoint
        omega
      | wake => simp [Life.step, LifeEvent.passes]
      | destroy => simp [(destroy_same s).2.1, LifeEvent.passes]
      | _ => simp [Life.step, moveTo, LifeEvent.passes]
    rw [List.map_cons, List.sum_cons, Nat.cast_add]
    change _ ≤ ((Life.step event s).run events).lastPass - s.lastPass
    omega

theorem seen_step_of_none (h : event.cache? = none) (s : Life) : (Life.step event s).seen = s.seen := by
  cases event with
  | wake => exact notify_seen s
  | destroy => exact (destroy_same s).1
  | evictor => rfl
  | tick millis => rfl
  | _ => cases h

theorem seen_step_of_some {cacheEvent : CacheEvent} (h : event.cache? = some cacheEvent) (s : Life)
    (log : List CacheRecord) :
    (Life.step event s).seen = (CacheTrace.step cacheEvent ⟨s.seen, log⟩).seen := by
  cases event with
  | pass order now =>
    obtain rfl := Option.some.inj h
    rfl
  | claim packetHash now =>
    obtain rfl := Option.some.inj h
    rfl
  | clear =>
    obtain rfl := Option.some.inj h
    rfl
  | _ => cases h

/-- The cache of a service is that of a trace of claims, passes and clears. -/
theorem seen_run (events : List LifeEvent) (s : Life) (log : List CacheRecord) :
    (s.run events).seen =
      (after CacheTrace.step (events.filterMap LifeEvent.cache?) ⟨s.seen, log⟩).seen := by
  induction events generalizing s log with
  | nil => rfl
  | cons event events ih =>
    change ((Life.step event s).run events).seen = _
    cases hcache : event.cache? with
    | none =>
      rw [List.filterMap_cons_none hcache, ih _ log, seen_step_of_none hcache]
    | some cacheEvent =>
      rw [List.filterMap_cons_some hcache, after_cons,
        ih _ (CacheTrace.step cacheEvent ⟨s.seen, log⟩).log, seen_step_of_some hcache s log]

/-- While the service runs, its evictor passes at most once a minute, and at least once a minute and
nine steps. Its cache is that of a trace, refuses a claimed hash for 24 hours and has forgotten it a
minute and ten steps later. -/
theorem cache_forgets_in_time (clock ahead : ℤ) (lag : ℕ) (events : List LifeEvent) (s : Life)
    (hevents : (fresh clock).TakesInTime ahead lag events) (hs : (fresh clock).run events = s) :
    s.seen = (after CacheTrace.step (events.filterMap LifeEvent.cache?) .start).seen ∧
    60000 * ((events.map LifeEvent.passes).sum : ℤ) ≤ s.clock - clock ∧
    (s.stopFlag = false → s.clock ≤ s.lastPass + 60000 + 9 * lag ∧
      ∀ (h : String) (claimedAt : ℤ), s.seen[h]? = some claimedAt →
        s.clock + ahead ≤ claimedAt + 86460000 + 10 * lag) ∧
    ∀ (h : String) (claimedAt : ℤ), s.seen[h]? = some claimedAt →
      ∀ later, s.TakesInTime ahead lag later → (∀ event ∈ later, event ≠ .clear) →
        (s.run later).clock + ahead ≤ claimedAt + 86400000 →
          ∀ now, (IdempotencyService.claim h now (s.run later).seen).1 = false := by
  have htimely : s.Timely ahead lag := hs ▸ timely_run (timely_fresh ahead lag clock) hevents
  refine ⟨?_, ?_, fun hrunning => ⟨htimely.clock_le hrunning, fun h claimedAt hentry => ?_⟩, ?_⟩
  · rw [← hs]
    exact seen_run events (fresh clock) []
  · have hpasses := passes_le (regular_fresh clock) (hevents.mono fun _ _ hok => hok.1)
    have hlast := htimely.regular.lastPass_le
    rw [hs] at hpasses
    change _ ≤ s.lastPass - clock at hpasses
    omega
  · have hbeat := htimely.clock_le hrunning
    have hold := htimely.entries h claimedAt hentry
    omega
  · intro h claimedAt hentry later hlater hclear hclock now
    rw [claim_of_mem (mem_of_getElem?_eq_some (kept_run hentry hlater hclear hclock))]

/-- One round of the thread after a claim. -/
def claimAndPass : List LifeEvent :=
  [.claim "h" 1000, .evictor, .evictor, .evictor, .evictor, .evictor, .tick 60000, .wake, .evictor,
    .evictor, .pass .sorted 61000]

/-- And the next wait. -/
def nextWait : List LifeEvent := [.evictor, .evictor, .evictor, .evictor, .evictor, .tick 60000]

theorem cache_forgets_in_time_one_pass :
    ((fresh 0).run claimAndPass).clock = 60000 ∧
      60000 * ((claimAndPass.map LifeEvent.passes).sum : ℤ) ≤ 60000 - 0 ∧
      ∀ now, (IdempotencyService.claim "h" now (((fresh 0).run claimAndPass).run
        nextWait).seen).1 = false := by
  have hevents : (fresh 0).TakesInTime 1000 0 claimAndPass :=
    ⟨⟨rfl, trivial, ⟨by decide, by decide⟩⟩, ⟨rfl, trivial, trivial⟩, ⟨rfl, trivial, trivial⟩,
      ⟨rfl, trivial, trivial⟩, ⟨rfl, trivial, trivial⟩, ⟨rfl, trivial, trivial⟩,
      ⟨rfl, fun _ => by decide, trivial⟩, ⟨rfl, trivial, trivial⟩, ⟨rfl, trivial, trivial⟩,
      ⟨rfl, trivial, trivial⟩, ⟨rfl, trivial, ⟨by decide, by decide⟩⟩, trivial⟩
  have hnext : ((fresh 0).run claimAndPass).TakesInTime 1000 0 nextWait :=
    ⟨⟨rfl, trivial, trivial⟩, ⟨rfl, trivial, trivial⟩, ⟨rfl, trivial, trivial⟩,
      ⟨rfl, trivial, trivial⟩, ⟨rfl, trivial, trivial⟩, ⟨rfl, fun _ => by decide, trivial⟩, trivial⟩
  have hentry : ((fresh 0).run claimAndPass).seen["h"]? = some 1000 := by decide +kernel
  have hclear : ∀ event ∈ nextWait, event ≠ .clear := by simp [nextWait]
  obtain ⟨-, hpasses, -, hrefused⟩ := cache_forgets_in_time 0 1000 0 claimAndPass _ hevents rfl
  exact ⟨rfl, hpasses, hrefused "h" 1000 hentry nextWait hnext hclear (by decide)⟩

end Runs

end Life

end UpiMesh
