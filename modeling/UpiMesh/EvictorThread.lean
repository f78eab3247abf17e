import UpiMesh.CacheTrace

/-!
# The evictor thread

The constructor of the idempotency service starts a thread that runs the loop of `evictExpired`,
and the destructor stops and joins it. The thread goes from point to point of its loop. It holds the
mutex from the lock of a round to the wait, and again from the end of the wait to the end of the
round. The destructor raises the flag and notifies without the mutex.
-/

namespace UpiMesh

open IdempotencyService

/-- What the thread does next. A wait has the deadline computed on entering `wait_for`. -/
inductive EvictorAt where
  | loopTest
  | locking
  | entering
  | testing (deadline : ℤ)
  | blocking (deadline : ℤ)
  | waiting (deadline : ℤ)
  | relocking (deadline : ℤ)
  | timedOut
  | evicting
  | leaving
  | ended
  deriving DecidableEq

namespace EvictorAt

/-- Where the thread goes from a point at which it neither waits nor evicts. Whether a wait has timed
out is read off the clock once the mutex is held again. -/
def next (clock : ℤ) (stopFlag : Bool) : EvictorAt → EvictorAt
  | .loopTest => if stopFlag then .ended else .locking
  | .locking => .entering
  | .entering => .testing (clock + 60 * 1000)
  | .testing deadline => if stopFlag then .leaving else .blocking deadline
  | .blocking deadline => .waiting deadline
  | .relocking deadline => if clock < deadline then .testing deadline else .timedOut
  | .timedOut => if stopFlag then .leaving else .evicting
  | .leaving => .ended
  | point => point

/-- The thread has the mutex. -/
def locked : EvictorAt → Bool
  | .entering | .testing _ | .blocking _ | .timedOut | .evicting | .leaving => true
  | _ => false

/-- The thread can go on from this time when it has come to the point at `since`. -/
def release (since : ℤ) : EvictorAt → ℤ
  | .waiting deadline => max since deadline
  | _ => since

/-- The steps that are left once the flag is raised. -/
def stepsLeft : EvictorAt → ℕ
  | .ended => 0
  | .loopTest | .leaving => 1
  | .testing _ | .timedOut | .evicting => 2
  | .entering | .relocking _ => 3
  | .locking | .waiting _ => 4
  | .blocking _ => 5

theorem stepsLeft_le (point : EvictorAt) : point.stepsLeft ≤ 5 := by
  cases point <;> simp [stepsLeft]

end EvictorAt

inductive DestructorAt where
  | running
  | notifying
  | joining
  | destroyed
  deriving DecidableEq

/-- The steps of the destructor that are left. -/
def DestructorAt.stepsLeft : DestructorAt → ℕ
  | .running => 3
  | .notifying => 2
  | .joining => 1
  | .destroyed => 0

/-- `clock` is the steady clock in milliseconds. `since` and `lastPass` record when the thread came
to the point where it is and when it last evicted. -/
structure Life where
  seen : SeenHashes
  evictor : EvictorAt
  stopFlag : Bool
  destructor : DestructorAt
  clock : ℤ
  since : ℤ
  lastPass : ℤ

/-- The steps of the thread are `evictor`, `pass` and the end of a wait, for whatever reason. The
wall clock stamps claims and passes. -/
inductive LifeEvent where
  | evictor
  | pass (order : IterOrder) (now : ℤ)
  | wake
  | tick (millis : ℕ)
  | claim (packetHash : String) (now : ℤ)
  | clear
  | destroy

namespace Life

def fresh (clock : ℤ) : Life := ⟨∅, .loopTest, false, .running, clock, clock, clock⟩

def moveTo (point : EvictorAt) (s : Life) : Life := { s with evictor := point, since := s.clock }

/-- A notification reaches the thread when it is waiting. -/
def notify (s : Life) : Life :=
  match s.evictor with
  | .waiting deadline => s.moveTo (.relocking deadline)
  | _ => s

def step : LifeEvent → Life → Life
  | .evictor, s => s.moveTo (s.evictor.next s.clock s.stopFlag)
  | .pass order now, s =>
    { s.moveTo .loopTest with seen := evictPass order now s.seen, lastPass := s.clock }
  | .wake, s => s.notify
  | .tick millis, s => { s with clock := s.clock + millis }
  | .claim packetHash now, s => { s with seen := (claim packetHash now s.seen).2 }
  | .clear, s => { s with seen := ∅ }
  | .destroy, s =>
    match s.destructor with
    | .running => { s with stopFlag := true, destructor := .notifying }
    | .notifying => { s.notify with destructor := .joining }
    | .joining | .destroyed => { s with destructor := .destroyed }

/-- The cache is used under the mutex and while the service is alive, and the destructor returns
when the thread can be joined. -/
def enabled : LifeEvent → Life → Bool
  | .evictor, s =>
    match s.evictor with
    | .waiting _ | .evicting | .ended => false
    | _ => true
  | .pass _ _, s => s.evictor = .evicting
  | .wake, s =>
    match s.evictor with
    | .waiting _ => true
    | _ => false
  | .tick _, _ => true
  | .claim _ _, s | .clear, s => s.destructor = .running && !s.evictor.locked
  | .destroy, s =>
    match s.destructor with
    | .running | .notifying => true
    | .joining => s.evictor = .ended
    | .destroyed => false

end Life

namespace LifeEvent

/-- The step of the thread, if it is one. -/
def steps : LifeEvent → ℕ
  | .evictor | .pass _ _ | .wake => 1
  | _ => 0

def passes : LifeEvent → ℕ
  | .pass _ _ => 1
  | _ => 0

/-- What the event does to the cache. -/
def cache? : LifeEvent → Option CacheEvent
  | .pass order now => some (.evict order now)
  | .claim packetHash now => some (.claim packetHash now)
  | .clear => some .clear
  | _ => none

/-- No wait ends before its deadline without a notification. -/
def OnTime : LifeEvent → Life → Prop
  | .wake, s => ∀ deadline, s.evictor = .waiting deadline → deadline ≤ s.clock
  | _, _ => True

/-- Time passes so that the thread takes no more than `lag` for a step it can take. -/
def Prompt (lag : ℕ) : LifeEvent → Life → Prop
  | .tick millis, s => s.evictor ≠ .ended → s.clock + millis ≤ s.evictor.release s.since + lag
  | _, _ => True

end LifeEvent

namespace Life

open Sequential

abbrev run (s : Life) (events : List LifeEvent) : Life := after step events s

abbrev Takes (s : Life) (events : List LifeEvent) : Prop :=
  Each step (fun event s => s.enabled event) events s

abbrev TakesOnTime (s : Life) (events : List LifeEvent) : Prop :=
  Each step (fun event s => s.enabled event ∧ event.OnTime s) events s

abbrev TakesPromptly (lag : ℕ) (s : Life) (events : List LifeEvent) : Prop :=
  Each step (fun event s => s.enabled event ∧ event.Prompt lag s) events s

end Life

/-- What holds at each point: a wait lasts a minute from a time after the last pass, and the thread
leaves the loop for the flag. -/
def EvictorAt.Regular (lastPass clock : ℤ) (stopFlag : Bool) : EvictorAt → Prop
  | .loopTest | .locking | .entering => True
  | .testing deadline | .blocking deadline | .waiting deadline | .relocking deadline =>
    lastPass + 60000 ≤ deadline ∧ deadline ≤ clock + 60000
  | .timedOut | .evicting => lastPass + 60000 ≤ clock
  | .leaving | .ended => stopFlag = true

theorem EvictorAt.Regular.next {lastPass clock : ℤ} {stopFlag : Bool} {point : EvictorAt}
    (hpass : lastPass ≤ clock) (h : point.Regular lastPass clock stopFlag) :
    (point.next clock stopFlag).Regular lastPass clock stopFlag := by
  cases point with
  | loopTest =>
    cases stopFlag with
    | false => trivial
    | true => rfl
  | locking => trivial
  | entering => exact ⟨by omega, by omega⟩
  | testing deadline =>
    cases stopFlag with
    | false => exact h
    | true => rfl
  | blocking deadline => exact h
  | waiting deadline => exact h
  | relocking deadline =>
    obtain ⟨hmin, hmax⟩ := h
    rw [EvictorAt.next]
    split_ifs with hlt
    · exact ⟨hmin, hmax⟩
    · change lastPass + 60000 ≤ clock
      omega
  | timedOut =>
    cases stopFlag with
    | false => exact h
    | true => rfl
  | evicting => exact h
  | leaving => exact h
  | ended => exact h

theorem EvictorAt.Regular.later {lastPass clock clock' : ℤ} {stopFlag : Bool} {point : EvictorAt}
    (hclock : clock ≤ clock') (h : point.Regular lastPass clock stopFlag) :
    point.Regular lastPass clock' stopFlag := by
  cases point <;> simp only [EvictorAt.Regular] at h ⊢ <;> omega

namespace Life

@[simp] theorem notify_stopFlag (s : Life) : s.notify.stopFlag = s.stopFlag := by
  unfold notify
  split <;> rfl

@[simp] theorem notify_clock (s : Life) : s.notify.clock = s.clock := by
  unfold notify
  split <;> rfl

@[simp] theorem notify_seen (s : Life) : s.notify.seen = s.seen := by
  unfold notify
  split <;> rfl

structure Regular (s : Life) : Prop where
  point : s.evictor.Regular s.lastPass s.clock s.stopFlag
  flag : s.stopFlag = true ↔ s.destructor ≠ .running
  joined : s.destructor = .destroyed → s.evictor = .ended
  since_le : s.since ≤ s.clock
  lastPass_le : s.lastPass ≤ s.clock

theorem regular_fresh (clock : ℤ) : (fresh clock).Regular :=
  ⟨trivial, by simp [fresh], by simp [fresh], le_refl _, le_refl _⟩

variable {s : Life} {event : LifeEvent}

/-- The thread moves while the destructor has not returned. -/
theorem Regular.moveTo (hs : s.Regular) (hrunning : s.evictor ≠ .ended) {point : EvictorAt}
    (hpoint : point.Regular s.lastPass s.clock s.stopFlag) : (s.moveTo point).Regular :=
  ⟨hpoint, hs.flag, fun hdestroyed => absurd (hs.joined hdestroyed) hrunning, le_refl _,
    hs.lastPass_le⟩

theorem Regular.notify (hs : s.Regular) : s.notify.Regular := by
  rw [Life.notify]
  split
  · rename_i deadline hwaiting
    have hpoint := hs.point
    rw [hwaiting] at hpoint
    exact hs.moveTo (by rw [hwaiting]; simp) hpoint
  · exact hs

/-- The thread moves on by itself unless it waits, evicts or has ended. -/
theorem of_enabled_evictor (h : s.enabled .evictor = true) :
    (∀ deadline, s.evictor ≠ .waiting deadline) ∧ s.evictor ≠ .evicting ∧ s.evictor ≠ .ended := by
  refine ⟨fun deadline hat => ?_, fun hat => ?_, fun hat => ?_⟩ <;>
    · rw [enabled, hat] at h
      cases h

theorem Regular.pass (hs : s.Regular) (hevicting : s.evictor = .evicting) (order : IterOrder)
    (now : ℤ) : (step (.pass order now) s).Regular :=
  ⟨trivial, hs.flag, fun hdestroyed => absurd (hevicting.symm.trans (hs.joined hdestroyed)) nofun,
    le_refl _, le_refl _⟩

theorem Regular.destroy (hs : s.Regular) (h : s.enabled .destroy = true) :
    (step .destroy s).Regular := by
  rw [step]
  rw [enabled] at h
  cases hat : s.destructor with
  | running =>
    have hpoint : s.evictor.Regular s.lastPass s.clock true := by
      have hpoint := hs.point
      cases hevictor : s.evictor <;> rw [hevictor] at hpoint <;> first | exact hpoint | rfl
    exact ⟨hpoint, by simp, by simp, hs.since_le, hs.lastPass_le⟩
  | notifying =>
    have hn := hs.notify
    have hflag : s.stopFlag = true := hs.flag.mpr (by rw [hat]; simp)
    exact ⟨hn.point, by simp [hflag], by simp, hn.since_le, hn.lastPass_le⟩
  | joining =>
    rw [hat] at h
    have hflag : s.stopFlag = true := hs.flag.mpr (by rw [hat]; simp)
    exact ⟨hs.point, by simp [hflag], fun _ => of_decide_eq_true h, hs.since_le, hs.lastPass_le⟩
  | destroyed =>
    rw [hat] at h
    cases h

theorem Regular.step (hs : s.Regular) (h : s.enabled event = true) :
    (Life.step event s).Regular := by
  cases event with
  | evictor => exact hs.moveTo (of_enabled_evictor h).2.2 (hs.point.next hs.lastPass_le)
  | pass order now => exact hs.pass (of_decide_eq_true h) order now
  | wake => exact hs.notify
  | tick millis =>
    have hlater : s.clock ≤ s.clock + millis := by omega
    exact ⟨hs.point.later hlater, hs.flag, hs.joined, hs.since_le.trans hlater,
      hs.lastPass_le.trans hlater⟩
  | claim packetHash now => exact ⟨hs.point, hs.flag, hs.joined, hs.since_le, hs.lastPass_le⟩
  | clear => exact ⟨hs.point, hs.flag, hs.joined, hs.since_le, hs.lastPass_le⟩
  | destroy => exact hs.destroy h

/-- Every state that the service reaches. -/
theorem regular_run {clock : ℤ} {events : List LifeEvent} (hevents : (fresh clock).Takes events) :
    ((fresh clock).run events).Regular :=
  hevents.invariant (fun _ _ hs h => hs.step h) (regular_fresh clock)

theorem stopFlag_step (hstop : s.stopFlag = true) : (Life.step event s).stopFlag = true := by
  cases event with
  | wake => exact (notify_stopFlag s).trans hstop
  | destroy =>
    rw [Life.step]
    cases s.destructor with
    | running => rfl
    | notifying => exact (notify_stopFlag s).trans hstop
    | joining => exact hstop
    | destroyed => exact hstop
  | _ => exact hstop

theorem stepsLeft_notify (s : Life) : s.notify.evictor.stepsLeft ≤ s.evictor.stepsLeft := by
  unfold notify
  split
  · rename_i deadline hwaiting
    rw [hwaiting]
    exact Nat.le_succ 3
  · exact le_refl _

/-- Once the flag is raised every step of the thread is one of those that were left. -/
theorem stepsLeft_step (hstop : s.stopFlag = true) (h : s.enabled event = true) :
    event.steps + (Life.step event s).evictor.stepsLeft ≤ s.evictor.stepsLeft := by
  cases event with
  | evictor =>
    obtain ⟨hawake, hnew, hrunning⟩ := of_enabled_evictor h
    change 1 + (s.evictor.next s.clock s.stopFlag).stepsLeft ≤ _
    rw [hstop]
    cases hat : s.evictor with
    | relocking deadline =>
      rw [EvictorAt.next]
      split_ifs <;> exact le_refl 3
    | waiting deadline => exact absurd hat (hawake deadline)
    | evicting => exact absurd hat hnew
    | ended => exact absurd hat hrunning
    | _ => exact le_refl _
  | pass order now =>
    rw [of_decide_eq_true h]
    exact le_refl 2
  | wake =>
    rw [enabled] at h
    cases hat : s.evictor with
    | waiting deadline =>
      change 1 + s.notify.evictor.stepsLeft ≤ 4
      rw [notify, hat]
      exact le_refl 4
    | _ => rw [hat] at h; cases h
  | destroy =>
    change 0 + _ ≤ _
    rw [Nat.zero_add, Life.step]
    cases s.destructor with
    | notifying => exact stepsLeft_notify s
    | _ => exact le_refl _
  | _ => exact (Nat.zero_add _).le

theorem notify_evicting : s.notify.evictor = .evicting ↔ s.evictor = .evicting := by
  unfold notify
  split
  · rename_i deadline hwaiting
    rw [hwaiting]
    exact ⟨nofun, nofun⟩
  · exact Iff.rfl

/-- Only a thread that was about to evict when the flag was raised evicts once more. -/
theorem passes_step (hstop : s.stopFlag = true) (h : s.enabled event = true) :
    event.passes + (if (Life.step event s).evictor = .evicting then 1 else 0) ≤
      if s.evictor = .evicting then 1 else 0 := by
  cases event with
  | evictor =>
    obtain ⟨hawake, hnew, hrunning⟩ := of_enabled_evictor h
    change 0 + (if s.evictor.next s.clock s.stopFlag = .evicting then 1 else 0) ≤ _
    rw [hstop]
    cases hat : s.evictor with
    | relocking deadline =>
      rw [EvictorAt.next]
      split_ifs <;> simp
    | waiting deadline => exact absurd hat (hawake deadline)
    | evicting => exact absurd hat hnew
    | ended => exact absurd hat hrunning
    | _ => exact le_refl 0
  | pass order now =>
    rw [of_decide_eq_true h]
    exact le_refl 1
  | wake =>
    change 0 + (if s.notify.evictor = .evicting then 1 else 0) ≤ _
    simp only [notify_evicting, Nat.zero_add, le_refl]
  | destroy =>
    change 0 + _ ≤ _
    rw [Nat.zero_add, Life.step]
    cases s.destructor with
    | notifying =>
      change (if s.notify.evictor = .evicting then 1 else 0) ≤ _
      simp only [notify_evicting, le_refl]
    | _ => exact le_refl _
  | _ => exact (Nat.zero_add _).le

/-- The notification came while the thread, which had seen the flag down, was going to sleep. -/
def Overslept (deadline : ℤ) (s : Life) : Prop :=
  s.clock < deadline → s.destructor = .joining ∧
    (s.evictor = .blocking deadline ∨ s.evictor = .waiting deadline)

/-- Unless the wait ends early for no reason, nothing but its deadline ends it. -/
theorem Overslept.step {deadline : ℤ} (hs : s.Overslept deadline) (h : s.enabled event = true)
    (htime : event.OnTime s) : (Life.step event s).Overslept deadline := by
  intro hlt
  cases event with
  | evictor =>
    obtain ⟨hjoining, hat | hat⟩ := hs hlt
    · exact ⟨hjoining, Or.inr (by rw [Life.step, moveTo, hat, EvictorAt.next])⟩
    · rw [enabled, hat] at h
      cases h
  | pass order now =>
    obtain ⟨hjoining, hat | hat⟩ := hs hlt
    · exact absurd ((of_decide_eq_true h).symm.trans hat) nofun
    · exact absurd ((of_decide_eq_true h).symm.trans hat) nofun
  | wake =>
    rw [Life.step, notify_clock] at hlt
    obtain ⟨hjoining, hat | hat⟩ := hs hlt
    · rw [enabled, hat] at h
      cases h
    · exact absurd (htime deadline hat) (not_le.mpr hlt)
  | tick millis =>
    change s.clock + millis < deadline at hlt
    exact hs (by omega)
  | claim packetHash now => exact hs hlt
  | clear => exact hs hlt
  | destroy =>
    have hbefore : s.clock < deadline := by
      rw [Life.step] at hlt
      cases hat : s.destructor with
      | notifying => rw [hat] at hlt; exact (notify_clock s) ▸ hlt
      | _ => rw [hat] at hlt; exact hlt
    obtain ⟨hjoining, hat⟩ := hs hbefore
    rw [enabled, hjoining] at h
    rcases hat with hat | hat <;> rw [hat] at h <;> cases h

/-- Time has not passed the thread by. -/
def Punctual (lag : ℕ) (s : Life) : Prop :=
  s.evictor ≠ .ended → s.clock ≤ s.evictor.release s.since + lag

theorem punctual_fresh (lag : ℕ) (clock : ℤ) : (fresh clock).Punctual lag := fun _ => by
  change clock ≤ clock + lag
  omega

theorem Punctual.moveTo {lag : ℕ} (point : EvictorAt) (s : Life) : (s.moveTo point).Punctual lag := by
  intro _
  cases point <;> simp only [Life.moveTo, EvictorAt.release] <;> omega

theorem Punctual.notify {lag : ℕ} (hs : s.Punctual lag) : s.notify.Punctual lag := by
  unfold Life.notify
  split
  · exact .moveTo _ s
  · exact hs

theorem Punctual.step {lag : ℕ} (hs : s.Punctual lag) (htime : event.Prompt lag s) :
    (Life.step event s).Punctual lag := by
  cases event with
  | evictor => exact .moveTo _ s
  | pass order now => exact .moveTo _ s
  | wake => exact hs.notify
  | tick millis => exact htime
  | claim packetHash now => exact hs
  | clear => exact hs
  | destroy =>
    rw [Life.step]
    cases s.destructor with
    | notifying => exact hs.notify
    | _ => exact hs

/-- The latest time at which the thread has ended, once the flag is up. -/
def endBy (lag : ℕ) (s : Life) : ℤ :=
  match s.evictor with
  | .waiting deadline => max s.since deadline + 4 * lag
  | .blocking deadline => max (s.since + lag) deadline + 4 * lag
  | point => s.since + point.stepsLeft * lag

theorem endBy_notify {lag : ℕ} (hs : s.Punctual lag) : s.notify.endBy lag ≤ s.endBy lag := by
  unfold notify
  split
  · rename_i deadline hat
    have hclock := hs (by rw [hat]; exact nofun)
    simp only [hat, EvictorAt.release] at hclock
    simp only [endBy, hat, moveTo, EvictorAt.stepsLeft]
    push_cast
    omega
  · exact le_refl _

/-- No step puts the end off. -/
theorem endBy_step {lag : ℕ} (hstop : s.stopFlag = true) (hs : s.Punctual lag)
    (h : s.enabled event = true) : (Life.step event s).endBy lag ≤ s.endBy lag := by
  cases event with
  | evictor =>
    obtain ⟨hawake, hnew, hrunning⟩ := of_enabled_evictor h
    have hclock := hs hrunning
    change (s.moveTo (s.evictor.next s.clock s.stopFlag)).endBy lag ≤ _
    rw [hstop]
    cases hat : s.evictor with
    | relocking deadline =>
      rw [hat] at hclock
      rw [EvictorAt.next]
      split_ifs <;>
        simp only [endBy, hat, moveTo, EvictorAt.stepsLeft, EvictorAt.release] at hclock ⊢ <;>
        push_cast <;> omega
    | waiting deadline => exact absurd hat (hawake deadline)
    | evicting => exact absurd hat hnew
    | ended => exact absurd hat hrunning
    | _ =>
      rw [hat] at hclock
      simp only [endBy, hat, moveTo, EvictorAt.next, EvictorAt.stepsLeft, EvictorAt.release,
        if_true] at hclock ⊢
      push_cast
      omega
  | pass order now =>
    have hat : s.evictor = .evicting := of_decide_eq_true h
    have hclock := hs (by rw [hat]; exact nofun)
    simp only [hat, EvictorAt.release] at hclock
    simp only [endBy, hat, Life.step, moveTo, EvictorAt.stepsLeft]
    push_cast
    omega
  | wake => exact endBy_notify hs
  | destroy =>
    rw [Life.step]
    cases s.destructor with
    | notifying => exact endBy_notify hs
    | _ => exact le_refl _
  | _ => exact le_refl _

/-- A thread that has not ended is not late. -/
theorem Punctual.clock_le_endBy {lag : ℕ} (hs : s.Punctual lag) (hrunning : s.evictor ≠ .ended) :
    s.clock ≤ s.endBy lag := by
  have hclock := hs hrunning
  unfold endBy
  cases hat : s.evictor with
  | ended => exact absurd hat hrunning
  | _ =>
    simp only [hat, EvictorAt.release] at hclock
    simp only [EvictorAt.stepsLeft]
    push_cast
    omega

theorem endBy_le {lag : ℕ} (hs : s.Regular) : s.endBy lag ≤ s.clock + 60000 + 5 * lag := by
  have hsince := hs.since_le
  have hpoint := hs.point
  unfold endBy
  cases hat : s.evictor <;> rw [hat] at hpoint <;>
    simp only [EvictorAt.Regular, EvictorAt.stepsLeft] at hpoint ⊢ <;> push_cast <;> omega

/-- Unless the thread is going to sleep, a notification ends it at once. -/
theorem endBy_notified {lag : ℕ} (hs : s.Regular) (hnotifying : s.destructor = .notifying)
    (hawake : ∀ deadline, s.evictor ≠ .blocking deadline) :
    (Life.step .destroy s).endBy lag ≤ s.clock + 4 * lag := by
  have hsince := hs.since_le
  rw [Life.step, hnotifying]
  change s.notify.endBy lag ≤ _
  unfold notify
  cases hat : s.evictor with
  | blocking deadline => exact absurd hat (hawake deadline)
  | waiting deadline =>
    simp only [endBy, moveTo, EvictorAt.stepsLeft]
    push_cast
    omega
  | _ =>
    simp only [endBy, hat, EvictorAt.stepsLeft]
    push_cast
    omega

section Runs

open Sequential

variable {events : List LifeEvent}

theorem clock_le_endBy_run {lag : ℕ} (hstop : s.stopFlag = true) (hs : s.Punctual lag)
    (hrun : s.TakesPromptly lag events)
    (hrunning : (s.run events).evictor ≠ .ended) :
    (s.run events).clock ≤ s.endBy lag := by
  have hstep : ∀ (event : LifeEvent) (t : Life),
      t.stopFlag = true ∧ t.Punctual lag ∧ t.endBy lag ≤ s.endBy lag →
      t.enabled event ∧ event.Prompt lag t → (Life.step event t).stopFlag = true ∧
        (Life.step event t).Punctual lag ∧ (Life.step event t).endBy lag ≤ s.endBy lag := by
    rintro event t ⟨hstop, hpunctual, hle⟩ ⟨h, htime⟩
    exact ⟨stopFlag_step hstop, hpunctual.step htime, (endBy_step hstop hpunctual h).trans hle⟩
  have hend := hrun.invariant hstep ⟨hstop, hs, le_refl _⟩
  exact (hend.2.1.clock_le_endBy hrunning).trans hend.2.2

/-- The steps that thread and destructor have left. -/
def stepsLeft (s : Life) : ℕ := s.evictor.stepsLeft + s.destructor.stepsLeft

/-- Once the flag is up, the thread can go on, if need be at the end of a wait, or the destructor can. -/
theorem exists_progress (hs : s.Regular) (hstop : s.stopFlag = true)
    (hleft : s.destructor ≠ .destroyed) :
    ∃ later, s.TakesOnTime later ∧
      (s.run later).stepsLeft < s.stepsLeft := by
  have hmoves : ∀ event, s.enabled event = true → event.steps = 1 → event.OnTime s →
      (Life.step event s).destructor = s.destructor →
      ∃ later, s.TakesOnTime later ∧
        (s.run later).stepsLeft < s.stepsLeft := by
    intro event h hsteps htime hsame
    have hpays := stepsLeft_step hstop h
    refine ⟨[event], ⟨⟨h, htime⟩, trivial⟩, ?_⟩
    simp only [after_cons, after_nil, stepsLeft, hsame]
    omega
  cases hat : s.evictor with
  | waiting deadline =>
    -- time passes until the deadline
    let later := [LifeEvent.tick (deadline - s.clock).toNat, .wake]
    have hdue : deadline ≤ s.clock + ((deadline - s.clock).toNat : ℤ) := by omega
    refine ⟨later, ⟨⟨rfl, trivial⟩, ⟨?_, ?_⟩, trivial⟩, ?_⟩
    · simp only [enabled, Life.step, hat]
    · intro deadline' hwaiting
      obtain rfl := EvictorAt.waiting.inj (hat.symm.trans hwaiting)
      exact hdue
    · simp only [later, after_cons, after_nil, stepsLeft, Life.step, notify, hat, moveTo,
        EvictorAt.stepsLeft]
      omega
  | evicting =>
    have h : s.enabled (.pass .sorted 0) = true := by simp only [enabled, hat, decide_true]
    exact hmoves (.pass .sorted 0) h rfl trivial rfl
  | ended =>
    refine ⟨[.destroy], ⟨⟨?_, trivial⟩, trivial⟩, ?_⟩
    · cases hdestructor : s.destructor with
      | destroyed => exact absurd hdestructor hleft
      | _ => simp only [enabled, hdestructor, hat, decide_true]
    · cases hdestructor : s.destructor with
      | destroyed => exact absurd hdestructor hleft
      | running => exact absurd hdestructor (hs.flag.mp hstop)
      | _ => simp [stepsLeft, Life.step, notify, hdestructor, hat, DestructorAt.stepsLeft]
  | _ =>
    have h : s.enabled .evictor = true := by simp only [enabled, hat]
    exact hmoves .evictor h rfl trivial rfl

/-- Step by step the destructor gets to its end. -/
theorem exists_destroyed (hs : s.Regular) (hstop : s.stopFlag = true) :
    ∃ later, s.TakesOnTime later ∧
      (s.run later).destructor = .destroyed := by
  have hprogress : ∀ t : Life, t.Regular ∧ t.stopFlag = true → ¬ t.destructor = .destroyed →
      ∃ later, t.TakesOnTime later ∧
        ((t.run later).Regular ∧ (t.run later).stopFlag = true) ∧
        (t.run later).stepsLeft < t.stepsLeft := by
    intro t ht hleft
    obtain ⟨later, hlater, hlt⟩ := exists_progress ht.1 ht.2 hleft
    refine ⟨later, hlater, ?_, hlt⟩
    have hstep : ∀ (event : LifeEvent) (t : Life), t.Regular ∧ t.stopFlag = true →
        t.enabled event ∧ event.OnTime t → (Life.step event t).Regular ∧
          (Life.step event t).stopFlag = true :=
      fun event t ht hok => ⟨ht.1.step hok.1, stopFlag_step ht.2⟩
    exact hlater.invariant hstep ht
  exact exists_run_to stepsLeft hprogress ⟨hs, hstop⟩

/-- Where a run has got to by the deadline of a lost notification. -/
theorem overslept_run {deadline : ℤ} (hs : s.Overslept deadline)
    (hrun : s.TakesOnTime events) :
    (s.run events).Overslept deadline := by
  have hstep : ∀ (event : LifeEvent) (t : Life), t.Overslept deadline →
      t.enabled event ∧ event.OnTime t → (Life.step event t).Overslept deadline :=
    fun event t ht hok => ht.step hok.1 hok.2
  exact hrun.invariant hstep hs

/-- The destructor returns only when the thread has ended. That takes at most five more steps and one
more pass, and a minute besides; nothing besides if the thread is not just going to sleep when it is
notified. If it is, it has missed the flag and sleeps until its deadline. -/
theorem destructor_joins (clock : ℤ) (events : List LifeEvent) (s : Life)
    (hevents : (fresh clock).Takes events) (hs : (fresh clock).run events = s) :
    (s.destructor = .destroyed → s.evictor = .ended) ∧
    (s.stopFlag = true →
      (∀ later, s.Takes later →
        (later.map LifeEvent.steps).sum ≤ 5 ∧ (later.map LifeEvent.passes).sum ≤ 1) ∧
      ∃ later, s.TakesOnTime later ∧ (s.run later).destructor = .destroyed) ∧
    (∀ lag, (fresh clock).TakesPromptly lag events →
      (s.stopFlag = true → ∀ later, s.TakesPromptly lag later →
        (s.run later).evictor ≠ .ended → (s.run later).clock ≤ s.clock + 60000 + 5 * lag) ∧
      (s.destructor = .notifying → (∀ deadline, s.evictor ≠ .blocking deadline) →
        ∀ later, (step .destroy s).TakesPromptly lag later →
          ((step .destroy s).run later).evictor ≠ .ended →
            ((step .destroy s).run later).clock ≤ s.clock + 4 * lag)) ∧
    ∀ deadline, s.destructor = .notifying → s.evictor = .blocking deadline →
      ∀ later, (step .destroy s).TakesOnTime later →
        ((step .destroy s).run later).clock < deadline →
          ((step .destroy s).run later).destructor = .joining ∧
            ((step .destroy s).run later).evictor ≠ .ended := by
  have hregular : s.Regular := hs ▸ regular_run hevents
  have hpunctual : ∀ lag, (fresh clock).TakesPromptly lag events → s.Punctual lag := by
    intro lag hprompt
    have hstep : ∀ (event : LifeEvent) (t : Life), t.Punctual lag →
        t.enabled event ∧ event.Prompt lag t → (Life.step event t).Punctual lag :=
      fun event t ht hok => ht.step hok.2
    exact hs ▸ hprompt.invariant hstep (punctual_fresh lag clock)
  have hkeeps : ∀ (event : LifeEvent) (t : Life), t.stopFlag = true → t.enabled event = true →
      (step event t).stopFlag = true := fun event t hstop _ => stopFlag_step hstop
  refine ⟨hregular.joined, fun hstop => ⟨fun later hlater => ⟨?_, ?_⟩, ?_⟩,
    fun lag hprompt => ⟨?_, ?_⟩, ?_⟩
  · have hsum := hlater.sum_le LifeEvent.steps (fun t => t.evictor.stepsLeft) hkeeps
      (fun event t hstop h => stepsLeft_step hstop h) hstop
    have hfive := s.evictor.stepsLeft_le
    omega
  · have hsum := hlater.sum_le LifeEvent.passes (fun t => if t.evictor = .evicting then 1 else 0) hkeeps
      (fun event t hstop h => passes_step hstop h) hstop
    split_ifs at hsum <;> omega
  · exact exists_destroyed hregular hstop
  · intro hstop later hlater hrunning
    exact (clock_le_endBy_run hstop (hpunctual lag hprompt) hlater hrunning).trans (endBy_le hregular)
  · intro hnotifying hawake later hlater hrunning
    have hstop : (step .destroy s).stopFlag = true :=
      stopFlag_step (hregular.flag.mpr (by rw [hnotifying]; exact nofun))
    have hpunctual' : (step .destroy s).Punctual lag := (hpunctual lag hprompt).step trivial
    exact (clock_le_endBy_run hstop hpunctual' hlater hrunning).trans
      (endBy_notified hregular hnotifying hawake)
  · intro deadline hnotifying hblocking later hlater hlt
    have hslept : (step .destroy s).Overslept deadline := by
      intro _
      simp only [step, hnotifying, notify, hblocking, true_or, and_self]
    obtain ⟨hjoining, hat | hat⟩ := overslept_run hslept hlater hlt
    · exact ⟨hjoining, by rw [hat]; exact nofun⟩
    · exact ⟨hjoining, by rw [hat]; exact nofun⟩

/-- The thread has seen the flag down and goes to sleep, and the flag is raised. -/
def fallingAsleep : List LifeEvent := [.evictor, .evictor, .evictor, .evictor, .destroy]

/-- It misses the notification: a millisecond before its deadline, the destructor still waits for it. -/
theorem destructor_joins_falling_asleep :
    (((fresh 0).run fallingAsleep).evictor = .blocking 60000 ∧
      ∃ later, ((fresh 0).run fallingAsleep).TakesOnTime later ∧
        (((fresh 0).run fallingAsleep).run later).destructor = .destroyed) ∧
    ((step .destroy ((fresh 0).run fallingAsleep)).run [.evictor, .tick 59999]).destructor = .joining ∧
      ((step .destroy ((fresh 0).run fallingAsleep)).run [.evictor, .tick 59999]).evictor ≠ .ended := by
  have hevents : (fresh 0).Takes fallingAsleep := ⟨rfl, rfl, rfl, rfl, rfl, trivial⟩
  have hlater : (step .destroy ((fresh 0).run fallingAsleep)).TakesOnTime [.evictor, .tick 59999] :=
    ⟨⟨rfl, trivial⟩, ⟨rfl, trivial⟩, trivial⟩
  obtain ⟨-, hstopped, -, hlost⟩ := destructor_joins 0 fallingAsleep _ hevents rfl
  exact ⟨⟨rfl, (hstopped rfl).2⟩, hlost 60000 rfl rfl _ hlater (by decide)⟩

end Runs

end Life

end UpiMesh
