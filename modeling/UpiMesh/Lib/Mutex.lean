import Mathlib.Data.List.Basic
import UpiMesh.Lib.Protocol

/-!
# Recursive mutexes

A `Monitor` is a state together with a recursive mutex. A `Guarded` program locks and unlocks it,
acts on the state, and may take free steps that need no lock. `discipline` is the protocol of
programs that perform their actions under the lock, follow a protocol of their own there, and give
the lock back only when that protocol is idle. Programs that keep to it exclude each other: whoever
is not idle owns the mutex.
-/

namespace Concurrent

inductive Guarded (ι B U : Type) : Type where
  | lock (i : ι)
  | unlock (i : ι)
  | act (b : B)
  | free (u : U)

/-- The owner of the mutex with the number of further times it has locked it. -/
structure Monitor (ι S : Type) where
  owner : Option (ι × ℕ)
  data : S

namespace Guarded

variable {ι B U S : Type} {RB : B → Type} {RU : U → Type}

@[reducible] def Response (RB : B → Type) (RU : U → Type) : Guarded ι B U → Type
  | .lock _ => Unit
  | .unlock _ => Unit
  | .act b => RB b
  | .free u => RU u

def acquire (i : ι) : Option (ι × ℕ) → Option (ι × ℕ)
  | none => some (i, 0)
  | some (j, n) => some (j, n + 1)

def release : Option (ι × ℕ) → Option (ι × ℕ)
  | some (j, n + 1) => some (j, n)
  | _ => none

def exec (execB : (b : B) → S → RB b × S) (execU : (u : U) → S → RU u × S) :
    (a : Guarded ι B U) → Monitor ι S → a.Response RB RU × Monitor ι S
  | .lock i, s => ((), { s with owner := acquire i s.owner })
  | .unlock _, s => ((), { s with owner := release s.owner })
  | .act b, s => ((execB b s.data).1, { s with data := (execB b s.data).2 })
  | .free u, s => ((execU u s.data).1, { s with data := (execU u s.data).2 })

/-- Locking waits until no other thread owns the mutex. -/
def Enabled (_ : ι) : Guarded ι B U → Monitor ι S → Prop
  | .lock i, s => ∀ j n, s.owner = some (j, n) → j = i
  | _, _ => True

instance Enabled.decidable [DecidableEq ι] (k : ι) :
    (a : Guarded ι B U) → (s : Monitor ι S) → Decidable (Enabled k a s)
  | .lock _, ⟨none, _⟩ => isTrue fun _ _ h => nomatch h
  | .lock i, ⟨some (j, n), _⟩ =>
    if h : j = i then isTrue fun _ _ hk => (Prod.mk.inj (Option.some.inj hk)).1 ▸ h
    else isFalse fun hk => h (hk j n rfl)
  | .unlock _, _ => isTrue trivial
  | .act _, _ => isTrue trivial
  | .free _, _ => isTrue trivial

/-- A lock guard around a block. -/
def locked {α : Type} (i : ι) (p : Program (Guarded ι B U) (Response RB RU) α) :
    Program (Guarded ι B U) (Response RB RU) α := do
  let _ ← (Program.call (.lock i) : Program (Guarded ι B U) (Response RB RU) _)
  let r ← p
  let _ ← (Program.call (.unlock i) : Program (Guarded ι B U) (Response RB RU) _)
  pure r

end Guarded

/-- A thread, how often it has locked the mutex, and where it stands in its own protocol. -/
structure Holding (ι τ : Type) where
  thread : ι
  depth : ℕ
  phase : τ

namespace Guarded

variable {ι B U S τ α : Type} {RB : B → Type} {RU : U → Type}

def discipline (P : Protocol B RB τ) (idle : τ) (T : U → Prop) :
    Protocol (Guarded ι B U) (Response RB RU) (Holding ι τ) where
  allows h
    | .lock i => i = h.thread
    | .unlock i => i = h.thread ∧ 0 < h.depth ∧ (h.depth = 1 → h.phase = idle)
    | .act b => 0 < h.depth ∧ P.allows h.phase b
    | .free u => T u
  expects
    | .act b, r => P.expects b r
    | _, _ => True
  after h
    | .lock _, _ => { h with depth := h.depth + 1 }
    | .unlock _, _ => { h with depth := h.depth - 1 }
    | .act b, r => { h with phase := P.after h.phase b r }
    | .free _, _ => h

/-- The thread `i` holds the mutex `d` times, and its phase and the value satisfy `Q`. -/
def At (i : ι) (d : ℕ) (Q : τ → α → Prop) (g : Holding ι τ) (x : α) : Prop :=
  ∃ t, g = ⟨i, d, t⟩ ∧ Q t x

theorem locked_follows {P : Protocol B RB τ} {idle : τ} {T : U → Prop} {i : ι} {d : ℕ} {t : τ}
    {p : Program (Guarded ι B U) (Response RB RU) α} {Q : τ → α → Prop}
    (hp : p.Follows (discipline P idle T) (At i (d + 1) Q) ⟨i, d + 1, t⟩)
    (hidle : d = 0 → ∀ t x, Q t x → t = idle) :
    (locked i p).Follows (discipline P idle T) (At i d Q) ⟨i, d, t⟩ := by
  refine ⟨rfl, fun _ _ => hp.bind fun g x hx => ?_⟩
  obtain ⟨t', rfl, hx⟩ := hx
  refine ⟨⟨rfl, Nat.succ_pos d, fun h => ?_⟩, fun _ _ => ⟨t', rfl, hx⟩⟩
  exact hidle (Nat.succ.inj h) t' x hx

/-- The mutex is held by the thread whose protocol is under way; `I` relates the state to its
phase. -/
structure Exclusive (I : S → τ → Prop) (idle : τ) (s : Monitor ι S) (γ : ι → Holding ι τ) :
    Prop where
  thread : ∀ i, (γ i).thread = i
  held : ∀ i n, s.owner = some (i, n) → (γ i).depth = n + 1 ∧ I s.data (γ i).phase
  others : ∀ i, (∀ n, s.owner ≠ some (i, n)) → (γ i).depth = 0 ∧ (γ i).phase = idle
  free : s.owner = none → I s.data idle

namespace Exclusive

variable {I : S → τ → Prop} {idle : τ} {s : Monitor ι S} {γ : ι → Holding ι τ}

theorem owner (h : Exclusive I idle s γ) {i : ι} (hi : 0 < (γ i).depth) :
    ∃ n, s.owner = some (i, n) ∧ (γ i).depth = n + 1 := by
  by_contra hnot
  push Not at hnot
  have hother : ∀ n, s.owner ≠ some (i, n) := fun n hn => hnot n hn (h.held i n hn).1
  obtain ⟨hdepth, -⟩ := h.others i hother
  omega

/-- Two threads that have locked the mutex are one. -/
theorem unique (h : Exclusive I idle s γ) {i j : ι} (hi : 0 < (γ i).depth)
    (hj : 0 < (γ j).depth) : i = j := by
  obtain ⟨_, hni, -⟩ := h.owner hi
  obtain ⟨_, hnj, -⟩ := h.owner hj
  rw [hni] at hnj
  exact (Prod.mk.inj (Option.some.inj hnj)).1

theorem depth_pos (h : Exclusive I idle s γ) {i : ι} (hi : (γ i).phase ≠ idle) :
    0 < (γ i).depth := by
  by_contra hnot
  refine hi (h.others i fun n hn => ?_).2
  obtain ⟨hdepth, -⟩ := h.held i n hn
  omega

/-- While a thread is not idle, nobody else gets to a step that concerns the mutex. -/
theorem alone {RB : B → Type} {RU : U → Type} {P : Protocol B RB τ} {T : U → Prop}
    (h : Exclusive I idle s γ) {i j : ι} (hi : (γ i).phase ≠ idle) {a : Guarded ι B U}
    (hallows : (discipline P idle T :
      Protocol (Guarded ι B U) (Response RB RU) (Holding ι τ)).allows (γ j) a) (hok : Enabled j a s)
    (hfree : ∀ u, a ≠ .free u) : j = i := by
  have hpos := h.depth_pos hi
  cases a with
  | lock k =>
    obtain rfl : k = j := hallows.trans (h.thread j)
    obtain ⟨n, howner, -⟩ := h.owner hpos
    exact (hok i n howner).symm
  | unlock k => exact h.unique hallows.2.1 hpos
  | act b => exact h.unique hallows.1 hpos
  | free u => exact absurd rfl (hfree u)

section Steps

variable [DecidableEq ι]

/-- A step of thread `i` that leaves the mutex free or its own. -/
theorem of_owner (h : Exclusive I idle s γ) {i : ι} {owner : Option (ι × ℕ)} {data : S} {d : ℕ}
    {t : τ} (hi : ∀ j n, s.owner = some (j, n) → j = i)
    (hheld : ∀ j n, owner = some (j, n) → j = i ∧ d = n + 1 ∧ I data t)
    (hfree : owner = none → d = 0 ∧ t = idle ∧ I data idle) :
    Exclusive I idle ⟨owner, data⟩
      (Function.update γ i { γ i with depth := d, phase := t }) := by
  refine ⟨fun j => ?_, fun j n hj => ?_, fun j hj => ?_, fun hnone => (hfree hnone).2.2⟩
  · by_cases hji : j = i
    · subst hji
      rw [Function.update_self]
      exact h.thread j
    · rw [Function.update_of_ne hji]
      exact h.thread j
  · obtain ⟨rfl, hg⟩ := hheld j n hj
    rwa [Function.update_self]
  · by_cases hji : j = i
    · subst hji
      rw [Function.update_self]
      cases howner : owner with
      | none => exact ⟨(hfree howner).1, (hfree howner).2.1⟩
      | some o =>
        obtain ⟨k, n⟩ := o
        obtain ⟨rfl, -⟩ := hheld k n howner
        exact absurd howner (hj n)
    · rw [Function.update_of_ne hji]
      exact h.others j fun n hn => hji (hi j n hn)

theorem lock (h : Exclusive I idle s γ) {i : ι} (hi : ∀ j n, s.owner = some (j, n) → j = i) :
    Exclusive I idle ⟨acquire i s.owner, s.data⟩
      (Function.update γ i { γ i with depth := (γ i).depth + 1 }) := by
  obtain ⟨owner, data⟩ := s
  cases owner with
  | none =>
    obtain ⟨hdepth, hphase⟩ := h.others i (by simp)
    apply h.of_owner hi
    · intro j n hj
      obtain ⟨rfl, rfl⟩ := Prod.mk.inj (Option.some.inj hj)
      refine ⟨rfl, by simp [hdepth], ?_⟩
      simp only [hphase]
      exact h.free rfl
    · intro hnone
      cases hnone
  | some o =>
    obtain ⟨j, n⟩ := o
    obtain rfl := hi j n rfl
    obtain ⟨hdepth, hI⟩ := h.held j n rfl
    apply h.of_owner hi
    · intro k m hk
      obtain ⟨rfl, rfl⟩ := Prod.mk.inj (Option.some.inj hk)
      exact ⟨rfl, by simp [hdepth], hI⟩
    · intro hnone
      cases hnone

theorem unlock (h : Exclusive I idle s γ) {i : ι} (hpos : 0 < (γ i).depth)
    (hidle : (γ i).depth = 1 → (γ i).phase = idle) :
    Exclusive I idle ⟨release s.owner, s.data⟩
      (Function.update γ i { γ i with depth := (γ i).depth - 1 }) := by
  obtain ⟨n, howner, hdepth⟩ := h.owner hpos
  obtain ⟨-, hI⟩ := h.held i n howner
  have hi : ∀ j m, s.owner = some (j, m) → j = i := by
    intro j m hj
    rw [howner] at hj
    exact (Prod.mk.inj (Option.some.inj hj)).1.symm
  rw [howner]
  cases n with
  | zero =>
    apply h.of_owner hi
    · intro j m hj
      cases hj
    · intro _
      refine ⟨by simp [hdepth], hidle hdepth, ?_⟩
      rw [← hidle hdepth]
      exact hI
  | succ n =>
    apply h.of_owner hi
    · intro j m hj
      obtain ⟨rfl, rfl⟩ := Prod.mk.inj (Option.some.inj hj)
      exact ⟨rfl, by simp [hdepth], hI⟩
    · intro hnone
      cases hnone

theorem act (h : Exclusive I idle s γ) {i : ι} (hpos : 0 < (γ i).depth) {data : S} {phase : τ}
    (hI : I s.data (γ i).phase → I data phase) :
    Exclusive I idle ⟨s.owner, data⟩ (Function.update γ i { γ i with phase := phase }) := by
  obtain ⟨n, howner, hdepth⟩ := h.owner hpos
  have hi : ∀ j m, s.owner = some (j, m) → j = i ∧ m = n := by
    intro j m hj
    rw [howner] at hj
    obtain ⟨rfl, rfl⟩ := Prod.mk.inj (Option.some.inj hj)
    exact ⟨rfl, rfl⟩
  apply h.of_owner fun j m hj => (hi j m hj).1
  · intro j m hj
    obtain ⟨rfl, rfl⟩ := hi j m hj
    exact ⟨rfl, hdepth, hI (h.held _ _ hj).2⟩
  · intro hnone
    rw [howner] at hnone
    cases hnone

omit [DecidableEq ι] in
theorem free_step (h : Exclusive I idle s γ) {data : S} (hI : ∀ p, I s.data p → I data p) :
    Exclusive I idle ⟨s.owner, data⟩ γ :=
  ⟨h.thread, fun i n hi => ⟨(h.held i n hi).1, hI _ (h.held i n hi).2⟩, h.others,
    fun hnone => hI _ (h.free hnone)⟩

end Steps

end Exclusive

/-- Mutual exclusion: it is enough that the protocol under the lock keeps its own invariant. -/
theorem preserved_exclusive [DecidableEq ι] {execB : (b : B) → S → RB b × S}
    {execU : (u : U) → S → RU u × S} {P : Protocol B RB τ} {idle : τ} {T : U → Prop}
    {I : S → τ → Prop}
    (hact : ∀ b s p, I s p → P.allows p b →
      P.expects b (execB b s).1 ∧ I (execB b s).2 (P.after p b (execB b s).1))
    (hfree : ∀ u s p, T u → I s p → I (execU u s).2 p) :
    Pool.Preserved (exec execB execU) (Enabled (ι := ι)) (discipline P idle T)
      (Exclusive I idle) := by
  refine ⟨fun i a s γ hinv hallows _ => ?_, fun i a s γ hinv hallows hok => ?_⟩
  · cases a with
    | act b =>
      obtain ⟨hpos, hb⟩ := hallows
      obtain ⟨n, howner, -⟩ := hinv.owner hpos
      exact (hact b s.data _ (hinv.held i n howner).2 hb).1
    | _ => exact trivial
  · cases a with
    | lock j =>
      obtain rfl : j = i := hallows.trans (hinv.thread i)
      exact hinv.lock hok
    | unlock j =>
      obtain ⟨-, hpos, hidle⟩ := hallows
      exact hinv.unlock hpos hidle
    | act b =>
      obtain ⟨hpos, hb⟩ := hallows
      exact hinv.act hpos fun hI => (hact b s.data _ hI hb).2
    | free u =>
      change Exclusive I idle _ (Function.update γ i (γ i))
      rw [Function.update_eq_self]
      exact hinv.free_step fun p hp => hfree u s.data p hallows hp

end Guarded
end Concurrent
