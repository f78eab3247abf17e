import UpiMesh.Lib.Mutex

/-!
# Atomic sections

Every component of a shared state is guarded by a mutex of its own, some of them recursive. The code
of a thread locks and unlocks these mutexes and accesses the components. A section is code that locks
one mutex, accesses what it guards, and ends when it has given the mutex back. When every action of a
program is performed by a section, any schedule of the sections is matched by a schedule of the
actions: a thread takes effect when it locks its mutex, and what other threads see of the component
from then on is what the section is going to leave behind.
-/

namespace Concurrent

inductive Locking (ι κ B : Type) : Type where
  | lock (i : ι) (k : κ)
  | unlock (i : ι) (k : κ)
  | access (b : B)

/-- The owners of the mutexes and the components. -/
structure Monitors (ι κ : Type) (D : κ → Type) where
  owner : κ → Option (ι × ℕ)
  data : (k : κ) → D k

/-- What the accesses do, and which mutex guards what they access. -/
structure Guards (κ B : Type) (RB : B → Type) (D : κ → Type) where
  guard : B → κ
  access : (b : B) → D (guard b) → RB b × D (guard b)
  recursive : κ → Prop

namespace Locking

@[reducible] def Response {ι κ B : Type} (RB : B → Type) : Locking ι κ B → Type
  | .lock _ _ => Unit
  | .unlock _ _ => Unit
  | .access b => RB b

variable {ι κ B A α β : Type} {RB : B → Type} {R : A → Type} {D : κ → Type}

/-- Code of a thread. -/
abbrev Code (ι κ : Type) {B : Type} (RB : B → Type) (α : Type) : Type :=
  Program (Locking ι κ B) (Response RB) α

variable (G : Guards κ B RB D)

def exec [DecidableEq κ] :
    (a : Locking ι κ B) → Monitors ι κ D → a.Response RB × Monitors ι κ D
  | .lock i k, s => ((), { s with owner := Function.update s.owner k (Guarded.acquire i (s.owner k)) })
  | .unlock _ k, s => ((), { s with owner := Function.update s.owner k (Guarded.release (s.owner k)) })
  | .access b, s => ((G.access b (s.data (G.guard b))).1,
      { s with data := Function.update s.data (G.guard b) (G.access b (s.data (G.guard b))).2 })

/-- Locking waits until the mutex is free. Its owner may lock it again if it is recursive. -/
def Enabled (_ : ι) : Locking ι κ B → Monitors ι κ D → Prop
  | .lock i k, s => ∀ j n, s.owner k = some (j, n) → j = i ∧ G.recursive k
  | _, _ => True

instance Enabled.decidable [DecidableEq ι] [DecidablePred G.recursive] (h : ι) :
    (a : Locking ι κ B) → (s : Monitors ι κ D) → Decidable (Enabled G h a s)
  | .lock i k, s =>
    match hk : s.owner k with
    | none => isTrue fun _ _ hj => nomatch hk.symm.trans hj
    | some (j, n) =>
      if hj : j = i ∧ G.recursive k then
        isTrue fun _ _ hj' => (Prod.mk.inj (Option.some.inj (hk.symm.trans hj'))).1 ▸ hj
      else isFalse fun henabled => hj (henabled j n hk)
  | .unlock _ _, _ => isTrue trivial
  | .access _, _ => isTrue trivial

/-- Code within a section of thread `i` on mutex `k`, by how often it holds the mutex. -/
def within (i : ι) (k : κ) : Protocol (Locking ι κ B) (Response RB) ℕ where
  allows n
    | .lock j l => 0 < n ∧ j = i ∧ l = k ∧ G.recursive k
    | .unlock j l => 0 < n ∧ j = i ∧ l = k
    | .access b => 0 < n ∧ G.guard b = k
  expects _ _ := True
  after n
    | .lock _ _, _ => n + 1
    | .unlock _ _, _ => n - 1
    | .access _, _ => n

/-- The code locks the mutex, and ends when it has given it back. -/
def IsSection (i : ι) (k : κ) (p : Code ι κ RB α) : Prop :=
  ∃ next : Unit → Code ι κ RB α, p = .act (.lock i k) next ∧
    (next ()).Follows (within G i k) (fun n _ => n = 0) 1

/-- A lock guard around a block. -/
def locked (i : ι) (k : κ) (p : Code ι κ RB α) : Code ι κ RB α := do
  let _ ← (Program.call (.lock i k) : Code ι κ RB _)
  let r ← p
  let _ ← (Program.call (.unlock i k) : Code ι κ RB _)
  pure r

variable {i : ι} {k : κ}

/-- The code uses only what `k` guards, and gives the mutex back as often as it locks it. -/
def Keeps (i : ι) (k : κ) (p : Code ι κ RB α) : Prop :=
  ∀ n, p.Follows (within G i k) (fun m _ => m = n + 1) (n + 1)

variable {G}

theorem Keeps.ret (r : α) : Keeps G i k (.ret r) := fun _ => rfl

theorem Keeps.bind {p : Code ι κ RB α} {f : α → Code ι κ RB β} (hp : Keeps G i k p)
    (hf : ∀ x, Keeps G i k (f x)) : Keeps G i k (p >>= f) := by
  intro n
  refine (hp n).bind fun m x hm => ?_
  subst hm
  exact hf x n

theorem Keeps.access {b : B} (hb : G.guard b = k) :
    Keeps G i k (Program.call (.access b) : Code ι κ RB _) :=
  fun n => ⟨⟨Nat.succ_pos n, hb⟩, fun _ _ => rfl⟩

/-- A block within a section that holds the mutex already. -/
theorem Keeps.locked {p : Code ι κ RB α} (hk : G.recursive k) (hp : Keeps G i k p) :
    Keeps G i k (locked i k p) := by
  intro n
  refine ⟨⟨Nat.succ_pos n, rfl, rfl, hk⟩, fun _ _ => (hp (n + 1)).bind fun m r hm => ?_⟩
  subst hm
  exact ⟨⟨Nat.succ_pos _, rfl, rfl⟩, fun _ _ => rfl⟩

theorem Keeps.isSection {p : Code ι κ RB α} (hp : Keeps G i k p) :
    IsSection G i k (Locking.locked i k p) := by
  refine ⟨_, rfl, (hp 0).bind fun m r hm => ?_⟩
  subst hm
  exact ⟨⟨Nat.one_pos, rfl, rfl⟩, fun _ _ => rfl⟩

section Frame

variable {s s' : Monitors ι κ D} {n : ℕ}

/-- The two states agree on the mutex `k` and on what it guards. -/
def Agree (k : κ) (s s' : Monitors ι κ D) : Prop := s.owner k = s'.owner k ∧ s.data k = s'.data k

theorem Agree.refl (k : κ) (s : Monitors ι κ D) : Agree k s s := ⟨rfl, rfl⟩

theorem Agree.symm (h : Agree k s s') : Agree k s' s := ⟨h.1.symm, h.2.symm⟩

theorem Agree.trans {s'' : Monitors ι κ D} (h : Agree k s s') (h' : Agree k s' s'') :
    Agree k s s'' := ⟨h.1.trans h'.1, h.2.trans h'.2⟩

variable [DecidableEq κ]

theorem exec_agree {a : Locking ι κ B} (ha : (within G i k).allows n a) (h : Agree k s s') :
    (exec G a s).1 = (exec G a s').1 ∧ Agree k (exec G a s).2 (exec G a s').2 := by
  obtain ⟨howner, hdata⟩ := h
  cases a with
  | lock j l =>
    obtain ⟨-, rfl, rfl, -⟩ := ha
    exact ⟨rfl, by simp [exec, howner], hdata⟩
  | unlock j l =>
    obtain ⟨-, rfl, rfl⟩ := ha
    exact ⟨rfl, by simp [exec, howner], hdata⟩
  | access b =>
    obtain ⟨-, rfl⟩ := ha
    simp only [exec, hdata, Agree, Function.update_self]
    exact ⟨trivial, howner, trivial⟩

/-- A section leaves the other mutexes and components alone. -/
theorem exec_other {a : Locking ι κ B} (ha : (within G i k).allows n a) {l : κ} (hl : l ≠ k) :
    Agree l (exec G a s).2 s := by
  cases a with
  | lock j l' =>
    obtain ⟨-, -, rfl, -⟩ := ha
    exact ⟨Function.update_of_ne hl _ _, rfl⟩
  | unlock j l' =>
    obtain ⟨-, -, rfl⟩ := ha
    exact ⟨Function.update_of_ne hl _ _, rfl⟩
  | access b =>
    obtain ⟨-, rfl⟩ := ha
    exact ⟨rfl, Function.update_of_ne hl _ _⟩

/-- What a section returns and leaves depends on its own component only. -/
theorem run_agree {p : Code ι κ RB α} {Q : ℕ → α → Prop} (hp : p.Follows (within G i k) Q n)
    (h : Agree k s s') :
    (p.run (exec G) s).1 = (p.run (exec G) s').1 ∧
      Agree k (p.run (exec G) s).2 (p.run (exec G) s').2 := by
  induction p generalizing n s s' with
  | ret r => exact ⟨rfl, h⟩
  | act a next ih =>
    obtain ⟨hresponse, hagree⟩ := exec_agree hp.1 h
    simp only [Program.run_act, hresponse]
    exact ih _ (hp.2 _ trivial) hagree

theorem run_other {p : Code ι κ RB α} {Q : ℕ → α → Prop} (hp : p.Follows (within G i k) Q n)
    {l : κ} (hl : l ≠ k) : Agree l (p.run (exec G) s).2 s := by
  induction p generalizing n s with
  | ret r => exact Agree.refl l s
  | act a next ih => exact (ih _ (hp.2 _ trivial)).trans (exec_other hp.1 hl)

/-- Within a section the count follows the mutex. -/
theorem owner_after {a : Locking ι κ B} (ha : (within G i k).allows (n + 1) a)
    (howner : s.owner k = some (i, n)) :
    ((within G i k).after (n + 1) a (exec G a s).1 = 0 ∧ (exec G a s).2.owner k = none) ∨
      ∃ m, (within G i k).after (n + 1) a (exec G a s).1 = m + 1 ∧
        (exec G a s).2.owner k = some (i, m) := by
  cases a with
  | lock j l =>
    obtain ⟨-, rfl, rfl, -⟩ := ha
    exact Or.inr ⟨n + 1, rfl, by simp [exec, howner, Guarded.acquire]⟩
  | unlock j l =>
    obtain ⟨-, rfl, rfl⟩ := ha
    cases n with
    | zero => exact Or.inl ⟨rfl, by simp [exec, howner, Guarded.release]⟩
    | succ n => exact Or.inr ⟨n, rfl, by simp [exec, howner, Guarded.release]⟩
  | access b => exact Or.inr ⟨n, rfl, howner⟩

end Frame

section Alone

variable [DecidableEq κ] {d d' d'' : (k : κ) → D k}

variable (G) in
/-- Whoever runs the code alone gets `r` and leaves the data as `d'`, and the mutexes as they were. -/
def Leaves (p : Code ι κ RB α) (d : (k : κ) → D k) (r : α) (d' : (k : κ) → D k) : Prop :=
  ∀ o, p.run (exec G) ⟨o, d⟩ = (r, ⟨o, d'⟩)

theorem Leaves.ret (r : α) : Leaves G (.ret r : Code ι κ RB α) d r d := fun _ => rfl

theorem Leaves.bind {p : Code ι κ RB α} {f : α → Code ι κ RB β} {x : α} {y : β}
    (hp : Leaves G p d x d') (hf : Leaves G (f x) d' y d'') : Leaves G (p >>= f) d y d'' := by
  intro o
  rw [Program.run_bind, hp o]
  exact hf o

theorem Leaves.access (b : B) :
    Leaves G (Program.call (.access b) : Code ι κ RB _) d (G.access b (d (G.guard b))).1
      (Function.update d (G.guard b) (G.access b (d (G.guard b))).2) := fun _ => rfl

theorem release_acquire (i : ι) (o : Option (ι × ℕ)) :
    Guarded.release (Guarded.acquire i o) = o := by
  rcases o with _ | ⟨j, n⟩ <;> rfl

theorem Leaves.locked {p : Code ι κ RB α} {r : α} (hp : Leaves G p d r d') :
    Leaves G (locked i k p) d r d' := by
  intro o
  have hlock : (exec G (.lock i k) (⟨o, d⟩ : Monitors ι κ D)).2 =
      ⟨Function.update o k (Guarded.acquire i (o k)), d⟩ := rfl
  simp only [Locking.locked, Program.call_bind, Program.run_act, Program.run_bind, hlock, hp _]
  simp only [exec, Program.pure_eq, Program.run_ret, Function.update_self, release_acquire,
    Function.update_idem, Function.update_eq_self]

end Alone

end Locking
end Concurrent
