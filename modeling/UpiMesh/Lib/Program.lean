import Mathlib.Logic.Function.Basic

/-!
# Programs over atomic actions

A `Program A R α` is a piece of imperative code that performs atomic actions `a : A`, receives a
response of type `R a` for each of them, and ends with a value of type `α`. The same text has two
meanings: `Program.run` executes it alone, and a `Pool` executes a family of programs on one shared
state, one atomic action of one thread at a time.

`Pool.Annotated` is the thread-modular proof rule. Every thread owns a ghost value, the shared state
and the ghost values satisfy an invariant, and each action of a thread re-establishes it after at
most a change of the thread's own ghost value.
-/

namespace Concurrent

inductive Program (A : Type) (R : A → Type) (α : Type) : Type where
  | ret (a : α)
  | act (a : A) (next : R a → Program A R α)

namespace Program

variable {A : Type} {R : A → Type} {S α β : Type}

def bind : Program A R α → (α → Program A R β) → Program A R β
  | .ret a, f => f a
  | .act a next, f => .act a (fun r => bind (next r) f)

instance : Monad (Program A R) where
  pure := .ret
  bind := bind

/-- The program that performs one action and returns its response. -/
def call (a : A) : Program A R (R a) := .act a .ret

/-- Execution without interference. -/
def run (exec : (a : A) → S → R a × S) : Program A R α → S → α × S
  | .ret a, s => (a, s)
  | .act a next, s => run exec (next (exec a s).1) (exec a s).2

@[simp] theorem pure_eq (a : α) : (pure a : Program A R α) = .ret a := rfl

@[simp] theorem ret_bind (a : α) (f : α → Program A R β) : (Program.ret a >>= f) = f a := rfl

@[simp] theorem act_bind (a : A) (next : R a → Program A R α) (f : α → Program A R β) :
    (Program.act a next >>= f) = .act a (fun r => next r >>= f) := rfl

@[simp] theorem call_bind (a : A) (f : R a → Program A R β) :
    (call a >>= f) = .act a f := rfl

theorem bind_assoc {γ : Type} (p : Program A R α) (f : α → Program A R β)
    (g : β → Program A R γ) : (p >>= f) >>= g = p >>= fun a => f a >>= g := by
  induction p with
  | ret a => rfl
  | act a next ih => simp only [act_bind, ih]

theorem bind_ret (p : Program A R α) : (p >>= Program.ret) = p := by
  induction p with
  | ret a => rfl
  | act a next ih =>
    rw [act_bind]
    exact congrArg _ (funext ih)

section Run

variable (exec : (a : A) → S → R a × S)

@[simp] theorem run_ret (a : α) (s : S) : (Program.ret a : Program A R α).run exec s = (a, s) :=
  rfl

@[simp] theorem run_act (a : A) (next : R a → Program A R α) (s : S) :
    (Program.act a next).run exec s = (next (exec a s).1).run exec (exec a s).2 := rfl

@[simp] theorem run_call (a : A) (s : S) : (call a : Program A R (R a)).run exec s = exec a s :=
  rfl

@[simp] theorem run_bind (p : Program A R α) (f : α → Program A R β) (s : S) :
    (p >>= f).run exec s = (f (p.run exec s).1).run exec (p.run exec s).2 := by
  induction p generalizing s with
  | ret a => rfl
  | act a next ih => simp only [act_bind, run_act, ih]

end Run

/-- Every action replaced by a program that stands for it. -/
def expand {B : Type} {RB : B → Type} (f : (a : A) → Program B RB (R a)) :
    Program A R α → Program B RB α
  | .ret a => .ret a
  | .act a next => f a >>= fun r => expand f (next r)

section Expand

variable {B : Type} {RB : B → Type}

theorem expand_call (f : (a : A) → Program B RB (R a)) (a : A) : (call a).expand f = f a :=
  bind_ret (f a)

theorem expand_bind (f : (a : A) → Program B RB (R a)) (p : Program A R α) (k : α → Program A R β) :
    (p >>= k).expand f = p.expand f >>= fun r => (k r).expand f := by
  induction p with
  | ret a => rfl
  | act a next ih =>
    rw [act_bind, expand, expand, bind_assoc]
    exact congrArg _ (funext ih)

theorem expand_bind_eq {f : (a : A) → Program B RB (R a)} {p : Program A R α} {k : α → Program A R β}
    {p' : Program B RB α} {k' : α → Program B RB β} (hp : p.expand f = p')
    (hk : ∀ r, (k r).expand f = k' r) : (p >>= k).expand f = p' >>= k' := by
  rw [expand_bind, hp]
  exact congrArg _ (funext hk)

end Expand

/-- Whether the program has ended. -/
def returned? : Program A R α → Bool
  | .ret _ => true
  | .act _ _ => false

theorem returned?_eq_true {p : Program A R α} : p.returned? = true ↔ ∃ r, p = .ret r := by
  cases p with
  | ret a => exact ⟨fun _ => ⟨a, rfl⟩, fun _ => rfl⟩
  | act a next =>
    constructor
    · intro h
      cases h
    · rintro ⟨_, h⟩
      cases h

section Maintains

variable (exec : (a : A) → S → R a × S) (Inv : S → Prop)

/-- Every action of the program keeps the invariant, whatever other programs that keep it do in
between, and a returned value satisfies `Q`. -/
def Maintains (Q : α → Prop) : Program A R α → Prop
  | .ret a => Q a
  | .act a next => ∀ s, Inv s → Inv (exec a s).2 ∧ Maintains Q (next (exec a s).1)

variable {exec Inv}

theorem Maintains.mono {Q Q' : α → Prop} {p : Program A R α} (hQ : ∀ a, Q a → Q' a)
    (h : p.Maintains exec Inv Q) : p.Maintains exec Inv Q' := by
  induction p with
  | ret a => exact hQ a h
  | act a next ih =>
    intro s hs
    obtain ⟨hinv, hnext⟩ := h s hs
    exact ⟨hinv, ih _ hnext⟩

theorem Maintains.bind {Q : α → Prop} {Q' : β → Prop} {p : Program A R α}
    {k : α → Program A R β} (h : p.Maintains exec Inv Q)
    (hk : ∀ a, Q a → (k a).Maintains exec Inv Q') : (p >>= k).Maintains exec Inv Q' := by
  induction p with
  | ret a => exact hk a h
  | act a next ih =>
    intro s hs
    obtain ⟨hinv, hnext⟩ := h s hs
    exact ⟨hinv, ih _ hnext⟩

theorem Maintains.run {Q : α → Prop} {p : Program A R α} (h : p.Maintains exec Inv Q) {s : S}
    (hs : Inv s) : Inv (p.run exec s).2 ∧ Q (p.run exec s).1 := by
  induction p generalizing s with
  | ret a => exact ⟨hs, h⟩
  | act a next ih =>
    obtain ⟨hinv, hnext⟩ := h s hs
    exact ih _ hnext hinv

end Maintains

section Uses

/-- Every action of the program has the property. -/
def Uses (P : A → Prop) : Program A R α → Prop
  | .ret _ => True
  | .act a next => P a ∧ ∀ r, Uses P (next r)

/-- From the first action with the property on, the program has no others. -/
def ObservesLast (P : A → Prop) : Program A R α → Prop
  | .ret _ => True
  | .act a next => (P a ∧ ∀ r, (next r).Uses P) ∨ (¬ P a ∧ ∀ r, ObservesLast P (next r))

variable {P : A → Prop}

theorem Uses.bind {p : Program A R α} {k : α → Program A R β} (h : p.Uses P)
    (hk : ∀ a, (k a).Uses P) : (p >>= k).Uses P := by
  induction p with
  | ret a => exact hk a
  | act a next ih => exact ⟨h.1, fun r => ih r (h.2 r)⟩

theorem Uses.mono {T : A → Prop} {p : Program A R α} (h : p.Uses P) (hT : ∀ a, P a → T a) :
    p.Uses T := by
  induction p with
  | ret a => exact trivial
  | act a next ih => exact ⟨hT a h.1, fun r => ih r (h.2 r)⟩

theorem Uses.and {T : A → Prop} {p : Program A R α} (h : p.Uses P) (hT : p.Uses T) :
    p.Uses fun a => P a ∧ T a := by
  induction p with
  | ret a => exact trivial
  | act a next ih => exact ⟨⟨h.1, hT.1⟩, fun r => ih r (h.2 r) (hT.2 r)⟩

theorem ObservesLast.bind {p : Program A R α} {k : α → Program A R β}
    (h : p.Uses fun a => ¬ P a) (hk : ∀ a, (k a).ObservesLast P) : (p >>= k).ObservesLast P := by
  induction p with
  | ret a => exact hk a
  | act a next ih => exact Or.inr ⟨h.1, fun r => ih r (h.2 r)⟩

theorem Uses.observesLast {p : Program A R α} (h : p.Uses P) : p.ObservesLast P := by
  cases p with
  | ret a => exact trivial
  | act a next => exact Or.inl h

theorem Uses.run_eq {exec : (a : A) → S → R a × S} {p : Program A R α} (h : p.Uses P)
    (hP : ∀ a s, P a → (exec a s).2 = s) (s : S) : (p.run exec s).2 = s := by
  induction p generalizing s with
  | ret a => rfl
  | act a next ih =>
    rw [run_act, ih _ (h.2 _), hP a s h.1]

end Uses

section Returns

variable (exec : (a : A) → S → R a × S)

/-- Every result satisfies `Q`, in whatever states the actions are performed. -/
def Returns (Q : α → Prop) : Program A R α → Prop
  | .ret a => Q a
  | .act a next => ∀ s, Returns Q (next (exec a s).1)

variable {exec}

theorem returns_true (p : Program A R α) : p.Returns exec fun _ => True := by
  induction p with
  | ret a => exact trivial
  | act a next ih => exact fun s => ih _

theorem Returns.bind {Q : α → Prop} {Q' : β → Prop} {p : Program A R α} {k : α → Program A R β}
    (h : p.Returns exec Q) (hk : ∀ a, Q a → (k a).Returns exec Q') : (p >>= k).Returns exec Q' := by
  induction p with
  | ret a => exact hk a h
  | act a next ih => exact fun s => ih _ (h s)

theorem Returns.run {Q : α → Prop} {p : Program A R α} (h : p.Returns exec Q) (s : S) :
    Q (p.run exec s).1 := by
  induction p generalizing s with
  | ret a => exact h
  | act a next ih => exact ih _ (h s) _

end Returns

end Program

/-- A shared state and the remaining program of every thread. -/
structure Pool (ι A : Type) (R : A → Type) (α S : Type) where
  shared : S
  threads : ι → Program A R α

namespace Pool

variable {ι A : Type} {R : A → Type} {α S : Type} [DecidableEq ι]

/-- Thread `i` performs its next action `a`. -/
inductive Step (exec : (a : A) → S → R a × S) : Pool ι A R α S → ι → A → Pool ι A R α S → Prop
  | act {c : Pool ι A R α S} {i : ι} {a : A} {next : R a → Program A R α}
      (h : c.threads i = .act a next) :
      Step exec c i a
        ⟨(exec a c.shared).2, Function.update c.threads i (next (exec a c.shared).1)⟩

/-- A schedule: the trace lists which thread performed which action. Every step satisfies the
side condition `ok`, which may look at the shared state in which the step is taken. -/
inductive Run (exec : (a : A) → S → R a × S) (ok : ι → A → S → Prop) :
    Pool ι A R α S → List (ι × A) → Pool ι A R α S → Prop
  | nil (c : Pool ι A R α S) : Run exec ok c [] c
  | cons {c c' c'' : Pool ι A R α S} {i : ι} {a : A} {trace : List (ι × A)} :
      Step exec c i a c' → ok i a c.shared → Run exec ok c' trace c'' →
      Run exec ok c ((i, a) :: trace) c''

/-- The side condition that admits every schedule. -/
def AnyStep : ι → A → S → Prop := fun _ _ _ => True

theorem Run.append {exec : (a : A) → S → R a × S} {ok : ι → A → S → Prop} {c c' c'' : Pool ι A R α S}
    {trace trace' : List (ι × A)} (h : Run exec ok c trace c') (h' : Run exec ok c' trace' c'') :
    Run exec ok c (trace ++ trace') c'' := by
  induction h with
  | nil _ => exact h'
  | cons hs hok _ ih => exact .cons hs hok (ih h')

theorem Run.snoc {exec : (a : A) → S → R a × S} {ok : ι → A → S → Prop} {c c' c'' : Pool ι A R α S}
    {trace : List (ι × A)} {i : ι} {a : A} (h : Run exec ok c trace c') (hs : Step exec c' i a c'')
    (hok : ok i a c'.shared) : Run exec ok c (trace ++ [(i, a)]) c'' :=
  h.append (.cons hs hok (.nil c''))

/-- A schedule, with the shared state seen through `f`. -/
theorem Run.map {S' : Type} {exec : (a : A) → S → R a × S} (exec' : (a : A) → S' → R a × S')
    (f : S → S') (hf : ∀ a s, exec' a (f s) = ((exec a s).1, f (exec a s).2)) {c c' : Pool ι A R α S}
    {trace : List (ι × A)} (h : Run exec AnyStep c trace c') :
    Run exec' AnyStep ⟨f c.shared, c.threads⟩ trace ⟨f c'.shared, c'.threads⟩ := by
  induction h with
  | nil c => exact .nil _
  | @cons c _ _ i a _ hs _ _ ih =>
    cases hs with
    | @act next h =>
      have hstep : Step exec' ⟨f c.shared, c.threads⟩ i a
          ⟨(exec' a (f c.shared)).2,
            Function.update c.threads i (next (exec' a (f c.shared)).1)⟩ := .act h
      rw [hf] at hstep
      exact .cons hstep trivial ih

/-- Induction on a schedule from its end: a property of what has happened so far and of the state
reached. -/
theorem Run.history {exec : (a : A) → S → R a × S} {ok : ι → A → S → Prop} {c c' : Pool ι A R α S}
    {trace : List (ι × A)} {H : List (ι × A) → Pool ι A R α S → Prop}
    (h : Run exec ok c trace c') (hnil : H [] c)
    (hstep : ∀ past c₁ i a c₂, Run exec ok c past c₁ → H past c₁ → Step exec c₁ i a c₂ →
      ok i a c₁.shared → H (past ++ [(i, a)]) c₂) : H trace c' := by
  have hfrom : ∀ {c₁ c₂ : Pool ι A R α S} {past future : List (ι × A)}, Run exec ok c past c₁ →
      H past c₁ → Run exec ok c₁ future c₂ → H (past ++ future) c₂ := by
    intro c₁ c₂ past future hpast hH hfuture
    induction hfuture generalizing past with
    | nil _ => rwa [List.append_nil]
    | cons hs hok _ ih =>
      rw [List.append_cons]
      exact ih (hpast.snoc hs hok) (hstep _ _ _ _ _ hpast hH hs hok)
  exact hfrom (.nil c) hnil h

/-- In the trace, thread `i` has performed an opening action and no closing one since. -/
def Since (opens closes : A → Prop) (trace : List (ι × A)) (i : ι) : Prop :=
  ∃ past a rest, trace = past ++ (i, a) :: rest ∧ opens a ∧ ∀ b, (i, b) ∈ rest → ¬ closes b

omit [DecidableEq ι] in
theorem not_since_nil {opens closes : A → Prop} {i : ι} : ¬ Since opens closes ([] : List (ι × A)) i := by
  rintro ⟨past, a, rest, h, _⟩
  exact absurd h.symm (by simp)

omit [DecidableEq ι] in
theorem since_snoc {opens closes : A → Prop} {trace : List (ι × A)} {i j : ι} {a : A} :
    Since opens closes (trace ++ [(j, a)]) i ↔
      (j = i ∧ opens a) ∨ (Since opens closes trace i ∧ (j = i → ¬ closes a)) := by
  constructor
  · rintro ⟨past, b, rest, htrace, hopens, hrest⟩
    rcases List.eq_nil_or_concat rest with rfl | ⟨rest, x, rfl⟩
    · obtain ⟨_, hlast⟩ := List.append_inj' htrace rfl
      obtain ⟨rfl, rfl⟩ := Prod.mk.inj (List.singleton_inj.mp hlast)
      exact Or.inl ⟨rfl, hopens⟩
    · rw [List.concat_eq_append] at htrace hrest
      rw [← List.cons_append, ← List.append_assoc] at htrace
      obtain ⟨hinit, hlast⟩ := List.append_inj' htrace rfl
      obtain rfl := List.singleton_inj.mp hlast
      refine Or.inr ⟨⟨past, b, rest, hinit, hopens, fun d hd => hrest d ?_⟩, ?_⟩
      · exact List.mem_append_left _ hd
      · rintro rfl
        exact hrest a (List.mem_append_right _ (List.mem_singleton_self _))
  · rintro (⟨rfl, hopens⟩ | ⟨⟨past, b, rest, rfl, hopens, hrest⟩, hlast⟩)
    · exact ⟨trace, a, [], rfl, hopens, fun _ h => absurd h List.not_mem_nil⟩
    · refine ⟨past, b, rest ++ [(j, a)], by simp, hopens, fun d hd => ?_⟩
      rcases List.mem_append.mp hd with hd | hd
      · exact hrest d hd
      · obtain ⟨rfl, rfl⟩ := Prod.mk.inj (List.mem_singleton.mp hd)
        exact hlast rfl

/-- Thread `i` performs its next action, if it has one. -/
def advance (exec : (a : A) → S → R a × S) (c : Pool ι A R α S) (i : ι) : Pool ι A R α S :=
  match c.threads i with
  | .ret _ => c
  | .act a next => ⟨(exec a c.shared).2, Function.update c.threads i (next (exec a c.shared).1)⟩

/-- Every action of a schedule meets the side condition in the state it is taken in. -/
def Admissible (exec : (a : A) → S → R a × S) (ok : ι → A → S → Prop) :
    List ι → Pool ι A R α S → Prop
  | [], _ => True
  | i :: schedule, c =>
    (match c.threads i with
      | .ret _ => True
      | .act a _ => ok i a c.shared) ∧ Admissible exec ok schedule (advance exec c i)

instance Admissible.decidable (exec : (a : A) → S → R a × S) (ok : ι → A → S → Prop)
    [∀ i a s, Decidable (ok i a s)] :
    (schedule : List ι) → (c : Pool ι A R α S) → Decidable (Admissible exec ok schedule c)
  | [], _ => isTrue trivial
  | i :: schedule, c =>
    have : Decidable (match c.threads i with
        | .ret _ => True
        | .act a _ => ok i a c.shared) :=
      match c.threads i with
      | .ret _ => isTrue trivial
      | .act a _ => inferInstanceAs (Decidable (ok i a c.shared))
    have := Admissible.decidable exec ok schedule (advance exec c i)
    instDecidableAnd

/-- What the threads of a schedule do. -/
def traceOf (exec : (a : A) → S → R a × S) : List ι → Pool ι A R α S → List (ι × A)
  | [], _ => []
  | i :: schedule, c =>
    match c.threads i with
    | .ret _ => traceOf exec schedule (advance exec c i)
    | .act a _ => (i, a) :: traceOf exec schedule (advance exec c i)

theorem Run.of_traceOf {exec : (a : A) → S → R a × S} {ok : ι → A → S → Prop} {schedule : List ι}
    {c : Pool ι A R α S} (h : Admissible exec ok schedule c) :
    Run exec ok c (traceOf exec schedule c) (schedule.foldl (advance exec) c) := by
  induction schedule generalizing c with
  | nil => exact .nil c
  | cons i schedule ih =>
    obtain ⟨hok, hrest⟩ := h
    have hrun := ih hrest
    rw [List.foldl_cons, traceOf]
    cases hi : c.threads i with
    | ret r =>
      have hsame : advance exec c i = c := by rw [advance, hi]
      dsimp only
      rw [hsame] at hrun ⊢
      exact hrun
    | act a next =>
      rw [hi] at hok
      have hstep : Step exec c i a (advance exec c i) := by
        rw [advance, hi]
        exact .act hi
      exact .cons hstep hok hrun

/-- A list of thread names can be executed as a schedule. -/
theorem Run.of_schedule {exec : (a : A) → S → R a × S} {ok : ι → A → S → Prop} {schedule : List ι}
    {c : Pool ι A R α S} (h : Admissible exec ok schedule c) :
    ∃ trace, Run exec ok c trace (schedule.foldl (advance exec) c) := ⟨_, .of_traceOf h⟩

theorem admissible_anyStep (exec : (a : A) → S → R a × S) (schedule : List ι)
    (c : Pool ι A R α S) : Admissible exec AnyStep schedule c := by
  induction schedule generalizing c with
  | nil => exact trivial
  | cons i schedule ih =>
    refine ⟨?_, ih _⟩
    cases c.threads i <;> exact trivial

/-- An invariant that every program maintains holds in every state of every schedule. -/
theorem Run.maintains {exec : (a : A) → S → R a × S} {Inv : S → Prop} {ok : ι → A → S → Prop}
    {c c' : Pool ι A R α S} {trace : List (ι × A)} (h : Run exec ok c trace c')
    (hprog : ∀ i, (c.threads i).Maintains exec Inv fun _ => True) (hinv : Inv c.shared) :
    Inv c'.shared := by
  induction h with
  | nil _ => exact hinv
  | @cons c _ _ i a _ hs _ _ ih =>
    cases hs with
    | @act next hi =>
      have hthread := hprog i
      rw [hi] at hthread
      obtain ⟨hinv', hnext⟩ := hthread c.shared hinv
      refine ih (fun j => ?_) hinv'
      by_cases hj : j = i
      · subst hj
        simpa only [Function.update_self] using hnext
      · simpa only [Function.update_of_ne hj] using hprog j

/-- What the threads can return does not change on the way. -/
theorem Run.returns {exec : (a : A) → S → R a × S} {ok : ι → A → S → Prop} {c c' : Pool ι A R α S}
    {trace : List (ι × A)} {Q : ι → α → Prop} (h : Run exec ok c trace c')
    (hc : ∀ i, (c.threads i).Returns exec (Q i)) {i : ι} {x : α} (hi : c'.threads i = .ret x) : Q i x := by
  have hend : ∀ i, (c'.threads i).Returns exec (Q i) := by
    clear hi
    induction h with
    | nil _ => exact hc
    | @cons c _ _ j a _ hs _ _ ih =>
      cases hs with
      | @act next hj =>
        have hnext := hc j
        rw [hj] at hnext
        refine ih fun k => ?_
        by_cases hk : k = j
        · subst hk
          simpa only [Function.update_self] using hnext _
        · simpa only [Function.update_of_ne hk] using hc k
  have hresult := hend i
  rwa [hi] at hresult

section Results

variable {β : Type} {exec : (a : A) → S → R a × S} {ok : ι → A → S → Prop}

/-- The result of every thread put through a function. -/
def mapResults (f : ι → α → β) (c : Pool ι A R α S) : Pool ι A R β S :=
  ⟨c.shared, fun i => c.threads i >>= fun x => .ret (f i x)⟩

omit [DecidableEq ι] in
theorem mapResults_act (f : ι → α → β) {c : Pool ι A R α S} {i : ι} {a : A}
    {next : R a → Program A R α} (hi : c.threads i = .act a next) :
    (c.mapResults f).threads i = .act a fun r => next r >>= fun x => .ret (f i x) := by
  simp only [mapResults, hi, Program.act_bind]

omit [DecidableEq ι] in
theorem mapResults_ret {f : ι → α → β} {c : Pool ι A R α S} {i : ι} {y : β}
    (h : (c.mapResults f).threads i = .ret y) : ∃ x, c.threads i = .ret x ∧ y = f i x := by
  cases hi : c.threads i with
  | ret x =>
    simp only [mapResults, hi, Program.ret_bind, Program.ret.injEq] at h
    exact ⟨x, rfl, h.symm⟩
  | act a next => simp only [mapResults, hi, Program.act_bind, reduceCtorEq] at h

theorem mapResults_update (f : ι → α → β) (s : S) (threads : ι → Program A R α) (i : ι)
    (p : Program A R α) : mapResults f ⟨s, Function.update threads i p⟩ =
      ⟨s, Function.update (mapResults f ⟨s, threads⟩).threads i (p >>= fun x => .ret (f i x))⟩ := by
  refine congrArg (Pool.mk s) (funext fun j => ?_)
  by_cases hj : j = i
  · subst hj
    simp only [Function.update_self]
  · simp only [Function.update_of_ne hj, mapResults]

theorem Step.mapResults (f : ι → α → β) {c c' : Pool ι A R α S} {i : ι} {a : A}
    (h : Step exec c i a c') : Step exec (c.mapResults f) i a (c'.mapResults f) := by
  cases h with
  | act hi =>
    rw [mapResults_update]
    exact .act (mapResults_act f hi)

theorem Step.of_mapResults (f : ι → α → β) {c : Pool ι A R α S} {c' : Pool ι A R β S} {i : ι} {a : A}
    (h : Step exec (c.mapResults f) i a c') : ∃ d, Step exec c i a d ∧ c' = d.mapResults f := by
  cases h with
  | @act next' hnext =>
    cases hi : c.threads i with
    | ret x =>
      simp only [Pool.mapResults, hi, Program.ret_bind, reduceCtorEq] at hnext
    | act a' next =>
      rw [mapResults_act f hi] at hnext
      obtain ⟨rfl, hsame⟩ := Program.act.inj hnext
      obtain rfl := eq_of_heq hsame
      exact ⟨_, .act hi, (mapResults_update f _ _ _ _).symm⟩

/-- Results put through a function do not change what can happen. -/
theorem Run.mapResults_iff (f : ι → α → β) {c : Pool ι A R α S} {c' : Pool ι A R β S}
    {trace : List (ι × A)} : Run exec ok (c.mapResults f) trace c' ↔
      ∃ d, Run exec ok c trace d ∧ c' = d.mapResults f := by
  constructor
  · intro h
    generalize hstart : c.mapResults f = c₀ at h
    induction h generalizing c with
    | nil _ => exact ⟨c, .nil c, hstart.symm⟩
    | cons hs hok _ ih =>
      subst hstart
      obtain ⟨d, hd, rfl⟩ := hs.of_mapResults f
      obtain ⟨e, he, hend⟩ := ih rfl
      exact ⟨e, .cons hd hok he, hend⟩
  · rintro ⟨d, h, rfl⟩
    induction h with
    | nil c => exact .nil _
    | cons hs hok _ ih => exact .cons (hs.mapResults f) hok ih

end Results

/-- Every thread has returned. -/
def Finished (c : Pool ι A R α S) : Prop := ∀ i, ∃ r, c.threads i = .ret r

section Rule

variable {Γ : Type} (exec : (a : A) → S → R a × S) (ok : ι → A → S → Prop)
  (Inv : S → (ι → Γ) → Prop) (G : ι → S → S → Prop) (Q : ι → Γ → α → Prop)

/-- What thread `i` with ghost value `g` promises for the rest of its program: each action keeps
the invariant and the guarantee `G`, and a returned value satisfies `Q`. -/
def Annotated (i : ι) : Γ → Program A R α → Prop
  | g, .ret a => Q i g a
  | g, .act a next => ∀ s γ, γ i = g → Inv s γ → ok i a s →
      G i s (exec a s).2 ∧ ∃ g', Inv (exec a s).2 (Function.update γ i g') ∧
        Annotated i g' (next (exec a s).1)

/-- The annotation of a whole pool. -/
def Sound (c : Pool ι A R α S) : Prop :=
  ∃ γ, Inv c.shared γ ∧ ∀ i, Annotated exec ok Inv G Q i (γ i) (c.threads i)

variable {exec ok Inv G Q}

theorem Annotated.mono {Q' : ι → Γ → α → Prop} {i : ι} {g : Γ} {p : Program A R α}
    (hQ : ∀ g a, Q i g a → Q' i g a) (h : Annotated exec ok Inv G Q i g p) :
    Annotated exec ok Inv G Q' i g p := by
  induction p generalizing g with
  | ret a => exact hQ g a h
  | act a next ih =>
    intro s γ hg hinv hok
    obtain ⟨hG, g', hinv', hann⟩ := h s γ hg hinv hok
    exact ⟨hG, g', hinv', ih _ hann⟩

/-- Sequential composition. -/
theorem Annotated.bind {β : Type} {Q' : ι → Γ → β → Prop} {i : ι} {g : Γ} {p : Program A R β}
    {k : β → Program A R α} (h : Annotated exec ok Inv G Q' i g p)
    (hk : ∀ g b, Q' i g b → Annotated exec ok Inv G Q i g (k b)) :
    Annotated exec ok Inv G Q i g (p >>= k) := by
  induction p generalizing g with
  | ret b => exact hk g b h
  | act a next ih =>
    intro s γ hg hinv hok
    obtain ⟨hG, g', hinv', hann⟩ := h s γ hg hinv hok
    exact ⟨hG, g', hinv', ih _ hann⟩

theorem Sound.step {c c' : Pool ι A R α S} {i : ι} {a : A} (h : Sound exec ok Inv G Q c)
    (hs : Step exec c i a c') (hok : ok i a c.shared) :
    Sound exec ok Inv G Q c' ∧ G i c.shared c'.shared := by
  obtain ⟨γ, hinv, hann⟩ := h
  cases hs with
  | @act next hi =>
    have hthread := hann i
    rw [hi] at hthread
    obtain ⟨hG, g', hinv', hann'⟩ := hthread c.shared γ rfl hinv hok
    refine ⟨⟨Function.update γ i g', hinv', fun j => ?_⟩, hG⟩
    by_cases hj : j = i
    · subst hj
      simpa only [Function.update_self] using hann'
    · simpa only [Function.update_of_ne hj] using hann j

theorem Sound.run {c c' : Pool ι A R α S} {trace : List (ι × A)}
    (h : Sound exec ok Inv G Q c) (hr : Run exec ok c trace c') : Sound exec ok Inv G Q c' := by
  induction hr with
  | nil _ => exact h
  | cons hs hok _ ih => exact ih (h.step hs hok).1

/-- The values returned by finished threads satisfy their postconditions. -/
theorem Sound.returned {c : Pool ι A R α S} (h : Sound exec ok Inv G Q c) :
    ∃ γ, Inv c.shared γ ∧ ∀ i r, c.threads i = .ret r → Q i (γ i) r := by
  obtain ⟨γ, hinv, hann⟩ := h
  refine ⟨γ, hinv, fun i r hi => ?_⟩
  have hthread := hann i
  rwa [hi] at hthread

end Rule

end Pool
end Concurrent
