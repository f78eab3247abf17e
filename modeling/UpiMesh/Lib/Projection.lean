import UpiMesh.Lib.Serial

/-!
# Leaving threads out of a schedule

`Along` states a condition on the actions of a schedule: on each in the state it is performed in, and
before the actions that are still to come. A relation between two shared states may be kept by an action
of some threads on both sides, and by an action of all others on one side only. Then the others can be
left out.
-/

namespace Concurrent

namespace Program

variable {A : Type} {R : A → Type} {α β : Type}

/-- The program performs these actions, whatever the responses are. -/
def Lists : Program A R α → List A → Prop
  | .ret _, actions => actions = []
  | .act a next, actions => ∃ rest, actions = a :: rest ∧ ∀ r, Lists (next r) rest

theorem Lists.bind {p : Program A R α} {k : α → Program A R β} {actions actions' : List A}
    (h : p.Lists actions) (hk : ∀ a, (k a).Lists actions') : (p >>= k).Lists (actions ++ actions') := by
  induction p generalizing actions with
  | ret a =>
    obtain rfl : actions = [] := h
    exact hk a
  | act a next ih =>
    obtain ⟨rest, rfl, hnext⟩ := h
    exact ⟨rest ++ actions', rfl, fun r => ih r (hnext r)⟩

end Program

namespace Pool

variable {ι A : Type} {R : A → Type} {α S : Type}

/-- Every action of the trace meets the condition. -/
def Along (exec : (a : A) → S → R a × S) (P : ι × A → S → List (ι × A) → Prop) :
    List (ι × A) → S → Prop
  | [], _ => True
  | x :: rest, s => P x s rest ∧ Along exec P rest (exec x.2 s).2

variable {exec : (a : A) → S → R a × S} {P P' : ι × A → S → List (ι × A) → Prop}
  {trace : List (ι × A)} {s : S}

instance Along.decidable [∀ x s rest, Decidable (P x s rest)] :
    ∀ trace s, Decidable (Along exec P trace s)
  | [], _ => isTrue trivial
  | x :: rest, s => @instDecidableAnd _ _ _ (Along.decidable rest (exec x.2 s).2)

theorem Along.and (h : Along exec P trace s) (h' : Along exec P' trace s) :
    Along exec (fun x s rest => P x s rest ∧ P' x s rest) trace s := by
  induction trace generalizing s with
  | nil => exact trivial
  | cons x rest ih => exact ⟨⟨h.1, h'.1⟩, ih h.2 h'.2⟩

theorem Along.mono (h : Along exec P trace s) (hP : ∀ x s rest, P x s rest → P' x s rest) :
    Along exec P' trace s := by
  induction trace generalizing s with
  | nil => exact trivial
  | cons x rest ih => exact ⟨hP x s rest h.1, ih h.2⟩

/-- A condition on the trace alone. -/
theorem along_of_pairwise {T : ι × A → Prop} {T' : ι × A → ι × A → Prop} (hT : ∀ x ∈ trace, T x)
    (hT' : trace.Pairwise T') :
    Along exec (fun x _ rest => T x ∧ (∀ y ∈ rest, T y) ∧ ∀ y ∈ rest, T' x y) trace s := by
  induction trace generalizing s with
  | nil => exact trivial
  | cons x rest ih =>
    obtain ⟨hx, hrest⟩ := List.forall_mem_cons.mp hT
    obtain ⟨hx', hrest'⟩ := List.pairwise_cons.mp hT'
    exact ⟨⟨hx, hrest, hx'⟩, ih hrest hrest'⟩

/-- Actions that change nothing may be left out. -/
theorem Along.filter {keep : ι × A → Prop} [DecidablePred keep]
    (hidle : ∀ x s, ¬ keep x → (exec x.2 s).2 = s)
    (hP : ∀ x s rest, keep x → P x s rest → P' x s (rest.filter fun y => keep y))
    (h : Along exec P trace s) : Along exec P' (trace.filter fun y => keep y) s := by
  induction trace generalizing s with
  | nil => exact trivial
  | cons x rest ih =>
    by_cases hx : keep x
    · rw [List.filter_cons_of_pos (by simpa using hx)]
      exact ⟨hP x s rest hx h.1, ih h.2⟩
    · have hrest := ih h.2
      rw [hidle x s hx] at hrest
      rwa [List.filter_cons_of_neg (by simpa using hx)]

section Threads

variable [DecidableEq ι] {c c' : Pool ι A R α S}

/-- What a thread has done is the beginning of its list. -/
theorem Run.lists {ok : ι → A → S → Prop} {i : ι} {actions : List A} (h : Run exec ok c trace c')
    (hi : (c.threads i).Lists actions) : ∃ rest, (c'.threads i).Lists rest ∧
      actions = (trace.filter fun x => x.1 = i).map Prod.snd ++ rest := by
  induction h generalizing actions with
  | nil _ => exact ⟨actions, hi, rfl⟩
  | @cons c _ _ j a trace hs _ _ ih =>
    cases hs with
    | @act next hact =>
      by_cases hj : j = i
      · subst hj
        rw [hact] at hi
        obtain ⟨tail, rfl, hnext⟩ := hi
        have hthread : (Function.update c.threads j (next (exec a c.shared).1) j).Lists tail := by
          rw [Function.update_self]
          exact hnext _
        obtain ⟨rest, hrest, rfl⟩ := ih hthread
        refine ⟨rest, hrest, ?_⟩
        rw [List.filter_cons_of_pos (by simp)]
        rfl
      · have hthread : (Function.update c.threads j (next (exec a c.shared).1) i).Lists actions := by
          rw [Function.update_of_ne (Ne.symm hj)]
          exact hi
        obtain ⟨rest, hrest, hactions⟩ := ih hthread
        refine ⟨rest, hrest, ?_⟩
        rwa [List.filter_cons_of_neg (by simpa using hj)]

/-- A thread that has returned has done all of it. -/
theorem Run.lists_returned {ok : ι → A → S → Prop} {i : ι} {actions : List A} {x : α}
    (h : Run exec ok c trace c') (hi : (c.threads i).Lists actions) (hret : c'.threads i = .ret x) :
    (trace.filter fun x => x.1 = i).map Prod.snd = actions := by
  obtain ⟨rest, hrest, hactions⟩ := h.lists hi
  rw [hret] at hrest
  obtain rfl : rest = [] := hrest
  rw [hactions, List.append_nil]

/-- The threads that are kept run on a state of their own. -/
theorem Run.project (keep : ι → Prop) [DecidablePred keep] {Rel : List (ι × A) → S → S → Prop}
    (hkept : ∀ i a rest s t, keep i → P (i, a) s rest → Rel ((i, a) :: rest) s t →
      (exec a s).1 = (exec a t).1 ∧ Rel rest (exec a s).2 (exec a t).2)
    (hdropped : ∀ i a rest s t, ¬ keep i → P (i, a) s rest → Rel ((i, a) :: rest) s t →
      Rel rest (exec a s).2 t)
    (h : Run exec AnyStep c trace c') (hP : Along exec P trace c.shared) {d : Pool ι A R α S}
    (hrel : Rel trace c.shared d.shared) (hthreads : ∀ i, keep i → d.threads i = c.threads i) :
    ∃ d', Run exec AnyStep d (trace.filter fun x => keep x.1) d' ∧ Rel [] c'.shared d'.shared ∧
      ∀ i, keep i → d'.threads i = c'.threads i := by
  induction h generalizing d with
  | nil _ => exact ⟨d, .nil d, hrel, hthreads⟩
  | @cons c _ _ i a trace hs _ _ ih =>
    obtain ⟨hi, hrest⟩ := hP
    cases hs with
    | @act next hact =>
      by_cases hkeep : keep i
      · obtain ⟨hsame, hrel'⟩ := hkept i a trace _ _ hkeep hi hrel
        have hd : d.threads i = .act a next := (hthreads i hkeep).trans hact
        have hthreads' : ∀ j, keep j →
            Function.update d.threads i (next (exec a d.shared).1) j =
              Function.update c.threads i (next (exec a c.shared).1) j := by
          intro j hj
          by_cases hji : j = i
          · subst hji
            rw [Function.update_self, Function.update_self, hsame]
          · rw [Function.update_of_ne hji, Function.update_of_ne hji, hthreads j hj]
        obtain ⟨d', hrun, hrel'', hend⟩ := ih hrest
          (d := ⟨(exec a d.shared).2, Function.update d.threads i (next (exec a d.shared).1)⟩)
          hrel' hthreads'
        refine ⟨d', ?_, hrel'', hend⟩
        rw [List.filter_cons_of_pos (by simpa using hkeep)]
        exact .cons (.act hd) trivial hrun
      · have hthreads' : ∀ j, keep j →
            d.threads j = Function.update c.threads i (next (exec a c.shared).1) j := by
          intro j hj
          have hne : j ≠ i := fun hji => hkeep (hji ▸ hj)
          rw [Function.update_of_ne hne, hthreads j hj]
        rw [List.filter_cons_of_neg (by simpa using hkeep)]
        exact ih hrest (hdropped i a trace _ _ hkeep hi hrel) hthreads'

end Threads

end Pool

end Concurrent
