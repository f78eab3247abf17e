import UpiMesh.Lib.Program

/-!
# Two programs in lockstep

Two programs run in lockstep when they perform matching actions one after the other, as long as the
responses match as well, and end with matching values. If matching actions in related states draw
matching responses and lead to related states, then two programs in lockstep that start in related
states end with matching values in related states.
-/

namespace Concurrent

/-- Which actions match, and which responses to them. -/
structure Matching (A : Type) (R : A → Type) where
  actions : A → A → Prop
  responses : (a a' : A) → R a → R a' → Prop

namespace Program

variable {A : Type} {R : A → Type} {S α β : Type} {M : Matching A R}

def Lockstep (M : Matching A R) (Q : α → α → Prop) : Program A R α → Program A R α → Prop
  | .ret x, .ret x' => Q x x'
  | .act a next, .act a' next' => M.actions a a' ∧
      ∀ r r', M.responses a a' r r' → Lockstep M Q (next r) (next' r')
  | _, _ => False

theorem Lockstep.bind {Q : α → α → Prop} {Q' : β → β → Prop} {p p' : Program A R α}
    {k k' : α → Program A R β} (h : Lockstep M Q p p')
    (hk : ∀ x x', Q x x' → Lockstep M Q' (k x) (k' x')) : Lockstep M Q' (p >>= k) (p' >>= k') := by
  induction p generalizing p' with
  | ret x =>
    cases p' with
    | ret x' => exact hk x x' h
    | act a' next' => exact h.elim
  | act a next ih =>
    cases p' with
    | ret x' => exact h.elim
    | act a' next' => exact ⟨h.1, fun r r' hr => ih r (h.2 r r' hr)⟩

theorem Lockstep.run {exec : (a : A) → S → R a × S} {Rel : S → S → Prop} {Q : α → α → Prop}
    (hstep : ∀ a a' s s', M.actions a a' → Rel s s' →
      M.responses a a' (exec a s).1 (exec a' s').1 ∧ Rel (exec a s).2 (exec a' s').2)
    {p p' : Program A R α} (h : Lockstep M Q p p') {s s' : S} (hs : Rel s s') :
    Q (p.run exec s).1 (p'.run exec s').1 ∧ Rel (p.run exec s).2 (p'.run exec s').2 := by
  induction p generalizing p' s s' with
  | ret x =>
    cases p' with
    | ret x' => exact ⟨h, hs⟩
    | act a' next' => exact h.elim
  | act a next ih =>
    cases p' with
    | ret x' => exact h.elim
    | act a' next' =>
      obtain ⟨hresponses, hs'⟩ := hstep a a' s s' h.1 hs
      exact ih _ (h.2 _ _ hresponses) hs'

end Program
end Concurrent
