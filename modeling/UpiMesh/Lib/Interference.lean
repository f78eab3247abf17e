import UpiMesh.Lib.Program
import Mathlib.Data.List.Basic

/-!
# Programs under interference

Whatever other programs do between two actions of a program shows only in the states in which its
actions are taken. `Program.execute` takes every action in a given state, arbitrary as it may be, and
lists the actions of the program next to these states.
-/

namespace Concurrent.Program

variable {A : Type} {R : A → Type} {S α β : Type} (exec : (a : A) → S → R a × S)

/-- The actions of the program with the states they are taken in, and the value it returns, when the
`n`-th action is taken in state `σ n`. -/
def execute : Program A R α → (ℕ → S) → List (A × S) × α
  | .ret x, _ => ([], x)
  | .act a next, σ =>
    let rest := execute (next (exec a (σ 0)).1) fun n => σ (n + 1)
    ((a, σ 0) :: rest.1, rest.2)

/-- The action leaves the state as it is. -/
def Idle (step : A × S) : Prop := (exec step.1 step.2).2 = step.2

@[simp] theorem execute_ret (x : α) (σ : ℕ → S) :
    (Program.ret x : Program A R α).execute exec σ = ([], x) := rfl

@[simp] theorem execute_act (a : A) (next : R a → Program A R α) (σ : ℕ → S) :
    (Program.act a next).execute exec σ =
      ((a, σ 0) :: ((next (exec a (σ 0)).1).execute exec fun n => σ (n + 1)).1,
        ((next (exec a (σ 0)).1).execute exec fun n => σ (n + 1)).2) := rfl

/-- The second program is executed in the states that follow those of the first. -/
theorem execute_bind (p : Program A R α) (k : α → Program A R β) (σ : ℕ → S) :
    (p >>= k).execute exec σ =
      ((p.execute exec σ).1 ++
          ((k (p.execute exec σ).2).execute exec fun n => σ (n + (p.execute exec σ).1.length)).1,
        ((k (p.execute exec σ).2).execute exec fun n => σ (n + (p.execute exec σ).1.length)).2) := by
  induction p generalizing σ with
  | ret x => rfl
  | act a next ih =>
    simp only [act_bind, execute_act, ih, List.cons_append, List.length_cons]
    rfl

end Concurrent.Program
