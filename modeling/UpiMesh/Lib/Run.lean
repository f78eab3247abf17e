import Mathlib.Algebra.GroupWithZero.Nat
import Mathlib.Data.List.Basic

/-!
# Sequential runs

A run applies a deterministic step for every input of a list. `Each` states a condition on the steps
of a run, each in the state it is taken in, and `Always` a property of all its states.
-/

namespace Sequential

variable {I S : Type*} (step : I → S → S)

def after (inputs : List I) (s : S) : S := inputs.foldl (fun s i => step i s) s

/-- Every step of the run meets the condition in the state it starts in. -/
def Each (ok : I → S → Prop) : List I → S → Prop
  | [], _ => True
  | i :: inputs, s => ok i s ∧ Each ok inputs (step i s)

/-- Every state of the run has the property, the first one included. -/
def Always (P : S → Prop) : List I → S → Prop
  | [], s => P s
  | i :: inputs, s => P s ∧ Always P inputs (step i s)

@[simp] theorem after_nil (s : S) : after step [] s = s := rfl

@[simp] theorem after_cons (i : I) (inputs : List I) (s : S) :
    after step (i :: inputs) s = after step inputs (step i s) := rfl

theorem after_append (inputs inputs' : List I) (s : S) :
    after step (inputs ++ inputs') s = after step inputs' (after step inputs s) :=
  List.foldl_append

variable {step}

theorem each_append {ok : I → S → Prop} {inputs inputs' : List I} {s : S} :
    Each step ok (inputs ++ inputs') s ↔
      Each step ok inputs s ∧ Each step ok inputs' (after step inputs s) := by
  induction inputs generalizing s with
  | nil => exact (and_iff_right trivial).symm
  | cons i inputs ih =>
    rw [List.cons_append, Each, Each, after_cons, ih, and_assoc]

theorem Each.mono {ok ok' : I → S → Prop} (h : ∀ i s, ok i s → ok' i s) {inputs : List I} {s : S}
    (hrun : Each step ok inputs s) : Each step ok' inputs s := by
  induction inputs generalizing s with
  | nil => exact trivial
  | cons i inputs ih => exact ⟨h i s hrun.1, ih hrun.2⟩

theorem Each.and {ok ok' : I → S → Prop} {inputs : List I} {s : S}
    (h : Each step ok inputs s) (h' : Each step ok' inputs s) :
    Each step (fun i s => ok i s ∧ ok' i s) inputs s := by
  induction inputs generalizing s with
  | nil => exact trivial
  | cons i inputs ih => exact ⟨⟨h.1, h'.1⟩, ih h.2 h'.2⟩

/-- A condition on the inputs alone. -/
theorem each_input_iff {P : I → Prop} {inputs : List I} {s : S} :
    Each step (fun i _ => P i) inputs s ↔ ∀ i ∈ inputs, P i := by
  induction inputs generalizing s with
  | nil => exact ⟨fun _ _ h => absurd h List.not_mem_nil, fun _ => trivial⟩
  | cons i inputs ih =>
    rw [List.forall_mem_cons]
    exact and_congr Iff.rfl ih

/-- An invariant kept by every admissible step holds after every admissible run. -/
theorem Each.invariant {ok : I → S → Prop} {Inv : S → Prop} {inputs : List I} {s : S}
    (hstep : ∀ i s, Inv s → ok i s → Inv (step i s)) (hinv : Inv s)
    (hrun : Each step ok inputs s) : Inv (after step inputs s) := by
  induction inputs generalizing s with
  | nil => exact hinv
  | cons i inputs ih => exact ih (hstep i s hinv hrun.1) hrun.2

/-- An invariant that every step keeps, and a preorder that every step respects under it. -/
theorem after_related {Inv : S → Prop} {Rel : S → S → Prop} {D : I → Prop} {inputs : List I} {s : S}
    (hrefl : ∀ s, Rel s s) (htrans : ∀ s s' s'', Rel s s' → Rel s' s'' → Rel s s'')
    (hstep : ∀ i s, D i → Inv s → Inv (step i s) ∧ Rel s (step i s)) (hD : ∀ i ∈ inputs, D i)
    (hinv : Inv s) : Inv (after step inputs s) ∧ Rel s (after step inputs s) := by
  induction inputs generalizing s with
  | nil => exact ⟨hinv, hrefl s⟩
  | cons i inputs ih =>
    obtain ⟨hi, hinputs⟩ := List.forall_mem_cons.mp hD
    obtain ⟨hinv', hrel⟩ := hstep i s hi hinv
    obtain ⟨hinv'', hrel'⟩ := ih hinputs hinv'
    exact ⟨hinv'', htrans _ _ _ hrel hrel'⟩

/-- Under an invariant, an admissible run has whatever its steps have. -/
theorem Each.guarantee {ok post : I → S → Prop} {Inv : S → Prop} {inputs : List I} {s : S}
    (hstep : ∀ i s, Inv s → ok i s → post i s ∧ Inv (step i s)) (hinv : Inv s)
    (hrun : Each step ok inputs s) : Each step post inputs s := by
  induction inputs generalizing s with
  | nil => exact trivial
  | cons i inputs ih =>
    obtain ⟨hpost, hinv'⟩ := hstep i s hinv hrun.1
    exact ⟨hpost, ih hinv' hrun.2⟩

/-- A potential that pays for every admissible step bounds what a run costs. -/
theorem Each.sum_le {ok : I → S → Prop} {Inv : S → Prop} (cost : I → ℕ) (potential : S → ℕ)
    {inputs : List I} {s : S} (hstep : ∀ i s, Inv s → ok i s → Inv (step i s))
    (hpays : ∀ i s, Inv s → ok i s → cost i + potential (step i s) ≤ potential s)
    (hinv : Inv s) (hrun : Each step ok inputs s) :
    (inputs.map cost).sum + potential (after step inputs s) ≤ potential s := by
  induction inputs generalizing s with
  | nil => exact Nat.le_of_eq (Nat.zero_add _)
  | cons i inputs ih =>
    have hfirst := hpays i s hinv hrun.1
    have hrest := ih (hstep i s hinv hrun.1) hrun.2
    rw [List.map_cons, List.sum_cons, after_cons]
    omega

/-- When every state short of the goal can be continued to one of a smaller rank, the goal can be
reached. -/
theorem exists_run_to {ok : I → S → Prop} {Inv goal : S → Prop} (rank : S → ℕ)
    (hprogress : ∀ s, Inv s → ¬ goal s → ∃ inputs, Each step ok inputs s ∧
      Inv (after step inputs s) ∧ rank (after step inputs s) < rank s) {s : S} (hinv : Inv s) :
    ∃ inputs, Each step ok inputs s ∧ goal (after step inputs s) := by
  induction hr : rank s using Nat.strongRecOn generalizing s with
  | ind r ih =>
    by_cases hgoal : goal s
    · exact ⟨[], trivial, hgoal⟩
    · obtain ⟨inputs, hinputs, hinv', hlt⟩ := hprogress s hinv hgoal
      obtain ⟨inputs', hinputs', hreached⟩ := ih _ (hr ▸ hlt) hinv' rfl
      refine ⟨inputs ++ inputs', each_append.mpr ⟨hinputs, hinputs'⟩, ?_⟩
      rw [after_append]
      exact hreached

theorem Each.always {ok : I → S → Prop} {Inv P : S → Prop} {inputs : List I} {s : S}
    (hP : ∀ s, Inv s → P s) (hstep : ∀ i s, Inv s → ok i s → Inv (step i s)) (hinv : Inv s)
    (hrun : Each step ok inputs s) : Always step P inputs s := by
  induction inputs generalizing s with
  | nil => exact hP s hinv
  | cons i inputs ih => exact ⟨hP s hinv, ih (hstep i s hinv hrun.1) hrun.2⟩

/-- When the admissible steps keep an invariant that implies `P`, and every other step breaks `P`,
then `P` holds throughout exactly the runs of admissible steps. The inputs may be restricted. -/
theorem always_iff_each {ok : I → S → Prop} {Inv P : S → Prop} {D : I → Prop} {inputs : List I}
    {s : S} (hP : ∀ s, Inv s → P s) (hstep : ∀ i s, D i → Inv s → ok i s → Inv (step i s))
    (hbreak : ∀ i s, D i → Inv s → ¬ ok i s → ¬ P (step i s)) (hD : ∀ i ∈ inputs, D i)
    (hinv : Inv s) : Always step P inputs s ↔ Each step ok inputs s := by
  induction inputs generalizing s with
  | nil => exact ⟨fun _ => trivial, fun _ => hP s hinv⟩
  | cons i inputs ih =>
    have hi := hD i List.mem_cons_self
    have hinputs : ∀ j ∈ inputs, D j := fun j hj => hD j (List.mem_cons_of_mem i hj)
    constructor
    · rintro ⟨_, hrest⟩
      by_cases hok : ok i s
      · exact ⟨hok, (ih hinputs (hstep i s hi hinv hok)).mp hrest⟩
      · refine absurd ?_ (hbreak i s hi hinv hok)
        cases inputs with
        | nil => exact hrest
        | cons j inputs => exact hrest.1
    · rintro ⟨hok, hrest⟩
      exact ⟨hP s hinv, (ih hinputs (hstep i s hi hinv hok)).mpr hrest⟩

end Sequential
