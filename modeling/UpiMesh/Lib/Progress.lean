import Mathlib.Data.DFinsupp.WellFounded
import Mathlib.SetTheory.Ordinal.Rank
import UpiMesh.Lib.Program

/-!
# Every schedule ends

A program is a well-founded tree, so a pool of finitely many programs takes finitely many steps,
although nothing bounds their number beforehand. If every state with an unfinished thread can be left
by some step, all threads are brought to their end.
-/

namespace Concurrent

variable {ι A : Type} {R : A → Type} {α S : Type}

/-- The program `q` is what may be left of `p` after its first action. -/
def Program.Rest (q p : Program A R α) : Prop := ∃ a next r, p = .act a next ∧ q = next r

theorem Program.wellFounded_rest : WellFounded (Program.Rest : Program A R α → Program A R α → Prop) := by
  refine ⟨fun p => ?_⟩
  induction p with
  | ret x =>
    refine ⟨_, fun q hq => ?_⟩
    obtain ⟨a, next, r, hret, -⟩ := hq
    cases hret
  | act a next ih =>
    refine ⟨_, fun q hq => ?_⟩
    obtain ⟨b, next', r, hact, rfl⟩ := hq
    obtain ⟨rfl, hnext⟩ := Program.act.inj hact
    obtain rfl := eq_of_heq hnext
    exact ih r

namespace Pool

variable [DecidableEq ι] (exec : (a : A) → S → R a × S)

/-- A pool of finitely many threads cannot go on for ever. -/
theorem wellFounded_step [Finite ι] :
    WellFounded fun c₁ c : Pool ι A R α S => ∃ i a, Step exec c i a c₁ := by
  have hwf : IsWellFounded (Program A R α) Program.Rest := ⟨Program.wellFounded_rest⟩
  let rank : Pool ι A R α S → ι → Ordinal.{0} :=
    fun c i => IsWellFounded.rank Program.Rest (c.threads i)
  refine Subrelation.wf (fun {c₁ c} h => ?_) (InvImage.wf rank wellFounded_lt)
  obtain ⟨i, a, hstep⟩ := h
  cases hstep with
  | @act next hi =>
    have hlt : rank ⟨(exec a c.shared).2,
        Function.update c.threads i (next (exec a c.shared).1)⟩ i < rank c i := by
      refine IsWellFounded.rank_lt_of_rel ⟨a, next, (exec a c.shared).1, hi, ?_⟩
      exact Function.update_self ..
    refine Pi.lt_def.mpr ⟨fun j => ?_, i, hlt⟩
    by_cases hj : j = i
    · subst hj
      exact hlt.le
    · have hsame : Function.update c.threads i (next (exec a c.shared).1) j = c.threads j :=
        Function.update_of_ne hj ..
      exact (congrArg (IsWellFounded.rank Program.Rest) hsame).le

/-- If it is always possible to go on, all threads can be brought to their end. -/
theorem exists_run_finished [Finite ι] {ok : ι → A → S → Prop} (Inv : Pool ι A R α S → Prop)
    (hstep : ∀ c i a c₁, Inv c → Step exec c i a c₁ → ok i a c.shared → Inv c₁)
    (hgo : ∀ c i, Inv c → (∀ r, c.threads i ≠ .ret r) →
      ∃ j a c₁, Step exec c j a c₁ ∧ ok j a c.shared) (c : Pool ι A R α S) (hc : Inv c) :
    ∃ trace c', Run exec ok c trace c' ∧ c'.Finished := by
  have hwf : WellFounded fun c₁ c : Pool ι A R α S => ∃ i a, Step exec c i a c₁ :=
    wellFounded_step exec
  induction c using hwf.induction with
  | h c ih =>
    by_cases hdone : c.Finished
    · exact ⟨[], c, .nil c, hdone⟩
    · have hunfinished : ∃ i, ∀ r, c.threads i ≠ .ret r := by
        simpa only [Finished, not_forall, not_exists] using hdone
      obtain ⟨i, hi⟩ := hunfinished
      obtain ⟨j, a, c₁, hj, hok⟩ := hgo c i hc hi
      obtain ⟨trace, c', hrun, hfinished⟩ := ih c₁ ⟨j, a, hj⟩ (hstep c j a c₁ hc hj hok)
      exact ⟨(j, a) :: trace, c', .cons hj hok hrun, hfinished⟩

end Pool
end Concurrent
