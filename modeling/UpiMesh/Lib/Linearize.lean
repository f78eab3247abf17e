import UpiMesh.Lib.Serial

/-!
# Linearization points

Every thread of a pool takes effect at one of its actions. `Linearized` records the threads that have
taken effect, in the order in which they did, and relates the shared state to the one that a serial
execution in that order reaches. An action either keeps this relation as it is, or it is the
linearization point of its thread and the serial execution is extended by it. When every thread has
taken effect, the order is a serialization of the schedule.
-/

namespace Concurrent.Pool

variable {ι A : Type} {R : A → Type} {α S Γ : Type}

theorem serial_concat (exec : (a : A) → S → R a × S) (threads : ι → Program A R α)
    (order : List ι) (i : ι) (s : S) :
    serial exec threads (order ++ [i]) s =
      ((threads i).run exec (serial exec threads order s)).2 := by
  simp only [serial, List.foldl_append, List.foldl_cons, List.foldl_nil]

/-- The threads whose ghost value says `taken` have been executed serially from `s₀`, and the
outcome is related to the shared state. -/
def Linearized (exec : (a : A) → S → R a × S) (threads : ι → Program A R α) (s₀ : S)
    (taken : Γ → Prop) (Rel : S → S → (ι → Γ) → Prop) (s : S) (γ : ι → Γ) : Prop :=
  ∃ order : List ι, order.Nodup ∧ (∀ i, i ∈ order ↔ taken (γ i)) ∧
    Rel s (serial exec threads order s₀) γ

variable [DecidableEq ι] {exec : (a : A) → S → R a × S} {threads : ι → Program A R α}
  {s₀ s s' : S} {taken : Γ → Prop} {Rel : S → S → (ι → Γ) → Prop} {γ : ι → Γ}

/-- An action at which no thread takes effect. -/
theorem Linearized.silent (h : Linearized exec threads s₀ taken Rel s γ) {i : ι} {g : Γ}
    (hg : taken g ↔ taken (γ i)) (hrel : ∀ b, Rel s b γ → Rel s' b (Function.update γ i g)) :
    Linearized exec threads s₀ taken Rel s' (Function.update γ i g) := by
  obtain ⟨order, hnodup, hmem, hb⟩ := h
  refine ⟨order, hnodup, fun j => ?_, hrel _ hb⟩
  rw [hmem]
  by_cases hj : j = i
  · subst hj
    rw [Function.update_self]
    exact hg.symm
  · rw [Function.update_of_ne hj]

/-- The action at which thread `i` takes effect. -/
theorem Linearized.point (h : Linearized exec threads s₀ taken Rel s γ) {i : ι} {g : Γ}
    (hnot : ¬ taken (γ i)) (hg : taken g)
    (hrel : ∀ b, Rel s b γ → Rel s' ((threads i).run exec b).2 (Function.update γ i g)) :
    Linearized exec threads s₀ taken Rel s' (Function.update γ i g) := by
  obtain ⟨order, hnodup, hmem, hb⟩ := h
  have hi : i ∉ order := fun hi => hnot ((hmem i).mp hi)
  refine ⟨order ++ [i], ?_, fun j => ?_, ?_⟩
  · apply List.nodup_append.mpr
    refine ⟨hnodup, List.nodup_singleton i, fun a ha b hb hab => ?_⟩
    obtain rfl := List.mem_singleton.mp hb
    exact hi (hab ▸ ha)
  · rw [List.mem_append, List.mem_singleton, hmem]
    by_cases hj : j = i
    · subst hj
      rw [Function.update_self]
      exact ⟨fun _ => hg, fun _ => Or.inr rfl⟩
    · rw [Function.update_of_ne hj]
      exact ⟨fun h => h.resolve_right hj, Or.inl⟩
  · rw [serial_concat]
    exact hrel _ hb

omit [DecidableEq ι] in
/-- A schedule of linearized threads that have all taken effect has a serialization. -/
theorem Linearized.order (h : Linearized exec threads s₀ taken Rel s γ)
    (hall : ∀ i, taken (γ i)) :
    ∃ order : List ι, order.Nodup ∧ (∀ i, i ∈ order) ∧
      Rel s (serial exec threads order s₀) γ := by
  obtain ⟨order, hnodup, hmem, hb⟩ := h
  exact ⟨order, hnodup, fun i => (hmem i).mpr (hall i), hb⟩

end Concurrent.Pool
