import Mathlib.Data.List.Basic
import Mathlib.Data.List.Nodup

/-!
# The first of each key

`firsts key xs` keeps an element when no earlier one has its key, in the order of the list.
-/

namespace Firsts

variable {α κ : Type*} [DecidableEq κ] (key : α → κ)

def firsts : List α → List α
  | [] => []
  | x :: xs => x :: (firsts xs).filter (key · ≠ key x)

variable {key} {xs : List α}

theorem firsts_sublist (xs : List α) : (firsts key xs).Sublist xs := by
  induction xs with
  | nil => exact .slnil
  | cons x xs ih => exact (List.filter_sublist.trans ih).cons_cons x

theorem mem_map_firsts {k : κ} : k ∈ (firsts key xs).map key ↔ k ∈ xs.map key := by
  induction xs with
  | nil => rfl
  | cons x xs ih =>
    by_cases hk : k = key x
    · simp [firsts, hk]
    · rw [firsts, List.map_cons, List.map_cons, List.mem_cons, List.mem_cons, ← ih]
      refine or_congr Iff.rfl ?_
      simp only [List.mem_map, List.mem_filter, decide_eq_true_eq]
      constructor
      · rintro ⟨y, ⟨hy, -⟩, hkey⟩
        exact ⟨y, hy, hkey⟩
      · rintro ⟨y, hy, hkey⟩
        exact ⟨y, ⟨hy, hkey ▸ hk⟩, hkey⟩

theorem filter_append_singleton_of_eq {ys : List α} {x y : α} (h : key x = key y) :
    (ys ++ [x]).filter (key · ≠ key y) = ys.filter (key · ≠ key y) := by
  simp [h]

/-- One more element with a new key is kept. -/
theorem firsts_append_of_notMem {x : α} (h : key x ∉ xs.map key) :
    firsts key (xs ++ [x]) = firsts key xs ++ [x] := by
  induction xs with
  | nil => rfl
  | cons y xs ih =>
    rw [List.map_cons, List.mem_cons, not_or] at h
    obtain ⟨hne, hxs⟩ := h
    rw [List.cons_append, firsts, ih hxs, firsts]
    simp [hne]

/-- One more element with a key that is there is not. -/
theorem firsts_append_of_mem {x : α} (h : key x ∈ xs.map key) :
    firsts key (xs ++ [x]) = firsts key xs := by
  induction xs with
  | nil => exact absurd h List.not_mem_nil
  | cons y xs ih =>
    rw [List.cons_append, firsts, firsts]
    by_cases hxs : key x ∈ xs.map key
    · rw [ih hxs]
    · have hxy : key x = key y := (List.mem_cons.mp h).resolve_right hxs
      rw [firsts_append_of_notMem hxs, filter_append_singleton_of_eq hxy]

end Firsts
