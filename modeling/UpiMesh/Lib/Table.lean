import Mathlib.Algebra.BigOperators.Group.Finset.Basic
import Mathlib.Algebra.BigOperators.Group.List.Basic
import Mathlib.Algebra.Group.Basic
import Mathlib.Data.List.Nodup
import Mathlib.Tactic.Abel

/-!
# Tables with a primary key

A `Table key` is a list of rows in which no two rows share a key. `upsert` is
`INSERT ... ON CONFLICT DO UPDATE`: it replaces the row with the same key in place, or appends.
-/

@[ext] structure Table {κ ρ : Type*} (key : ρ → κ) where
  rows : List ρ
  nodup : (rows.map key).Nodup

namespace Table

variable {κ ρ : Type*} {key : ρ → κ}

/-- The keys in row order. -/
def keys (t : Table key) : List κ := t.rows.map key

theorem mem_keys {t : Table key} {k : κ} : k ∈ t.keys ↔ ∃ r ∈ t.rows, key r = k := List.mem_map

variable [DecidableEq κ]

def find? (t : Table key) (k : κ) : Option ρ := t.rows.find? fun r => key r = k

theorem find?_eq_some_iff {t : Table key} {k : κ} {r : ρ} :
    t.find? k = some r ↔ r ∈ t.rows ∧ key r = k := by
  constructor
  · intro h
    exact ⟨List.mem_of_find?_eq_some h, by simpa using List.find?_some h⟩
  · rintro ⟨hmem, rfl⟩
    cases hf : t.find? (key r) with
    | none => exact absurd (List.find?_eq_none.mp hf r hmem) (by simp)
    | some r' =>
      have hmem' := List.mem_of_find?_eq_some hf
      have hkey : key r' = key r := by simpa using List.find?_some hf
      rw [List.inj_on_of_nodup_map t.nodup hmem' hmem hkey]

theorem key_of_find? {t : Table key} {k : κ} {r : ρ} (h : t.find? k = some r) : key r = k :=
  (find?_eq_some_iff.mp h).2

theorem mem_of_find? {t : Table key} {k : κ} {r : ρ} (h : t.find? k = some r) : r ∈ t.rows :=
  (find?_eq_some_iff.mp h).1

theorem find?_of_mem {t : Table key} {r : ρ} (h : r ∈ t.rows) : t.find? (key r) = some r :=
  find?_eq_some_iff.mpr ⟨h, rfl⟩

/-- The rows after an upsert. -/
def upsertRows (key : ρ → κ) (x : ρ) : List ρ → List ρ
  | [] => [x]
  | r :: rs => if key r = key x then x :: rs else r :: upsertRows key x rs

theorem map_key_upsertRows (x : ρ) (rs : List ρ) :
    (upsertRows key x rs).map key =
      if key x ∈ rs.map key then rs.map key else rs.map key ++ [key x] := by
  induction rs with
  | nil => simp [upsertRows]
  | cons r rs ih =>
    by_cases h : key r = key x
    · simp [upsertRows, h]
    · have h' : key x ≠ key r := fun e => h e.symm
      simp only [upsertRows, if_neg h, List.map_cons, ih, List.mem_cons, h', false_or]
      split_ifs <;> simp

theorem nodup_upsertRows {x : ρ} {rs : List ρ} (h : (rs.map key).Nodup) :
    ((upsertRows key x rs).map key).Nodup := by
  rw [map_key_upsertRows]
  split_ifs with hx
  · exact h
  · exact List.nodup_append.mpr
      ⟨h, List.nodup_singleton _, fun a ha b hb => by
        rw [List.mem_singleton] at hb
        rintro rfl
        exact hx (hb ▸ ha)⟩

def upsert (t : Table key) (x : ρ) : Table key :=
  ⟨upsertRows key x t.rows, nodup_upsertRows t.nodup⟩

theorem find?_upsertRows (x : ρ) (rs : List ρ) (k : κ) :
    (upsertRows key x rs).find? (fun r => key r = k) =
      if key x = k then some x else rs.find? fun r => key r = k := by
  induction rs with
  | nil => by_cases h : key x = k <;> simp [upsertRows, h]
  | cons r rs ih =>
    by_cases hr : key r = key x
    · by_cases h : key x = k <;> simp [upsertRows, hr, h]
    · by_cases h : key x = k
      · have hrk : key r ≠ k := h ▸ hr
        simp [upsertRows, hrk, ih, h]
      · simp [upsertRows, hr, List.find?_cons, ih, h]

@[simp] theorem find?_upsert (t : Table key) (x : ρ) (k : κ) :
    (t.upsert x).find? k = if key x = k then some x else t.find? k :=
  find?_upsertRows x t.rows k

/-- An upsert brings in no row but the new one. -/
theorem mem_of_mem_upsert {t : Table key} {x r : ρ} (h : r ∈ (t.upsert x).rows) :
    r = x ∨ r ∈ t.rows := by
  have hfind := find?_of_mem h
  rw [find?_upsert] at hfind
  split_ifs at hfind with hk
  · exact Or.inl (Option.some.inj hfind).symm
  · exact Or.inr (mem_of_find? hfind)

theorem keys_upsert (t : Table key) (x : ρ) :
    (t.upsert x).keys = if key x ∈ t.keys then t.keys else t.keys ++ [key x] :=
  map_key_upsertRows x t.rows

/-- Updating an existing row keeps the keys. -/
theorem keys_upsert_of_mem {t : Table key} {x : ρ} (h : key x ∈ t.keys) :
    (t.upsert x).keys = t.keys := by rw [keys_upsert, if_pos h]

/-- An upsert keeps every key. -/
theorem mem_keys_upsert {t : Table key} {x : ρ} {k : κ} (h : k ∈ t.keys) : k ∈ (t.upsert x).keys := by
  rw [keys_upsert]
  split_ifs
  · exact h
  · exact List.mem_append_left _ h

theorem mem_keys_of_find? {t : Table key} {k : κ} {r : ρ} (h : t.find? k = some r) : k ∈ t.keys :=
  mem_keys.mpr ⟨r, mem_of_find? h, key_of_find? h⟩

theorem exists_find?_of_mem_keys {t : Table key} {k : κ} (h : k ∈ t.keys) :
    ∃ r, t.find? k = some r := by
  obtain ⟨r, hr, rfl⟩ := mem_keys.mp h
  exact ⟨r, find?_of_mem hr⟩

/-- An update puts the new row in the place of the old one. -/
theorem upsertRows_of_find? {x r : ρ} {rs : List ρ}
    (h : rs.find? (fun r => key r = key x) = some r) :
    ∃ before after, rs = before ++ r :: after ∧ upsertRows key x rs = before ++ x :: after := by
  induction rs with
  | nil => simp at h
  | cons y rs ih =>
    by_cases hy : key y = key x
    · obtain rfl : y = r := by simpa [hy] using h
      exact ⟨[], rs, rfl, if_pos hy⟩
    · have h' : rs.find? (fun r => key r = key x) = some r := by simpa [hy] using h
      obtain ⟨before, after, hrs, hupsert⟩ := ih h'
      refine ⟨y :: before, after, congrArg (y :: ·) hrs, ?_⟩
      rw [upsertRows, if_neg hy, hupsert, List.cons_append]

theorem map_upsertRows {σ : Type*} {f : ρ → σ} {x r : ρ} {rs : List ρ}
    (h : rs.find? (fun r => key r = key x) = some r) (hf : f x = f r) :
    (upsertRows key x rs).map f = rs.map f := by
  obtain ⟨before, after, hrs, hupsert⟩ := upsertRows_of_find? h
  rw [hupsert, hrs, List.map_append, List.map_append, List.map_cons, List.map_cons, hf]

/-- An update keeps a column in which the new row agrees with the replaced one. -/
theorem map_upsert {σ : Type*} {f : ρ → σ} {t : Table key} {x r : ρ}
    (h : t.find? (key x) = some r) (hf : f x = f r) : (t.upsert x).rows.map f = t.rows.map f :=
  map_upsertRows h hf

section Sum

variable {M : Type*} [AddCommGroup M]

/-- The sum of a column. -/
def sum (t : Table key) (f : ρ → M) : M := (t.rows.map f).sum

theorem sum_upsertRows {f : ρ → M} {x r : ρ} {rs : List ρ}
    (h : rs.find? (fun r => key r = key x) = some r) :
    ((upsertRows key x rs).map f).sum = (rs.map f).sum - f r + f x := by
  obtain ⟨before, after, hrs, hupsert⟩ := upsertRows_of_find? h
  rw [hupsert, hrs]
  simp only [List.map_append, List.map_cons, List.sum_append, List.sum_cons]
  abel

/-- An update changes a column sum by the new value minus the replaced one. -/
theorem sum_upsert {t : Table key} {f : ρ → M} {x r : ρ} (h : t.find? (key x) = some r) :
    (t.upsert x).sum f = t.sum f - f r + f x := sum_upsertRows h

/-- A column sum is a sum over the keys. -/
theorem sum_eq_sum_keys (t : Table key) (f : ρ → M) :
    t.sum f = ∑ k ∈ t.keys.toFinset, (t.find? k).elim 0 f := by
  have hkeys : t.keys.Nodup := t.nodup
  rw [List.sum_toFinset _ hkeys, keys, List.map_map, sum]
  refine congrArg List.sum (List.map_congr_left fun r hr => ?_)
  simp only [Function.comp_apply, find?_of_mem hr, Option.elim_some]

end Sum
end Table
