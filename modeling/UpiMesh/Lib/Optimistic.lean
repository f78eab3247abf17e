import UpiMesh.Lib.Run
import Mathlib.Algebra.Group.Int.Defs
import Mathlib.Logic.Function.Basic

/-!
# Optimistic locking

Clients read rows of a store and save modified copies of them. A save is optimistic when it takes a
copy whose version is the stored one, and throws otherwise. Reads and updates are stamped with the
number of calls made before them. If all saves of a run are optimistic, then no update is overwritten
by a copy that was read before it, and a version counts the updates of its row.
-/

namespace Optimistic

/-- A store of versioned rows. `lookup` is what it holds, `find` and `save` are its operations. -/
structure Repository (S κ ρ β ε : Type*) where
  key : ρ → κ
  value : ρ → β
  version : ρ → ℤ
  lookup : κ → S → Option ρ
  find : κ → S → Option ρ
  save : ρ → S → Except ε Unit × S
  key_lookup : ∀ {k s r}, lookup k s = some r → key r = k
  lookup_find : ∀ {k s r}, find k s = some r → lookup (key r) s = some r

/-- The save at time `time` of `copy`, which the client has made of a `row` that it read. -/
inductive Call (ι κ ρ : Type*) where
  | find (client : ι) (k : κ)
  | save (client : ι) (time : ℕ) (row copy : ρ)

def Call.IsFind {ι κ ρ : Type*} : Call ι κ ρ → Prop
  | .find _ _ => True
  | .save _ _ _ _ => False

/-- The store, the rows each client has read, and the times of the updates made to each row. -/
structure Clients (S ι κ ρ : Type*) where
  store : S
  clock : ℕ
  reads : ι → List (ℕ × ρ)
  updates : κ → List ℕ

def Clients.start {S ι κ ρ : Type*} (store : S) : Clients S ι κ ρ :=
  ⟨store, 0, fun _ => [], fun _ => []⟩

namespace Repository

open Sequential

variable {S ι κ ρ β ε : Type*} (repo : Repository S κ ρ β ε)

/-- A client saves a copy of a row that it has read, under its key and with its version. -/
def Admissible : Call ι κ ρ → Clients S ι κ ρ → Prop
  | .find _ _, _ => True
  | .save client time row copy, s => (time, row) ∈ s.reads client ∧
      repo.key copy = repo.key row ∧ repo.version copy = repo.version row

/-- The law of an optimistic save. -/
structure SavesOptimistically (copy : ρ) (s : S) (stored : ρ) : Prop where
  current : repo.version copy = repo.version stored → (repo.save copy s).1 = .ok () ∧
    (∃ r, repo.lookup (repo.key copy) (repo.save copy s).2 = some r ∧
      repo.value r = repo.value copy ∧ repo.version r = repo.version stored + 1) ∧
    ∀ k, k ≠ repo.key copy → repo.lookup k (repo.save copy s).2 = repo.lookup k s
  stale : repo.version copy ≠ repo.version stored →
    (∃ e, (repo.save copy s).1 = .error e) ∧ (repo.save copy s).2 = s

/-- Every save of a row that exists obeys the law. -/
def Lawful : Call ι κ ρ → Clients S ι κ ρ → Prop
  | .find _ _, _ => True
  | .save _ _ _ copy, s => ∀ stored, repo.lookup (repo.key copy) s.store = some stored →
      repo.SavesOptimistically copy s.store stored

/-- A save that succeeds finds no update later than its read. -/
def KeepsUpdates : Call ι κ ρ → Clients S ι κ ρ → Prop
  | .find _ _, _ => True
  | .save _ time _ copy, s => (repo.save copy s.store).1 = .ok () →
      ∀ u ∈ s.updates (repo.key copy), u < time

/-- The version of a row is the one it started with, plus one for every update. -/
def VersionsCount (s₀ : S) (s : Clients S ι κ ρ) : Prop :=
  ∀ k r, repo.lookup k s.store = some r → ∃ r₀, repo.lookup k s₀ = some r₀ ∧
    repo.version r = repo.version r₀ + (s.updates k).length

/-- The version of a row that has been read counts the updates before the read. -/
structure Counted (s₀ : S) (s : Clients S ι κ ρ) : Prop where
  stored : repo.VersionsCount s₀ s
  reads : ∀ c t r, (t, r) ∈ s.reads c → t < s.clock ∧
    (∃ r', repo.lookup (repo.key r) s.store = some r') ∧
    ∃ r₀, repo.lookup (repo.key r) s₀ = some r₀ ∧
      repo.version r = repo.version r₀ + ((s.updates (repo.key r)).filter (· < t)).length
  times : ∀ k, ∀ u ∈ s.updates k, u < s.clock

section Counted

variable {repo} {s₀ : S} {s : Clients S ι κ ρ}

theorem Counted.start : repo.Counted s₀ (.start s₀ : Clients S ι κ ρ) where
  stored k r hr := ⟨r, hr, by simp [Clients.start]⟩
  reads _ _ _ h := absurd h List.not_mem_nil
  times _ _ h := absurd h List.not_mem_nil

/-- A copy with the stored version has been read after all updates so far. -/
theorem Counted.unsaved (h : repo.Counted s₀ s) {c : ι} {t : ℕ} {r stored : ρ}
    (hr : (t, r) ∈ s.reads c) (hstored : repo.lookup (repo.key r) s.store = some stored)
    (hversion : repo.version r = repo.version stored) : ∀ u ∈ s.updates (repo.key r), u < t := by
  obtain ⟨-, -, r₀, hr₀, hread⟩ := h.reads c t r hr
  obtain ⟨r₁, hr₁, hcount⟩ := h.stored _ _ hstored
  obtain rfl := Option.some.inj (hr₀.symm.trans hr₁)
  have hlength : ((s.updates (repo.key r)).filter (· < t)).length =
      (s.updates (repo.key r)).length := by
    omega
  intro u hu
  simpa using List.length_filter_eq_length_iff.mp hlength u hu

end Counted

variable [DecidableEq ι] [DecidableEq κ]

def step : Call ι κ ρ → Clients S ι κ ρ → Clients S ι κ ρ
  | .find client k, s =>
    match repo.find k s.store with
    | none => { s with clock := s.clock + 1 }
    | some r =>
      { s with
        clock := s.clock + 1
        reads := Function.update s.reads client ((s.clock, r) :: s.reads client) }
  | .save _ _ _ copy, s =>
    match repo.save copy s.store with
    | (.ok (), store) =>
      { s with
        store := store
        clock := s.clock + 1
        updates := Function.update s.updates (repo.key copy)
          (s.clock :: s.updates (repo.key copy)) }
    | (.error _, store) => { s with store := store, clock := s.clock + 1 }

/-- What optimistic locking promises of a run. -/
structure OptimisticRun (calls : List (Call ι κ ρ)) (s₀ : S) : Prop where
  lawful : Each repo.step repo.Lawful calls (.start s₀)
  kept : Each repo.step repo.KeepsUpdates calls (.start s₀)
  counted : Always repo.step (repo.VersionsCount s₀) calls (.start s₀)

section Run

variable {repo} {s₀ : S} {s : Clients S ι κ ρ}

theorem Counted.find (h : repo.Counted s₀ s) (client : ι) (k : κ) :
    repo.Counted s₀ (repo.step (.find client k) s) := by
  have htimes : ∀ k, ∀ u ∈ s.updates k, u < s.clock + 1 :=
    fun k u hu => Nat.lt_succ_of_lt (h.times k u hu)
  cases hfind : repo.find k s.store with
  | none =>
    simp only [step, hfind]
    refine ⟨h.stored, fun c t r hr => ?_, htimes⟩
    obtain ⟨ht, hrest⟩ := h.reads c t r hr
    exact ⟨Nat.lt_succ_of_lt ht, hrest⟩
  | some found =>
    have hlookup := repo.lookup_find hfind
    simp only [step, hfind]
    refine ⟨h.stored, fun c t r hr => ?_, htimes⟩
    have hcases : (t, r) = (s.clock, found) ∨ (t, r) ∈ s.reads c := by
      dsimp only at hr
      by_cases hc : c = client
      · subst hc
        rw [Function.update_self] at hr
        exact List.mem_cons.mp hr
      · rw [Function.update_of_ne hc] at hr
        exact Or.inr hr
    rcases hcases with hnew | hold
    · obtain ⟨rfl, rfl⟩ := Prod.mk.inj hnew
      obtain ⟨r₀, hr₀, hversion⟩ := h.stored _ _ hlookup
      have hall : (s.updates (repo.key r)).filter (· < s.clock) = s.updates (repo.key r) :=
        List.filter_eq_self.mpr fun u hu => by simpa using h.times _ u hu
      refine ⟨Nat.lt_succ_self _, ⟨r, hlookup⟩, r₀, hr₀, ?_⟩
      dsimp only
      rw [hall, hversion]
    · obtain ⟨ht, hrest⟩ := h.reads c t r hold
      exact ⟨Nat.lt_succ_of_lt ht, hrest⟩

theorem step_save_ok {client : ι} {time : ℕ} {row copy : ρ}
    (hok : (repo.save copy s.store).1 = .ok ()) :
    repo.step (.save client time row copy) s =
      { s with
        store := (repo.save copy s.store).2
        clock := s.clock + 1
        updates := Function.update s.updates (repo.key copy)
          (s.clock :: s.updates (repo.key copy)) } := by
  have hout : repo.save copy s.store = (.ok (), (repo.save copy s.store).2) := Prod.ext hok rfl
  rw [step, hout]

theorem step_save_error {client : ι} {time : ℕ} {row copy : ρ} {e : ε}
    (herror : (repo.save copy s.store).1 = .error e) :
    repo.step (.save client time row copy) s =
      { s with store := (repo.save copy s.store).2, clock := s.clock + 1 } := by
  have hout : repo.save copy s.store = (.error e, (repo.save copy s.store).2) :=
    Prod.ext herror rfl
  rw [step, hout]

/-- An update that adds one to the version of its row and touches no other row is counted. -/
theorem Counted.update (h : repo.Counted s₀ s) {client : ι} {time : ℕ} {row copy stored r : ρ}
    (hok : (repo.save copy s.store).1 = .ok ())
    (hstored : repo.lookup (repo.key copy) s.store = some stored)
    (hr : repo.lookup (repo.key copy) (repo.save copy s.store).2 = some r)
    (hnext : repo.version r = repo.version stored + 1)
    (hothers : ∀ k, k ≠ repo.key copy →
      repo.lookup k (repo.save copy s.store).2 = repo.lookup k s.store) :
    repo.Counted s₀ (repo.step (.save client time row copy) s) := by
  rw [step_save_ok hok]
  refine ⟨fun k r' hr' => ?_, fun c t r' hread => ?_, fun k u hu => ?_⟩
  · dsimp only at hr' ⊢
    by_cases hk : k = repo.key copy
    · subst hk
      obtain rfl := Option.some.inj (hr.symm.trans hr')
      obtain ⟨r₀, hr₀, hcount⟩ := h.stored _ _ hstored
      refine ⟨r₀, hr₀, ?_⟩
      rw [Function.update_self, List.length_cons, hnext]
      omega
    · rw [Function.update_of_ne hk]
      rw [hothers k hk] at hr'
      exact h.stored k r' hr'
  · obtain ⟨ht, ⟨r₁, hr₁⟩, r₀, hr₀, hcount⟩ := h.reads c t r' hread
    refine ⟨Nat.lt_succ_of_lt ht, ?_, r₀, hr₀, ?_⟩
    · by_cases hk : repo.key r' = repo.key copy
      · exact ⟨r, hk ▸ hr⟩
      · exact ⟨r₁, (hothers _ hk).trans hr₁⟩
    · dsimp only
      by_cases hk : repo.key r' = repo.key copy
      · have hlate : ¬ s.clock < t := by omega
        rw [hcount, hk, Function.update_self, List.filter_cons_of_neg (by simpa using hlate)]
      · rw [hcount, Function.update_of_ne hk]
  · dsimp only at hu ⊢
    by_cases hk : k = repo.key copy
    · subst hk
      rw [Function.update_self] at hu
      rcases List.mem_cons.mp hu with rfl | hu
      · exact Nat.lt_succ_self _
      · exact Nat.lt_succ_of_lt (h.times _ u hu)
    · rw [Function.update_of_ne hk] at hu
      exact Nat.lt_succ_of_lt (h.times k u hu)

/-- An optimistic save overwrites no later update, and counts itself. -/
theorem Counted.save (h : repo.Counted s₀ s) {client : ι} {time : ℕ} {row copy : ρ}
    (hadm : repo.Admissible (.save client time row copy) s)
    (hlaw : repo.Lawful (.save client time row copy) s) :
    repo.KeepsUpdates (.save client time row copy) s ∧
      repo.Counted s₀ (repo.step (.save client time row copy) s) := by
  obtain ⟨hread, hkey, hversion⟩ := hadm
  obtain ⟨-, ⟨stored, hstored⟩, -⟩ := h.reads client time row hread
  have hcopy : repo.lookup (repo.key copy) s.store = some stored := hkey ▸ hstored
  have hsave := hlaw stored hcopy
  by_cases hcurrent : repo.version copy = repo.version stored
  · obtain ⟨hok, ⟨r, hr, -, hnext⟩, hothers⟩ := hsave.current hcurrent
    have hunsaved := h.unsaved hread hstored (hversion ▸ hcurrent)
    rw [← hkey] at hunsaved
    exact ⟨fun _ => hunsaved, h.update hok hcopy hr hnext hothers⟩
  · obtain ⟨⟨e, he⟩, hsame⟩ := hsave.stale hcurrent
    refine ⟨fun hok => absurd (he.symm.trans hok) (by simp), ?_⟩
    rw [step_save_error he, hsame]
    refine ⟨h.stored, fun c t r hr => ?_, fun k u hu => Nat.lt_succ_of_lt (h.times k u hu)⟩
    obtain ⟨ht, hrest⟩ := h.reads c t r hr
    exact ⟨Nat.lt_succ_of_lt ht, hrest⟩

/-- Optimistic saves are all that a run needs. -/
theorem optimisticRun_iff {calls : List (Call ι κ ρ)}
    (hadm : Each repo.step repo.Admissible calls (.start s₀)) :
    repo.OptimisticRun calls s₀ ↔ Each repo.step repo.Lawful calls (.start s₀) := by
  have hstep : ∀ (call : Call ι κ ρ) s, repo.Counted s₀ s →
      repo.Admissible call s ∧ repo.Lawful call s →
      repo.KeepsUpdates call s ∧ repo.Counted s₀ (repo.step call s) := by
    rintro call s hcounted ⟨hcall, hlaw⟩
    cases call with
    | find client k => exact ⟨trivial, hcounted.find client k⟩
    | save client time row copy => exact hcounted.save hcall hlaw
  refine ⟨OptimisticRun.lawful, fun hlawful => ?_⟩
  have hboth := hadm.and hlawful
  exact ⟨hlawful, hboth.guarantee hstep .start,
    hboth.always (fun _ h => h.stored) (fun call s h hok => (hstep call s h hok).2) .start⟩

end Run

end Repository
end Optimistic
