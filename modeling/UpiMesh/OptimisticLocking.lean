import UpiMesh.Lib.Optimistic
import UpiMesh.Database

/-!
# Optimistic locking of accounts

The comment on `AccountRepository::save` promises an optimistic save. The upsert compares no versions
and writes the version of the copy: it never throws, and it leaves the version as it was when the copy
was read. So no save obeys the law, and what optimistic locking promises holds of a run of reads only.
-/

namespace UpiMesh

open Optimistic Sequential

/-- Thrown by nothing. -/
structure ConcurrencyException where
  what : String
  deriving DecidableEq, Repr

def accountRepository : Repository Database String Account ℤ ConcurrencyException where
  key := Account.vpa
  value := Account.balance
  version := Account.version
  lookup vpa db := db.current.accounts.find? vpa
  find vpa db := AccountRepository.findById vpa none db
  save copy db := (.ok (), AccountRepository.save copy none db)
  key_lookup h := Table.key_of_find? h
  lookup_find h := Table.find?_of_mem (Table.mem_of_find? h)

abbrev AccountCall (ι : Type) := Call ι String Account

/-- A row is stored for every row that has been read. -/
def RowsStay {ι : Type} (s : Clients Database ι String Account) : Prop :=
  ∀ c t r, (t, r) ∈ s.reads c → ∃ stored, s.store.current.accounts.find? r.vpa = some stored

section Save

variable {db : Database} {copy : Account}

theorem find?_save (vpa : String) :
    (AccountRepository.save copy none db).current.accounts.find? vpa =
      if copy.vpa = vpa then some copy else db.current.accounts.find? vpa :=
  Table.find?_upsert _ copy vpa

/-- A current copy keeps its version, and a stale one is not refused. -/
theorem not_savesOptimistically (stored : Account) :
    ¬ accountRepository.SavesOptimistically copy db stored := by
  rintro ⟨hcurrent, hstale⟩
  by_cases hversion : copy.version = stored.version
  · obtain ⟨-, ⟨r, hr, -, hnext⟩, -⟩ := hcurrent hversion
    have hcopy : (AccountRepository.save copy none db).current.accounts.find? copy.vpa = some r := hr
    rw [find?_save, if_pos rfl] at hcopy
    obtain rfl := Option.some.inj hcopy
    have hnext' : copy.version = stored.version + 1 := hnext
    omega
  · obtain ⟨⟨e, he⟩, -⟩ := hstale hversion
    cases he

end Save

section Run

variable {ι : Type} {s : Clients Database ι String Account}

/-- A client that saves breaks the law, since the row it has read is still there. -/
theorem RowsStay.isFind (h : RowsStay s) {call : AccountCall ι}
    (hadm : accountRepository.Admissible call s) (hlaw : accountRepository.Lawful call s) :
    call.IsFind := by
  cases call with
  | find client vpa => exact trivial
  | save client time row copy =>
    obtain ⟨hread, hkey, -⟩ := hadm
    obtain ⟨stored, hstored⟩ := h client time row hread
    have hcopy : accountRepository.lookup copy.vpa s.store = some stored := by
      rw [show copy.vpa = row.vpa from hkey]
      exact hstored
    exact absurd (hlaw stored hcopy) (not_savesOptimistically stored)

theorem RowsStay.step [DecidableEq ι] (h : RowsStay s) (call : AccountCall ι) :
    RowsStay (accountRepository.step call s) := by
  cases call with
  | find client vpa =>
    cases hfind : accountRepository.find vpa s.store with
    | none =>
      simp only [Repository.step, hfind]
      exact h
    | some found =>
      have hfound : s.store.current.accounts.find? found.vpa = some found :=
        accountRepository.lookup_find hfind
      simp only [Repository.step, hfind]
      intro c t r hr
      dsimp only at hr ⊢
      by_cases hc : c = client
      · subst hc
        rw [Function.update_self] at hr
        rcases List.mem_cons.mp hr with hnew | hold
        · obtain ⟨rfl, rfl⟩ := Prod.mk.inj hnew
          exact ⟨r, hfound⟩
        · exact h c t r hold
      · rw [Function.update_of_ne hc] at hr
        exact h c t r hr
  | save client time row copy =>
    rw [Repository.step_save_ok rfl]
    intro c t r hr
    obtain ⟨stored, hstored⟩ := h c t r hr
    dsimp only [accountRepository]
    rw [find?_save]
    split_ifs
    · exact ⟨copy, rfl⟩
    · exact ⟨stored, hstored⟩

end Run

/-- Whatever the accounts are and however the clients' calls interleave, optimistic locking keeps its
promises exactly when no client saves. -/
theorem optimisticRun_iff_no_save {ι : Type} [DecidableEq ι] (db : Database)
    (calls : List (AccountCall ι))
    (hadm : Each accountRepository.step accountRepository.Admissible calls (.start db)) :
    accountRepository.OptimisticRun calls db ↔ ∀ call ∈ calls, call.IsFind := by
  have hstart : RowsStay (.start db : Clients Database ι String Account) :=
    fun _ _ _ h => absurd h List.not_mem_nil
  rw [Repository.optimisticRun_iff hadm]
  constructor
  · intro hlawful
    have hfinds : Each accountRepository.step (fun (call : AccountCall ι) _ => call.IsFind) calls
        (.start db) :=
      (hadm.and hlawful).guarantee
        (fun call s h hcall => ⟨h.isFind hcall.1 hcall.2, h.step call⟩) hstart
    exact each_input_iff.mp hfinds
  · intro hfinds
    have hcalls : Each accountRepository.step (fun (call : AccountCall ι) _ => call.IsFind) calls
        (.start db) := each_input_iff.mpr hfinds
    refine hcalls.mono fun call s hcall => ?_
    cases call with
    | find client vpa => exact trivial
    | save client time row copy => exact absurd hcall id

/-- Two clients read the account of Bob, and both deduct from it. -/
def staleRun : List (AccountCall Bool) :=
  [.find true "bob@demo", .find false "bob@demo", .save true 0 bob (bob.debit 20000),
    .save false 1 bob (bob.debit 30000)]

theorem admissible_staleRun : Each accountRepository.step accountRepository.Admissible staleRun
    (.start Database.initial) := by
  refine ⟨trivial, trivial, ⟨?_, rfl, rfl⟩, ⟨?_, rfl, rfl⟩, trivial⟩
  · decide
  · decide

theorem optimisticRun_iff_no_save_stale :
    accountRepository.OptimisticRun staleRun Database.initial ↔ ∀ call ∈ staleRun, call.IsFind :=
  optimisticRun_iff_no_save Database.initial staleRun admissible_staleRun

/-- The deduction that the first client saved is gone, and the version is what it was. -/
theorem stale_save_overwrites :
    Each accountRepository.step accountRepository.Admissible staleRun (.start Database.initial) ∧
      (after accountRepository.step staleRun
        (.start Database.initial)).store.current.accounts.find? "bob@demo" =
          some (bob.debit 30000) ∧
      (after accountRepository.step staleRun (.start Database.initial)).updates "bob@demo" = [3, 2] ∧
      ¬ accountRepository.OptimisticRun staleRun Database.initial := by
  refine ⟨admissible_staleRun, by decide, by decide, fun h => ?_⟩
  obtain ⟨-, -, hlaw, -⟩ := h.lawful
  have hbob : accountRepository.lookup "bob@demo" Database.initial = some bob := by decide
  exact not_savesOptimistically bob (hlaw bob hbob)

end UpiMesh
