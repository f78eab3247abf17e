import UpiMesh.Lib.Program
import Mathlib.Data.List.Pairwise
import Mathlib.Data.List.Nodup
import Mathlib.Data.List.Permutation

/-!
# Conflict serializability

A schedule of a pool is equivalent to running its threads one after another in a given order when
every two actions of different threads that do not commute occur in that order. `Independent` says
which actions commute; the rest are conflicts. The proof moves the actions of the first thread of
the order to the front of the schedule, one adjacent exchange at a time, and repeats this for the
remaining threads.
-/

namespace Concurrent.Pool

variable {ι A : Type} {R : A → Type} {α S : Type}

/-- Independent actions can be exchanged: neither sees the other, and the final states agree. -/
def Exchangeable (exec : (a : A) → S → R a × S) (Independent : A → A → Prop) : Prop :=
  ∀ a b s, Independent a b →
    (exec a (exec b s).2).1 = (exec a s).1 ∧ (exec b (exec a s).2).1 = (exec b s).1 ∧
      (exec b (exec a s).2).2 = (exec a (exec b s).2).2

/-- Every two conflicting actions of different threads are in the given order. -/
def Respects [DecidableEq ι] (Independent : A → A → Prop) (order : List ι) (trace : List (ι × A)) : Prop :=
  trace.Pairwise fun x y => x.1 ≠ y.1 → ¬ Independent x.2 y.2 →
    order.idxOf x.1 < order.idxOf y.1

theorem respects_of_thread [DecidableEq ι] {Independent : A → A → Prop} {order : List ι}
    {trace : List (ι × A)} {i : ι} (h : ∀ x ∈ trace, x.1 = i) : Respects Independent order trace :=
  List.pairwise_of_forall_mem_list fun x hx y hy hne => absurd ((h x hx).trans (h y hy).symm) hne

/-- Running whole programs one after another. -/
def serial (exec : (a : A) → S → R a × S) (threads : ι → Program A R α) (order : List ι) (s : S) :
    S :=
  order.foldl (fun s i => ((threads i).run exec s).2) s

variable {exec : (a : A) → S → R a × S}

@[simp] theorem serial_nil (threads : ι → Program A R α) (s : S) :
    serial exec threads [] s = s := rfl

@[simp] theorem serial_cons (threads : ι → Program A R α) (i : ι) (order : List ι) (s : S) :
    serial exec threads (i :: order) s =
      serial exec threads order ((threads i).run exec s).2 := rfl

theorem serial_congr {threads threads' : ι → Program A R α} {order : List ι} (s : S)
    (h : ∀ i ∈ order, threads i = threads' i) :
    serial exec threads order s = serial exec threads' order s := by
  induction order generalizing s with
  | nil => rfl
  | cons i order ih =>
    rw [serial_cons, serial_cons, h i List.mem_cons_self]
    exact ih _ fun j hj => h j (List.mem_cons_of_mem i hj)

/-- The orders of finitely many threads. -/
theorem mem_orders {order threads : List ι} (hnodup : order.Nodup) (hall : ∀ i, i ∈ order)
    (hnodup' : threads.Nodup) (hall' : ∀ i, i ∈ threads) : order ∈ threads.permutations' := by
  apply List.mem_permutations'.mpr
  exact (List.perm_ext_iff_of_nodup hnodup hnodup').mpr fun i => iff_of_true (hall i) (hall' i)

section Schedules

variable [DecidableEq ι] {c c' : Pool ι A R α S} {trace : List (ι × A)}

theorem Run.append_inv {ok : ι → A → S → Prop} {t₁ t₂ : List (ι × A)}
    (h : Run exec ok c (t₁ ++ t₂) c') : ∃ m, Run exec ok c t₁ m ∧ Run exec ok m t₂ c' := by
  induction t₁ generalizing c with
  | nil => exact ⟨c, .nil c, h⟩
  | cons x t₁ ih =>
    cases h with
    | cons hs hok hr =>
      obtain ⟨m, hm, hm'⟩ := ih hr
      exact ⟨m, .cons hs hok hm, hm'⟩

/-- A thread without actions in the trace keeps its program. -/
theorem Run.threads_of_absent {ok : ι → A → S → Prop} (h : Run exec ok c trace c') {j : ι}
    (hj : ∀ x ∈ trace, x.1 ≠ j) : c'.threads j = c.threads j := by
  induction h with
  | nil _ => rfl
  | cons hs _ _ ih =>
    have hne := hj _ List.mem_cons_self
    rw [ih fun x hx => hj x (List.mem_cons_of_mem _ hx)]
    cases hs with
    | act _ => exact Function.update_of_ne hne.symm _ _

/-- A trace of one thread is the beginning of that thread's run. -/
theorem Run.alone {ok : ι → A → S → Prop} {i : ι} (h : Run exec ok c trace c')
    (hi : ∀ x ∈ trace, x.1 = i) :
    (c.threads i).run exec c.shared = (c'.threads i).run exec c'.shared := by
  induction h with
  | nil _ => rfl
  | cons hs _ _ ih =>
    have hrun := ih fun x hx => hi x (List.mem_cons_of_mem _ hx)
    have he := hi _ List.mem_cons_self
    dsimp only at he
    subst he
    cases hs with
    | act hact =>
      simp only [Function.update_self] at hrun
      rw [hact, Program.run_act, hrun]

variable {Independent : A → A → Prop}

theorem Run.swap (hex : Exchangeable exec Independent) {i j : ι} {a b : A} (hij : j ≠ i)
    (hind : Independent b a) (h : Run exec AnyStep c ((j, b) :: (i, a) :: trace) c') :
    Run exec AnyStep c ((i, a) :: (j, b) :: trace) c' := by
  cases h with
  | cons hb _ h =>
    cases h with
    | cons ha _ h =>
      cases hb with
      | @act nextb hb =>
        cases ha with
        | @act nexta ha =>
          simp only [Function.update_of_ne hij.symm] at ha
          obtain ⟨hrb, hra, hs⟩ := hex b a c.shared hind
          have hb' : (Function.update c.threads i (nexta (exec a c.shared).1)) j = .act b nextb := by
            rw [Function.update_of_ne hij, hb]
          refine .cons (.act ha) trivial (.cons (.act hb') trivial ?_)
          · have hcomm := Function.update_comm hij (nextb (exec b c.shared).1)
              (nexta (exec a (exec b c.shared).2).1) c.threads
            simpa only [hrb, ← hs, ← hra, hcomm] using h

/-- An action moves behind a block of independent actions of another thread. -/
theorem Run.push (hex : Exchangeable exec Independent) {i j : ι} {b : A} (hij : j ≠ i)
    {front rest : List (ι × A)} (hfront : ∀ x ∈ front, x.1 = i ∧ Independent b x.2)
    (h : Run exec AnyStep c ((j, b) :: (front ++ rest)) c') :
    Run exec AnyStep c (front ++ (j, b) :: rest) c' := by
  induction front generalizing c with
  | nil => exact h
  | cons x front ih =>
    obtain ⟨k, a⟩ := x
    obtain ⟨rfl, hind⟩ := hfront _ List.mem_cons_self
    cases h.swap hex hij hind with
    | cons hs hok hr =>
      exact .cons hs hok (ih (fun x hx => hfront x (List.mem_cons_of_mem _ hx)) hr)

/-- The actions of thread `i` move to the front when nothing before them conflicts. -/
theorem Run.pull (hex : Exchangeable exec Independent) {i : ι}
    (hind : trace.Pairwise fun x y => x.1 ≠ i → y.1 = i → Independent x.2 y.2)
    (h : Run exec AnyStep c trace c') :
    Run exec AnyStep c (trace.filter (·.1 = i) ++ trace.filter (·.1 ≠ i)) c' := by
  induction trace generalizing c with
  | nil => exact h
  | cons x trace ih =>
    obtain ⟨j, b⟩ := x
    obtain ⟨hx, htrace⟩ := List.pairwise_cons.mp hind
    cases h with
    | cons hs hok hr =>
      have hrun := ih htrace hr
      by_cases hj : j = i
      · simp only [List.filter_cons, hj, decide_true, if_true, ne_eq, not_true_eq_false,
          decide_false, Bool.false_eq_true, if_false, List.cons_append]
        subst hj
        exact .cons hs hok hrun
      · simp only [List.filter_cons, hj, decide_false, Bool.false_eq_true, if_false, ne_eq,
          not_false_eq_true, decide_true, if_true]
        refine Run.push hex hj ?_ (.cons hs hok hrun)
        intro y hy
        obtain ⟨hmem, hyi⟩ := List.mem_filter.mp hy
        have hyi' := of_decide_eq_true hyi
        exact ⟨hyi', hx y hmem hj hyi'⟩

theorem Respects.filter_ne {i : ι} {order : List ι} (h : Respects Independent (i :: order) trace) :
    Respects Independent order (trace.filter (·.1 ≠ i)) := by
  have hne : ∀ x ∈ trace.filter (·.1 ≠ i), x.1 ≠ i :=
    fun x hx => of_decide_eq_true (List.mem_filter.mp hx).2
  refine (List.Pairwise.filter _ h).imp_of_mem ?_
  intro x y hx hy hxy hneq hconf
  have hlt := hxy hneq hconf
  rw [List.idxOf_cons_ne _ (hne x hx).symm, List.idxOf_cons_ne _ (hne y hy).symm] at hlt
  omega

/-- A schedule in which all conflicts follow `order` ends in the state of the serial execution in
that order, once no thread is going to change the state any more. -/
theorem Run.serializable (hex : Exchangeable exec Independent) {order : List ι}
    (hnodup : order.Nodup) (hall : ∀ x ∈ trace, x.1 ∈ order)
    (hpassive : ∀ i ∈ order, ∀ s, ((c'.threads i).run exec s).2 = s)
    (hord : Respects Independent order trace) (h : Run exec AnyStep c trace c') :
    c'.shared = serial exec c.threads order c.shared := by
  induction order generalizing c trace with
  | nil =>
    cases h with
    | nil _ => rfl
    | cons _ _ _ => exact absurd (hall _ List.mem_cons_self) List.not_mem_nil
  | cons i order ih =>
    obtain ⟨hi, hnodup'⟩ := List.nodup_cons.mp hnodup
    have hpull := h.pull hex (i := i) (hord.imp fun {x y} hxy hx hy => by
      by_contra hconf
      have hlt := hxy (hy ▸ hx) hconf
      rw [hy, List.idxOf_cons_self] at hlt
      omega)
    obtain ⟨m, hfront, hrest⟩ := hpull.append_inv
    have hmi : m.threads i = c'.threads i := (hrest.threads_of_absent fun x hx =>
      of_decide_eq_true (List.mem_filter.mp hx).2).symm
    have halone := hfront.alone fun x hx => of_decide_eq_true (List.mem_filter.mp hx).2
    have hrun : ((c.threads i).run exec c.shared).2 = m.shared := by
      rw [halone, hmi]
      exact hpassive i List.mem_cons_self m.shared
    have hothers : ∀ j ∈ order, m.threads j = c.threads j := fun j hj =>
      hfront.threads_of_absent fun x hx hxj => hi <| by
        have hxi : x.1 = i := of_decide_eq_true (List.mem_filter.mp hx).2
        rwa [← hxi, hxj]
    have hmem : ∀ x ∈ trace.filter (·.1 ≠ i), x.1 ∈ order := by
      intro x hx
      obtain ⟨hxt, hxi⟩ := List.mem_filter.mp hx
      exact (List.mem_cons.mp (hall x hxt)).resolve_left (of_decide_eq_true hxi)
    rw [ih hnodup' hmem (fun j hj => hpassive j (List.mem_cons_of_mem i hj)) hord.filter_ne hrest,
      serial_cons, hrun, serial_congr _ hothers]

end Schedules

section Observers

variable {Obs : A → Prop}

/-- When the observing actions do not change the state, a schedule reaches the same state without
them: the threads that got to their observations stop there. -/
theorem Run.skip [DecidableEq ι] [DecidablePred Obs] {c c' d : Pool ι A R α S}
    {trace : List (ι × A)} (hobs : ∀ a s, Obs a → (exec a s).2 = s)
    (h : Run exec AnyStep c trace c') (hshared : d.shared = c.shared)
    (hthreads : ∀ i, (d.threads i = c.threads i ∧ (c.threads i).ObservesLast Obs) ∨
      ((d.threads i).Uses Obs ∧ (c.threads i).Uses Obs)) :
    ∃ d', Run exec AnyStep d (trace.filter fun x => ¬ Obs x.2) d' ∧ d'.shared = c'.shared ∧
      ∀ i, d'.threads i = c'.threads i ∨ (d'.threads i).Uses Obs := by
  induction h generalizing d with
  | nil c => exact ⟨d, .nil d, hshared, fun i => (hthreads i).imp (fun h => h.1) fun h => h.1⟩
  | @cons c c₁ c' i a trace hs _ _ ih =>
    cases hs with
    | @act next hi =>
      by_cases ha : Obs a
      · have hsame := hobs a c.shared ha
        have hrest : (d.threads i).Uses Obs ∧ ∀ r, (next r).Uses Obs := by
          rcases hthreads i with ⟨hd, hlast⟩ | ⟨hd, huses⟩
          · rw [hi] at hd hlast
            rw [hd]
            rcases hlast with ⟨_, hnext⟩ | ⟨hnot, _⟩
            · exact ⟨⟨ha, hnext⟩, hnext⟩
            · exact absurd ha hnot
          · rw [hi] at huses
            exact ⟨hd, huses.2⟩
        rw [List.filter_cons_of_neg (by simpa using ha)]
        refine ih (hshared.trans hsame.symm) fun j => ?_
        by_cases hj : j = i
        · subst hj
          simp only [Function.update_self]
          exact Or.inr ⟨hrest.1, hrest.2 _⟩
        · simp only [Function.update_of_ne hj]
          exact hthreads j
      · have hd : d.threads i = .act a next ∧ ∀ r, (next r).ObservesLast Obs := by
          rcases hthreads i with ⟨hd, hlast⟩ | ⟨_, huses⟩
          · rw [hi] at hd hlast
            exact ⟨hd, (hlast.resolve_left fun h => ha h.1).2⟩
          · rw [hi] at huses
            exact absurd huses.1 ha
        rw [List.filter_cons_of_pos (by simpa using ha)]
        have hrest := ih (d := ⟨(exec a d.shared).2,
            Function.update d.threads i (next (exec a d.shared).1)⟩) (by simp only [hshared])
          fun j => by
            by_cases hj : j = i
            · subst hj
              dsimp only
              rw [Function.update_self, Function.update_self, hshared]
              exact Or.inl ⟨rfl, hd.2 _⟩
            · simp only [Function.update_of_ne hj]
              exact hthreads j
        obtain ⟨d', hrun, hshared', hthreads'⟩ := hrest
        exact ⟨d', .cons (.act hd.1) trivial hrun, hshared', hthreads'⟩

end Observers

end Concurrent.Pool
