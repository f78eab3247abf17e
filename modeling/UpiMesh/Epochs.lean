import UpiMesh.Independence
import UpiMesh.Lib.Projection

/-!
# The two epochs of a reset

A reset clears one store after another, so that each store changes epochs at a time of its own. An
operation is on one side of the reset when all its steps find the stores of one epoch. A read may be on
the wrong side of the clear if it is answered as in the epoch of its operation.
-/

namespace UpiMesh

open Concurrent

namespace Store

/-- The servers have the same in the store. -/
def Same : Store → Server → Server → Prop
  | .device d, s, t => s.held d = t.held d
  | .cache, s, t => s.seen = t.seen
  | .database, s, t => s.db = t.db

variable {X Y : Store} {s t u : Server}

theorem Same.refl (X : Store) (s : Server) : X.Same s s := by
  cases X <;> rfl

theorem Same.symm (h : X.Same s t) : X.Same t s := by
  cases X <;> exact Eq.symm h

theorem Same.trans (h : X.Same s t) (h' : X.Same t u) : X.Same s u := by
  cases X <;> exact Eq.trans h h'

/-- The first server with the store of the second one. -/
def replace : Store → Server → Server → Server
  | .device d, s, t => s.updateDevice d fun _ => t.held d
  | .cache, s, t => { s with seen := t.seen }
  | .database, s, t => { s with db := t.db }

theorem replace_same (X : Store) (s t : Server) : X.Same (X.replace s t) t := by
  cases X with
  | device d => exact Function.update_self ..
  | cache => rfl
  | database => rfl

theorem replace_other (h : Y ≠ X) : Y.Same (X.replace s t) s := by
  cases X with
  | device d =>
    cases Y with
    | device e =>
      have hne : e ≠ d := fun he => h (congrArg device he)
      exact Function.update_of_ne hne ..
    | cache => rfl
    | database => rfl
  | cache =>
    cases Y with
    | cache => exact absurd rfl h
    | device e => rfl
    | database => rfl
  | database =>
    cases Y with
    | database => exact absurd rfl h
    | device e => rfl
    | cache => rfl

end Store

theorem Server.eq_of_same {s t : Server} (h : ∀ X : Store, X.Same s t) : s = t :=
  Server.ext (funext fun d => h (.device d)) (h .cache) (h .database)

/-- The server with all stores cleared. -/
def Server.wiped (s : Server) : Server := ⟨fun _ => ∅, ∅, s.db.reseeded⟩

namespace Action

variable {a : Action} {X : Store} {s t : Server}

/-- An action sees and changes only its store. -/
theorem exec_same (h : a.store.Same s t) :
    (a.exec s).1 = (a.exec t).1 ∧ a.store.Same (a.exec s).2 (a.exec t).2 := by
  cases hstore : a.store with
  | device d =>
    obtain ⟨r, f, hexec⟩ := exec_device hstore
    rw [hstore] at h
    change s.held d = t.held d at h
    rw [hexec, hexec, h]
    refine ⟨rfl, ?_⟩
    simp only [Store.Same, Server.updateDevice, Function.update_self, h]
  | cache =>
    obtain ⟨r, f, hexec⟩ := exec_cache hstore
    rw [hstore] at h
    change s.seen = t.seen at h
    rw [hexec, hexec, h]
    exact ⟨rfl, rfl⟩
  | database =>
    obtain ⟨r, f, hexec⟩ := exec_database hstore
    rw [hstore] at h
    change s.db = t.db at h
    rw [hexec, hexec, h]
    exact ⟨rfl, rfl⟩

theorem exec_other (h : X ≠ a.store) (s : Server) : X.Same (a.exec s).2 s := by
  cases hstore : a.store with
  | device d =>
    obtain ⟨r, f, hexec⟩ := exec_device hstore
    rw [hexec]
    cases X with
    | device e =>
      have hne : e ≠ d := fun he => h (hstore ▸ congrArg Store.device he)
      exact Function.update_of_ne hne ..
    | cache => rfl
    | database => rfl
  | cache =>
    obtain ⟨r, f, hexec⟩ := exec_cache hstore
    rw [hexec]
    cases X with
    | cache => exact absurd hstore.symm h
    | device e => rfl
    | database => rfl
  | database =>
    obtain ⟨r, f, hexec⟩ := exec_database hstore
    rw [hexec]
    cases X with
    | database => exact absurd hstore.symm h
    | device e => rfl
    | cache => rfl

/-- The action only reads, and gets the same answer in both servers. -/
def ReadsAlike (a : Action) (s t : Server) : Prop := a.ReadsOnly ∧ (a.exec s).1 = (a.exec t).1

instance : DecidablePred ReadsOnly
  | .holds _ _ => isTrue trivial
  | .packetCount _ => isTrue trivial
  | .getHeldPackets _ _ => isTrue trivial
  | .findById _ _ => isTrue trivial
  | .hold _ _ => isFalse id
  | .clearDevice _ => isFalse id
  | .claim _ _ => isFalse id
  | .evictExpired _ => isFalse id
  | .clearSeen => isFalse id
  | .settleBlock .. => isFalse id
  | .saveTransaction _ _ => isFalse id
  | .resetDatabase _ => isFalse id

instance (s t : Server) : (a : Action) → Decidable (a.ReadsAlike s t)
  | .holds d packetId => inferInstanceAs (Decidable (True ∧
      VirtualDevice.holds packetId (s.held d) = VirtualDevice.holds packetId (t.held d)))
  | .packetCount d => inferInstanceAs (Decidable (True ∧
      VirtualDevice.packetCount (s.held d) = VirtualDevice.packetCount (t.held d)))
  | .getHeldPackets d order => inferInstanceAs (Decidable (True ∧
      VirtualDevice.getHeldPackets order (s.held d) = VirtualDevice.getHeldPackets order (t.held d)))
  | .findById vpa fault => inferInstanceAs (Decidable (True ∧
      AccountRepository.findById vpa fault s.db = AccountRepository.findById vpa fault t.db))
  | .hold _ _ => isFalse And.left
  | .clearDevice _ => isFalse And.left
  | .claim _ _ => isFalse And.left
  | .evictExpired _ => isFalse And.left
  | .clearSeen => isFalse And.left
  | .settleBlock .. => isFalse And.left
  | .saveTransaction _ _ => isFalse And.left
  | .resetDatabase _ => isFalse And.left

/-- What is cleared answers like a new server. -/
theorem exec_wiped (h : a.ReadsOnly) (s : Server) :
    (a.exec s.wiped).1 = (a.exec Server.initial).1 := by
  cases a with
  | holds d packetId => rfl
  | packetCount d => rfl
  | getHeldPackets d order => rfl
  | findById vpa fault => cases fault <;> rfl
  | _ => exact h.elim

end Action

theorem run_other {α : Type} {p : Service α} {X : Store} (h : p.Uses fun a => X ≠ a.store) (s : Server) :
    X.Same (p.run s).2 s := by
  induction p generalizing s with
  | ret x => exact .refl X s
  | act a next ih => exact (ih _ (h.2 _) _).trans (Action.exec_other h.1 s)

section Epochs

variable {ι : Type} (r : ι)

/-- Thread `r` is still going to clear the store. -/
def Ahead (rest : List (ι × Action)) (X : Store) : Prop := ∃ y ∈ rest, y.1 = r ∧ y.2.store = X

instance [DecidableEq ι] (rest : List (ι × Action)) (X : Store) : Decidable (Ahead r rest X) :=
  inferInstanceAs (Decidable (∃ y ∈ rest, y.1 = r ∧ y.2.store = X))

/-- The server as the clears of thread `r` find it, store by store. -/
def found [DecidableEq ι] : List (ι × Action) → Server → Server → Server
  | [], _, old => old
  | x :: rest, s, old => found rest (x.2.exec s).2 (if x.1 = r then x.2.store.replace old s else old)

/-- The sides of a reset. An operation that only reads may be on neither. -/
inductive Side where
  | before
  | after
  | idle
  | reset
  deriving DecidableEq, Repr

/-- What an operation may do to a store that is, or is not, still to be cleared. -/
def Side.Allows (old : Server) (ahead : Prop) (a : Action) (s : Server) : Side → Prop
  | .before => ahead ∨ a.ReadsAlike s old
  | .after => ¬ ahead ∨ a.ReadsAlike s Server.initial
  | .idle => a.ReadsOnly
  | .reset => True

instance (old : Server) (ahead : Prop) [Decidable ahead] (a : Action) (s : Server) :
    (side : Side) → Decidable (side.Allows old ahead a s)
  | .before => inferInstanceAs (Decidable (ahead ∨ a.ReadsAlike s old))
  | .after => inferInstanceAs (Decidable (¬ ahead ∨ a.ReadsAlike s Server.initial))
  | .idle => inferInstanceAs (Decidable a.ReadsOnly)
  | .reset => isTrue trivial

/-- Every step is one that the side of its operation allows. -/
def Sided [DecidableEq ι] (side : ι → Side) (trace : List (ι × Action)) (s : Server) : Prop :=
  Pool.Along Action.exec (fun x s' rest => x.2.Counts ∨
    (side x.1).Allows (found r trace s s) (Ahead r rest x.2.store) x.2 s') trace s

instance [DecidableEq ι] (side : ι → Side) (trace : List (ι × Action)) (s : Server) :
    Decidable (Sided r side trace s) := Pool.Along.decidable trace s

/-- Thread `r` clears each of the stores once. -/
structure ClearsOnce (clears : List Action) (trace : List (ι × Action)) : Prop where
  only : ∀ x ∈ trace, x.1 = r → x.2 ∈ clears
  once : trace.Pairwise fun x y => x.1 = r → y.1 = r → x.2.store ≠ y.2.store
  all : ∀ a ∈ clears, Ahead r trace a.store

variable {r} {rest trace : List (ι × Action)} {s t : Server} {X : Store} {i : ι} {a : Action}

theorem ahead_cons_self : Ahead r ((r, a) :: rest) X ↔ a.store = X ∨ Ahead r rest X := by
  simp only [Ahead, List.exists_mem_cons_iff, true_and]

theorem ahead_cons_of_ne (h : i ≠ r) : Ahead r ((i, a) :: rest) X ↔ Ahead r rest X := by
  simp only [Ahead, List.exists_mem_cons_iff, h, false_and, false_or]

section Found

variable [DecidableEq ι]

theorem found_of_not_ahead (h : ¬ Ahead r trace X) (old : Server) : X.Same (found r trace s old) old := by
  induction trace generalizing s old with
  | nil => exact .refl X old
  | cons x rest ih =>
    obtain ⟨i, a⟩ := x
    rw [found]
    by_cases hi : i = r
    · subst hi
      rw [ahead_cons_self, not_or] at h
      rw [if_pos rfl]
      exact (ih h.2 _).trans (Store.replace_other (Ne.symm h.1))
    · rw [ahead_cons_of_ne hi] at h
      rw [if_neg hi]
      exact ih h old

/-- What a clear has found is not replaced any more. -/
theorem along_found (old : Server) : Pool.Along Action.exec (fun x s' rest => x.1 = r →
    ¬ Ahead r rest x.2.store → x.2.store.Same s' (found r trace s old)) trace s := by
  induction trace generalizing s old with
  | nil => exact trivial
  | cons x rest ih =>
    refine ⟨fun hx hrest => ?_, ih _⟩
    rw [found, if_pos hx]
    exact ((found_of_not_ahead hrest _).trans (Store.replace_same _ old s)).symm

end Found

/-- What is known of a step, with `old` as the clears find the server. -/
structure Permitted (r : ι) (side : ι → Side) (clears : List Action) (old : Server) (x : ι × Action)
    (s : Server) (rest : List (ι × Action)) : Prop where
  allowed : (side x.1).Allows old (Ahead r rest x.2.store) x.2 s
  clear : x.1 = r → x.2 ∈ clears
  last : x.1 = r → ¬ Ahead r rest x.2.store
  finds : x.1 = r → x.2.store.Same s old

/-- `t` is where the operations before the reset, alone, would have got to. -/
structure OldEpoch (r : ι) (old : Server) (rest : List (ι × Action)) (s t : Server) : Prop where
  ahead : ∀ X, Ahead r rest X → X.Same s t
  done : ∀ X, ¬ Ahead r rest X → X.Same t old

/-- `t` is where the operations after the reset, alone, would have got to. -/
structure NewEpoch (r : ι) (old : Server) (rest : List (ι × Action)) (s t : Server) : Prop where
  ahead : ∀ X, Ahead r rest X → X.Same t old.wiped
  done : ∀ X, ¬ Ahead r rest X → X.Same s t

variable {side : ι → Side} {clears : List Action} {old : Server}

section Steps

variable (hside : ∀ i, side i = .reset ↔ i = r) (hp : Permitted r side clears old (i, a) s rest)

include hside hp

theorem OldEpoch.kept (hi : side i = .before) (h : OldEpoch r old ((i, a) :: rest) s t) :
    (a.exec s).1 = (a.exec t).1 ∧ OldEpoch r old rest (a.exec s).2 (a.exec t).2 := by
  have hne : i ≠ r := fun hir => by
    have hreset := (hside i).mpr hir
    rw [hi] at hreset
    cases hreset
  have hcons : ∀ X, Ahead r ((i, a) :: rest) X ↔ Ahead r rest X := fun _ => ahead_cons_of_ne hne
  by_cases hahead : Ahead r rest a.store
  · obtain ⟨hresponse, hstore⟩ := Action.exec_same (h.ahead _ ((hcons _).mpr hahead))
    refine ⟨hresponse, fun X hX => ?_, fun X hX => ?_⟩
    · by_cases hXa : X = a.store
      · exact hXa ▸ hstore
      · have hsame := h.ahead X ((hcons X).mpr hX)
        exact ((Action.exec_other hXa s).trans hsame).trans (Action.exec_other hXa t).symm
    · have hXa : X ≠ a.store := fun hXa => hX (hXa ▸ hahead)
      exact (Action.exec_other hXa t).trans (h.done X fun hin => hX ((hcons X).mp hin))
  · have hallowed := hp.allowed
    rw [hi] at hallowed
    obtain ⟨hreads, hresponse⟩ := hallowed.resolve_left hahead
    have hold := (Action.exec_same (h.done _ fun hin => hahead ((hcons _).mp hin))).1
    rw [Action.exec_readsOnly hreads, Action.exec_readsOnly hreads]
    exact ⟨hresponse.trans hold.symm, fun X hX => h.ahead X ((hcons X).mpr hX),
      fun X hX => h.done X fun hin => hX ((hcons X).mp hin)⟩

theorem OldEpoch.dropped (hi : side i ≠ .before) (h : OldEpoch r old ((i, a) :: rest) s t) :
    OldEpoch r old rest (a.exec s).2 t := by
  have hallowed := hp.allowed
  by_cases hir : i = r
  · subst hir
    refine ⟨fun X hX => ?_, fun X hX => ?_⟩
    · have hXa : X ≠ a.store := fun hXa => hp.last rfl (hXa ▸ hX)
      exact (Action.exec_other hXa s).trans (h.ahead X (ahead_cons_self.mpr (Or.inr hX)))
    · by_cases hXa : X = a.store
      · subst hXa
        exact (h.ahead _ (ahead_cons_self.mpr (Or.inl rfl))).symm.trans (hp.finds rfl)
      · refine h.done X fun hin => ?_
        rcases ahead_cons_self.mp hin with hstore | hin
        · exact hXa hstore.symm
        · exact hX hin
  · have hcons : ∀ X, Ahead r ((i, a) :: rest) X ↔ Ahead r rest X := fun _ => ahead_cons_of_ne hir
    have hdone : ∀ X, ¬ Ahead r rest X → X.Same t old := fun X hX => h.done X fun hin => hX ((hcons X).mp hin)
    have hreads : a.ReadsOnly → OldEpoch r old rest (a.exec s).2 t := fun hreads => by
      rw [Action.exec_readsOnly hreads]
      exact ⟨fun X hX => h.ahead X ((hcons X).mpr hX), hdone⟩
    cases hs : side i with
    | before => exact absurd hs hi
    | reset => exact absurd ((hside i).mp hs) hir
    | idle =>
      rw [hs] at hallowed
      exact hreads hallowed
    | after =>
      rw [hs] at hallowed
      rcases hallowed with hcleared | ⟨hread, -⟩
      · refine ⟨fun X hX => ?_, hdone⟩
        have hXa : X ≠ a.store := fun hXa => hcleared (hXa ▸ hX)
        exact (Action.exec_other hXa s).trans (h.ahead X ((hcons X).mpr hX))
      · exact hreads hread

theorem NewEpoch.kept (hi : side i = .after) (h : NewEpoch r old ((i, a) :: rest) s t) :
    (a.exec s).1 = (a.exec t).1 ∧ NewEpoch r old rest (a.exec s).2 (a.exec t).2 := by
  have hne : i ≠ r := fun hir => by
    have hreset := (hside i).mpr hir
    rw [hi] at hreset
    cases hreset
  have hcons : ∀ X, Ahead r ((i, a) :: rest) X ↔ Ahead r rest X := fun _ => ahead_cons_of_ne hne
  by_cases hahead : Ahead r rest a.store
  · have hallowed := hp.allowed
    rw [hi] at hallowed
    obtain ⟨hreads, hresponse⟩ := hallowed.resolve_left (not_not_intro hahead)
    have hwiped := (Action.exec_same (h.ahead _ ((hcons _).mpr hahead))).1
    rw [Action.exec_readsOnly hreads, Action.exec_readsOnly hreads]
    refine ⟨?_, fun X hX => h.ahead X ((hcons X).mpr hX),
      fun X hX => h.done X fun hin => hX ((hcons X).mp hin)⟩
    calc (a.exec s).1 = (a.exec Server.initial).1 := hresponse
      _ = (a.exec old.wiped).1 := (Action.exec_wiped hreads old).symm
      _ = (a.exec t).1 := hwiped.symm
  · obtain ⟨hresponse, hstore⟩ := Action.exec_same (h.done _ fun hin => hahead ((hcons _).mp hin))
    refine ⟨hresponse, fun X hX => ?_, fun X hX => ?_⟩
    · have hXa : X ≠ a.store := fun hXa => hahead (hXa ▸ hX)
      exact (Action.exec_other hXa t).trans (h.ahead X ((hcons X).mpr hX))
    · by_cases hXa : X = a.store
      · exact hXa ▸ hstore
      · have hsame := h.done X fun hin => hX ((hcons X).mp hin)
        exact ((Action.exec_other hXa s).trans hsame).trans (Action.exec_other hXa t).symm

theorem NewEpoch.dropped
    (hclears : ∀ a ∈ clears, ∀ s, a.store.Same s old → a.store.Same (a.exec s).2 old.wiped)
    (hi : side i ≠ .after) (h : NewEpoch r old ((i, a) :: rest) s t) :
    NewEpoch r old rest (a.exec s).2 t := by
  have hallowed := hp.allowed
  by_cases hir : i = r
  · subst hir
    refine ⟨fun X hX => h.ahead X (ahead_cons_self.mpr (Or.inr hX)), fun X hX => ?_⟩
    by_cases hXa : X = a.store
    · subst hXa
      have hwiped := h.ahead _ (ahead_cons_self.mpr (Or.inl rfl))
      exact (hclears a (hp.clear rfl) s (hp.finds rfl)).trans hwiped.symm
    · refine (Action.exec_other hXa s).trans (h.done X fun hin => ?_)
      rcases ahead_cons_self.mp hin with hstore | hin
      · exact hXa hstore.symm
      · exact hX hin
  · have hcons : ∀ X, Ahead r ((i, a) :: rest) X ↔ Ahead r rest X := fun _ => ahead_cons_of_ne hir
    have hahead : ∀ X, Ahead r rest X → X.Same t old.wiped := fun X hX => h.ahead X ((hcons X).mpr hX)
    have hreads : a.ReadsOnly → NewEpoch r old rest (a.exec s).2 t := fun hreads => by
      rw [Action.exec_readsOnly hreads]
      exact ⟨hahead, fun X hX => h.done X fun hin => hX ((hcons X).mp hin)⟩
    cases hs : side i with
    | after => exact absurd hs hi
    | reset => exact absurd ((hside i).mp hs) hir
    | idle =>
      rw [hs] at hallowed
      exact hreads hallowed
    | before =>
      rw [hs] at hallowed
      rcases hallowed with huncleared | ⟨hread, -⟩
      · refine ⟨hahead, fun X hX => ?_⟩
        have hXa : X ≠ a.store := fun hXa => hX (hXa ▸ huncleared)
        exact (Action.exec_other hXa s).trans (h.done X fun hin => hX ((hcons X).mp hin))
      · exact hreads hread

end Steps

/-- The steps that only count are left out. -/
abbrev withoutCounts (trace : List (ι × Action)) : List (ι × Action) := trace.filter fun x => ¬ x.2.Counts

theorem Action.exec_counts (h : a.Counts) (s : Server) : (a.exec s).2 = s := by
  cases a with
  | packetCount d => rfl
  | _ => exact h.elim

theorem ClearsOnce.ahead_withoutCounts (honly : ∀ x ∈ trace, x.1 = r → x.2 ∈ clears)
    (hcounts : ∀ a ∈ clears, ¬ a.Counts) : Ahead r (withoutCounts trace) X ↔ Ahead r trace X := by
  constructor
  · rintro ⟨y, hy, hyr, hstore⟩
    exact ⟨y, (List.mem_filter.mp hy).1, hyr, hstore⟩
  · rintro ⟨y, hy, hyr, hstore⟩
    have hcount : ¬ y.2.Counts := hcounts _ (honly y hy hyr)
    exact ⟨y, List.mem_filter.mpr ⟨hy, by simpa using hcount⟩, hyr, hstore⟩

section Runs

variable [DecidableEq ι] {α : Type} {c c' : Pool ι Action Action.Response α Server}

theorem Sided.permitted (hclears : ClearsOnce r clears trace) (hcounts : ∀ a ∈ clears, ¬ a.Counts)
    (h : Sided r side trace s) : Pool.Along Action.exec
      (Permitted r side clears (found r trace s s)) (withoutCounts trace) s := by
  have hknown := (h.and (along_found (r := r) s)).and (Pool.along_of_pairwise hclears.only hclears.once)
  refine hknown.filter (fun x s hx => Action.exec_counts (not_not.mp hx) s) ?_
  rintro x s' rest hx ⟨⟨hallowed, hfound⟩, honly, hrest, honce⟩
  have hahead : ∀ X, Ahead r (withoutCounts rest) X ↔ Ahead r rest X :=
    fun X => ClearsOnce.ahead_withoutCounts hrest hcounts
  have hlast : x.1 = r → ¬ Ahead r rest x.2.store := by
    rintro hxr ⟨y, hy, hyr, hstore⟩
    exact honce y hy hxr hyr hstore.symm
  refine ⟨?_, honly, fun hxr => ?_, fun hxr => hfound hxr (hlast hxr)⟩
  · rw [propext (hahead x.2.store)]
    exact hallowed.resolve_left hx
  · rw [hahead]
    exact hlast hxr

/-- What the clears find is what the operations before the reset, alone, get to. -/
theorem exists_old_epoch (hside : ∀ i, side i = .reset ↔ i = r) (hclears : ClearsOnce r clears trace)
    (hcounts : ∀ a ∈ clears, ¬ a.Counts) (hsided : Sided r side trace c.shared)
    (hrun : Pool.Run Action.exec Pool.AnyStep c (withoutCounts trace) c') :
    ∃ d, Pool.Run Action.exec Pool.AnyStep c ((withoutCounts trace).filter fun x => side x.1 = .before) d ∧
      d.shared = found r trace c.shared c.shared ∧ ∀ i, side i = .before → d.threads i = c'.threads i := by
  have hstart : OldEpoch r (found r trace c.shared c.shared) (withoutCounts trace) c.shared c.shared := by
    refine ⟨fun X _ => .refl X _, fun X hX => (found_of_not_ahead (fun hin => hX ?_) _).symm⟩
    exact (ClearsOnce.ahead_withoutCounts hclears.only hcounts).mpr hin
  obtain ⟨d, hd, hend, hthreads⟩ := hrun.project (fun i => side i = .before)
    (fun i a rest s t hi hp h => h.kept hside hp hi) (fun i a rest s t hi hp h => h.dropped hside hp hi)
    (hsided.permitted hclears hcounts) hstart fun _ _ => rfl
  have hnone : ∀ X, ¬ Ahead r [] X := fun X ⟨_, hy, _⟩ => absurd hy List.not_mem_nil
  exact ⟨d, hd, Server.eq_of_same fun X => hend.done X (hnone X), hthreads⟩

/-- The operations after the reset, alone, get from what is left of a clear to where all end. -/
theorem exists_new_epoch (hside : ∀ i, side i = .reset ↔ i = r) (hclears : ClearsOnce r clears trace)
    (hcounts : ∀ a ∈ clears, ¬ a.Counts) (hsided : Sided r side trace c.shared)
    (hwipes : ∀ old : Server, ∀ a ∈ clears, ∀ s, a.store.Same s old → a.store.Same (a.exec s).2 old.wiped)
    (hrun : Pool.Run Action.exec Pool.AnyStep c (withoutCounts trace) c') {u : Server}
    (hcleared : ∀ X, Ahead r trace X → X.Same u (found r trace c.shared c.shared).wiped)
    (hkept : ∀ X, ¬ Ahead r trace X → X.Same u c.shared) :
    ∃ d, Pool.Run Action.exec Pool.AnyStep ⟨u, c.threads⟩
        ((withoutCounts trace).filter fun x => side x.1 = .after) d ∧
      d.shared = c'.shared ∧ ∀ i, side i = .after → d.threads i = c'.threads i := by
  have hahead : ∀ X, Ahead r (withoutCounts trace) X ↔ Ahead r trace X :=
    fun X => ClearsOnce.ahead_withoutCounts hclears.only hcounts
  have hstart : NewEpoch r (found r trace c.shared c.shared) (withoutCounts trace) c.shared u :=
    ⟨fun X hX => hcleared X ((hahead X).mp hX), fun X hX => (hkept X fun hin => hX ((hahead X).mpr hin)).symm⟩
  obtain ⟨d, hd, hend, hthreads⟩ := hrun.project (fun i => side i = .after)
    (fun i a rest s t hi hp h => h.kept hside hp hi)
    (fun i a rest s t hi hp h => h.dropped hside hp (hwipes _) hi)
    (hsided.permitted hclears hcounts) (d := ⟨u, c.threads⟩) hstart fun _ _ => rfl
  have hnone : ∀ X, ¬ Ahead r [] X := fun X ⟨_, hy, _⟩ => absurd hy List.not_mem_nil
  exact ⟨d, hd, (Server.eq_of_same fun X => hend.done X (hnone X)).symm, hthreads⟩

end Runs

end Epochs

end UpiMesh
