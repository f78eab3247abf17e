import UpiMesh.Lib.Locks

/-!
# Sections are atomic

`Implements` says that every action of a program is performed by a section that, on its own, does to
the data what the action does. `Related` relates a schedule of the sections to one of the actions: a
thread that holds no mutex stands where its program stands, and a thread within a section has already
taken effect there, with what the section is going to return and to leave behind.
-/

namespace Concurrent.Locking

variable {ι κ B A α β : Type} {RB : B → Type} {R : A → Type} {D : κ → Type}

theorem expand_ret_iff {f : (a : A) → Code ι κ RB (R a)} (hf : ∀ a r, f a ≠ .ret r)
    {p : Program A R α} {r : α} : p.expand f = .ret r ↔ p = .ret r := by
  cases p with
  | ret x =>
    rw [Program.expand]
    exact ⟨fun h => by cases h; rfl, fun h => by cases h; rfl⟩
  | act a next =>
    refine iff_of_false (fun h => ?_) (fun h => by cases h)
    cases hp : f a with
    | ret x => exact hf a x hp
    | act b rest =>
      rw [Program.expand, hp] at h
      cases h

/-- At depth zero a section has ended. -/
theorem ended {G : Guards κ B RB D} {i : ι} {k : κ} {p : Code ι κ RB α} {Q : ℕ → α → Prop}
    (hp : p.Follows (within G i k) Q 0) : ∃ r, p = .ret r := by
  cases p with
  | ret r => exact ⟨r, rfl⟩
  | act a next =>
    obtain ⟨hallows, -⟩ := hp
    cases a with
    | lock j l => exact absurd hallows.1 (Nat.lt_irrefl 0)
    | unlock j l => exact absurd hallows.1 (Nat.lt_irrefl 0)
    | access b => exact absurd hallows.1 (Nat.lt_irrefl 0)

variable [DecidableEq κ] (G : Guards κ B RB D) (perform : ι → (a : A) → Code ι κ RB (R a))
  (execA : (a : A) → ((k : κ) → D k) → R a × ((k : κ) → D k))

/-- Every action is performed by a section. -/
structure Implements : Prop where
  isSection : ∀ i a, ∃ k, IsSection G i k (perform i a)
  run : ∀ i a d, (perform i a).run (exec G) ⟨fun _ => none, d⟩ =
    ((execA a d).1, ⟨fun _ => none, (execA a d).2⟩)

/-- The state of all threads and of what they share. -/
abbrev Threads (ι κ : Type) {B : Type} (RB : B → Type) (D : κ → Type) (α : Type) : Type :=
  Pool ι (Locking ι κ B) (Response RB) α (Monitors ι κ D)

variable {G execA} {s : Monitors ι κ D} {i : ι} {k : κ} {n : ℕ}

/-- Thread `i` is within a section on `k`. Of its own program it has performed one action more, whose
response is what the section is going to return. -/
def Inside (c : Threads ι κ RB D α) (c' : Pool ι A R α ((k : κ) → D k)) (i : ι) (k : κ) (n : ℕ) :
    Prop :=
  ∃ (a : A) (q : Code ι κ RB (R a)) (next : R a → Program A R α),
    c.threads i = (q >>= fun r => (next r).expand (perform i)) ∧
    q.Follows (within G i k) (fun m _ => m = 0) (n + 1) ∧
    c'.threads i = next (q.run (exec G) c.shared).1 ∧
    c'.shared k = (q.run (exec G) c.shared).2.data k

variable (G)

structure Related (c : Threads ι κ RB D α) (c' : Pool ι A R α ((k : κ) → D k)) : Prop where
  outside : ∀ i, (∀ k n, c.shared.owner k ≠ some (i, n)) →
    c.threads i = (c'.threads i).expand (perform i)
  inside : ∀ i k n, c.shared.owner k = some (i, n) → Inside (G := G) perform c c' i k n
  alone : ∀ i k l m n, c.shared.owner k = some (i, m) → c.shared.owner l = some (i, n) → l = k
  free : ∀ k, c.shared.owner k = none → c'.shared k = c.shared.data k

variable {G perform} {c c₁ : Threads ι κ RB D α} {c' c₁' : Pool ι A R α ((k : κ) → D k)}

theorem Implements.ne_ret (h : Implements G perform execA) (i : ι) (a : A) (r : R a) :
    perform i a ≠ .ret r := by
  obtain ⟨k, next, hnext, -⟩ := h.isSection i a
  rw [hnext]
  intro hret
  cases hret

theorem Related.initially (threads : ι → Program A R α) (d : (k : κ) → D k) :
    Related G perform ⟨⟨fun _ => none, d⟩, fun i => (threads i).expand (perform i)⟩
      ⟨d, threads⟩ where
  outside _ _ := rfl
  inside _ _ _ h := by cases h
  alone _ _ _ _ _ h := by cases h
  free _ _ := rfl

/-- Other threads do not disturb a section: neither their steps on other mutexes nor what they make
of the rest of the data shows in it. -/
theorem Inside.frame (h : Inside (G := G) perform c c' i k n) (hthread : c₁.threads i = c.threads i)
    (hthread' : c₁'.threads i = c'.threads i) (hshared : Agree k c₁.shared c.shared)
    (hshared' : c₁'.shared k = c'.shared k) : Inside (G := G) perform c₁ c₁' i k n := by
  obtain ⟨a, q, next, hq, hfollows, hnext, hdata⟩ := h
  obtain ⟨hresponse, hagree⟩ := run_agree hfollows hshared
  refine ⟨a, q, next, hthread.trans hq, hfollows, ?_, ?_⟩
  · rw [hthread', hnext, hresponse]
  · rw [hshared', hdata, hagree.2]

/-- A step of thread `i` that concerns the mutex `k` only, and leaves the thread within a section on it
or without any mutex. -/
theorem Related.step_on (h : Related G perform c c') (hthreads : ∀ j, j ≠ i → c₁.threads j = c.threads j)
    (hthreads' : ∀ j, j ≠ i → c₁'.threads j = c'.threads j)
    (hshared : ∀ l, l ≠ k → Agree l c₁.shared c.shared)
    (hshared' : ∀ l, l ≠ k → c₁'.shared l = c'.shared l)
    (howner : ∀ j m, c.shared.owner k = some (j, m) → j = i)
    (honly : ∀ l m, l ≠ k → c.shared.owner l ≠ some (i, m))
    (hend : (c₁.shared.owner k = none ∧ c₁.threads i = (c₁'.threads i).expand (perform i) ∧
        c₁'.shared k = c₁.shared.data k) ∨
      ∃ n, c₁.shared.owner k = some (i, n) ∧ Inside (G := G) perform c₁ c₁' i k n) :
    Related G perform c₁ c₁' := by
  have howner₁ : ∀ j m, c₁.shared.owner k = some (j, m) → j = i := by
    intro j m hj
    rcases hend with ⟨hnone, -⟩ | ⟨n, hsome, -⟩
    · rw [hnone] at hj
      cases hj
    · rw [hsome] at hj
      exact (Prod.mk.inj (Option.some.inj hj)).1.symm
  have honly₁ : ∀ l m, l ≠ k → c₁.shared.owner l ≠ some (i, m) := by
    intro l m hl
    rw [(hshared l hl).1]
    exact honly l m hl
  refine ⟨fun j hj => ?_, fun j l m hl => ?_, fun j l l' m m' hl hl' => ?_, fun l hl => ?_⟩
  · by_cases hji : j = i
    · subst hji
      rcases hend with ⟨-, hexpand, -⟩ | ⟨n, hsome, -⟩
      · exact hexpand
      · exact absurd hsome (hj k n)
    · rw [hthreads j hji, hthreads' j hji]
      refine h.outside j fun l m hlm => ?_
      by_cases hlk : l = k
      · subst hlk
        exact hji (howner j m hlm)
      · exact hj l m ((hshared l hlk).1.trans hlm)
  · by_cases hlk : l = k
    · subst hlk
      rcases hend with ⟨hnone, -⟩ | ⟨n, hsome, hinside⟩
      · rw [hnone] at hl
        cases hl
      · rw [hsome] at hl
        obtain ⟨rfl, rfl⟩ := Prod.mk.inj (Option.some.inj hl)
        exact hinside
    · have hji : j ≠ i := by
        rintro rfl
        exact honly₁ l m hlk hl
      rw [(hshared l hlk).1] at hl
      exact (h.inside j l m hl).frame (hthreads j hji) (hthreads' j hji) (hshared l hlk)
        (hshared' l hlk)
  · by_cases hji : j = i
    · subst hji
      have hlk : l = k := by_contra fun hne => honly₁ l m hne hl
      have hlk' : l' = k := by_contra fun hne => honly₁ l' m' hne hl'
      rw [hlk, hlk']
    · have hlk : l ≠ k := by
        rintro rfl
        exact hji (howner₁ j m hl)
      have hlk' : l' ≠ k := by
        rintro rfl
        exact hji (howner₁ j m' hl')
      rw [(hshared l hlk).1] at hl
      rw [(hshared l' hlk').1] at hl'
      exact h.alone j l l' m m' hl hl'
  · by_cases hlk : l = k
    · subst hlk
      rcases hend with ⟨-, -, hdata⟩ | ⟨n, hsome, -⟩
      · exact hdata
      · rw [hsome] at hl
        cases hl
    · rw [(hshared l hlk).1] at hl
      rw [hshared' l hlk, h.free l hl, (hshared l hlk).2]

/-- What the section of an action leaves behind on its own component and on the others. -/
theorem Implements.section_run (h : Implements G perform execA) {a : A}
    {body : Unit → Code ι κ RB (R a)} (hbody : perform i a = .act (.lock i k) body)
    (hfollows : (body ()).Follows (within G i k) (fun m _ => m = 0) 1) {d : (k : κ) → D k}
    (hs : s.owner k = some (i, 0)) (hd : d k = s.data k) :
    (execA a d).1 = ((body ()).run (exec G) s).1 ∧
      (execA a d).2 k = ((body ()).run (exec G) s).2.data k ∧
      ∀ l, l ≠ k → (execA a d).2 l = d l := by
  have hrun := h.run i a d
  rw [hbody, Program.run_act] at hrun
  have hlocked : Agree k s (exec G (.lock i k) (⟨fun _ => none, d⟩ : Monitors ι κ D)).2 :=
    ⟨by simp [exec, hs, Guarded.acquire], hd.symm⟩
  obtain ⟨hresponse, hagree⟩ := run_agree hfollows hlocked
  have hother := fun l (hl : l ≠ k) => (run_other hfollows hl
    (s := (exec G (.lock i k) (⟨fun _ => none, d⟩ : Monitors ι κ D)).2)).2
  rw [hrun] at hresponse hagree hother
  exact ⟨hresponse.symm, hagree.2.symm, hother⟩

/-- A thread without a mutex that has a step to take has an action to perform. -/
theorem Related.next_action (h : Related G perform c c')
    (hout : ∀ k n, c.shared.owner k ≠ some (i, n)) (hi : ∀ r, c.threads i ≠ .ret r) :
    ∃ a next, c'.threads i = .act a next := by
  have hthread := h.outside i hout
  cases hp : c'.threads i with
  | ret r =>
    rw [hp] at hthread
    exact absurd hthread (hi r)
  | act a next => exact ⟨a, next, rfl⟩

/-- What a thread is about to do, by the mutexes it holds. -/
theorem Related.next_step (himpl : Implements G perform execA) (h : Related G perform c c')
    {x : Locking ι κ B} {nextx : x.Response RB → Code ι κ RB α} (hi : c.threads i = .act x nextx) :
    (∃ k, x = .lock i k ∧ ∀ l n, c.shared.owner l ≠ some (i, n)) ∨
      ∃ k n, c.shared.owner k = some (i, n) ∧ (within G i k).allows (n + 1) x := by
  by_cases hout : ∀ k n, c.shared.owner k ≠ some (i, n)
  · obtain ⟨a, next, ha⟩ := h.next_action hout (fun r hr => by rw [hi] at hr; cases hr)
    obtain ⟨k, body, hbody, -⟩ := himpl.isSection i a
    have hthread := h.outside i hout
    rw [hi, ha, Program.expand, hbody] at hthread
    obtain ⟨rfl, -⟩ := Program.act.inj hthread
    exact Or.inl ⟨k, rfl, hout⟩
  · push Not at hout
    obtain ⟨k, n, hin⟩ := hout
    obtain ⟨a, q, next, hq, hfollows, -⟩ := h.inside i k n hin
    cases q with
    | ret r => exact absurd hfollows (Nat.succ_ne_zero n)
    | act y nexty =>
      rw [hi, Program.act_bind] at hq
      obtain ⟨rfl, -⟩ := Program.act.inj hq
      exact Or.inr ⟨k, n, hin, hfollows.1⟩

/-- A thread accesses only what it has locked. -/
theorem Related.owns (himpl : Implements G perform execA) (h : Related G perform c c') {b : B}
    {next : RB b → Code ι κ RB α} (hi : c.threads i = .act (.access b) next) :
    ∃ n, c.shared.owner (G.guard b) = some (i, n) := by
  rcases h.next_step himpl hi with ⟨k, hx, -⟩ | ⟨k, n, hin, hallows⟩
  · cases hx
  · obtain ⟨-, rfl⟩ := hallows
    exact ⟨n, hin⟩

/-- As long as a thread has not returned, one can go on. -/
theorem Related.can_step [DecidableEq ι] (himpl : Implements G perform execA)
    (h : Related G perform c c') (hi : ∀ r, c.threads i ≠ .ret r) :
    ∃ j x c₁, Pool.Step (exec G) c j x c₁ ∧ Enabled G j x c.shared := by
  have hact : ∀ {j}, (∀ r, c.threads j ≠ .ret r) → ∃ x next, c.threads j = .act x next := by
    intro j hj
    cases hp : c.threads j with
    | ret r => exact absurd hp (hj r)
    | act x next => exact ⟨x, next, rfl⟩
  by_cases hheld : ∃ k j n, c.shared.owner k = some (j, n)
  · -- the thread that holds a mutex waits for no other one
    obtain ⟨k, j, n, hin⟩ := hheld
    obtain ⟨a, q, next, hq, hfollows, -⟩ := h.inside j k n hin
    cases q with
    | ret r => exact absurd hfollows (Nat.succ_ne_zero n)
    | act y nexty =>
      refine ⟨j, y, _, .act hq, ?_⟩
      cases y with
      | lock j' l =>
        obtain ⟨-, rfl, rfl, hrec⟩ := hfollows.1
        intro j'' m hj''
        rw [hin] at hj''
        exact ⟨(Prod.mk.inj (Option.some.inj hj'')).1.symm, hrec⟩
      | unlock j' l => exact trivial
      | access b => exact trivial
  · push Not at hheld
    obtain ⟨x, nextx, hx⟩ := hact hi
    rcases h.next_step himpl hx with ⟨k, rfl, -⟩ | ⟨k, n, hin, -⟩
    · exact ⟨i, _, _, .act hx, fun j n hj => absurd hj (hheld k j n)⟩
    · exact absurd hin (hheld k i n)

/-- A thread that has returned holds no mutex and has returned what its own program has. -/
theorem Related.returned (himpl : Implements G perform execA) (h : Related G perform c c') {r : α}
    (hi : c.threads i = .ret r) :
    c'.threads i = .ret r ∧ ∀ k n, c.shared.owner k ≠ some (i, n) := by
  have hout : ∀ k n, c.shared.owner k ≠ some (i, n) := by
    intro k n hin
    obtain ⟨a, q, next, hq, hfollows, -⟩ := h.inside i k n hin
    cases q with
    | ret r => exact absurd hfollows (Nat.succ_ne_zero n)
    | act y nexty =>
      rw [hi] at hq
      cases hq
  have hthread := h.outside i hout
  rw [hi] at hthread
  exact ⟨(expand_ret_iff (himpl.ne_ret i)).mp hthread.symm, hout⟩

variable [DecidableEq ι]

/-- The outermost lock of a section: the thread takes effect. -/
theorem Related.enter (himpl : Implements G perform execA) (h : Related G perform c c')
    {a : A} {next : R a → Program A R α} (hi : c'.threads i = .act a next)
    (hout : ∀ k n, c.shared.owner k ≠ some (i, n)) {x : Locking ι κ B}
    (hstep : Pool.Step (exec G) c i x c₁) (hok : Enabled G i x c.shared) :
    Related G perform c₁ ⟨(execA a c'.shared).2,
      Function.update c'.threads i (next (execA a c'.shared).1)⟩ := by
  obtain ⟨k, body, hbody, hfollows⟩ := himpl.isSection i a
  have hthread : c.threads i = .act (.lock i k)
      (fun r => body r >>= fun r => (next r).expand (perform i)) := by
    rw [h.outside i hout, hi, Program.expand, hbody]
    rfl
  cases hstep with
  | @act nextx hx =>
    rw [hthread] at hx
    obtain ⟨rfl, hnextx⟩ := Program.act.inj hx
    obtain rfl := eq_of_heq hnextx
    have hfree : c.shared.owner k = none := by
      by_contra howned
      obtain ⟨⟨j, n⟩, howner⟩ := Option.ne_none_iff_exists'.mp howned
      obtain ⟨rfl, -⟩ := hok j n howner
      exact hout k n howner
    have hheld : (exec G (.lock i k) c.shared).2.owner k = some (i, 0) := by
      simp [exec, hfree, Guarded.acquire]
    obtain ⟨hresponse, hdata, hothers⟩ := himpl.section_run hbody hfollows hheld (h.free k hfree)
    refine h.step_on (fun j hj => Function.update_of_ne hj ..)
      (fun j hj => Function.update_of_ne hj ..)
      (fun l hl => ⟨Function.update_of_ne hl .., rfl⟩) hothers (fun j m hj => ?_)
      (fun l m _ => hout l m) (Or.inr ⟨0, hheld, ?_⟩)
    · rw [hfree] at hj
      cases hj
    · refine ⟨a, body (), next, Function.update_self .., hfollows, ?_, hdata⟩
      rw [← hresponse]
      exact Function.update_self ..

/-- Any other step of a section: its thread has taken effect already. -/
theorem Related.go_on (h : Related G perform c c') (hin : c.shared.owner k = some (i, n))
    {x : Locking ι κ B} (hstep : Pool.Step (exec G) c i x c₁) : Related G perform c₁ c' := by
  obtain ⟨a, q, next, hq, hfollows, hnext, hdata⟩ := h.inside i k n hin
  cases q with
  | ret r => exact absurd hfollows (Nat.succ_ne_zero n)
  | act y nexty =>
    cases hstep with
    | @act nextx hx =>
      rw [hq, Program.act_bind] at hx
      obtain ⟨rfl, hnextx⟩ := Program.act.inj hx
      obtain rfl := eq_of_heq hnextx
      obtain ⟨hallows, hrest⟩ := hfollows
      have hfollows' := hrest (exec G y c.shared).1 trivial
      rw [Program.run_act] at hnext hdata
      refine h.step_on (fun j hj => Function.update_of_ne hj ..) (fun _ _ => rfl)
        (fun l hl => exec_other hallows hl) (fun _ _ => rfl) (fun j m hj => ?_)
        (fun l m hl howner => hl (h.alone i k l n m hin howner)) ?_
      · rw [hin] at hj
        exact (Prod.mk.inj (Option.some.inj hj)).1.symm
      · rcases owner_after hallows hin with ⟨hafter, hreleased⟩ | ⟨m, hafter, hheld⟩
        · -- the section ends here
          rw [hafter] at hfollows'
          obtain ⟨r, hr⟩ := ended hfollows'
          rw [hr] at hnext hdata
          refine Or.inl ⟨hreleased, ?_, hdata⟩
          simp only [Function.update_self, hr, hnext]
          rfl
        · rw [hafter] at hfollows'
          exact Or.inr ⟨m, hheld, a, _, next, Function.update_self .., hfollows', hnext, hdata⟩

/-- A schedule of the sections is matched by a schedule of the actions. -/
theorem Related.run (himpl : Implements G perform execA) (h : Related G perform c c')
    {trace : List (ι × Locking ι κ B)} (hrun : Pool.Run (exec G) (Enabled G) c trace c₁) :
    ∃ trace' c₁', Pool.Run execA Pool.AnyStep c' trace' c₁' ∧ Related G perform c₁ c₁' := by
  induction hrun generalizing c' with
  | nil _ => exact ⟨[], c', .nil c', h⟩
  | @cons c _ _ i x _ hstep hok _ ih =>
    by_cases hout : ∀ k n, c.shared.owner k ≠ some (i, n)
    · have hi : ∀ r, c.threads i ≠ .ret r := by
        intro r hr
        cases hstep with
        | act hx =>
          rw [hr] at hx
          cases hx
      obtain ⟨a, next, ha⟩ := h.next_action hout hi
      obtain ⟨trace', c₁', hrun', hrelated⟩ := ih (h.enter himpl ha hout hstep hok)
      exact ⟨(i, a) :: trace', c₁', .cons (.act ha) trivial hrun', hrelated⟩
    · push Not at hout
      obtain ⟨k, n, hin⟩ := hout
      exact ih (h.go_on hin hstep)

omit [DecidableEq κ] in
/-- The step of a thread whose program is at hand. -/
theorem step_update {S : Type} (exec : (x : Locking ι κ B) → S → x.Response RB × S) (s : S)
    (threads : ι → Code ι κ RB α) (i : ι) (x : Locking ι κ B)
    (next : x.Response RB → Code ι κ RB α) :
    Pool.Step exec ⟨s, Function.update threads i (.act x next)⟩ i x
      ⟨(exec x s).2, Function.update threads i (next (exec x s).1)⟩ := by
  have hstep : Pool.Step exec ⟨s, Function.update threads i (.act x next)⟩ i x
      ⟨(exec x s).2, Function.update (Function.update threads i (.act x next)) i
        (next (exec x s).1)⟩ := .act (Function.update_self ..)
  rwa [Function.update_idem] at hstep

/-- Whoever is within a section may run it to its end without interruption. -/
theorem run_section {q : Code ι κ RB β} {n : ℕ}
    (hq : q.Follows (within G i k) (fun m _ => m = 0) n)
    (hheld : ∀ l, s.owner l = if l = k ∧ 0 < n then some (i, n - 1) else none)
    (threads : ι → Code ι κ RB α) (next : β → Code ι κ RB α) :
    ∃ trace, Pool.Run (exec G) (Enabled G) ⟨s, Function.update threads i (q >>= next)⟩ trace
      ⟨(q.run (exec G) s).2, Function.update threads i (next (q.run (exec G) s).1)⟩ := by
  induction q generalizing n s with
  | ret r => exact ⟨[], .nil _⟩
  | act x nextx ih =>
    obtain ⟨hallows, hrest⟩ := hq
    have hheld' : ∀ l, (exec G x s).2.owner l =
        if l = k ∧ 0 < (within G i k).after n x (exec G x s).1 then
          some (i, (within G i k).after n x (exec G x s).1 - 1) else none := by
      intro l
      by_cases hl : l = k
      · subst hl
        have hpos : 0 < n := by
          cases x with
          | lock j l' => exact hallows.1
          | unlock j l' => exact hallows.1
          | access b => exact hallows.1
        obtain ⟨n, rfl⟩ := Nat.exists_eq_succ_of_ne_zero (Nat.pos_iff_ne_zero.mp hpos)
        have howner : s.owner l = some (i, n) := by simpa using hheld l
        rcases owner_after hallows howner with ⟨hafter, hnone⟩ | ⟨m, hafter, hsome⟩
        · simp [hafter, hnone]
        · simp [hafter, hsome]
      · rw [(exec_other hallows hl).1, hheld, if_neg (fun h => hl h.1), if_neg (fun h => hl h.1)]
    obtain ⟨trace, hrun⟩ := ih (exec G x s).1 (hrest _ trivial) hheld'
    have hstep := step_update (exec G) s threads i x fun r => nextx r >>= next
    refine ⟨(i, x) :: trace, .cons hstep ?_ hrun⟩
    cases x with
    | lock j l =>
      obtain ⟨-, rfl, rfl, hrec⟩ := hallows
      intro j' m hj'
      rw [hheld] at hj'
      split_ifs at hj' with hpos
      exact ⟨(Prod.mk.inj (Option.some.inj hj')).1.symm, hrec⟩
    | unlock j l => exact trivial
    | access b => exact trivial

/-- Every schedule of the actions is one of the sections: each of them runs without interruption. -/
theorem Implements.realize (himpl : Implements G perform execA) {trace' : List (ι × A)}
    (hrun : Pool.Run execA Pool.AnyStep c' trace' c₁') :
    ∃ trace, Pool.Run (exec G) (Enabled G)
      ⟨⟨fun _ => none, c'.shared⟩, fun i => (c'.threads i).expand (perform i)⟩ trace
      ⟨⟨fun _ => none, c₁'.shared⟩, fun i => (c₁'.threads i).expand (perform i)⟩ := by
  induction hrun with
  | nil c => exact ⟨[], .nil _⟩
  | @cons c _ _ i a _ hstep _ _ ih =>
    obtain ⟨trace, hrest⟩ := ih
    cases hstep with
    | @act next hi =>
      obtain ⟨k, body, hbody, hfollows⟩ := himpl.isSection i a
      have hthreads : (fun j => (c.threads j).expand (perform j)) =
          Function.update (fun j => (c.threads j).expand (perform j)) i
            (.act (.lock i k) fun r => body r >>= fun r => (next r).expand (perform i)) := by
        rw [eq_comm, Function.update_eq_self_iff, hi, Program.expand, hbody]
        rfl
      have hdone : (fun j => (Function.update c.threads i (next (execA a c.shared).1) j).expand
          (perform j)) = Function.update (fun j => (c.threads j).expand (perform j)) i
            ((next (execA a c.shared).1).expand (perform i)) := by
        funext j
        by_cases hj : j = i
        · subst hj
          simp only [Function.update_self]
        · simp only [Function.update_of_ne hj]
      have hsection := himpl.run i a c.shared
      rw [hbody, Program.run_act] at hsection
      obtain ⟨first, hfirst⟩ := run_section hfollows
        (s := (exec G (.lock i k) (⟨fun _ => none, c.shared⟩ : Monitors ι κ D)).2)
        (fun l => by by_cases hl : l = k <;> simp [exec, Guarded.acquire, hl])
        (fun j => (c.threads j).expand (perform j)) (fun r => (next r).expand (perform i))
      rw [hsection, ← hdone] at hfirst
      rw [hthreads]
      have hlock := step_update (exec G) ⟨fun _ => none, c.shared⟩
        (fun j => (c.threads j).expand (perform j)) i (.lock i k)
        fun r => body r >>= fun r => (next r).expand (perform i)
      refine ⟨(i, .lock i k) :: (first ++ trace), .cons hlock (fun j n hj => ?_) ?_⟩
      · cases hj
      · exact hfirst.append hrest

end Concurrent.Locking
