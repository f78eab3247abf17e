import UpiMesh.Lib.Protocol

/-!
# What a program collects

Some responses yield something: a receipt, a handle, a number. `Collects` relates what a program
returns to all that its actions have yielded, in order and for all responses that can be expected.
Under any schedule a thread that has returned has collected, in its turn, what it answers for.
-/

namespace Concurrent

variable {A : Type} {R : A → Type} {α β Y : Type}

/-- What the responses of the actions can be, and what they yield. -/
structure Yield (A : Type) (R : A → Type) (Y : Type) where
  expects : (a : A) → R a → Prop
  yields : (a : A) → R a → List Y

/-- The protocol state is what the responses have yielded so far. -/
def Yield.protocol (W : Yield A R Y) : Protocol A R (List Y) where
  allows _ _ := True
  expects := W.expects
  after ys a r := ys ++ W.yields a r

namespace Program

variable {W : Yield A R Y} {Q : List Y → α → Prop}

variable (W) in
/-- The program returns what goes with all that its actions have yielded. -/
def Collects (Q : List Y → α → Prop) (p : Program A R α) : Prop :=
  ∀ before, p.Follows W.protocol (fun ys x => ∃ new, ys = before ++ new ∧ Q new x) before

theorem Collects.ret {x : α} (h : Q [] x) : Collects W Q (.ret x) :=
  fun before => ⟨[], (List.append_nil before).symm, h⟩

theorem Collects.mono {Q' : List Y → α → Prop} {p : Program A R α} (h : p.Collects W Q)
    (hQ : ∀ ys x, Q ys x → Q' ys x) : p.Collects W Q' := by
  intro before
  refine (h before).mono fun ys x hx => ?_
  obtain ⟨new, hys, hnew⟩ := hx
  exact ⟨new, hys, hQ new x hnew⟩

theorem Collects.act {a : A} {next : R a → Program A R α}
    (hnext : ∀ r, W.expects a r → (next r).Collects W fun ys x => Q (W.yields a r ++ ys) x) :
    (Program.act a next).Collects W Q := by
  refine fun before => ⟨trivial, fun r hr => (hnext r hr (before ++ W.yields a r)).mono fun ys x hx => ?_⟩
  obtain ⟨new, rfl, hnew⟩ := hx
  exact ⟨W.yields a r ++ new, List.append_assoc .., hnew⟩

theorem Collects.bind {Q' : List Y → β → Prop} {p : Program A R α} {k : α → Program A R β}
    (hp : p.Collects W Q)
    (hk : ∀ ys x, Q ys x → (k x).Collects W fun zs y => Q' (ys ++ zs) y) :
    (p >>= k).Collects W Q' := by
  intro before
  refine (hp before).bind fun ys x hx => ?_
  obtain ⟨new, rfl, hnew⟩ := hx
  refine (hk new x hnew (before ++ new)).mono fun zs y hy => ?_
  obtain ⟨rest, rfl, hrest⟩ := hy
  exact ⟨new ++ rest, List.append_assoc .., hrest⟩

/-- Actions that never yield anything. -/
theorem Uses.collects {p : Program A R α} (h : p.Uses fun a => ∀ r, W.yields a r = []) :
    p.Collects W fun ys _ => ys = [] := by
  induction p with
  | ret x => exact .ret rfl
  | act a next ih =>
    obtain ⟨hnothing, hnext⟩ := h
    refine .act fun r _ => (ih r (hnext r)).mono fun ys x hys => ?_
    rw [hnothing r, hys, List.append_nil]

section Translate

variable {B : Type} {RB : B → Type} {V : Yield B RB Y} {f : (a : A) → Program B RB (R a)}

theorem Follows.translate {Q : List Y → α → Prop} {p : Program A R α} {before : List Y}
    (hp : p.Follows W.protocol Q before)
    (hf : ∀ a, (f a).Collects V fun ys r => W.expects a r ∧ ys = W.yields a r) :
    (p.expand f).Follows V.protocol Q before := by
  induction p generalizing before with
  | ret x => exact hp
  | act a next ih =>
    refine (hf a before).bind fun ys r hr => ?_
    obtain ⟨new, rfl, hexpects, rfl⟩ := hr
    exact ih r (hp.2 r hexpects)

/-- Every action replaced by a program that yields the same. -/
theorem Collects.translate {p : Program A R α} (hp : p.Collects W Q)
    (hf : ∀ a, (f a).Collects V fun ys r => W.expects a r ∧ ys = W.yields a r) :
    (p.expand f).Collects V Q := fun before => (hp before).translate hf

end Translate

end Program

namespace Pool

variable {ι S : Type} [DecidableEq ι] {exec : (a : A) → S → R a × S} {ok : ι → A → S → Prop}
  {T : A → Prop} {W : Yield A R Y} {Q : List Y → α → Prop} {Inv : S → (ι → List Y) → Prop}

/-- What one action of `T` does to the invariant of the state and of what the threads have collected. -/
structure Gathers (exec : (a : A) → S → R a × S) (T : A → Prop) (W : Yield A R Y)
    (Inv : S → (ι → List Y) → Prop) : Prop where
  responds : ∀ a s γ, Inv s γ → T a → W.expects a (exec a s).1
  keeps : ∀ i a s γ, Inv s γ → T a →
    Inv (exec a s).2 (Function.update γ i (γ i ++ W.yields a (exec a s).1))

theorem Gathers.and {J : S → (ι → List Y) → Prop} (h : Gathers exec T W Inv)
    (hJ : Gathers exec T W J) : Gathers exec T W fun s γ => Inv s γ ∧ J s γ where
  responds a s γ hinv ha := h.responds a s γ hinv.1 ha
  keeps i a s γ hinv ha := ⟨h.keeps i a s γ hinv.1 ha, hJ.keeps i a s γ hinv.2 ha⟩

/-- Under every schedule of actions of `T` there are collections such that the invariant holds and every
thread that has returned answers for its own. -/
theorem Run.collect {c c' : Pool ι A R α S} {trace : List (ι × A)} (h : Run exec ok c trace c')
    (hW : Gathers exec T W Inv) (hinv : Inv c.shared fun _ => [])
    (hT : ∀ i, (c.threads i).Uses T) (hc : ∀ i, (c.threads i).Collects W Q) :
    ∃ γ, Inv c'.shared γ ∧ ∀ i x, c'.threads i = .ret x → Q (γ i) x := by
  let P : Protocol A R (List Y) := { W.protocol with allows := fun _ a => True ∧ T a }
  have hpreserved : Preserved exec ok P Inv :=
    ⟨fun _ a s γ hinv ha _ => hW.responds a s γ hinv ha.2,
      fun i a s γ hinv ha _ => hW.keeps i a s γ hinv ha.2⟩
  obtain ⟨γ, hγ, hfollow⟩ := h.follow hpreserved hinv fun i => (hc i []).restrict (hT i)
  refine ⟨γ, hγ, fun i x hi => ?_⟩
  have hthread := hfollow i
  rw [hi] at hthread
  obtain ⟨new, hnew, hQ⟩ := hthread
  rw [List.nil_append] at hnew
  rwa [hnew]

end Pool
end Concurrent
