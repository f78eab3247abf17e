import UpiMesh.Lib.Program

/-!
# Protocols

A `Protocol` says which actions a program may perform in a protocol state, on which responses it may
rely, and how the protocol state moves on. Following a protocol is a property of the text of a
program. In a pool whose threads all follow it, each from its own protocol state, an invariant of
the shared state and the protocol states holds throughout when the allowed actions preserve it and
draw the expected responses; and every thread keeps following the protocol, so that whatever it does
next is allowed.
-/

namespace Concurrent

structure Protocol (A : Type) (R : A → Type) (σ : Type) where
  allows : σ → A → Prop
  expects : (a : A) → R a → Prop
  after : σ → (a : A) → R a → σ

namespace Protocol

variable {A : Type} {R : A → Type}

/-- A protocol without states. -/
def stateless (allows : A → Prop) (expects : (a : A) → R a → Prop) : Protocol A R Unit where
  allows _ := allows
  expects := expects
  after _ _ _ := ()

end Protocol

namespace Program

variable {A : Type} {R : A → Type} {α β σ S : Type}

/-- From protocol state `g` on, the program performs allowed actions, as long as the responses are
the expected ones, and ends with `Q`. -/
def Follows (P : Protocol A R σ) (Q : σ → α → Prop) : σ → Program A R α → Prop
  | g, .ret x => Q g x
  | g, .act a next => P.allows g a ∧ ∀ r, P.expects a r → Follows P Q (P.after g a r) (next r)

variable {P : Protocol A R σ} {Q : σ → α → Prop} {g : σ}

theorem Follows.mono {Q' : σ → α → Prop} {p : Program A R α} (hQ : ∀ g x, Q g x → Q' g x)
    (h : p.Follows P Q g) : p.Follows P Q' g := by
  induction p generalizing g with
  | ret x => exact hQ g x h
  | act a next ih => exact ⟨h.1, fun r hr => ih r (h.2 r hr)⟩

theorem Follows.bind {Q' : σ → β → Prop} {p : Program A R α} {k : α → Program A R β}
    (h : p.Follows P Q g) (hk : ∀ g x, Q g x → (k x).Follows P Q' g) :
    (p >>= k).Follows P Q' g := by
  induction p generalizing g with
  | ret x => exact hk g x h
  | act a next ih => exact ⟨h.1, fun r hr => ih r (h.2 r hr)⟩

theorem Follows.call {a : A} (ha : P.allows g a) {Q : σ → R a → Prop}
    (hQ : ∀ r, P.expects a r → Q (P.after g a r) r) : (Program.call a).Follows P Q g :=
  ⟨ha, hQ⟩

/-- Whoever follows a protocol follows a more permissive one. -/
theorem Follows.weaken {P' : Protocol A R σ} {p : Program A R α} (h : p.Follows P Q g)
    (hallows : ∀ g a, P.allows g a → P'.allows g a)
    (hexpects : ∀ a r, P'.expects a r → P.expects a r)
    (hafter : ∀ g a r, P'.after g a r = P.after g a r) : p.Follows P' Q g := by
  induction p generalizing g with
  | ret x => exact h
  | act a next ih =>
    refine ⟨hallows g a h.1, fun r hr => ?_⟩
    rw [hafter]
    exact ih r (h.2 r (hexpects a r hr))

/-- A program that uses certain actions only may be held to them. -/
theorem Follows.restrict {p : Program A R α} {T : A → Prop} (h : p.Follows P Q g) (hT : p.Uses T) :
    p.Follows { P with allows := fun g a => P.allows g a ∧ T a } Q g := by
  induction p generalizing g with
  | ret x => exact h
  | act a next ih => exact ⟨⟨h.1, hT.1⟩, fun r hr => ih r (h.2 r hr) (hT.2 r)⟩

/-- A program whose actions are replaced by programs that return to the protocol state. -/
theorem Follows.expand {B : Type} {RB : B → Type} {P : Protocol B RB σ}
    {f : (a : A) → Program B RB (R a)} {T : A → Prop} {p : Program A R α} (hp : p.Uses T)
    (hf : ∀ a, T a → (f a).Follows P (fun g' _ => g' = g) g) :
    (p.expand f).Follows P (fun g' _ => g' = g) g := by
  induction p with
  | ret x => exact rfl
  | act a next ih =>
    refine (hf a hp.1).bind fun g' r hg => ?_
    subst hg
    exact ih r (hp.2 r)

/-- Allowed actions that have a property. -/
theorem Follows.uses {p : Program A R α} {T : A → Prop} (h : p.Follows P Q g)
    (hexpects : ∀ a r, P.expects a r) (hT : ∀ g a, P.allows g a → T a) : p.Uses T := by
  induction p generalizing g with
  | ret x => exact trivial
  | act a next ih => exact ⟨hT g a h.1, fun r => ih r (h.2 r (hexpects a r))⟩

/-- A program that uses allowed actions only, whatever it is told. -/
theorem Uses.follows {allows : A → Prop} {expects : (a : A) → R a → Prop} {T : A → Prop}
    {p : Program A R α} (h : p.Uses T) (hT : ∀ a, T a → allows a) {g : Unit} :
    p.Follows (.stateless allows expects) (fun _ _ => True) g := by
  induction p with
  | ret x => exact trivial
  | act a next ih => exact ⟨hT a h.1, fun r _ => ih r (h.2 r)⟩

/-- Allowed actions that keep an invariant under which the responses are the expected ones. -/
theorem Follows.maintains {exec : (a : A) → S → R a × S} {Inv : S → Prop} {T : α → Prop}
    {p : Program A R α} (h : p.Follows P Q g) (hT : ∀ g x, Q g x → T x)
    (hresp : ∀ g a s, P.allows g a → Inv s → P.expects a (exec a s).1)
    (hinv : ∀ g a s, P.allows g a → Inv s → Inv (exec a s).2) : p.Maintains exec Inv T := by
  induction p generalizing g with
  | ret x => exact hT g x h
  | act a next ih =>
    intro s hs
    exact ⟨hinv g a s h.1 hs, ih _ (h.2 _ (hresp g a s h.1 hs))⟩

end Program

namespace Pool

variable {ι A : Type} {R : A → Type} {α σ S : Type} [DecidableEq ι]
  {exec : (a : A) → S → R a × S} {ok : ι → A → S → Prop} {P : Protocol A R σ} {Q : σ → α → Prop}
  {Inv : S → (ι → σ) → Prop}

/-- Every thread follows the protocol from its own protocol state. -/
def Follow (P : Protocol A R σ) (Q : σ → α → Prop) (c : Pool ι A R α S) (γ : ι → σ) : Prop :=
  ∀ i, (c.threads i).Follows P Q (γ i)

/-- What one step of an allowed action does to the invariant. -/
structure Preserved (exec : (a : A) → S → R a × S) (ok : ι → A → S → Prop) (P : Protocol A R σ)
    (Inv : S → (ι → σ) → Prop) : Prop where
  responds : ∀ i a s γ, Inv s γ → P.allows (γ i) a → ok i a s → P.expects a (exec a s).1
  keeps : ∀ i a s γ, Inv s γ → P.allows (γ i) a → ok i a s →
    Inv (exec a s).2 (Function.update γ i (P.after (γ i) a (exec a s).1))

theorem Step.follow {c c' : Pool ι A R α S} {i : ι} {a : A} {γ : ι → σ} (h : Step exec c i a c')
    (hok : ok i a c.shared) (hP : Preserved exec ok P Inv) (hinv : Inv c.shared γ)
    (hc : Follow P Q c γ) :
    P.allows (γ i) a ∧ P.expects a (exec a c.shared).1 ∧ c'.shared = (exec a c.shared).2 ∧
      Inv c'.shared (Function.update γ i (P.after (γ i) a (exec a c.shared).1)) ∧
      Follow P Q c' (Function.update γ i (P.after (γ i) a (exec a c.shared).1)) := by
  cases h with
  | @act next hi =>
    have hthread := hc i
    rw [hi] at hthread
    obtain ⟨hallows, hnext⟩ := hthread
    have hresp := hP.responds i a c.shared γ hinv hallows hok
    refine ⟨hallows, hresp, rfl, hP.keeps i a c.shared γ hinv hallows hok, fun j => ?_⟩
    by_cases hj : j = i
    · subst hj
      simpa only [Function.update_self] using hnext _ hresp
    · simpa only [Function.update_of_ne hj] using hc j

/-- The invariant holds in every state of every schedule, and all threads still follow the
protocol. -/
theorem Run.follow {c c' : Pool ι A R α S} {trace : List (ι × A)} {γ : ι → σ}
    (h : Run exec ok c trace c') (hP : Preserved exec ok P Inv) (hinv : Inv c.shared γ)
    (hc : Follow P Q c γ) : ∃ γ', Inv c'.shared γ' ∧ Follow P Q c' γ' := by
  induction h generalizing γ with
  | nil _ => exact ⟨γ, hinv, hc⟩
  | cons hs hok _ ih =>
    obtain ⟨_, _, _, hinv', hc'⟩ := hs.follow hok hP hinv hc
    exact ih hinv' hc'

omit [DecidableEq ι] in
/-- What a thread does next is allowed. -/
theorem Follow.allows {c : Pool ι A R α S} {γ : ι → σ} (h : Follow P Q c γ) {i : ι} {a : A}
    {next : R a → Program A R α} (hi : c.threads i = .act a next) : P.allows (γ i) a := by
  have hthread := h i
  rw [hi] at hthread
  exact hthread.1

end Pool
end Concurrent
