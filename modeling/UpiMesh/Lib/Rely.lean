import UpiMesh.Lib.Protocol

/-!
# What a thread may rely on

The threads of a pool move the shared state along a preorder and keep an invariant of it. A thread
remembers the last state in which it has acted: whatever the others do afterwards, the state it acts
in next is a later one. `Assures` follows a program with that knowledge, and with a note that the
program takes of its own responses; each of its actions must itself move the state along the preorder.
-/

namespace Concurrent

/-- How the shared state may evolve. -/
structure Evolution (S : Type) where
  keeps : S → Prop
  leads : S → S → Prop
  refl : ∀ s, leads s s
  trans : ∀ {s t u}, leads s t → leads t u → leads s u

variable {A : Type} {R : A → Type} {S σ α β : Type}

/-- An action that the evolution admits in every state. -/
def Evolution.Admits (E : Evolution S) (exec : (a : A) → S → R a × S) (a : A) : Prop :=
  ∀ t, E.keeps t → E.keeps (exec a t).2 ∧ E.leads t (exec a t).2

namespace Program

variable (exec : (a : A) → S → R a × S) (E : Evolution S) (note : σ → (a : A) → R a → σ)

/-- With the note `g`, and `s` as the last known state, the program takes admitted steps and ends
with `Q`. -/
def Assures (Q : σ → S → α → Prop) : σ → S → Program A R α → Prop
  | g, s, .ret x => Q g s x
  | g, s, .act a next => ∀ t, E.keeps t → E.leads s t →
      E.keeps (exec a t).2 ∧ E.leads t (exec a t).2 ∧
        Assures Q (note g a (exec a t).1) (exec a t).2 (next (exec a t).1)

variable {exec E note} {Q : σ → S → α → Prop} {g : σ} {s : S}

theorem Assures.mono {Q' : σ → S → α → Prop} {p : Program A R α}
    (hQ : ∀ g s x, Q g s x → Q' g s x) (h : p.Assures exec E note Q g s) :
    p.Assures exec E note Q' g s := by
  induction p generalizing g s with
  | ret x => exact hQ g s x h
  | act a next ih =>
    intro t ht hst
    obtain ⟨hkeeps, hleads, hnext⟩ := h t ht hst
    exact ⟨hkeeps, hleads, ih _ hnext⟩

theorem Assures.bind {Q' : σ → S → β → Prop} {p : Program A R α} {k : α → Program A R β}
    (h : p.Assures exec E note Q g s)
    (hk : ∀ g s x, Q g s x → (k x).Assures exec E note Q' g s) :
    (p >>= k).Assures exec E note Q' g s := by
  induction p generalizing g s with
  | ret x => exact hk g s x h
  | act a next ih =>
    intro t ht hst
    obtain ⟨hkeeps, hleads, hnext⟩ := h t ht hst
    exact ⟨hkeeps, hleads, ih _ hnext⟩

/-- The last known state is a later one, and keeps the invariant. -/
theorem Assures.later {p : Program A R α} (hs : E.keeps s) (h : p.Assures exec E note Q g s) :
    p.Assures exec E note (fun g' s' x => Q g' s' x ∧ E.keeps s' ∧ E.leads s s') g s := by
  induction p generalizing g s with
  | ret x => exact ⟨h, hs, E.refl s⟩
  | act a next ih =>
    intro t ht hst
    obtain ⟨hkeeps, hleads, hnext⟩ := h t ht hst
    refine ⟨hkeeps, hleads, (ih _ hkeeps hnext).mono fun g' s' x hx => ?_⟩
    exact ⟨hx.1, hx.2.1, E.trans hst (E.trans hleads hx.2.2)⟩

theorem Assures.and {Q' : σ → S → α → Prop} {p : Program A R α} (h : p.Assures exec E note Q g s)
    (h' : p.Assures exec E note Q' g s) :
    p.Assures exec E note (fun g s x => Q g s x ∧ Q' g s x) g s := by
  induction p generalizing g s with
  | ret x => exact ⟨h, h'⟩
  | act a next ih =>
    intro t ht hst
    obtain ⟨hkeeps, hleads, hnext⟩ := h t ht hst
    exact ⟨hkeeps, hleads, ih _ hnext (h' t ht hst).2.2⟩

/-- Actions that are always admitted. -/
theorem Uses.assures {T : A → Prop} {p : Program A R α} (h : p.Uses T)
    (hT : ∀ a, T a → E.Admits exec a) : p.Assures exec E note (fun _ _ _ => True) g s := by
  induction p generalizing g s with
  | ret x => exact trivial
  | act a next ih =>
    intro t ht _
    obtain ⟨hkeeps, hleads⟩ := hT a h.1 t ht
    exact ⟨hkeeps, hleads, ih _ (h.2 _)⟩

/-- Actions that are always admitted, and of which no note is taken. -/
theorem Uses.unnoted {T : A → Prop} {p : Program A R α} (h : p.Uses T)
    (hT : ∀ a, T a → E.Admits exec a) (hnote : ∀ g a r, T a → note g a r = g) :
    p.Assures exec E note (fun g' _ _ => g' = g) g s := by
  induction p generalizing s with
  | ret x => exact rfl
  | act a next ih =>
    intro t ht _
    obtain ⟨hkeeps, hleads⟩ := hT a h.1 t ht
    rw [hnote g a _ h.1]
    exact ⟨hkeeps, hleads, ih _ (h.2 _)⟩

/-- A program that follows a protocol whose state it takes note of; `K` is what the protocol state
says of the shared one. -/
theorem Follows.assures {P : Protocol A R σ} {Q : σ → α → Prop} {K : σ → S → Prop} {p : Program A R α}
    (h : p.Follows P Q g) (hlater : ∀ g s t, K g s → E.leads s t → K g t)
    (hstep : ∀ g a t, P.allows g a → E.keeps t → K g t →
      P.expects a (exec a t).1 ∧ E.keeps (exec a t).2 ∧ E.leads t (exec a t).2 ∧
        K (P.after g a (exec a t).1) (exec a t).2) (hK : K g s) :
    p.Assures exec E P.after (fun g' s' x => Q g' x ∧ K g' s') g s := by
  induction p generalizing g s with
  | ret x => exact ⟨h, hK⟩
  | act a next ih =>
    intro t ht hst
    obtain ⟨hexpects, hkeeps, hleads, hK'⟩ := hstep g a t h.1 ht (hlater g s t hK hst)
    exact ⟨hkeeps, hleads, ih _ (h.2 _ hexpects) hK'⟩

end Program

namespace Pool

variable {ι : Type} [DecidableEq ι] {exec : (a : A) → S → R a × S} {ok : ι → A → S → Prop}
  {E : Evolution S} {note : σ → (a : A) → R a → σ} {Inv : S → (ι → σ) → Prop}
  {Q : ι → σ → S → α → Prop}

/-- The notes and the last known states of the threads, as ghost values. -/
def Knowing (E : Evolution S) (Inv : S → (ι → σ) → Prop) (s₀ s : S) (γ : ι → σ × S) : Prop :=
  E.keeps s ∧ E.leads s₀ s ∧ Inv s (fun i => (γ i).1) ∧ ∀ i, E.leads (γ i).2 s

theorem annotated_of_assures {s₀ : S}
    (hInv : ∀ i a s γ, ok i a s → E.keeps s → Inv s γ →
      Inv (exec a s).2 (Function.update γ i (note (γ i) a (exec a s).1)))
    {i : ι} {g : σ} {s : S} {p : Program A R α} (h : p.Assures exec E note (Q i) g s) :
    Annotated exec ok (Knowing E Inv s₀) (fun _ _ _ => True) (fun i g x => Q i g.1 g.2 x) i (g, s)
      p := by
  induction p generalizing g s with
  | ret x => exact h
  | act a next ih =>
    rintro t γ hγ ⟨ht, hstart, hinv, hknown⟩ hok
    have hst : E.leads s t := by
      have hi := hknown i
      rwa [hγ] at hi
    obtain ⟨hkeeps, hleads, hnext⟩ := h t ht hst
    refine ⟨trivial, (note g a (exec a t).1, (exec a t).2), ?_, ih _ hnext⟩
    refine ⟨hkeeps, E.trans hstart hleads, ?_, fun j => ?_⟩
    · have hnotes : (fun j => (Function.update γ i (note g a (exec a t).1, (exec a t).2) j).1) =
          Function.update (fun j => (γ j).1) i (note g a (exec a t).1) := by
        funext j
        by_cases hj : j = i
        · subst hj
          simp only [Function.update_self]
        · simp only [Function.update_of_ne hj]
      have hupdate := hInv i a t (fun j => (γ j).1) hok ht hinv
      rw [hγ] at hupdate
      rwa [hnotes]
    · by_cases hj : j = i
      · subst hj
        simp only [Function.update_self]
        exact E.refl _
      · simp only [Function.update_of_ne hj]
        exact E.trans (hknown j) hleads

/-- In every state of every schedule the invariant of the notes holds, and a thread that has returned
knows what it has assured, as of some state before. -/
theorem Run.assured (Inv : S → (ι → σ) → Prop) {c c' : Pool ι A R α S} {trace : List (ι × A)}
    {γ : ι → σ} (h : Run exec ok c trace c')
    (hInv : ∀ i a s γ, ok i a s → E.keeps s → Inv s γ →
      Inv (exec a s).2 (Function.update γ i (note (γ i) a (exec a s).1)))
    (hs : E.keeps c.shared) (hγ : Inv c.shared γ)
    (hc : ∀ i, (c.threads i).Assures exec E note (Q i) (γ i) c.shared) :
    ∃ γ', E.keeps c'.shared ∧ E.leads c.shared c'.shared ∧ Inv c'.shared γ' ∧
      ∀ i x, c'.threads i = .ret x → ∃ s, E.leads s c'.shared ∧ Q i (γ' i) s x := by
  have hsound : Sound exec ok (Knowing E Inv c.shared) (fun _ _ _ => True)
      (fun i g x => Q i g.1 g.2 x) c :=
    ⟨fun i => (γ i, c.shared), ⟨hs, E.refl _, hγ, fun _ => E.refl _⟩,
      fun i => annotated_of_assures hInv (hc i)⟩
  obtain ⟨γ', ⟨hkeeps, hleads, hinv, hknown⟩, hreturned⟩ := (hsound.run h).returned
  exact ⟨fun i => (γ' i).1, hkeeps, hleads, hinv, fun i x hi => ⟨_, hknown i, hreturned i x hi⟩⟩

end Pool
end Concurrent
