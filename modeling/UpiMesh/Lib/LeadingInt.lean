import Mathlib.Data.List.Basic
import Mathlib.Data.List.TakeWhile

/-!
# The integer a text starts with

`read` is the reading of the C library: it skips blanks, takes a sign and all the digits that follow, and
leaves the rest. `Starts` says the same as a grammar.
-/

namespace LeadingInt

/-- The blanks of the C locale. -/
def isSpace (c : Char) : Bool := c ∈ [' ', '\t', '\n', '\x0b', '\x0c', '\r']

def value (digits : List Char) : ℕ := digits.foldl (fun n c => 10 * n + (c.toNat - 48)) 0

inductive Sign where
  | none
  | plus
  | minus
  deriving DecidableEq, Repr

def Sign.text : Sign → List Char
  | .none => []
  | .plus => ['+']
  | .minus => ['-']

def Sign.apply : Sign → ℕ → ℤ
  | .none, n => n
  | .plus, n => n
  | .minus, n => -n

def takeSign : List Char → Sign × List Char
  | '+' :: rest => (.plus, rest)
  | '-' :: rest => (.minus, rest)
  | rest => (.none, rest)

/-- The integer, unless there is no digit where one is expected. -/
def read (text : List Char) : Option ℤ :=
  let (sign, rest) := takeSign (text.dropWhile isSpace)
  let digits := rest.takeWhile Char.isDigit
  if digits = [] then none else some (sign.apply (value digits))

/-- Blanks, a sign, digits, and something that does not go on with a digit. -/
def Starts (text : List Char) (n : ℤ) : Prop :=
  ∃ blanks sign digits rest, text = blanks ++ (Sign.text sign ++ (digits ++ rest)) ∧
    (∀ c ∈ blanks, isSpace c) ∧ digits ≠ [] ∧ (∀ c ∈ digits, Char.isDigit c) ∧
    (∀ c ∈ rest.head?, ¬ Char.isDigit c) ∧ n = sign.apply (value digits)

theorem text_takeSign (text : List Char) : (takeSign text).1.text ++ (takeSign text).2 = text := by
  unfold takeSign
  split <;> rfl

theorem isSpace_eq_false_of_isDigit {c : Char} (h : c.isDigit) : isSpace c = false := by
  by_contra hspace
  have hmem : c ∈ [' ', '\t', '\n', '\x0b', '\x0c', '\r'] :=
    of_decide_eq_true (Bool.of_not_eq_false hspace)
  have hall : ∀ d ∈ [' ', '\t', '\n', '\x0b', '\x0c', '\r'], d.isDigit = false := by
    simp only [List.forall_mem_cons]
    exact ⟨rfl, rfl, rfl, rfl, rfl, rfl, fun _ hd => absurd hd List.not_mem_nil⟩
  exact Bool.false_ne_true ((hall c hmem).symm.trans h)

/-- A sign is taken off, and no sign is taken from digits. -/
theorem takeSign_append {sign : Sign} {digits rest : List Char} (hne : digits ≠ [])
    (hdigits : ∀ c ∈ digits, Char.isDigit c) :
    takeSign (sign.text ++ (digits ++ rest)) = (sign, digits ++ rest) := by
  obtain ⟨c, cs, rfl⟩ := List.exists_cons_of_ne_nil hne
  have hc : Char.isDigit c := hdigits c List.mem_cons_self
  cases sign with
  | plus => rfl
  | minus => rfl
  | none =>
    have hplus : c ≠ '+' := fun h => absurd (h ▸ hc) (by decide)
    have hminus : c ≠ '-' := fun h => absurd (h ▸ hc) (by decide)
    simp only [Sign.text, List.nil_append, List.cons_append]
    unfold takeSign
    split
    · next heq => exact absurd (List.cons.inj heq).1 hplus
    · next heq => exact absurd (List.cons.inj heq).1 hminus
    · rfl

theorem takeWhile_isDigit {digits rest : List Char} (hdigits : ∀ c ∈ digits, Char.isDigit c)
    (hrest : ∀ c ∈ rest.head?, ¬ Char.isDigit c) :
    (digits ++ rest).takeWhile Char.isDigit = digits := by
  rw [List.takeWhile_append_of_pos hdigits]
  cases rest with
  | nil => simp
  | cons c rest =>
    have hc : ¬ Char.isDigit c := hrest c rfl
    simp [hc]

/-- Blanks are skipped up to the sign or the first digit. -/
theorem dropWhile_isSpace {blanks digits rest : List Char} {sign : Sign}
    (hblanks : ∀ c ∈ blanks, isSpace c) (hne : digits ≠ [])
    (hdigits : ∀ c ∈ digits, Char.isDigit c) :
    (blanks ++ (sign.text ++ (digits ++ rest))).dropWhile isSpace =
      sign.text ++ (digits ++ rest) := by
  rw [List.dropWhile_append_of_pos hblanks]
  cases sign with
  | plus => rfl
  | minus => rfl
  | none =>
    obtain ⟨c, cs, rfl⟩ := List.exists_cons_of_ne_nil hne
    have hc := isSpace_eq_false_of_isDigit (hdigits c List.mem_cons_self)
    simp [Sign.text, hc]

theorem read_eq_some_iff {text : List Char} {n : ℤ} : read text = some n ↔ Starts text n := by
  constructor
  · intro h
    unfold read at h
    dsimp only at h
    split_ifs at h with hdigits
    obtain rfl := Option.some.inj h
    have htext : text = text.takeWhile isSpace ++ text.dropWhile isSpace :=
      List.takeWhile_append_dropWhile.symm
    have hsign := text_takeSign (text.dropWhile isSpace)
    refine ⟨text.takeWhile isSpace, (takeSign (text.dropWhile isSpace)).1,
      (takeSign (text.dropWhile isSpace)).2.takeWhile Char.isDigit,
      (takeSign (text.dropWhile isSpace)).2.dropWhile Char.isDigit, ?_, ?_, hdigits, ?_, ?_, rfl⟩
    · rw [List.takeWhile_append_dropWhile, hsign, ← htext]
    · intro c hc
      exact List.mem_takeWhile_imp hc
    · intro c hc
      exact List.mem_takeWhile_imp hc
    · intro c hc
      have hstop := List.head?_dropWhile_not Char.isDigit (takeSign (text.dropWhile isSpace)).2
      rw [Option.mem_def.mp hc] at hstop
      simpa using hstop
  · rintro ⟨blanks, sign, digits, rest, rfl, hblanks, hne, hdigits, hrest, rfl⟩
    unfold read
    rw [dropWhile_isSpace hblanks hne hdigits, takeSign_append hne hdigits]
    dsimp only
    rw [takeWhile_isDigit hdigits hrest, if_neg hne]

end LeadingInt
