import Mathlib.Data.List.Basic
import Mathlib.Tactic.NormNum

/-!
# Base 64

Three bytes become four characters of six bits. One or two bytes at the end are padded with `=`.
-/

namespace Base64

/-- The character of a 6-bit value. -/
def toChar (n : ℕ) : Char :=
  if n < 26 then Char.ofNat (65 + n)
  else if n < 52 then Char.ofNat (71 + n)
  else if n < 62 then Char.ofNat (n - 4)
  else if n = 62 then '+'
  else '/'

def ofChar (c : Char) : Option ℕ :=
  if 65 ≤ c.toNat ∧ c.toNat ≤ 90 then some (c.toNat - 65)
  else if 97 ≤ c.toNat ∧ c.toNat ≤ 122 then some (c.toNat - 71)
  else if 48 ≤ c.toNat ∧ c.toNat ≤ 57 then some (c.toNat + 4)
  else if c = '+' then some 62
  else if c = '/' then some 63
  else none

theorem ofChar_toChar {n : ℕ} (h : n < 64) : ofChar (toChar n) = some n := by
  have hall : ∀ m : Fin 64, ofChar (toChar m) = some m.val := by decide
  exact hall ⟨n, h⟩

theorem toChar_ne_pad {n : ℕ} (h : n < 64) : toChar n ≠ '=' := by
  have hall : ∀ m : Fin 64, toChar m ≠ '=' := by decide
  exact hall ⟨n, h⟩

def encode : List UInt8 → List Char
  | [] => []
  | [a] => [toChar (a.toNat / 4), toChar (a.toNat % 4 * 16), '=', '=']
  | [a, b] =>
    [toChar (a.toNat / 4), toChar (a.toNat % 4 * 16 + b.toNat / 16), toChar (b.toNat % 16 * 4), '=']
  | a :: b :: c :: rest =>
    toChar (a.toNat / 4) :: toChar (a.toNat % 4 * 16 + b.toNat / 16) ::
      toChar (b.toNat % 16 * 4 + c.toNat / 64) :: toChar (c.toNat % 64) :: encode rest

def decode : List Char → Option (List UInt8)
  | [] => some []
  | w :: x :: y :: z :: rest => do
    let w ← ofChar w
    let x ← ofChar x
    let a := UInt8.ofNat (w * 4 + x / 16)
    if y = '=' ∧ z = '=' then pure [a]
    else
      let y ← ofChar y
      let b := UInt8.ofNat (x % 16 * 16 + y / 4)
      if z = '=' then pure [a, b]
      else
        let z ← ofChar z
        let rest ← decode rest
        pure (a :: b :: UInt8.ofNat (y % 4 * 64 + z) :: rest)
  | _ => none

theorem ofNat_eq {a : UInt8} {n : ℕ} (h : n = a.toNat) : UInt8.ofNat n = a := by
  rw [h, UInt8.ofNat_toNat]

theorem decode_encode (bytes : List UInt8) : decode (encode bytes) = some bytes := by
  induction bytes using encode.induct with
  | case1 => rfl
  | case2 a =>
    have ha := a.toNat_lt
    have hfirst := ofNat_eq (a := a) (n := a.toNat / 4 * 4 + a.toNat % 4 * 16 / 16) (by omega)
    simp only [encode, decode, ofChar_toChar (n := a.toNat / 4) (by omega),
      ofChar_toChar (n := a.toNat % 4 * 16) (by omega), and_self, if_true,
      Option.bind_eq_bind, Option.bind_some, hfirst, pure]
  | case3 a b =>
    have ha := a.toNat_lt
    have hb := b.toNat_lt
    have hfirst := ofNat_eq (a := a)
      (n := a.toNat / 4 * 4 + (a.toNat % 4 * 16 + b.toNat / 16) / 16) (by omega)
    have hsecond := ofNat_eq (a := b)
      (n := (a.toNat % 4 * 16 + b.toNat / 16) % 16 * 16 + b.toNat % 16 * 4 / 4) (by omega)
    simp only [encode, decode, ofChar_toChar (n := a.toNat / 4) (by omega),
      ofChar_toChar (n := a.toNat % 4 * 16 + b.toNat / 16) (by omega),
      ofChar_toChar (n := b.toNat % 16 * 4) (by omega),
      toChar_ne_pad (n := b.toNat % 16 * 4) (by omega), false_and, if_false, if_true,
      Option.bind_eq_bind, Option.bind_some, hfirst, hsecond, pure]
  | case4 a b c rest ih =>
    have ha := a.toNat_lt
    have hb := b.toNat_lt
    have hc := c.toNat_lt
    have hfirst := ofNat_eq (a := a)
      (n := a.toNat / 4 * 4 + (a.toNat % 4 * 16 + b.toNat / 16) / 16) (by omega)
    have hsecond := ofNat_eq (a := b)
      (n := (a.toNat % 4 * 16 + b.toNat / 16) % 16 * 16 + (b.toNat % 16 * 4 + c.toNat / 64) / 4)
      (by omega)
    have hthird := ofNat_eq (a := c)
      (n := (b.toNat % 16 * 4 + c.toNat / 64) % 4 * 64 + c.toNat % 64) (by omega)
    simp only [encode, decode, ofChar_toChar (n := a.toNat / 4) (by omega),
      ofChar_toChar (n := a.toNat % 4 * 16 + b.toNat / 16) (by omega),
      ofChar_toChar (n := b.toNat % 16 * 4 + c.toNat / 64) (by omega),
      ofChar_toChar (n := c.toNat % 64) (by omega),
      toChar_ne_pad (n := b.toNat % 16 * 4 + c.toNat / 64) (by omega),
      toChar_ne_pad (n := c.toNat % 64) (by omega), false_and, if_false,
      Option.bind_eq_bind, Option.bind_some, ih, hfirst, hsecond, hthird, pure]

end Base64
