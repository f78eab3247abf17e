import UpiMesh.Lib.Int64
import Mathlib.Data.List.TakeWhile

/-!
# The entities of the payment mesh

`std::string` is modelled by `String`. Text that crosses into SQLite, or comes back from
`std::exception::what`, is a C string and loses everything from its first NUL on; `cstr` is that
truncation. An `int64_t` is an integer, with its range recorded where arithmetic depends on it.
-/

namespace UpiMesh

open Int64Arith

/-- The characters before the first NUL: what a NUL-terminated reader sees of `s`. -/
def cstr (s : String) : String := String.ofList (s.toList.takeWhile (· ≠ '\x00'))

theorem toList_cstr (s : String) : (cstr s).toList = s.toList.takeWhile (· ≠ '\x00') := by
  simp [cstr]

@[simp] theorem cstr_cstr (s : String) : cstr (cstr s) = cstr s := by
  rw [cstr, toList_cstr, List.takeWhile_idem, cstr]

/-- Text without a NUL passes unchanged. -/
theorem cstr_of_notMem {s : String} (h : '\x00' ∉ s.toList) : cstr s = s := by
  rw [cstr, List.takeWhile_eq_self_iff.mpr, String.ofList_toList]
  intro c hc
  simpa using fun e : c = '\x00' => h (e ▸ hc)

/-- An account as it is read from the `accounts` table, so its texts are C strings. -/
structure Account where
  vpa : String
  holderName : String
  balance : ℤ
  version : ℤ
  vpa_text : cstr vpa = vpa := by decide
  holderName_text : cstr holderName = holderName := by decide
  balance_fits : Fits balance := by decide
  deriving DecidableEq, Repr

/-- `balance -= amount`. -/
def Account.debit (a : Account) (amount : ℤ) : Account :=
  { a with balance := sub a.balance amount, balance_fits := fits_wrap _ }

/-- `balance += amount`. -/
def Account.credit (a : Account) (amount : ℤ) : Account :=
  { a with balance := add a.balance amount, balance_fits := fits_wrap _ }

@[simp] theorem Account.vpa_debit (a : Account) (x : ℤ) : (a.debit x).vpa = a.vpa := rfl
@[simp] theorem Account.vpa_credit (a : Account) (x : ℤ) : (a.credit x).vpa = a.vpa := rfl
@[simp] theorem Account.balance_debit (a : Account) (x : ℤ) :
    (a.debit x).balance = sub a.balance x := rfl
@[simp] theorem Account.balance_credit (a : Account) (x : ℤ) :
    (a.credit x).balance = add a.balance x := rfl

inductive Status where
  | SETTLED
  | REJECTED
  | DUPLICATE_DROPPED
  | INVALID
  deriving DecidableEq, Repr

def statusToString : Status → String
  | .SETTLED => "SETTLED"
  | .REJECTED => "REJECTED"
  | .DUPLICATE_DROPPED => "DUPLICATE_DROPPED"
  | .INVALID => "INVALID"

/-- A row of the `transactions` table, and the value `settle` returns. -/
structure Transaction where
  id : ℤ
  packetHash : String
  senderVpa : String
  receiverVpa : String
  amount : ℤ
  signedAt : ℤ
  settledAt : ℤ
  bridgeNodeId : String
  hopCount : ℤ
  status : Status
  deriving DecidableEq, Repr

structure MeshPacket where
  packetId : String
  ttl : ℤ
  createdAt : ℤ
  ciphertext : String
  deriving DecidableEq, Repr

structure PaymentInstruction where
  senderVpa : String
  receiverVpa : String
  amount : ℤ
  pinHash : String
  nonce : String
  signedAt : ℤ
  amount_fits : Fits amount := by decide
  signedAt_fits : Fits signedAt := by decide
  deriving DecidableEq, Repr

/-- A payment between two of the seeded accounts. -/
def alicePaysBob : PaymentInstruction where
  senderVpa := "alice@demo"
  receiverVpa := "bob@demo"
  amount := 1000
  pinHash := ""
  nonce := "n"
  signedAt := 0

/-- A thrown exception, as far as its handlers look at it. -/
inductive Exn where
  | invalidArgument (what : String)
  | runtimeError (what : String)
  deriving DecidableEq, Repr

def Exn.what : Exn → String
  | .invalidArgument w => w
  | .runtimeError w => w

/-- A sequence ends well when both of its parts do. -/
theorem bind_eq_ok {ε α β : Type} {x : Except ε α} {f : α → Except ε β} {b : β}
    (h : x >>= f = .ok b) : ∃ a, x = .ok a ∧ f a = .ok b := by
  cases x with
  | error e => cases h
  | ok a => exact ⟨a, rfl, h⟩

end UpiMesh
