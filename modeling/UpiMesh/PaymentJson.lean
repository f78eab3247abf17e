import UpiMesh.Lib.Rounding
import UpiMesh.Types
import Mathlib.Data.Rat.Floor

/-!
# The JSON of a payment instruction

Inside the server an amount is an integer of paise, in the JSON it is a double of rupees: `to_json`
divides by 100 and `from_json` multiplies by 100 and rounds. The double arithmetic and the JSON library
are parameters, with what is documented of them.
-/

namespace UpiMesh

open Int64Arith Rounding

/-- The `double` operations: `fl` rounds the exact result of a division or a multiplication, and the
casts are exact where the value can be represented. -/
structure Binary64 where
  fl : ℚ → ℚ
  ofInt64 : ℤ → ℚ
  toInt64 : ℤ → ℤ
  rounds : Rounds (2 ^ (-53 : ℤ)) fl
  ofInt64_exact : ∀ n, |n| < 2 ^ 53 → ofInt64 n = n
  toInt64_exact : ∀ n, Fits n → toInt64 n = n
  toInt64_fits : ∀ n, Fits (toInt64 n)

/-- The values of `nlohmann::json`, how the code makes them and how it takes them apart. -/
structure JsonLibrary where
  Json : Type
  string : String → Json
  float : ℚ → Json
  integer : ℤ → Json
  object : List (String × Json) → Json
  atKey : Json → String → Except Exn Json
  getString : Json → Except Exn String
  getDouble : Json → Except Exn ℚ
  getInt64 : Json → Except Exn { n : ℤ // Fits n }
  getString_string : ∀ s, getString (string s) = .ok s
  getDouble_float : ∀ x, getDouble (float x) = .ok x
  getInt64_integer : ∀ n (h : Fits n), getInt64 (integer n) = .ok ⟨n, h⟩
  atKey_object : ∀ members k v, (members.map Prod.fst).Nodup → (k, v) ∈ members →
    atKey (object members) k = .ok v

/-- A parsed JSON text. Only the type of its doubles is left open. -/
inductive JsonValue (Double : Type) where
  | null
  | boolean (b : Bool)
  | integer (n : ℤ)
  | real (x : Double)
  | string (s : String)
  | array (elements : List (JsonValue Double))
  | object (members : List (String × JsonValue Double))

namespace JsonValue

def typeName : JsonValue ℚ → String
  | .null => "null"
  | .boolean _ => "boolean"
  | .integer _ => "number"
  | .real _ => "number"
  | .string _ => "string"
  | .array _ => "array"
  | .object _ => "object"

def atKey (j : JsonValue ℚ) (key : String) : Except Exn (JsonValue ℚ) :=
  match j with
  | .object members =>
    match members.lookup key with
    | some v => .ok v
    | none => .error (.runtimeError s!"[json.exception.out_of_range.403] key '{key}' not found")
  | j => .error (.runtimeError s!"[json.exception.type_error.304] cannot use at() with {j.typeName}")

def getString (j : JsonValue ℚ) : Except Exn String :=
  match j with
  | .string s => .ok s
  | j => .error (.runtimeError s!"[json.exception.type_error.302] type must be string, but is {j.typeName}")

def getDouble (j : JsonValue ℚ) : Except Exn ℚ :=
  match j with
  | .real x => .ok x
  | .integer n => .ok n
  | j => .error (.runtimeError s!"[json.exception.type_error.302] type must be number, but is {j.typeName}")

def getInt64 (j : JsonValue ℚ) : Except Exn { n : ℤ // Fits n } :=
  match j with
  | .integer n => .ok ⟨wrap n, fits_wrap n⟩
  | .real x => .ok ⟨wrap (if 0 ≤ x then ⌊x⌋ else ⌈x⌉), fits_wrap _⟩
  | j => .error (.runtimeError s!"[json.exception.type_error.302] type must be number, but is {j.typeName}")

theorem lookup_of_nodup {members : List (String × JsonValue ℚ)} {key : String} {v : JsonValue ℚ}
    (hkeys : (members.map Prod.fst).Nodup) (hmem : (key, v) ∈ members) :
    members.lookup key = some v := by
  obtain ⟨before, after, rfl⟩ := List.append_of_mem hmem
  refine List.lookup_eq_some_iff.mpr ⟨before, after, rfl, fun p hp => ?_⟩
  rw [List.map_append, List.nodup_append] at hkeys
  have hne := hkeys.2.2 p.1 (List.mem_map_of_mem hp) key (by simp)
  simpa using Ne.symm hne

/-- The library on plain trees, with exact numbers. -/
def library : JsonLibrary where
  Json := JsonValue ℚ
  string := .string
  float := .real
  integer := .integer
  object := .object
  atKey := atKey
  getString := getString
  getDouble := getDouble
  getInt64 := getInt64
  getString_string _ := rfl
  getDouble_float _ := rfl
  getInt64_integer n h := by
    have hwrap : (⟨wrap n, fits_wrap n⟩ : { n : ℤ // Fits n }) = ⟨n, h⟩ :=
      Subtype.ext (wrap_of_fits h)
    exact congrArg Except.ok hwrap
  atKey_object members key v hkeys hmem := by
    simp only [atKey, lookup_of_nodup hkeys hmem]

end JsonValue

namespace Binary64

theorem rounds_nearest : Rounds (2 ^ (-53 : ℤ)) (toBits 53 : ℚ → ℚ) := rounds_toBits 53

def nearestOfInt64 (n : ℤ) : ℚ := if |n| < 2 ^ 53 then n else toBits 53 n

theorem nearestOfInt64_exact (n : ℤ) (h : |n| < 2 ^ 53) : nearestOfInt64 n = n := if_pos h

/-- Rounding to 53 significant bits. Casts that are not exact round or wrap around. -/
def nearest : Binary64 where
  fl := toBits 53
  ofInt64 := nearestOfInt64
  toInt64 := wrap
  rounds := rounds_nearest
  ofInt64_exact := nearestOfInt64_exact
  toInt64_exact _ h := wrap_of_fits h
  toInt64_fits := fits_wrap

end Binary64

namespace PaymentInstruction

variable (json : JsonLibrary) (b : Binary64)

/-- `static_cast<double>(paise) / 100.0`. -/
def rupees (paise : ℤ) : ℚ := b.fl (b.ofInt64 paise / 100)

/-- `static_cast<int64_t>(std::round(amtDecimal * 100.0))`. -/
def paise (amtDecimal : ℚ) : ℤ := b.toInt64 (roundHalfAway (b.fl (amtDecimal * 100)))

def to_json (p : PaymentInstruction) : json.Json :=
  json.object
    [("senderVpa", json.string p.senderVpa),
      ("receiverVpa", json.string p.receiverVpa),
      ("amount", json.float (rupees b p.amount)),
      ("pinHash", json.string p.pinHash),
      ("nonce", json.string p.nonce),
      ("signedAt", json.integer p.signedAt)]

def from_json (j : json.Json) : Except Exn PaymentInstruction := do
  let senderVpa ← json.getString (← json.atKey j "senderVpa")
  let receiverVpa ← json.getString (← json.atKey j "receiverVpa")
  let amtDecimal ← json.getDouble (← json.atKey j "amount")
  let pinHash ← json.getString (← json.atKey j "pinHash")
  let nonce ← json.getString (← json.atKey j "nonce")
  let signedAt ← json.getInt64 (← json.atKey j "signedAt")
  pure {
    senderVpa, receiverVpa, pinHash, nonce
    amount := paise b amtDecimal
    signedAt := signedAt
    amount_fits := b.toInt64_fits _
    signedAt_fits := signedAt.2 }

variable {json} {b}

/-- Two rounded operations are off by less than half a paisa. -/
theorem rupees_error {amount : ℤ} (h : |amount| ≤ 2 ^ 50) :
    |b.fl (rupees b amount * 100) - amount| < 1 / 2 := by
  have hamount : |(amount : ℚ)| ≤ 2 ^ 50 := by exact_mod_cast h
  have hcast : b.ofInt64 amount = amount := b.ofInt64_exact amount (by omega)
  have herror := b.rounds.div_mul (by norm_num) (c := 100) (by norm_num) (amount : ℚ)
  rw [rupees, hcast]
  calc |b.fl (b.fl ((amount : ℚ) / 100) * 100) - amount|
      ≤ (2 * 2 ^ (-53 : ℤ) + (2 ^ (-53 : ℤ)) ^ 2) * |(amount : ℚ)| := herror
    _ ≤ (2 * 2 ^ (-53 : ℤ) + (2 ^ (-53 : ℤ)) ^ 2) * 2 ^ 50 :=
        mul_le_mul_of_nonneg_left hamount (by norm_num)
    _ < 1 / 2 := by norm_num

theorem roundHalfAway_rupees {amount : ℤ} (h : |amount| ≤ 2 ^ 50) :
    roundHalfAway (b.fl (rupees b amount * 100)) = amount :=
  roundHalfAway_of_near (rupees_error h)

theorem paise_rupees {amount : ℤ} (h : |amount| ≤ 2 ^ 50) : paise b (rupees b amount) = amount := by
  have hfits : Fits amount := by
    obtain ⟨hlo, hhi⟩ := abs_le.mp h
    constructor <;> omega
  rw [paise, roundHalfAway_rupees h, b.toInt64_exact amount hfits]

/-- Every field is found under its key. -/
theorem from_json_to_json {p : PaymentInstruction} (h : |p.amount| ≤ 2 ^ 50) :
    from_json json b (to_json json b p) = .ok p := by
  have hsender : json.atKey (to_json json b p) "senderVpa" = .ok (json.string p.senderVpa) :=
    json.atKey_object _ _ _ (by simp) (by simp)
  have hreceiver : json.atKey (to_json json b p) "receiverVpa" = .ok (json.string p.receiverVpa) :=
    json.atKey_object _ _ _ (by simp) (by simp)
  have hamount : json.atKey (to_json json b p) "amount" = .ok (json.float (rupees b p.amount)) :=
    json.atKey_object _ _ _ (by simp) (by simp)
  have hpin : json.atKey (to_json json b p) "pinHash" = .ok (json.string p.pinHash) :=
    json.atKey_object _ _ _ (by simp) (by simp)
  have hnonce : json.atKey (to_json json b p) "nonce" = .ok (json.string p.nonce) :=
    json.atKey_object _ _ _ (by simp) (by simp)
  have hsigned : json.atKey (to_json json b p) "signedAt" = .ok (json.integer p.signedAt) :=
    json.atKey_object _ _ _ (by simp) (by simp)
  have hpaise := paise_rupees (b := b) h
  obtain ⟨senderVpa, receiverVpa, amount, pinHash, nonce, signedAt, hfits, hfits'⟩ := p
  simp only [from_json, hsender, hreceiver, hamount, hpin, hnonce, hsigned, bind, Except.bind,
    json.getString_string, json.getDouble_float, json.getInt64_integer _ hfits', pure, Except.pure,
    hpaise]

end PaymentInstruction

open PaymentInstruction

/-- Amounts of up to 2⁵⁰ paise survive the encoding as rupees, whatever the rounding is: the decoder
rounds to the same amount, so that an instruction is read back in all its fields, and different amounts
have different encodings. -/
theorem paise_survive (json : JsonLibrary) (b : Binary64) (p : PaymentInstruction)
    (h : |p.amount| ≤ 2 ^ 50) :
    roundHalfAway (b.fl (b.fl ((p.amount : ℚ) / 100) * 100)) = p.amount ∧
      from_json json b (to_json json b p) = .ok p ∧
      ∀ q : PaymentInstruction, |q.amount| ≤ 2 ^ 50 → q.amount ≠ p.amount →
        to_json json b q ≠ to_json json b p := by
  refine ⟨?_, from_json_to_json h, fun q hq hne hsame => ?_⟩
  · have hcast : b.ofInt64 p.amount = p.amount := b.ofInt64_exact p.amount (by omega)
    rw [← hcast]
    exact roundHalfAway_rupees h
  · have hread : from_json json b (to_json json b q) = .ok q := from_json_to_json hq
    rw [hsame, from_json_to_json h] at hread
    obtain rfl := Except.ok.inj hread
    exact hne rfl

/-- 10.01 rupees are 1001 paise again. -/
theorem paise_survive_ten_rupees_one :
    let p := { alicePaysBob with amount := 1001, amount_fits := by decide }
    (roundHalfAway (toBits 53 (toBits 53 ((1001 : ℚ) / 100) * 100)) = 1001 ∧
        from_json JsonValue.library .nearest (to_json JsonValue.library .nearest p) = .ok p) ∧
      to_json JsonValue.library .nearest alicePaysBob ≠ to_json JsonValue.library .nearest p := by
  intro p
  obtain ⟨hround, hread, hdiffer⟩ := paise_survive JsonValue.library .nearest p (by decide)
  refine ⟨⟨?_, hread⟩, hdiffer alicePaysBob (by decide) (by decide)⟩
  have hcast : ((1001 : ℤ) : ℚ) = 1001 := by norm_num
  rw [← hcast]
  exact hround

end UpiMesh
