import UpiMesh.Types

/-!
# HybridCryptoService

The wire format of a packet: base64 of the RSA-encrypted AES key, the IV, the AES-GCM ciphertext and
its tag. The primitives of OpenSSL and the JSON codec of a `PaymentInstruction` are parameters, and
so are the random bytes of an encryption. `CryptoService` is what the rest of the server uses.
-/

namespace UpiMesh

abbrev Bytes := List UInt8

/-- `"%02x"` for every byte. -/
def hexString (bytes : Bytes) : String :=
  String.ofList (bytes.flatMap fun b => [Nat.digitChar (b.toNat / 16), Nat.digitChar (b.toNat % 16)])

theorem digitChar_ne_nul {n : ℕ} (h : n < 16) : Nat.digitChar n ≠ '\x00' := by
  have hall : ∀ m : Fin 16, Nat.digitChar m ≠ '\x00' := by decide
  exact hall ⟨n, h⟩

theorem digitChar_inj {m n : ℕ} (hm : m < 16) (hn : n < 16)
    (h : Nat.digitChar m = Nat.digitChar n) : m = n := by
  have hall : ∀ i j : Fin 16, Nat.digitChar i = Nat.digitChar j → i = j := by decide
  exact congrArg Fin.val (hall ⟨m, hm⟩ ⟨n, hn⟩ h)

theorem cstr_hexString (bytes : Bytes) : cstr (hexString bytes) = hexString bytes := by
  apply cstr_of_notMem
  rw [hexString, String.toList_ofList, List.mem_flatMap]
  rintro ⟨b, _, hb⟩
  have hlt := b.toNat_lt
  rcases List.mem_cons.mp hb with hb | hb
  · exact digitChar_ne_nul (by omega) hb.symm
  · exact digitChar_ne_nul (by omega) (List.mem_singleton.mp hb).symm

theorem hexString_injective : Function.Injective hexString := by
  intro xs ys h
  replace h := congrArg String.toList h
  simp only [hexString, String.toList_ofList] at h
  induction xs generalizing ys with
  | nil =>
    cases ys with
    | nil => rfl
    | cons y ys => simp at h
  | cons x xs ih =>
    cases ys with
    | nil => simp at h
    | cons y ys =>
      simp only [List.flatMap_cons, List.cons_append, List.nil_append, List.cons.injEq] at h
      obtain ⟨hhi, hlo, hrest⟩ := h
      have hx := x.toNat_lt
      have hy := y.toNat_lt
      have hdiv := digitChar_inj (by omega) (by omega) hhi
      have hmod := digitChar_inj (by omega) (by omega) hlo
      have hxy : x.toNat = y.toNat := by omega
      rw [UInt8.toNat_inj.mp hxy, ih hrest]

/-- The random bytes one encryption draws. -/
structure EncryptionRandomness where
  aesKey : Bytes
  iv : Bytes
  oaepSeed : Bytes
  deriving DecidableEq, Repr

/-- Opening a ciphertext includes reading the instruction from its JSON text. -/
structure CryptoService where
  sha256 : String → Bytes
  encrypt : PaymentInstruction → EncryptionRandomness → Except Exn String
  decrypt : String → Except Exn PaymentInstruction

namespace CryptoService

def hashCiphertext (crypto : CryptoService) (ciphertext : String) : String :=
  hexString (crypto.sha256 ciphertext)

@[simp] theorem cstr_hashCiphertext (crypto : CryptoService) (ciphertext : String) :
    cstr (crypto.hashCiphertext ciphertext) = crypto.hashCiphertext ciphertext :=
  cstr_hexString _

theorem hashCiphertext_inj {crypto : CryptoService} (h : Function.Injective crypto.sha256)
    {c d : String} : crypto.hashCiphertext c = crypto.hashCiphertext d ↔ c = d :=
  ⟨fun e => h (hexString_injective e), fun e => e ▸ rfl⟩

/-- A service that opens the listed ciphertexts and no others. Its digest is the text itself. -/
def ofList (known : List (String × PaymentInstruction)) : CryptoService where
  sha256 c := c.toUTF8.data.toList
  encrypt instruction _ :=
    match known.find? (·.2 = instruction) with
    | some (ciphertext, _) => .ok ciphertext
    | none => .error (.runtimeError "Failed during AES-GCM encrypt update")
  decrypt ciphertext :=
    match known.find? (·.1 = ciphertext) with
    | some (_, instruction) => .ok instruction
    | none => .error (.invalidArgument "Ciphertext too short")

theorem sha256_ofList_injective (known : List (String × PaymentInstruction)) :
    Function.Injective (ofList known).sha256 := by
  intro c d h
  exact String.toByteArray_inj.mp (ByteArray.ext (Array.toList_inj.mp h))

theorem decrypt_encrypt_ofList {ciphertext c : String} {instruction i : PaymentInstruction}
    {random : EncryptionRandomness}
    (h : (ofList [(ciphertext, instruction)]).encrypt i random = .ok c) :
    (ofList [(ciphertext, instruction)]).decrypt c = .ok i := by
  by_cases hi : instruction = i
  · obtain rfl : ciphertext = c := by simpa [ofList, hi] using h
    simp [ofList, hi]
  · simp [ofList, hi] at h

end CryptoService

structure OpenSSL where
  rsaEncrypt : (aesKey oaepSeed : Bytes) → Except Exn Bytes
  rsaDecrypt : Bytes → Except Exn Bytes
  aesGcmEncrypt : (aesKey iv plaintext : Bytes) → Except Exn (Bytes × Bytes)
  aesGcmDecrypt : (aesKey iv ciphertext tag : Bytes) → Except Exn Bytes
  base64Encode : Bytes → String
  base64Decode : String → Except Exn Bytes
  sha256 : String → Bytes

/-- `to_json` with `dump`, and `parse` with `from_json`. -/
structure InstructionCodec where
  dump : PaymentInstruction → Except Exn Bytes
  parse : Bytes → Except Exn PaymentInstruction

namespace HybridCryptoService

def gcmIvBytes : ℕ := 12
def gcmTagBytes : ℕ := 16
def rsaEncryptedKeyBytes : ℕ := 256

variable (ssl : OpenSSL) (json : InstructionCodec)

def encrypt (instruction : PaymentInstruction) (random : EncryptionRandomness) :
    Except Exn String := do
  let plaintext ← json.dump instruction
  let (ciphertext, tag) ← ssl.aesGcmEncrypt random.aesKey random.iv plaintext
  let rsaCiphertext ← ssl.rsaEncrypt random.aesKey random.oaepSeed
  pure (ssl.base64Encode (rsaCiphertext ++ random.iv ++ ciphertext ++ tag))

def decrypt (base64Ciphertext : String) : Except Exn PaymentInstruction := do
  let all ← ssl.base64Decode base64Ciphertext
  if all.length < rsaEncryptedKeyBytes + gcmIvBytes + gcmTagBytes then
    throw (.invalidArgument "Ciphertext too short")
  let rsaCiphertext := all.take rsaEncryptedKeyBytes
  let rest := all.drop rsaEncryptedKeyBytes
  let iv := rest.take gcmIvBytes
  let rest := rest.drop gcmIvBytes
  let aesCipherLen := rest.length - gcmTagBytes
  let aesCiphertext := rest.take aesCipherLen
  let tag := rest.drop aesCipherLen
  let aesKey ← ssl.rsaDecrypt rsaCiphertext
  let plaintext ← ssl.aesGcmDecrypt aesKey iv aesCiphertext tag
  json.parse plaintext

def service : CryptoService where
  sha256 := ssl.sha256
  encrypt := encrypt ssl json
  decrypt := decrypt ssl json

end HybridCryptoService
end UpiMesh
