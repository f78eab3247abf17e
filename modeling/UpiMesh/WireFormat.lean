import UpiMesh.Lib.Base64
import UpiMesh.Crypto
import UpiMesh.PaymentJson

/-!
# The wire format

`[256 bytes of RSA][12 of IV][the AES-GCM ciphertext][16 of tag]`, and nothing else marks where one part
ends. What is encrypted is any JSON value, as `HybridCryptoService` does it; the payment instructions of
the server are one kind of value.
-/

namespace UpiMesh

open PaymentInstruction

/-- What is documented of the primitives, for the encryptions that succeed. -/
structure OpenSSL.Documented (ssl : OpenSSL) : Prop where
  rsa : ∀ {aesKey oaepSeed c}, ssl.rsaEncrypt aesKey oaepSeed = .ok c →
    c.length = 256 ∧ ssl.rsaDecrypt c = .ok aesKey
  aesGcm : ∀ {aesKey iv plaintext ciphertext tag},
    ssl.aesGcmEncrypt aesKey iv plaintext = .ok (ciphertext, tag) →
      ciphertext.length = plaintext.length ∧ tag.length = 16 ∧
        ssl.aesGcmDecrypt aesKey iv ciphertext tag = .ok plaintext
  base64 : ∀ bytes, ssl.base64Decode (ssl.base64Encode bytes) = .ok bytes

/-- `dump` throws on text that is not UTF-8, `parse` on text that is not JSON. -/
structure JsonText (Json : Type) where
  dump : Json → Except Exn Bytes
  parse : Bytes → Except Exn Json

def JsonText.ParseInvertsDump {Json : Type} (text : JsonText Json) : Prop :=
  ∀ {j bytes}, text.dump j = .ok bytes → text.parse bytes = .ok j

/-- Two iterators into a vector, as offsets. -/
structure Slice where
  first : ℕ
  last : ℕ
  deriving DecidableEq, Repr

/-- The range constructor of `std::vector` is defined on such iterators only. -/
def Slice.InRange (s : Slice) (v : Bytes) : Prop := s.first ≤ s.last ∧ s.last ≤ v.length

def Slice.bytes (s : Slice) (v : Bytes) : Bytes := (v.drop s.first).take (s.last - s.first)

theorem Slice.inRange_iff {first last : ℕ} {v : Bytes} :
    Slice.InRange ⟨first, last⟩ v ↔ first ≤ last ∧ last ≤ v.length := Iff.rfl

theorem Slice.length_bytes {first last : ℕ} {v : Bytes} (h : Slice.InRange ⟨first, last⟩ v) :
    (Slice.bytes ⟨first, last⟩ v).length = last - first := by
  obtain ⟨hfirst, hlast⟩ := Slice.inRange_iff.mp h
  simp only [bytes, List.length_take, List.length_drop]
  omega

/-- Neighbouring slices join. -/
theorem Slice.bytes_append {i j k : ℕ} (hij : i ≤ j) (hjk : j ≤ k) (v : Bytes) :
    Slice.bytes ⟨i, j⟩ v ++ Slice.bytes ⟨j, k⟩ v = Slice.bytes ⟨i, k⟩ v := by
  have hsplit : k - i = (j - i) + (k - j) := by omega
  have hstart : v.drop j = (v.drop i).drop (j - i) := by
    rw [List.drop_drop, Nat.add_sub_cancel' hij]
  simp only [bytes, hsplit, hstart, List.take_add]

theorem Slice.bytes_all (v : Bytes) : Slice.bytes ⟨0, v.length⟩ v = v := by
  simp [bytes]

theorem Slice.bytes_middle {s : Slice} {v : Bytes} (before part after : Bytes)
    (hv : v = before ++ (part ++ after)) (hfirst : s.first = before.length)
    (hlast : s.last = before.length + part.length) : s.bytes v = part := by
  rw [bytes, hv, hfirst, hlast, List.drop_left, Nat.add_sub_cancel_left, List.take_left]

/-- Code that cuts slices and may throw; the slices cut so far are kept, in order. -/
abbrev Cutting := ExceptT Exn (StateM (List Slice))

structure Packed where
  rsaCiphertext : Bytes
  iv : Bytes
  aesCiphertext : Bytes
  tag : Bytes
  deriving DecidableEq, Repr

def Packed.bytes (p : Packed) : Bytes := p.rsaCiphertext ++ p.iv ++ p.aesCiphertext ++ p.tag

/-- The conversion of a pointer difference to `size_t`. -/
def sizeT (d : ℤ) : ℕ := if 0 ≤ d then d.toNat else (d + 2 ^ 64).toNat

namespace HybridCryptoService

def cut (v : Bytes) (first last : ℕ) : Cutting Bytes := do
  modify (· ++ [⟨first, last⟩])
  pure (Slice.bytes ⟨first, last⟩ v)

/-- The first part of `decrypt`. -/
def unpack (all : Bytes) : Cutting Packed := do
  if all.length < rsaEncryptedKeyBytes + gcmIvBytes + gcmTagBytes then
    throw (.invalidArgument "Ciphertext too short")
  let it := 0
  let rsaCiphertext ← cut all it (it + rsaEncryptedKeyBytes)
  let it := it + rsaEncryptedKeyBytes
  let iv ← cut all it (it + gcmIvBytes)
  let it := it + gcmIvBytes
  let aesCipherLen := sizeT (all.length - it - gcmTagBytes)
  let aesCiphertext ← cut all it (it + aesCipherLen)
  let it := it + aesCipherLen
  let tag ← cut all it all.length
  pure { rsaCiphertext, iv, aesCiphertext, tag }

section

variable {Json : Type} (ssl : OpenSSL) (text : JsonText Json)

def encryptJson (instruction : Json) (random : EncryptionRandomness) : Except Exn String := do
  let plaintext ← text.dump instruction
  let (aesCiphertext, tag) ← ssl.aesGcmEncrypt random.aesKey random.iv plaintext
  let rsaCiphertext ← ssl.rsaEncrypt random.aesKey random.oaepSeed
  pure (ssl.base64Encode (Packed.bytes ⟨rsaCiphertext, random.iv, aesCiphertext, tag⟩))

/-- The rest of `decrypt`, with the four parts at hand. -/
def openPacked (packed : Packed) : Except Exn Json := do
  let aesKey ← ssl.rsaDecrypt packed.rsaCiphertext
  let plaintext ← ssl.aesGcmDecrypt aesKey packed.iv packed.aesCiphertext packed.tag
  text.parse plaintext

def decryptJson (base64Ciphertext : String) : Except Exn Json := do
  let all ← ssl.base64Decode base64Ciphertext
  let packed ← ((unpack all).run []).1
  openPacked ssl text packed

end

/-- Nothing is cut from a string that is too short. -/
theorem unpack_short {all : Bytes} (h : all.length < 284) :
    (unpack all).run [] = (.error (.invalidArgument "Ciphertext too short"), []) := by
  have hshort : all.length < rsaEncryptedKeyBytes + gcmIvBytes + gcmTagBytes := h
  rw [unpack, if_pos hshort]
  rfl

/-- The slices of a string that is long enough. -/
theorem unpack_long {all : Bytes} (h : 284 ≤ all.length) :
    (unpack all).run [] =
      (.ok {
        rsaCiphertext := Slice.bytes ⟨0, 256⟩ all
        iv := Slice.bytes ⟨256, 268⟩ all
        aesCiphertext := Slice.bytes ⟨268, all.length - 16⟩ all
        tag := Slice.bytes ⟨all.length - 16, all.length⟩ all },
      [⟨0, 256⟩, ⟨256, 268⟩, ⟨268, all.length - 16⟩, ⟨all.length - 16, all.length⟩]) := by
  have hlong : ¬ all.length < rsaEncryptedKeyBytes + gcmIvBytes + gcmTagBytes := by
    change ¬ all.length < 284
    omega
  -- the subtraction stays above zero, so that it does not wrap around
  have hlen : 268 + sizeT (all.length - 268 - 16) = all.length - 16 := by
    unfold sizeT
    split_ifs <;> omega
  rw [unpack, if_neg hlong, ← hlen]
  rfl

/-- What was packed is unpacked, also with nothing between the IV and the tag. -/
theorem unpack_bytes {p : Packed} (hrsa : p.rsaCiphertext.length = 256) (hiv : p.iv.length = 12)
    (htag : p.tag.length = 16) : ((unpack p.bytes).run []).1 = .ok p := by
  have hlen : p.bytes.length = 284 + p.aesCiphertext.length := by
    simp only [Packed.bytes, List.length_append, hrsa, hiv, htag]
    omega
  have hrsaCut := Slice.bytes_middle (s := ⟨0, 256⟩) (v := p.bytes) [] p.rsaCiphertext
    (p.iv ++ (p.aesCiphertext ++ p.tag)) (by simp [Packed.bytes]) rfl (by simp [hrsa])
  have hivCut := Slice.bytes_middle (s := ⟨256, 268⟩) (v := p.bytes) p.rsaCiphertext p.iv
    (p.aesCiphertext ++ p.tag) (by simp [Packed.bytes]) hrsa.symm (by rw [hrsa, hiv])
  have haesCut := Slice.bytes_middle (s := ⟨268, p.bytes.length - 16⟩) (v := p.bytes)
    (p.rsaCiphertext ++ p.iv) p.aesCiphertext p.tag (by simp [Packed.bytes])
    (by simp [hrsa, hiv]) (by simp only [List.length_append, hrsa, hiv]; omega)
  have htagCut := Slice.bytes_middle (s := ⟨p.bytes.length - 16, p.bytes.length⟩) (v := p.bytes)
    (p.rsaCiphertext ++ p.iv ++ p.aesCiphertext) p.tag [] (by simp [Packed.bytes])
    (by simp only [List.length_append, hrsa, hiv]; omega)
    (by simp only [List.length_append, hrsa, hiv, htag]; omega)
  rw [unpack_long (by omega), hrsaCut, hivCut, haesCut, htagCut]

/-- The slices are in range and make up the string, in the order of `Packed.bytes`. -/
theorem unpack_inRange {all : Bytes} (h : 284 ≤ all.length) :
    ∃ packed slices, (unpack all).run [] = (.ok packed, slices) ∧
      slices = [⟨0, 256⟩, ⟨256, 268⟩, ⟨268, all.length - 16⟩, ⟨all.length - 16, all.length⟩] ∧
      (∀ s ∈ slices, s.InRange all) ∧
      packed.rsaCiphertext.length = 256 ∧ packed.iv.length = 12 ∧
      packed.aesCiphertext.length = all.length - 284 ∧ packed.tag.length = 16 ∧
      packed.bytes = all := by
  have hrsa : Slice.InRange ⟨0, 256⟩ all := Slice.inRange_iff.mpr (by omega)
  have hiv : Slice.InRange ⟨256, 268⟩ all := Slice.inRange_iff.mpr (by omega)
  have haes : Slice.InRange ⟨268, all.length - 16⟩ all := Slice.inRange_iff.mpr (by omega)
  have htag : Slice.InRange ⟨all.length - 16, all.length⟩ all := Slice.inRange_iff.mpr (by omega)
  refine ⟨_, _, unpack_long h, rfl, ?_, Slice.length_bytes hrsa, Slice.length_bytes hiv, ?_, ?_, ?_⟩
  · simp only [List.forall_mem_cons]
    exact ⟨hrsa, hiv, haes, htag, fun _ hs => absurd hs List.not_mem_nil⟩
  · rw [Slice.length_bytes haes]
    omega
  · rw [Slice.length_bytes htag]
    omega
  · rw [Packed.bytes, Slice.bytes_append (by omega) (by omega), Slice.bytes_append (by omega)
      (by omega), Slice.bytes_append (by omega) (by omega), Slice.bytes_all]

section

variable {Json : Type} {ssl : OpenSSL} {text : JsonText Json}

theorem decryptJson_short {c : String} {all : Bytes} (hall : ssl.base64Decode c = .ok all)
    (h : all.length < 284) :
    decryptJson ssl text c = .error (.invalidArgument "Ciphertext too short") := by
  simp only [decryptJson, hall, unpack_short h, bind, Except.bind]

theorem encryptJson_ok {j : Json} {random : EncryptionRandomness}
    {plaintext aesCiphertext tag rsaCiphertext : Bytes} (hdump : text.dump j = .ok plaintext)
    (haes : ssl.aesGcmEncrypt random.aesKey random.iv plaintext = .ok (aesCiphertext, tag))
    (hrsa : ssl.rsaEncrypt random.aesKey random.oaepSeed = .ok rsaCiphertext) :
    encryptJson ssl text j random =
      .ok (ssl.base64Encode (Packed.bytes ⟨rsaCiphertext, random.iv, aesCiphertext, tag⟩)) := by
  simp only [encryptJson, hdump, haes, hrsa, bind, Except.bind, pure, Except.pure]

/-- What a successful encryption has computed. -/
theorem encryptJson_cases {j : Json} {random : EncryptionRandomness} {c : String}
    (h : encryptJson ssl text j random = .ok c) :
    ∃ plaintext aesCiphertext tag rsaCiphertext, text.dump j = .ok plaintext ∧
      ssl.aesGcmEncrypt random.aesKey random.iv plaintext = .ok (aesCiphertext, tag) ∧
      ssl.rsaEncrypt random.aesKey random.oaepSeed = .ok rsaCiphertext ∧
      c = ssl.base64Encode (Packed.bytes ⟨rsaCiphertext, random.iv, aesCiphertext, tag⟩) := by
  obtain ⟨plaintext, hdump, h⟩ := bind_eq_ok h
  obtain ⟨⟨aesCiphertext, tag⟩, haes, h⟩ := bind_eq_ok h
  obtain ⟨rsaCiphertext, hrsa, h⟩ := bind_eq_ok h
  exact ⟨plaintext, aesCiphertext, tag, rsaCiphertext, hdump, haes, hrsa, (Except.ok.inj h).symm⟩

/-- Decrypting undoes encrypting. -/
theorem decryptJson_encryptJson (hssl : ssl.Documented) (htext : text.ParseInvertsDump) {j : Json}
    {random : EncryptionRandomness} (hiv : random.iv.length = 12) {c : String}
    (h : encryptJson ssl text j random = .ok c) : decryptJson ssl text c = .ok j := by
  obtain ⟨plaintext, aesCiphertext, tag, rsaCiphertext, hdump, haes, hrsa, rfl⟩ := encryptJson_cases h
  obtain ⟨hlen, hkey⟩ := hssl.rsa hrsa
  obtain ⟨-, htag, hopen⟩ := hssl.aesGcm haes
  have hunpack := unpack_bytes (p := ⟨rsaCiphertext, random.iv, aesCiphertext, tag⟩)
    hlen hiv htag
  simp only [decryptJson, openPacked, hssl.base64, hunpack, hkey, hopen, htext hdump, bind,
    Except.bind]

end

/-- The instructions of the server go through their JSON value. -/
def codec (json : JsonLibrary) (b : Binary64) (text : JsonText json.Json) : InstructionCodec where
  dump instruction := text.dump (to_json json b instruction)
  parse bytes := text.parse bytes >>= from_json json b

section

variable {ssl : OpenSSL} {json : JsonLibrary} {b : Binary64} {text : JsonText json.Json}

theorem encrypt_codec (p : PaymentInstruction) (random : EncryptionRandomness) :
    encrypt ssl (codec json b text) p random = encryptJson ssl text (to_json json b p) random := rfl

/-- `decrypt` cuts by dropping what it has read, which gives the same last two slices. -/
theorem slices_of_drop {all : Bytes} (h : 284 ≤ all.length) :
    (all.drop 268).take ((all.drop 268).length - 16) = Slice.bytes ⟨268, all.length - 16⟩ all ∧
      (all.drop 268).drop ((all.drop 268).length - 16) =
        Slice.bytes ⟨all.length - 16, all.length⟩ all := by
  have hlen : (all.drop 268).length - 16 = all.length - 16 - 268 := by
    rw [List.length_drop]
    exact Nat.sub_right_comm _ _ _
  have hstart : 268 + (all.length - 16 - 268) = all.length - 16 := by omega
  rw [hlen]
  refine ⟨rfl, ?_⟩
  rw [Slice.bytes, List.drop_drop, hstart, List.take_of_length_le]
  rw [List.length_drop]

theorem decrypt_codec (c : String) :
    decrypt ssl (codec json b text) c = decryptJson ssl text c >>= from_json json b := by
  cases hall : ssl.base64Decode c with
  | error e => simp only [decrypt, decryptJson, hall, bind, Except.bind]
  | ok all =>
    by_cases hshort : all.length < 284
    · have hcheck : all.length < rsaEncryptedKeyBytes + gcmIvBytes + gcmTagBytes := hshort
      rw [decryptJson_short hall hshort]
      simp only [decrypt, hall, hcheck, bind, Except.bind, if_true, throw, throwThe,
        MonadExceptOf.throw]
    · have hlong : 284 ≤ all.length := by omega
      have hcheck : ¬ all.length < rsaEncryptedKeyBytes + gcmIvBytes + gcmTagBytes := hshort
      have hrest : (all.drop rsaEncryptedKeyBytes).drop gcmIvBytes = all.drop 268 := by
        rw [List.drop_drop]
        rfl
      obtain ⟨haes, htag⟩ := slices_of_drop hlong
      have hcut : decrypt ssl (codec json b text) c =
          (ssl.rsaDecrypt (Slice.bytes ⟨0, 256⟩ all) >>= fun aesKey =>
            ssl.aesGcmDecrypt aesKey (Slice.bytes ⟨256, 268⟩ all)
              (Slice.bytes ⟨268, all.length - 16⟩ all)
              (Slice.bytes ⟨all.length - 16, all.length⟩ all) >>= fun plaintext =>
            text.parse plaintext >>= from_json json b) := by
        rw [← haes, ← htag, ← hrest]
        simp only [decrypt, hall, hcheck, bind, Except.bind, if_false]
        rfl
      have hopen : decryptJson ssl text c = openPacked ssl text {
          rsaCiphertext := Slice.bytes ⟨0, 256⟩ all
          iv := Slice.bytes ⟨256, 268⟩ all
          aesCiphertext := Slice.bytes ⟨268, all.length - 16⟩ all
          tag := Slice.bytes ⟨all.length - 16, all.length⟩ all } := by
        simp only [decryptJson, hall, unpack_long hlong, bind, Except.bind]
      simp only [hcut, hopen, openPacked, bind_assoc]

/-- An instruction of up to 2⁵⁰ paise comes out of its ciphertext as it went in. -/
theorem decrypt_encrypt (hssl : ssl.Documented) (htext : text.ParseInvertsDump)
    {p : PaymentInstruction} (hamount : |p.amount| ≤ 2 ^ 50) {random : EncryptionRandomness}
    (hiv : random.iv.length = 12) {c : String}
    (h : (service ssl (codec json b text)).encrypt p random = .ok c) :
    (service ssl (codec json b text)).decrypt c = .ok p := by
  have hjson := decryptJson_encryptJson hssl htext hiv ((encrypt_codec p random).symm.trans h)
  calc (service ssl (codec json b text)).decrypt c
      = decryptJson ssl text c >>= from_json json b := decrypt_codec c
    _ = from_json json b (to_json json b p) := by
        rw [hjson]
        rfl
    _ = .ok p := from_json_to_json hamount

end

end HybridCryptoService

open HybridCryptoService

/-- Decryption undoes encryption, of every JSON value under every key; the four slices of `decrypt` are
in range and make up what it reads, and a string too short for them is refused before any is cut. -/
theorem wire_format {Json : Type} (ssl : OpenSSL) (hssl : ssl.Documented) (text : JsonText Json)
    (htext : text.ParseInvertsDump) :
    (∀ (j : Json) (random : EncryptionRandomness), random.iv.length = 12 →
      (∀ c, encryptJson ssl text j random = .ok c → decryptJson ssl text c = .ok j) ∧
      ∀ plaintext sealed rsaCiphertext, text.dump j = .ok plaintext →
        ssl.aesGcmEncrypt random.aesKey random.iv plaintext = .ok sealed →
        ssl.rsaEncrypt random.aesKey random.oaepSeed = .ok rsaCiphertext →
        ∃ c all, encryptJson ssl text j random = .ok c ∧ ssl.base64Decode c = .ok all ∧
          all.length = 284 + plaintext.length) ∧
    (∀ all : Bytes, 284 ≤ all.length →
      ∃ packed slices, (unpack all).run [] = (.ok packed, slices) ∧
        slices = [⟨0, 256⟩, ⟨256, 268⟩, ⟨268, all.length - 16⟩, ⟨all.length - 16, all.length⟩] ∧
        (∀ s ∈ slices, s.InRange all) ∧
        packed.rsaCiphertext.length = 256 ∧ packed.iv.length = 12 ∧
        packed.aesCiphertext.length = all.length - 284 ∧ packed.tag.length = 16 ∧
        packed.bytes = all) ∧
    ∀ all : Bytes, all.length < 284 →
      (unpack all).run [] = (.error (.invalidArgument "Ciphertext too short"), []) ∧
      ∀ c, ssl.base64Decode c = .ok all →
        decryptJson ssl text c = .error (.invalidArgument "Ciphertext too short") := by
  refine ⟨fun j random hiv => ⟨fun c h => decryptJson_encryptJson hssl htext hiv h, ?_⟩,
    fun all h => unpack_inRange h, fun all h => ⟨unpack_short h, fun c hall => ?_⟩⟩
  · rintro plaintext ⟨aesCiphertext, tag⟩ rsaCiphertext hdump haes hrsa
    refine ⟨_, _, encryptJson_ok hdump haes hrsa, hssl.base64 _, ?_⟩
    obtain ⟨hkey, -⟩ := hssl.rsa hrsa
    obtain ⟨hcipher, htag, -⟩ := hssl.aesGcm haes
    simp only [Packed.bytes, List.length_append, hkey, hiv, hcipher, htag]
    omega
  · exact decryptJson_short hall h

/-- Ciphers with the lengths and the tag check of the real ones, that hide nothing: the key is padded,
the plaintext is masked with the first byte of the key, and the tag repeats the sum of the plaintext. -/
def OpenSSL.transparent : OpenSSL where
  rsaEncrypt aesKey _ :=
    if aesKey.length ≤ 190 then
      .ok (UInt8.ofNat aesKey.length :: aesKey ++ List.replicate (255 - aesKey.length) 0)
    else .error (.runtimeError "Failed to encrypt with RSA-OAEP")
  rsaDecrypt c := .ok (c.tail.take (c.headD 0).toNat)
  aesGcmEncrypt aesKey _ plaintext :=
    .ok (plaintext.map (· ^^^ aesKey.headD 0), List.replicate 16 (plaintext.foldl (· + ·) 0))
  aesGcmDecrypt aesKey _ ciphertext tag :=
    let plaintext := ciphertext.map (· ^^^ aesKey.headD 0)
    if tag = List.replicate 16 (plaintext.foldl (· + ·) 0) then .ok plaintext
    else .error (.runtimeError "AES-GCM Authentication failed (tampered ciphertext or tag)")
  base64Encode bytes := String.ofList (Base64.encode bytes)
  base64Decode c :=
    match Base64.decode c.toList with
    | some bytes => .ok bytes
    | none => .error (.runtimeError "Failed to decode base64")
  sha256 c := c.toUTF8.data.toList

theorem OpenSSL.rsaEncrypt_transparent {aesKey oaepSeed : Bytes} (h : aesKey.length ≤ 190) :
    transparent.rsaEncrypt aesKey oaepSeed =
      .ok (UInt8.ofNat aesKey.length :: aesKey ++ List.replicate (255 - aesKey.length) 0) :=
  if_pos h

theorem OpenSSL.documented_transparent : transparent.Documented where
  rsa := by
    intro aesKey oaepSeed c h
    by_cases hlen : aesKey.length ≤ 190
    · have hc := Except.ok.inj ((rsaEncrypt_transparent hlen).symm.trans h)
      have hbyte : (UInt8.ofNat aesKey.length).toNat = aesKey.length := by
        rw [UInt8.toNat_ofNat']
        omega
      refine ⟨?_, ?_⟩
      · rw [← hc]
        simp only [List.length_append, List.length_cons, List.length_replicate]
        omega
      · rw [← hc]
        simp [transparent, hbyte]
    · simp [transparent, hlen] at h
  aesGcm := by
    intro aesKey iv plaintext ciphertext tag h
    obtain ⟨rfl, rfl⟩ := Prod.mk.inj (Except.ok.inj h)
    have hunmask : (plaintext.map (· ^^^ aesKey.headD 0)).map (· ^^^ aesKey.headD 0) = plaintext := by
      have hbyte : ∀ x : UInt8, x ^^^ aesKey.headD 0 ^^^ aesKey.headD 0 = x := fun x => by
        rw [UInt8.xor_assoc, UInt8.xor_self, UInt8.xor_zero]
      simp only [List.map_map, Function.comp_def, hbyte, List.map_id']
    refine ⟨by simp, by simp, ?_⟩
    simp only [transparent, hunmask, if_true]
  base64 bytes := by
    simp [transparent, Base64.decode_encode]

/-- A text of its own for the listed values, and for no others. -/
def JsonText.ofList {Json : Type} [DecidableEq Json] (known : List (Json × Bytes)) :
    JsonText Json where
  dump j :=
    match known.find? (·.1 = j) with
    | some (_, bytes) => .ok bytes
    | none => .error (.runtimeError "[json.exception.type_error.316] invalid UTF-8 byte")
  parse bytes :=
    match known.find? (·.2 = bytes) with
    | some (j, _) => .ok j
    | none => .error (.runtimeError "[json.exception.parse_error.101] parse error")

theorem JsonText.parse_ofList {Json : Type} [DecidableEq Json] (j : Json) (bytes : Bytes) :
    (JsonText.ofList [(j, bytes)]).ParseInvertsDump := by
  intro i c h
  by_cases hi : j = i
  · obtain rfl : bytes = c := by simpa [ofList, hi] using h
    simp [ofList, hi]
  · simp [ofList, hi] at h

/-- The value and the text of a payment of 500 rupees. -/
def testInstruction : List (String × (String ⊕ ℤ)) :=
  [("amount", .inr 50000), ("nonce", .inl "unique-nonce-123"), ("pinHash", .inl "abcdef123456"),
    ("receiverVpa", .inl "bob@upi"), ("senderVpa", .inl "alice@upi"), ("signedAt", .inr 1690000000)]

def testBytes : Bytes :=
  ("\x7b\"amount\":50000,\"nonce\":\"unique-nonce-123\",\"pinHash\":\"abcdef123456\"," ++
    "\"receiverVpa\":\"bob@upi\",\"senderVpa\":\"alice@upi\",\"signedAt\":1690000000\x7d"
    ).toUTF8.data.toList

def testText : JsonText (List (String × (String ⊕ ℤ))) := .ofList [(testInstruction, testBytes)]

theorem dump_testText : testText.dump testInstruction = .ok testBytes := by
  simp [testText, JsonText.ofList]

theorem parse_testText : testText.ParseInvertsDump := by
  unfold testText
  exact JsonText.parse_ofList _ _

theorem wire_format_test_instruction :
    (∃ c, encryptJson .transparent testText testInstruction
        ⟨List.replicate 32 7, List.replicate 12 9, []⟩ = .ok c ∧
      decryptJson .transparent testText c = .ok testInstruction) ∧
    (∃ packed, ((unpack (List.replicate 284 0)).run []).1 = .ok packed ∧ packed.aesCiphertext = []) ∧
    (unpack [1, 2, 3]).run [] = (.error (.invalidArgument "Ciphertext too short"), []) := by
  obtain ⟨hround, hlong, hshort⟩ :=
    wire_format .transparent OpenSSL.documented_transparent testText parse_testText
  refine ⟨?_, ?_, (hshort [1, 2, 3] (by decide)).1⟩
  · obtain ⟨hback, hencrypts⟩ := hround testInstruction
      ⟨List.replicate 32 7, List.replicate 12 9, []⟩ rfl
    obtain ⟨c, -, hc, -, -⟩ := hencrypts testBytes _ _ dump_testText rfl
      (OpenSSL.rsaEncrypt_transparent (by decide))
    exact ⟨c, hc, hback c hc⟩
  · obtain ⟨packed, slices, hrun, -, -, -, -, hempty, -, -⟩ := hlong (List.replicate 284 0)
      (by rw [List.length_replicate])
    refine ⟨packed, by rw [hrun], List.length_eq_zero_iff.mp ?_⟩
    rw [hempty, List.length_replicate]

end UpiMesh
