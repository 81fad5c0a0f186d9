import WsServer.Foundations.Runs

/-!
# Authenticated encryption in `aes256.cpp` and `pwdsalting.cpp`

Both files run AES-256 in Galois counter mode through OpenSSL, the first with a key and an
initialization vector from the caller, the second with a key derived from a password and a salt.
What the cipher and the key derivation compute is a parameter (`OpenSSL`), and so are the random
bytes and whether a call works that its arguments do not decide.

A size is a natural number; where it is handed to OpenSSL it becomes an `int` (`toInt`). That a
vector of this size can be allocated is assumed.
-/

set_option autoImplicit false
set_option relaxedAutoImplicit false

namespace WsServer.Crypto

abbrev Bytes : Type := List UInt8

/-- Keys of `AES_256_KEY_SIZE` bytes. -/
abbrev Key : Type := Vector UInt8 32

/-- Tags of `AES_GCM_TAG_SIZE` bytes. -/
abbrev Tag : Type := Vector UInt8 16

/-- The conversion of a `size_t` to `int`. -/
def toInt (size : ℕ) : ℤ := Int.bmod size (2 ^ 32)

/-- `std::vector::resize`. -/
def resize (bytes : Bytes) (size : ℕ) : Bytes := bytes.takeD size 0

/-! ### OpenSSL -/

/-- What OpenSSL computes: AES-256-GCM for a key and an initialization vector, and PBKDF2. -/
structure OpenSSL where
  /-- `EVP_CTRL_GCM_SET_IVLEN`. -/
  acceptsIvLength : ℤ → Bool
  encrypt : Key → Bytes → Bytes → Bytes
  decrypt : Key → Bytes → Bytes → Bytes
  /-- The tag of a ciphertext. -/
  tag : Key → Bytes → Bytes → Tag
  /-- `EVP_KDF_derive` for a password and a salt. -/
  kdfDerive : Bytes → Bytes → Option Key

/-- Calls that may fail whatever their arguments are. -/
inductive Call
  | randomSalt
  | kdfFetch
  | kdfCtxNew
  | kdfDerive
  | randomIv
  | ctxNew
  | init
  | setIvLength
  | setKey
  | update
  | final
  | tag
  deriving DecidableEq

/-- `EVP_CIPHER_CTX` with the ciphertext that has gone through it. -/
structure CipherCtx where
  key : Key
  iv : Bytes
  ciphertext : Bytes
  deriving DecidableEq

/-- A context for which the length of the initialization vector has been set. -/
def CipherCtx.new (key : Key) (iv : Bytes) (ivLength : ℤ) : CipherCtx :=
  { key := key, iv := iv.take ivLength.toNat, ciphertext := [] }

/-- Writing to the beginning of a buffer. -/
def overwrite (out written : Bytes) : Bytes := written ++ out.drop written.length

/-- The first `EVP_EncryptUpdate` of a context: the context, the buffer and how much is written. -/
def encryptUpdate (lib : OpenSSL) (ctx : CipherCtx) (out data : Bytes) (inl : ℤ) :
    Option (CipherCtx × Bytes × ℕ) :=
  if inl < 0 then none
  else
    let written := lib.encrypt ctx.key ctx.iv (data.take inl.toNat)
    some ({ ctx with ciphertext := written }, overwrite out written, written.length)

/-- The first `EVP_DecryptUpdate` of a context. -/
def decryptUpdate (lib : OpenSSL) (ctx : CipherCtx) (out data : Bytes) (inl : ℤ) :
    Option (CipherCtx × Bytes × ℕ) :=
  if inl < 0 then none
  else
    let read := data.take inl.toNat
    let written := lib.decrypt ctx.key ctx.iv read
    some ({ ctx with ciphertext := read }, overwrite out written, written.length)

/-- `EVP_CTRL_GCM_GET_TAG`. -/
def CipherCtx.getTag (lib : OpenSSL) (ctx : CipherCtx) : Tag :=
  lib.tag ctx.key ctx.iv ctx.ciphertext

/-- An exception unless a call works. -/
def require (ok : Bool) (message : String) : Except String Unit :=
  if ok then .ok () else .error message

/-- An exception unless a call works, and what it returns. -/
def returned {α : Type} (result : Option α) (message : String) : Except String α :=
  match result with
  | some a => .ok a
  | none => .error message

section Functions

variable (lib : OpenSSL) (works : Call → Bool)

/-! ### `aes256.cpp` -/

/-- The message of `handleErrors`. -/
def handleErrors : String := "OpenSSL cryptographic operation failed."

/-- `aes_gcm_encrypt`; `EVP_EncryptFinal_ex` writes nothing. -/
def aesGcmEncrypt (plaintext : Bytes) (key : Key) (iv : Bytes) : Except String Bytes := do
  require (works .ctxNew) handleErrors
  require (works .init) handleErrors
  require (works .setIvLength && lib.acceptsIvLength (toInt iv.length)) handleErrors
  require (works .setKey) handleErrors
  let ctx := CipherCtx.new key iv (toInt iv.length)
  let ciphertext := List.replicate plaintext.length 0
  require (works .update) handleErrors
  let (ctx, ciphertext, _) ←
    returned (encryptUpdate lib ctx ciphertext plaintext (toInt plaintext.length)) handleErrors
  require (works .final) handleErrors
  require (works .tag) handleErrors
  return ciphertext ++ (ctx.getTag lib).toList

/-- `aes_gcm_decrypt`. -/
def aesGcmDecrypt (ciphertextWithTag : Bytes) (key : Key) (iv : Bytes) : Except String Bytes := do
  require (16 ≤ ciphertextWithTag.length) "Ciphertext payload too short."
  let ciphertextLen := ciphertextWithTag.length - 16
  let tagData := ciphertextWithTag.drop ciphertextLen
  require (works .ctxNew) handleErrors
  require (works .init) handleErrors
  require (works .setIvLength && lib.acceptsIvLength (toInt iv.length)) handleErrors
  require (works .setKey) handleErrors
  let ctx := CipherCtx.new key iv (toInt iv.length)
  let plaintext := List.replicate ciphertextLen 0
  require (works .update) handleErrors
  let (ctx, plaintext, len) ←
    returned (decryptUpdate lib ctx plaintext ciphertextWithTag (toInt ciphertextLen)) handleErrors
  require (works .tag) handleErrors
  require (works .final && (ctx.getTag lib).toList = tagData)
    "Decryption integrity check failed. Data is corrupted or tampered."
  return resize plaintext len

/-! ### `pwdsalting.cpp` -/

structure SecurePackage where
  ciphertext : Bytes
  iv : Bytes
  tag : Bytes
  salt : Bytes
  deriving DecidableEq

/-- The bytes that `RAND_bytes` returns. -/
structure Random where
  salt : Vector UInt8 16
  iv : Vector UInt8 12
  deriving DecidableEq

/-- `derive_key` with the new salt or, for none, with the given one: the key and the salt. -/
def deriveKey (password salt : Bytes) (newSalt : Option (Vector UInt8 16)) :
    Except String (Key × Bytes) := do
  let salt ← match newSalt with
    | some newSalt => do
      require (works .randomSalt) "CSPRNG failed to generate a random salt"
      pure newSalt.toList
    | none => do
      require (salt.length = 16) "Provided validation salt size is incorrect"
      pure salt
  require (works .kdfFetch) "Failed to fetch PBKDF2 provider framework"
  require (works .kdfCtxNew) "Failed to initialize PBKDF2 context architecture"
  require (works .kdfDerive) "Key derivation sequence failed internally"
  let key ← returned (lib.kdfDerive password salt) "Key derivation sequence failed internally"
  return (key, salt)

/-- `encrypt_payload`. -/
def encryptPayload (random : Random) (plaintext password : Bytes) :
    Except String SecurePackage := do
  let (derivedKey, salt) ← deriveKey lib works password [] (some random.salt)
  let ciphertext := List.replicate plaintext.length 0
  require (works .randomIv) "CSPRNG failed to generate initialization vector"
  let iv := random.iv.toList
  require (works .ctxNew) "Cipher context instantiation failed"
  require (works .init) "Failed to match GCM engine mapping initialization"
  require (works .setIvLength && lib.acceptsIvLength 12)
    "Failed setting structural GCM IV sizing layout"
  require (works .setKey) "Binding derived key framework data blocks failed"
  let ctx := CipherCtx.new derivedKey iv 12
  require (works .update) "Core text stream encryption stage crashed"
  let (ctx, ciphertext, totalCiphertextLen) ←
    returned (encryptUpdate lib ctx ciphertext plaintext (toInt plaintext.length))
      "Core text stream encryption stage crashed"
  require (works .final) "Finalizing processing array block sequence crashed"
  let ciphertext := resize ciphertext totalCiphertextLen
  require (works .tag) "Authentication verification tag capture crashed"
  return { ciphertext := ciphertext, iv := iv, tag := (ctx.getTag lib).toList, salt := salt }

/-- `decrypt_payload`. -/
def decryptPayload (package : SecurePackage) (password : Bytes) : Except String Bytes := do
  require (package.salt.length = 16 ∧ package.iv.length = 12 ∧ package.tag.length = 16)
    "Malformed secure payload package framing lengths"
  let (derivedKey, _) ← deriveKey lib works password package.salt none
  let plaintextBuffer := List.replicate package.ciphertext.length 0
  require (works .ctxNew) "Cipher decryption context configuration crashed"
  require (works .init) "Failed setting GCM engine inversion mapping"
  require (works .setIvLength && lib.acceptsIvLength 12)
    "Failed setting structural decryption IV parameters"
  require (works .setKey) "Binding inversion key parameters block data failed"
  let ctx := CipherCtx.new derivedKey package.iv 12
  require (works .update) "Core stream payload decryption processing failed"
  let (ctx, plaintextBuffer, totalPlaintextLen) ←
    returned (decryptUpdate lib ctx plaintextBuffer package.ciphertext
      (toInt package.ciphertext.length)) "Core stream payload decryption processing failed"
  require (works .tag) "Setting targeted data verification tag metrics failed"
  require (works .final && (ctx.getTag lib).toList = package.tag)
    "AUTHENTICATION REJECTION: Incorrect password or modified ciphertext data payload detected!"
  return resize plaintextBuffer totalPlaintextLen

end Functions

end WsServer.Crypto
