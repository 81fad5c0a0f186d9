import WsServer.Crypto.Model

/-!
# Round trips of authenticated encryption

A plaintext of `n` bytes is handed to the cipher with the length `toInt n`. Where this is negative
the cipher refuses it, and below `2 ^ 31` it is `n`. A plaintext of `2 ^ 32` bytes or more can have
another length that is not negative: then only its beginning is encrypted, the tag is that of the
beginning, and decryption returns the beginning without an error. `roundTrips_iff` puts this
together for both files.
-/

set_option autoImplicit false
set_option relaxedAutoImplicit false

namespace WsServer.Crypto

open Foundations

/-- What OpenSSL documents: the default length of an initialization vector is accepted, the cipher
keeps lengths, and decryption inverts encryption. -/
structure OpenSSL.Lawful (lib : OpenSSL) : Prop where
  accepts_default : lib.acceptsIvLength 12 = true
  length_encrypt : ∀ key iv data, (lib.encrypt key iv data).length = data.length
  decrypt_encrypt : ∀ key iv data, lib.decrypt key iv (lib.encrypt key iv data) = data

/-- Encryption throws, or decryption of its result returns the plaintext. -/
def RoundTrips {Package : Type} (encrypted : Except String Package)
    (decrypt : Package → Except String Bytes) (plaintext : Bytes) : Prop :=
  ∀ package, encrypted = .ok package → decrypt package = .ok plaintext

/-- The calls of the cipher. -/
def cipherCalls : List Call := [.ctxNew, .init, .setIvLength, .setKey, .update, .final, .tag]

/-- The length of a plaintext does not change, or turns negative, on the way to the cipher. -/
def LengthKept (n : ℕ) : Prop := n < 2 ^ 32 ∨ 2 ^ 31 ≤ n % 2 ^ 32

section Lengths

variable {n : ℕ}

theorem toInt_eq (n : ℕ) :
    toInt n = if n % 2 ^ 32 < 2 ^ 31 then ((n % 2 ^ 32 : ℕ) : ℤ)
      else ((n % 2 ^ 32 : ℕ) : ℤ) - 2 ^ 32 := by
  unfold toInt
  rw [Int.bmod_def]
  split_ifs <;> omega

theorem toInt_neg_iff : toInt n < 0 ↔ 2 ^ 31 ≤ n % 2 ^ 32 := by
  rw [toInt_eq]
  split_ifs <;> omega

theorem toNat_toInt (hn : ¬toInt n < 0) : (toInt n).toNat = n % 2 ^ 32 := by
  rw [toInt_neg_iff] at hn
  rw [toInt_eq, if_pos (Nat.not_le.mp hn), Int.toNat_natCast]

theorem toNat_toInt_le (hn : ¬toInt n < 0) : (toInt n).toNat ≤ n := by
  rw [toNat_toInt hn]
  exact Nat.mod_le n _

/-- A length that the cipher has taken is kept the next time. -/
theorem toInt_toNat_toInt (hn : ¬toInt n < 0) :
    ¬toInt (toInt n).toNat < 0 ∧ (toInt (toInt n).toNat).toNat = (toInt n).toNat := by
  have hsmall : (toInt n).toNat < 2 ^ 31 := by
    rw [toNat_toInt hn]
    exact Nat.not_le.mp (mt toInt_neg_iff.mpr hn)
  have hmod : (toInt n).toNat % 2 ^ 32 = (toInt n).toNat := Nat.mod_eq_of_lt (by omega)
  have hkept : ¬toInt (toInt n).toNat < 0 := by
    rw [toInt_neg_iff, hmod]
    exact Nat.not_le.mpr hsmall
  exact ⟨hkept, by rw [toNat_toInt hkept, hmod]⟩

/-- The plaintext is kept unless the cipher takes another length that is not negative. -/
theorem lengthKept_iff {plaintext : Bytes} : LengthKept plaintext.length ↔
    toInt plaintext.length < 0 ∨
      plaintext.take (toInt plaintext.length).toNat = plaintext := by
  rw [List.take_eq_self_iff, LengthKept]
  by_cases hn : toInt plaintext.length < 0
  · exact iff_of_true (Or.inr (toInt_neg_iff.mp hn)) (Or.inl hn)
  · rw [toNat_toInt hn, or_iff_right hn]
    rw [toInt_neg_iff] at hn
    omega

end Lengths

section Calls

variable {lib : OpenSSL} {works : Call → Bool}

theorem require_eq_ok_iff {ok : Bool} {message : String} {u : Unit} :
    require ok message = .ok u ↔ ok = true := by
  cases ok <;> simp [require]

theorem returned_eq_ok_iff {α : Type} {result : Option α} {message : String} {a : α} :
    returned result message = .ok a ↔ result = some a := by
  cases result <;> simp [returned]

theorem resize_overwrite (out written : Bytes) :
    resize (overwrite out written) written.length = written :=
  List.takeD_left _ _ _

theorem take_overwrite (out written : Bytes) :
    (overwrite out written).take written.length = written :=
  List.take_left

theorem length_overwrite {out written : Bytes} (hfits : written.length ≤ out.length) :
    (overwrite out written).length = out.length := by
  rw [overwrite, List.length_append, List.length_drop]
  omega

/-- What the cipher makes of a plaintext. -/
def cipherText (lib : OpenSSL) (key : Key) (iv plaintext : Bytes) : Bytes :=
  lib.encrypt key iv (plaintext.take (toInt plaintext.length).toNat)

theorem length_cipherText (hlib : lib.Lawful) (key : Key) (iv : Bytes) {plaintext : Bytes}
    (hn : ¬toInt plaintext.length < 0) :
    (cipherText lib key iv plaintext).length = (toInt plaintext.length).toNat := by
  rw [cipherText, hlib.length_encrypt, List.length_take, min_eq_left (toNat_toInt_le hn)]

variable {plaintext password : Bytes} {key : Key} {iv : Bytes}

/-- When `aes_gcm_encrypt` returns, and what. -/
theorem aesGcmEncrypt_eq_ok_iff {package : Bytes} :
    aesGcmEncrypt lib works plaintext key iv = .ok package ↔
      ((∀ call ∈ cipherCalls, works call = true) ∧ lib.acceptsIvLength (toInt iv.length) = true) ∧
        ¬toInt plaintext.length < 0 ∧
        overwrite (List.replicate plaintext.length 0)
            (cipherText lib key (iv.take (toInt iv.length).toNat) plaintext) ++
          (lib.tag key (iv.take (toInt iv.length).toNat)
            (cipherText lib key (iv.take (toInt iv.length).toNat) plaintext)).toList =
          package := by
  simp only [aesGcmEncrypt, bind_eq_ok_iff, require_eq_ok_iff, returned_eq_ok_iff, Prod.exists,
    encryptUpdate, CipherCtx.new, CipherCtx.getTag, exists_const, Bool.and_eq_true]
  by_cases hn : toInt plaintext.length < 0
  · simp [hn]
  · simp [hn, cipherCalls, cipherText, pure, Except.pure]
    tauto

/-- `aes_gcm_decrypt` of a body with the tag of the part that the cipher takes. -/
theorem aesGcmDecrypt_append {body read : Bytes} (haccepts : lib.acceptsIvLength (toInt iv.length))
    (hbody : ¬toInt body.length < 0) (hread : body.take (toInt body.length).toNat = read) :
    aesGcmDecrypt lib (fun _ ↦ true)
        (body ++ (lib.tag key (iv.take (toInt iv.length).toNat) read).toList) key iv =
      .ok (lib.decrypt key (iv.take (toInt iv.length).toNat) read) := by
  have hlength : (body ++ (lib.tag key (iv.take (toInt iv.length).toNat) read).toList).length =
      body.length + 16 := by
    rw [List.length_append, Vector.length_toList]
  have htake : (body ++ (lib.tag key (iv.take (toInt iv.length).toNat) read).toList).take
      (toInt body.length).toNat = read := by
    rw [List.take_append_of_le_length (toNat_toInt_le hbody), hread]
  unfold aesGcmDecrypt
  simp only [hlength, Nat.add_sub_cancel, decryptUpdate, if_neg hbody, CipherCtx.new, htake,
    haccepts, List.drop_left, CipherCtx.getTag]
  simp [require, returned, resize_overwrite, bind, Except.bind, pure, Except.pure]

/-- `aes_gcm_decrypt` returns what the cipher has taken of the plaintext. -/
theorem aesGcmDecrypt_of_encrypt (hlib : lib.Lawful) {package : Bytes}
    (hencrypt : aesGcmEncrypt lib works plaintext key iv = .ok package) :
    aesGcmDecrypt lib (fun _ ↦ true) package key iv =
      .ok (plaintext.take (toInt plaintext.length).toNat) := by
  obtain ⟨⟨-, haccepts⟩, hn, rfl⟩ := aesGcmEncrypt_eq_ok_iff.mp hencrypt
  have hciphered := length_cipherText hlib key (iv.take (toInt iv.length).toNat) hn
  have hbody : (overwrite (List.replicate plaintext.length 0)
      (cipherText lib key (iv.take (toInt iv.length).toNat) plaintext)).length =
        plaintext.length := by
    rw [length_overwrite (by rw [hciphered, List.length_replicate]; exact toNat_toInt_le hn),
      List.length_replicate]
  rw [aesGcmDecrypt_append haccepts (by rwa [hbody])
    (by rw [hbody, ← hciphered, take_overwrite]), cipherText, hlib.decrypt_encrypt]

variable {random : Random}

theorem deriveKey_new_eq_ok_iff {newSalt : Vector UInt8 16} {salt : Bytes} :
    deriveKey lib works password [] (some newSalt) = .ok (key, salt) ↔
      (works .randomSalt = true ∧ works .kdfFetch = true ∧ works .kdfCtxNew = true ∧
        works .kdfDerive = true) ∧
        lib.kdfDerive password newSalt.toList = some key ∧ newSalt.toList = salt := by
  simp only [deriveKey, bind_eq_ok_iff, require_eq_ok_iff, returned_eq_ok_iff, exists_const]
  simp [pure, Except.pure, and_assoc]

/-- When `encrypt_payload` returns, and what. -/
theorem encryptPayload_eq_ok_iff (hlib : lib.Lawful) {package : SecurePackage} :
    encryptPayload lib works random plaintext password = .ok package ↔
      (∀ call, works call = true) ∧ ¬toInt plaintext.length < 0 ∧
        ∃ key, lib.kdfDerive password random.salt.toList = some key ∧
          { ciphertext := cipherText lib key random.iv.toList plaintext
            iv := random.iv.toList
            tag := (lib.tag key random.iv.toList
              (cipherText lib key random.iv.toList plaintext)).toList
            salt := random.salt.toList : SecurePackage } = package := by
  have hiv : random.iv.toList.take (12 : ℤ).toNat = random.iv.toList :=
    List.take_of_length_le (by rw [Vector.length_toList]; rfl)
  have hall : (∀ call, works call = true) ↔ works .randomSalt = true ∧ works .kdfFetch = true ∧
      works .kdfCtxNew = true ∧ works .kdfDerive = true ∧ works .randomIv = true ∧
      ∀ call ∈ cipherCalls, works call = true := by
    refine ⟨fun h ↦ ⟨h _, h _, h _, h _, h _, fun call _ ↦ h call⟩, fun h call ↦ ?_⟩
    obtain ⟨hsalt, hfetch, hctx, hderive, hrandom, hcipher⟩ := h
    cases call <;> first | assumption | exact hcipher _ (by decide)
  simp only [encryptPayload, deriveKey_new_eq_ok_iff, bind_eq_ok_iff, require_eq_ok_iff,
    returned_eq_ok_iff, Prod.exists, encryptUpdate, CipherCtx.new, CipherCtx.getTag, exists_const,
    Bool.and_eq_true, hlib.accepts_default, hiv, hall]
  by_cases hn : toInt plaintext.length < 0
  · simp [hn]
  · simp [hn, cipherCalls, cipherText, resize_overwrite, pure, Except.pure]
    rw [← exists_and_left]
    exact exists_congr fun key ↦ by tauto

theorem deriveKey_given {salt : Bytes} (hsalt : salt.length = 16)
    (hkey : lib.kdfDerive password salt = some key) :
    deriveKey lib (fun _ ↦ true) password salt none = .ok (key, salt) := by
  simp [deriveKey, require, returned, hsalt, hkey, bind, Except.bind, pure, Except.pure]

/-- `decrypt_payload` returns what the cipher has taken of the plaintext. -/
theorem decryptPayload_of_encrypt (hlib : lib.Lawful) {package : SecurePackage}
    (hencrypt : encryptPayload lib works random plaintext password = .ok package) :
    decryptPayload lib (fun _ ↦ true) package password =
      .ok (plaintext.take (toInt plaintext.length).toNat) := by
  obtain ⟨-, hn, key, hkey, rfl⟩ := (encryptPayload_eq_ok_iff hlib).mp hencrypt
  have hciphered := length_cipherText hlib key random.iv.toList hn
  have hshort : ¬toInt (cipherText lib key random.iv.toList plaintext).length < 0 ∧
      (toInt (cipherText lib key random.iv.toList plaintext).length).toNat =
        (cipherText lib key random.iv.toList plaintext).length := by
    rw [hciphered]
    exact toInt_toNat_toInt hn
  have hiv : random.iv.toList.take (12 : ℤ).toNat = random.iv.toList :=
    List.take_of_length_le (by rw [Vector.length_toList]; rfl)
  have hdecrypt : lib.decrypt key random.iv.toList (cipherText lib key random.iv.toList plaintext) =
      plaintext.take (toInt plaintext.length).toNat := by
    rw [cipherText, hlib.decrypt_encrypt]
  generalize cipherText lib key random.iv.toList plaintext = ciphertext at hshort hdecrypt ⊢
  generalize plaintext.take (toInt plaintext.length).toNat = taken at hdecrypt ⊢
  unfold decryptPayload
  simp only [decryptUpdate, if_neg hshort.1, hshort.2, CipherCtx.new, CipherCtx.getTag, hiv,
    List.take_length, deriveKey_given (Vector.length_toList) hkey, hlib.accepts_default]
  simp [require, returned, resize_overwrite, hdecrypt, bind, Except.bind, pure, Except.pure]

/-- Where decryption returns what the cipher has taken. -/
theorem roundTrips_iff_taken {Package : Type} {encrypted : Except String Package}
    {decrypt : Package → Except String Bytes} {taken : Bytes}
    (hdecrypt : ∀ package, encrypted = .ok package → decrypt package = .ok taken) :
    RoundTrips encrypted decrypt plaintext ↔
      ((∃ package, encrypted = .ok package) → taken = plaintext) := by
  constructor
  · rintro hround ⟨package, hpackage⟩
    exact Except.ok.inj ((hdecrypt package hpackage).symm.trans (hround package hpackage))
  · intro htaken package hpackage
    rw [hdecrypt package hpackage, htaken ⟨package, hpackage⟩]

theorem aesGcm_roundTrips_iff (hlib : lib.Lawful) (works : Call → Bool) (plaintext : Bytes)
    (key : Key) (iv : Bytes) :
    RoundTrips (aesGcmEncrypt lib works plaintext key iv)
        (fun package ↦ aesGcmDecrypt lib (fun _ ↦ true) package key iv) plaintext ↔
      (∃ call ∈ cipherCalls, works call = false) ∨
        lib.acceptsIvLength (toInt iv.length) = false ∨ LengthKept plaintext.length := by
  have hencrypts : (∃ package, aesGcmEncrypt lib works plaintext key iv = .ok package) ↔
      ((∀ call ∈ cipherCalls, works call = true) ∧
        lib.acceptsIvLength (toInt iv.length) = true) ∧ ¬toInt plaintext.length < 0 := by
    simp only [aesGcmEncrypt_eq_ok_iff, exists_and_left, exists_eq', and_true]
  have hworks : (∃ call ∈ cipherCalls, works call = false) ↔
      ¬∀ call ∈ cipherCalls, works call = true := by
    push Not
    simp
  rw [roundTrips_iff_taken fun package ↦ aesGcmDecrypt_of_encrypt hlib, hencrypts, hworks,
    lengthKept_iff, ← Bool.not_eq_true]
  simp only [imp_iff_not_or, not_and_or, not_not, or_assoc]

theorem payload_roundTrips_iff (hlib : lib.Lawful) (works : Call → Bool)
    (plaintext password : Bytes) (random : Random) :
    RoundTrips (encryptPayload lib works random plaintext password)
        (fun package ↦ decryptPayload lib (fun _ ↦ true) package password) plaintext ↔
      (∃ call, works call = false) ∨ lib.kdfDerive password random.salt.toList = none ∨
        LengthKept plaintext.length := by
  have hencrypts : (∃ package, encryptPayload lib works random plaintext password =
      .ok package) ↔ (∀ call, works call = true) ∧
        lib.kdfDerive password random.salt.toList ≠ none ∧ ¬toInt plaintext.length < 0 := by
    simp only [encryptPayload_eq_ok_iff hlib, exists_and_left, Option.ne_none_iff_exists']
    rw [exists_comm]
    simp only [exists_and_left, exists_eq', and_true]
    exact and_congr_right fun _ ↦ and_comm
  have hworks : (∃ call, works call = false) ↔ ¬∀ call, works call = true := by
    push Not
    simp
  rw [roundTrips_iff_taken fun package ↦ decryptPayload_of_encrypt hlib, hencrypts, hworks,
    lengthKept_iff]
  simp only [imp_iff_not_or, not_and_or, ne_eq, not_not, or_assoc]

/-- For every plaintext, password, key and initialization vector, and whatever calls fail during
encryption: encryption throws or decryption returns the plaintext exactly when encryption is refused
for another reason or the length of the plaintext is kept or turns negative on the way to the
cipher. -/
theorem roundTrips_iff (hlib : lib.Lawful) (works : Call → Bool) (plaintext : Bytes) :
    (∀ key iv, RoundTrips (aesGcmEncrypt lib works plaintext key iv)
        (fun package ↦ aesGcmDecrypt lib (fun _ ↦ true) package key iv) plaintext ↔
      (∃ call ∈ cipherCalls, works call = false) ∨
        lib.acceptsIvLength (toInt iv.length) = false ∨ LengthKept plaintext.length) ∧
      ∀ password random, RoundTrips (encryptPayload lib works random plaintext password)
          (fun package ↦ decryptPayload lib (fun _ ↦ true) package password) plaintext ↔
        (∃ call, works call = false) ∨ lib.kdfDerive password random.salt.toList = none ∨
          LengthKept plaintext.length :=
  ⟨aesGcm_roundTrips_iff hlib works plaintext, payload_roundTrips_iff hlib works plaintext⟩

end Calls

/-! ### A sample of the library -/

/-- PBKDF2 of the password `pw` and a salt of zeros. -/
def sampleKey : Key :=
  #v[85, 243, 15, 215, 22, 189, 47, 9, 3, 56, 179, 60, 121, 71, 19, 224, 210, 173, 248, 58, 143, 98,
    34, 70, 150, 89, 252, 91, 108, 171, 237, 226]

/-- The key stream of this key and an initialization vector of zeros, over and over. -/
def samplePad (i : ℕ) : UInt8 :=
  [245, 133, 213, 9, 166, 100, 62, 18, 88, 134, 103, 176, 78, 52, 181, 159].getD (i % 16) 0

/-- A library that behaves as OpenSSL does on this key and on two bytes of text, `hi`. -/
def sampleLibrary : OpenSSL where
  acceptsIvLength ivLength := 0 < ivLength
  encrypt _ _ data := data.mapIdx fun i b ↦ b ^^^ samplePad i
  decrypt _ _ data := data.mapIdx fun i b ↦ b ^^^ samplePad i
  tag _ _ _ := #v[185, 190, 53, 231, 224, 82, 43, 235, 234, 140, 25, 30, 172, 27, 60, 146]
  kdfDerive _ _ := some sampleKey

theorem sampleLibrary_lawful : sampleLibrary.Lawful where
  accepts_default := rfl
  length_encrypt _ _ _ := List.length_mapIdx
  decrypt_encrypt _ _ data := by
    refine List.ext_getElem (by simp [sampleLibrary]) fun i _ _ ↦ ?_
    simp only [sampleLibrary, List.getElem_mapIdx]
    rw [UInt8.xor_assoc, UInt8.xor_self, UInt8.xor_zero]

/-- Two bytes of text. -/
theorem roundTrips_iff_example :
    (∀ iv, RoundTrips (aesGcmEncrypt sampleLibrary (fun _ ↦ true) [104, 105] sampleKey iv)
        (fun package ↦ aesGcmDecrypt sampleLibrary (fun _ ↦ true) package sampleKey iv)
        [104, 105]) ∧
      RoundTrips (encryptPayload sampleLibrary (fun _ ↦ true)
          { salt := .replicate 16 0, iv := .replicate 12 0 } [104, 105] [112, 119])
        (fun package ↦ decryptPayload sampleLibrary (fun _ ↦ true) package [112, 119])
        [104, 105] := by
  have hiff := roundTrips_iff sampleLibrary_lawful (fun _ ↦ true) [104, 105]
  have hshort : LengthKept [(104 : UInt8), 105].length := Or.inl (by decide)
  exact ⟨fun iv ↦ (hiff.1 sampleKey iv).mpr (Or.inr (Or.inr hshort)),
    (hiff.2 _ _).mpr (Or.inr (Or.inr hshort))⟩

/-- A plaintext of `2 ^ 32` bytes is encrypted as if it were empty. -/
theorem long_plaintext_lost :
    ¬∀ (lib : OpenSSL), lib.Lawful → ∀ (works : Call → Bool) (plaintext : Bytes),
      (∀ key iv, iv ≠ [] → RoundTrips (aesGcmEncrypt lib works plaintext key iv)
        (fun package ↦ aesGcmDecrypt lib (fun _ ↦ true) package key iv) plaintext) ∧
      ∀ password random, RoundTrips (encryptPayload lib works random plaintext password)
        (fun package ↦ decryptPayload lib (fun _ ↦ true) package password) plaintext := by
  intro hall
  have hround := (hall sampleLibrary sampleLibrary_lawful (fun _ ↦ true)
    (List.replicate (2 ^ 32) 0)).1 sampleKey (List.replicate 12 0) (by decide)
  rw [aesGcm_roundTrips_iff sampleLibrary_lawful, LengthKept, List.length_replicate] at hround
  rcases hround with ⟨call, -, hfails⟩ | hrefused | hkept
  · cases hfails
  · exact absurd hrefused (by decide)
  · exact absurd hkept (by norm_num)

end WsServer.Crypto
