import WsServer.Crypto.RoundTrips

/-!
# What decryption accepts

The other direction of the round trip: what decryption returns a plaintext for, encryption makes of
this plaintext (`accepted_iff`). The tag stands for the part of the ciphertext that the cipher
takes. As its length is handed over as an `int`, whole multiples of `2 ^ 32` bytes behind this part
are not taken: they can be anything.
-/

set_option autoImplicit false
set_option relaxedAutoImplicit false

namespace WsServer.Crypto

open Foundations

/-- In counter mode both directions of the cipher combine the data with one key stream. -/
structure OpenSSL.CounterMode (lib : OpenSSL) : Prop extends lib.Lawful where
  encrypt_decrypt : ∀ key iv data, lib.encrypt key iv (lib.decrypt key iv data) = data

section Acceptance

variable {lib : OpenSSL} {works : Call → Bool} {plaintext : Bytes} {key : Key} {iv : Bytes}

theorem toInt_of_lt {n : ℕ} (hn : n < 2 ^ 31) : toInt n = n := by
  rw [toInt_eq, if_pos (by omega), Nat.mod_eq_of_lt (by omega)]

theorem length_decrypt (hlib : lib.CounterMode) (key : Key) (iv data : Bytes) :
    (lib.decrypt key iv data).length = data.length := by
  rw [← hlib.length_encrypt key iv, hlib.encrypt_decrypt]

/-- The part of a body that the cipher takes, and what it does not take. -/
theorem taken_iff (hlib : lib.CounterMode) {body read : Bytes} :
    (¬toInt body.length < 0 ∧ body.take (toInt body.length).toNat = read ∧
        lib.decrypt key iv read = plaintext) ↔
      plaintext.length < 2 ^ 31 ∧ lib.encrypt key iv plaintext = read ∧
        ∃ rest : Bytes, 2 ^ 32 ∣ rest.length ∧ read ++ rest = body := by
  constructor
  · rintro ⟨hn, hread, rfl⟩
    rw [toNat_toInt hn] at hread
    rw [toInt_neg_iff, not_le] at hn
    refine ⟨?_, hlib.encrypt_decrypt key iv read, body.drop (body.length % 2 ^ 32), ?_, ?_⟩
    · rw [length_decrypt hlib, ← hread, List.length_take]
      omega
    · rw [List.length_drop]
      exact Nat.dvd_sub_mod body.length
    · rw [← hread, List.take_append_drop]
  · rintro ⟨hshort, hread, rest, hrest, rfl⟩
    have hlength : read.length = plaintext.length := by rw [← hread, hlib.length_encrypt]
    have hmod : (read ++ rest).length % 2 ^ 32 = read.length := by
      obtain ⟨k, hk⟩ := hrest
      rw [List.length_append, hk]
      omega
    have hn : ¬toInt (read ++ rest).length < 0 := by
      rw [toInt_neg_iff, hmod]
      omega
    refine ⟨hn, ?_, ?_⟩
    · rw [toNat_toInt hn, hmod, List.take_left]
    · rw [← hread, hlib.decrypt_encrypt]

/-! ### `aes_gcm_decrypt` -/

/-- The package without its last 16 bytes. -/
def bodyOf (package : Bytes) : Bytes := package.take (package.length - 16)

theorem length_bodyOf (package : Bytes) : (bodyOf package).length = package.length - 16 := by
  rw [bodyOf, List.length_take]
  omega

theorem take_bodyOf {package : Bytes} (hn : ¬toInt (bodyOf package).length < 0) :
    (bodyOf package).take (toInt (bodyOf package).length).toNat =
      package.take (toInt (bodyOf package).length).toNat := by
  rw [bodyOf, List.take_take, ← bodyOf, min_eq_left]
  rw [← length_bodyOf]
  exact toNat_toInt_le hn

/-- When `aes_gcm_decrypt` returns, and what. -/
theorem aesGcmDecrypt_eq_ok_iff {package : Bytes} :
    aesGcmDecrypt lib works package key iv = .ok plaintext ↔
      ((∀ call ∈ cipherCalls, works call = true) ∧ lib.acceptsIvLength (toInt iv.length) = true) ∧
        16 ≤ package.length ∧ ∃ read : Bytes,
          (lib.tag key (iv.take (toInt iv.length).toNat) read).toList =
              package.drop (bodyOf package).length ∧
            ¬toInt (bodyOf package).length < 0 ∧
            (bodyOf package).take (toInt (bodyOf package).length).toNat = read ∧
            lib.decrypt key (iv.take (toInt iv.length).toNat) read = plaintext := by
  simp only [aesGcmDecrypt, bind_eq_ok_iff, require_eq_ok_iff, returned_eq_ok_iff, Prod.exists,
    decryptUpdate, CipherCtx.new, CipherCtx.getTag, exists_const, Bool.and_eq_true,
    ← length_bodyOf]
  by_cases hn : toInt (bodyOf package).length < 0
  · simp [hn]
  · simp [hn, cipherCalls, take_bodyOf hn, resize_overwrite, pure, Except.pure]
    tauto

/-- A short plaintext goes to the cipher as it is. -/
theorem cipherText_of_short (lib : OpenSSL) (key : Key) (iv : Bytes)
    (hshort : plaintext.length < 2 ^ 31) :
    ¬toInt plaintext.length < 0 ∧
      cipherText lib key iv plaintext = lib.encrypt key iv plaintext := by
  rw [cipherText, toInt_of_lt hshort, Int.toNat_natCast, List.take_length]
  exact ⟨by omega, rfl⟩

theorem aesGcmEncrypt_short (hlib : lib.Lawful) (hshort : plaintext.length < 2 ^ 31)
    {package : Bytes} :
    aesGcmEncrypt lib (fun _ ↦ true) plaintext key iv = .ok package ↔
      lib.acceptsIvLength (toInt iv.length) = true ∧
        lib.encrypt key (iv.take (toInt iv.length).toNat) plaintext ++
          (lib.tag key (iv.take (toInt iv.length).toNat)
            (lib.encrypt key (iv.take (toInt iv.length).toNat) plaintext)).toList = package := by
  obtain ⟨hn, hcipher⟩ :=
    cipherText_of_short lib key (iv.take (toInt iv.length).toNat) hshort
  have hlength := hlib.length_encrypt key (iv.take (toInt iv.length).toNat) plaintext
  have hdrop : (List.replicate plaintext.length (0 : UInt8)).drop plaintext.length = [] := by simp
  rw [aesGcmEncrypt_eq_ok_iff, hcipher, overwrite, hlength, hdrop, List.append_nil]
  simp [hn]

/-- `aes_gcm_decrypt` returns a plaintext exactly for what `aes_gcm_encrypt` makes of it, with bytes
in front of the tag that are not taken. -/
theorem aesGcm_accepted_iff (hlib : lib.CounterMode) (works : Call → Bool) (plaintext : Bytes)
    (key : Key) (iv package : Bytes) :
    aesGcmDecrypt lib works package key iv = .ok plaintext ↔
      (∀ call ∈ cipherCalls, works call = true) ∧ plaintext.length < 2 ^ 31 ∧
        ∃ (ciphertext : Bytes) (tag : Tag) (rest : Bytes),
          aesGcmEncrypt lib (fun _ ↦ true) plaintext key iv = .ok (ciphertext ++ tag.toList) ∧
            2 ^ 32 ∣ rest.length ∧ package = ciphertext ++ rest ++ tag.toList := by
  rw [aesGcmDecrypt_eq_ok_iff]
  constructor
  · rintro ⟨⟨hworks, haccepts⟩, hlength, read, htag, htaken⟩
    obtain ⟨hshort, hread, rest, hrest, hbody⟩ := (taken_iff hlib).mp htaken
    refine ⟨hworks, hshort, read, _, rest,
      (aesGcmEncrypt_short hlib.toLawful hshort).mpr ⟨haccepts, by rw [hread]⟩, hrest, ?_⟩
    rw [hbody, htag, length_bodyOf, bodyOf, List.take_append_drop]
  · rintro ⟨hworks, hshort, ciphertext, tag, rest, hencrypt, hrest, rfl⟩
    obtain ⟨haccepts, hpackage⟩ := (aesGcmEncrypt_short hlib.toLawful hshort).mp hencrypt
    obtain ⟨rfl, htag⟩ := List.append_inj' hpackage (by simp)
    have hlength : (lib.encrypt key (iv.take (toInt iv.length).toNat) plaintext ++ rest ++
        tag.toList).length - 16 =
          (lib.encrypt key (iv.take (toInt iv.length).toNat) plaintext ++ rest).length := by
      rw [List.length_append, Vector.length_toList, Nat.add_sub_cancel]
    refine ⟨⟨hworks, haccepts⟩, by simp; omega, _, ?_,
      (taken_iff hlib).mpr ⟨hshort, rfl, rest, hrest, ?_⟩⟩
    · rw [htag, length_bodyOf, hlength, List.drop_left]
    · rw [bodyOf, hlength, List.take_left]

/-! ### `decrypt_payload` -/

theorem deriveKey_given_eq_ok_iff {password salt salt' : Bytes} :
    deriveKey lib works password salt none = .ok (key, salt') ↔
      (works .kdfFetch = true ∧ works .kdfCtxNew = true ∧ works .kdfDerive = true) ∧
        salt.length = 16 ∧ lib.kdfDerive password salt = some key ∧ salt = salt' := by
  simp only [deriveKey, bind_eq_ok_iff, require_eq_ok_iff, returned_eq_ok_iff, exists_const]
  simp [pure, Except.pure]
  tauto

/-- When `decrypt_payload` returns, and what. -/
theorem decryptPayload_eq_ok_iff (hlib : lib.Lawful) {package : SecurePackage} {password : Bytes} :
    decryptPayload lib works package password = .ok plaintext ↔
      (∀ call, call ≠ .randomSalt → call ≠ .randomIv → works call = true) ∧
        package.salt.length = 16 ∧ package.iv.length = 12 ∧ package.tag.length = 16 ∧
        ∃ key, lib.kdfDerive password package.salt = some key ∧ ∃ read : Bytes,
          (lib.tag key package.iv read).toList = package.tag ∧
            ¬toInt package.ciphertext.length < 0 ∧
            package.ciphertext.take (toInt package.ciphertext.length).toNat = read ∧
            lib.decrypt key package.iv read = plaintext := by
  have hall : (∀ call, call ≠ .randomSalt → call ≠ .randomIv → works call = true) ↔
      (works .kdfFetch = true ∧ works .kdfCtxNew = true ∧ works .kdfDerive = true) ∧
        ∀ call ∈ cipherCalls, works call = true := by
    constructor
    · refine fun h ↦ ⟨⟨h _ nofun nofun, h _ nofun nofun, h _ nofun nofun⟩, fun call hcall ↦ ?_⟩
      exact h call (by rintro rfl; simp [cipherCalls] at hcall)
        (by rintro rfl; simp [cipherCalls] at hcall)
    · rintro ⟨⟨hfetch, hctx, hderive⟩, hcipher⟩ call hsalt hiv
      cases call <;> first | contradiction | assumption | exact hcipher _ (by decide)
  simp only [decryptPayload, deriveKey_given_eq_ok_iff, bind_eq_ok_iff, require_eq_ok_iff,
    returned_eq_ok_iff, Prod.exists, decryptUpdate, CipherCtx.new, CipherCtx.getTag, exists_const,
    Bool.and_eq_true, hlib.accepts_default, hall, decide_eq_true_eq]
  by_cases hn : toInt package.ciphertext.length < 0
  · simp [hn]
  · simp [hn, cipherCalls, resize_overwrite, pure, Except.pure]
    have htake (hiv : package.iv.length = 12) : package.iv.take 12 = package.iv :=
      List.take_of_length_le hiv.le
    constructor
    · rintro ⟨⟨hsalt, hiv, htag⟩, key, hcalls⟩
      simp only [htake hiv, decide_eq_true_eq] at hcalls
      exact ⟨by tauto, hsalt, hiv, htag, key, by tauto⟩
    · rintro ⟨hworks, hsalt, hiv, htag, key, hkey⟩
      refine ⟨⟨hsalt, hiv, htag⟩, key, ?_⟩
      simp only [htake hiv, decide_eq_true_eq]
      tauto

/-- `decrypt_payload` returns a plaintext exactly for what `encrypt_payload` makes of it with the
same password and some random bytes, with bytes behind the ciphertext that are not taken. -/
theorem payload_accepted_iff (hlib : lib.CounterMode) (works : Call → Bool)
    (plaintext password : Bytes) (package : SecurePackage) :
    decryptPayload lib works package password = .ok plaintext ↔
      (∀ call, call ≠ .randomSalt → call ≠ .randomIv → works call = true) ∧
        plaintext.length < 2 ^ 31 ∧ ∃ (random : Random) (package' : SecurePackage) (rest : Bytes),
          encryptPayload lib (fun _ ↦ true) random plaintext password = .ok package' ∧
            2 ^ 32 ∣ rest.length ∧
            package = { package' with ciphertext := package'.ciphertext ++ rest } := by
  rw [decryptPayload_eq_ok_iff hlib.toLawful]
  constructor
  · rintro ⟨hworks, hsalt, hiv, -, key, hkey, read, htag, htaken⟩
    obtain ⟨hshort, hread, rest, hrest, hbody⟩ := (taken_iff hlib).mp htaken
    obtain ⟨hn, hcipher⟩ := cipherText_of_short lib key package.iv hshort
    let random : Random := ⟨⟨package.salt.toArray, hsalt⟩, ⟨package.iv.toArray, hiv⟩⟩
    refine ⟨hworks, hshort, random, { package with ciphertext := read }, rest,
      (encryptPayload_eq_ok_iff hlib.toLawful).mpr ⟨fun _ ↦ rfl, hn, key, hkey, ?_⟩, hrest, ?_⟩
    · have hrandom : random.iv.toList = package.iv := rfl
      rw [hrandom, hcipher, hread, htag]
      rfl
    · rw [hbody]
  · rintro ⟨hworks, hshort, random, package', rest, hencrypt, hrest, rfl⟩
    obtain ⟨-, hn, key, hkey, rfl⟩ := (encryptPayload_eq_ok_iff hlib.toLawful).mp hencrypt
    obtain ⟨-, hcipher⟩ := cipherText_of_short lib key random.iv.toList hshort
    refine ⟨hworks, Vector.length_toList, Vector.length_toList, Vector.length_toList, key, hkey, _,
      ?_, (taken_iff hlib).mpr ⟨hshort, rfl, rest, hrest, ?_⟩⟩
    · rw [hcipher]
    · rw [hcipher]

/-- Decryption returns a plaintext exactly for what encryption makes of it, up to whole multiples of
`2 ^ 32` bytes behind the ciphertext: no other package, however it was made, is accepted. -/
theorem accepted_iff (hlib : lib.CounterMode) (works : Call → Bool) (plaintext : Bytes) :
    (∀ key iv package, aesGcmDecrypt lib works package key iv = .ok plaintext ↔
      (∀ call ∈ cipherCalls, works call = true) ∧ plaintext.length < 2 ^ 31 ∧
        ∃ (ciphertext : Bytes) (tag : Tag) (rest : Bytes),
          aesGcmEncrypt lib (fun _ ↦ true) plaintext key iv = .ok (ciphertext ++ tag.toList) ∧
            2 ^ 32 ∣ rest.length ∧ package = ciphertext ++ rest ++ tag.toList) ∧
      ∀ password package, decryptPayload lib works package password = .ok plaintext ↔
        (∀ call, call ≠ .randomSalt → call ≠ .randomIv → works call = true) ∧
          plaintext.length < 2 ^ 31 ∧ ∃ (random : Random) (package' : SecurePackage) (rest : Bytes),
            encryptPayload lib (fun _ ↦ true) random plaintext password = .ok package' ∧
              2 ^ 32 ∣ rest.length ∧
              package = { package' with ciphertext := package'.ciphertext ++ rest } :=
  ⟨aesGcm_accepted_iff hlib works plaintext, payload_accepted_iff hlib works plaintext⟩

theorem sampleLibrary_counterMode : sampleLibrary.CounterMode where
  toLawful := sampleLibrary_lawful
  encrypt_decrypt := sampleLibrary_lawful.decrypt_encrypt

/-- Two bytes of text that are decrypted were encrypted. -/
theorem accepted_iff_example :
    (∃ (ciphertext : Bytes) (tag : Tag) (rest : Bytes),
        aesGcmEncrypt sampleLibrary (fun _ ↦ true) [104, 105] sampleKey (List.replicate 12 0) =
            .ok (ciphertext ++ tag.toList) ∧
          2 ^ 32 ∣ rest.length ∧
          [157, 236, 185, 190, 53, 231, 224, 82, 43, 235, 234, 140, 25, 30, 172, 27, 60, 146] =
            ciphertext ++ rest ++ tag.toList) ∧
      decryptPayload sampleLibrary (fun _ ↦ true)
          { ciphertext := [157, 236]
            iv := List.replicate 12 0
            tag := [185, 190, 53, 231, 224, 82, 43, 235, 234, 140, 25, 30, 172, 27, 60, 146]
            salt := List.replicate 16 0 } [112, 119] = .ok [104, 105] := by
  have haccepted := accepted_iff sampleLibrary_counterMode (fun _ ↦ true) [104, 105]
  refine ⟨((haccepted.1 sampleKey (List.replicate 12 0) _).mp rfl).2.2, ?_⟩
  exact (haccepted.2 [112, 119] _).mpr ⟨fun _ _ _ ↦ rfl, by decide,
    ⟨.replicate 16 0, .replicate 12 0⟩, _, [], rfl, by decide, rfl⟩

end Acceptance

end WsServer.Crypto
