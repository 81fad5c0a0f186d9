import WsServer.Crypto.Model
import WsServer.Foundations.Rewrites

/-!
# Key pairs on disk: `genkeypair.cpp`, `RsaEncryption.cpp` and `RsaDecryption.cpp`

`genKeyPair` makes an RSA key, writes its halves to two files and returns their paths; the other
functions read a half back and use it. What OpenSSL computes is a parameter (`Rsa`), and so is what
the calls come to that the arguments do not decide.

A file that cannot be opened is passed over and what a write comes to is not looked at: the paths
are returned all the same, and what is there may be part of a half or a half of an earlier key.
`pairs_usable_iff` says when every reported pair of a sequence of calls can be used.
-/

set_option autoImplicit false
set_option relaxedAutoImplicit false

namespace WsServer.Crypto

open Foundations

/-! ### OpenSSL -/

/-- RSA keys of OpenSSL: their texts, and encryption with a seed for the padding. -/
structure Rsa (Pkey : Type) where
  /-- `PEM_write_bio_PrivateKey`. -/
  pemPrivateKey : Pkey → Bytes
  /-- `PEM_write_bio_PUBKEY`. -/
  pemPubkey : Pkey → Bytes
  /-- `PEM_read_PrivateKey`. -/
  readPrivateKey : Bytes → Option Pkey
  /-- `PEM_read_PUBKEY`. -/
  readPubkey : Bytes → Option Pkey
  encrypt : Pkey → Bytes → Bytes → Option Bytes
  decrypt : Pkey → Bytes → Option Bytes

/-- What OpenSSL promises: a text is that of a public or of a private key, and what has been
encrypted with a public key is decrypted with the private key beside it and with no other. -/
structure Rsa.Correct {Pkey : Type} (rsa : Rsa Pkey) : Prop where
  pemPubkey_ne : ∀ pkey, rsa.pemPubkey pkey ≠ rsa.pemPrivateKey pkey
  reads : ∀ pkey, ∃ privateKey, rsa.readPrivateKey (rsa.pemPrivateKey pkey) = some privateKey
  decrypts : ∀ pkey pkey' publicKey privateKey seed message cipherText,
    rsa.readPubkey (rsa.pemPubkey pkey) = some publicKey →
    rsa.readPrivateKey (rsa.pemPrivateKey pkey') = some privateKey →
    rsa.encrypt publicKey seed message = some cipherText →
    cipherText ≠ [] ∧ (rsa.decrypt privateKey cipherText = some message ↔ pkey = pkey')

/-- The calls that may fail when a key is used. -/
inductive RsaCall
  | fopen
  | ctxNew
  | init
  | setPadding
  | outputSize
  deriving DecidableEq

/-- What opening a file for writing and writing to it come to. -/
structure Saving where
  opens : Bool
  written : ℕ

/-- What the calls of `generateAndSaveKeyPair` come to. -/
structure Generation (Pkey : Type) where
  ctxNewId : Bool
  keygenInit : Bool
  setKeygenBits : Bool
  keygen : Option Pkey
  privateFile : Saving
  publicFile : Saving

/-! ### The functions -/

section Functions

variable {Pkey : Type} (rsa : Rsa Pkey)

/-- `BIO_new_file`, the writing of a text and `BIO_free`. -/
def savePem (saving : Saving) (fs : FileSystem UInt8) (path : Path) (text : Bytes) :
    FileSystem UInt8 :=
  if saving.opens then fs.rewrite path (text.take saving.written) else fs

def generateAndSaveKeyPair (outcome : Generation Pkey) (fs : FileSystem UInt8)
    (privateKeyPath publicKeyPath : Path) : FileSystem UInt8 × Option (Path × Path) :=
  if outcome.ctxNewId = false then (fs, none)
  else if outcome.keygenInit = false then (fs, none)
  else if outcome.setKeygenBits = false then (fs, none)
  else
    match outcome.keygen with
    | none => (fs, none)
    | some pkey =>
      let fs := savePem outcome.privateFile fs privateKeyPath (rsa.pemPrivateKey pkey)
      let fs := savePem outcome.publicFile fs publicKeyPath (rsa.pemPubkey pkey)
      (fs, some (publicKeyPath, privateKeyPath))

def genKeyPair (outcome : Generation Pkey) (fs : FileSystem UInt8)
    (privateKeyPath : Path := ⟨false, ["private_key.pem"]⟩)
    (publicKeyPath : Path := ⟨false, ["public_key.pem"]⟩) :
    FileSystem UInt8 × Option (Path × Path) :=
  match generateAndSaveKeyPair rsa outcome fs privateKeyPath publicKeyPath with
  | (fs, none) => (fs, none)
  | (fs, some keyPair) => (fs, some keyPair)

/-- The vector has the length that the first call of `EVP_PKEY_encrypt` reports. -/
def rsaEncryption (fails : RsaCall → Bool) (seed : Bytes) (fs : FileSystem UInt8) (pubkey : Path)
    (secretMessage : Bytes) : Option Bytes := do
  guard (fails .fopen = false)
  let pubKeyFile ← fs.read pubkey
  let publicKey ← rsa.readPubkey pubKeyFile
  guard (fails .ctxNew = false)
  guard (fails .init = false)
  guard (fails .setPadding = false)
  guard (fails .outputSize = false)
  rsa.encrypt publicKey seed secretMessage

def rsaDecryption (fails : RsaCall → Bool) (fs : FileSystem UInt8) (privatekey : Path)
    (cipherText : Bytes) : Option Bytes := do
  guard (fails .fopen = false)
  let privKeyFile ← fs.read privatekey
  let privateKey ← rsa.readPrivateKey privKeyFile
  guard (cipherText.length ≠ 0)
  guard (fails .ctxNew = false)
  guard (fails .init = false)
  guard (fails .setPadding = false)
  guard (fails .outputSize = false)
  rsa.decrypt privateKey cipherText

/-- The flow of `KeyEncapsulationAndTransport.cpp` with the default paths; none when an optional
without a value is dereferenced. -/
def keyTransport (outcome : Generation Pkey) (failsEncryption failsDecryption : RsaCall → Bool)
    (seed : Bytes) (fs : FileSystem UInt8) (secretSymmetricKey : Bytes) : Option Bytes := do
  let (fs, keyPair) := genKeyPair rsa outcome fs
  let keyPair ← keyPair
  let encryptedMessage ← rsaEncryption rsa failsEncryption seed fs keyPair.1 secretSymmetricKey
  rsaDecryption rsa failsDecryption fs keyPair.2 encryptedMessage

end Functions

/-! ### One call -/

section Call

variable {Pkey : Type} {rsa : Rsa Pkey} {fs : FileSystem UInt8} {saving : Saving} {path : Path}
  {text : Bytes}

/-- The key that is made. -/
def Generation.pkey (outcome : Generation Pkey) : Option Pkey :=
  if outcome.ctxNewId && outcome.keygenInit && outcome.setKeygenBits then outcome.keygen else none

theorem genKeyPair_eq (outcome : Generation Pkey) (fs : FileSystem UInt8)
    (privateKeyPath publicKeyPath : Path) :
    genKeyPair rsa outcome fs privateKeyPath publicKeyPath =
      match outcome.pkey with
      | none => (fs, none)
      | some pkey =>
        (savePem outcome.publicFile
          (savePem outcome.privateFile fs privateKeyPath (rsa.pemPrivateKey pkey))
          publicKeyPath (rsa.pemPubkey pkey), some (publicKeyPath, privateKeyPath)) := by
  rcases outcome with ⟨ctxNewId, keygenInit, setKeygenBits, keygen, privateFile, publicFile⟩
  cases ctxNewId
  · rfl
  cases keygenInit
  · rfl
  cases setKeygenBits
  · rfl
  cases keygen <;> rfl

/-- The file holds the text afterwards: it is written in full, or it cannot be opened and held the
text before. -/
def Saved (saving : Saving) (fs : FileSystem UInt8) (path : Path) (text : Bytes) : Prop :=
  (saving.opens = true ∧ fs.Openable path ∧ text.length ≤ saving.written) ∨
    (¬ (saving.opens = true ∧ fs.Openable path) ∧ fs.read path = some text)

theorem read_savePem_iff :
    (savePem saving fs path text).read path = some text ↔ Saved saving fs path text := by
  unfold savePem Saved
  by_cases hopens : saving.opens = true
  · by_cases hpath : fs.Openable path
    · rw [if_pos hopens, FileSystem.read_rewrite_self hpath]
      simp [hopens, hpath]
    · rw [if_pos hopens, FileSystem.rewrite_eq_self hpath]
      simp [hpath]
  · rw [if_neg hopens]
    simp [hopens]

theorem read_savePem_of_not_sameOutput {other : Path} (hother : ¬ fs.SameOutput path other) :
    (savePem saving fs path text).read other = fs.read other := by
  unfold savePem
  split_ifs
  · exact FileSystem.read_rewrite_of_not_sameOutput hother
  · rfl

theorem openable_savePem {other : Path} :
    (savePem saving fs path text).Openable other ↔ fs.Openable other := by
  unfold savePem
  split_ifs
  · exact FileSystem.openable_rewrite
  · exact Iff.rfl

theorem sameOutput_savePem {other : Path} :
    (savePem saving fs path text).SameOutput path other ↔ fs.SameOutput path other := by
  unfold savePem
  split_ifs
  · exact FileSystem.sameOutput_rewrite
  · exact Iff.rfl

/-- What is saved elsewhere does not matter. -/
theorem saved_savePem_iff {saving' : Saving} {other : Path} {text' : Bytes}
    (hother : ¬ fs.SameOutput path other) :
    Saved saving' (savePem saving fs path text) other text' ↔ Saved saving' fs other text' := by
  unfold Saved
  simp only [openable_savePem, read_savePem_of_not_sameOutput hother]

/-- Two files that are saved one after the other hold different texts exactly when they are two
files, and each of them is saved. -/
theorem read_both_iff {saving' : Saving} {other : Path} {text' : Bytes} (htext : text ≠ text') :
    (savePem saving' (savePem saving fs path text) other text').read path = some text ∧
      (savePem saving' (savePem saving fs path text) other text').read other = some text' ↔
    ¬ fs.SameOutput path other ∧ Saved saving fs path text ∧ Saved saving' fs other text' := by
  by_cases hsame : fs.SameOutput path other
  · refine iff_of_false ?_ fun h ↦ h.1 hsame
    rintro ⟨hpath, hother⟩
    have hfirst : (savePem saving fs path text).SameOutput other path :=
      FileSystem.sameOutput_comm.mp (sameOutput_savePem.mpr hsame)
    have hlast : (savePem saving' (savePem saving fs path text) other text').SameOutput other
        path := sameOutput_savePem.mpr hfirst
    exact htext (hlast.read_eq hother hpath).symm
  · have hfirst : ¬ (savePem saving fs path text).SameOutput other path := by
      rwa [FileSystem.sameOutput_comm, sameOutput_savePem]
    rw [read_savePem_of_not_sameOutput hfirst, read_savePem_iff, read_savePem_iff,
      saved_savePem_iff hsame]
    exact (and_iff_right hsame).symm

/-- A call with what its steps come to. -/
structure KeyPairCall (Pkey : Type) where
  outcome : Generation Pkey
  privateKeyPath : Path
  publicKeyPath : Path

def KeyPairCall.run (rsa : Rsa Pkey) (fs : FileSystem UInt8) (call : KeyPairCall Pkey) :
    FileSystem UInt8 × Option (Path × Path) :=
  genKeyPair rsa call.outcome fs call.privateKeyPath call.publicKeyPath

/-- The two files hold the halves of the key, and what is encrypted with the first is decrypted with
the second. -/
structure UsablePair (rsa : Rsa Pkey) (pkey : Pkey) (fs : FileSystem UInt8)
    (publicKeyPath privateKeyPath : Path) : Prop where
  publicHalf : fs.read publicKeyPath = some (rsa.pemPubkey pkey)
  privateHalf : fs.read privateKeyPath = some (rsa.pemPrivateKey pkey)
  decrypts : ∀ fails seed message cipherText,
    rsaEncryption rsa fails seed fs publicKeyPath message = some cipherText →
    rsaDecryption rsa (fun _ ↦ false) fs privateKeyPath cipherText = some message

/-- A pair that a call reports is usable with the key of the call. -/
def ReportsUsable (rsa : Rsa Pkey) (fs : FileSystem UInt8) (call : KeyPairCall Pkey) : Prop :=
  ∀ publicKeyPath privateKeyPath, (call.run rsa fs).2 = some (publicKeyPath, privateKeyPath) →
    ∃ pkey, call.outcome.pkey = some pkey ∧
      UsablePair rsa pkey (call.run rsa fs).1 publicKeyPath privateKeyPath

/-- No key is made, or the paths are to two files and both halves are saved. -/
def SavesBoth (rsa : Rsa Pkey) (fs : FileSystem UInt8) (call : KeyPairCall Pkey) : Prop :=
  ∀ pkey, call.outcome.pkey = some pkey →
    ¬ fs.SameOutput call.privateKeyPath call.publicKeyPath ∧
      Saved call.outcome.privateFile fs call.privateKeyPath (rsa.pemPrivateKey pkey) ∧
      Saved call.outcome.publicFile fs call.publicKeyPath (rsa.pemPubkey pkey)

/-- Encryption reads the public key and hands the message to OpenSSL. -/
theorem exists_of_rsaEncryption {fails : RsaCall → Bool} {seed message cipherText : Bytes}
    (hencrypt : rsaEncryption rsa fails seed fs path message = some cipherText) :
    ∃ pubKeyFile publicKey, fs.read path = some pubKeyFile ∧
      rsa.readPubkey pubKeyFile = some publicKey ∧
      rsa.encrypt publicKey seed message = some cipherText := by
  obtain ⟨_, pubKeyFile, hread, publicKey, hkey, _, _, _, _, hcipher⟩ := by
    simpa [rsaEncryption, Option.bind_eq_some_iff, Option.guard_eq_some'] using hencrypt
  exact ⟨pubKeyFile, publicKey, hread, hkey, hcipher⟩

/-- Decryption with no failing call. -/
theorem rsaDecryption_eq {privateKey : Pkey} {cipherText : Bytes} (hread : fs.read path = some text)
    (hkey : rsa.readPrivateKey text = some privateKey) (hcipherText : cipherText ≠ []) :
    rsaDecryption rsa (fun _ ↦ false) fs path cipherText = rsa.decrypt privateKey cipherText := by
  simp [rsaDecryption, hread, hkey, hcipherText]

/-- What is encrypted with one file is decrypted with another one exactly when they hold the halves
of one key. -/
theorem rsaDecryption_eq_some_iff (hrsa : rsa.Correct) {pkey pkey' : Pkey}
    {publicKeyPath privateKeyPath : Path} {fails : RsaCall → Bool}
    {seed message cipherText : Bytes} (hpublic : fs.read publicKeyPath = some (rsa.pemPubkey pkey))
    (hprivate : fs.read privateKeyPath = some (rsa.pemPrivateKey pkey'))
    (hencrypt : rsaEncryption rsa fails seed fs publicKeyPath message = some cipherText) :
    rsaDecryption rsa (fun _ ↦ false) fs privateKeyPath cipherText = some message ↔
      pkey = pkey' := by
  obtain ⟨pubKeyFile, publicKey, hread, hkey, hcipher⟩ := exists_of_rsaEncryption hencrypt
  obtain rfl : rsa.pemPubkey pkey = pubKeyFile := Option.some.inj (hpublic.symm.trans hread)
  obtain ⟨privateKey, hprivateKey⟩ := hrsa.reads pkey'
  obtain ⟨hne, hdecrypt⟩ :=
    hrsa.decrypts pkey pkey' publicKey privateKey seed message cipherText hkey hprivateKey hcipher
  rw [rsaDecryption_eq hprivate hprivateKey hne, hdecrypt]

theorem UsablePair.of_read (hrsa : rsa.Correct) {pkey : Pkey} {publicKeyPath privateKeyPath : Path}
    (hpublic : fs.read publicKeyPath = some (rsa.pemPubkey pkey))
    (hprivate : fs.read privateKeyPath = some (rsa.pemPrivateKey pkey)) :
    UsablePair rsa pkey fs publicKeyPath privateKeyPath where
  publicHalf := hpublic
  privateHalf := hprivate
  decrypts := fun _ _ _ _ hencrypt ↦
    (rsaDecryption_eq_some_iff hrsa hpublic hprivate hencrypt).mpr rfl

theorem reportsUsable_iff (hrsa : rsa.Correct) (fs : FileSystem UInt8) (call : KeyPairCall Pkey) :
    ReportsUsable rsa fs call ↔ SavesBoth rsa fs call := by
  unfold ReportsUsable SavesBoth KeyPairCall.run
  rw [genKeyPair_eq]
  rcases call.outcome.pkey with _ | pkey
  · simp
  have hboth := @read_both_iff fs call.outcome.privateFile call.privateKeyPath
    (rsa.pemPrivateKey pkey) call.outcome.publicFile call.publicKeyPath (rsa.pemPubkey pkey)
    (hrsa.pemPubkey_ne pkey).symm
  constructor
  · rintro husable other hother
    obtain rfl : pkey = other := Option.some.inj hother
    obtain ⟨_, hpkey, hpair⟩ := husable _ _ rfl
    obtain rfl := Option.some.inj hpkey
    exact hboth.mp ⟨hpair.privateHalf, hpair.publicHalf⟩
  · rintro hsaves publicKeyPath privateKeyPath hpaths
    obtain ⟨rfl, rfl⟩ : call.publicKeyPath = publicKeyPath ∧
        call.privateKeyPath = privateKeyPath := by simpa using hpaths
    obtain ⟨hprivate, hpublic⟩ := hboth.mpr (hsaves pkey rfl)
    exact ⟨pkey, rfl, .of_read hrsa hpublic hprivate⟩

/-- The file systems before the calls of a sequence, with the calls. -/
theorem pairs_usable_iff (hrsa : rsa.Correct) (fs : FileSystem UInt8)
    (calls : List (KeyPairCall Pkey)) :
    (∀ x ∈ Execution.steps (fun fs call ↦ (KeyPairCall.run rsa fs call).1) fs calls,
      ReportsUsable rsa x.before x.action) ↔
    ∀ x ∈ Execution.steps (fun fs call ↦ (KeyPairCall.run rsa fs call).1) fs calls,
      SavesBoth rsa x.before x.action :=
  forall₂_congr fun x _ ↦ reportsUsable_iff hrsa x.before x.action

/-- When both halves are saved, the secret arrives as soon as there is a key and the secret can be
encrypted. -/
theorem keyTransport_eq (hrsa : rsa.Correct) {outcome : Generation Pkey}
    {fails : RsaCall → Bool} {seed secretSymmetricKey : Bytes}
    (hsaves : SavesBoth rsa fs
      ⟨outcome, ⟨false, ["private_key.pem"]⟩, ⟨false, ["public_key.pem"]⟩⟩) :
    keyTransport rsa outcome fails (fun _ ↦ false) seed fs secretSymmetricKey =
      ((genKeyPair rsa outcome fs).2.bind fun keyPair ↦
        rsaEncryption rsa fails seed (genKeyPair rsa outcome fs).1 keyPair.1
          secretSymmetricKey).map fun _ ↦ secretSymmetricKey := by
  have husable := (reportsUsable_iff hrsa fs _).mpr hsaves
  unfold keyTransport
  rcases hpair : (genKeyPair rsa outcome fs).2 with _ | ⟨publicKeyPath, privateKeyPath⟩
  · simp [hpair]
  · obtain ⟨pkey, -, hpkey⟩ := husable publicKeyPath privateKeyPath hpair
    rcases hencrypt : rsaEncryption rsa fails seed (genKeyPair rsa outcome fs).1 publicKeyPath
      secretSymmetricKey with _ | cipherText
    · simp [hpair, hencrypt]
    · have hdecrypt := hpkey.decrypts fails seed secretSymmetricKey cipherText hencrypt
      have hdecrypt' : rsaDecryption rsa (fun _ ↦ false) (genKeyPair rsa outcome fs).1
        privateKeyPath cipherText = some secretSymmetricKey := hdecrypt
      simp [hpair, hencrypt, hdecrypt']

/-! ### Examples -/

/-- Keys of one byte. -/
def byteRsa : Rsa UInt8 where
  pemPrivateKey := fun pkey ↦ [2, pkey]
  pemPubkey := fun pkey ↦ [1, pkey]
  readPrivateKey
    | [2, pkey] => some pkey
    | _ => none
  readPubkey
    | [1, pkey] => some pkey
    | _ => none
  encrypt := fun pkey _ message ↦ some (pkey :: message)
  decrypt
    | pkey, first :: message => if first = pkey then some message else none
    | _, [] => none

theorem byteRsa_correct : byteRsa.Correct where
  pemPubkey_ne := fun pkey ↦ by simp [byteRsa]
  reads := fun pkey ↦ ⟨pkey, rfl⟩
  decrypts := by
    intro pkey pkey' publicKey privateKey seed message cipherText hpublic hprivate hencrypt
    cases hpublic
    cases hprivate
    cases hencrypt
    exact ⟨by simp, by simp [byteRsa]⟩

/-- A call with the default paths in which everything works but the opening of the private file,
when `opens` is false. -/
def defaultCall (pkey : UInt8) (opens : Bool) : KeyPairCall UInt8 where
  outcome :=
    { ctxNewId := true
      keygenInit := true
      setKeygenBits := true
      keygen := some pkey
      privateFile := ⟨opens, 2⟩
      publicFile := ⟨true, 2⟩ }
  privateKeyPath := ⟨false, ["private_key.pem"]⟩
  publicKeyPath := ⟨false, ["public_key.pem"]⟩

/-- A file can be made under any name in an empty root. -/
theorem resolve_empty {name : String} (hname : ¬ Path.IsSpecial name) :
    (FileSystem.empty : FileSystem UInt8).resolve .output ⟨false, [name]⟩ = .ok [name] := by
  have hnode : (FileSystem.empty : FileSystem UInt8).nodes ([] ++ [name]) = none := by
    simp [FileSystem.empty]
  exact FileSystem.resolve_eq_ok_iff.mpr
    ⟨rfl, .miss FileSystem.empty.root_directory hname hnode rfl⟩

theorem openable_empty {name : String} (hname : ¬ Path.IsSpecial name) :
    (FileSystem.empty : FileSystem UInt8).Openable ⟨false, [name]⟩ :=
  ⟨[name], resolve_empty hname, Or.inr ⟨by simp [FileSystem.empty], rfl⟩⟩

/-- The default paths, to two different files that open. -/
theorem savesBoth_default {fs : FileSystem UInt8} (pkey : UInt8)
    (hdistinct : ¬ fs.SameOutput ⟨false, ["private_key.pem"]⟩ ⟨false, ["public_key.pem"]⟩)
    (hprivate : fs.Openable ⟨false, ["private_key.pem"]⟩)
    (hpublic : fs.Openable ⟨false, ["public_key.pem"]⟩) :
    SavesBoth byteRsa fs (defaultCall pkey true) := by
  intro pkey' hpkey
  obtain rfl : pkey = pkey' := Option.some.inj hpkey
  exact ⟨hdistinct, Or.inl ⟨rfl, hprivate, by simp [defaultCall, byteRsa]⟩,
    Or.inl ⟨rfl, hpublic, by simp [defaultCall, byteRsa]⟩⟩

/-- The files are made by the first call and written again by the second. -/
theorem pairs_usable_iff_example : ∃ h,
    h = Execution.steps (fun fs call ↦ (KeyPairCall.run byteRsa fs call).1) FileSystem.empty
      [defaultCall 7 true, defaultCall 8 true] ∧
    h.map Transition.action = [defaultCall 7 true, defaultCall 8 true] ∧
    ∀ x ∈ h, ReportsUsable byteRsa x.before x.action := by
  refine ⟨_, rfl, rfl, (pairs_usable_iff byteRsa_correct FileSystem.empty
    [defaultCall 7 true, defaultCall 8 true]).mpr fun x hx ↦ ?_⟩
  rcases List.mem_cons.mp hx with rfl | hx
  · refine savesBoth_default 7 ?_ (openable_empty (by decide)) (openable_empty (by decide))
    rintro ⟨l, l', hl, hl', hsame⟩
    obtain rfl : ["private_key.pem"] = l :=
      Except.ok.inj ((resolve_empty (by decide)).symm.trans hl)
    obtain rfl : ["public_key.pem"] = l' :=
      Except.ok.inj ((resolve_empty (by decide)).symm.trans hl')
    simp [FileSystem.empty] at hsame
  · obtain rfl := List.mem_singleton.mp hx
    refine savesBoth_default 8 ?_ ⟨["private_key.pem"], rfl, Or.inl ⟨0, rfl⟩⟩
      ⟨["public_key.pem"], rfl, Or.inl ⟨1, rfl⟩⟩
    rintro ⟨l, l', hl, hl', hsame⟩
    obtain rfl : ["private_key.pem"] = l := Except.ok.inj hl
    obtain rfl : ["public_key.pem"] = l' := Except.ok.inj hl'
    rcases hsame with hsame | ⟨i, hi, hi'⟩
    · exact absurd hsame (by decide)
    · cases hi
      cases hi'

/-- The second call cannot open the private file, and the half of the first key stays in it. -/
theorem stale_private_key :
    ¬ ∀ (Pkey : Type) (rsa : Rsa Pkey), rsa.Correct → ∀ (fs : FileSystem UInt8)
      (calls : List (KeyPairCall Pkey)),
      ∀ x ∈ Execution.steps (fun fs call ↦ (KeyPairCall.run rsa fs call).1) fs calls,
        ReportsUsable rsa x.before x.action := by
  intro hall
  have husable := hall UInt8 byteRsa byteRsa_correct FileSystem.empty
    [defaultCall 7 true, defaultCall 8 false] ⟨_, defaultCall 8 false, _⟩
    (List.mem_cons_of_mem _ (List.mem_singleton_self _))
  obtain ⟨pkey, hpkey, hpair⟩ :=
    husable ⟨false, ["public_key.pem"]⟩ ⟨false, ["private_key.pem"]⟩ rfl
  obtain rfl : 8 = pkey := Option.some.inj hpkey
  have hread : (some [2, 7] : Option Bytes) = some [2, 8] := hpair.privateHalf
  exact absurd hread (by decide)

end Call

end WsServer.Crypto
