import Mathlib.Data.Nat.Notation

/-!
# TLS policies of `cryptcert.hpp`

A policy works on an `ssl::context` and on the error code that is handed to it. What the calls of
the TLS library do is a parameter: a call with an error code sets it, to success when it succeeds;
a call without one throws.
-/

set_option autoImplicit false
set_option relaxedAutoImplicit false

namespace WsServer.Tls

section Builder

variable {Context Error : Type}

/-- A `boost::system::error_code`, `none` when it is success. -/
abbrev ErrorCode (Error : Type) : Type := Option Error

/-- `Policy::apply`: it throws, or leaves a context and an error code. -/
abbrev Policy (Context Error : Type) : Type :=
  Context → ErrorCode Error → Except Error (Context × ErrorCode Error)

/-- `ComposePolicies::apply`, the fold over the comma operator. -/
def composePolicies (ps : List (Policy Context Error)) : Policy Context Error :=
  fun ctx ec ↦ ps.foldlM (fun s p ↦ p s.1 s.2) (ctx, ec)

/-- The class `TlsBuilder` with its member `ctx_`. -/
structure TlsBuilder (Context : Type) where
  ctx : Context
  deriving DecidableEq

/-- `TlsBuilder::with<P>`. -/
def TlsBuilder.withPolicy (b : TlsBuilder Context) (p : Policy Context Error) :
    Except Error (TlsBuilder Context) := do
  let (ctx, ec) ← p b.ctx none
  match ec with
  | some e => throw e
  | none => return { ctx := ctx }

/-- `TlsBuilder::with_all<Ps...>`. -/
def TlsBuilder.withAll (b : TlsBuilder Context) (ps : List (Policy Context Error)) :
    Except Error (TlsBuilder Context) := do
  let (ctx, ec) ← composePolicies ps b.ctx none
  match ec with
  | some e => throw e
  | none => return { ctx := ctx }

/-- `TlsBuilder::build`. -/
def TlsBuilder.build (b : TlsBuilder Context) : Context := b.ctx

/-- `with<P1>().with<P2>()...with<Pn>()`. -/
def TlsBuilder.chain (b : TlsBuilder Context) (ps : List (Policy Context Error)) :
    Except Error (TlsBuilder Context) :=
  ps.foldlM TlsBuilder.withPolicy b

end Builder

/-! ### The policies of the header -/

inductive Method
  | tls
  | tlsClient
  | tlsServer
  deriving DecidableEq

inductive VerifyMode
  | verifyNone
  | verifyPeer
  deriving DecidableEq

inductive ContextOption
  | defaultWorkarounds
  | noSslv2
  | singleDhUse
  deriving DecidableEq

/-- The texts embedded in the header. -/
inductive Pem
  | rootCert
  | serverCert
  | serverKey
  | serverDh
  deriving DecidableEq

/-- The members of `ssl::context` that the policies call. -/
structure Library (Context Error : Type) where
  context : Method → Context
  setVerifyMode : VerifyMode → Context → Context × ErrorCode Error
  setDefaultVerifyPaths : Context → Context × ErrorCode Error
  addCertificateAuthority : Pem → Context → Context × ErrorCode Error
  /-- The callback returns the same password for every purpose. -/
  setPasswordCallback : String → Context → Except Error Context
  setOptions : List ContextOption → Context → Except Error Context
  useCertificateChain : Pem → Context → Except Error Context
  /-- With the file format `pem`. -/
  usePrivateKey : Pem → Context → Except Error Context
  useTmpDh : Pem → Context → Except Error Context

section Policies

variable {Context Error : Type} (lib : Library Context Error)

def verifyPeer : Policy Context Error :=
  fun ctx _ ↦ return lib.setVerifyMode .verifyPeer ctx

def noVerify : Policy Context Error :=
  fun ctx _ ↦ return lib.setVerifyMode .verifyNone ctx

def systemTrustStore : Policy Context Error :=
  fun ctx _ ↦ return lib.setDefaultVerifyPaths ctx

def embeddedRootCert : Policy Context Error :=
  fun ctx _ ↦ return lib.addCertificateAuthority .rootCert ctx

def serverIdentity : Policy Context Error := fun ctx ec ↦ do
  let ctx ← lib.setPasswordCallback "test" ctx
  let ctx ← lib.setOptions [.defaultWorkarounds, .noSslv2, .singleDhUse] ctx
  let ctx ← lib.useCertificateChain .serverCert ctx
  let ctx ← lib.usePrivateKey .serverKey ctx
  let ctx ← lib.useTmpDh .serverDh ctx
  return (ctx, ec)

def defaultOptions : Policy Context Error := fun ctx ec ↦ do
  let ctx ← lib.setOptions [.defaultWorkarounds, .noSslv2, .singleDhUse] ctx
  return (ctx, ec)

/-- `DhParams`, whose text is that of `ServerIdentity`. -/
def dhParams : Policy Context Error := fun ctx ec ↦ do
  let ctx ← lib.useTmpDh .serverDh ctx
  return (ctx, ec)

def secureClient : Policy Context Error :=
  composePolicies [verifyPeer lib, systemTrustStore lib]

def secureServer : Policy Context Error :=
  composePolicies [defaultOptions lib, serverIdentity lib, dhParams lib]

/-- The constructor of `TlsBuilder`. -/
def TlsBuilder.new (method : Method) : TlsBuilder Context := { ctx := lib.context method }

end Policies

end WsServer.Tls
