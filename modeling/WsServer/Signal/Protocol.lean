import WsServer.Foundations.Json
import WsServer.Foundations.Lines

/-!
# The signaling messages of `jsonsignalprotocol.hpp`

A peer registers, asks for the other peers and connects to one; the server forwards offers and
answers. An operation overwrites its object: `Operation.apply` does not depend on what the object
held (`apply_eq`).

An offer or answer joins an id, an address and a port with commas and leaves the commas of its parts
as they are. The port can be read off the end, but what is in front of it belongs to the id up to
any one of its commas.
-/

set_option autoImplicit false
set_option relaxedAutoImplicit false

namespace WsServer.Signal

open Foundations

abbrev Text : Type := List UInt8

/-- The bytes of an ASCII literal. -/
def text (literal : String) : Text := literal.toList.map Char.toUInt8

/-- `std::to_string`. -/
def toText (n : ℕ) : Text := (Nat.toDigits 10 n).map Char.toUInt8

/-- The separator. -/
def comma : UInt8 := 44

inductive Sig
  | register
  | peerList
  | connect
  | offer
  | answer
  deriving DecidableEq

structure JsonSignalProtocol where
  signal : Sig
  type : Text
  sdp : Text
  deriving DecidableEq

/-- `from + "," + addr + "," + std::to_string(port)`. -/
def endpoint (sender addr : Text) (port : UInt16) : Text :=
  sender ++ [comma] ++ addr ++ [comma] ++ toText port.toNat

namespace JsonSignalProtocol

def registerPeer (_self : JsonSignalProtocol) (peerId : Text) : JsonSignalProtocol where
  signal := .register
  type := text "register"
  sdp := peerId

def peerList (_self : JsonSignalProtocol) : JsonSignalProtocol where
  signal := .peerList
  type := text "peer_list"
  sdp := []

def connect (_self : JsonSignalProtocol) (target : Text) : JsonSignalProtocol where
  signal := .connect
  type := text "connect"
  sdp := target

def offer (_self : JsonSignalProtocol) (sender addr : Text) (port : UInt16) :
    JsonSignalProtocol where
  signal := .offer
  type := text "offer"
  sdp := endpoint sender addr port

def answer (_self : JsonSignalProtocol) (sender addr : Text) (port : UInt16) :
    JsonSignalProtocol where
  signal := .answer
  type := text "answer"
  sdp := endpoint sender addr port

end JsonSignalProtocol

/-- The operations with their arguments. -/
inductive Operation
  | registerPeer (peerId : Text)
  | peerList
  | connect (target : Text)
  | offer (sender addr : Text) (port : UInt16)
  | answer (sender addr : Text) (port : UInt16)
  deriving DecidableEq

namespace Operation

def apply (held : JsonSignalProtocol) : Operation → JsonSignalProtocol
  | registerPeer peerId => held.registerPeer peerId
  | peerList => held.peerList
  | connect target => held.connect target
  | offer sender addr port => held.offer sender addr port
  | answer sender addr port => held.answer sender addr port

/-- `op'` is `op` with the part of the address up to one of its commas moved to the id. -/
inductive Shifts : Operation → Operation → Prop
  | offer {sender moved addr : Text} {port : UInt16} :
      Shifts (offer sender (moved ++ comma :: addr) port)
        (offer (sender ++ comma :: moved) addr port)
  | answer {sender moved addr : Text} {port : UInt16} :
      Shifts (answer sender (moved ++ comma :: addr) port)
        (answer (sender ++ comma :: moved) addr port)

/-- What an operation makes of an object does not depend on the object. -/
theorem apply_eq (op : Operation) (held held' : JsonSignalProtocol) :
    op.apply held = op.apply held' := by
  cases op <;> rfl

theorem Shifts.ne {op op' : Operation} (hshift : op.Shifts op') : op ≠ op' := by
  cases hshift <;> simp

end Operation

/-! ### The parts of an offer or answer -/

/-- A digit is one byte. -/
theorem toNat_toUInt8 {c : Char} (hc : c.isDigit = true) : c.toUInt8.toNat = c.toNat := by
  have hdigit : 48 ≤ c.toNat ∧ c.toNat ≤ 57 := Char.isDigit_iff_toNat.mp hc
  show c.val.toUInt8.toNat = c.val.toNat
  rw [UInt32.toNat_toUInt8, Nat.mod_eq_of_lt]
  rw [Char.toNat_val]
  omega

theorem comma_not_mem_toText (n : ℕ) : comma ∉ toText n := by
  intro hmem
  obtain ⟨c, hc, hcomma⟩ := List.mem_map.mp hmem
  have hdigit := Json.isDigit_of_mem_toDigits hc
  have hnat : c.toNat = 44 := by rw [← toNat_toUInt8 hdigit, hcomma]; rfl
  have hlow : 48 ≤ c.toNat := (Char.isDigit_iff_toNat.mp hdigit).1
  omega

theorem toText_injective : Function.Injective toText := by
  have hback : ∀ n, (toText n).map (fun b ↦ Char.ofNat b.toNat) = Nat.toDigits 10 n := by
    intro n
    rw [toText, List.map_map, List.map_congr_left, List.map_id]
    intro c hc
    show Char.ofNat c.toUInt8.toNat = c
    rw [toNat_toUInt8 (Json.isDigit_of_mem_toDigits hc), Char.ofNat_toNat]
  intro n n' htext
  have hdigits : Nat.toDigits 10 n = Nat.toDigits 10 n' := by rw [← hback n, htext, hback]
  rw [← Nat.ofDigitChars_ten_toDigits (n := n), hdigits, Nat.ofDigitChars_ten_toDigits]

theorem endpoint_eq (sender addr : Text) (port : UInt16) :
    endpoint sender addr port = (sender ++ comma :: addr) ++ comma :: toText port.toNat := by
  simp [endpoint]

theorem endpoint_eq_iff {sender addr sender' addr' : Text} {port port' : UInt16} :
    endpoint sender addr port = endpoint sender' addr' port' ↔
      sender ++ comma :: addr = sender' ++ comma :: addr' ∧ port = port' := by
  rw [endpoint_eq, endpoint_eq,
    Lines.append_stop_inj (comma_not_mem_toText _) (comma_not_mem_toText _),
    toText_injective.eq_iff, UInt16.toNat_inj]

/-- The text of an offer or answer belongs to no other id, address and port exactly when neither the
id nor the address has a comma. -/
theorem endpoint_determines_iff {sender addr : Text} {port : UInt16} :
    (∀ sender' addr' port', endpoint sender addr port = endpoint sender' addr' port' →
      sender = sender' ∧ addr = addr' ∧ port = port') ↔ comma ∉ sender ∧ comma ∉ addr := by
  constructor
  · intro hall
    constructor
    · intro hmem
      obtain ⟨first, moved, rfl⟩ := List.append_of_mem hmem
      have heq := hall first (moved ++ comma :: addr) port (endpoint_eq_iff.mpr ⟨by simp, rfl⟩)
      simp at heq
    · intro hmem
      obtain ⟨moved, last, rfl⟩ := List.append_of_mem hmem
      have heq := hall (sender ++ comma :: moved) last port (endpoint_eq_iff.mpr ⟨by simp, rfl⟩)
      simp at heq
  · rintro ⟨hsender, haddr⟩ sender' addr' port' htext
    obtain ⟨hfront, hport⟩ := endpoint_eq_iff.mp htext
    rcases Lines.append_stop_eq_iff.mp hfront with ⟨hs, ha⟩ | ⟨moved, rfl, -⟩ | ⟨moved, -, rfl⟩
    · exact ⟨hs, ha, hport⟩
    · simp at haddr
    · simp at hsender

/-! ### Messages -/

section Messages

variable {sender addr sender' addr' : Text} {port port' : UInt16} {held held' : JsonSignalProtocol}

/-- Two triples have one text when they are equal or a part of an address has been moved. -/
theorem endpoint_eq_cases (htext : endpoint sender addr port = endpoint sender' addr' port') :
    port = port' ∧ ((sender = sender' ∧ addr = addr') ∨
      (∃ moved, addr = moved ++ comma :: addr' ∧ sender' = sender ++ comma :: moved) ∨
      ∃ moved, addr' = moved ++ comma :: addr ∧ sender = sender' ++ comma :: moved) := by
  obtain ⟨hfront, hport⟩ := endpoint_eq_iff.mp htext
  exact ⟨hport, Lines.append_stop_eq_iff.mp hfront⟩

theorem Operation.Shifts.apply_eq {op op' : Operation} (hshift : op.Shifts op') :
    op.apply held = op'.apply held' := by
  have htext : ∀ sender moved addr port, endpoint sender (moved ++ comma :: addr) port =
      endpoint (sender ++ comma :: moved) addr port := fun _ _ _ _ ↦
    endpoint_eq_iff.mpr ⟨by simp, rfl⟩
  cases hshift with
  | offer => exact congrArg (JsonSignalProtocol.mk .offer (text "offer")) (htext _ _ _ _)
  | answer => exact congrArg (JsonSignalProtocol.mk .answer (text "answer")) (htext _ _ _ _)

/-- What two operations with one message have to do with each other. -/
theorem eq_or_shifts {op op' : Operation} (hmessage : op.apply held = op'.apply held') :
    op = op' ∨ op.Shifts op' ∨ op'.Shifts op := by
  have hsignal := congrArg JsonSignalProtocol.signal hmessage
  have hsdp := congrArg JsonSignalProtocol.sdp hmessage
  cases op with
  | registerPeer peerId =>
    cases op' with
    | registerPeer peerId' => exact Or.inl (congrArg Operation.registerPeer hsdp)
    | _ => cases hsignal
  | peerList =>
    cases op' with
    | peerList => exact Or.inl rfl
    | _ => cases hsignal
  | connect target =>
    cases op' with
    | connect target' => exact Or.inl (congrArg Operation.connect hsdp)
    | _ => cases hsignal
  | offer sender addr port =>
    cases op' with
    | offer sender' addr' port' =>
      obtain ⟨rfl, ⟨rfl, rfl⟩ | ⟨moved, rfl, rfl⟩ | ⟨moved, rfl, rfl⟩⟩ := endpoint_eq_cases hsdp
      · exact Or.inl rfl
      · exact Or.inr (Or.inl .offer)
      · exact Or.inr (Or.inr .offer)
    | _ => cases hsignal
  | answer sender addr port =>
    cases op' with
    | answer sender' addr' port' =>
      obtain ⟨rfl, ⟨rfl, rfl⟩ | ⟨moved, rfl, rfl⟩ | ⟨moved, rfl, rfl⟩⟩ := endpoint_eq_cases hsdp
      · exact Or.inl rfl
      · exact Or.inr (Or.inl .answer)
      · exact Or.inr (Or.inr .answer)
    | _ => cases hsignal

/-- Two messages are distinguished exactly when neither operation is the other one with a part of
the address moved to the id; and an endpoint can be recovered from its text exactly when neither
its id nor its address has a comma. -/
theorem unambiguous_iff (op op' : Operation) (held held' : JsonSignalProtocol)
    (sender addr : Text) (port : UInt16) :
    ((op.apply held = op'.apply held' → op = op') ↔ ¬ op.Shifts op' ∧ ¬ op'.Shifts op) ∧
      ((∀ sender' addr' port', endpoint sender addr port = endpoint sender' addr' port' →
        sender = sender' ∧ addr = addr' ∧ port = port') ↔ comma ∉ sender ∧ comma ∉ addr) := by
  refine ⟨?_, endpoint_determines_iff⟩
  constructor
  · intro hdistinct
    constructor
    · exact fun hshift ↦ hshift.ne (hdistinct hshift.apply_eq)
    · exact fun hshift ↦ hshift.ne (hdistinct hshift.apply_eq.symm).symm
  · rintro ⟨hforth, hback⟩ hmessage
    rcases eq_or_shifts hmessage with heq | hshift | hshift
    · exact heq
    · exact absurd hshift hforth
    · exact absurd hshift hback

/-- A peer whose id has a comma makes the receiver read another address. -/
theorem comma_in_id : ¬ ∀ (op op' : Operation) (held held' : JsonSignalProtocol),
    op.apply held = op'.apply held' → op = op' := by
  intro hall
  let held : JsonSignalProtocol := ⟨.register, [], []⟩
  have heq := hall (.offer (text "bob,6.6.6.6") (text "1.2.3.4") 9000)
    (.offer (text "bob") (text "6.6.6.6,1.2.3.4") 9000) held held (by decide)
  exact absurd heq (by decide)

end Messages

end WsServer.Signal
