import WsServer.Foundations.Runs

/-!
# The stream buffer of `pstream.hpp`

`PipeBuf` is `BasicPipeBuf<char>` with what it inherits from `std::basic_streambuf`: a put area,
from `pbase` to `pptr`, and a get area, from `gptr` to `egptr`. The inherited `sputc`, `sgetc` and
`sbumpc` work on these areas and call `overflow` and `underflow` only when there is no room or
nothing left, without a look at the descriptor.

What the system returns from `open`, `read` and `write` is an argument of the call. The buffer never
looks into a byte, so `Byte` is any type; with bytes that know where they are from, the buffer
does the same (`map_step`).
-/

set_option autoImplicit false
set_option relaxedAutoImplicit false

namespace WsServer.Pipe

open Foundations

/-- `std::ios_base::openmode`, the bits that are looked at. -/
structure OpenMode where
  input : Bool
  output : Bool
  deriving DecidableEq

inductive Flags
  | rdonly
  | wronly
  | rdwr
  deriving DecidableEq

/-- The flags for `open`; the value 0 for neither direction is `O_RDONLY`. -/
def OpenMode.flags (mode : OpenMode) : Flags :=
  if mode.input && mode.output then .rdwr
  else if mode.input then .rdonly
  else if mode.output then .wronly
  else .rdonly

/-- `buffer_size_`. -/
abbrev bufferSize : ℕ := 1024

structure PipeBuf (Byte : Type) where
  fd : Option ℕ
  putArea : List Byte
  getArea : List Byte
  deriving DecidableEq

section Calls

variable {Byte : Type}

/-- The constructor. -/
def PipeBuf.new : PipeBuf Byte := { fd := none, putArea := [], getArea := [] }

/-- A buffer that has been opened and not been used yet. -/
def PipeBuf.opened (fd : ℕ) : PipeBuf Byte := { fd := some fd, putArea := [], getArea := [] }

/-- What a call hands over: the bytes that `write` accepted, the byte returned to a reader, and
whether the call succeeded. -/
structure Output (Byte : Type) where
  delivered : List Byte := []
  returned : Option Byte := none
  success : Bool
  deriving DecidableEq

/-- `sync`; `written` is what `write` returns, 0 for all that is not positive. -/
def sync (b : PipeBuf Byte) (written : ℕ) : PipeBuf Byte × Output Byte :=
  if b.fd = none then (b, { success := false })
  else if 0 < b.putArea.length then
    if written = 0 then (b, { success := false })
    else ({ b with putArea := [] }, { delivered := b.putArea.take written, success := true })
  else (b, { success := true })

/-- `overflow` with a character or, for none, with `eof`. -/
def overflow (b : PipeBuf Byte) (ch : Option Byte) (written : ℕ) : PipeBuf Byte × Output Byte :=
  if b.fd = none then (b, { success := false })
  else
    let (b, out) := sync b written
    if out.success then ({ b with putArea := b.putArea ++ ch.toList }, out) else (b, out)

/-- `sputc`. -/
def sputc (b : PipeBuf Byte) (c : Byte) (written : ℕ) : PipeBuf Byte × Output Byte :=
  if b.putArea.length < bufferSize then
    ({ b with putArea := b.putArea ++ [c] }, { success := true })
  else overflow b (some c) written

/-- `underflow`; `bytes` is what `read` delivers, none at the end of the file and on an error. -/
def underflow (b : PipeBuf Byte) (bytes : List Byte) : PipeBuf Byte × Output Byte :=
  if b.fd = none then (b, { success := false })
  else
    match b.getArea with
    | c :: _ => (b, { returned := some c, success := true })
    | [] =>
      match bytes with
      | [] => (b, { success := false })
      | c :: _ => ({ b with getArea := bytes }, { returned := some c, success := true })

/-- `sgetc`. -/
def sgetc (b : PipeBuf Byte) (bytes : List Byte) : PipeBuf Byte × Output Byte :=
  match b.getArea with
  | c :: _ => (b, { returned := some c, success := true })
  | [] => underflow b bytes

/-- `sbumpc`, which moves `gptr` on after the inherited `uflow` has called `underflow`. -/
def sbumpc (b : PipeBuf Byte) (bytes : List Byte) : PipeBuf Byte × Output Byte :=
  match b.getArea with
  | c :: rest => ({ b with getArea := rest }, { returned := some c, success := true })
  | [] =>
    let (b, out) := underflow b bytes
    if out.success then ({ b with getArea := b.getArea.tail }, out) else (b, out)

/-- `close_pipe`. -/
def closePipe (b : PipeBuf Byte) (written : ℕ) : PipeBuf Byte × Output Byte :=
  if b.fd = none then (b, { success := true })
  else
    let (b, out) := sync b written
    ({ b with fd := none }, out)

/-- `open_pipe`; `opens` is what `open` returns for a path and flags, none for -1. -/
def openPipe (b : PipeBuf Byte) (path : String) (mode : OpenMode) (written : ℕ)
    (opens : String → Flags → Option ℕ) : PipeBuf Byte × Output Byte :=
  let (b, out) := closePipe b written
  let fd := opens path mode.flags
  ({ b with fd := fd }, { out with success := fd.isSome })

/-! ### Calls in any order -/

inductive Action (Byte : Type)
  | openPipe (path : String) (mode : OpenMode) (written : ℕ) (opens : String → Flags → Option ℕ)
  | closePipe (written : ℕ)
  | sputc (c : Byte) (written : ℕ)
  | pubsync (written : ℕ)
  | sgetc (bytes : List Byte)
  | sbumpc (bytes : List Byte)

def PipeBuf.step (b : PipeBuf Byte) : Action Byte → PipeBuf Byte × Output Byte
  | .openPipe path mode written opens => openPipe b path mode written opens
  | .closePipe written => closePipe b written
  | .sputc c written => sputc b c written
  | .pubsync written => sync b written
  | .sgetc bytes => sgetc b bytes
  | .sbumpc bytes => sbumpc b bytes

end Calls

/-! ### Bytes of another type -/

section Map

variable {Byte Byte' : Type} (f : Byte → Byte')

def PipeBuf.map (b : PipeBuf Byte) : PipeBuf Byte' :=
  { fd := b.fd, putArea := b.putArea.map f, getArea := b.getArea.map f }

def Output.map (out : Output Byte) : Output Byte' :=
  { delivered := out.delivered.map f, returned := out.returned.map f, success := out.success }

def Action.map : Action Byte → Action Byte'
  | .openPipe path mode written opens => .openPipe path mode written opens
  | .closePipe written => .closePipe written
  | .sputc c written => .sputc (f c) written
  | .pubsync written => .pubsync written
  | .sgetc bytes => .sgetc (bytes.map f)
  | .sbumpc bytes => .sbumpc (bytes.map f)

/-- The result of a call on other bytes. -/
def mapResult (r : PipeBuf Byte × Output Byte) : PipeBuf Byte' × Output Byte' :=
  (r.1.map f, r.2.map f)

theorem map_sync (b : PipeBuf Byte) (written : ℕ) :
    sync (b.map f) written = mapResult f (sync b written) := by
  unfold sync
  simp only [PipeBuf.map, List.length_map, apply_ite (mapResult f)]
  simp [mapResult, PipeBuf.map, Output.map, List.map_take]

theorem map_overflow (b : PipeBuf Byte) (ch : Option Byte) (written : ℕ) :
    overflow (b.map f) (ch.map f) written = mapResult f (overflow b ch written) := by
  unfold overflow
  rw [map_sync]
  by_cases hfd : b.fd = none
  · simp [PipeBuf.map, mapResult, Output.map, hfd]
  · cases hout : (sync b written).2.success <;> cases ch <;>
      simp [PipeBuf.map, mapResult, Output.map, hfd, hout]

theorem map_underflow (b : PipeBuf Byte) (bytes : List Byte) :
    underflow (b.map f) (bytes.map f) = mapResult f (underflow b bytes) := by
  obtain ⟨fd, putArea, getArea⟩ := b
  cases fd <;> cases getArea <;> cases bytes <;> rfl

theorem map_closePipe (b : PipeBuf Byte) (written : ℕ) :
    closePipe (b.map f) written = mapResult f (closePipe b written) := by
  unfold closePipe
  rw [map_sync]
  by_cases hfd : b.fd = none
  · simp [PipeBuf.map, mapResult, Output.map, hfd]
  · simp [PipeBuf.map, mapResult, hfd]

/-- The buffer does the same with bytes of another type. -/
theorem map_step (b : PipeBuf Byte) (a : Action Byte) :
    (b.map f).step (a.map f) = mapResult f (b.step a) := by
  cases a with
  | openPipe path mode written opens =>
    simp only [PipeBuf.step, Action.map, openPipe, map_closePipe]
    rfl
  | closePipe written => exact map_closePipe f b written
  | sputc c written =>
    simp only [PipeBuf.step, Action.map, sputc]
    rw [show some (f c) = (some c).map f from rfl, map_overflow]
    by_cases hroom : b.putArea.length < bufferSize
    · simp [PipeBuf.map, mapResult, Output.map, hroom]
    · simp [PipeBuf.map, hroom]
  | pubsync written => exact map_sync f b written
  | sgetc bytes =>
    simp only [PipeBuf.step, Action.map, sgetc, map_underflow]
    cases hget : b.getArea <;> simp [PipeBuf.map, mapResult, Output.map, hget]
  | sbumpc bytes =>
    simp only [PipeBuf.step, Action.map, sbumpc, map_underflow]
    cases hget : b.getArea with
    | cons c rest => simp [PipeBuf.map, mapResult, Output.map, hget]
    | nil =>
      cases hout : (underflow b bytes).2.success <;>
        simp [PipeBuf.map, mapResult, Output.map, hget, hout]

end Map

end WsServer.Pipe
