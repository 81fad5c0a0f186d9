import WsServer.Foundations.FileSystem

/-!
# The data transactions of `datahandler.cpp`

`handleDataSync` and what it calls, over a file system, a websocket and the buffer of the caller.
`Faults` says which steps of one call fail. A call runs in `Io`: it returns or throws, and either
way leaves a state behind.

An output stream keeps what is written until its destructor closes the file; whether the last flush
fails is lost there. The error value of `file_size` is no number of bytes that a vector can have,
and the size of a file is. A message that has not come yet makes `read` throw. The log and the
console are left out, and so are `appendBinaryFile`, `writeToFile` and `sendBinaryToStdout`, which
nothing calls.
-/

set_option autoImplicit false
set_option relaxedAutoImplicit false

namespace WsServer.DataHandler

open Foundations

/-! ### Data -/

/-- `OP`, an `int` that need not be one of the names. -/
inductive OP
  | nop
  | tx
  | rx
  | new
  | cp
  | mv
  | del
  | ap
  | other (code : ℤ)
  deriving DecidableEq

inductive Result
  | success
  | failure
  | pending
  deriving DecidableEq

inductive FileResult
  | success
  | notFound
  | permissionDenied
  | readFailed
  | unknownError
  | openFailure
  | writeFailure
  | pending
  deriving DecidableEq

/-- `DataProcessor` without the buffer, which belongs to the caller. -/
structure DataProcessor where
  target : Path
  dest : Path
  deriving DecidableEq

structure DataTransaction where
  cmd : OP
  data : DataProcessor
  fileResult : FileResult
  status : Result
  deriving DecidableEq

structure Message where
  binary : Bool
  payload : List UInt8
  deriving DecidableEq

/-- One end of a websocket: the messages that have arrived and those that have been sent. -/
structure WebSocket where
  isOpen : Bool
  binary : Bool
  incoming : List Message
  outgoing : List Message
  deriving DecidableEq

/-- What a call works on. `requested` are the sizes the buffer was ever resized to, none for the
error value of `file_size`. -/
structure State where
  fs : FileSystem UInt8
  ws : WebSocket
  buffer : List UInt8
  requested : List (Option ℕ)
  tx : DataTransaction

inductive Exception
  | filesystemError
  | lengthError
  | systemError
  deriving DecidableEq

abbrev Io := EStateM Exception State

/-- The steps of one call that fail. A read or a write that does stops after some bytes, and so does
the flush that closes a file, unnoticed; the system fails a write that the buffer of the stream has
room for in this flush only. A removal leaves some entries. -/
structure Faults where
  status : Bool
  fileSize : Bool
  inputOpen : Bool
  read : Option ℕ
  mkdir : Location → Bool
  outputOpen : Bool
  write : Option ℕ
  close : Option ℕ
  remove : Option (List Location)
  wsRead : Bool
  wsWrite : Bool

/-- No step fails. -/
def noFaults : Faults where
  status := false
  fileSize := false
  inputOpen := false
  read := none
  mkdir := fun _ ↦ false
  outputOpen := false
  write := none
  close := none
  remove := none
  wsRead := false
  wsWrite := false

/-! ### The library -/

def isRegularFile (o : Faults) (p : Path) : Io Bool := do
  let s ← get
  if o.status then throw .filesystemError
  match s.fs.resolve .target p with
  | .error .loop => throw .filesystemError
  | _ => return (s.fs.inode p).isSome

/-- `file_size`; none is the error value. -/
def fileSize (o : Faults) (p : Path) : Io (Option ℕ) := do
  let s ← get
  return if o.fileSize then none else some ((s.fs.read p).getD []).length

/-- A vector of `n` bytes that begins like `buffer`. -/
def resized (n : ℕ) (buffer : List UInt8) : List UInt8 :=
  buffer.take n ++ List.replicate (n - buffer.length) 0

/-- `resize` of the buffer. -/
def resize (size : Option ℕ) : Io Unit := do
  modify fun s ↦ { s with requested := s.requested ++ [size] }
  match size with
  | none => throw .lengthError
  | some n => modify fun s ↦ { s with buffer := resized n s.buffer }

/-- The file system with the directory of `p`, and whether it could be created. -/
def parentCreated (o : Faults) (fs : FileSystem UInt8) (p : Path) : FileSystem UInt8 × Bool :=
  if p.hasParentPath then fs.createDirectories o.mkdir p.parentPath else (fs, true)

/-- `if (p.has_parent_path()) create_directories(p.parent_path())`. -/
def createParent (o : Faults) (p : Path) : Io Unit := do
  let s ← get
  match parentCreated o s.fs p with
  | (fs, true) => set { s with fs := fs }
  | (fs, false) =>
    set { s with fs := fs }
    throw .filesystemError

def removeAll (o : Faults) (p : Path) : Io Bool := do
  let s ← get
  let (fs, removed) := s.fs.removeAll p o.remove
  set { s with fs := fs }
  return removed

/-- `std::ofstream`, once it is open. -/
structure OutputStream where
  inode : ℕ
  pending : List UInt8
  good : Bool
  deriving DecidableEq

/-- The file that a path opens, with the file system then. -/
def opened (o : Faults) (fs : FileSystem UInt8) (truncate : Bool) (p : Path) :
    Option (FileSystem UInt8 × ℕ) :=
  if o.outputOpen then none else fs.openOutput truncate p

/-- The constructor; none when the stream is not open. -/
def openOutput (o : Faults) (truncate : Bool) (p : Path) : Io (Option OutputStream) := do
  let s ← get
  match opened o s.fs truncate p with
  | none => return none
  | some (fs, i) =>
    set { s with fs := fs }
    return some { inode := i, pending := [], good := true }

def OutputStream.write (o : Faults) (file : OutputStream) (bytes : List UInt8) : OutputStream :=
  match o.write with
  | none => { file with pending := file.pending ++ bytes }
  | some k => { file with pending := file.pending ++ bytes.take k, good := false }

/-- What the last flush stores of the pending bytes. -/
def Faults.flushed (o : Faults) (pending : List UInt8) : List UInt8 :=
  match o.close with
  | none => pending
  | some k => pending.take k

/-- The destructor. -/
def OutputStream.close (o : Faults) (file : OutputStream) : Io Unit :=
  modify fun s ↦ { s with fs := s.fs.append file.inode (o.flushed file.pending) }

/-! ### `data_ops` -/

def readBinaryFile (o : Faults) : Io FileResult := do
  let filePath := (← get).tx.data.target
  if !(← isRegularFile o filePath) then return .notFound
  let exactSize ← fileSize o filePath
  resize exactSize
  match exactSize with
  | none => return .openFailure
  | some 0 =>
    modify fun s ↦ { s with buffer := [] }
    return .success
  | some n =>
    if o.inputOpen then return .openFailure
    resize (some n)
    let bytes := ((← get).fs.read filePath).getD []
    match o.read with
    | none =>
      modify fun s ↦ { s with buffer := bytes }
      return .success
    | some k =>
      modify fun s ↦ { s with buffer := bytes.take k ++ s.buffer.drop k }
      return .readFailed

/-- The buffer into the target, at its end when `append`. -/
def writeTarget (o : Faults) (append : Bool) : Io FileResult := do
  let s ← get
  createParent o s.tx.data.target
  match ← openOutput o (!append) s.tx.data.target with
  | none => return .openFailure
  | some outputFile =>
    let outputFile := outputFile.write o s.buffer
    outputFile.close o
    return if outputFile.good then .success else .writeFailure

def writeBinaryFile (o : Faults) : Io FileResult := writeTarget o false

def appendFile (o : Faults) : Io FileResult := writeTarget o true

def moveFile (o : Faults) : Io FileResult := do
  let res ← readBinaryFile o
  if res = .success then
    let s ← get
    createParent o s.tx.data.target
    match ← openOutput o true s.tx.data.dest with
    | none => return .openFailure
    | some destFile =>
      let destFile := destFile.write o s.buffer
      let res := if destFile.good then .success else .writeFailure
      let removed ← removeAll o s.tx.data.target
      -- The destructor runs on both ways out.
      destFile.close o
      if removed then return res else throw .filesystemError
  else return res

def createEmptyFile (o : Faults) (filePath : Path) : Io Bool := do
  createParent o filePath
  match ← openOutput o true filePath with
  | none => return false
  | some file =>
    file.close o
    return true

def sendBinaryToWebSocket (o : Faults) : Io FileResult := do
  if !(← get).ws.isOpen then return .writeFailure
  modify fun s ↦ { s with ws := { s.ws with binary := true } }
  -- The error code is never passed to `write`, which throws instead.
  if o.wsWrite then throw .systemError
  modify fun s ↦
    { s with ws := { s.ws with outgoing := s.ws.outgoing ++ [⟨s.ws.binary, s.buffer⟩] } }
  return .success

def readBinaryFromWebSocket (o : Faults) : Io FileResult := do
  if !(← get).ws.isOpen then return .readFailed
  modify fun s ↦ { s with ws := { s.ws with binary := true } }
  if o.wsRead then throw .systemError
  match (← get).ws.incoming with
  | [] => throw .systemError
  | message :: incoming =>
    modify fun s ↦ { s with ws := { s.ws with incoming := incoming } }
    resize (some message.payload.length)
    modify fun s ↦ { s with buffer := message.payload }
    return .success

/-! ### `handleDataSync` -/

def setFileResult (fileResult : FileResult) : Io Unit :=
  modify fun s ↦ { s with tx := { s.tx with fileResult := fileResult } }

def setStatus (status : Result) : Io Unit :=
  modify fun s ↦ { s with tx := { s.tx with status := status } }

/-- The status that goes with a file result in all commands that set one. -/
def FileResult.status (fileResult : FileResult) : Result :=
  if fileResult = .success then .success else .failure

def handleDataSync (o : Faults) : Io Unit := do
  match (← get).tx.cmd with
  | .rx =>
    let received ← readBinaryFromWebSocket o
    setFileResult received
    if received = .success then
      let written ← writeBinaryFile o
      setFileResult written
      setStatus written.status
    else setStatus .failure
  | .tx =>
    let read ← readBinaryFile o
    setFileResult read
    if read = .success then
      let sent ← sendBinaryToWebSocket o
      setFileResult sent
    setStatus (← get).tx.fileResult.status
  | .new =>
    let created ← createEmptyFile o (← get).tx.data.target
    setFileResult (if created then .success else .openFailure)
    setStatus (← get).tx.fileResult.status
  | .del =>
    let removed ← removeAll o (← get).tx.data.target
    setStatus (if removed then .success else .failure)
    setFileResult (if (← get).tx.status = .success then .success else .unknownError)
  | .cp =>
    let read ← readBinaryFile o
    setFileResult read
    if read = .success then
      modify fun s ↦
        { s with tx := { s.tx with data := { s.tx.data with target := s.tx.data.dest } } }
      let written ← writeBinaryFile o
      setFileResult written
    setStatus (← get).tx.fileResult.status
  | .mv =>
    let moved ← moveFile o
    setFileResult moved
    setStatus moved.status
  | .ap =>
    -- The status is left as it is.
    let appended ← appendFile o
    setFileResult appended
  | .nop =>
    setFileResult .success
    setStatus .success
  | .other _ => return

end WsServer.DataHandler
