import WsServer.DataHandler.Model

/-!
# What the functions of `datahandler.cpp` do

One equation for every function, with the state it leaves behind on each way out.
-/

set_option autoImplicit false
set_option relaxedAutoImplicit false

namespace WsServer.DataHandler

open Foundations

/-! ### Runs -/

section Io

variable {α β : Type} (s : State)

@[simp] theorem bind_apply (x : Io α) (f : α → Io β) : (x >>= f) s =
    match x s with
    | .ok a s' => f a s'
    | .error e s' => .error e s' := by
  show EStateM.bind x f s = _
  cases hx : x s <;> simp [EStateM.bind, hx]

@[simp] theorem map_apply (f : α → β) (x : Io α) : (f <$> x) s =
    match x s with
    | .ok a s' => .ok (f a) s'
    | .error e s' => .error e s' := by
  show EStateM.map f x s = _
  cases hx : x s <;> simp [EStateM.map, hx]

@[simp] theorem pure_apply (a : α) : (pure a : Io α) s = .ok a s := rfl

@[simp] theorem get_apply : (get : Io State) s = .ok s s := rfl

@[simp] theorem set_apply (s' : State) : (set s' : Io PUnit) s = .ok ⟨⟩ s' := rfl

@[simp] theorem modify_apply (f : State → State) : (modify f : Io PUnit) s = .ok ⟨⟩ (f s) := rfl

@[simp] theorem throw_apply (e : Exception) : (throw e : Io α) s = .error e s := rfl

@[simp] theorem Io.ite_apply (c : Prop) [Decidable c] (x y : Io α) :
    (if c then x else y) s = if c then x s else y s := by
  split_ifs <;> rfl

end Io

/-- The state that a result leaves behind. -/
def left {α : Type} : EStateM.Result Exception State α → State
  | .ok _ s => s
  | .error _ s => s

/-! ### Files -/

theorem createParent_eq (o : Faults) (p : Path) (s : State) :
    createParent o p s =
      if (parentCreated o s.fs p).2 then .ok () { s with fs := (parentCreated o s.fs p).1 }
      else .error .filesystemError { s with fs := (parentCreated o s.fs p).1 } := by
  rcases hcreated : parentCreated o s.fs p with ⟨fs, _ | _⟩ <;> simp [createParent, hcreated]

theorem parentCreated_extends (o : Faults) (fs : FileSystem UInt8) (p : Path) :
    FileSystem.Extends fs (parentCreated o fs p).1 ∧
      (parentCreated o fs p).1.contents = fs.contents := by
  unfold parentCreated
  split_ifs
  · exact FileSystem.createDirectories_extends fs o.mkdir p.parentPath
  · exact ⟨.refl fs, rfl⟩

/-- Nothing is created on the way to a path that leads somewhere. -/
theorem parentCreated_of_resolve {o : Faults} {fs : FileSystem UInt8} {mode : Lookup} {p : Path}
    {l : Location} (hl : fs.resolve mode p = .ok l) : parentCreated o fs p = (fs, true) := by
  unfold parentCreated
  split_ifs
  · exact FileSystem.createDirectories_parent hl
  · rfl

theorem openOutput_eq (o : Faults) (truncate : Bool) (p : Path) (s : State) :
    openOutput o truncate p s =
      match opened o s.fs truncate p with
      | none => .ok none s
      | some (fs, i) => .ok (some ⟨i, [], true⟩) { s with fs := fs } := by
  rcases hopened : opened o s.fs truncate p with _ | ⟨fs, i⟩ <;> simp [openOutput, hopened]

theorem exists_opened {o : Faults} {truncate : Bool} {p : Path} {fs₀ fs : FileSystem UInt8}
    {i : ℕ} (hopened : opened o fs₀ truncate p = some (fs, i)) :
    ∃ d, FileSystem.Opened fs₀ truncate p fs d i := by
  unfold opened at hopened
  split_ifs at hopened
  exact FileSystem.openOutput_opened hopened

/-- The bytes of `bytes` that are in the file in the end. -/
def Faults.stored (o : Faults) (bytes : List UInt8) : List UInt8 :=
  o.flushed (match o.write with
    | none => bytes
    | some k => bytes.take k)

theorem writeTarget_eq (o : Faults) (append : Bool) (s : State) :
    writeTarget o append s =
      let s' := { s with fs := (parentCreated o s.fs s.tx.data.target).1 }
      if (parentCreated o s.fs s.tx.data.target).2 then
        match opened o s'.fs (!append) s.tx.data.target with
        | none => .ok .openFailure s'
        | some (fs, i) =>
          .ok (if o.write = none then .success else .writeFailure)
            { s with fs := fs.append i (o.stored s.buffer) }
      else .error .filesystemError s' := by
  unfold writeTarget
  simp only [bind_apply, get_apply, createParent_eq]
  by_cases hcreated : (parentCreated o s.fs s.tx.data.target).2
  · simp only [hcreated, if_true, openOutput_eq]
    rcases hopened : opened o (parentCreated o s.fs s.tx.data.target).1 (!append)
      s.tx.data.target with _ | ⟨fs, i⟩
    · simp
    · rcases hwrite : o.write with _ | k <;>
        simp [OutputStream.close, OutputStream.write, hwrite, Faults.stored]
  · simp [hcreated]

/-- A write to the target only changes the files: the directory may be all that is new. -/
theorem writeTarget_left (o : Faults) (append : Bool) (s : State) :
    ∃ fs, left (writeTarget o append s) = { s with fs := fs } ∧
      (fs = (parentCreated o s.fs s.tx.data.target).1 ∨
        ∃ fs' i, opened o (parentCreated o s.fs s.tx.data.target).1 (!append) s.tx.data.target =
          some (fs', i) ∧ fs = fs'.append i (o.stored s.buffer)) := by
  rw [writeTarget_eq]
  by_cases hcreated : (parentCreated o s.fs s.tx.data.target).2 = true
  · simp only [hcreated, if_true]
    rcases hopened : opened o (parentCreated o s.fs s.tx.data.target).1 (!append)
      s.tx.data.target with _ | ⟨fs, i⟩
    · exact ⟨_, rfl, Or.inl rfl⟩
    · exact ⟨_, rfl, Or.inr ⟨fs, i, rfl, rfl⟩⟩
  · simp only [hcreated]
    exact ⟨_, rfl, Or.inl rfl⟩

theorem fileSize_eq (o : Faults) (p : Path) (s : State) : fileSize o p s =
    .ok (if o.fileSize then none else some ((s.fs.read p).getD []).length) s := rfl

theorem resize_some (n : ℕ) (s : State) : resize (some n) s =
    .ok () { s with
      buffer := resized n s.buffer
      requested := s.requested ++ [some n] } := rfl

theorem resize_none (s : State) : resize none s =
    .error .lengthError { s with requested := s.requested ++ [none] } := rfl

/-- No step of `readBinaryFile` fails on a file with these bytes. -/
def Faults.Reads (o : Faults) (bytes : List UInt8) : Prop :=
  o.status = false ∧ o.fileSize = false ∧ (bytes = [] ∨ o.inputOpen = false ∧ o.read = none)

theorem isRegularFile_file {o : Faults} {p : Path} {s : State} {i : ℕ}
    (hi : s.fs.inode p = some i) :
    isRegularFile o p s = if o.status then .error .filesystemError s else .ok true s := by
  obtain ⟨l, hl, -⟩ := FileSystem.inode_eq_some_iff.mp hi
  cases hstatus : o.status <;> simp [isRegularFile, hstatus, hl, hi]

theorem isRegularFile_none {o : Faults} {p : Path} {s : State} (hp : s.fs.inode p = none) :
    isRegularFile o p s =
      if o.status = true ∨ s.fs.resolve .target p = .error .loop then .error .filesystemError s
      else .ok false s := by
  cases hstatus : o.status
  · rcases hresolve : s.fs.resolve .target p with (_ | _ | _) | l <;>
      simp [isRegularFile, hstatus, hresolve, hp]
  · simp [isRegularFile, hstatus]

/-- `readBinaryFile` on what is no file. -/
theorem readBinaryFile_none {o : Faults} {s : State} (hread : s.fs.read s.tx.data.target = none) :
    readBinaryFile o s =
      if o.status = true ∨ s.fs.resolve .target s.tx.data.target = .error .loop then
        .error .filesystemError s
      else .ok .notFound s := by
  have hregular := isRegularFile_none (o := o) (Option.map_eq_none_iff.mp hread)
  unfold readBinaryFile
  simp only [bind_apply, get_apply, hregular]
  split_ifs <;> simp

/-- `readBinaryFile` on a file. -/
theorem readBinaryFile_file {o : Faults} {s : State} {bytes : List UInt8}
    (hread : s.fs.read s.tx.data.target = some bytes) : readBinaryFile o s =
      if o.status then .error .filesystemError s
      else if o.fileSize then .error .lengthError { s with requested := s.requested ++ [none] }
      else
        let n := bytes.length
        if n = 0 then .ok .success { s with buffer := [], requested := s.requested ++ [some n] }
        else if o.inputOpen then
          .ok .openFailure
            { s with buffer := resized n s.buffer, requested := s.requested ++ [some n] }
        else
          let requested := s.requested ++ [some n] ++ [some n]
          match o.read with
          | none => .ok .success { s with buffer := bytes, requested := requested }
          | some k =>
            .ok .readFailed
              { s with
                buffer := bytes.take k ++ (resized n (resized n s.buffer)).drop k
                requested := requested } := by
  obtain ⟨i, hi, -⟩ := FileSystem.read_eq_some_iff.mp hread
  unfold readBinaryFile
  simp only [bind_apply, get_apply, isRegularFile_file hi]
  cases hstatus : o.status
  · cases hsize : o.fileSize
    · rcases bytes with _ | ⟨b, bytes⟩
      · simp [fileSize_eq, hsize, resize_some, hread]
      · cases hopen : o.inputOpen
        · rcases hstop : o.read with _ | k <;>
            simp [fileSize_eq, hsize, resize_some, hread]
        · simp [fileSize_eq, hsize, resize_some, hread]
    · simp [fileSize_eq, hsize, resize_none]
  · simp

/-- What `readBinaryFile` does to the state: it keeps everything but the buffer. It succeeds exactly
when the target is a file and no step fails, with the bytes of the file in the buffer. -/
theorem readBinaryFile_cases (o : Faults) (s : State) : ∃ buffer requested,
    let s' := { s with buffer := buffer, requested := requested }
    (readBinaryFile o s = .ok .success s' ∧ s.fs.read s.tx.data.target = some buffer ∧
        o.Reads buffer) ∨
      ((∀ bytes, s.fs.read s.tx.data.target = some bytes → ¬ o.Reads bytes) ∧
        ((∃ e, readBinaryFile o s = .error e s') ∨
          ∃ r, readBinaryFile o s = .ok r s' ∧ r ≠ .success ∧ r ≠ .pending)) := by
  rcases hread : s.fs.read s.tx.data.target with _ | bytes
  · refine ⟨s.buffer, s.requested, Or.inr ⟨fun bytes hbytes ↦ by simp at hbytes, ?_⟩⟩
    rw [readBinaryFile_none hread]
    split_ifs
    · exact Or.inl ⟨.filesystemError, rfl⟩
    · exact Or.inr ⟨.notFound, rfl, by simp, by simp⟩
  rw [readBinaryFile_file hread]
  simp only [Option.some.injEq, forall_eq', Faults.Reads]
  cases hstatus : o.status
  · cases hsize : o.fileSize
    · rcases bytes with _ | ⟨b, bytes⟩
      · exact ⟨[], _, Or.inl ⟨rfl, rfl, rfl, rfl, Or.inl rfl⟩⟩
      cases hopen : o.inputOpen
      · rcases hstop : o.read with _ | k
        · exact ⟨b :: bytes, _, Or.inl ⟨rfl, rfl, rfl, rfl, Or.inr ⟨rfl, rfl⟩⟩⟩
        · exact ⟨_, _, Or.inr ⟨by simp, Or.inr ⟨.readFailed, rfl, by simp, by simp⟩⟩⟩
      · exact ⟨_, _, Or.inr ⟨by simp, Or.inr ⟨.openFailure, rfl, by simp, by simp⟩⟩⟩
    · exact ⟨s.buffer, _, Or.inr ⟨by simp, Or.inl ⟨.lengthError, rfl⟩⟩⟩
  · exact ⟨s.buffer, s.requested, Or.inr ⟨by simp, Or.inl ⟨.filesystemError, rfl⟩⟩⟩

/-- A file that can be read is in the buffer afterwards. -/
theorem readBinaryFile_of_reads {o : Faults} {s : State} {bytes : List UInt8}
    (hread : s.fs.read s.tx.data.target = some bytes) (hreads : o.Reads bytes) :
    ∃ requested, readBinaryFile o s =
      .ok .success { s with buffer := bytes, requested := requested } := by
  obtain ⟨buffer, requested, h⟩ := readBinaryFile_cases o s
  rcases h with ⟨hrun, hbuffer, -⟩ | ⟨hnot, -⟩
  · obtain rfl : bytes = buffer := by simpa [hread] using hbuffer
    exact ⟨requested, hrun⟩
  · exact absurd hreads (hnot bytes hread)

theorem moveFile_eq (o : Faults) (s : State) : moveFile o s =
    match readBinaryFile o s with
    | .error e s' => .error e s'
    | .ok res s' =>
      if res = .success then
        let created := parentCreated o s'.fs s'.tx.data.target
        if created.2 then
          match opened o created.1 true s'.tx.data.dest with
          | none => .ok .openFailure { s' with fs := created.1 }
          | some (fs, i) =>
            let removed := fs.removeAll s'.tx.data.target o.remove
            let s'' := { s' with fs := removed.1.append i (o.stored s'.buffer) }
            if removed.2 then .ok (if o.write = none then .success else .writeFailure) s''
            else .error .filesystemError s''
        else .error .filesystemError { s' with fs := created.1 }
      else .ok res s' := by
  unfold moveFile
  rcases hread : readBinaryFile o s with ⟨res, s'⟩ | ⟨e, s'⟩
  · simp only [bind_apply, hread, Io.ite_apply, get_apply, createParent_eq]
    by_cases hres : res = .success
    · rw [if_pos hres, if_pos hres]
      by_cases hcreated : (parentCreated o s'.fs s'.tx.data.target).2 = true
      · simp only [hcreated, if_true, openOutput_eq]
        rcases hopened : opened o (parentCreated o s'.fs s'.tx.data.target).1 true
          s'.tx.data.dest with _ | ⟨fs, i⟩
        · simp
        · rcases hremoved : fs.removeAll s'.tx.data.target o.remove with ⟨fs', _ | _⟩ <;>
            rcases hwrite : o.write with _ | k <;>
            simp [OutputStream.close, OutputStream.write, hwrite, Faults.stored, removeAll,
              hremoved]
      · simp [hcreated]
    · rw [if_neg hres, if_neg hres]
      rfl
  · simp [hread]

theorem createEmptyFile_eq (o : Faults) (p : Path) (s : State) : createEmptyFile o p s =
    let created := parentCreated o s.fs p
    if created.2 then
      match opened o created.1 true p with
      | none => .ok false { s with fs := created.1 }
      | some (fs, i) => .ok true { s with fs := fs.append i (o.flushed []) }
    else .error .filesystemError { s with fs := created.1 } := by
  unfold createEmptyFile
  simp only [bind_apply, createParent_eq]
  by_cases hcreated : (parentCreated o s.fs p).2
  · simp only [hcreated, if_true, openOutput_eq]
    rcases hopened : opened o (parentCreated o s.fs p).1 true p with _ | ⟨fs, i⟩ <;>
      simp [OutputStream.close]
  · simp [hcreated]

/-! ### The websocket -/

theorem sendBinaryToWebSocket_eq (o : Faults) (s : State) : sendBinaryToWebSocket o s =
    let ws := { s.ws with binary := true }
    if s.ws.isOpen = false then .ok .writeFailure s
    else if o.wsWrite then .error .systemError { s with ws := ws }
    else
      .ok .success
        { s with ws := { ws with outgoing := s.ws.outgoing ++ [⟨true, s.buffer⟩] } } := by
  cases hopen : s.ws.isOpen <;> cases hfails : o.wsWrite <;>
    simp [sendBinaryToWebSocket, hopen, hfails]

theorem readBinaryFromWebSocket_eq (o : Faults) (s : State) : readBinaryFromWebSocket o s =
    let ws := { s.ws with binary := true }
    if s.ws.isOpen = false then .ok .readFailed s
    else if o.wsRead then .error .systemError { s with ws := ws }
    else
      match s.ws.incoming with
      | [] => .error .systemError { s with ws := ws }
      | message :: incoming =>
        .ok .success
          { s with
            ws := { ws with incoming := incoming }
            buffer := message.payload
            requested := s.requested ++ [some message.payload.length] } := by
  cases hopen : s.ws.isOpen <;> cases hfails : o.wsRead <;>
    rcases hincoming : s.ws.incoming with _ | ⟨message, incoming⟩ <;>
    simp [readBinaryFromWebSocket, hopen, hfails, hincoming, resize_some]

/-! ### The commands -/

/-- The state with this verdict. -/
def State.judged (s : State) (fileResult : FileResult) (status : Result) : State :=
  { s with tx := { s.tx with fileResult := fileResult, status := status } }

@[simp] theorem State.judged_fs (s : State) (r : FileResult) (status : Result) :
    (s.judged r status).fs = s.fs := rfl

@[simp] theorem State.judged_data (s : State) (r : FileResult) (status : Result) :
    (s.judged r status).tx.data = s.tx.data := rfl

@[simp] theorem State.judged_status (s : State) (r : FileResult) (status : Result) :
    (s.judged r status).tx.status = status := rfl

/-- The state that a call leaves behind, whether it returns or throws. -/
def after (o : Faults) (s : State) : State :=
  match handleDataSync o s with
  | .ok _ s' => s'
  | .error _ s' => s'

theorem after_eq_left (o : Faults) (s : State) : after o s = left (handleDataSync o s) := by
  rcases hrun : handleDataSync o s with ⟨u, s'⟩ | ⟨e, s'⟩ <;> simp [after, left, hrun]

/-- The verdict on the result of a function. -/
def judge (x : EStateM.Result Exception State FileResult) : EStateM.Result Exception State Unit :=
  match x with
  | .ok r s => .ok () (s.judged r r.status)
  | .error e s => .error e s

@[simp] theorem left_judge (x : EStateM.Result Exception State FileResult) :
    (left (judge x)).fs = (left x).fs := by
  cases x <;> rfl

/-- What follows a function that succeeds. -/
def onSuccess (x : EStateM.Result Exception State FileResult)
    (f : State → EStateM.Result Exception State FileResult) :
    EStateM.Result Exception State FileResult :=
  match x with
  | .ok r s => if r = .success then f (s.judged r s.tx.status) else .ok r s
  | .error e s => .error e s

/-- A copy goes on as a write to its destination. -/
def State.redirected (s : State) : State :=
  { s with tx := { s.tx with data := { s.tx.data with target := s.tx.data.dest } } }

section Commands

variable {o : Faults} {s : State}

theorem handleDataSync_rx (hcmd : s.tx.cmd = .rx) : handleDataSync o s =
    judge (onSuccess (readBinaryFromWebSocket o s) (writeBinaryFile o)) := by
  rcases hread : readBinaryFromWebSocket o s with ⟨r, s'⟩ | ⟨e, s'⟩
  · by_cases hr : r = .success
    · rcases hwrite : writeBinaryFile o (s'.judged r s'.tx.status) with ⟨w, s''⟩ | ⟨e, s''⟩ <;>
        simp_all [handleDataSync, setFileResult, setStatus, State.judged, judge, onSuccess]
    · simp [handleDataSync, hcmd, hread, hr, setFileResult, setStatus, State.judged, judge,
        onSuccess, FileResult.status]
  · simp [handleDataSync, hcmd, hread, judge, onSuccess]

theorem handleDataSync_tx (hcmd : s.tx.cmd = .tx) : handleDataSync o s =
    judge (onSuccess (readBinaryFile o s) (sendBinaryToWebSocket o)) := by
  rcases hread : readBinaryFile o s with ⟨r, s'⟩ | ⟨e, s'⟩
  · by_cases hr : r = .success
    · rcases hsend : sendBinaryToWebSocket o (s'.judged r s'.tx.status) with ⟨w, s''⟩ | ⟨e, s''⟩ <;>
        simp_all [handleDataSync, setFileResult, setStatus, State.judged, judge, onSuccess]
    · simp [handleDataSync, hcmd, hread, hr, setFileResult, setStatus, State.judged, judge,
        onSuccess]
  · simp [handleDataSync, hcmd, hread, judge, onSuccess]

theorem handleDataSync_new (hcmd : s.tx.cmd = .new) : handleDataSync o s =
    match createEmptyFile o s.tx.data.target s with
    | .ok created s' => judge (.ok (if created then .success else .openFailure) s')
    | .error e s' => .error e s' := by
  rcases hcreate : createEmptyFile o s.tx.data.target s with ⟨created, s'⟩ | ⟨e, s'⟩ <;>
    simp [handleDataSync, hcmd, hcreate, setFileResult, setStatus, State.judged, judge]

theorem handleDataSync_del (hcmd : s.tx.cmd = .del) : handleDataSync o s =
    let removed := s.fs.removeAll s.tx.data.target o.remove
    judge (.ok (if removed.2 then .success else .unknownError) { s with fs := removed.1 }) := by
  rcases hremoved : s.fs.removeAll s.tx.data.target o.remove with ⟨fs, _ | _⟩ <;>
    simp [handleDataSync, hcmd, removeAll, hremoved, setFileResult, setStatus, State.judged, judge,
      FileResult.status]

theorem handleDataSync_cp (hcmd : s.tx.cmd = .cp) : handleDataSync o s =
    judge (onSuccess (readBinaryFile o s) fun s' ↦ writeBinaryFile o s'.redirected) := by
  rcases hread : readBinaryFile o s with ⟨r, s'⟩ | ⟨e, s'⟩
  · by_cases hr : r = .success
    · rcases hwrite : writeBinaryFile o (s'.judged r s'.tx.status).redirected
        with ⟨w, s''⟩ | ⟨e, s''⟩ <;>
        simp_all [handleDataSync, setFileResult, setStatus, State.judged, judge, onSuccess,
          State.redirected]
    · simp [handleDataSync, hcmd, hread, hr, setFileResult, setStatus, State.judged, judge,
        onSuccess]
  · simp [handleDataSync, hcmd, hread, judge, onSuccess]

theorem handleDataSync_mv (hcmd : s.tx.cmd = .mv) :
    handleDataSync o s = judge (moveFile o s) := by
  rcases hmove : moveFile o s with ⟨r, s'⟩ | ⟨e, s'⟩ <;>
    simp [handleDataSync, hcmd, hmove, setFileResult, setStatus, State.judged, judge]

theorem handleDataSync_ap (hcmd : s.tx.cmd = .ap) : handleDataSync o s =
    match appendFile o s with
    | .ok r s' => .ok () (s'.judged r s'.tx.status)
    | .error e s' => .error e s' := by
  rcases happend : appendFile o s with ⟨r, s'⟩ | ⟨e, s'⟩ <;>
    simp [handleDataSync, hcmd, happend, setFileResult, State.judged]

theorem handleDataSync_nop (hcmd : s.tx.cmd = .nop) :
    handleDataSync o s = .ok () (s.judged .success .success) := by
  simp [handleDataSync, hcmd, setFileResult, setStatus, State.judged]

theorem handleDataSync_other {code : ℤ} (hcmd : s.tx.cmd = .other code) :
    handleDataSync o s = .ok () s := by
  simp [handleDataSync, hcmd]

end Commands

end WsServer.DataHandler
