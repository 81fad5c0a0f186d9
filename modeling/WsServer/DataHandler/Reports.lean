import WsServer.DataHandler.Footprint
import WsServer.DataHandler.Verdicts

/-!
# Which failures are reported

A transaction reports a failure by a file result and the status `FAILURE`. Some failures make it
throw instead: the buffer takes the size of the target before the error code of the query is looked
at, and neither `read` nor `write` of the websocket is given one. The bytes that the last flush of
a file loses are noticed by nobody. `reported_iff` says for which failing steps a transaction
reports all the same.
-/

set_option autoImplicit false
set_option relaxedAutoImplicit false

namespace WsServer.DataHandler

open Foundations

/-! ### What is promised -/

/-- The query of the size, the opening or the reading of the target fails. -/
def SourceFails (o : Faults) (s : State) : Prop :=
  o.status = false ∧ ∃ bytes, s.fs.read s.tx.data.target = some bytes ∧ ¬ o.Reads bytes

/-- The file does not open, or these bytes do not all get there. -/
def WriteFails (o : Faults) (fs : FileSystem UInt8) (p : Path) (bytes : List UInt8) : Prop :=
  opened o fs true p = none ∨ o.write ≠ none ∨ o.flushed bytes ≠ bytes

/-- A step that the transaction comes to fails, of the query of the file size, the opening, reading
and writing of files, and the reading and writing of the websocket. -/
def StepFails (o : Faults) (s : State) : Prop :=
  match s.tx.cmd with
  | .rx =>
    s.ws.isOpen = false ∨ o.wsRead = true ∨ s.ws.incoming = [] ∨
      ∃ message incoming, s.ws.incoming = message :: incoming ∧
        (parentCreated o s.fs s.tx.data.target).2 = true ∧
        WriteFails o (parentCreated o s.fs s.tx.data.target).1 s.tx.data.target message.payload
  | .tx =>
    SourceFails o s ∨ ∃ bytes, s.fs.read s.tx.data.target = some bytes ∧ o.Reads bytes ∧
      (s.ws.isOpen = false ∨ o.wsWrite = true)
  | .cp =>
    SourceFails o s ∨ ∃ bytes, s.fs.read s.tx.data.target = some bytes ∧ o.Reads bytes ∧
      (parentCreated o s.fs s.tx.data.dest).2 = true ∧
      WriteFails o (parentCreated o s.fs s.tx.data.dest).1 s.tx.data.dest bytes
  | .mv =>
    SourceFails o s ∨ ∃ bytes, s.fs.read s.tx.data.target = some bytes ∧ o.Reads bytes ∧
      WriteFails o s.fs s.tx.data.dest bytes
  | .new | .del | .ap | .nop | .other _ => False

/-- The bytes that the file or the message really has. -/
def available (s : State) : ℕ :=
  match s.tx.cmd with
  | .rx => ((s.ws.incoming.head?.map Message.payload).getD []).length
  | _ => ((s.fs.read s.tx.data.target).getD []).length

/-- From `s` on the buffer was only resized to what there is. -/
def Bounded (s s' : State) : Prop :=
  ∃ sizes, s'.requested = s.requested ++ sizes ∧
    ∀ size ∈ sizes, ∃ n, size = some n ∧ n ≤ available s

/-- The call returns, with a failure when a step has failed, and asks for no more than there is. -/
structure Reported (o : Faults) (s : State) : Prop where
  returns : ∃ s', handleDataSync o s = .ok () s'
  failure : ∀ s', handleDataSync o s = .ok () s' → StepFails o s →
    s'.tx.fileResult ≠ .success ∧ s'.tx.fileResult ≠ .pending ∧ s'.tx.status = .failure
  bounded : Bounded s (after o s)

/-! ### When it is kept -/

/-- Neither the query of the type of the target nor that of its size throws. -/
def Queried (o : Faults) (s : State) : Prop :=
  o.status = false ∧ s.fs.resolve .target s.tx.data.target ≠ .error .loop ∧
    (s.fs.inode s.tx.data.target ≠ none → o.fileSize = false)

/-- The last flush loses nothing of these bytes, once they are written. -/
def FlushKeeps (o : Faults) (bytes : List UInt8) : Prop := o.write = none → o.flushed bytes = bytes

/-- The directory of `p` can be created, and the file keeps the bytes once it is open. -/
def WriteReportable (o : Faults) (fs : FileSystem UInt8) (p : Path) (bytes : List UInt8) : Prop :=
  (parentCreated o fs p).2 = true ∧
    (opened o (parentCreated o fs p).1 true p ≠ none → FlushKeeps o bytes)

/-- The steps that are not reported do not fail where the transaction comes to them. -/
def Reportable (o : Faults) (s : State) : Prop :=
  match s.tx.cmd with
  | .rx =>
    s.ws.isOpen = true → o.wsRead = false ∧ ∃ message incoming,
      s.ws.incoming = message :: incoming ∧
        WriteReportable o s.fs s.tx.data.target message.payload
  | .tx =>
    Queried o s ∧ ∀ bytes, s.fs.read s.tx.data.target = some bytes → o.Reads bytes →
      s.ws.isOpen = true → o.wsWrite = false
  | .cp =>
    Queried o s ∧ ∀ bytes, s.fs.read s.tx.data.target = some bytes → o.Reads bytes →
      WriteReportable o s.fs s.tx.data.dest bytes
  | .mv =>
    Queried o s ∧ ∀ bytes, s.fs.read s.tx.data.target = some bytes → o.Reads bytes →
      opened o s.fs true s.tx.data.dest ≠ none → o.remove = none ∧ FlushKeeps o bytes
  | .new | .del | .ap | .nop | .other _ => True

/-! ### Results -/

/-- A result that is there, and no success when a step has failed. -/
def Noticed (failed : Prop) (x : EStateM.Result Exception State FileResult) : Prop :=
  ∃ r s', x = .ok r s' ∧ (failed → r ≠ .success)

section Noticed

variable {failed : Prop} {e : Exception} {r : FileResult} {o : Faults} {s s' : State}

theorem noticed_error : ¬ Noticed failed (.error e s') := by
  rintro ⟨r, s', ⟨⟩, -⟩

theorem noticed_ok_iff : Noticed failed (.ok r s') ↔ (failed → r ≠ .success) := by
  constructor
  · rintro ⟨r, s', ⟨⟩, hr⟩
    exact hr
  · exact fun hr ↦ ⟨r, s', rfl, hr⟩

/-- A verdict on a result reports what the result notices. -/
theorem reported_judge_iff {x : EStateM.Result Exception State FileResult}
    (hrun : handleDataSync o s = judge x) (hdecided : Decided x)
    (hbounded : ∀ r s', x = .ok r s' → Bounded s s') :
    Reported o s ↔ Noticed (StepFails o s) x := by
  cases x with
  | error e s' =>
    refine iff_of_false (fun h ↦ ?_) noticed_error
    obtain ⟨s'', hs''⟩ := h.returns
    rw [hrun] at hs''
    cases hs''
  | ok r s' =>
    have hrun : handleDataSync o s = .ok () (s'.judged r r.status) := hrun
    rw [noticed_ok_iff]
    constructor
    · exact fun h hfails ↦ (h.failure _ hrun hfails).1
    · intro hr
      refine ⟨⟨_, hrun⟩, fun s'' hs'' hfails ↦ ?_, ?_⟩
      · rw [hrun] at hs''
        cases hs''
        exact ⟨hr hfails, hdecided r s' rfl, if_neg (hr hfails)⟩
      · have hafter : after o s = s'.judged r r.status := by simp [after, hrun]
        rw [hafter]
        exact hbounded r s' rfl

end Noticed

/-! ### The steps -/

section Steps

variable {failed : Prop} {o : Faults} {s : State}

theorem readBinaryFile_returns_iff :
    (∃ r s', readBinaryFile o s = .ok r s') ↔ Queried o s := by
  unfold Queried
  rcases hread : s.fs.read s.tx.data.target with _ | bytes
  · have hnone : s.fs.inode s.tx.data.target = none := Option.map_eq_none_iff.mp hread
    rw [readBinaryFile_none hread]
    split_ifs with hthrows
    · simp only [exists_false, false_iff]
      rintro ⟨hstatus, hloop, -⟩
      rcases hthrows with hthrows | hthrows
      · simp [hstatus] at hthrows
      · exact hloop hthrows
    · rw [not_or, Bool.not_eq_true] at hthrows
      exact iff_of_true ⟨_, _, rfl⟩ ⟨hthrows.1, hthrows.2, fun hne ↦ absurd hnone hne⟩
  · obtain ⟨i, hi, -⟩ := FileSystem.read_eq_some_iff.mp hread
    obtain ⟨l, hl, -⟩ := FileSystem.inode_eq_some_iff.mp hi
    rw [readBinaryFile_file hread]
    cases hstatus : o.status
    · cases hsize : o.fileSize
      · refine iff_of_true ?_ ⟨rfl, by simp [hl], fun _ ↦ rfl⟩
        simp only [Bool.false_eq_true, if_false]
        split_ifs
        · exact ⟨_, _, rfl⟩
        · exact ⟨_, _, rfl⟩
        · split
          · exact ⟨_, _, rfl⟩
          · exact ⟨_, _, rfl⟩
      · simp [hi]
    · simp

theorem readBinaryFile_bounded (hcmd : s.tx.cmd ≠ .rx) {r : FileResult} {s' : State}
    (hrun : readBinaryFile o s = .ok r s') : Bounded s s' := by
  have havailable : available s = ((s.fs.read s.tx.data.target).getD []).length := by
    unfold available
    split
    · rename_i hrx
      exact absurd hrx hcmd
    · rfl
  unfold Bounded
  rw [havailable]
  rcases hread : s.fs.read s.tx.data.target with _ | bytes
  · rw [readBinaryFile_none hread] at hrun
    split_ifs at hrun
    cases hrun
    exact ⟨[], by simp⟩
  · rw [readBinaryFile_file hread] at hrun
    dsimp only at hrun
    split_ifs at hrun
    · cases hrun
      exact ⟨[some bytes.length], by simp⟩
    · cases hrun
      exact ⟨[some bytes.length], by simp⟩
    · split at hrun
      · cases hrun
        exact ⟨[some bytes.length, some bytes.length], by simp⟩
      · cases hrun
        exact ⟨[some bytes.length, some bytes.length], by simp⟩

/-- What a command notices that goes on only after the target was read. -/
theorem noticed_read_iff {x : EStateM.Result Exception State FileResult} {P : List UInt8 → Prop}
    (herror : ∀ e s', readBinaryFile o s = .error e s' → x = .error e s')
    (hfails : ∀ r s', readBinaryFile o s = .ok r s' → r ≠ .success → x = .ok r s')
    (hsuccess : ∀ bytes requested,
      readBinaryFile o s = .ok .success { s with buffer := bytes, requested := requested } →
      s.fs.read s.tx.data.target = some bytes → o.Reads bytes → (Noticed failed x ↔ P bytes)) :
    Noticed failed x ↔ Queried o s ∧
      ∀ bytes, s.fs.read s.tx.data.target = some bytes → o.Reads bytes → P bytes := by
  rw [← readBinaryFile_returns_iff]
  obtain ⟨buffer, requested, h⟩ := readBinaryFile_cases o s
  rcases h with ⟨hrun, hread, hreads⟩ | ⟨hnot, ⟨e, hrun⟩ | ⟨r, hrun, hr, -⟩⟩
  · rw [hsuccess buffer requested hrun hread hreads, hrun, hread]
    constructor
    · intro hP
      refine ⟨⟨_, _, rfl⟩, fun bytes hbytes _ ↦ ?_⟩
      obtain rfl : buffer = bytes := by simpa using hbytes
      exact hP
    · exact fun h ↦ h.2 buffer rfl hreads
  · rw [herror e _ hrun, hrun]
    refine iff_of_false noticed_error ?_
    rintro ⟨⟨r, s', hok⟩, -⟩
    cases hok
  · rw [hfails r _ hrun hr, hrun, noticed_ok_iff]
    exact iff_of_true (fun _ ↦ hr)
      ⟨⟨_, _, rfl⟩, fun bytes hbytes hreads ↦ absurd hreads (hnot bytes hbytes)⟩

theorem noticed_onSuccess_iff {f : State → EStateM.Result Exception State FileResult}
    {P : List UInt8 → Prop}
    (hsuccess : ∀ bytes requested, s.fs.read s.tx.data.target = some bytes → o.Reads bytes →
      (Noticed failed (f (State.judged { s with buffer := bytes, requested := requested } .success
        s.tx.status)) ↔ P bytes)) :
    Noticed failed (onSuccess (readBinaryFile o s) f) ↔ Queried o s ∧
      ∀ bytes, s.fs.read s.tx.data.target = some bytes → o.Reads bytes → P bytes := by
  refine noticed_read_iff (fun e s' hrun ↦ ?_) (fun r s' hrun hr ↦ ?_)
    fun bytes requested hrun hread hreads ↦ ?_
  · rw [hrun]
    rfl
  · rw [hrun]
    exact if_neg hr
  · rw [hrun]
    exact hsuccess bytes requested hread hreads

/-- After the target was read only the steps that follow count. -/
theorem sourceFails_or_iff {bytes : List UInt8} {P : List UInt8 → Prop}
    (hread : s.fs.read s.tx.data.target = some bytes) (hreads : o.Reads bytes) :
    (SourceFails o s ∨
      ∃ bytes, s.fs.read s.tx.data.target = some bytes ∧ o.Reads bytes ∧ P bytes) ↔ P bytes := by
  simp [SourceFails, hread, hreads]

theorem noticed_writeBinaryFile_iff
    (hfailed : (parentCreated o s.fs s.tx.data.target).2 = true → (failed ↔
      WriteFails o (parentCreated o s.fs s.tx.data.target).1 s.tx.data.target s.buffer)) :
    Noticed failed (writeBinaryFile o s) ↔
      WriteReportable o s.fs s.tx.data.target s.buffer := by
  unfold WriteReportable
  rw [writeBinaryFile, writeTarget_eq]
  by_cases hcreated : (parentCreated o s.fs s.tx.data.target).2 = true
  · simp only [hcreated, if_true, hfailed hcreated, Bool.not_false, true_and]
    rcases hopened : opened o (parentCreated o s.fs s.tx.data.target).1 true s.tx.data.target
      with _ | ⟨fs, i⟩
    · simp [noticed_ok_iff]
    · by_cases hwrite : o.write = none <;>
        simp [noticed_ok_iff, WriteFails, FlushKeeps, hopened, hwrite]
  · simp [noticed_error, hcreated]

theorem writeTarget_requested (o : Faults) (append : Bool) (s : State) :
    (left (writeTarget o append s)).requested = s.requested := by
  obtain ⟨fs, hleft, -⟩ := writeTarget_left o append s
  rw [hleft]

theorem sendBinaryToWebSocket_requested (o : Faults) (s : State) :
    (left (sendBinaryToWebSocket o s)).requested = s.requested := by
  rw [sendBinaryToWebSocket_eq]
  dsimp only
  split_ifs <;> rfl

/-- Only the first step asks for room in the buffer. -/
theorem onSuccess_bounded {x : EStateM.Result Exception State FileResult}
    {f : State → EStateM.Result Exception State FileResult} {r : FileResult} {s' : State}
    (hx : ∀ r s', x = .ok r s' → Bounded s s') (hf : ∀ s, (left (f s)).requested = s.requested)
    (hrun : onSuccess x f = .ok r s') : Bounded s s' := by
  cases x with
  | error e s₁ => cases hrun
  | ok r₁ s₁ =>
    obtain ⟨sizes, hsizes, hbound⟩ := hx r₁ s₁ rfl
    refine ⟨sizes, ?_, hbound⟩
    rw [← hsizes]
    by_cases hr : r₁ = .success
    · have hf := hf (s₁.judged r₁ s₁.tx.status)
      simp only [onSuccess, if_pos hr] at hrun
      rw [hrun] at hf
      exact hf
    · simp only [onSuccess, if_neg hr] at hrun
      cases hrun
      rfl

theorem readBinaryFromWebSocket_bounded (hcmd : s.tx.cmd = .rx) {r : FileResult} {s' : State}
    (hrun : readBinaryFromWebSocket o s = .ok r s') : Bounded s s' := by
  rw [readBinaryFromWebSocket_eq] at hrun
  dsimp only at hrun
  split_ifs at hrun
  · cases hrun
    exact ⟨[], by simp⟩
  · rcases hincoming : s.ws.incoming with _ | ⟨message, incoming⟩
    · rw [hincoming] at hrun
      cases hrun
    · rw [hincoming] at hrun
      cases hrun
      exact ⟨[some message.payload.length], by simp [available, hcmd, hincoming]⟩

theorem moveFile_requested (o : Faults) (s : State) :
    (left (moveFile o s)).requested = (left (readBinaryFile o s)).requested := by
  rw [moveFile_eq]
  rcases readBinaryFile o s with ⟨r, s'⟩ | ⟨e, s'⟩
  · by_cases hr : r = .success
    · simp only [hr, if_true]
      rcases parentCreated o s'.fs s'.tx.data.target with ⟨fs, _ | _⟩
      · rfl
      · simp only [if_true]
        rcases opened o fs true s'.tx.data.dest with _ | ⟨fs', i⟩
        · rfl
        · dsimp only
          split_ifs <;> rfl
    · simp only [if_neg hr]
  · rfl

theorem moveFile_bounded (hcmd : s.tx.cmd ≠ .rx) {r : FileResult} {s' : State}
    (hrun : moveFile o s = .ok r s') : Bounded s s' := by
  have hrequested := moveFile_requested o s
  rcases hread : readBinaryFile o s with ⟨r₁, s₁⟩ | ⟨e, s₁⟩
  · obtain ⟨sizes, hsizes, hbound⟩ := readBinaryFile_bounded hcmd hread
    refine ⟨sizes, ?_, hbound⟩
    rw [hrun, hread] at hrequested
    exact hrequested.trans hsizes
  · rw [moveFile_eq, hread] at hrun
    cases hrun

end Steps

/-! ### The commands -/

section Commands

variable {o : Faults} {s : State}

theorem reported_receive_iff (hcmd : s.tx.cmd = .rx) : Reported o s ↔ Reportable o s := by
  rw [reported_judge_iff (handleDataSync_rx hcmd)
    ((readBinaryFromWebSocket_decided o s).onSuccess fun s' ↦ writeTarget_decided o false s')
    fun r s' ↦ onSuccess_bounded (fun r s' ↦ readBinaryFromWebSocket_bounded hcmd)
      fun s' ↦ writeTarget_requested o false s']
  rw [readBinaryFromWebSocket_eq]
  cases hopen : s.ws.isOpen
  · simp [onSuccess, noticed_ok_iff, Reportable, hcmd, hopen]
  cases hread : o.wsRead
  · rcases hincoming : s.ws.incoming with _ | ⟨message, incoming⟩
    · simp [onSuccess, noticed_error, Reportable, hcmd, hopen, hincoming]
    · have hfails : StepFails o s ↔ (parentCreated o s.fs s.tx.data.target).2 = true ∧
          WriteFails o (parentCreated o s.fs s.tx.data.target).1 s.tx.data.target
            message.payload := by
        simp [StepFails, hcmd, hopen, hread, hincoming]
      have hreportable : Reportable o s ↔
          WriteReportable o s.fs s.tx.data.target message.payload := by
        simp [Reportable, hcmd, hopen, hread, hincoming]
      rw [hfails, hreportable]
      exact noticed_writeBinaryFile_iff fun hcreated ↦ and_iff_right hcreated
  · simp [onSuccess, noticed_error, Reportable, hcmd, hopen, hread]

theorem reported_send_iff (hcmd : s.tx.cmd = .tx) : Reported o s ↔ Reportable o s := by
  rw [reported_judge_iff (handleDataSync_tx hcmd)
    ((readBinaryFile_decided o s).onSuccess (sendBinaryToWebSocket_decided o))
    fun r s' ↦ onSuccess_bounded (fun r s' ↦ readBinaryFile_bounded (by simp [hcmd]))
      (sendBinaryToWebSocket_requested o)]
  simp only [Reportable, StepFails, hcmd]
  refine noticed_onSuccess_iff fun bytes requested hread hreads ↦ ?_
  rw [sourceFails_or_iff hread hreads, sendBinaryToWebSocket_eq]
  cases hopen : s.ws.isOpen <;> cases hwrite : o.wsWrite <;>
    simp [noticed_ok_iff, noticed_error, State.judged, hopen]

theorem reported_copy_iff (hcmd : s.tx.cmd = .cp) : Reported o s ↔ Reportable o s := by
  rw [reported_judge_iff (handleDataSync_cp hcmd)
    ((readBinaryFile_decided o s).onSuccess fun s' ↦ writeTarget_decided o false s'.redirected)
    fun r s' ↦ onSuccess_bounded (fun r s' ↦ readBinaryFile_bounded (by simp [hcmd]))
      fun s' ↦ writeTarget_requested o false s'.redirected]
  simp only [Reportable, StepFails, hcmd]
  refine noticed_onSuccess_iff fun bytes requested hread hreads ↦ ?_
  rw [sourceFails_or_iff hread hreads]
  exact noticed_writeBinaryFile_iff fun hcreated ↦ and_iff_right hcreated

theorem reported_move_iff (hcmd : s.tx.cmd = .mv) : Reported o s ↔ Reportable o s := by
  rw [reported_judge_iff (handleDataSync_mv hcmd) (moveFile_decided o s)
    fun r s' ↦ moveFile_bounded (by simp [hcmd])]
  simp only [Reportable, hcmd]
  refine noticed_read_iff (fun e s' hrun ↦ ?_) (fun r s' hrun hr ↦ ?_)
    fun bytes requested hrun hread hreads ↦ ?_
  · rw [moveFile_eq, hrun]
  · rw [moveFile_eq, hrun]
    exact if_neg hr
  · have hfails : StepFails o s ↔ WriteFails o s.fs s.tx.data.dest bytes := by
      simp only [StepFails, hcmd]
      exact sourceFails_or_iff hread hreads
    rw [moveFile_eq, hrun, hfails]
    simp only [if_true, parentCreated_target hread]
    rcases hopened : opened o s.fs true s.tx.data.dest with _ | ⟨fs, i⟩
    · simp [noticed_ok_iff]
    · obtain ⟨d, hfile⟩ := exists_opened hopened
      obtain ⟨j, hj, -⟩ := FileSystem.read_eq_some_iff.mp hread
      obtain ⟨l, -, hremoved⟩ := removeAll_target hfile hj o.remove
      have hremoved : (fs.removeAll s.tx.data.target o.remove).2 = true ↔ o.remove = none := by
        rw [hremoved]
        split_ifs with hremove <;> simp [hremove]
      simp only [hremoved]
      by_cases hremove : o.remove = none <;> by_cases hwrite : o.write = none <;>
        simp [noticed_ok_iff, noticed_error, WriteFails, FlushKeeps, hopened, hremove, hwrite]

/-- Exactly then a transaction reports every failure. -/
theorem reported_iff (o : Faults) (s : State)
    (hcmd : s.tx.cmd = .rx ∨ s.tx.cmd = .tx ∨ s.tx.cmd = .cp ∨ s.tx.cmd = .mv) :
    Reported o s ↔ Reportable o s := by
  rcases hcmd with hcmd | hcmd | hcmd | hcmd
  · exact reported_receive_iff hcmd
  · exact reported_send_iff hcmd
  · exact reported_copy_iff hcmd
  · exact reported_move_iff hcmd

end Commands

/-- On a full disk a move is reported as a failure. -/
theorem reported_iff_example : Reported { noFaults with write := some 0 } largeMoveExample := by
  refine (reported_iff _ largeMoveExample (by decide)).mpr ⟨⟨rfl, ?_, fun _ ↦ rfl⟩, ?_⟩
  · rintro ⟨⟩
  · exact fun bytes _ _ _ ↦ ⟨rfl, by simp [FlushKeeps]⟩

/-- The size of the file cannot be found out, and the transaction throws. -/
theorem size_unreported : ¬ Reported { noFaults with fileSize := true }
    { moveExample with tx := { moveExample.tx with cmd := .tx } } := by
  intro h
  obtain ⟨s', hs'⟩ := h.returns
  cases hs'

end WsServer.DataHandler
