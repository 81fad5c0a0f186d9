import WsServer.DataHandler.Steps
import WsServer.Foundations.Runs

/-!
# Transfers between two machines

One machine sends files by `TX`, the other receives them by `RX`, over a websocket that delivers
messages whole and in order. The machines take turns in any way. `transferred` says that the i-th
target of the receiver ends up with the bytes of the i-th file of the sender, whatever was in the
buffers and in the targets, as long as no I/O fails and no two targets name one file.
-/

set_option autoImplicit false
set_option relaxedAutoImplicit false

namespace WsServer.DataHandler

open Foundations

/-! ### The system -/

/-- Both machines, with the files sent and the targets received so far and the status that every
transaction ended with, none when it did not return. -/
structure System where
  sender : State
  receiver : State
  sent : List Path
  received : List Path
  statuses : List (Option Result)

inductive Action
  | send (tx : DataTransaction)
  | deliver
  | receive (tx : DataTransaction)

/-- A machine with the next transaction. -/
def State.starting (s : State) (tx : DataTransaction) : State := { s with tx := tx }

/-- The status that a call ends with, none when it does not return. -/
def finalStatus (s : State) : Option Result :=
  match handleDataSync noFaults s with
  | .ok _ s' => some s'.tx.status
  | .error _ _ => none

/-- The target can be written: its directory can be created, and it opens. -/
def Writable (fs : FileSystem UInt8) (p : Path) : Prop :=
  (parentCreated noFaults fs p).2 = true ∧
    opened noFaults (parentCreated noFaults fs p).1 true p ≠ none

/-- What happens when no I/O fails. A message can be received once it has been delivered. -/
inductive Step : System → Action → System → Prop
  | send {w : System} {tx : DataTransaction} (hcmd : tx.cmd = .tx)
      (hfile : w.sender.fs.inode tx.data.target ≠ none) :
      Step w (.send tx)
        { w with
          sender := after noFaults (w.sender.starting tx)
          sent := w.sent ++ [tx.data.target]
          statuses := w.statuses ++ [finalStatus (w.sender.starting tx)] }
  | deliver {w : System} {message : Message} {outgoing : List Message}
      (hmessage : w.sender.ws.outgoing = message :: outgoing) :
      Step w .deliver
        { w with
          sender := { w.sender with ws := { w.sender.ws with outgoing := outgoing } }
          receiver :=
            { w.receiver with
              ws := { w.receiver.ws with incoming := w.receiver.ws.incoming ++ [message] } } }
  | receive {w : System} {tx : DataTransaction} (hcmd : tx.cmd = .rx)
      (hmessage : w.receiver.ws.incoming ≠ [])
      (hwritable : Writable w.receiver.fs tx.data.target) :
      Step w (.receive tx)
        { w with
          receiver := after noFaults (w.receiver.starting tx)
          received := w.received ++ [tx.data.target]
          statuses := w.statuses ++ [finalStatus (w.receiver.starting tx)] }

/-- Nothing has been sent, and the websocket is open. -/
structure System.Initial (w : System) : Prop where
  senderOpen : w.sender.ws.isOpen = true
  receiverOpen : w.receiver.ws.isOpen = true
  outgoing : w.sender.ws.outgoing = []
  incoming : w.receiver.ws.incoming = []
  sent : w.sent = []
  received : w.received = []
  statuses : w.statuses = []

/-- No two targets name one file. -/
def System.TargetsDistinct (w : System) : Prop :=
  w.received.Pairwise fun p q ↦ ¬ w.receiver.fs.SameFile p q

/-! ### One transaction -/

section Transaction

variable {s : State} {bytes : List UInt8}

theorem noFaults_reads (bytes : List UInt8) : noFaults.Reads bytes :=
  ⟨rfl, rfl, Or.inr ⟨rfl, rfl⟩⟩

/-- A file is sent as one message and stays what it is. -/
theorem handleDataSync_send (hcmd : s.tx.cmd = .tx) (hopen : s.ws.isOpen = true)
    (hread : s.fs.read s.tx.data.target = some bytes) :
    ∃ s', handleDataSync noFaults s = .ok () s' ∧ s'.tx.status = .success ∧ s'.fs = s.fs ∧
      s'.ws = { s.ws with binary := true, outgoing := s.ws.outgoing ++ [⟨true, bytes⟩] } := by
  obtain ⟨requested, hrun⟩ := readBinaryFile_of_reads hread (noFaults_reads bytes)
  have hwrite : noFaults.wsWrite = false := rfl
  have hsend : handleDataSync noFaults s = .ok () (State.judged
      { s with
        ws := { s.ws with binary := true, outgoing := s.ws.outgoing ++ [⟨true, bytes⟩] }
        buffer := bytes
        requested := requested } .success .success) := by
    rw [handleDataSync_tx hcmd, hrun]
    simp only [onSuccess, if_true, sendBinaryToWebSocket_eq, State.judged, hopen, hwrite,
      Bool.true_eq_false, Bool.false_eq_true, if_false]
    rfl
  exact ⟨_, hsend, rfl, rfl, rfl⟩

/-- A message ends up as the whole contents of the target, and no other file changes. -/
theorem handleDataSync_receive {message : Message} {incoming : List Message} (hcmd : s.tx.cmd = .rx)
    (hopen : s.ws.isOpen = true) (hmessage : s.ws.incoming = message :: incoming)
    (hwritable : Writable s.fs s.tx.data.target) :
    ∃ s' i, handleDataSync noFaults s = .ok () s' ∧ s'.tx.status = .success ∧
      s'.ws = { s.ws with binary := true, incoming := incoming } ∧
      FileSystem.Extends s.fs s'.fs ∧ s'.fs.inode s.tx.data.target = some i ∧
      s'.fs.contents i = message.payload ∧ ∀ j, j ≠ i → s'.fs.contents j = s.fs.contents j := by
  obtain ⟨hcreated, hopens⟩ := hwritable
  obtain ⟨⟨fs, i⟩, hopened⟩ := Option.ne_none_iff_exists'.mp hopens
  obtain ⟨d, hfile⟩ := exists_opened hopened
  obtain ⟨hext, hcontents⟩ := parentCreated_extends noFaults s.fs s.tx.data.target
  have hread : noFaults.wsRead = false := rfl
  have hreceive : handleDataSync noFaults s = .ok () (State.judged
      { s with
        fs := fs.append i message.payload
        ws := { s.ws with binary := true, incoming := incoming }
        buffer := message.payload
        requested := s.requested ++ [some message.payload.length] } .success .success) := by
    rw [handleDataSync_rx hcmd, readBinaryFromWebSocket_eq]
    simp only [hopen, hread, hmessage, Bool.true_eq_false, Bool.false_eq_true, if_false, onSuccess,
      if_true, writeBinaryFile, writeTarget_eq, State.judged, hcreated, Bool.not_false, hopened]
    rfl
  have hempty : fs.contents i = [] := hfile.truncated rfl
  refine ⟨_, i, hreceive, rfl, rfl, ?_, ?_, ?_, fun j hj ↦ ?_⟩
  · exact (hext.trans hfile.toExtends).trans (.setContents i _)
  · exact hfile.inode
  · show (fs.append i message.payload).contents i = _
    rw [FileSystem.contents_append_self, hempty, List.nil_append]
  · show (fs.append i message.payload).contents j = _
    rw [FileSystem.contents_append_of_ne hj, hfile.other j hj, hcontents]

/-- A file keeps its bytes when another one is written. -/
theorem read_of_not_sameFile {fs fs' : FileSystem UInt8} {p q : Path} {i : ℕ}
    (hext : FileSystem.Extends fs fs') (hother : ∀ j, j ≠ i → fs'.contents j = fs.contents j)
    (hi : fs'.inode q = some i) (hne : ¬ fs'.SameFile p q) (hread : fs.read p = some bytes) :
    fs'.read p = some bytes := by
  obtain ⟨j, hj, hbytes⟩ := FileSystem.read_eq_some_iff.mp hread
  have hj' := hext.inode hj
  have hji : j ≠ i := by
    rintro rfl
    exact hne ⟨j, hj', hi⟩
  exact FileSystem.read_eq_some_iff.mpr ⟨j, hj', (hother j hji).trans hbytes⟩

theorem read_of_distinct {fs fs' : FileSystem UInt8} {targets : List Path} {q : Path} {i : ℕ}
    {taken : List (List UInt8)} (hext : FileSystem.Extends fs fs')
    (hother : ∀ j, j ≠ i → fs'.contents j = fs.contents j) (hi : fs'.inode q = some i)
    (hne : ∀ p ∈ targets, ¬ fs'.SameFile p q)
    (htargets : List.Forall₂ (fun p bytes ↦ fs.read p = some bytes) targets taken) :
    List.Forall₂ (fun p bytes ↦ fs'.read p = some bytes) targets taken :=
  ((List.forall₂_and_left _ _).mpr ⟨hne, htargets⟩).imp fun _ _ hp ↦
    read_of_not_sameFile hext hother hi hp.1 hp.2

end Transaction

/-! ### Whole runs -/

/-- What holds all along from `w₀`: the bytes of the files sent are those that were received, that
have arrived and that are on the way, in this order, and the received ones are in the targets. -/
structure Transferred (w₀ w : System) : Prop where
  senderFs : w.sender.fs = w₀.sender.fs
  senderOpen : w.sender.ws.isOpen = true
  receiverOpen : w.receiver.ws.isOpen = true
  statuses : w.statuses = List.replicate (w.sent.length + w.received.length) (some .success)
  accounted : ∃ taken : List (List UInt8),
    w.sent.map w₀.sender.fs.read = (taken ++
      (w.receiver.ws.incoming ++ w.sender.ws.outgoing).map Message.payload).map some ∧
    (w.TargetsDistinct → List.Forall₂ (fun p bytes ↦ w.receiver.fs.read p = some bytes)
      w.received taken)

theorem Transferred.of_initial {w : System} (hw : w.Initial) : Transferred w w where
  senderFs := rfl
  senderOpen := hw.senderOpen
  receiverOpen := hw.receiverOpen
  statuses := by simp [hw.statuses, hw.sent, hw.received]
  accounted := ⟨[], by simp [hw.sent, hw.incoming, hw.outgoing], fun _ ↦ by simp [hw.received]⟩

theorem Transferred.step {w₀ w w' : System} {a : Action} (hw : Transferred w₀ w)
    (hstep : Step w a w') : Transferred w₀ w' := by
  obtain ⟨taken, hsent, htaken⟩ := hw.accounted
  cases hstep with
  | send hcmd hfile =>
    rename_i tx
    obtain ⟨i, hi⟩ := Option.ne_none_iff_exists'.mp hfile
    have hread : w.sender.fs.read tx.data.target = some (w.sender.fs.contents i) := by
      simp [FileSystem.read, hi]
    obtain ⟨s', hrun, hstatus, hfs, hws⟩ :=
      handleDataSync_send (s := w.sender.starting tx) hcmd hw.senderOpen hread
    have hafter : after noFaults (w.sender.starting tx) = s' := by simp [after, hrun]
    refine ⟨?_, ?_, hw.receiverOpen, ?_, taken, ?_, htaken⟩
    · rw [hafter, hfs]
      exact hw.senderFs
    · rw [hafter, hws]
      exact hw.senderOpen
    · simp only [finalStatus, hrun, hstatus, hw.statuses, List.length_append, List.length_singleton,
        ← List.replicate_succ']
      congr 1
      omega
    · rw [List.map_append, hsent, hafter, hws, List.map_singleton, ← hw.senderFs, hread]
      simp [State.starting]
  | deliver hmessage =>
    refine ⟨hw.senderFs, hw.senderOpen, hw.receiverOpen, hw.statuses, taken, ?_, htaken⟩
    rw [hsent, hmessage]
    simp
  | receive hcmd hmessage hwritable =>
    rename_i tx
    obtain ⟨message, incoming, hincoming⟩ := List.exists_cons_of_ne_nil hmessage
    obtain ⟨s', i, hrun, hstatus, hws, hext, hi, hpayload, hother⟩ :=
      handleDataSync_receive (s := w.receiver.starting tx) hcmd hw.receiverOpen hincoming hwritable
    have hafter : after noFaults (w.receiver.starting tx) = s' := by simp [after, hrun]
    refine ⟨hw.senderFs, hw.senderOpen, ?_, ?_, taken ++ [message.payload], ?_, ?_⟩
    · rw [hafter, hws]
      exact hw.receiverOpen
    · simp only [finalStatus, hrun, hstatus, hw.statuses, List.length_append, List.length_singleton,
        ← List.replicate_succ']
      congr 1
    · rw [hsent, hafter, hws, hincoming]
      simp
    · rw [hafter]
      intro hdistinct
      obtain ⟨hold, -, hnew⟩ := List.pairwise_append.mp hdistinct
      have htargets := htaken (hold.imp fun hne hsame ↦ hne (hsame.mono hext))
      have hlast : s'.fs.read tx.data.target = some message.payload :=
        FileSystem.read_eq_some_iff.mpr ⟨i, hi, hpayload⟩
      have hothers : ∀ p ∈ w.received, ¬ s'.fs.SameFile p tx.data.target :=
        fun p hp ↦ hnew p hp tx.data.target (by simp)
      exact List.rel_append (read_of_distinct hext hother hi hothers htargets) (.cons hlast .nil)

/-- Every transaction of a run ends with `SUCCESS`, and the i-th target has the bytes of the i-th
file. -/
theorem transferred {w₀ w : System} {h : List (Transition System Action)} (hw₀ : w₀.Initial)
    (hrun : Execution Step w₀ h w) (hdistinct : w.TargetsDistinct) :
    w.statuses = List.replicate (w.sent.length + w.received.length) (some .success) ∧
      ∀ (i : ℕ) target, w.received[i]? = some target → ∃ source bytes, w.sent[i]? = some source ∧
        w₀.sender.fs.read source = some bytes ∧ w.receiver.fs.read target = some bytes := by
  have hw : Transferred w₀ w :=
    hrun.invariant (.of_initial hw₀) fun _ _ _ hw hstep ↦ hw.step hstep
  obtain ⟨taken, hsent, htaken⟩ := hw.accounted
  refine ⟨hw.statuses, fun i target htarget ↦ ?_⟩
  obtain ⟨hlength, hget⟩ := List.forall₂_iff_get.mp (htaken hdistinct)
  obtain ⟨hi, rfl⟩ := List.getElem?_eq_some_iff.mp htarget
  have hi' : i < taken.length := hlength ▸ hi
  have hsource : (w.sent.map w₀.sender.fs.read)[i]? = some (some taken[i]) := by
    rw [hsent, List.getElem?_map, List.getElem?_append_left hi', List.getElem?_eq_getElem hi']
    rfl
  rw [List.getElem?_map, Option.map_eq_some_iff] at hsource
  obtain ⟨source, hsource, hbytes⟩ := hsource
  exact ⟨source, taken[i], hsource, hbytes, hget i hi hi'⟩

/-- The files `a` and `c` on one machine, of which `c` is empty, and longer files `b` and `d` on the
other. -/
def transferExample : System where
  sender :=
    { fs := (FileSystem.singleFile "a" [1, 2]).makeFile ["c"] (by decide)
      ws := { isOpen := true, binary := false, incoming := [], outgoing := [] }
      buffer := [2, 3]
      requested := []
      tx := ⟨.nop, ⟨⟨false, []⟩, ⟨false, []⟩⟩, .pending, .pending⟩ }
  receiver :=
    { fs := ((FileSystem.singleFile "b" [7, 8, 9]).makeFile ["d"] (by decide)).append 1 [9]
      ws := { isOpen := true, binary := false, incoming := [], outgoing := [] }
      buffer := [4, 5, 6]
      requested := []
      tx := ⟨.nop, ⟨⟨false, []⟩, ⟨false, []⟩⟩, .pending, .pending⟩ }
  sent := []
  received := []
  statuses := []

/-- A transaction on a file of the working directory. -/
def transactionOn (cmd : OP) (name : String) : DataTransaction :=
  ⟨cmd, ⟨⟨false, [name]⟩, ⟨false, []⟩⟩, .pending, .pending⟩

/-- Both files are sent before the first is received as `b`, and the second is received as `d`. -/
theorem transferred_example : ∃ h w, Execution Step transferExample h w ∧
    w.statuses = List.replicate 4 (some .success) ∧
    w.received = [⟨false, ["b"]⟩, ⟨false, ["d"]⟩] ∧
    w.receiver.fs.read ⟨false, ["b"]⟩ = some [1, 2] ∧
    w.receiver.fs.read ⟨false, ["d"]⟩ = some [] := by
  have hrun : Execution Step transferExample [] transferExample := .start
  have hrun := hrun.snoc (@Step.send _ (transactionOn .tx "a") rfl (by decide))
  have hrun := hrun.snoc (@Step.send _ (transactionOn .tx "c") rfl (by decide))
  have hrun := hrun.snoc (@Step.deliver _ ⟨true, [1, 2]⟩ [⟨true, []⟩] rfl)
  have hrun := hrun.snoc (@Step.receive _ (transactionOn .rx "b") rfl (by decide)
    ⟨rfl, by decide⟩)
  have hrun := hrun.snoc (@Step.deliver _ ⟨true, []⟩ [] rfl)
  have hrun := hrun.snoc (@Step.receive _ (transactionOn .rx "d") rfl (by decide)
    ⟨rfl, by decide⟩)
  have hdistinct : ∀ fs : FileSystem UInt8, fs.inode ⟨false, ["b"]⟩ = some 0 →
      fs.inode ⟨false, ["d"]⟩ = some 1 → ¬ fs.SameFile ⟨false, ["b"]⟩ ⟨false, ["d"]⟩ := by
    rintro fs hb hd ⟨i, hi, hi'⟩
    cases hb.symm.trans hi
    cases hd.symm.trans hi'
  obtain ⟨hstatuses, hreceived⟩ := transferred ⟨rfl, rfl, rfl, rfl, rfl, rfl, rfl⟩ hrun
    (List.pairwise_pair.mpr (hdistinct _ rfl rfl))
  refine ⟨_, _, hrun, hstatuses, rfl, ?_, ?_⟩
  · obtain ⟨source, bytes, hsource, hbytes, htarget⟩ := hreceived 0 ⟨false, ["b"]⟩ rfl
    obtain rfl : ⟨false, ["a"]⟩ = source := Option.some.inj hsource
    have hread : transferExample.sender.fs.read ⟨false, ["a"]⟩ = some [1, 2] := rfl
    rw [htarget, ← hbytes, hread]
  · obtain ⟨source, bytes, hsource, hbytes, htarget⟩ := hreceived 1 ⟨false, ["d"]⟩ rfl
    obtain rfl : ⟨false, ["c"]⟩ = source := Option.some.inj hsource
    have hread : transferExample.sender.fs.read ⟨false, ["c"]⟩ = some [] := rfl
    rw [htarget, ← hbytes, hread]

end WsServer.DataHandler
