import WsServer.DataHandler.Footprint
import WsServer.Foundations.Runs

/-!
# A file that is only appended to

`AP` puts the buffer of the caller behind what the file holds. As long as no other command opens the
file, it holds in the end what it held in the beginning and then, in order, what the calls of `AP`
have stored (`appends_of_run`): links, other names of the file, deletions and failing steps
notwithstanding.
-/

set_option autoImplicit false
set_option relaxedAutoImplicit false

namespace WsServer.DataHandler

open Foundations FileSystem

/-- A call of `handleDataSync` with the steps that fail in it. -/
structure Call where
  faults : Faults
  state : State

/-- The call finds the files `fs` and leaves the files `fs'`. -/
def Call.Step (fs : FileSystem UInt8) (call : Call) (fs' : FileSystem UInt8) : Prop :=
  call.state.fs = fs ∧ (after call.faults call.state).fs = fs'

/-- The file that a path names when its directory has been created. -/
def outputInode (o : Faults) (fs : FileSystem UInt8) (p : Path) : Option ℕ :=
  (parentCreated o fs p).1.inode p

/-- The file that a command writes to, if there is one already. -/
def Call.written (call : Call) : Option ℕ :=
  let s := call.state
  match s.tx.cmd with
  | .rx | .new | .ap => outputInode call.faults s.fs s.tx.data.target
  | .cp => outputInode call.faults s.fs s.tx.data.dest
  | .mv => s.fs.inode s.tx.data.dest
  | .tx | .del | .nop | .other _ => none

/-- What the call appends to the file `i`. -/
def Call.appended (i : ℕ) (call : Call) : List UInt8 :=
  let s := call.state
  if s.tx.cmd = .ap ∧ call.written = some i ∧
      (parentCreated call.faults s.fs s.tx.data.target).2 = true ∧
      call.faults.outputOpen = false then
    call.faults.stored s.buffer
  else []

section Files

variable {o : Faults} {s : State} {i : ℕ}

/-- A step that leaves the file `i` as it is. -/
structure KeepsFile (i : ℕ) (fs fs' : FileSystem UInt8) : Prop where
  bound : fs.bound ≤ fs'.bound
  contents : fs'.contents i = fs.contents i

theorem KeepsFile.refl (i : ℕ) (fs : FileSystem UInt8) : KeepsFile i fs fs := ⟨le_rfl, rfl⟩

theorem KeepsFile.trans {fs fs' fs'' : FileSystem UInt8} (h : KeepsFile i fs fs')
    (h' : KeepsFile i fs' fs'') : KeepsFile i fs fs'' :=
  ⟨h.bound.trans h'.bound, h'.contents.trans h.contents⟩

theorem keepsFile_append {j : ℕ} (hij : i ≠ j) (fs : FileSystem UInt8) (bytes : List UInt8) :
    KeepsFile i fs (fs.append j bytes) := ⟨le_rfl, contents_append_of_ne hij⟩

theorem keepsFile_parentCreated (o : Faults) (i : ℕ) (fs : FileSystem UInt8) (p : Path) :
    KeepsFile i fs (parentCreated o fs p).1 := by
  refine ⟨?_, by rw [(parentCreated_extends o fs p).2]⟩
  unfold parentCreated
  split_ifs
  · exact (createDirectories_bound fs o.mkdir p.parentPath).ge
  · rfl

theorem keepsFile_removeAll (i : ℕ) (fs : FileSystem UInt8) (p : Path)
    (leaves : Option (List Location)) : KeepsFile i fs (fs.removeAll p leaves).1 := by
  obtain ⟨hcontents, hbound⟩ := removeAll_files fs p leaves
  exact ⟨hbound.ge, by rw [hcontents]⟩

/-- A path that does not name the file opens another one. -/
theorem keepsFile_opened {fs fs' : FileSystem UInt8} {truncate : Bool} {p : Path} {j : ℕ}
    (hi : i < fs.bound) (hp : fs.inode p ≠ some i)
    (hopened : opened o fs truncate p = some (fs', j)) : i ≠ j ∧ KeepsFile i fs fs' := by
  obtain ⟨d, hfile⟩ := exists_opened hopened
  have hij : i ≠ j := by
    rintro rfl
    exact hp (hfile.inode_before hi)
  unfold opened at hopened
  split_ifs at hopened
  exact ⟨hij, openOutput_bound hopened, hfile.other i hij⟩

theorem keepsFile_written {fs fs' : FileSystem UInt8} {truncate : Bool} {p : Path} {j : ℕ}
    (hi : i < fs.bound) (hp : fs.inode p ≠ some i)
    (hopened : opened o fs truncate p = some (fs', j)) (bytes : List UInt8) :
    KeepsFile i fs (fs'.append j bytes) := by
  obtain ⟨hij, hkeeps⟩ := keepsFile_opened hi hp hopened
  exact hkeeps.trans (keepsFile_append hij fs' bytes)

theorem keepsFile_writeTarget (append : Bool) (hi : i < s.fs.bound)
    (hp : outputInode o s.fs s.tx.data.target ≠ some i) :
    KeepsFile i s.fs (left (writeTarget o append s)).fs := by
  have hcreated := keepsFile_parentCreated o i s.fs s.tx.data.target
  obtain ⟨fs, hleft, rfl | ⟨fs', j, hopened, rfl⟩⟩ := writeTarget_left o append s
  · rw [hleft]
    exact hcreated
  · rw [hleft]
    exact hcreated.trans (keepsFile_written (hi.trans_le hcreated.bound) hp hopened _)

theorem keepsFile_createEmptyFile {p : Path} (hi : i < s.fs.bound)
    (hp : outputInode o s.fs p ≠ some i) : KeepsFile i s.fs (left (createEmptyFile o p s)).fs := by
  have hcreated := keepsFile_parentCreated o i s.fs p
  rw [createEmptyFile_eq]
  dsimp only
  split
  · split
    · exact hcreated
    · rename_i hopened
      exact hcreated.trans (keepsFile_written (hi.trans_le hcreated.bound) hp hopened _)
  · exact hcreated

/-- What holds of the files after a function, and after what follows it when it succeeds. -/
theorem onSuccess_files {P : FileSystem UInt8 → Prop}
    {x : EStateM.Result Exception State FileResult}
    {f : State → EStateM.Result Exception State FileResult} (hx : P (left x).fs)
    (hf : ∀ s', x = .ok .success s' → P (left (f (s'.judged .success s'.tx.status))).fs) :
    P (left (onSuccess x f)).fs := by
  by_cases hsuccess : ∃ s', x = .ok .success s'
  · obtain ⟨s', rfl⟩ := hsuccess
    exact hf s' rfl
  · rwa [left_onSuccess_of_ne fun s' hs' ↦ hsuccess ⟨s', hs'⟩]

end Files

/-! ### The commands -/

section Commands

variable {o : Faults} {s : State} {i : ℕ}

theorem keepsFile_move (hi : i < s.fs.bound) (hcmd : s.tx.cmd = .mv)
    (hp : s.fs.inode s.tx.data.dest ≠ some i) : KeepsFile i s.fs (after o s).fs := by
  by_cases hsource : SourceRead o s
  · obtain ⟨bytes, hread, hreads⟩ := exists_bytes_of_sourceRead hcmd hsource
    obtain ⟨requested, hmv⟩ := handleDataSync_mv_of_reads hcmd hread hreads
    rw [after_eq_left, hmv]
    rcases hopened : opened o s.fs true s.tx.data.dest with _ | ⟨fs, j⟩
    · exact .refl i s.fs
    obtain ⟨hij, hkeeps⟩ := keepsFile_opened hi hp hopened
    have hall : KeepsFile i s.fs
        ((fs.removeAll s.tx.data.target o.remove).1.append j (o.stored bytes)) :=
      (hkeeps.trans (keepsFile_removeAll i fs s.tx.data.target o.remove)).trans
        (keepsFile_append hij _ _)
    dsimp only
    split_ifs
    · exact hall
    · exact hall
    · exact hall
  · rw [after_of_not_sourceRead hsource]
    exact .refl i s.fs

/-- A command that does not write to the file leaves it as it is. -/
theorem keepsFile_after (hi : i < s.fs.bound) (hwritten : (Call.mk o s).written ≠ some i) :
    KeepsFile i s.fs (after o s).fs := by
  simp only [Call.written] at hwritten
  cases hcmd : s.tx.cmd with
  | rx =>
    simp only [hcmd] at hwritten
    have hkeeps := readBinaryFromWebSocket_keeps o s
    rw [after_eq_left, handleDataSync_rx hcmd, left_judge]
    refine onSuccess_files (by rw [hkeeps.fs]; exact .refl i s.fs) fun s' hs' ↦ ?_
    rw [hs'] at hkeeps
    rw [← hkeeps.fs] at hi hwritten
    rw [← hkeeps.data] at hwritten
    rw [← hkeeps.fs]
    exact keepsFile_writeTarget (s := s'.judged .success s'.tx.status) false hi hwritten
  | tx =>
    have hkeeps := readBinaryFile_keeps o s
    rw [after_eq_left, handleDataSync_tx hcmd, left_judge]
    refine onSuccess_files (by rw [hkeeps.fs]; exact .refl i s.fs) fun s' hs' ↦ ?_
    rw [hs'] at hkeeps
    rw [(sendBinaryToWebSocket_keeps o (s'.judged .success s'.tx.status)).fs, ← hkeeps.fs]
    exact .refl i _
  | new =>
    simp only [hcmd] at hwritten
    have hcreate := keepsFile_createEmptyFile hi hwritten
    rw [after_eq_left, handleDataSync_new hcmd]
    rcases hrun : createEmptyFile o s.tx.data.target s with ⟨created, s'⟩ | ⟨e, s'⟩
    · rw [hrun] at hcreate
      exact hcreate
    · rw [hrun] at hcreate
      exact hcreate
  | del =>
    rw [after_eq_left, handleDataSync_del hcmd, left_judge]
    exact keepsFile_removeAll i s.fs s.tx.data.target o.remove
  | cp =>
    simp only [hcmd] at hwritten
    have hkeeps := readBinaryFile_keeps o s
    rw [after_eq_left, handleDataSync_cp hcmd, left_judge]
    refine onSuccess_files (by rw [hkeeps.fs]; exact .refl i s.fs) fun s' hs' ↦ ?_
    rw [hs'] at hkeeps
    rw [← hkeeps.fs] at hi hwritten
    rw [← hkeeps.data] at hwritten
    rw [← hkeeps.fs]
    exact keepsFile_writeTarget (s := (s'.judged .success s'.tx.status).redirected) false hi
      hwritten
  | mv =>
    simp only [hcmd] at hwritten
    exact keepsFile_move hi hcmd hwritten
  | ap =>
    simp only [hcmd] at hwritten
    have hwrite := keepsFile_writeTarget true hi hwritten
    rw [after_eq_left, handleDataSync_ap hcmd, appendFile]
    rcases hrun : writeTarget o true s with ⟨r, s'⟩ | ⟨e, s'⟩
    · rw [hrun] at hwrite
      exact hwrite
    · rw [hrun] at hwrite
      exact hwrite
  | nop =>
    rw [after_eq_left, handleDataSync_nop hcmd]
    exact .refl i s.fs
  | other code =>
    rw [after_eq_left, handleDataSync_other hcmd]
    exact .refl i s.fs

theorem outputInode_of_written (hcmd : s.tx.cmd = .ap) (hwritten : (Call.mk o s).written = some i) :
    outputInode o s.fs s.tx.data.target = some i := by
  simpa only [Call.written, hcmd] using hwritten

/-- A file that is there opens at its end. -/
theorem opened_append (hopen : ¬o.outputOpen = true)
    (hinode : outputInode o s.fs s.tx.data.target = some i) :
    opened o (parentCreated o s.fs s.tx.data.target).1 (!true) s.tx.data.target =
      some ((parentCreated o s.fs s.tx.data.target).1, i) := by
  rw [opened, if_neg hopen, openOutput_of_inode hinode]
  rfl

/-- `AP` to the file itself. -/
theorem contents_append (hcmd : s.tx.cmd = .ap) (hwritten : (Call.mk o s).written = some i) :
    s.fs.bound ≤ (after o s).fs.bound ∧
      (after o s).fs.contents i = s.fs.contents i ++ (Call.mk o s).appended i := by
  have hinode := outputInode_of_written hcmd hwritten
  have hcreated := keepsFile_parentCreated o i s.fs s.tx.data.target
  have hleft : (after o s).fs = (left (writeTarget o true s)).fs := by
    rw [after_eq_left, handleDataSync_ap hcmd, appendFile]
    rcases writeTarget o true s with ⟨r, s'⟩ | ⟨e, s'⟩ <;> rfl
  rw [hleft, writeTarget_eq]
  simp only [Call.appended, hcmd, hwritten, true_and]
  by_cases hparent : (parentCreated o s.fs s.tx.data.target).2 = true
  · by_cases hopen : o.outputOpen = true
    · simp only [hparent, opened, hopen, if_true, Bool.true_eq_false, and_false, if_false,
        List.append_nil]
      exact ⟨hcreated.bound, hcreated.contents⟩
    · simp only [hparent, opened_append hopen hinode, Bool.eq_false_of_not_eq_true hopen,
        and_self, if_true]
      refine ⟨hcreated.bound, contents_append_self.trans ?_⟩
      rw [hcreated.contents]
  · simp only [hparent, Bool.false_eq_true, false_and, if_false, List.append_nil]
    exact ⟨hcreated.bound, hcreated.contents⟩

theorem contents_after (hi : i < s.fs.bound)
    (hap : (Call.mk o s).written = some i → s.tx.cmd = .ap) : s.fs.bound ≤ (after o s).fs.bound ∧
      (after o s).fs.contents i = s.fs.contents i ++ (Call.mk o s).appended i := by
  by_cases hwritten : (Call.mk o s).written = some i
  · exact contents_append (hap hwritten) hwritten
  · have hkeeps := keepsFile_after hi hwritten
    refine ⟨hkeeps.bound, ?_⟩
    rw [Call.appended, if_neg fun h ↦ hwritten h.2.1, List.append_nil, hkeeps.contents]

theorem stored_isPrefix (o : Faults) (bytes : List UInt8) : o.stored bytes <+: bytes := by
  have hflushed : ∀ pending : List UInt8, o.flushed pending <+: pending := by
    intro pending
    unfold Faults.flushed
    split
    · exact List.prefix_rfl
    · exact List.take_prefix _ _
  unfold Faults.stored
  split
  · exact hflushed bytes
  · exact (hflushed _).trans (List.take_prefix _ _)

theorem appended_isPrefix (i : ℕ) (call : Call) : call.appended i <+: call.state.buffer := by
  unfold Call.appended
  dsimp only
  split_ifs
  · exact stored_isPrefix call.faults call.state.buffer
  · exact List.nil_prefix

/-- When `AP` reports success and the last flush does not fail, the whole buffer is stored. -/
theorem appended_of_success (hcmd : s.tx.cmd = .ap) (hwritten : (Call.mk o s).written = some i)
    (hclose : o.close = none) {u : Unit} {s' : State} (hreturns : handleDataSync o s = .ok u s')
    (hsuccess : s'.tx.fileResult = .success) : (Call.mk o s).appended i = s.buffer := by
  have hinode := outputInode_of_written hcmd hwritten
  rw [handleDataSync_ap hcmd, appendFile, writeTarget_eq] at hreturns
  by_cases hparent : (parentCreated o s.fs s.tx.data.target).2 = true
  · by_cases hopen : o.outputOpen = true
    · simp only [hparent, opened, hopen, if_true] at hreturns
      cases hreturns
      cases hsuccess
    · by_cases hwrite : o.write = none
      · simp [Call.appended, hcmd, hwritten, hparent, hopen, Faults.stored, Faults.flushed, hwrite,
          hclose]
      · simp only [hparent, opened_append hopen hinode, if_true, if_neg hwrite] at hreturns
        cases hreturns
        cases hsuccess
  · simp only [hparent] at hreturns
    cases hreturns

end Commands

/-- Whatever fails and whatever else happens to the files: a file that no command but `AP` writes to
holds in the end its first bytes and then, in order, what the calls of `AP` have stored. This is the
beginning of the buffer, and all of it when success is reported and the last flush does not fail. -/
theorem appends_of_run {fs₀ fs : FileSystem UInt8} {h : List (Transition (FileSystem UInt8) Call)}
    (hrun : Execution Call.Step fs₀ h fs) {i : ℕ} (hi : i < fs₀.bound)
    (hap : ∀ x ∈ h, x.action.written = some i → x.action.state.tx.cmd = .ap) :
    fs.contents i = fs₀.contents i ++ h.flatMap (fun x ↦ x.action.appended i) ∧
      ∀ x ∈ h, x.action.appended i <+: x.action.state.buffer ∧
        (x.action.written = some i → x.action.faults.close = none →
          (∃ s', handleDataSync x.action.faults x.action.state = .ok () s' ∧
            s'.tx.fileResult = .success) → x.action.appended i = x.action.state.buffer) := by
  refine ⟨?_, fun x hx ↦ ⟨appended_isPrefix i x.action, fun hwritten hclose hsuccess ↦ ?_⟩⟩
  · have hall : fs₀.bound ≤ fs.bound ∧
        fs.contents i = fs₀.contents i ++ h.flatMap (fun x ↦ x.action.appended i) := by
      induction hrun with
      | start => exact ⟨le_rfl, by simp⟩
      | @snoc h fs fs' call _ hstep ih =>
        rw [List.forall_mem_append, List.forall_mem_singleton] at hap
        obtain ⟨hbound, hcontents⟩ := ih hap.1
        obtain ⟨rfl, rfl⟩ := hstep
        obtain ⟨hbound', hcontents'⟩ := contents_after (hi.trans_le hbound) hap.2
        refine ⟨hbound.trans hbound', ?_⟩
        rw [hcontents', hcontents, List.flatMap_append, List.flatMap_singleton, List.append_assoc]
    exact hall.2
  · obtain ⟨s', hreturns, hsuccess⟩ := hsuccess
    exact appended_of_success (hap x hx hwritten) hwritten hclose hreturns hsuccess

/-- A call on the files `fs` with the path `a`. -/
def callExample (fs : FileSystem UInt8) (cmd : OP) (buffer : List UInt8) (faults : Faults) :
    Call where
  faults := faults
  state :=
    { fs := fs
      ws := { isOpen := false, binary := false, incoming := [], outgoing := [] }
      buffer := buffer
      requested := []
      tx :=
        { cmd := cmd
          data := { target := ⟨false, ["a"]⟩, dest := ⟨false, []⟩ }
          fileResult := .pending
          status := .pending } }

/-- Two calls of `AP`, of which the second stores a byte only, and then the file is deleted. -/
theorem appends_of_run_example :
    let fs₀ := singleFile "a" [1, 2]
    let first := callExample fs₀ .ap [3, 4] noFaults
    let second := callExample (after first.faults first.state).fs .ap [5, 6]
      { noFaults with close := some 1 }
    let third := callExample (after second.faults second.state).fs .del [] noFaults
    (after third.faults third.state).fs.contents 0 =
      [1, 2] ++ [first, second, third].flatMap (Call.appended 0) := by
  intro fs₀ first second third
  have hrun : Execution Call.Step fs₀ [⟨_, first, _⟩, ⟨_, second, _⟩, ⟨_, third, _⟩] _ :=
    .snoc (.snoc (.snoc .start ⟨rfl, rfl⟩) ⟨rfl, rfl⟩) ⟨rfl, rfl⟩
  refine (appends_of_run hrun (i := 0) (by decide) fun x hx hwritten ↦ ?_).1
  simp only [List.mem_cons, List.not_mem_nil, or_false] at hx
  rcases hx with rfl | rfl | rfl
  · rfl
  · rfl
  · cases hwritten

end WsServer.DataHandler
