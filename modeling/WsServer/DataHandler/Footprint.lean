import WsServer.DataHandler.Moves
import WsServer.Foundations.Frames

/-!
# What a data transaction touches

`footprint` are the locations a transaction may change. `changes_within_footprint` says that in a
file system without links nothing else changes, whichever steps fail, but for new directories on
the way to what is written, and that nothing changes at all when the source cannot be read.
-/

set_option autoImplicit false
set_option relaxedAutoImplicit false

namespace WsServer.DataHandler

open Foundations FileSystem

/-- The locations that a transaction may change. -/
def footprint (s : State) : Set Location :=
  let target := s.fs.location s.tx.data.target
  let dest := s.fs.location s.tx.data.dest
  match s.tx.cmd with
  | .tx | .nop | .other _ => ∅
  | .rx | .new | .ap => {target}
  | .cp => {dest}
  | .mv => {target, dest}
  | .del => {l | target <+: l}

/-- The locations where it may create directories. -/
def mayCreate (s : State) : Set Location :=
  match s.tx.cmd with
  | .rx | .new | .ap => s.fs.parents s.tx.data.target
  | .cp => s.fs.parents s.tx.data.dest
  | .tx | .mv | .del | .nop | .other _ => ∅

/-- The first step of `RX`, `CP` and `MV` succeeds. -/
def SourceRead (o : Faults) (s : State) : Prop :=
  match s.tx.cmd with
  | .rx => ∃ s', readBinaryFromWebSocket o s = .ok .success s'
  | .cp | .mv => ∃ s', readBinaryFile o s = .ok .success s'
  | .tx | .new | .del | .ap | .nop | .other _ => True

section Steps

variable {o : Faults} {s : State}

/-- A source keeps the files, and it keeps what the transaction is about. -/
structure Keeps (s s' : State) : Prop where
  fs : s'.fs = s.fs
  data : s'.tx.data = s.tx.data

theorem readBinaryFile_keeps (o : Faults) (s : State) : Keeps s (left (readBinaryFile o s)) := by
  obtain ⟨buffer, requested, h⟩ := readBinaryFile_cases o s
  rcases h with ⟨hread, -, -⟩ | ⟨-, ⟨e, hread⟩ | ⟨r, hread, -, -⟩⟩
  · rw [hread]
    exact ⟨rfl, rfl⟩
  · rw [hread]
    exact ⟨rfl, rfl⟩
  · rw [hread]
    exact ⟨rfl, rfl⟩

theorem readBinaryFromWebSocket_keeps (o : Faults) (s : State) :
    Keeps s (left (readBinaryFromWebSocket o s)) := by
  rw [readBinaryFromWebSocket_eq]
  dsimp only
  split_ifs
  · exact ⟨rfl, rfl⟩
  · exact ⟨rfl, rfl⟩
  · split
    · exact ⟨rfl, rfl⟩
    · exact ⟨rfl, rfl⟩

theorem sendBinaryToWebSocket_keeps (o : Faults) (s : State) :
    Keeps s (left (sendBinaryToWebSocket o s)) := by
  rw [sendBinaryToWebSocket_eq]
  dsimp only
  split_ifs
  · exact ⟨rfl, rfl⟩
  · exact ⟨rfl, rfl⟩
  · exact ⟨rfl, rfl⟩

/-- What follows a source that fails does not run. -/
theorem left_onSuccess_of_ne {x : EStateM.Result Exception State FileResult}
    {f : State → EStateM.Result Exception State FileResult} (hx : ∀ s', x ≠ .ok .success s') :
    left (onSuccess x f) = left x := by
  cases x with
  | error e s => rfl
  | ok r s =>
    have hr : r ≠ .success := by
      rintro rfl
      exact hx s rfl
    simp [onSuccess, hr]

/-- The directory of a path is created, and then the file opens and takes some bytes. -/
theorem parentCreated_frame (o : Faults) (h : s.fs.Linkless) (p : Path) :
    (parentCreated o s.fs p).1.Linkless ∧
      Frame ∅ (s.fs.parents p) s.fs (parentCreated o s.fs p).1 := by
  unfold parentCreated
  split_ifs
  · exact createDirectories_parentPath_frame h o.mkdir p
  · exact ⟨h, .refl s.fs⟩

theorem written_frame {truncate : Bool} {p : Path} {fs : FileSystem UInt8} {i : ℕ}
    (h : s.fs.Linkless) (hopened : opened o (parentCreated o s.fs p).1 truncate p = some (fs, i))
    (bytes : List UInt8) :
    Frame {s.fs.location p} (s.fs.parents p) s.fs (fs.append i bytes) := by
  obtain ⟨hlinks, hframe⟩ := parentCreated_frame o h p
  obtain ⟨d, hfile⟩ := exists_opened hopened
  have hd : d = s.fs.location p := by
    rw [hlinks.resolve hfile.resolve, location, location,
      (parentCreated_extends o s.fs p).1.workingDirectory]
  subst hd
  have hlinks' := hfile.linkless hlinks
  refine ((hframe.mono (Set.empty_subset _) subset_rfl).trans (hfile.frame hlinks)).trans ?_
  exact .append bytes fun l hl ↦ hlinks'.hard l _ i hl hfile.placed.file

theorem writeTarget_frame (o : Faults) (append : Bool) (h : s.fs.Linkless) :
    Frame {s.fs.location s.tx.data.target} (s.fs.parents s.tx.data.target) s.fs
      (left (writeTarget o append s)).fs := by
  obtain ⟨fs, hleft, rfl | ⟨fs', i, hopened, rfl⟩⟩ := writeTarget_left o append s
  · rw [hleft]
    exact (parentCreated_frame o h s.tx.data.target).2.mono (Set.empty_subset _) subset_rfl
  · rw [hleft]
    exact written_frame h hopened _

theorem createEmptyFile_frame (o : Faults) (h : s.fs.Linkless) (p : Path) :
    Frame {s.fs.location p} (s.fs.parents p) s.fs (left (createEmptyFile o p s)).fs := by
  have hcreated := (parentCreated_frame o h p).2.mono
    (Set.empty_subset {s.fs.location p}) subset_rfl
  rw [createEmptyFile_eq]
  dsimp only
  split
  · split
    · exact hcreated
    · rename_i hopened
      exact written_frame h hopened _
  · exact hcreated

theorem onSuccess_frame {fs : FileSystem UInt8} {changed created : Set Location}
    {x : EStateM.Result Exception State FileResult}
    {f : State → EStateM.Result Exception State FileResult} (hx : (left x).fs = fs)
    (hf : ∀ s', x = .ok .success s' →
      Frame changed created fs (left (f (s'.judged .success s'.tx.status))).fs) :
    Frame changed created fs (left (onSuccess x f)).fs := by
  by_cases hsuccess : ∃ s', x = .ok .success s'
  · obtain ⟨s', rfl⟩ := hsuccess
    exact hf s' rfl
  · rw [left_onSuccess_of_ne fun s' hs' ↦ hsuccess ⟨s', hs'⟩, hx]
    exact .refl fs

end Steps

/-! ### The commands -/

section Commands

variable {o : Faults} {s : State}

theorem after_of_not_sourceRead (hsource : ¬ SourceRead o s) : (after o s).fs = s.fs := by
  rw [after_eq_left]
  unfold SourceRead at hsource
  cases hcmd : s.tx.cmd with
  | rx =>
    simp only [hcmd, not_exists] at hsource
    rw [handleDataSync_rx hcmd, left_judge]
    exact (congrArg State.fs (left_onSuccess_of_ne hsource)).trans
      (readBinaryFromWebSocket_keeps o s).fs
  | cp =>
    simp only [hcmd, not_exists] at hsource
    rw [handleDataSync_cp hcmd, left_judge]
    exact (congrArg State.fs (left_onSuccess_of_ne hsource)).trans (readBinaryFile_keeps o s).fs
  | mv =>
    simp only [hcmd, not_exists] at hsource
    have hkeeps := readBinaryFile_keeps o s
    rw [handleDataSync_mv hcmd, left_judge, moveFile_eq]
    rcases hread : readBinaryFile o s with ⟨r, s'⟩ | ⟨e, s'⟩
    · rw [hread] at hkeeps
      have hr : r ≠ .success := by
        rintro rfl
        exact hsource s' hread
      simpa [hr] using hkeeps.fs
    · rw [hread] at hkeeps
      exact hkeeps.fs
  | _ => simp [hcmd] at hsource

theorem receive_frame (h : s.fs.Linkless) (hcmd : s.tx.cmd = .rx) :
    Frame {s.fs.location s.tx.data.target} (s.fs.parents s.tx.data.target) s.fs
      (after o s).fs := by
  have hkeeps := readBinaryFromWebSocket_keeps o s
  rw [after_eq_left, handleDataSync_rx hcmd, left_judge]
  refine onSuccess_frame hkeeps.fs fun s' hs' ↦ ?_
  rw [hs'] at hkeeps
  rw [← hkeeps.fs] at h
  rw [← hkeeps.fs, ← hkeeps.data]
  exact writeTarget_frame (s := s'.judged .success s'.tx.status) o false h

theorem send_frame (hcmd : s.tx.cmd = .tx) : Frame ∅ ∅ s.fs (after o s).fs := by
  have hkeeps := readBinaryFile_keeps o s
  rw [after_eq_left, handleDataSync_tx hcmd, left_judge]
  refine onSuccess_frame hkeeps.fs fun s' hs' ↦ ?_
  rw [hs'] at hkeeps
  rw [(sendBinaryToWebSocket_keeps o (s'.judged .success s'.tx.status)).fs, ← hkeeps.fs]
  exact .refl _

theorem create_frame (h : s.fs.Linkless) (hcmd : s.tx.cmd = .new) :
    Frame {s.fs.location s.tx.data.target} (s.fs.parents s.tx.data.target) s.fs
      (after o s).fs := by
  have hcreate := createEmptyFile_frame o h s.tx.data.target
  rw [after_eq_left, handleDataSync_new hcmd]
  rcases hrun : createEmptyFile o s.tx.data.target s with ⟨created, s'⟩ | ⟨e, s'⟩
  · rw [hrun] at hcreate
    exact hcreate
  · rw [hrun] at hcreate
    exact hcreate

theorem append_frame (h : s.fs.Linkless) (hcmd : s.tx.cmd = .ap) :
    Frame {s.fs.location s.tx.data.target} (s.fs.parents s.tx.data.target) s.fs
      (after o s).fs := by
  have hwrite := writeTarget_frame o true h
  rw [after_eq_left, handleDataSync_ap hcmd, appendFile]
  rcases hrun : writeTarget o true s with ⟨r, s'⟩ | ⟨e, s'⟩
  · rw [hrun] at hwrite
    exact hwrite
  · rw [hrun] at hwrite
    exact hwrite

theorem delete_frame (h : s.fs.Linkless) (hcmd : s.tx.cmd = .del) :
    Frame {l | s.fs.location s.tx.data.target <+: l} ∅ s.fs (after o s).fs := by
  rw [after_eq_left, handleDataSync_del hcmd, left_judge]
  exact removeAll_frame h s.tx.data.target o.remove

theorem copy_frame (h : s.fs.Linkless) (hcmd : s.tx.cmd = .cp) :
    Frame {s.fs.location s.tx.data.dest} (s.fs.parents s.tx.data.dest) s.fs (after o s).fs := by
  have hkeeps := readBinaryFile_keeps o s
  rw [after_eq_left, handleDataSync_cp hcmd, left_judge]
  refine onSuccess_frame hkeeps.fs fun s' hs' ↦ ?_
  rw [hs'] at hkeeps
  rw [← hkeeps.fs] at h
  rw [← hkeeps.fs, ← hkeeps.data]
  exact writeTarget_frame (s := (s'.judged .success s'.tx.status).redirected) o false h

/-- A source that was read. -/
theorem exists_bytes_of_sourceRead (hcmd : s.tx.cmd = .mv) (hsource : SourceRead o s) :
    ∃ bytes, s.fs.read s.tx.data.target = some bytes ∧ o.Reads bytes := by
  simp only [SourceRead, hcmd] at hsource
  obtain ⟨s', hs'⟩ := hsource
  obtain ⟨buffer, requested, hread⟩ := readBinaryFile_cases o s
  rcases hread with ⟨-, hread, hreads⟩ | ⟨-, ⟨e, hfails⟩ | ⟨r, hfails, hr, -⟩⟩
  · exact ⟨buffer, hread, hreads⟩
  · rw [hfails] at hs'
    cases hs'
  · rw [hfails] at hs'
    cases hs'
    exact absurd rfl hr

/-- The directory of a file that was read is there already. -/
theorem move_frame (h : s.fs.Linkless) (hcmd : s.tx.cmd = .mv) (hsource : SourceRead o s) :
    Frame {s.fs.location s.tx.data.target, s.fs.location s.tx.data.dest} ∅ s.fs
      (after o s).fs := by
  obtain ⟨bytes, hread, hreads⟩ := exists_bytes_of_sourceRead hcmd hsource
  obtain ⟨requested, hmv⟩ := handleDataSync_mv_of_reads hcmd hread hreads
  rw [after_eq_left, hmv]
  rcases hopened : opened o s.fs true s.tx.data.dest with _ | ⟨fs, i⟩
  · exact .refl s.fs
  obtain ⟨d, hfile⟩ := exists_opened hopened
  obtain ⟨j, hj, -⟩ := read_eq_some_iff.mp hread
  have hlinks := hfile.linkless h
  have hd := h.resolve hfile.resolve
  have htarget : fs.location s.tx.data.target = s.fs.location s.tx.data.target := by
    rw [location, location, hfile.workingDirectory]
  set moved : Set Location := {s.fs.location s.tx.data.target, s.fs.location s.tx.data.dest}
  have hopen : Frame moved ∅ s.fs fs :=
    (hfile.frame h).mono (by simp [moved, hd]) subset_rfl
  have hremove : Frame moved ∅ fs (fs.removeAll s.tx.data.target o.remove).1 :=
    (removeAll_file_frame hlinks (hfile.toExtends.inode hj) o.remove).mono
      (by simp [moved, htarget]) subset_rfl
  have happend : Frame moved ∅ (fs.removeAll s.tx.data.target o.remove).1
      ((fs.removeAll s.tx.data.target o.remove).1.append i (o.stored bytes)) := by
    refine .append _ fun l hl ↦ ?_
    have hl := (removeAll_extends fs s.tx.data.target o.remove).nodes l _ hl
    rw [hlinks.hard l d i hl hfile.placed.file, hd]
    exact Set.mem_insert_of_mem _ rfl
  have hall := (hopen.trans hremove).trans happend
  dsimp only
  split_ifs
  · exact hall
  · exact hall
  · exact hall

/-- Without links, a transaction changes only what is in its footprint. -/
theorem changes_within_footprint (o : Faults) (s : State) (hlinks : s.fs.Linkless) :
    (∀ l, (after o s).fs.entry l ≠ s.fs.entry l → l ∈ footprint s ∨
      l ∈ mayCreate s ∧ s.fs.entry l = none ∧ (after o s).fs.entry l = some .directory) ∧
    (¬ SourceRead o s → (after o s).fs = s.fs) := by
  refine ⟨fun l hl ↦ ?_, after_of_not_sourceRead⟩
  suffices hframe : Frame (footprint s) (mayCreate s) s.fs (after o s).fs from hframe.entry hl
  clear l hl
  unfold footprint mayCreate
  cases hcmd : s.tx.cmd with
  | rx => exact receive_frame hlinks hcmd
  | tx => exact send_frame hcmd
  | new => exact create_frame hlinks hcmd
  | cp => exact copy_frame hlinks hcmd
  | mv =>
    by_cases hsource : SourceRead o s
    · exact move_frame hlinks hcmd hsource
    · rw [after_of_not_sourceRead hsource]
      exact .refl s.fs
  | del => exact delete_frame hlinks hcmd
  | ap => exact append_frame hlinks hcmd
  | nop =>
    rw [after_eq_left, handleDataSync_nop hcmd]
    exact .refl s.fs
  | other code =>
    rw [after_eq_left, handleDataSync_other hcmd]
    exact .refl s.fs

end Commands

theorem moveExample_linkless : moveExample.fs.Linkless := by
  have hnodes : ∀ l node, moveExample.fs.nodes l = some node → node ≠ .directory → l = ["a"] := by
    intro l node hl hnode
    by_contra hne
    by_cases hroot : l = []
    · subst hroot
      exact hnode (by simpa [moveExample.fs.root_directory] using hl.symm)
    · simp [moveExample, singleFile, append, setContents, makeFile, empty, hne, hroot] at hl
  refine ⟨fun l path hl ↦ ?_, fun l l' i hl hl' ↦ ?_⟩
  · obtain rfl := hnodes l _ hl (by simp)
    cases hl
  · rw [hnodes l _ hl (by simp), hnodes l' _ hl' (by simp)]

/-- A move of `a` to `b` changes nothing else. -/
theorem changes_within_footprint_example :
    {l | (after noFaults moveExample).fs.entry l ≠ moveExample.fs.entry l} ⊆ {["a"], ["b"]} := by
  intro l hl
  rcases (changes_within_footprint noFaults moveExample moveExample_linkless).1 l hl with
    hmem | ⟨hmem, -⟩
  · exact hmem
  · exact hmem.elim

end WsServer.DataHandler
