import WsServer.DataHandler.Reports
import WsServer.DataHandler.Transfers

/-!
# Moving, and copying before deleting

`moveFile` copies by itself instead of calling `writeBinaryFile`, and it creates the directory of
the target, which is there, instead of the directory of the destination. `movesLikeCopyDelete_iff`
says that a move of a file does what `CP` and then `DEL` do exactly when the destination can be
opened without a new directory.
-/

set_option autoImplicit false
set_option relaxedAutoImplicit false

namespace WsServer.DataHandler

open Foundations

/-- The next transaction of a machine, with other commands on the same paths. -/
def State.commanded (s : State) (tx : DataTransaction) (cmd : OP) : State :=
  s.starting { tx with cmd := cmd }

/-- `MV`, and `CP` followed by `DEL` of the same target, end with the same status and the same
files. -/
def MovesLikeCopyDelete (s : State) : Prop :=
  ∃ moved copied deleted,
    handleDataSync noFaults (s.commanded s.tx .mv) = .ok () moved ∧
    handleDataSync noFaults (s.commanded s.tx .cp) = .ok () copied ∧
    handleDataSync noFaults (copied.commanded s.tx .del) = .ok () deleted ∧
    moved.tx.status = deleted.tx.status ∧ ∀ l, moved.fs.entry l = deleted.fs.entry l

/-! ### The commands -/

section Commands

variable {s : State} {bytes : List UInt8} {fs : FileSystem UInt8} {i : ℕ} {l : Location}

/-- The bytes are written after the entry of the target is gone. -/
theorem handleDataSync_move (hcmd : s.tx.cmd = .mv)
    (hread : s.fs.read s.tx.data.target = some bytes)
    (hopened : opened noFaults s.fs true s.tx.data.dest = some (fs, i)) :
    ∃ l s', s.fs.resolve .entry s.tx.data.target = .ok l ∧ handleDataSync noFaults s = .ok () s' ∧
      s'.tx.status = .success ∧ s'.fs = (fs.erase l []).append i bytes := by
  obtain ⟨d, hfile⟩ := exists_opened hopened
  obtain ⟨j, hj, -⟩ := FileSystem.read_eq_some_iff.mp hread
  obtain ⟨l, hl, hremoved⟩ := removeAll_target hfile hj none
  obtain ⟨requested, hmv⟩ := handleDataSync_mv_of_reads hcmd hread (noFaults_reads bytes)
  have hremove : noFaults.remove = none := rfl
  have hwrite : noFaults.write = none := rfl
  simp only [hopened, hremove, hremoved, hwrite, if_true] at hmv
  exact ⟨l, _, hl, hmv, rfl, rfl⟩

theorem handleDataSync_move_unopened (hcmd : s.tx.cmd = .mv)
    (hread : s.fs.read s.tx.data.target = some bytes)
    (hopened : opened noFaults s.fs true s.tx.data.dest = none) :
    ∃ s', handleDataSync noFaults s = .ok () s' ∧ s'.tx.status = .failure := by
  obtain ⟨requested, hmv⟩ := handleDataSync_mv_of_reads hcmd hread (noFaults_reads bytes)
  rw [hopened] at hmv
  exact ⟨_, hmv, rfl⟩

/-- A copy is a write to the destination. -/
theorem handleDataSync_copy (hcmd : s.tx.cmd = .cp)
    (hread : s.fs.read s.tx.data.target = some bytes) :
    ∃ s', s'.fs = s.fs ∧ s'.tx.data.target = s.tx.data.dest ∧ s'.buffer = bytes ∧
      handleDataSync noFaults s = judge (writeBinaryFile noFaults s') := by
  obtain ⟨requested, hrun⟩ := readBinaryFile_of_reads hread (noFaults_reads bytes)
  rw [handleDataSync_cp hcmd, hrun]
  let s₁ : State := { s with buffer := bytes, requested := requested }
  exact ⟨(s₁.judged .success s₁.tx.status).redirected, rfl, rfl, rfl, rfl⟩

theorem handleDataSync_copy_opened (hcmd : s.tx.cmd = .cp)
    (hread : s.fs.read s.tx.data.target = some bytes)
    (hopened : opened noFaults s.fs true s.tx.data.dest = some (fs, i)) :
    ∃ s', handleDataSync noFaults s = .ok () s' ∧ s'.fs = fs.append i bytes := by
  obtain ⟨s', hfs, htarget, rfl, hcp⟩ := handleDataSync_copy hcmd hread
  obtain ⟨d, hfile⟩ := exists_opened hopened
  have hcreated := parentCreated_of_resolve (o := noFaults) hfile.resolve
  have hwrite : noFaults.write = none := rfl
  rw [writeBinaryFile, writeTarget_eq, hfs, htarget] at hcp
  simp only [hcreated, Bool.not_false, hopened, hwrite, if_true] at hcp
  exact ⟨_, hcp, rfl⟩

/-- Every file is still there after a write. -/
theorem writeTarget_extends (o : Faults) (append : Bool) (s : State) :
    FileSystem.Extends s.fs (left (writeTarget o append s)).fs := by
  have hcreated := (parentCreated_extends o s.fs s.tx.data.target).1
  obtain ⟨fs, hleft, rfl | ⟨fs', i, hopened, rfl⟩⟩ := writeTarget_left o append s
  · rw [hleft]
    exact hcreated
  · obtain ⟨d, hfile⟩ := exists_opened hopened
    rw [hleft]
    exact (hcreated.trans hfile.toExtends).trans (.setContents i _)

/-- The target is still there after a copy. -/
theorem handleDataSync_copy_extends (hcmd : s.tx.cmd = .cp)
    (hread : s.fs.read s.tx.data.target = some bytes) {s' : State}
    (hreturn : handleDataSync noFaults s = .ok () s') : FileSystem.Extends s.fs s'.fs := by
  obtain ⟨s₁, hfs, -, -, hcp⟩ := handleDataSync_copy hcmd hread
  have hext := writeTarget_extends noFaults false s₁
  rw [hfs] at hext
  have hleft := left_judge (writeBinaryFile noFaults s₁)
  rw [← hcp, hreturn] at hleft
  exact hleft ▸ hext

/-- The entry of a file is removed. -/
theorem handleDataSync_delete (hcmd : s.tx.cmd = .del)
    (hi : s.fs.inode s.tx.data.target = some i)
    (hl : s.fs.resolve .entry s.tx.data.target = .ok l) :
    ∃ s', handleDataSync noFaults s = .ok () s' ∧ s'.tx.status = .success ∧
      s'.fs = s.fs.erase l [] := by
  have hremove : noFaults.remove = none := rfl
  rw [handleDataSync_del hcmd, hremove, FileSystem.removeAll_file hi hl]
  exact ⟨_, rfl, rfl, rfl⟩

end Commands

/-! ### The comparison -/

section Comparison

variable {s : State} {bytes : List UInt8}

/-- When the destination opens, all that differs is when the bytes are stored. -/
theorem movesLikeCopyDelete_of_openable (hread : s.fs.read s.tx.data.target = some bytes)
    (hdest : s.fs.Openable s.tx.data.dest) : MovesLikeCopyDelete s := by
  obtain ⟨⟨fs, i⟩, hopened⟩ : ∃ file, opened noFaults s.fs true s.tx.data.dest = some file :=
    Option.ne_none_iff_exists'.mp (FileSystem.openOutput_ne_none_iff.mpr hdest)
  obtain ⟨d, hfile⟩ := exists_opened hopened
  have hext := hfile.toExtends
  obtain ⟨j, hj, -⟩ := FileSystem.read_eq_some_iff.mp hread
  obtain ⟨l, moved, hl, hmove, hmoved, hmovedFs⟩ :=
    handleDataSync_move (s := s.commanded s.tx .mv) rfl hread hopened
  obtain ⟨copied, hcopy, hcopiedFs⟩ :=
    handleDataSync_copy_opened (s := s.commanded s.tx .cp) rfl hread hopened
  have hj' : copied.fs.inode s.tx.data.target = some j := by
    rw [hcopiedFs]
    exact hext.inode hj
  have hl' : copied.fs.resolve .entry s.tx.data.target = .ok l := by
    rw [hcopiedFs]
    exact hext.resolve rfl hl
  obtain ⟨deleted, hdelete, hdeleted, hdeletedFs⟩ :=
    handleDataSync_delete (s := copied.commanded s.tx .del) rfl hj' hl'
  refine ⟨moved, copied, deleted, hmove, hcopy, hdelete, hmoved.trans hdeleted.symm, fun x ↦ ?_⟩
  have hfs : deleted.fs = (copied.fs).erase l [] := hdeletedFs
  rw [hmovedFs, hfs, hcopiedFs]
  rfl

/-- When it does not open, the move leaves the target there, and `DEL` removes it. -/
theorem openable_of_movesLikeCopyDelete (hread : s.fs.read s.tx.data.target = some bytes)
    (hmoves : MovesLikeCopyDelete s) : s.fs.Openable s.tx.data.dest := by
  obtain ⟨moved, copied, deleted, hmove, hcopy, hdelete, hstatus, -⟩ := hmoves
  by_contra hdest
  have hopened : opened noFaults s.fs true s.tx.data.dest = none := by
    by_contra hne
    exact hdest (FileSystem.openOutput_ne_none_iff.mp hne)
  obtain ⟨moved', hmove', hfailure⟩ :=
    handleDataSync_move_unopened (s := s.commanded s.tx .mv) rfl hread hopened
  obtain ⟨j, hj, -⟩ := FileSystem.read_eq_some_iff.mp hread
  obtain ⟨l, -, hl, -⟩ := FileSystem.exists_entry hj
  have hext := handleDataSync_copy_extends (s := s.commanded s.tx .cp) rfl hread hcopy
  obtain ⟨deleted', hdelete', hsuccess, -⟩ := handleDataSync_delete
    (s := copied.commanded s.tx .del) rfl (hext.inode hj) (hext.resolve rfl hl)
  rw [hmove] at hmove'
  rw [hdelete] at hdelete'
  cases hmove'
  cases hdelete'
  rw [hfailure, hsuccess] at hstatus
  cases hstatus

/-- For which destinations a move of a file is a copy followed by a deletion. -/
theorem movesLikeCopyDelete_iff (hread : s.fs.read s.tx.data.target = some bytes) :
    MovesLikeCopyDelete s ↔ s.fs.Openable s.tx.data.dest :=
  ⟨openable_of_movesLikeCopyDelete hread, movesLikeCopyDelete_of_openable hread⟩

end Comparison

/-- The file `a` can be moved to `b` in this way. -/
theorem movesLikeCopyDelete_iff_example : MovesLikeCopyDelete moveExample :=
  (movesLikeCopyDelete_iff moveExample_read).mpr ⟨["b"], rfl, Or.inr ⟨rfl, rfl⟩⟩

/-- A destination in a directory that does not exist. -/
def newDirectoryExample : State :=
  { moveExample with
    tx :=
      { moveExample.tx with
        data := { target := ⟨false, ["a"]⟩, dest := ⟨false, ["d", "b"]⟩ } } }

/-- The move fails, and the copy creates the directory. -/
theorem new_directory_differs : ¬ MovesLikeCopyDelete newDirectoryExample := by
  intro hmoves
  have hread : newDirectoryExample.fs.read newDirectoryExample.tx.data.target = some [1] := rfl
  obtain ⟨l, hl, -⟩ := openable_of_movesLikeCopyDelete hread hmoves
  have hnoent : newDirectoryExample.fs.resolve .output newDirectoryExample.tx.data.dest =
      .error .noent := rfl
  rw [hnoent] at hl
  cases hl

end WsServer.DataHandler
