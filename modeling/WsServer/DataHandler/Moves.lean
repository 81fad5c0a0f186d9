import WsServer.DataHandler.Steps

/-!
# What a move does to the data

`moveFile` removes the target without a look at the result of the write, and the destination is
closed only afterwards. `keepsData_iff` says for which destinations and which failing steps the
bytes of the target survive a move all the same.
-/

set_option autoImplicit false
set_option relaxedAutoImplicit false

namespace WsServer.DataHandler

open Foundations

/-- A move of a file with these bytes loses nothing: the target or the destination has the bytes,
and when the call returns its status says which one. -/
structure KeepsData (o : Faults) (s : State) (bytes : List UInt8) : Prop where
  kept : (after o s).fs.read s.tx.data.target = some bytes ∨
    (after o s).fs.read s.tx.data.dest = some bytes
  success : ∀ s', handleDataSync o s = .ok () s' → s'.tx.status = .success →
    s'.fs.read s.tx.data.dest = some bytes
  failure : ∀ s', handleDataSync o s = .ok () s' → s'.tx.status = .failure →
    s'.fs.read s.tx.data.target = some bytes

/-- The destination leads to the same place when the entry of the target is gone, and not to this
entry. -/
def DestSurvives (s : State) : Prop :=
  ∀ l, s.fs.resolve .entry s.tx.data.target = .ok l →
    (s.fs.erase l []).resolve .output s.tx.data.dest = s.fs.resolve .output s.tx.data.dest ∧
      s.fs.resolve .output s.tx.data.dest ≠ .ok l

/-- The steps and paths with which a move loses nothing. It matters what happens once the target is
read and the destination open: when the target can be removed, everything must be written, flushed
and at a place that survives the removal; when it cannot, the destination must be another file or
get everything. -/
def MoveSafe (o : Faults) (s : State) (bytes : List UInt8) : Prop :=
  o.Reads bytes → opened o s.fs true s.tx.data.dest ≠ none →
    (o.remove = none → o.write = none ∧ o.flushed bytes = bytes ∧ DestSurvives s) ∧
    (o.remove ≠ none → s.fs.SameFile s.tx.data.target s.tx.data.dest → o.stored bytes = bytes)

section Move

variable {o : Faults} {s : State} {bytes : List UInt8}

/-- A call that changes no file. -/
theorem KeepsData.of_fs_eq (hread : s.fs.read s.tx.data.target = some bytes)
    (hfs : (after o s).fs = s.fs)
    (hstatus : ∀ s', handleDataSync o s = .ok () s' → s'.tx.status ≠ .success) :
    KeepsData o s bytes where
  kept := Or.inl (by rw [hfs, hread])
  success := fun s' hreturn hsuccess ↦ absurd hsuccess (hstatus s' hreturn)
  failure := fun s' hreturn _ ↦ by
    have hs' : after o s = s' := by simp [after, hreturn]
    rw [← hs', hfs, hread]

/-- The directory of the target is there. -/
theorem parentCreated_target (hread : s.fs.read s.tx.data.target = some bytes) :
    parentCreated o s.fs s.tx.data.target = (s.fs, true) := by
  obtain ⟨i, hi, -⟩ := FileSystem.read_eq_some_iff.mp hread
  obtain ⟨l, hl, -⟩ := FileSystem.inode_eq_some_iff.mp hi
  exact parentCreated_of_resolve hl

/-- Nothing happens when the target cannot be read. -/
theorem keepsData_of_not_reads (hcmd : s.tx.cmd = .mv)
    (hread : s.fs.read s.tx.data.target = some bytes) (hreads : ¬ o.Reads bytes) :
    KeepsData o s bytes := by
  obtain ⟨buffer, requested, h⟩ := readBinaryFile_cases o s
  rcases h with ⟨-, hbuffer, hbytes⟩ | ⟨-, ⟨e, hrun⟩ | ⟨r, hrun, hr, -⟩⟩
  · obtain rfl : bytes = buffer := by simpa [hread] using hbuffer
    exact absurd hbytes hreads
  · have hmv : handleDataSync o s =
        .error e { s with buffer := buffer, requested := requested } := by
      rw [handleDataSync_mv hcmd, moveFile_eq, hrun]
      rfl
    exact .of_fs_eq hread (by simp [after, hmv]) (by simp [hmv])
  · have hmv : handleDataSync o s =
        .ok () ({ s with buffer := buffer, requested := requested }.judged r .failure) := by
      rw [handleDataSync_mv hcmd, moveFile_eq, hrun]
      simp [hr, judge, FileResult.status]
    exact .of_fs_eq hread (by simp [after, hmv]) (by simp [hmv])

/-- A move whose target was read. -/
theorem handleDataSync_mv_of_reads (hcmd : s.tx.cmd = .mv)
    (hread : s.fs.read s.tx.data.target = some bytes) (hreads : o.Reads bytes) :
    ∃ requested, handleDataSync o s =
      let s' := { s with buffer := bytes, requested := requested }
      match opened o s.fs true s.tx.data.dest with
      | none => .ok () (s'.judged .openFailure .failure)
      | some (fs, i) =>
        let removed := fs.removeAll s.tx.data.target o.remove
        let s'' := { s' with fs := removed.1.append i (o.stored bytes) }
        if removed.2 then
          if o.write = none then .ok () (s''.judged .success .success)
          else .ok () (s''.judged .writeFailure .failure)
        else .error .filesystemError s'' := by
  obtain ⟨requested, hrun⟩ := readBinaryFile_of_reads hread hreads
  refine ⟨requested, ?_⟩
  rw [handleDataSync_mv hcmd, moveFile_eq, hrun]
  simp only [if_true, parentCreated_target hread]
  rcases opened o s.fs true s.tx.data.dest with _ | ⟨fs, i⟩
  · rfl
  · dsimp only
    by_cases hremoved : (fs.removeAll s.tx.data.target o.remove).2 = true
    · by_cases hwrite : o.write = none <;> simp [hremoved, hwrite, judge, FileResult.status]
    · simp [hremoved, judge]

/-- Nothing happens when the destination does not open. -/
theorem keepsData_of_not_opened (hcmd : s.tx.cmd = .mv)
    (hread : s.fs.read s.tx.data.target = some bytes) (hreads : o.Reads bytes)
    (hopened : opened o s.fs true s.tx.data.dest = none) : KeepsData o s bytes := by
  obtain ⟨requested, hmv⟩ := handleDataSync_mv_of_reads hcmd hread hreads
  rw [hopened] at hmv
  exact .of_fs_eq hread (by simp [after, hmv]) (by simp [hmv])

section Opened

variable {fs : FileSystem UInt8} {i j : ℕ} {d l : Location}

/-- The removal of the target once the destination is open. -/
theorem removeAll_target (hopened : FileSystem.Opened s.fs true s.tx.data.dest fs d i)
    (hj : s.fs.inode s.tx.data.target = some j) (leaves : Option (List Location)) :
    ∃ l, s.fs.resolve .entry s.tx.data.target = .ok l ∧ fs.removeAll s.tx.data.target leaves =
      if leaves = none then (fs.erase l [], true) else (fs, false) := by
  obtain ⟨l, -, hl, -⟩ := FileSystem.exists_entry hj
  have hext := hopened.toExtends
  exact ⟨l, hl, FileSystem.removeAll_file (hext.inode hj) (hext.resolve rfl hl) leaves⟩

/-- What the target names after the removal. -/
theorem read_target_removed (hopened : FileSystem.Opened s.fs true s.tx.data.dest fs d i)
    (hj : s.fs.inode s.tx.data.target = some j)
    (hl : s.fs.resolve .entry s.tx.data.target = .ok l) (stored : List UInt8) :
    ((fs.erase l []).append i stored).read s.tx.data.target = none := by
  have hext := hopened.toExtends
  have hgone := FileSystem.inode_erase (hext.inode hj) (hext.resolve rfl hl)
  simp [FileSystem.read, hgone]

/-- What the destination names after the removal. -/
theorem read_dest_removed_iff (hopened : FileSystem.Opened s.fs true s.tx.data.dest fs d i)
    (hj : s.fs.inode s.tx.data.target = some j)
    (hl : s.fs.resolve .entry s.tx.data.target = .ok l) (stored : List UInt8) :
    ((fs.erase l []).append i stored).read s.tx.data.dest = some bytes ↔
      stored = bytes ∧ DestSurvives s := by
  obtain ⟨l', node, hl', hnode, hfile⟩ := FileSystem.exists_entry hj
  obtain rfl : l = l' := by simpa [hl] using hl'
  have hempty : (fs.erase l []).contents i = [] := hopened.truncated rfl
  have hsurvives : DestSurvives s ↔
      (s.fs.erase l []).resolve .output s.tx.data.dest = s.fs.resolve .output s.tx.data.dest ∧
        s.fs.resolve .output s.tx.data.dest ≠ .ok l := by
    simp [DestSurvives, hl]
  rw [FileSystem.read_eq_some_iff, hsurvives]
  simp only [FileSystem.inode_append, hopened.inode_erase hnode hfile]
  constructor
  · rintro ⟨k, ⟨rfl, hdest⟩, hcontents⟩
    rw [FileSystem.contents_append_self, hempty, List.nil_append] at hcontents
    exact ⟨hcontents, hdest⟩
  · rintro ⟨hcontents, hdest⟩
    refine ⟨i, ⟨rfl, hdest⟩, ?_⟩
    rw [FileSystem.contents_append_self, hempty, List.nil_append, hcontents]

end Opened

/-- The target is removed whatever became of the write. -/
theorem keepsData_removed_iff (hcmd : s.tx.cmd = .mv)
    (hread : s.fs.read s.tx.data.target = some bytes) (hreads : o.Reads bytes)
    (hopens : opened o s.fs true s.tx.data.dest ≠ none) (hremove : o.remove = none) :
    KeepsData o s bytes ↔ o.write = none ∧ o.flushed bytes = bytes ∧ DestSurvives s := by
  obtain ⟨⟨fs, i⟩, hopen⟩ := Option.ne_none_iff_exists'.mp hopens
  obtain ⟨d, hopened⟩ := exists_opened hopen
  obtain ⟨j, hj, -⟩ := FileSystem.read_eq_some_iff.mp hread
  obtain ⟨l, hl, hremoved⟩ := removeAll_target hopened hj none
  obtain ⟨requested, hmv⟩ := handleDataSync_mv_of_reads hcmd hread hreads
  simp only [hopen, hremove, hremoved, if_true] at hmv
  have htarget := read_target_removed hopened hj hl (o.stored bytes)
  have hdest : ((fs.erase l []).append i (o.stored bytes)).read s.tx.data.dest = some bytes ↔
      o.stored bytes = bytes ∧ DestSurvives s :=
    read_dest_removed_iff hopened hj hl (o.stored bytes)
  by_cases hwrite : o.write = none
  · have hstored : o.stored bytes = o.flushed bytes := by simp [Faults.stored, hwrite]
    rw [if_pos hwrite] at hmv
    rw [hstored] at hdest
    constructor
    · intro hkeeps
      exact ⟨hwrite, hdest.mp (by simpa [hstored] using hkeeps.success _ hmv rfl)⟩
    · rintro ⟨-, hdata⟩
      have hs' := hdest.mpr hdata
      refine ⟨Or.inr ?_, ?_, ?_⟩
      · simpa [after, hmv, hstored] using hs'
      · rw [hmv]
        rintro s' ⟨⟩ -
        simpa [hstored] using hs'
      · rw [hmv]
        rintro s' ⟨⟩ hfailure
        simp at hfailure
  · rw [if_neg hwrite] at hmv
    constructor
    · intro hkeeps
      have hlost := hkeeps.failure _ hmv rfl
      simp [htarget] at hlost
    · exact fun h ↦ absurd h.1 hwrite

/-- The target cannot be removed, and the call throws. -/
theorem keepsData_stuck_iff (hcmd : s.tx.cmd = .mv)
    (hread : s.fs.read s.tx.data.target = some bytes) (hreads : o.Reads bytes)
    (hopens : opened o s.fs true s.tx.data.dest ≠ none) (hremove : o.remove ≠ none) :
    KeepsData o s bytes ↔
      (s.fs.SameFile s.tx.data.target s.tx.data.dest → o.stored bytes = bytes) := by
  obtain ⟨⟨fs, i⟩, hopen⟩ := Option.ne_none_iff_exists'.mp hopens
  obtain ⟨d, hopened⟩ := exists_opened hopen
  obtain ⟨j, hj, hbytes⟩ := FileSystem.read_eq_some_iff.mp hread
  obtain ⟨l, -, hremoved⟩ := removeAll_target hopened hj o.remove
  have hext := hopened.toExtends
  obtain ⟨requested, hmv⟩ := handleDataSync_mv_of_reads hcmd hread hreads
  simp only [hopen, hremoved, hremove, if_false, Bool.false_eq_true] at hmv
  have hempty : fs.contents i = [] := hopened.truncated rfl
  have hsame : s.fs.SameFile s.tx.data.target s.tx.data.dest ↔ j = i := by
    constructor
    · rintro ⟨k, hk, hk'⟩
      obtain rfl : j = k := by simpa [hj] using hk
      simpa [hopened.inode] using (hext.inode hk').symm
    · rintro rfl
      exact ⟨j, hj, hopened.inode_before (FileSystem.inode_lt_bound hj)⟩
  have hafter : (after o s).fs = fs.append i (o.stored bytes) := by simp [after, hmv]
  have htarget : (after o s).fs.read s.tx.data.target = some bytes ↔
      (j = i → o.stored bytes = bytes) := by
    rw [hafter, FileSystem.read, FileSystem.inode_append, hext.inode hj, Option.map_some,
      Option.some_inj]
    by_cases hji : j = i
    · subst hji
      simp [hempty]
    · simp [FileSystem.contents_append_of_ne hji, hopened.other j hji, hbytes, hji]
  have hdest : (after o s).fs.read s.tx.data.dest = some bytes ↔ o.stored bytes = bytes := by
    rw [hafter, FileSystem.read, FileSystem.inode_append, hopened.inode, Option.map_some,
      Option.some_inj, FileSystem.contents_append_self, hempty, List.nil_append]
  rw [hsame]
  constructor
  · intro hkeeps hji
    rcases hkeeps.kept with hkept | hkept
    · exact htarget.mp hkept hji
    · exact hdest.mp hkept
  · exact fun hkept ↦ ⟨Or.inl (htarget.mpr hkept), by simp [hmv], by simp [hmv]⟩

/-- For which failing steps and paths a move of a file loses nothing. -/
theorem keepsData_iff (hcmd : s.tx.cmd = .mv)
    (hread : s.fs.read s.tx.data.target = some bytes) :
    KeepsData o s bytes ↔ MoveSafe o s bytes := by
  by_cases hreads : o.Reads bytes
  · by_cases hopens : opened o s.fs true s.tx.data.dest = none
    · exact iff_of_true (keepsData_of_not_opened hcmd hread hreads hopens)
        fun _ hne ↦ absurd hopens hne
    · by_cases hremove : o.remove = none
      · rw [keepsData_removed_iff hcmd hread hreads hopens hremove]
        exact ⟨fun h _ _ ↦ ⟨fun _ ↦ h, fun hne ↦ absurd hremove hne⟩,
          fun h ↦ (h hreads hopens).1 hremove⟩
      · rw [keepsData_stuck_iff hcmd hread hreads hopens hremove]
        exact ⟨fun h _ _ ↦ ⟨fun heq ↦ absurd heq hremove, fun _ ↦ h⟩,
          fun h ↦ (h hreads hopens).2 hremove⟩
  · exact iff_of_true (keepsData_of_not_reads hcmd hread hreads) fun h ↦ absurd h hreads

end Move

/-- A move of the file `a` to `b` in an otherwise empty file system. -/
def moveExample : State where
  fs := .singleFile "a" [1]
  ws := { isOpen := false, binary := false, incoming := [], outgoing := [] }
  buffer := []
  requested := []
  tx :=
    { cmd := .mv
      data := { target := ⟨false, ["a"]⟩, dest := ⟨false, ["b"]⟩ }
      fileResult := .pending
      status := .pending }

theorem moveExample_read : moveExample.fs.read moveExample.tx.data.target = some [1] := rfl

/-- Without a failing step this move is safe. -/
theorem keepsData_iff_example : KeepsData noFaults moveExample [1] := by
  refine (keepsData_iff rfl moveExample_read).mpr fun _ _ ↦ ⟨fun _ ↦ ⟨rfl, rfl, ?_⟩, ?_⟩
  · intro l hl
    have hentry : moveExample.fs.resolve .entry moveExample.tx.data.target = .ok ["a"] := rfl
    have hdest : moveExample.fs.resolve .output moveExample.tx.data.dest = .ok ["b"] := rfl
    obtain rfl : ["a"] = l := by simpa [hentry] using hl
    rw [hdest]
    exact ⟨rfl, by simp⟩
  · exact fun hremove ↦ absurd rfl hremove

/-- The file is larger than the buffer of a stream, so that it is written before it is removed. -/
def largeBytes : List UInt8 := List.replicate 10000 1

def largeMoveExample : State := { moveExample with fs := .singleFile "a" largeBytes }

theorem largeMoveExample_read :
    largeMoveExample.fs.read largeMoveExample.tx.data.target = some largeBytes := rfl

/-- On a full disk nothing is written, and the file is removed all the same. -/
theorem data_lost :
    ¬ KeepsData { noFaults with write := some 0 } largeMoveExample largeBytes := by
  have hreads : Faults.Reads { noFaults with write := some 0 } largeBytes :=
    ⟨rfl, rfl, Or.inr ⟨rfl, rfl⟩⟩
  have hopens : opened { noFaults with write := some 0 } largeMoveExample.fs true
      largeMoveExample.tx.data.dest ≠ none := by decide
  rw [keepsData_removed_iff rfl largeMoveExample_read hreads hopens rfl]
  simp

end WsServer.DataHandler
