import WsServer.DataHandler.Steps

/-!
# The verdicts of finished transactions

Of the eight commands, `AP` sets no status: after it the status is what it was, and so is the whole
verdict after a command that is none of the eight. `coherent_iff` says that all others end with a
coherent verdict whenever they return.
-/

set_option autoImplicit false
set_option relaxedAutoImplicit false

namespace WsServer.DataHandler

open Foundations

/-- A finished transaction has a verdict, and its two parts agree. -/
def DataTransaction.Coherent (tx : DataTransaction) : Prop :=
  tx.fileResult ≠ .pending ∧ tx.status ≠ .pending ∧
    (tx.status = .success ↔ tx.fileResult = .success)

/-- The functions never answer `PENDING`. -/
def Decided (x : EStateM.Result Exception State FileResult) : Prop :=
  ∀ r s, x = .ok r s → r ≠ .pending

theorem Decided.ok {r : FileResult} {s : State} (hr : r ≠ .pending) : Decided (.ok r s) := by
  intro r' s' hok
  cases hok
  exact hr

theorem Decided.error {e : Exception} {s : State} : Decided (.error e s) := by
  intro r s' hok
  cases hok

theorem readBinaryFile_decided (o : Faults) (s : State) : Decided (readBinaryFile o s) := by
  obtain ⟨buffer, requested, h⟩ := readBinaryFile_cases o s
  rcases h with ⟨hread, -, -⟩ | ⟨-, ⟨e, hread⟩ | ⟨r, hread, -, hr⟩⟩
  · rw [hread]
    exact .ok (by simp)
  · rw [hread]
    exact .error
  · rw [hread]
    exact .ok hr

theorem writeTarget_decided (o : Faults) (append : Bool) (s : State) :
    Decided (writeTarget o append s) := by
  rw [writeTarget_eq]
  dsimp only
  split_ifs
  · split
    · exact .ok (by simp)
    · exact .ok (by simp)
  · split
    · exact .ok (by simp)
    · exact .ok (by simp)
  · exact .error

theorem moveFile_decided (o : Faults) (s : State) : Decided (moveFile o s) := by
  have hread := readBinaryFile_decided o s
  rw [moveFile_eq]
  split
  · exact .error
  rename_i res s' hres
  by_cases hsuccess : res = .success
  · rw [if_pos hsuccess]
    dsimp only
    split
    · split
      · exact .ok (by simp)
      · split
        · exact .ok (by split_ifs <;> simp)
        · exact .error
    · exact .error
  · rw [if_neg hsuccess]
    exact .ok (hread res s' hres)

theorem sendBinaryToWebSocket_decided (o : Faults) (s : State) :
    Decided (sendBinaryToWebSocket o s) := by
  rw [sendBinaryToWebSocket_eq]
  dsimp only
  split_ifs
  · exact .ok (by simp)
  · exact .error
  · exact .ok (by simp)

theorem readBinaryFromWebSocket_decided (o : Faults) (s : State) :
    Decided (readBinaryFromWebSocket o s) := by
  rw [readBinaryFromWebSocket_eq]
  dsimp only
  split_ifs
  · exact .ok (by simp)
  · exact .error
  · split
    · exact .error
    · exact .ok (by simp)

theorem Decided.onSuccess {x : EStateM.Result Exception State FileResult}
    {f : State → EStateM.Result Exception State FileResult} (hx : Decided x)
    (hf : ∀ s, Decided (f s)) : Decided (onSuccess x f) := by
  cases x with
  | error e s => exact .error
  | ok r s =>
    show Decided (if r = .success then f (s.judged r s.tx.status) else .ok r s)
    by_cases hr : r = .success
    · rw [if_pos hr]
      exact hf _
    · rw [if_neg hr]
      exact hx

/-- A verdict taken from the result of a function is coherent. -/
theorem coherent_of_judge {x : EStateM.Result Exception State FileResult} {s' : State}
    (hx : Decided x) (hjudge : judge x = .ok () s') : s'.tx.Coherent := by
  cases x with
  | error e s => cases hjudge
  | ok r s =>
    cases hjudge
    refine ⟨hx r s rfl, ?_, ?_⟩
    · show r.status ≠ .pending
      unfold FileResult.status
      split_ifs <;> simp
    · show r.status = .success ↔ r = .success
      unfold FileResult.status
      split_ifs with hr <;> simp [hr]

/-- The eight commands but `AP`. -/
theorem coherent_of_cmd {o : Faults} {s s' : State} (hap : s.tx.cmd ≠ .ap)
    (hother : ∀ code, s.tx.cmd ≠ .other code) (hreturn : handleDataSync o s = .ok () s') :
    s'.tx.Coherent := by
  cases hcmd : s.tx.cmd with
  | rx =>
    rw [handleDataSync_rx hcmd] at hreturn
    exact coherent_of_judge ((readBinaryFromWebSocket_decided o s).onSuccess fun s ↦
      writeTarget_decided o false s) hreturn
  | tx =>
    rw [handleDataSync_tx hcmd] at hreturn
    exact coherent_of_judge ((readBinaryFile_decided o s).onSuccess fun s ↦
      sendBinaryToWebSocket_decided o s) hreturn
  | new =>
    rw [handleDataSync_new hcmd] at hreturn
    split at hreturn
    · exact coherent_of_judge (.ok (by split_ifs <;> simp)) hreturn
    · cases hreturn
  | del =>
    rw [handleDataSync_del hcmd] at hreturn
    exact coherent_of_judge (.ok (by split_ifs <;> simp)) hreturn
  | cp =>
    rw [handleDataSync_cp hcmd] at hreturn
    exact coherent_of_judge ((readBinaryFile_decided o s).onSuccess fun s ↦
      writeTarget_decided o false s.redirected) hreturn
  | mv =>
    rw [handleDataSync_mv hcmd] at hreturn
    exact coherent_of_judge (moveFile_decided o s) hreturn
  | ap => exact absurd hcmd hap
  | nop =>
    rw [handleDataSync_nop hcmd] at hreturn
    cases hreturn
    exact ⟨by simp [State.judged], by simp [State.judged], by simp [State.judged]⟩
  | other code => exact absurd hcmd (hother code)

/-! ### The two commands that set no status -/

/-- An append to the target succeeds: it opens and takes the whole buffer. -/
def Appends (o : Faults) (s : State) : Prop :=
  opened o (parentCreated o s.fs s.tx.data.target).1 false s.tx.data.target ≠ none ∧
    o.write = none

/-- The verdict is there before the call when the command does not set it: for `AP` the status that
the append will deserve, unless the directory of the target cannot be created, and for a command
without a case the whole verdict. -/
def VerdictReady (o : Faults) (s : State) : Prop :=
  (s.tx.cmd = .ap → (parentCreated o s.fs s.tx.data.target).2 = true →
    s.tx.status ≠ .pending ∧ (s.tx.status = .success ↔ Appends o s)) ∧
  ∀ code, s.tx.cmd = .other code → s.tx.Coherent

/-- After an append, which returns when the directory can be created. -/
theorem coherent_append_iff {o : Faults} {s : State} (hcmd : s.tx.cmd = .ap) :
    (∀ s', handleDataSync o s = .ok () s' → s'.tx.Coherent) ↔
      ((parentCreated o s.fs s.tx.data.target).2 = true →
        s.tx.status ≠ .pending ∧ (s.tx.status = .success ↔ Appends o s)) := by
  rw [handleDataSync_ap hcmd, appendFile, writeTarget_eq]
  dsimp only
  by_cases hcreated : (parentCreated o s.fs s.tx.data.target).2 = true
  · rw [if_pos hcreated]
    unfold Appends
    rcases hopened : opened o (parentCreated o s.fs s.tx.data.target).1 (!true)
      s.tx.data.target with _ | ⟨fs, i⟩
    · rw [Bool.not_true] at hopened
      simp [hopened, hcreated, DataTransaction.Coherent, State.judged]
    · rw [Bool.not_true] at hopened
      by_cases hwrite : o.write = none <;>
        simp [hopened, hcreated, hwrite, DataTransaction.Coherent, State.judged]
  · rw [if_neg hcreated]
    simp [hcreated]

/-- A call that returns leaves a coherent verdict exactly when the verdict was there before for a
command that sets none. -/
theorem coherent_iff (o : Faults) (s : State) :
    (∀ s', handleDataSync o s = .ok () s' → s'.tx.Coherent) ↔ VerdictReady o s := by
  unfold VerdictReady
  by_cases hap : s.tx.cmd = .ap
  · simp only [hap, coherent_append_iff hap, reduceCtorEq, forall_const, false_implies, and_true]
  by_cases hother : ∃ code, s.tx.cmd = .other code
  · obtain ⟨code, hcode⟩ := hother
    simp [handleDataSync_other hcode, hcode]
  · rw [not_exists] at hother
    exact iff_of_true (fun s' hreturn ↦ coherent_of_cmd hap hother hreturn)
      ⟨fun h ↦ absurd h hap, fun code hcode ↦ absurd hcode (hother code)⟩

/-- An append to a new file in an empty file system. -/
def appendExample : State where
  fs := .empty
  ws := { isOpen := false, binary := false, incoming := [], outgoing := [] }
  buffer := [1]
  requested := []
  tx :=
    { cmd := .ap
      data := { target := ⟨false, ["log"]⟩, dest := ⟨false, []⟩ }
      fileResult := .pending
      status := .pending }

/-- The status of an append is still pending when it returns. -/
theorem append_pending : ∃ s', handleDataSync noFaults appendExample = .ok () s' ∧
    ¬ s'.tx.Coherent := by
  by_contra hall
  have hready := (coherent_append_iff (o := noFaults) (s := appendExample) rfl).mp
    fun s' hreturn ↦ by_contra fun hs' ↦ hall ⟨s', hreturn, hs'⟩
  exact (hready rfl).1 rfl

end WsServer.DataHandler
