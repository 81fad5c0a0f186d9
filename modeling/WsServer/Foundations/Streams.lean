import Mathlib.Data.List.Basic
import Mathlib.Tactic

/-!
# Systems that hand something over

`respond` runs a step function that may be undefined and records what each step returns. When no
step loses, duplicates or reorders anything (`Conserves`), neither does a run: what has come out,
followed by what is inside, is what was inside, followed by what has gone in.
-/

set_option autoImplicit false
set_option relaxedAutoImplicit false

namespace WsServer.Foundations

variable {S A O Item : Type} {step : S → A → Option (S × O)}

/-- The steps `actions` from `s` on: the last state, and every action with its result. -/
def respond (step : S → A → Option (S × O)) (s : S) : List A → Option (S × List (A × O))
  | [] => some (s, [])
  | a :: actions => do
    let (s₁, o) ← step s a
    let (s', log) ← respond step s₁ actions
    some (s', (a, o) :: log)

section Respond

variable {s s' : S} {a : A} {actions : List A} {log : List (A × O)}

theorem respond_cons : respond step s (a :: actions) = some (s', log) ↔
    ∃ s₁ o rest, step s a = some (s₁, o) ∧ respond step s₁ actions = some (s', rest) ∧
      log = (a, o) :: rest := by
  simp only [respond, bind, Option.bind_eq_some_iff, Option.some_inj, Prod.mk.injEq, Prod.exists]
  constructor
  · rintro ⟨s₁, o, hstep, s'', rest, hrest, rfl, rfl⟩
    exact ⟨s₁, o, rest, hstep, hrest, rfl⟩
  · rintro ⟨s₁, o, rest, hstep, hrest, rfl⟩
    exact ⟨s₁, o, hstep, s', rest, hrest, rfl, rfl⟩

/-- What every step keeps holds at the end. -/
theorem respond_invariant {P : S → Prop}
    (hstep : ∀ s a s' o, P s → step s a = some (s', o) → P s') (hs : P s)
    (hrun : respond step s actions = some (s', log)) : P s' := by
  induction actions generalizing s log with
  | nil =>
    cases hrun
    exact hs
  | cons a actions ih =>
    obtain ⟨s₁, o, rest, hfirst, hrest, -⟩ := respond_cons.mp hrun
    exact ih (hstep s a s₁ o hs hfirst) hrest

end Respond

/-- From a state with `P` a step keeps `P`, takes `ins` in at the back and `outs` out in front. -/
def Conserves (step : S → A → Option (S × O)) (P : S → Prop) (inside : S → List Item)
    (ins outs : A × O → List Item) : Prop :=
  ∀ s a s' o, P s → step s a = some (s', o) →
    P s' ∧ inside s ++ ins (a, o) = outs (a, o) ++ inside s'

variable {P : S → Prop} {inside : S → List Item} {ins outs : A × O → List Item}

/-- Neither does a run lose, duplicate or reorder anything. -/
theorem Conserves.respond (h : Conserves step P inside ins outs) {s s' : S} {actions : List A}
    {log : List (A × O)} (hs : P s) (hrun : respond step s actions = some (s', log)) :
    inside s ++ log.flatMap ins = log.flatMap outs ++ inside s' := by
  induction actions generalizing s log with
  | nil =>
    cases hrun
    simp
  | cons a actions ih =>
    obtain ⟨s₁, o, rest, hfirst, hrest, rfl⟩ := respond_cons.mp hrun
    obtain ⟨hs₁, hkept⟩ := h s a s₁ o hs hfirst
    rw [List.flatMap_cons, List.flatMap_cons, ← List.append_assoc, hkept, List.append_assoc,
      ih hs₁ hrest, List.append_assoc]

end WsServer.Foundations
