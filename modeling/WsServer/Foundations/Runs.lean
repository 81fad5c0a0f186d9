import Mathlib.Data.List.Basic
import Mathlib.Tactic

/-!
# Runs of a transition system

A system is a step function that may be undefined, `step : S → A → Option S`, or a step relation
`step : S → A → S → Prop`. A run of a step function is its fold over the list of actions, and a
relation to an abstract system that one step keeps, is kept by every run.

`Execution step s₀ h s` records in `h` the steps of a relation that lead from `s₀` to `s`.
`Throughout` is what a property of one step, given the steps before it, says about a whole run.
`Execution.throughout_iff` lifts an equivalence of two such properties from one step to every run.

`Simulates` relates two systems by what their steps show: every step of the first is matched by
steps of the second that show the same, and so is every run (`Simulates.run`).
-/

set_option autoImplicit false
set_option relaxedAutoImplicit false

namespace WsServer.Foundations

variable {S A : Type}

/-! ### Calls that may throw -/

theorem bind_eq_ok_iff {Error α β : Type} {x : Except Error α} {f : α → Except Error β} {y : β} :
    (x >>= f) = .ok y ↔ ∃ a, x = .ok a ∧ f a = .ok y := by
  cases x with
  | error e => simp [bind, Except.bind]
  | ok a => simp [bind, Except.bind]

/-- A guard in front of a call: it throws unless the condition is false. -/
theorem ite_throw_bind_eq_ok_iff {Error α β : Type} {c : Prop} [Decidable c] {e : Error}
    {f : α → Except Error β} {x : Except Error β} {y : β} :
    (if c then (throw e : Except Error α) >>= f else x) = .ok y ↔ ¬ c ∧ x = .ok y := by
  by_cases hc : c
  · simp [hc, bind, Except.bind, throw, throwThe, MonadExceptOf.throw]
  · simp [hc]

/-! ### Folds -/

section Folds

variable {T : Type}

/-- Forward simulation: when every step from related states is defined and ends in related states,
so is every run. -/
theorem foldlM_refines {R : S → T → Prop} {step : S → A → Option S} {spec : T → A → T}
    (hstep : ∀ s t a, R s t → ∃ s', step s a = some s' ∧ R s' (spec t a)) (actions : List A)
    {s : S} {t : T} (hst : R s t) :
    ∃ s', actions.foldlM step s = some s' ∧ R s' (actions.foldl spec t) := by
  induction actions generalizing s t with
  | nil => exact ⟨s, rfl, hst⟩
  | cons a actions ih =>
    obtain ⟨s₁, hrun, hst₁⟩ := hstep s t a hst
    obtain ⟨s', hruns, hst'⟩ := ih hst₁
    exact ⟨s', by simp [hrun, hruns], hst'⟩

/-- When every step from a state with the invariant is defined and keeps it, so is every run. -/
theorem foldlM_invariant {P : S → Prop} {step : S → A → Option S}
    (hstep : ∀ s a, P s → ∃ s', step s a = some s' ∧ P s') (actions : List A) {s : S} (hs : P s) :
    ∃ s', actions.foldlM step s = some s' ∧ P s' :=
  @foldlM_refines S A Unit (fun s _ ↦ P s) step (fun _ _ ↦ ()) (fun s _ a ↦ hstep s a) actions s ()
    hs

end Folds

/-! ### Recorded runs -/

/-- Splitting a longer list at an element: at its last one or before. -/
theorem concat_eq_split {E : Type} {h pre post : List E} {x y : E}
    (hsplit : h ++ [x] = pre ++ y :: post) :
    (pre = h ∧ y = x ∧ post = []) ∨ ∃ post', post = post' ++ [x] ∧ h = pre ++ y :: post' := by
  rcases List.eq_nil_or_concat post with rfl | ⟨post', z, rfl⟩
  · obtain ⟨rfl, hx⟩ := List.append_inj' hsplit rfl
    exact Or.inl ⟨rfl, (List.singleton_injective hx).symm, rfl⟩
  · rw [List.concat_eq_append, ← List.cons_append, ← List.append_assoc] at hsplit
    obtain ⟨rfl, hx⟩ := List.append_inj' hsplit rfl
    obtain rfl := List.singleton_injective hx
    exact Or.inr ⟨post', List.concat_eq_append, rfl⟩

/-- A step of a run with the states around it. -/
structure Transition (S A : Type) where
  before : S
  action : A
  after : S

/-- The steps `h`, in this order, lead from `s₀` to the last state. -/
inductive Execution (step : S → A → S → Prop) (s₀ : S) : List (Transition S A) → S → Prop
  | start : Execution step s₀ [] s₀
  | snoc {h : List (Transition S A)} {s s' : S} {a : A} (hrun : Execution step s₀ h s)
      (hstep : step s a s') : Execution step s₀ (h ++ [⟨s, a, s'⟩]) s'

/-- Every step of a run satisfies `Q` together with the steps before it. -/
def Throughout (Q : List (Transition S A) → Transition S A → Prop) (h : List (Transition S A)) :
    Prop :=
  ∀ pre x post, h = pre ++ x :: post → Q pre x

section Throughout

variable {Q : List (Transition S A) → Transition S A → Prop} {h : List (Transition S A)}

theorem throughout_nil : Throughout Q [] := fun pre x post hsplit ↦ by simp at hsplit

/-- The steps of a longer run. -/
theorem throughout_concat {x : Transition S A} :
    Throughout Q (h ++ [x]) ↔ Throughout Q h ∧ Q h x := by
  constructor
  · intro hall
    refine ⟨fun pre y post hsplit ↦ hall pre y (post ++ [x]) ?_, hall h x [] rfl⟩
    rw [hsplit, List.append_assoc, List.cons_append]
  · rintro ⟨hall, hlast⟩ pre y post hsplit
    rcases concat_eq_split hsplit with ⟨rfl, rfl, -⟩ | ⟨post', -, hh⟩
    · exact hlast
    · exact hall pre y post' hh

theorem throughout_true : Throughout (fun _ _ ↦ True) h := fun _ _ _ _ ↦ trivial

/-- A property of single steps. -/
theorem throughout_iff_mem {P : Transition S A → Prop} :
    Throughout (fun _ x ↦ P x) h ↔ ∀ x ∈ h, P x := by
  constructor
  · intro hall x hx
    obtain ⟨pre, post, hsplit⟩ := List.append_of_mem hx
    exact hall pre x post hsplit
  · exact fun hall pre x post hsplit ↦ hall x (by simp [hsplit])

end Throughout

namespace Execution

variable {step : S → A → S → Prop} {s₀ s : S} {h : List (Transition S A)}

/-- Every recorded step ends a run of its own. -/
theorem throughout (hrun : Execution step s₀ h s) :
    Throughout (fun pre x ↦ Execution step s₀ pre x.before ∧ step x.before x.action x.after) h := by
  induction hrun with
  | start => exact throughout_nil
  | snoc hrun hstep ih => exact throughout_concat.mpr ⟨ih, hrun, hstep⟩

/-- The recorded steps determine the last state. -/
theorem unique {s' : S} (hrun : Execution step s₀ h s) (hrun' : Execution step s₀ h s') :
    s = s' := by
  cases hrun with
  | start =>
    obtain ⟨steps, hsteps⟩ : ∃ steps, steps = ([] : List (Transition S A)) := ⟨_, rfl⟩
    rw [← hsteps] at hrun'
    cases hrun' with
    | start => rfl
    | snoc => simp at hsteps
  | @snoc pre before _ a _ _ =>
    obtain ⟨steps, hsteps⟩ : ∃ steps, steps = pre ++ [⟨before, a, s⟩] := ⟨_, rfl⟩
    rw [← hsteps] at hrun'
    cases hrun' with
    | start => simp at hsteps
    | snoc =>
      have hlast := (List.append_inj' hsteps rfl).2
      exact (congrArg Transition.after (List.singleton_injective hlast)).symm

/-- A step in front of a run. -/
theorem cons {s₁ : S} {a : A} (hstep : step s₀ a s₁) (hrun : Execution step s₁ h s) :
    Execution step s₀ (⟨s₀, a, s₁⟩ :: h) s := by
  induction hrun with
  | start => exact .snoc .start hstep
  | snoc _ hlast ih => exact .snoc ih hlast

/-- A run behind a run. -/
theorem append {s₁ : S} {h₁ : List (Transition S A)} (hrun₁ : Execution step s₀ h₁ s₁)
    (hrun : Execution step s₁ h s) : Execution step s₀ (h₁ ++ h) s := by
  induction hrun with
  | start => rwa [List.append_nil]
  | snoc _ hlast ih =>
    rw [← List.append_assoc]
    exact .snoc ih hlast

/-- What every step that meets a condition keeps, holds in the last state. -/
theorem invariant_of {P : S → Prop} {C : S → A → Prop} (hrun : Execution step s₀ h s) (hs₀ : P s₀)
    (hstep : ∀ s a s', P s → C s a → step s a s' → P s') (hC : ∀ x ∈ h, C x.before x.action) :
    P s := by
  induction hrun with
  | start => exact hs₀
  | snoc _ hlast ih =>
    rw [List.forall_mem_append, List.forall_mem_singleton] at hC
    exact hstep _ _ _ (ih hC.1) hC.2 hlast

/-- An invariant holds in the last state. -/
theorem invariant {P : S → Prop} (hrun : Execution step s₀ h s) (hs₀ : P s₀)
    (hstep : ∀ s a s', P s → step s a s' → P s') : P s :=
  hrun.invariant_of (C := fun _ _ ↦ True) hs₀ (fun s a s' hs _ ↦ hstep s a s' hs)
    fun _ _ ↦ trivial

/-- The steps of a step function along a list of actions. -/
def trace (next : S → A → Option S) (s : S) : List A → Option (List (Transition S A) × S)
  | [] => some ([], s)
  | a :: actions => do
    let s₁ ← next s a
    let (h, s') ← trace next s₁ actions
    some (⟨s, a, s₁⟩ :: h, s')

/-- When every step from a state with the invariant is defined and keeps it, every list of actions
has a run. -/
theorem exists_trace {P : S → Prop} {next : S → A → Option S}
    (hnext : ∀ s a, P s → ∃ s', next s a = some s' ∧ P s') (actions : List A) {s : S} (hs : P s) :
    ∃ h s', trace next s actions = some (h, s') := by
  induction actions generalizing s with
  | nil => exact ⟨[], s, rfl⟩
  | cons a actions ih =>
    obtain ⟨s₁, hstep, hs₁⟩ := hnext s a hs
    obtain ⟨h, s', htrace⟩ := ih hs₁
    exact ⟨⟨s, a, s₁⟩ :: h, s', by simp [trace, hstep, htrace]⟩

theorem of_trace {next : S → A → Option S} {actions : List A}
    (htrace : trace next s₀ actions = some (h, s)) :
    Execution (fun s a s' ↦ next s a = some s') s₀ h s := by
  induction actions generalizing s₀ h with
  | nil =>
    cases htrace
    exact .start
  | cons a actions ih =>
    simp only [trace, bind, Option.bind_eq_some_iff, Option.some_inj, Prod.mk.injEq,
      Prod.exists] at htrace
    obtain ⟨s₁, hnext, h', s', hrest, rfl, rfl⟩ := htrace
    exact .cons hnext (ih hrest)

/-- The steps of a total step function. -/
def steps (next : S → A → S) (s : S) : List A → List (Transition S A)
  | [] => []
  | a :: actions => ⟨s, a, next s a⟩ :: steps next (next s a) actions

theorem of_steps (next : S → A → S) (s₀ : S) (actions : List A) :
    Execution (fun s a s' ↦ next s a = s') s₀ (steps next s₀ actions) (actions.foldl next s₀) := by
  induction actions generalizing s₀ with
  | nil => exact .start
  | cons a actions ih => exact .cons rfl (ih (next s₀ a))

/-- The part of a run after its first steps. -/
theorem after {pre post : List (Transition S A)} {x : Transition S A}
    (hrun : Execution step s₀ (pre ++ x :: post) s) : Execution step x.after post s := by
  obtain ⟨h, hsplit⟩ : ∃ h, h = pre ++ x :: post := ⟨_, rfl⟩
  rw [← hsplit] at hrun
  induction hrun generalizing post with
  | start => simp at hsplit
  | snoc _ hstep ih =>
    rcases concat_eq_split hsplit with ⟨-, rfl, rfl⟩ | ⟨post', rfl, hh⟩
    · exact .start
    · exact .snoc (ih hh) hstep

/-- The run between a step and a later one. -/
theorem between {pre post : List (Transition S A)} {d x : Transition S A}
    (hrun : Execution step s₀ h s) (hsplit : h = pre ++ d :: post) (hx : x ∈ post) :
    ∃ mid, Execution step d.after mid x.before ∧ step x.before x.action x.after ∧
      ∀ y ∈ mid ++ [x], y ∈ post := by
  subst hsplit
  obtain ⟨mid, last, rfl⟩ := List.append_of_mem hx
  obtain ⟨hmid, hstep⟩ := hrun.after.throughout mid x last rfl
  refine ⟨mid, hmid, hstep, fun y hy ↦ ?_⟩
  rw [List.append_cons]
  exact List.mem_append_left _ hy

/-- When two properties of a step agree as long as the first one held before, they agree on whole
runs. `P` is what the first property leaves behind, and `D` what is assumed of the run. -/
theorem throughout_iff {P : List (Transition S A) → S → Prop}
    {D G C : List (Transition S A) → Transition S A → Prop} (hs₀ : P [] s₀)
    (hstep : ∀ h s a s', Execution step s₀ h s → D h ⟨s, a, s'⟩ → P h s → step s a s' →
      (G h ⟨s, a, s'⟩ ↔ C h ⟨s, a, s'⟩))
    (hnext : ∀ h s a s', P h s → D h ⟨s, a, s'⟩ → step s a s' → G h ⟨s, a, s'⟩ →
      P (h ++ [⟨s, a, s'⟩]) s')
    (hrun : Execution step s₀ h s) (hD : Throughout D h) : Throughout G h ↔ Throughout C h := by
  have hboth : (Throughout G h → P h s) ∧ (Throughout G h ↔ Throughout C h) := by
    induction hrun with
    | start => exact ⟨fun _ ↦ hs₀, iff_of_true throughout_nil throughout_nil⟩
    | snoc hrun hlast ih =>
      obtain ⟨hD, hlastD⟩ := throughout_concat.mp hD
      obtain ⟨hP, hiff⟩ := ih hD
      rw [throughout_concat, throughout_concat]
      refine ⟨fun hG ↦ hnext _ _ _ _ (hP hG.1) hlastD hlast hG.2, ?_⟩
      constructor
      · rintro ⟨hG, hlastG⟩
        exact ⟨hiff.mp hG, (hstep _ _ _ _ hrun hlastD (hP hG) hlast).mp hlastG⟩
      · rintro ⟨hC, hlastC⟩
        have hG := hiff.mpr hC
        exact ⟨hG, (hstep _ _ _ _ hrun hlastD (hP hG) hlast).mpr hlastC⟩
  exact hboth.2

end Execution

/-! ### Simulation -/

section Simulation

variable {T B E : Type} {step : S → A → S → Prop} {step' : T → B → T → Prop}
  {shows : Transition S A → List E} {shows' : Transition T B → List E}
  {R : List E → S → T → Prop}

/-- From states that are related when `shown` has been shown, a step of the first system is matched
by steps of the second, none or many, that show the same and end in related states. -/
def Simulates (step : S → A → S → Prop) (step' : T → B → T → Prop)
    (shows : Transition S A → List E) (shows' : Transition T B → List E)
    (R : List E → S → T → Prop) : Prop :=
  ∀ shown s a s' t, R shown s t → step s a s' → ∃ h t', Execution step' t h t' ∧
    h.flatMap shows' = shows ⟨s, a, s'⟩ ∧ R (shown ++ shows ⟨s, a, s'⟩) s' t'

/-- A run is matched by a run that shows the same. -/
theorem Simulates.run (hsim : Simulates step step' shows shows' R) {s₀ s : S} {t₀ : T}
    {h : List (Transition S A)} (hrun : Execution step s₀ h s) (hstart : R [] s₀ t₀) :
    ∃ h' t, Execution step' t₀ h' t ∧ h'.flatMap shows' = h.flatMap shows ∧
      R (h.flatMap shows) s t := by
  induction hrun with
  | start => exact ⟨[], t₀, .start, rfl, hstart⟩
  | snoc _ hstep ih =>
    obtain ⟨h₁, t₁, hrun₁, hshown₁, hrel₁⟩ := ih
    obtain ⟨h₂, t₂, hrun₂, hshown₂, hrel₂⟩ := hsim _ _ _ _ _ hrel₁ hstep
    refine ⟨h₁ ++ h₂, t₂, hrun₁.append hrun₂, ?_, ?_⟩
    · rw [List.flatMap_append, List.flatMap_append, hshown₁, hshown₂, List.flatMap_singleton]
    · rw [List.flatMap_append, List.flatMap_singleton]
      exact hrel₂

end Simulation

end WsServer.Foundations
