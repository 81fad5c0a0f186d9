import WsServer.Foundations.Runs
import WsServer.Tls.Model

/-!
# `with_all` against the chain of `with`

`with` looks at the error code after each policy. `with_all` hands one error code through all of
them and looks at it once, so that a later policy that resets the code hides a failure.
`enforced_iff` says that nothing else goes wrong.
-/

set_option autoImplicit false
set_option relaxedAutoImplicit false

namespace WsServer.Tls

open Foundations

section Composition

variable {Context Error : Type}

/-- The policies, applied in order to a context and an error code, return with these. -/
inductive Passes : List (Policy Context Error) →
    Context × ErrorCode Error → Context × ErrorCode Error → Prop
  | nil (s) : Passes [] s s
  | cons {p ps s s' s''} (head : p s.1 s.2 = .ok s') (tail : Passes ps s' s'') :
      Passes (p :: ps) s s''

/-- The policies, applied in order with a new error code each, succeed with this context. -/
inductive Succeeds : List (Policy Context Error) → Context → Context → Prop
  | nil (c) : Succeeds [] c c
  | cons {p ps c c' c''} (head : p c none = .ok (c', none)) (tail : Succeeds ps c' c'') :
      Succeeds (p :: ps) c c''

/-- Applied to the context, the policy throws or sets the error code. -/
def Fails (p : Policy Context Error) (c : Context) : Prop := ∀ c', p c none ≠ .ok (c', none)

/-- A policy fails when it is applied after those before it. -/
def SomeFails (ps : List (Policy Context Error)) (c : Context) : Prop :=
  ∃ before p after c' ec, ps = before ++ p :: after ∧ Passes before (c, none) (c', ec) ∧ Fails p c'

/-- The policies before some policy leave a failure in the error code, this policy resets it, and
the policies after it leave it at success. -/
def Masked (ps : List (Policy Context Error)) (c : Context) : Prop :=
  ∃ before p after c₁ e c₂ c₃, ps = before ++ p :: after ∧
    Passes before (c, none) (c₁, some e) ∧ p c₁ (some e) = .ok (c₂, none) ∧
    Passes after (c₂, none) (c₃, none)

def Throws {α : Type} (result : Except Error α) : Prop := ∃ e, result = .error e

/-- `with_all` throws when a policy fails, as the chain of `with` does, and else the two build the
same context. -/
structure Enforced (ps : List (Policy Context Error)) (b : TlsBuilder Context) : Prop where
  throws_iff : Throws (b.withAll ps) ↔ SomeFails ps b.ctx
  throws_iff_chain : Throws (b.withAll ps) ↔ Throws (b.chain ps)
  build_eq : ∀ b₁ b₂, b.withAll ps = .ok b₁ → b.chain ps = .ok b₂ → b₁.build = b₂.build

variable {p : Policy Context Error} {ps qs : List (Policy Context Error)}
  {s s' s'' : Context × ErrorCode Error} {c c' c'' : Context} {b b' : TlsBuilder Context}

/-! ### Runs of the policies -/

theorem Passes.append (hps : Passes ps s s') (hqs : Passes qs s' s'') :
    Passes (ps ++ qs) s s'' := by
  induction hps with
  | nil _ => exact hqs
  | cons head _ ih => exact .cons head (ih hqs)

theorem Passes.unique (h₁ : Passes ps s s') (h₂ : Passes ps s s'') : s' = s'' := by
  induction h₁ with
  | nil _ => cases h₂; rfl
  | cons head _ ih =>
    cases h₂ with
    | cons head' tail' =>
      obtain rfl := Except.ok.inj (head.symm.trans head')
      exact ih tail'

/-- Policies that succeed with new error codes do so with a shared one. -/
theorem Succeeds.passes (h : Succeeds ps c c') : Passes ps (c, none) (c', none) := by
  induction h with
  | nil _ => exact .nil _
  | cons head _ ih => exact .cons head ih

theorem Succeeds.left (h : Succeeds (ps ++ qs) c c'') :
    ∃ c', Succeeds ps c c' ∧ Succeeds qs c' c'' := by
  induction ps generalizing c with
  | nil => exact ⟨c, .nil c, h⟩
  | cons p ps ih =>
    cases h with
    | cons head tail =>
      obtain ⟨c', hps, hqs⟩ := ih tail
      exact ⟨c', .cons head hps, hqs⟩

theorem someFails_iff : SomeFails ps c ↔ ¬ ∃ c', Succeeds ps c c' := by
  constructor
  · rintro ⟨before, p, after, c₁, ec, rfl, hbefore, hfails⟩ ⟨c', h⟩
    obtain ⟨c₂, hleft, hright⟩ := h.left
    obtain ⟨rfl, -⟩ := Prod.mk.inj (hbefore.unique hleft.passes)
    cases hright with
    | cons head _ => exact hfails _ head
  · intro h
    induction ps generalizing c with
    | nil => exact absurd ⟨c, .nil c⟩ h
    | cons p ps ih =>
      by_cases hp : Fails p c
      · exact ⟨[], p, ps, c, none, rfl, .nil _, hp⟩
      · obtain ⟨c', hc'⟩ : ∃ c', p c none = .ok (c', none) := by simpa [Fails] using hp
        have htail : ¬ ∃ c'', Succeeds ps c' c'' := fun ⟨c'', hs⟩ ↦ h ⟨c'', .cons hc' hs⟩
        obtain ⟨before, q, after, c₁, ec, rfl, hbefore, hfails⟩ := ih htail
        exact ⟨p :: before, q, after, c₁, ec, rfl, .cons hc' hbefore, hfails⟩

theorem passes_cons_iff :
    Passes (p :: ps) s s'' ↔ ∃ s', p s.1 s.2 = .ok s' ∧ Passes ps s' s'' := by
  constructor
  · intro h
    cases h with
    | cons head tail => exact ⟨_, head, tail⟩
  · rintro ⟨s', head, tail⟩
    exact .cons head tail

theorem succeeds_cons_iff :
    Succeeds (p :: ps) c c'' ↔ ∃ c', p c none = .ok (c', none) ∧ Succeeds ps c' c'' := by
  constructor
  · intro h
    cases h with
    | cons head tail => exact ⟨_, head, tail⟩
  · rintro ⟨c', head, tail⟩
    exact .cons head tail

/-- A failure that is gone at the end has been reset by a policy. -/
theorem Passes.reset {e : Error} (h : Passes ps (c, some e) (c', none)) :
    ∃ before p after c₁ e₁ c₂, ps = before ++ p :: after ∧
      Passes before (c, some e) (c₁, some e₁) ∧ p c₁ (some e₁) = .ok (c₂, none) ∧
      Passes after (c₂, none) (c', none) := by
  induction ps generalizing c e with
  | nil => nomatch h
  | cons p ps ih =>
    obtain ⟨⟨c₂, _ | e₂⟩, head, tail⟩ := passes_cons_iff.mp h
    · exact ⟨[], p, ps, c, e, c₂, rfl, .nil _, head, tail⟩
    · obtain ⟨before, q, after, c₃, e₃, c₄, rfl, hbefore, hq, hafter⟩ := ih tail
      exact ⟨p :: before, q, after, c₃, e₃, c₄, rfl, .cons head hbefore, hq, hafter⟩

/-- The error code is at success in the end, either because no policy has set it or because a
policy has reset it. -/
theorem Passes.succeeds_or_masked (h : Passes ps (c, none) (c', none)) :
    Succeeds ps c c' ∨ Masked ps c := by
  induction ps generalizing c with
  | nil =>
    cases h
    exact .inl (.nil _)
  | cons p ps ih =>
    obtain ⟨⟨c₂, _ | e₂⟩, head, tail⟩ := passes_cons_iff.mp h
    · rcases ih tail with hs | ⟨before, q, after, c₁, e, c₃, c₄, rfl, hbefore, hq, hafter⟩
      · exact .inl (.cons head hs)
      · exact .inr ⟨p :: before, q, after, c₁, e, c₃, c₄, rfl, .cons head hbefore, hq, hafter⟩
    · obtain ⟨before, q, after, c₁, e, c₃, rfl, hbefore, hq, hafter⟩ := tail.reset
      exact .inr ⟨p :: before, q, after, c₁, e, c₃, c', rfl, .cons head hbefore, hq, hafter⟩

theorem Masked.passes (h : Masked ps c) : ∃ c', Passes ps (c, none) (c', none) := by
  obtain ⟨before, p, after, c₁, e, c₂, c₃, rfl, hbefore, hp, hafter⟩ := h
  exact ⟨c₃, hbefore.append (.cons hp hafter)⟩

theorem Masked.not_succeeds (h : Masked ps c) : ¬ ∃ c', Succeeds ps c c' := by
  rintro ⟨c', hs⟩
  obtain ⟨before, p, after, c₁, e, c₂, c₃, rfl, hbefore, hp, hafter⟩ := h
  obtain ⟨c₄, hleft, -⟩ := hs.left
  nomatch (Prod.mk.inj (hbefore.unique hleft.passes)).2

/-! ### What the builder does -/

theorem throws_iff {α : Type} {result : Except Error α} :
    Throws result ↔ ¬ ∃ a, result = .ok a := by
  cases result with
  | error e => simp [Throws]
  | ok a => simp [Throws]

theorem composePolicies_eq_ok_iff : composePolicies ps s.1 s.2 = .ok s' ↔ Passes ps s s' := by
  induction ps generalizing s with
  | nil =>
    constructor
    · intro h
      obtain rfl := Except.ok.inj h
      exact .nil s
    · rintro ⟨⟩
      rfl
  | cons p ps ih =>
    have hcons : composePolicies (p :: ps) s.1 s.2 =
        (p s.1 s.2 >>= fun t ↦ composePolicies ps t.1 t.2) := rfl
    rw [hcons, bind_eq_ok_iff, passes_cons_iff]
    exact exists_congr fun t ↦ and_congr_right fun _ ↦ ih

theorem withPolicy_eq_ok_iff : b.withPolicy p = .ok b' ↔ p b.ctx none = .ok (b'.ctx, none) := by
  unfold TlsBuilder.withPolicy
  rw [bind_eq_ok_iff]
  constructor
  · rintro ⟨⟨c, _ | e⟩, hp, h⟩
    · obtain rfl := Except.ok.inj h
      exact hp
    · nomatch h
  · exact fun hp ↦ ⟨_, hp, rfl⟩

theorem withAll_eq : b.withAll ps = b.withPolicy (composePolicies ps) := rfl

theorem withAll_eq_ok_iff : b.withAll ps = .ok b' ↔ Passes ps (b.ctx, none) (b'.ctx, none) := by
  rw [withAll_eq, withPolicy_eq_ok_iff]
  exact composePolicies_eq_ok_iff (s := (b.ctx, none))

theorem chain_eq_ok_iff : b.chain ps = .ok b' ↔ Succeeds ps b.ctx b'.ctx := by
  induction ps generalizing b with
  | nil =>
    constructor
    · intro h
      obtain rfl := Except.ok.inj h
      exact .nil b.ctx
    · obtain ⟨c⟩ := b
      rintro ⟨⟩
      rfl
  | cons p ps ih =>
    have hcons : b.chain (p :: ps) = (b.withPolicy p >>= fun b ↦ b.chain ps) := rfl
    rw [hcons, bind_eq_ok_iff, succeeds_cons_iff]
    constructor
    · rintro ⟨b₁, hp, htail⟩
      exact ⟨b₁.ctx, withPolicy_eq_ok_iff.mp hp, ih.mp htail⟩
    · rintro ⟨c₁, hp, htail⟩
      exact ⟨⟨c₁⟩, withPolicy_eq_ok_iff.mpr hp, ih.mpr htail⟩

theorem throws_withAll_iff :
    Throws (b.withAll ps) ↔ ¬ ∃ c, Passes ps (b.ctx, none) (c, none) := by
  rw [throws_iff]
  refine not_congr ⟨?_, ?_⟩
  · exact fun ⟨b', h⟩ ↦ ⟨b'.ctx, withAll_eq_ok_iff.mp h⟩
  · exact fun ⟨c, h⟩ ↦ ⟨⟨c⟩, withAll_eq_ok_iff.mpr h⟩

theorem throws_chain_iff : Throws (b.chain ps) ↔ ¬ ∃ c, Succeeds ps b.ctx c := by
  rw [throws_iff]
  refine not_congr ⟨?_, ?_⟩
  · exact fun ⟨b', h⟩ ↦ ⟨b'.ctx, chain_eq_ok_iff.mp h⟩
  · exact fun ⟨c, h⟩ ↦ ⟨⟨c⟩, chain_eq_ok_iff.mpr h⟩

/-- The chain never builds a context after a failure. -/
theorem throws_chain_iff_someFails : Throws (b.chain ps) ↔ SomeFails ps b.ctx :=
  throws_chain_iff.trans someFails_iff.symm

/-- `with_all` agrees with the chain exactly when no policy resets the error code of a failure for
good. -/
theorem enforced_iff (ps : List (Policy Context Error)) (b : TlsBuilder Context) :
    Enforced ps b ↔ ¬ Masked ps b.ctx := by
  constructor
  · intro h hmasked
    exact throws_withAll_iff.mp (h.throws_iff.mpr (someFails_iff.mpr hmasked.not_succeeds))
      hmasked.passes
  · intro h
    have hiff : Throws (b.withAll ps) ↔ Throws (b.chain ps) := by
      rw [throws_withAll_iff, throws_chain_iff]
      refine not_congr (exists_congr fun c ↦ ⟨fun hpass ↦ ?_, Succeeds.passes⟩)
      exact hpass.succeeds_or_masked.resolve_right h
    refine ⟨hiff.trans throws_chain_iff_someFails, hiff, fun b₁ b₂ h₁ h₂ ↦ ?_⟩
    have hpass := (chain_eq_ok_iff.mp h₂).passes
    exact (Prod.mk.inj ((withAll_eq_ok_iff.mp h₁).unique hpass)).1

end Composition

/-! ### The presets -/

section Presets

variable {Context Error : Type} {lib : Library Context Error}

/-- The policy throws or leaves the error code as it was. -/
def KeepsCode (p : Policy Context Error) : Prop :=
  ∀ c ec s, p c ec = .ok s → s.2 = ec

theorem not_masked_of_keepsCode {ps : List (Policy Context Error)} {c : Context}
    (h : ∀ p ∈ ps, KeepsCode p) : ¬ Masked ps c := by
  rintro ⟨before, p, after, c₁, e, c₂, c₃, rfl, -, hp, -⟩
  have hkeeps := h p (List.mem_append_right _ List.mem_cons_self)
  nomatch hkeeps _ _ _ hp

theorem keepsCode_serverIdentity : KeepsCode (serverIdentity lib) := by
  intro c ec s h
  obtain ⟨c₁, -, h⟩ := bind_eq_ok_iff.mp h
  obtain ⟨c₂, -, h⟩ := bind_eq_ok_iff.mp h
  obtain ⟨c₃, -, h⟩ := bind_eq_ok_iff.mp h
  obtain ⟨c₄, -, h⟩ := bind_eq_ok_iff.mp h
  obtain ⟨c₅, -, h⟩ := bind_eq_ok_iff.mp h
  obtain rfl := Except.ok.inj h
  rfl

theorem keepsCode_defaultOptions : KeepsCode (defaultOptions lib) := by
  intro c ec s h
  obtain ⟨c₁, -, h⟩ := bind_eq_ok_iff.mp h
  obtain rfl := Except.ok.inj h
  rfl

theorem keepsCode_dhParams : KeepsCode (dhParams lib) := by
  intro c ec s h
  obtain ⟨c₁, -, h⟩ := bind_eq_ok_iff.mp h
  obtain rfl := Except.ok.inj h
  rfl

/-- The policies of `SecureServer` throw instead of setting the error code. -/
theorem enforced_secureServer (b : TlsBuilder Context) :
    Enforced [defaultOptions lib, serverIdentity lib, dhParams lib] b := by
  refine (enforced_iff _ b).mpr (not_masked_of_keepsCode ?_)
  simp [keepsCode_defaultOptions, keepsCode_serverIdentity, keepsCode_dhParams]

theorem masked_secureClient_iff {c : Context} :
    Masked [verifyPeer lib, systemTrustStore lib] c ↔
      ∃ c' e, lib.setVerifyMode .verifyPeer c = (c', some e) ∧
        (lib.setDefaultVerifyPaths c').2 = none := by
  constructor
  · rintro ⟨before, p, after, c₁, e, c₂, c₃, heq, hbefore, hp, -⟩
    rcases before with _ | ⟨q, _ | ⟨q', before⟩⟩
    · nomatch hbefore
    · obtain ⟨rfl, rfl, -⟩ : q = verifyPeer lib ∧ p = systemTrustStore lib ∧ after = [] := by
        simpa [eq_comm] using heq
      obtain ⟨s, hverify, htail⟩ := passes_cons_iff.mp hbefore
      cases htail
      exact ⟨c₁, e, Except.ok.inj hverify, congrArg Prod.snd (Except.ok.inj hp)⟩
    · simp at heq
  · rintro ⟨c', e, hverify, hpaths⟩
    refine ⟨[verifyPeer lib], systemTrustStore lib, [], c', e,
      (lib.setDefaultVerifyPaths c').1, _, rfl, ?_, ?_, .nil _⟩
    · exact .cons (congrArg Except.ok hverify) (.nil _)
    · exact congrArg Except.ok (Prod.ext rfl hpaths)

/-- For the policies of `SecureClient`, `with_all` misses a failure of `set_verify_mode` when the
default verify paths can be set. -/
theorem enforced_secureClient_iff (b : TlsBuilder Context) :
    Enforced [verifyPeer lib, systemTrustStore lib] b ↔
      ∀ c e, lib.setVerifyMode .verifyPeer b.ctx = (c, some e) →
        (lib.setDefaultVerifyPaths c).2 ≠ none := by
  rw [enforced_iff, masked_secureClient_iff]
  simp only [not_exists, not_and, ne_eq]

/-- A library whose contexts record what succeeded, and in which the default verify paths cannot be
set. -/
def noDefaultPaths : Library (List VerifyMode) String where
  context _ := []
  setVerifyMode mode ctx := (ctx ++ [mode], none)
  setDefaultVerifyPaths ctx := (ctx, some "no default verify paths")
  addCertificateAuthority _ ctx := (ctx, none)
  setPasswordCallback _ ctx := .ok ctx
  setOptions _ ctx := .ok ctx
  useCertificateChain _ ctx := .ok ctx
  usePrivateKey _ ctx := .ok ctx
  useTmpDh _ ctx := .ok ctx

/-- `with_all<SystemTrustStore, VerifyPeer>` builds a context without the trust store. -/
theorem not_enforced_trustStore_verifyPeer :
    ¬ Enforced [systemTrustStore noDefaultPaths, verifyPeer noDefaultPaths]
      (.new noDefaultPaths .tlsClient) := by
  intro h
  have hfails : SomeFails [systemTrustStore noDefaultPaths, verifyPeer noDefaultPaths]
      (TlsBuilder.new noDefaultPaths .tlsClient).ctx :=
    ⟨[], _, _, _, _, rfl, .nil _, fun c' hc' ↦ by cases hc'⟩
  obtain ⟨e, he⟩ := h.throws_iff.mpr hfails
  nomatch he

end Presets

end WsServer.Tls
