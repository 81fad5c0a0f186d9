import Mathlib.Logic.Function.Basic
import Mathlib.Data.Set.Basic
import Mathlib.Tactic

/-!
A store of cells behind pointers. Addresses are handed out once and never again, so a pointer to a
released cell reads as `none` for ever after: an access through it is visible as a failure instead
of reaching whatever was allocated there next. The frame relation `Heap.Keeps` says which cells a
computation left alone, and composes along sequences of computations that also allocate.
-/

set_option autoImplicit false
set_option relaxedAutoImplicit false

namespace WsServer.Foundations

/-- A partial map from addresses to cells together with the first address never handed out. -/
structure Heap (Cell : Type*) where
  cells : ℕ → Option Cell
  bound : ℕ
  fresh : ∀ a, bound ≤ a → cells a = none

namespace Heap

variable {Cell : Type*}

def empty : Heap Cell where
  cells := fun _ ↦ none
  bound := 0
  fresh := fun _ _ ↦ rfl

/-- Dereferencing a pointer; `none` when no live cell is there. -/
def read (h : Heap Cell) (a : ℕ) : Option Cell := h.cells a

/-- Allocation of an initialised cell: its address and the heap that holds it. -/
def alloc (h : Heap Cell) (c : Cell) : ℕ × Heap Cell :=
  (h.bound,
    { cells := Function.update h.cells h.bound (some c)
      bound := h.bound + 1
      fresh := by
        intro a ha
        have hne : a ≠ h.bound := by omega
        rw [Function.update_of_ne hne]
        exact h.fresh a (by omega) })

/-- The heap with the content of one address below the bound replaced. -/
def set (h : Heap Cell) (a : ℕ) (c : Option Cell) : Heap Cell where
  cells := if a < h.bound then Function.update h.cells a c else h.cells
  bound := h.bound
  fresh := by
    intro b hb
    split_ifs with ha
    · have hne : b ≠ a := by omega
      rw [Function.update_of_ne hne]
      exact h.fresh b hb
    · exact h.fresh b hb

/-- Overwriting a cell through a pointer; fails when no live cell is there. -/
def write (h : Heap Cell) (a : ℕ) (c : Cell) : Option (Heap Cell) :=
  if (h.read a).isSome then some (h.set a (some c)) else none

/-- Releasing a cell; fails when no live cell is there. -/
def free (h : Heap Cell) (a : ℕ) : Option (Heap Cell) :=
  if (h.read a).isSome then some (h.set a none) else none

theorem lt_bound_of_read {h : Heap Cell} {a : ℕ} {c : Cell} (hread : h.read a = some c) :
    a < h.bound := by
  by_contra hle
  have hnone : h.read a = none := h.fresh a (not_lt.mp hle)
  rw [hnone] at hread
  simp at hread

@[simp] theorem alloc_fst (h : Heap Cell) (c : Cell) : (h.alloc c).1 = h.bound := rfl

@[simp] theorem bound_alloc (h : Heap Cell) (c : Cell) : (h.alloc c).2.bound = h.bound + 1 := rfl

theorem read_alloc (h : Heap Cell) (c : Cell) (a : ℕ) :
    (h.alloc c).2.read a = if a = h.bound then some c else h.read a := by
  by_cases ha : a = h.bound <;> simp [alloc, read, ha]

@[simp] theorem read_alloc_self (h : Heap Cell) (c : Cell) :
    (h.alloc c).2.read h.bound = some c := by
  simp [read_alloc]

@[simp] theorem bound_set (h : Heap Cell) (a : ℕ) (c : Option Cell) :
    (h.set a c).bound = h.bound := rfl

theorem read_set {h : Heap Cell} {a : ℕ} (ha : a < h.bound) (c : Option Cell) (b : ℕ) :
    (h.set a c).read b = if b = a then c else h.read b := by
  by_cases hb : b = a <;> simp [set, read, ha, hb]

theorem write_eq {h : Heap Cell} {a : ℕ} {c₀ : Cell} (hread : h.read a = some c₀) (c : Cell) :
    h.write a c = some (h.set a (some c)) := by
  simp [write, hread]

theorem free_eq {h : Heap Cell} {a : ℕ} {c₀ : Cell} (hread : h.read a = some c₀) :
    h.free a = some (h.set a none) := by
  simp [free, hread]

/-! ### Frames -/

/-- `h.Keeps h' s`: going from `h` to `h'` kept every cell outside `s`, and addresses are only ever
used up. What was allocated on the way lies at or above the bound of `h`. -/
structure Keeps (h h' : Heap Cell) (s : Set ℕ) : Prop where
  bound_le : h.bound ≤ h'.bound
  read_eq : ∀ a < h.bound, a ∉ s → h'.read a = h.read a

theorem Keeps.refl (h : Heap Cell) (s : Set ℕ) : h.Keeps h s :=
  ⟨le_rfl, fun _ _ _ ↦ rfl⟩

theorem Keeps.mono {h h' : Heap Cell} {s s' : Set ℕ} (hk : h.Keeps h' s) (hs : s ⊆ s') :
    h.Keeps h' s' :=
  ⟨hk.bound_le, fun a ha hout ↦ hk.read_eq a ha fun hin ↦ hout (hs hin)⟩

/-- Frames compose; the second computation may also touch what the first one allocated. -/
theorem Keeps.trans {h h' h'' : Heap Cell} {s s' : Set ℕ} (hk : h.Keeps h' s)
    (hk' : h'.Keeps h'' s') (hs : ∀ a ∈ s', a ∈ s ∨ h.bound ≤ a) : h.Keeps h'' s := by
  refine ⟨hk.bound_le.trans hk'.bound_le, fun a ha hout ↦ ?_⟩
  have hout' : a ∉ s' := fun hin ↦ by
    rcases hs a hin with hin | hle
    · exact hout hin
    · omega
  rw [hk'.read_eq a (lt_of_lt_of_le ha hk.bound_le) hout', hk.read_eq a ha hout]

theorem keeps_alloc (h : Heap Cell) (c : Cell) (s : Set ℕ) : h.Keeps (h.alloc c).2 s := by
  refine ⟨by simp, fun a ha _ ↦ ?_⟩
  rw [read_alloc, if_neg (by omega)]

theorem keeps_set {h : Heap Cell} {a : ℕ} (ha : a < h.bound) (c : Option Cell) {s : Set ℕ}
    (hs : a ∈ s) : h.Keeps (h.set a c) s := by
  refine ⟨le_rfl, fun b _ hout ↦ ?_⟩
  have hne : b ≠ a := fun hb ↦ hout (hb ▸ hs)
  rw [read_set ha, if_neg hne]

/-! ### Live cells -/

/-- The addresses of the live cells. -/
def live (h : Heap Cell) : Set ℕ := {a | (h.read a).isSome}

section Live

variable {h h' h'' : Heap Cell} {a b : ℕ} {c c₀ : Cell} {r s s' s'' t t' : Set ℕ}

theorem mem_live_of_read (hread : h.read a = some c) : a ∈ h.live := by
  simp [live, hread]

theorem lt_bound_of_mem_live (ha : a ∈ h.live) : a < h.bound := by
  obtain ⟨c, hc⟩ := Option.isSome_iff_exists.mp ha
  exact lt_bound_of_read hc

theorem live_empty : (empty : Heap Cell).live = ∅ := by
  simp [live, read, empty]

theorem mem_live_alloc : a ∈ (h.alloc c).2.live ↔ a = h.bound ∨ a ∈ h.live := by
  by_cases ha : a = h.bound <;> simp [live, read_alloc, ha]

theorem live_set_some (hread : h.read a = some c₀) (c : Cell) :
    (h.set a (some c)).live = h.live := by
  ext b
  by_cases hb : b = a
  · simp [live, read_set (lt_bound_of_read hread), hb, hread]
  · simp [live, read_set (lt_bound_of_read hread), hb]

theorem mem_live_set_none (hread : h.read a = some c₀) :
    b ∈ (h.set a none).live ↔ b ∈ h.live ∧ b ≠ a := by
  by_cases hb : b = a <;> simp [live, read_set (lt_bound_of_read hread), hb]

/-- `h.Accounts h' s s'`: the live cells of `h'` are those of `h` with `s'` in place of `s`. Nothing
else was allocated and kept, or released. -/
def Accounts (h h' : Heap Cell) (s s' : Set ℕ) : Prop :=
  ∀ a, a ∈ h'.live ↔ a ∈ s' ∨ (a ∈ h.live ∧ a ∉ s)

theorem Accounts.of_live_eq (hlive : h'.live = h.live) (hs : s ⊆ h.live) : h.Accounts h' s s := by
  intro a
  rw [hlive]
  have := @hs a
  tauto

/-- A second computation takes over what the first one left; what that is, it has from `s` or has
allocated. -/
theorem Accounts.trans (ha : h.Accounts h' s s') (ha' : h'.Accounts h'' s' s'')
    (hs' : ∀ a ∈ s', a ∈ s ∨ h.bound ≤ a) : h.Accounts h'' s s'' := by
  intro a
  rw [ha' a, ha a]
  constructor
  · tauto
  · rintro (hin | ⟨hlive, hout⟩)
    · exact Or.inl hin
    · have hout' : a ∉ s' := fun hin ↦ by
        rcases hs' a hin with hin | hle
        · exact hout hin
        · exact (lt_bound_of_mem_live hlive).not_ge hle
      exact Or.inr ⟨Or.inr ⟨hlive, hout⟩, hout'⟩

/-- A computation on a part of some cells, the rest of which is live. -/
theorem Accounts.frame (ha : h.Accounts h' s s') (hr : ∀ a ∈ r, a ∈ h.live ∧ a ∉ s)
    (ht : ∀ a, a ∈ t ↔ a ∈ s ∨ a ∈ r) (ht' : ∀ a, a ∈ t' ↔ a ∈ s' ∨ a ∈ r) :
    h.Accounts h' t t' := by
  intro a
  rw [ha a, ht a, ht' a]
  have := hr a
  tauto

end Live

end Heap

end WsServer.Foundations
