import Mathlib.Data.List.Basic
import Mathlib.Tactic

/-!
# Rows that are appended to

A vector of rows, each of which grows at its end. `row` reads a row by its index and is empty behind
the last one, so that growing the vector by empty rows (`resize`) changes no row. `rowFrom` places
a list of rows at an index.
-/

set_option autoImplicit false
set_option relaxedAutoImplicit false

namespace WsServer.Foundations.Rows

variable {Entry : Type} {rows : List (List Entry)}

/-- `std::vector::resize` to a size that is not smaller. -/
def resize (rows : List (List Entry)) (size : ℕ) : List (List Entry) :=
  rows ++ List.replicate (size - rows.length) []

/-- A row by its index; what is behind the last row is empty. -/
def row (rows : List (List Entry)) (i : ℕ) : List Entry := rows[i]?.getD []

@[simp] theorem row_nil (i : ℕ) : row ([] : List (List Entry)) i = [] := rfl

@[simp] theorem row_cons_zero (first : List Entry) : row (first :: rows) 0 = first := rfl

@[simp] theorem row_cons_succ (first : List Entry) (i : ℕ) :
    row (first :: rows) (i + 1) = row rows i := rfl

theorem row_of_lt {i : ℕ} (hi : i < rows.length) : row rows i = rows[i] := by
  simp [row, hi]

theorem rows_eq_iff {rows' : List (List Entry)} :
    rows = rows' ↔ rows.length = rows'.length ∧ ∀ i, row rows i = row rows' i := by
  constructor
  · rintro rfl
    exact ⟨rfl, fun _ ↦ rfl⟩
  · rintro ⟨hlength, hrow⟩
    refine List.ext_getElem hlength fun i hi hi' ↦ ?_
    rw [← row_of_lt hi, hrow i, row_of_lt hi']

theorem getElem?_eq_some_row {i : ℕ} (hi : i < rows.length) : rows[i]? = some (row rows i) := by
  simp [row, hi]

theorem row_modify {i : ℕ} (hi : i < rows.length) (more : List Entry) (j : ℕ) :
    row (rows.modify i (· ++ more)) j = row rows j ++ if j = i then more else [] := by
  by_cases hj : j = i
  · subst hj
    simp [row, hi]
  · simp [row, hj, Ne.symm hj]

/-- New rows are empty. -/
theorem row_resize (size i : ℕ) : row (resize rows size) i = row rows i := by
  unfold row resize
  by_cases hi : i < rows.length
  · rw [List.getElem?_append_left hi]
  · rw [List.getElem?_append_right (Nat.le_of_not_lt hi), List.getElem?_replicate,
      List.getElem?_eq_none (Nat.le_of_not_lt hi)]
    split_ifs <;> rfl

theorem length_resize (size : ℕ) : (resize rows size).length = max rows.length size := by
  rw [resize, List.length_append, List.length_replicate]
  omega

theorem resize_of_length_le {size : ℕ} (hsize : size ≤ rows.length) : resize rows size = rows := by
  rw [resize, Nat.sub_eq_zero_of_le hsize, List.replicate_zero, List.append_nil]

/-- The rows one after the other from the index `i` on. -/
def rowFrom (i : ℕ) (rows : List (List Entry)) (j : ℕ) : List Entry :=
  if i ≤ j then row rows (j - i) else []

@[simp] theorem rowFrom_zero (j : ℕ) : rowFrom 0 rows j = row rows j := by simp [rowFrom]

@[simp] theorem rowFrom_nil (i j : ℕ) : rowFrom i ([] : List (List Entry)) j = [] := by
  simp [rowFrom]

theorem rowFrom_cons (i : ℕ) (first : List Entry) (j : ℕ) :
    rowFrom i (first :: rows) j = (if j = i then first else []) ++ rowFrom (i + 1) rows j := by
  unfold rowFrom
  rcases lt_trichotomy j i with hj | rfl | hj
  · simp [hj.ne, Nat.not_le.mpr hj, Nat.not_le.mpr (Nat.lt_succ_of_lt hj)]
  · simp
  · obtain ⟨k, rfl⟩ := Nat.exists_eq_add_of_lt hj
    have hk : i + k + 1 - i = k + 1 := by omega
    have hk' : i + k + 1 - (i + 1) = k := by omega
    have hne : ¬ i + k + 1 = i := by omega
    rw [if_pos hj.le, if_neg hne, if_pos (Nat.succ_le_of_lt hj), hk, hk', row_cons_succ,
      List.nil_append]

end WsServer.Foundations.Rows
