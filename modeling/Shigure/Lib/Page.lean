import Mathlib.Data.List.GetD

/-!
# A page without a last line

Rows of `width` cells. Writing fills the next cell of the last row, and a row that is
full is closed at once. A window shows the last rows of the page.
-/

namespace Shigure

/-- The rows that are closed, and the row that is being written. -/
structure Page (α : Type) where
  rows : List (List α)
  line : List α

namespace Page

section
variable {α : Type}

def empty : Page α := ⟨[], []⟩

def newRow (p : Page α) : Page α := ⟨p.rows ++ [p.line], []⟩

def append (c : α) (p : Page α) : Page α := ⟨p.rows, p.line ++ [c]⟩

def close (width : Nat) (p : Page α) : Page α := if p.line.length = width then p.newRow else p

def allRows (p : Page α) : List (List α) := p.rows ++ [p.line]

def lastRows (height : Nat) (p : Page α) : List (List α) :=
  p.allRows.drop (p.allRows.length - height)

/-- What stands in a cell, with `blank` where nothing was written. -/
def cellAt (blank : α) (p : Page α) (row col : Nat) : α := (p.allRows.getD row []).getD col blank

variable {blank c : α} {p : Page α} {row col height : Nat}

@[simp] theorem line_newRow : p.newRow.line = [] := rfl

@[simp] theorem rows_newRow : p.newRow.rows.length = p.rows.length + 1 := by simp [newRow]

@[simp] theorem line_append : (p.append c).line.length = p.line.length + 1 := by simp [append]

@[simp] theorem rows_append : (p.append c).rows = p.rows := rfl

theorem length_allRows : p.allRows.length = p.rows.length + 1 := by simp [allRows]

theorem cellAt_newRow : p.newRow.cellAt blank row col = p.cellAt blank row col := by
  simp only [cellAt, allRows, newRow]
  rcases Nat.lt_or_ge row (p.rows ++ [p.line]).length with hlt | hge
  · rw [List.getD_append _ _ _ _ hlt]
  · rw [List.getD_append_right _ _ _ _ hge, List.getD_eq_default _ _ hge]
    cases row - (p.rows ++ [p.line]).length with
    | zero => rfl
    | succ n => rfl

theorem cellAt_append : (p.append c).cellAt blank row col =
    if row = p.rows.length ∧ col = p.line.length then c else p.cellAt blank row col := by
  simp only [cellAt, allRows, append]
  rcases Nat.lt_or_ge row p.rows.length with hlt | hge
  · rw [List.getD_append _ _ _ _ hlt, List.getD_append _ _ _ _ hlt, if_neg (by omega)]
  · rw [List.getD_append_right _ _ _ _ hge, List.getD_append_right _ _ _ _ hge]
    rcases Nat.eq_or_lt_of_le hge with rfl | hgt
    · simp only [Nat.sub_self, List.getD_cons_zero, true_and]
      rcases Nat.lt_or_ge col p.line.length with hlt | hge
      · rw [List.getD_append _ _ _ _ hlt, if_neg (by omega)]
      · rw [List.getD_append_right _ _ _ _ hge, List.getD_eq_default p.line _ hge]
        rcases Nat.eq_or_lt_of_le hge with rfl | hgt
        · simp
        · rw [if_neg (by omega), List.getD_eq_default _ _ (by simp; omega)]
    · rw [if_neg (by omega), List.getD_eq_default [p.line ++ [c]] _ (by simp; omega),
        List.getD_eq_default [p.line] _ (by simp; omega)]

theorem cellAt_behind (h : p.rows.length < row) : p.cellAt blank row col = blank := by
  rw [cellAt, List.getD_eq_default p.allRows _ (by rw [length_allRows]; omega)]
  rfl

theorem cellAt_line (h : p.line = []) : p.cellAt blank p.rows.length col = blank := by
  rw [cellAt, allRows, List.getD_append_right _ _ _ _ (Nat.le_refl _), h]
  simp

theorem cellAt_lastRows : ((p.lastRows height).getD row []).getD col blank =
    p.cellAt blank (p.allRows.length - height + row) col := by
  simp only [cellAt, lastRows, List.getD_eq_getElem?_getD, List.getElem?_drop]

end

end Page

end Shigure
