import Shigure.Lib.Roll
import Shigure.Sh.Erase

/-!
# The screen is a window on a roll

Whatever the colours, the newlines and the characters that are taken back: the screen
shows the rows of a roll that nobody scrolls. A cell without ink is a blank, whose colour
does not matter.
-/

namespace Shigure.Sh

open Tty

abbrev Scroll := Roll (BitVec 16)

def Inked (cell : BitVec 16) : Option (BitVec 16) → Prop
  | some entry => cell = entry
  | none => ∃ color, cell = vgaEntry space color

/-- The screen shows the roll from row `top` on, and nothing is written below it. The
cursor is shown at the pen. -/
structure Seen (t : Terminal) (r : Scroll) (top : Nat) : Prop where
  x : t.terminalX < vgaWidth
  y : t.terminalY < vgaHeight
  pen : position t + top * vgaWidth = r.pen
  cells : ∀ i, i < screenSize → Inked (t.terminalBuffer i) (r.ink (top * vgaWidth + i))
  below : ∀ i, top * vgaWidth + screenSize ≤ i → r.ink i = none
  cursor : t.cursor = position t

/-- The roll of cells that the screen was cut from, blank where it ends. -/
def cutFrom (t : Terminal) (top i : Nat) : BitVec 16 :=
  if top * vgaWidth ≤ i ∧ i < top * vgaWidth + screenSize then
    t.terminalBuffer (i - top * vgaWidth)
  else vgaEntry space t.terminalColor

section
variable {t u : Terminal} {r : Scroll} {top top' n : Nat} {c color : BitVec 8}
  {roll : Nat → BitVec 16}

theorem Seen.onRoll (h : Seen t r top) : OnRoll t t.terminalColor (cutFrom t top) r.pen top where
  x := h.x
  y := h.y
  painted := rfl
  pen := h.pen
  cells := by
    intro i hi
    rw [cutFrom, if_pos (by omega), Nat.add_sub_cancel_left]
  behind := by
    intro i hi
    rw [cutFrom, if_neg (by omega)]

theorem Seen.cut (h : Seen t r top) {i : Nat} (hi : top * vgaWidth ≤ i) :
    Inked (cutFrom t top i) (r.ink i) := by
  rw [cutFrom]
  by_cases hlt : i < top * vgaWidth + screenSize
  · rw [if_pos ⟨hi, hlt⟩]
    have hcell := h.cells (i - top * vgaWidth) (by omega)
    rwa [Nat.add_sub_cancel' hi] at hcell
  · rw [if_neg (by omega), h.below i (by omega)]
    exact ⟨_, rfl⟩

/-- The controller is told 16 bits, which are enough. -/
theorem shown_at (hx : u.terminalX < vgaWidth) (hy : u.terminalY < vgaHeight)
    (h : u.cursor = position u % 2 ^ 16) : u.cursor = position u := by
  have hlt := position_lt hx hy
  have hsize : vgaHeight * vgaWidth = 2000 := rfl
  rw [h, Nat.mod_eq_of_lt (by omega)]

theorem movecursor_cursor (t : Terminal) :
    (terminalMovecursor t).cursor = position (terminalMovecursor t) % 2 ^ 16 := by
  rw [terminalMovecursor, position, Nat.add_comm]

theorem putchar_cursor (c : BitVec 8) (t : Terminal) :
    (terminalPutchar c t).cursor = position (terminalPutchar c t) % 2 ^ 16 :=
  movecursor_cursor _

theorem OnRoll.seen {q : Scroll} (h : OnRoll u color roll q.pen top')
    (hcells : ∀ i, top' * vgaWidth ≤ i → Inked (roll i) (q.ink i))
    (hbelow : ∀ i, top' * vgaWidth + screenSize ≤ i → q.ink i = none)
    (hcursor : u.cursor = position u % 2 ^ 16) : Seen u q top' where
  x := h.x
  y := h.y
  pen := h.pen
  cells := by
    intro i hi
    rw [h.cells i hi]
    exact hcells _ (Nat.le_add_right _ _)
  below := hbelow
  cursor := shown_at h.x h.y hcursor

theorem width_mono (h : top ≤ top') : top * vgaWidth ≤ top' * vgaWidth := Nat.mul_le_mul_right _ h

theorem Seen.putchar (h : Seen t r top) (hn : c ≠ newline) (h0 : c ≠ 0) :
    Seen (terminalPutchar c t) (r.put (vgaEntry c t.terminalColor)) (top + scrolls c t) := by
  obtain ⟨hroll, -⟩ := h.onRoll.putchar hn h0
  have hmono := width_mono (Nat.le_add_right top (scrolls c t))
  have hpen := h.pen
  have hlt := position_lt h.x h.y
  refine hroll.seen (q := r.put _) (fun i hi => ?_) (fun i hi => ?_) (putchar_cursor c t)
  · rw [inked, Roll.ink_put]
    split
    · rfl
    · exact h.cut (by omega)
  · rw [Roll.ink_put, if_neg (by rw [screenSize] at hi; omega)]
    exact h.below i (by omega)

theorem Seen.nul (h : Seen t r top) : Seen (terminalPutchar 0 t) r top := by
  have hplace : wrapLine (placeChar 0 t) = t := by
    have hx := h.x
    rw [placeChar, if_neg (by decide), if_pos rfl]
    exact if_neg (by omega)
  have hy := h.y
  have hcursor := putchar_cursor 0 t
  rw [terminalPutchar, hplace, scrollScreen, if_neg (by omega)] at hcursor ⊢
  exact ⟨h.x, h.y, h.pen, h.cells, h.below, shown_at h.x h.y hcursor⟩

theorem Seen.newline (h : Seen t r top) :
    Seen (terminalPutchar newline t) (r.feed vgaWidth) (top + scrolls newline t) := by
  have hw : vgaWidth = 80 := rfl
  have hh : vgaHeight = 25 := rfl
  have hsize : screenSize = 2000 := rfl
  have hx := h.x
  have hy := h.y
  have hpen := h.pen
  have hplace : wrapLine (placeChar Tty.newline t) =
      { t with terminalX := 0, terminalY := t.terminalY + 1 } := by
    rw [placeChar, if_pos rfl, down_eq h.y]
    exact if_neg (show ¬ 0 = vgaWidth by decide)
  have hfeed : (r.feed vgaWidth).pen = (t.terminalY + 1 + top) * 80 := by
    show (r.pen / vgaWidth + 1) * vgaWidth = _
    rw [position] at hpen
    rw [← hpen, hw] at *
    omega
  have hcursor := putchar_cursor Tty.newline t
  rw [terminalPutchar, hplace] at hcursor ⊢
  rw [scrolls, hplace]
  by_cases hfull : t.terminalY + 1 = vgaHeight
  · have hr := scrollScreen_repainted { t with terminalX := 0, terminalY := t.terminalY + 1 }
    rw [scrollScreen, if_pos hfull] at hcursor ⊢
    rw [if_pos hfull]
    dsimp only at hcursor ⊢
    generalize terminalDeleteLastLine (forIndex terminalScroll (vgaHeight - 1) 1
      { t with terminalX := 0, terminalY := t.terminalY + 1 }) = v at hr hcursor ⊢
    refine ⟨show 0 < vgaWidth by decide, show vgaHeight - 1 < vgaHeight by decide, ?_, ?_, ?_,
      shown_at (show 0 < vgaWidth by decide) (show vgaHeight - 1 < vgaHeight by decide) hcursor⟩
    · show (vgaHeight - 1) * vgaWidth + 0 + (top + 1) * vgaWidth = _
      rw [hfeed, hw, hh]
      omega
    · intro i hi
      show Inked (v.terminalBuffer i) (r.ink _)
      rw [hr.buffer]
      dsimp only
      by_cases hlast : i < (vgaHeight - 1) * vgaWidth
      · have hcell := h.cells (i + vgaWidth) (by rw [hw, hh] at *; omega)
        rw [if_pos hlast]
        rwa [Nat.succ_mul, Nat.add_assoc, Nat.add_comm vgaWidth i]
      · rw [if_neg hlast, if_pos (by rw [hw, hh]; omega), h.below _ (by rw [hw, hh] at *; omega)]
        exact ⟨_, rfl⟩
    · intro i hi
      exact h.below i (by rw [Nat.succ_mul] at hi; omega)
  · rw [scrollScreen, if_neg hfull] at hcursor ⊢
    rw [if_neg hfull]
    refine ⟨show 0 < vgaWidth by decide, show t.terminalY + 1 < vgaHeight by omega, ?_, h.cells,
      h.below, shown_at (show 0 < vgaWidth by decide)
        (show t.terminalY + 1 < vgaHeight by omega) hcursor⟩
    show (t.terminalY + 1) * vgaWidth + 0 + (top + 0) * vgaWidth = _
    rw [hfeed, hw]
    omega

/-- `terminal_backspace`, as long as there is a cell on the screen to go back to. -/
theorem Seen.backspace (h : Seen t r top) (hp : position t ≠ 0) :
    Seen (terminalBackspace t) r.erase top := by
  have hpen := h.pen
  have hlt := position_lt h.x h.y
  obtain ⟨hroll, -⟩ := h.onRoll.backspace (by omega)
  refine hroll.seen (q := r.erase) (fun i hi => ?_) (fun i hi => ?_) (movecursor_cursor _)
  · rw [inked, Roll.ink_erase]
    split
    · exact ⟨_, rfl⟩
    · exact h.cut hi
  · rw [Roll.ink_erase, if_neg (by rw [screenSize] at hi; omega)]
    exact h.below i hi

theorem Seen.setcolor (h : Seen t r top) (color : BitVec 8) :
    Seen (terminalSetcolor color t) r top :=
  ⟨h.x, h.y, h.pen, h.cells, h.below, h.cursor⟩

theorem seen_initialize (t : Terminal) : Seen (terminalInitialize t) .blank 0 := by
  obtain ⟨h, -, -⟩ := terminalInitialize_screen t
  obtain ⟨top, hs, -⟩ := h.shows
  have hx : (terminalInitialize t).terminalX = 0 := hs.x
  have hy : (terminalInitialize t).terminalY = 0 := Nat.eq_zero_of_add_eq_zero_right hs.y
  have hw : vgaWidth = 80 := rfl
  have hsize : screenSize = 25 * 80 := rfl
  have hh : vgaHeight = 25 := rfl
  refine ⟨by omega, h.height, ?_, fun i hi => ?_, fun _ _ => rfl, ?_⟩
  · rw [position, hx, hy]
    rfl
  · have hcell := hs.cells (i / vgaWidth) (by rw [hw]; omega) (i % vgaWidth) (Nat.mod_lt _ (by omega))
    rw [Nat.div_add_mod'] at hcell
    refine ⟨_, hcell.trans (congrArg (vgaEntry · _) ?_)⟩
    cases top + i / vgaWidth with
    | zero => rfl
    | succ y => exact Page.cellAt_behind (by simp [Page.empty])
  · rw [h.cursor, position, Nat.add_comm]

end

end Shigure.Sh
