import Shigure.Sh.Runs

/-!
# Erasing undoes typing

The screen as a window on a roll of cells without end: writing goes along the roll and
may take the window a row further, erasing goes back along it and never does.
-/

namespace Shigure.Sh

open Tty

-- ---------------------------------------------------------------------------
-- Counting scrolls
-- ---------------------------------------------------------------------------

def scrolls (c : BitVec 8) (t : Terminal) : Nat :=
  if (wrapLine (placeChar c t)).terminalY = vgaHeight then 1 else 0

def writeScrolls : List (BitVec 8) → Terminal → Nat
  | [], _ => 0
  | c :: data, t => scrolls c t + writeScrolls data (terminalPutchar c t)

/-- One `terminal_backspace` for each of `n` characters. -/
def erase : Nat → Terminal → Terminal
  | 0, t => t
  | n + 1, t => erase n (terminalBackspace t)

def eraseScrolls : Nat → Terminal → Nat
  | 0, _ => 0
  | n + 1, t => scrolls space (terminalBack 1 t) + eraseScrolls n (terminalBackspace t)

-- ---------------------------------------------------------------------------
-- The roll
-- ---------------------------------------------------------------------------

def screenSize : Nat := vgaHeight * vgaWidth

/-- The screen shows the roll from row `top` on, the cursor is at cell `pen` of the roll,
and behind the screen the roll is blank. -/
structure OnRoll (t : Terminal) (color : BitVec 8) (roll : Nat → BitVec 16) (pen top : Nat) :
    Prop where
  x : t.terminalX < vgaWidth
  y : t.terminalY < vgaHeight
  painted : t.terminalColor = color
  pen : position t + top * vgaWidth = pen
  cells : ∀ i, i < screenSize → t.terminalBuffer i = roll (top * vgaWidth + i)
  behind : ∀ i, top * vgaWidth + screenSize ≤ i → roll i = vgaEntry space color

def rollOf (t : Terminal) : Nat → BitVec 16 :=
  fun i => if i < screenSize then t.terminalBuffer i else vgaEntry space t.terminalColor

theorem onRoll_start (hx : t.terminalX < vgaWidth) (hy : t.terminalY < vgaHeight) :
    OnRoll t t.terminalColor (rollOf t) (position t) 0 where
  x := hx
  y := hy
  painted := rfl
  pen := by omega
  cells := by
    intro i hi
    rw [Nat.zero_mul, Nat.zero_add, rollOf, if_pos hi]
  behind := by
    intro i hi
    rw [rollOf, if_neg (by omega)]

section
variable {t : Terminal} {color c : BitVec 8} {roll : Nat → BitVec 16} {pen top n : Nat}

theorem scrolls_le (c : BitVec 8) (t : Terminal) : scrolls c t ≤ 1 := by
  unfold scrolls
  split <;> decide

theorem OnRoll.scrolled {u v : Terminal} (h : OnRoll t color roll pen top)
    (hu : u.terminalBuffer = inked t.terminalBuffer (position t) (vgaEntry c color))
    (hcolor : u.terminalColor = color) (hv : Repainted u v fun i =>
      if i < (vgaHeight - 1) * vgaWidth then u.terminalBuffer (i + vgaWidth)
      else if i < vgaHeight * vgaWidth then vgaEntry space u.terminalColor
      else u.terminalBuffer i) (hi : i < screenSize) :
    v.terminalBuffer i = inked roll pen (vgaEntry c color) ((top + 1) * vgaWidth + i) := by
  have hw : vgaWidth = 80 := rfl
  have hsize : screenSize = 2000 := rfl
  have hheight : vgaHeight * vgaWidth = 2000 := rfl
  have hlast : (vgaHeight - 1) * vgaWidth = 1920 := rfl
  have hpen := h.pen
  have hlt := position_lt h.x h.y
  rw [hv.buffer, hu, hcolor, Nat.succ_mul]
  dsimp only
  unfold inked
  by_cases hin : i < (vgaHeight - 1) * vgaWidth
  · rw [if_pos hin, h.cells (i + vgaWidth) (by omega), Nat.add_assoc, Nat.add_comm vgaWidth i]
    by_cases hpos : i + vgaWidth = position t
    · rw [if_pos hpos, if_pos (by omega)]
    · rw [if_neg hpos, if_neg (by omega)]
  · rw [if_neg hin, if_pos (by omega), if_neg (by omega), h.behind _ (by omega)]

theorem OnRoll.movecursor (h : OnRoll t color roll pen top) :
    OnRoll (terminalMovecursor t) color roll pen top :=
  ⟨h.x, h.y, h.painted, h.pen, h.cells, h.behind⟩

theorem OnRoll.serial (h : OnRoll t color roll pen top) (c : BitVec 8) :
    OnRoll (serialWrite c t) color roll pen top :=
  ⟨h.x, h.y, h.painted, h.pen, h.cells, h.behind⟩

/-- A character goes to the pen's cell; the screen moves down a row if that was its
last cell. -/
theorem OnRoll.putchar (h : OnRoll t color roll pen top) (hn : c ≠ newline) (h0 : c ≠ 0) :
    OnRoll (terminalPutchar c t) color (inked roll pen (vgaEntry c color)) (pen + 1)
        (top + scrolls c t) ∧
      (scrolls c t = 1 ↔ pen + 1 = top * vgaWidth + screenSize) := by
  have hw : vgaWidth = 80 := rfl
  have hh : vgaHeight = 25 := rfl
  have hsize : screenSize = 2000 := rfl
  have hpen := h.pen
  have hlt := position_lt h.x h.y
  have hheight : vgaHeight * vgaWidth = 2000 := rfl
  obtain ⟨u, hu⟩ : ∃ u, wrapLine (placeChar c t) = u := ⟨_, rfl⟩
  obtain ⟨hx, hp, hcolor, hcells, -⟩ := placed_cell h.x h.y hn h0 hu
  rw [h.painted] at hcolor hcells
  have hpu : u.terminalY * 80 + u.terminalX = position t + 1 := hp
  have hbehind : ∀ i, top * vgaWidth + screenSize ≤ i →
      inked roll pen (vgaEntry c color) i = vgaEntry space color := by
    intro i hi
    rw [inked, if_neg (by omega)]
    exact h.behind i hi
  have hput : terminalPutchar c t = serialWrite c (terminalMovecursor (scrollScreen u)) := by
    rw [← hu, terminalPutchar]
  rw [hput, scrolls, hu]
  by_cases hfull : u.terminalY = vgaHeight
  · rw [if_pos hfull]
    refine ⟨OnRoll.serial (OnRoll.movecursor ?_) c, iff_of_true rfl (by omega)⟩
    have hr := scrollScreen_repainted u
    rw [scrollScreen, if_pos hfull]
    dsimp only
    generalize terminalDeleteLastLine (forIndex terminalScroll (vgaHeight - 1) 1 u) = v at hr ⊢
    refine ⟨show 0 < vgaWidth by decide, show vgaHeight - 1 < vgaHeight by decide,
      hr.color.trans hcolor, ?_, ?_, fun i hi => hbehind i (by rw [Nat.succ_mul] at hi; omega)⟩
    · show (vgaHeight - 1) * vgaWidth + 0 + (top + 1) * vgaWidth = pen + 1
      rw [hw, hh]
      rw [hw] at hpen
      omega
    · intro i hi
      show v.terminalBuffer i = _
      exact h.scrolled hcells hcolor hr hi
  · rw [if_neg hfull]
    refine ⟨OnRoll.serial (OnRoll.movecursor ?_) c, iff_of_false (by decide) (by omega)⟩
    rw [scrollScreen, if_neg hfull]
    refine ⟨hx, show u.terminalY < vgaHeight by omega, hcolor, ?_, ?_, hbehind⟩
    · show position u + top * vgaWidth = pen + 1
      omega
    · intro i hi
      show u.terminalBuffer i = _
      rw [hcells, inked, inked, h.cells i hi, Nat.add_zero]
      congr 1
      exact propext ⟨fun he => by omega, fun he => by omega⟩

theorem OnRoll.back (h : OnRoll t color roll pen top) (hp : top * vgaWidth < pen) :
    OnRoll (terminalBack 1 t) color roll (pen - 1) top := by
  have hpen := h.pen
  obtain ⟨hx, hy, hpos⟩ := back_cell h.x h.y (by omega)
  obtain ⟨x, y, hsame⟩ := back_same t
  refine ⟨hx, hy, ?_, by omega, ?_, h.behind⟩
  · rw [hsame]
    exact h.painted
  · rw [hsame]
    exact h.cells

theorem OnRoll.backspace (h : OnRoll t color roll pen top) (hp : top * vgaWidth < pen) :
    OnRoll (terminalBackspace t) color (inked roll (pen - 1) (vgaEntry space color)) (pen - 1) top ∧
      scrolls space (terminalBack 1 t) = 0 := by
  have hlast := position_lt h.x h.y
  have hpen := h.pen
  obtain ⟨h2, hscroll⟩ := (h.back hp).putchar (c := space) (by decide) (by decide)
  have hnone : scrolls space (terminalBack 1 t) = 0 := by
    have hle : scrolls space (terminalBack 1 t) ≤ 1 := by
      unfold scrolls
      split <;> decide
    have hne : ¬ (pen - 1 + 1 = top * vgaWidth + screenSize) := by
      rw [screenSize]
      omega
    have := mt hscroll.mp hne
    omega
  rw [hnone, Nat.add_zero, Nat.sub_add_cancel (by omega)] at h2
  exact ⟨(h2.back hp).movecursor, hnone⟩

-- ---------------------------------------------------------------------------
-- Strings
-- ---------------------------------------------------------------------------

def inkedAll (color : BitVec 8) : List (BitVec 8) → Nat → (Nat → BitVec 16) → Nat → BitVec 16
  | [], _, roll => roll
  | c :: data, pen, roll => inkedAll color data (pen + 1) (inked roll pen (vgaEntry c color))

theorem inkedAll_outside (data : List (BitVec 8)) (roll : Nat → BitVec 16) (i : Nat)
    (hi : i < pen ∨ pen + data.length ≤ i) : inkedAll color data pen roll i = roll i := by
  induction data generalizing pen roll with
  | nil => rfl
  | cons c data ih =>
    rw [List.length_cons] at hi
    rw [inkedAll, ih _ (by omega), inked, if_neg (by omega)]

/-- Typing along the roll. In the rows that come in with a scroll the cursor is in the last
row. -/
theorem OnRoll.write (h : OnRoll t color roll pen top) (data : List (BitVec 8))
    (hdata : ∀ c ∈ data, c ≠ newline ∧ c ≠ 0) :
    OnRoll (terminalWrite data t) color (inkedAll color data pen roll) (pen + data.length)
        (top + writeScrolls data t) ∧
      (writeScrolls data t = 0 ∨
        (top + writeScrolls data t + (vgaHeight - 1)) * vgaWidth ≤ pen + data.length) := by
  induction data generalizing t roll pen top with
  | nil => exact ⟨h, .inl rfl⟩
  | cons c data ih =>
    obtain ⟨hn, h0⟩ := hdata c List.mem_cons_self
    obtain ⟨h1, hscroll⟩ := h.putchar hn h0
    obtain ⟨h2, hlast⟩ := ih h1 fun d hd => hdata d (List.mem_cons_of_mem _ hd)
    have hw : vgaWidth = 80 := rfl
    have hh : vgaHeight = 25 := rfl
    have hsize : screenSize = 2000 := rfl
    have hle := scrolls_le c t
    rw [writeScrolls]
    generalize writeScrolls data (terminalPutchar c t) = later at h2 hlast ⊢
    generalize scrolls c t = now at h2 hlast hscroll hle ⊢
    constructor
    · rw [List.length_cons, ← Nat.add_assoc top, Nat.add_comm data.length 1, ← Nat.add_assoc pen]
      exact h2
    · rw [List.length_cons]
      rw [hw, hh] at *
      omega

theorem OnRoll.erase (h : OnRoll t color roll (pen + n) top) (hp : top * vgaWidth ≤ pen) :
    ∃ roll', OnRoll (erase n t) color roll' pen top ∧ eraseScrolls n t = 0 ∧
      ∀ i, roll' i = if pen ≤ i ∧ i < pen + n then vgaEntry space color else roll i := by
  induction n generalizing t roll with
  | zero => exact ⟨roll, h, rfl, fun i => by rw [if_neg (by omega)]⟩
  | succ n ih =>
    obtain ⟨h1, hscroll⟩ := h.backspace (by omega)
    obtain ⟨roll', h2, hnone, hcells⟩ := ih h1
    refine ⟨roll', h2, ?_, ?_⟩
    · rw [eraseScrolls, hscroll, hnone]
    · intro i
      rw [hcells, inked]
      split
      · rw [if_pos (by omega)]
      · split
        · rw [if_pos (by omega)]
        · rw [if_neg (by omega)]

end

theorem erase_cursor (n : Nat) (t : Terminal) :
    (erase (n + 1) t).cursor =
      ((erase (n + 1) t).terminalX + (erase (n + 1) t).terminalY * vgaWidth) % 2 ^ 16 := by
  induction n generalizing t with
  | zero => rfl
  | succ n ih => exact ih (terminalBackspace t)

/-- Typing a line and erasing it brings the cursor back to its cell, blanks the cells of
the line, scrolls no more, and leaves the other cells, which have moved up with the
scrolls. -/
theorem erase_undoes_typing (t : Terminal) (data : List (BitVec 8))
    (hx : t.terminalX < vgaWidth) (hy : t.terminalY < vgaHeight)
    (hlen : data.length ≤ cmdBufSize - 1) (hdata : ∀ c ∈ data, c ≠ newline ∧ c ≠ 0) :
    let typed := terminalWrite data t
    let erased := erase data.length typed
    let up := writeScrolls data t
    erased.terminalX = t.terminalX ∧ erased.terminalY + up = t.terminalY ∧
      (data ≠ [] → erased.cursor = (t.terminalX + (t.terminalY - up) * vgaWidth) % 2 ^ 16) ∧
      eraseScrolls data.length typed = 0 ∧
      ∀ i, i < screenSize → erased.terminalBuffer i =
        if position t ≤ up * vgaWidth + i ∧ up * vgaWidth + i < position t + data.length then
          vgaEntry space t.terminalColor
        else if up * vgaWidth + i < screenSize then t.terminalBuffer (up * vgaWidth + i)
        else vgaEntry space t.terminalColor := by
  have hw : vgaWidth = 80 := rfl
  have hh : vgaHeight = 25 := rfl
  have hbuf : cmdBufSize = 256 := rfl
  intro typed erased up
  obtain ⟨h1, hlast⟩ := (onRoll_start hx hy).write data hdata
  rw [Nat.zero_add] at h1 hlast
  -- a line is too short to reach the first cell again
  have hreach : up * vgaWidth ≤ position t := by
    change up = 0 ∨ (up + (vgaHeight - 1)) * vgaWidth ≤ position t + data.length at hlast
    rw [hw, hh] at *
    omega
  obtain ⟨roll', h2, hnone, hcells⟩ := h1.erase hreach
  have hx' : erased.terminalX < vgaWidth := h2.x
  have hback : position erased + up * vgaWidth = position t := h2.pen
  rw [position, position, hw] at hback
  have hX : erased.terminalX = t.terminalX := by omega
  have hY : erased.terminalY + up = t.terminalY := by omega
  refine ⟨hX, hY, ?_, hnone, ?_⟩
  · intro hne
    obtain ⟨n, hn⟩ := Nat.exists_eq_succ_of_ne_zero (mt List.eq_nil_of_length_eq_zero hne)
    have hcursor := erase_cursor n typed
    rw [← Nat.succ_eq_add_one, ← hn] at hcursor
    rw [← hX, ← hY, Nat.add_sub_cancel]
    exact hcursor
  · intro i hi
    rw [h2.cells i hi, hcells]
    split
    · rfl
    · rename_i hout
      rw [inkedAll_outside data _ _ (by omega), rollOf]

/-- Two letters from the last cell of the screen on. -/
theorem erase_undoes_typing_corner :
    let t : Terminal := ⟨79, 24, 7, fun _ => 0x0741, 0, [], []⟩
    let typed := terminalWrite [0x68, 0x69] t
    (∀ c ∈ [0x68, 0x69], c ≠ newline ∧ c ≠ (0 : BitVec 8)) ∧ (erase 2 typed).terminalX = 79 ∧
      (erase 2 typed).terminalY + writeScrolls [0x68, 0x69] t = 24 ∧ eraseScrolls 2 typed = 0 := by
  have hdata : ∀ c ∈ [0x68, 0x69], c ≠ newline ∧ c ≠ (0 : BitVec 8) := by decide
  -- the terminal stays a variable, so that the screen need not be computed
  have at_corner : ∀ t : Terminal, t.terminalX = 79 → t.terminalY = 24 →
      let typed := terminalWrite [0x68, 0x69] t
      (∀ c ∈ [0x68, 0x69], c ≠ newline ∧ c ≠ (0 : BitVec 8)) ∧
        (erase 2 typed).terminalX = 79 ∧
        (erase 2 typed).terminalY + writeScrolls [0x68, 0x69] t = 24 ∧
        eraseScrolls 2 typed = 0 := by
    intro t hx hy typed
    obtain ⟨hx', hy', -, hnone, -⟩ := erase_undoes_typing t [0x68, 0x69] (by rw [hx]; decide)
      (by rw [hy]; decide) (by decide) hdata
    exact ⟨hdata, hx'.trans hx, hy'.trans hy, hnone⟩
  exact at_corner _ rfl rfl

end Shigure.Sh
