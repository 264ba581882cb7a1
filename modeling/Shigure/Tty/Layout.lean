import Shigure.Lib.Page
import Shigure.Tty.Terminal

/-!
# The screen shows the end of a page

The reference is a page without a last line. Writing to the terminal keeps the last
rows of the page on the screen, however often it scrolls.
-/

namespace Shigure.Tty

def place (c : BitVec 8) (p : Page (BitVec 8)) : Page (BitVec 8) :=
  if c = newline then p.newRow else if c = 0 then p else p.append c

def layout (data : List (BitVec 8)) : Page (BitVec 8) :=
  data.foldl (fun p c => (place c p).close vgaWidth) .empty

def InBuffer (t : Terminal) : Prop := ∀ a ∈ t.accesses, a < vgaHeight * vgaWidth

structure Repainted (t t' : Terminal) (cells : Nat → BitVec 16) : Prop where
  same : ∃ accesses, t' = { t with terminalBuffer := cells, accesses := accesses }
  inside : InBuffer t → InBuffer t'

section
variable {t t' : Terminal} {cells : Nat → BitVec 16} {index n start line y : Nat}

theorem Repainted.refl (t : Terminal) : Repainted t t t.terminalBuffer := ⟨⟨_, rfl⟩, id⟩

theorem Repainted.color (h : Repainted t t' cells) : t'.terminalColor = t.terminalColor := by
  obtain ⟨_, rfl⟩ := h.same
  rfl

theorem Repainted.buffer (h : Repainted t t' cells) : t'.terminalBuffer = cells := by
  obtain ⟨_, rfl⟩ := h.same
  rfl

theorem Repainted.trans {t'' : Terminal} {cells' : Nat → BitVec 16} (h : Repainted t t' cells)
    (h' : Repainted t' t'' cells') : Repainted t t'' cells' := by
  obtain ⟨_, rfl⟩ := h.same
  obtain ⟨a, rfl⟩ := h'.same
  exact ⟨⟨a, rfl⟩, h'.inside ∘ h.inside⟩

theorem Repainted.congr {cells' : Nat → BitVec 16} (h : Repainted t t' cells)
    (hc : ∀ i, cells' i = cells i) : Repainted t t' cells' := by
  rw [funext hc]
  exact h

theorem put_repainted (t : Terminal) (hi : index < vgaHeight * vgaWidth) (entry : BitVec 16) :
    Repainted t (t.put index entry) fun i => if i = index then entry else t.terminalBuffer i := by
  refine ⟨⟨_, rfl⟩, fun h a ha => ?_⟩
  rcases List.mem_cons.mp ha with rfl | ha
  · exact hi
  · exact h a ha

theorem copy_repainted (t : Terminal) {dst src : Nat} (hd : dst < vgaHeight * vgaWidth)
    (hs : src < vgaHeight * vgaWidth) : Repainted t (t.copy dst src) fun i =>
      if i = dst then t.terminalBuffer src else t.terminalBuffer i := by
  refine ⟨⟨_, rfl⟩, fun h a ha => ?_⟩
  rcases List.mem_cons.mp ha with rfl | ha
  · exact hd
  · rcases List.mem_cons.mp ha with rfl | ha
    · exact hs
    · exact h a ha

theorem forIndex_repainted {body : Nat → Terminal → Terminal} (f : Nat → Nat → BitVec 16)
    (h0 : ∀ i, f start i = t.terminalBuffer i)
    (hstep : ∀ k t', start ≤ k → k < start + n → Repainted t t' (f k) →
      Repainted t' (body k t') (f (k + 1))) :
    Repainted t (forIndex body n start t) (f (start + n)) :=
  forIndex_rounds (fun k t' => Repainted t t' (f k))
    (fun k t' h1 h2 h => h.trans (hstep k t' h1 h2 h)) ((Repainted.refl t).congr h0)

theorem blanks_repainted (t : Terminal) (h : start + n ≤ vgaHeight * vgaWidth) :
    Repainted t (forIndex blankAt n start t) fun i =>
      if start ≤ i ∧ i < start + n then vgaEntry space t.terminalColor else t.terminalBuffer i := by
  refine forIndex_repainted (fun k i => if start ≤ i ∧ i < k then vgaEntry space t.terminalColor
    else t.terminalBuffer i) (fun i => if_neg (by omega)) fun k t' h1 h2 h' => ?_
  have hput := put_repainted t' (show k < vgaHeight * vgaWidth by omega) (vgaEntry space t'.terminalColor)
  refine hput.congr fun i => ?_
  simp only [h'.color, h'.buffer]
  grind

/-- A line is copied to the one above, which does not overlap it. -/
theorem scroll_repainted (t : Terminal) (h : line + 1 < vgaHeight) :
    Repainted t (terminalScroll (line + 1) t) fun i =>
      if line * vgaWidth ≤ i ∧ i < (line + 1) * vgaWidth then t.terminalBuffer (i + vgaWidth)
      else t.terminalBuffer i := by
  have hnext : (line + 1) * vgaWidth = line * vgaWidth + vgaWidth := Nat.succ_mul _ _
  have hlast : (line + 1 + 1) * vgaWidth ≤ vgaHeight * vgaWidth := Nat.mul_le_mul_right _ h
  rw [Nat.succ_mul] at hlast
  have hrun : Repainted t (terminalScroll (line + 1) t) fun i =>
      if line * vgaWidth ≤ i ∧ i + vgaWidth < (line + 1) * vgaWidth + vgaWidth then
        t.terminalBuffer (i + vgaWidth) else t.terminalBuffer i := by
    refine forIndex_repainted (fun k i => if line * vgaWidth ≤ i ∧ i + vgaWidth < k then
      t.terminalBuffer (i + vgaWidth) else t.terminalBuffer i) (fun i => if_neg (by omega))
      fun k t' hk1 hk2 h' => ?_
    refine (copy_repainted t' (by omega) (by omega)).congr fun i => ?_
    simp only [h'.buffer]
    grind
  refine hrun.congr fun i => ?_
  simp only [Nat.add_lt_add_iff_right]

theorem scrollScreen_repainted (t : Terminal) :
    Repainted t (terminalDeleteLastLine (forIndex terminalScroll (vgaHeight - 1) 1 t)) fun i =>
      if i < (vgaHeight - 1) * vgaWidth then t.terminalBuffer (i + vgaWidth)
      else if i < vgaHeight * vgaWidth then vgaEntry space t.terminalColor
      else t.terminalBuffer i := by
  have hlines : Repainted t (forIndex terminalScroll (vgaHeight - 1) 1 t) fun i =>
      if i < (1 + (vgaHeight - 1) - 1) * vgaWidth then t.terminalBuffer (i + vgaWidth)
      else t.terminalBuffer i := by
    refine forIndex_repainted (fun line i => if i < (line - 1) * vgaWidth then
      t.terminalBuffer (i + vgaWidth) else t.terminalBuffer i) (fun i => if_neg (by omega))
      fun line t' h1 h2 h' => ?_
    obtain ⟨line, rfl⟩ := Nat.exists_eq_add_of_le' h1
    have hnext : (line + 1) * vgaWidth = line * vgaWidth + vgaWidth := Nat.succ_mul _ _
    refine (scroll_repainted t' (by omega)).congr fun i => ?_
    simp only [h'.buffer, Nat.add_sub_cancel]
    grind
  refine hlines.trans ((blanks_repainted _ (by decide)).congr fun i => ?_)
  simp only [hlines.buffer, hlines.color]
  have hw : vgaWidth = 80 := rfl
  have hh : vgaHeight = 25 := rfl
  grind

theorem terminalInitialize_repainted (t : Terminal) :
    Repainted t (forIndex (fun y => forIndex (fun x => blankAt (y * vgaWidth + x)) vgaWidth 0)
      vgaHeight 0 t) fun i =>
        if i < vgaHeight * vgaWidth then vgaEntry space t.terminalColor else t.terminalBuffer i := by
  have hrow : ∀ (y : Nat) (t : Terminal), y < vgaHeight → Repainted t
      (forIndex (fun x => blankAt (y * vgaWidth + x)) vgaWidth 0 t) fun i =>
        if y * vgaWidth ≤ i ∧ i < y * vgaWidth + (0 + vgaWidth) then vgaEntry space t.terminalColor
        else t.terminalBuffer i := by
    intro y t hy
    have hlast : (y + 1) * vgaWidth ≤ vgaHeight * vgaWidth := Nat.mul_le_mul_right _ hy
    rw [Nat.succ_mul] at hlast
    refine forIndex_repainted (fun k i => if y * vgaWidth ≤ i ∧ i < y * vgaWidth + k then
      vgaEntry space t.terminalColor else t.terminalBuffer i) (fun i => if_neg (by omega))
      fun k t' h1 h2 h' => ?_
    refine (put_repainted t' (by omega) _).congr fun i => ?_
    simp only [h'.color, h'.buffer]
    grind
  have hall : Repainted t (forIndex (fun y => forIndex (fun x => blankAt (y * vgaWidth + x)) vgaWidth
      0) vgaHeight 0 t) fun i => if i < (0 + vgaHeight) * vgaWidth then
        vgaEntry space t.terminalColor else t.terminalBuffer i := by
    refine forIndex_repainted (fun y i => if i < y * vgaWidth then vgaEntry space t.terminalColor
      else t.terminalBuffer i) (fun i => if_neg (by omega)) fun y t' h1 h2 h' => ?_
    have hnext : (y + 1) * vgaWidth = y * vgaWidth + vgaWidth := Nat.succ_mul _ _
    refine (hrow y t' (by omega)).congr fun i => ?_
    simp only [h'.color, h'.buffer]
    grind
  simpa only [Nat.zero_add] using hall

-- ---------------------------------------------------------------------------
-- The screen and the page
-- ---------------------------------------------------------------------------

/-- The screen shows the rows of the page from `top` on. -/
structure Shows (t : Terminal) (p : Page (BitVec 8)) (top : Nat) : Prop where
  x : t.terminalX = p.line.length
  y : t.terminalY + top = p.rows.length
  cells : ∀ y < vgaHeight, ∀ x < vgaWidth, t.terminalBuffer (y * vgaWidth + x) =
    vgaEntry (p.cellAt space (top + y) x) t.terminalColor

variable {p : Page (BitVec 8)} {top : Nat} {c : BitVec 8}

/-- A step inside `terminal_putchar`: the cursor goes down only to the start of a row. -/
structure Advances (t t' : Terminal) (p' : Page (BitVec 8)) (top : Nat) : Prop where
  shows : Shows t' p' top
  color : t'.terminalColor = t.terminalColor
  below : t'.terminalY = t.terminalY ∨ t'.terminalY = t.terminalY + 1 ∧ p'.line = []
  inside : InBuffer t → InBuffer t'

theorem Shows.newRow (h : Shows t p top) (hy : t.terminalY < vgaHeight) :
    Advances t { t with terminalX := 0, terminalY := add32 t.terminalY 1 } p.newRow top := by
  have hyt := h.y
  have hadd : add32 t.terminalY 1 = t.terminalY + 1 := by
    refine add32_eq ?_
    simp only [wordSize, vgaHeight] at *
    omega
  rw [hadd]
  refine ⟨⟨rfl, ?_, fun y hy x hx => ?_⟩, rfl, .inr ⟨rfl, rfl⟩, id⟩
  · show t.terminalY + 1 + top = _
    rw [Page.rows_newRow]
    omega
  · rw [Page.cellAt_newRow]
    exact h.cells y hy x hx

theorem Shows.append (h : Shows t p top) (hx : p.line.length < vgaWidth)
    (hy : t.terminalY < vgaHeight) : Advances t
      { terminalPutentryat c t.terminalColor t.terminalX t.terminalY t with
        terminalX := add32 t.terminalX 1 } (p.append c) top := by
  have hw : vgaWidth = 80 := rfl
  have hsize : vgaHeight * vgaWidth = 2000 := rfl
  have hxt := h.x
  have hyt := h.y
  have hrow : (t.terminalY + 1) * vgaWidth ≤ vgaHeight * vgaWidth := Nat.mul_le_mul_right _ hy
  rw [Nat.succ_mul] at hrow
  have hindex : (t.terminalY * vgaWidth + t.terminalX) % wordSize =
      t.terminalY * vgaWidth + t.terminalX := by
    refine Nat.mod_eq_of_lt ?_
    simp only [wordSize]
    omega
  have hput := put_repainted t (show t.terminalY * vgaWidth + t.terminalX < vgaHeight * vgaWidth by
    omega) (vgaEntry c t.terminalColor)
  rw [terminalPutentryat, hindex]
  refine ⟨⟨?_, hyt, fun y hy x hx => ?_⟩, rfl, .inl rfl, hput.inside⟩
  · show add32 t.terminalX 1 = _
    rw [add32_eq (by simp only [wordSize]; omega), Page.line_append, hxt]
  · show (t.put _ _).terminalBuffer _ = _
    rw [hput.buffer, Page.cellAt_append]
    have hiff : y * vgaWidth + x = t.terminalY * vgaWidth + t.terminalX ↔
        top + y = p.rows.length ∧ x = p.line.length := by
      rw [hw]
      omega
    simp only [hiff]
    split
    · rfl
    · exact h.cells y hy x hx

theorem Shows.placeChar (h : Shows t p top) (hx : p.line.length < vgaWidth)
    (hy : t.terminalY < vgaHeight) : Advances t (placeChar c t) (place c p) top ∧
      (place c p).line.length ≤ vgaWidth := by
  rw [Tty.placeChar, place]
  split
  · exact ⟨h.newRow hy, Nat.zero_le _⟩
  · split
    · exact ⟨⟨h, rfl, .inl rfl, id⟩, hx.le⟩
    · refine ⟨h.append hx hy, ?_⟩
      rw [Page.line_append]
      exact hx

theorem Advances.wrapLine (h : Advances t t' p top) (hy : t.terminalY < vgaHeight)
    (hx : p.line.length ≤ vgaWidth) : Advances t (wrapLine t') (p.close vgaWidth) top ∧
      (p.close vgaWidth).line.length < vgaWidth := by
  rw [Tty.wrapLine, Page.close, h.shows.x]
  split
  · rename_i hw
    -- the row was not begun by this character
    have hsame : t'.terminalY = t.terminalY := by
      refine h.below.resolve_right fun hempty => ?_
      rw [hempty.2] at hw
      cases hw
    have hnew := h.shows.newRow (hsame ▸ hy)
    refine ⟨⟨hnew.shows, hnew.color.trans h.color, ?_, hnew.inside ∘ h.inside⟩,
      show 0 < vgaWidth by decide⟩
    rw [← hsame]
    exact hnew.below
  · exact ⟨h, by omega⟩

/-- The last row of the screen is the last row of the page. -/
theorem Shows.scrollScreen (h : Shows t p top) (hy : t.terminalY ≤ vgaHeight)
    (hline : t.terminalY = vgaHeight → p.line = []) (htop : top = 0 ∨ vgaHeight - 1 ≤ t.terminalY) :
    ∃ top', Shows (scrollScreen t) p top' ∧ (scrollScreen t).terminalColor = t.terminalColor ∧
      (scrollScreen t).terminalY < vgaHeight ∧
      (top' = 0 ∨ vgaHeight - 1 ≤ (scrollScreen t).terminalY) ∧
      (InBuffer t → InBuffer (scrollScreen t)) := by
  have hyt := h.y
  have hw : vgaWidth = 80 := rfl
  have hh : vgaHeight = 25 := rfl
  by_cases hfull : t.terminalY = vgaHeight
  · have hr := scrollScreen_repainted t
    rw [Tty.scrollScreen, if_pos hfull]
    dsimp only
    generalize terminalDeleteLastLine (forIndex terminalScroll (vgaHeight - 1) 1 t) = u at hr ⊢
    refine ⟨top + 1, ⟨?_, ?_, fun y hy x hx => ?_⟩, hr.color, by omega, .inr le_rfl, hr.inside⟩
    · rw [hline hfull]
      rfl
    · show vgaHeight - 1 + (top + 1) = _
      omega
    · show u.terminalBuffer _ = vgaEntry _ u.terminalColor
      simp only [hr.buffer, hr.color]
      rcases Nat.lt_or_ge y (vgaHeight - 1) with hlt | hge
      · have hcell := h.cells (y + 1) (by omega) x hx
        rw [Nat.succ_mul, Nat.add_right_comm] at hcell
        rw [if_pos (by rw [hw] at *; omega), hcell, Nat.add_assoc top, Nat.add_comm 1]
      · obtain rfl : y = vgaHeight - 1 := by omega
        rw [if_neg (by omega), if_pos (by rw [hw, hh] at *; omega)]
        rw [show top + 1 + (vgaHeight - 1) = p.rows.length by omega, Page.cellAt_line (hline hfull)]
  · rw [Tty.scrollScreen, if_neg hfull]
    exact ⟨top, h, rfl, by omega, htop, id⟩

structure Screen (t : Terminal) (p : Page (BitVec 8)) : Prop where
  width : p.line.length < vgaWidth
  height : t.terminalY < vgaHeight
  shows : ∃ top, Shows t p top ∧ (top = 0 ∨ vgaHeight - 1 ≤ t.terminalY)
  cursor : t.cursor = t.terminalX + t.terminalY * vgaWidth

theorem Shows.finish (h : Shows t p top) (hx : p.line.length < vgaWidth) (hy : t.terminalY < vgaHeight)
    (htop : top = 0 ∨ vgaHeight - 1 ≤ t.terminalY) (c : BitVec 8) :
    Screen (serialWrite c (terminalMovecursor t)) p ∧
      (serialWrite c (terminalMovecursor t)).terminalColor = t.terminalColor ∧
      (InBuffer t → InBuffer (serialWrite c (terminalMovecursor t))) := by
  refine ⟨⟨hx, hy, ⟨top, ⟨h.x, h.y, h.cells⟩, htop⟩, ?_⟩, rfl, id⟩
  show (t.terminalX + t.terminalY * vgaWidth) % 2 ^ 16 = t.terminalX + t.terminalY * vgaWidth
  refine Nat.mod_eq_of_lt ?_
  have hw : vgaWidth = 80 := rfl
  have hh : vgaHeight = 25 := rfl
  rw [h.x, hw]
  omega

theorem Screen.putchar (h : Screen t p) (c : BitVec 8) :
    Screen (terminalPutchar c t) ((place c p).close vgaWidth) ∧
      (terminalPutchar c t).terminalColor = t.terminalColor ∧
      (InBuffer t → InBuffer (terminalPutchar c t)) := by
  obtain ⟨top, hs, htop⟩ := h.shows
  have hy := h.height
  obtain ⟨hplace, hle⟩ := hs.placeChar (c := c) h.width hy
  obtain ⟨hwrap, hlt⟩ := hplace.wrapLine hy hle
  have hbelow := hwrap.below
  obtain ⟨top', hs', hcolor, hy', htop', hin⟩ := hwrap.shows.scrollScreen (by omega)
    (fun hfull => by
      rcases hbelow with he | ⟨-, he⟩
      · omega
      · exact he) (htop.imp_right (by omega))
  obtain ⟨hscreen, hcolor', hin'⟩ := hs'.finish hlt hy' htop' c
  rw [terminalPutchar]
  exact ⟨hscreen, (hcolor'.trans hcolor).trans hwrap.color, hin' ∘ hin ∘ hwrap.inside⟩

theorem Screen.write (h : Screen t p) (data : List (BitVec 8)) :
    Screen (terminalWrite data t) (data.foldl (fun p c => (place c p).close vgaWidth) p) ∧
      (terminalWrite data t).terminalColor = t.terminalColor ∧
      (InBuffer t → InBuffer (terminalWrite data t)) := by
  induction data generalizing t p with
  | nil => exact ⟨h, rfl, id⟩
  | cons c data ih =>
    obtain ⟨h1, hcolor, hin⟩ := h.putchar c
    obtain ⟨h2, hcolor', hin'⟩ := ih h1
    exact ⟨h2, hcolor'.trans hcolor, hin' ∘ hin⟩

theorem Repainted.blank {color : BitVec 8} (h : Repainted t t' fun i =>
      if i < vgaHeight * vgaWidth then vgaEntry space t.terminalColor else t.terminalBuffer i)
    (hx : t.terminalX = 0) (hy : t.terminalY = 0) (hc : t.terminalColor = color) :
    Screen (terminalMovecursor t') .empty ∧ (terminalMovecursor t').terminalColor = color ∧
      (InBuffer t → InBuffer (terminalMovecursor t')) := by
  have hw : vgaWidth = 80 := rfl
  have hh : vgaHeight = 25 := rfl
  have hx' : t'.terminalX = 0 := by
    obtain ⟨_, rfl⟩ := h.same
    exact hx
  have hy' : t'.terminalY = 0 := by
    obtain ⟨_, rfl⟩ := h.same
    exact hy
  refine ⟨⟨show 0 < vgaWidth by omega, ?_, ⟨0, ⟨hx', hy', fun y hy x hxw => ?_⟩, .inl rfl⟩, ?_⟩,
    h.color.trans hc, h.inside⟩
  · show t'.terminalY < vgaHeight
    omega
  · show t'.terminalBuffer _ = vgaEntry _ t'.terminalColor
    have hcell : Page.cellAt space .empty (0 + y) x = space := by
      cases y with
      | zero => rfl
      | succ y => exact Page.cellAt_behind (by simp [Page.empty])
    have hin : y * vgaWidth + x < vgaHeight * vgaWidth := by
      rw [hw, hh] at *
      omega
    simp only [h.buffer, h.color]
    rw [hcell, if_pos hin]
  · show (t'.terminalX + t'.terminalY * vgaWidth) % 2 ^ 16 = t'.terminalX + t'.terminalY * vgaWidth
    simp only [hx', hy', Nat.zero_mul, Nat.zero_add, Nat.zero_mod]

theorem terminalInitialize_screen (t : Terminal) : Screen (terminalInitialize t) .empty ∧
    (terminalInitialize t).terminalColor = vgaEntryColor .lightGrey .black ∧
    (InBuffer t → InBuffer (terminalInitialize t)) := by
  obtain ⟨u, hu⟩ : ∃ u : Terminal, u = { t with
    terminalX := 0
    terminalY := 0
    terminalColor := vgaEntryColor .lightGrey .black } := ⟨_, rfl⟩
  have hx : u.terminalX = 0 := by rw [hu]
  have hy : u.terminalY = 0 := by rw [hu]
  have hc : u.terminalColor = vgaEntryColor .lightGrey .black := by rw [hu]
  have hin : InBuffer t → InBuffer u := by
    rw [hu]
    exact id
  obtain ⟨hs, hcolor, hbuffer⟩ := (terminalInitialize_repainted u).blank hx hy hc
  unfold terminalInitialize
  dsimp only
  rw [← hu]
  exact ⟨hs, hcolor, hbuffer ∘ hin⟩

/-- What is on the screen is the end of the page. -/
theorem Screen.lastRows (h : Screen t p) :
    (∀ y < vgaHeight, ∀ x < vgaWidth, t.terminalBuffer (y * vgaWidth + x) =
      vgaEntry (((p.lastRows vgaHeight).getD y []).getD x space) t.terminalColor) ∧
    t.terminalX = p.line.length ∧ t.terminalY + 1 = (p.lastRows vgaHeight).length := by
  obtain ⟨top, hs, htop⟩ := h.shows
  have hyt := hs.y
  have hy := h.height
  have hlast : p.allRows.length - vgaHeight = top := by
    rw [Page.length_allRows]
    omega
  refine ⟨fun y hy x hx => ?_, hs.x, ?_⟩
  · rw [Page.cellAt_lastRows, hlast]
    exact hs.cells y hy x hx
  · rw [Page.lastRows, List.length_drop, hlast, Page.length_allRows]
    omega

def written (t : Terminal) (data : List (BitVec 8)) : Terminal :=
  terminalWrite data (terminalInitialize t)

theorem written_screen (t : Terminal) (data : List (BitVec 8)) :
    Screen (written t data) (layout data) ∧
      (written t data).terminalColor = vgaEntryColor .lightGrey .black := by
  obtain ⟨h0, hcolor, -⟩ := terminalInitialize_screen t
  obtain ⟨h, hcolor', -⟩ := h0.write data
  exact ⟨h, hcolor'.trans hcolor⟩

/-- The screen is the last rows of the page, the cursor is at its end, and it never
leaves the screen. -/
theorem screen_refines_page (t : Terminal) (data : List (BitVec 8)) :
    (∀ y < vgaHeight, ∀ x < vgaWidth, (written t data).terminalBuffer (y * vgaWidth + x) =
      vgaEntry ((((layout data).lastRows vgaHeight).getD y []).getD x space)
        (vgaEntryColor .lightGrey .black)) ∧
    (written t data).terminalX = (layout data).line.length ∧
    (written t data).terminalY + 1 = ((layout data).lastRows vgaHeight).length ∧
    (written t data).cursor = (written t data).terminalX + (written t data).terminalY * vgaWidth ∧
    ∀ k, (written t (data.take k)).terminalX < vgaWidth ∧
      (written t (data.take k)).terminalY < vgaHeight := by
  obtain ⟨h, hcolor⟩ := written_screen t data
  obtain ⟨hcells, hx, hy⟩ := h.lastRows
  rw [hcolor] at hcells
  refine ⟨hcells, hx, hy, h.cursor, fun k => ?_⟩
  obtain ⟨hk, -⟩ := written_screen t (data.take k)
  refine ⟨?_, hk.height⟩
  rw [hk.lastRows.2.1]
  exact hk.width

end

end Shigure.Tty
