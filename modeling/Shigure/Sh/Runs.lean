import Shigure.Sh.Shell
import Shigure.Tty.Layout

/-!
# The shell and the edge of the screen

`terminal_back` does not look where the screen begins. The shell lets it go back once
for every character in its buffer, but a NUL is in the buffer without a cell on the
screen.
-/

namespace Shigure.Sh

open Tty

structure OnScreen (t : Terminal) : Prop where
  x : t.terminalX < vgaWidth
  y : t.terminalY < vgaHeight
  inside : InBuffer t

/-- The number of the cell under the cursor. -/
def position (t : Terminal) : Nat := t.terminalY * vgaWidth + t.terminalX

section
variable {t : Terminal} {c : BitVec 8}

theorem terminalInitialize_onScreen (h : InBuffer t) :
    OnScreen (terminalInitialize t) ∧ position (terminalInitialize t) = 0 := by
  obtain ⟨hs, -, hin⟩ := terminalInitialize_screen t
  generalize terminalInitialize t = u at hs hin ⊢
  obtain ⟨top, hshows, -⟩ := hs.shows
  have hx : u.terminalX = 0 := hshows.x
  have hy : u.terminalY = 0 := Nat.eq_zero_of_add_eq_zero_right hshows.y
  have hw : vgaWidth = 80 := rfl
  refine ⟨⟨by omega, hs.height, hin h⟩, ?_⟩
  rw [position, hx, hy, Nat.zero_mul]

-- ---------------------------------------------------------------------------
-- Characters
-- ---------------------------------------------------------------------------

theorem scrollScreen_onScreen (hx : t.terminalX < vgaWidth) (hy : t.terminalY ≤ vgaHeight)
    (hin : InBuffer t) (h0 : t.terminalY = vgaHeight → t.terminalX = 0) :
    OnScreen (scrollScreen t) ∧ (scrollScreen t).terminalX = t.terminalX ∧
      (scrollScreen t).terminalY = min t.terminalY (vgaHeight - 1) := by
  have hh : vgaHeight = 25 := rfl
  by_cases hfull : t.terminalY = vgaHeight
  · have hr := scrollScreen_repainted t
    rw [scrollScreen, if_pos hfull]
    dsimp only
    generalize terminalDeleteLastLine (forIndex terminalScroll (vgaHeight - 1) 1 t) = u at hr ⊢
    exact ⟨⟨show 0 < vgaWidth by decide, show vgaHeight - 1 < vgaHeight by omega, hr.inside hin⟩,
      (h0 hfull).symm, show vgaHeight - 1 = min t.terminalY (vgaHeight - 1) by omega⟩
  · rw [scrollScreen, if_neg hfull]
    exact ⟨⟨hx, by omega, hin⟩, rfl, by omega⟩

theorem putchar_of {u : Terminal} (hu : wrapLine (placeChar c t) = u) (hx : u.terminalX < vgaWidth)
    (hy : u.terminalY ≤ vgaHeight) (hin : InBuffer u) (h0 : u.terminalY = vgaHeight → u.terminalX = 0) :
    OnScreen (terminalPutchar c t) ∧ (terminalPutchar c t).terminalX = u.terminalX ∧
      (terminalPutchar c t).terminalY = min u.terminalY (vgaHeight - 1) := by
  subst hu
  obtain ⟨hs, hx', hy'⟩ := scrollScreen_onScreen hx hy hin h0
  rw [terminalPutchar]
  -- the last two steps do not touch the cursor
  generalize scrollScreen (wrapLine (placeChar c t)) = v at hs hx' hy' ⊢
  exact ⟨⟨hs.x, hs.y, hs.inside⟩, hx', hy'⟩

theorem down_eq (h : t.terminalY < vgaHeight) : add32 t.terminalY 1 = t.terminalY + 1 := by
  refine add32_eq ?_
  simp only [vgaHeight, wordSize] at *
  omega

theorem putchar_newline (h : OnScreen t) : OnScreen (terminalPutchar newline t) ∧
    (terminalPutchar newline t).terminalX = 0 ∧
    (terminalPutchar newline t).terminalY = min (t.terminalY + 1) (vgaHeight - 1) := by
  have hplace : wrapLine (placeChar newline t) =
      { t with terminalX := 0, terminalY := t.terminalY + 1 } := by
    rw [placeChar, if_pos rfl, down_eq h.y]
    exact if_neg (show ¬ 0 = vgaWidth by decide)
  exact putchar_of hplace (show 0 < vgaWidth by decide) h.y h.inside fun _ => rfl

theorem putchar_nul (h : OnScreen t) : OnScreen (terminalPutchar 0 t) ∧
    (terminalPutchar 0 t).terminalX = t.terminalX ∧
    (terminalPutchar 0 t).terminalY = t.terminalY := by
  have hx := h.x
  have hy := h.y
  have hplace : wrapLine (placeChar 0 t) = t := by
    rw [placeChar, if_neg (by decide), if_pos rfl]
    exact if_neg (by omega)
  obtain ⟨hs, hx', hy'⟩ := putchar_of hplace hx hy.le h.inside fun he => absurd he hy.ne
  exact ⟨hs, hx', by omega⟩

def inked (cells : Nat → BitVec 16) (index : Nat) (entry : BitVec 16) : Nat → BitVec 16 :=
  fun i => if i = index then entry else cells i

theorem position_lt (hx : t.terminalX < vgaWidth) (hy : t.terminalY < vgaHeight) :
    position t < vgaHeight * vgaWidth := by
  have hw : vgaWidth = 80 := rfl
  have hh : vgaHeight = 25 := rfl
  rw [position, hw, hh]
  omega

theorem placed_cell (hx : t.terminalX < vgaWidth) (hy : t.terminalY < vgaHeight)
    (hn : c ≠ newline) (h0 : c ≠ 0) {u : Terminal} (hu : wrapLine (placeChar c t) = u) :
    u.terminalX < vgaWidth ∧ position u = position t + 1 ∧ u.terminalColor = t.terminalColor ∧
      u.terminalBuffer = inked t.terminalBuffer (position t) (vgaEntry c t.terminalColor) ∧
      (InBuffer t → InBuffer u) := by
  have hw : vgaWidth = 80 := rfl
  have hh : vgaHeight = 25 := rfl
  have hword : wordSize = 2 ^ 32 := rfl
  have hsize : vgaHeight * vgaWidth = 2000 := rfl
  have hlt := position_lt hx hy
  have hnext : add32 t.terminalX 1 = t.terminalX + 1 := add32_eq (by omega)
  have hindex : (t.terminalY * vgaWidth + t.terminalX) % wordSize = position t :=
    Nat.mod_eq_of_lt (by rw [← position]; omega)
  obtain ⟨v, hv⟩ : ∃ v, v = { t.put (position t) (vgaEntry c t.terminalColor) with
    terminalX := t.terminalX + 1 } := ⟨_, rfl⟩
  have hplace : placeChar c t = v := by
    rw [placeChar, if_neg hn, if_neg h0, hv, ← hnext, ← hindex]
    rfl
  have hx' : v.terminalX = t.terminalX + 1 := by rw [hv]
  have hy' : v.terminalY = t.terminalY := by rw [hv]; rfl
  have hcolor : v.terminalColor = t.terminalColor := by rw [hv]; rfl
  have hcells : v.terminalBuffer =
      inked t.terminalBuffer (position t) (vgaEntry c t.terminalColor) := by
    rw [hv]
    rfl
  have hin : InBuffer t → InBuffer v := by
    rw [hv]
    exact (put_repainted t hlt (vgaEntry c t.terminalColor)).inside
  subst hu
  rw [hplace, wrapLine, hx']
  split
  · rename_i hfull
    rw [down_eq (hy' ▸ hy)]
    refine ⟨Nat.zero_lt_of_lt hx, ?_, hcolor, hcells, hin⟩
    simp only [position, hy', Nat.succ_mul]
    omega
  · refine ⟨by omega, ?_, hcolor, hcells, hin⟩
    rw [position, position, hx', hy']
    rfl

/-- The cursor goes to the next cell, which may be at the start of the last row again. -/
theorem putchar_cell (h : OnScreen t) (hn : c ≠ newline) (h0 : c ≠ 0) :
    OnScreen (terminalPutchar c t) ∧ (position (terminalPutchar c t) = position t + 1 ∨
      position t + 1 = vgaHeight * vgaWidth ∧
        position (terminalPutchar c t) = (vgaHeight - 1) * vgaWidth) := by
  have hw : vgaWidth = 80 := rfl
  have hh : vgaHeight = 25 := rfl
  have hlt := position_lt h.x h.y
  obtain ⟨u, hu⟩ : ∃ u, wrapLine (placeChar c t) = u := ⟨_, rfl⟩
  obtain ⟨hx, hp, -, -, hin⟩ := placed_cell h.x h.y hn h0 hu
  rw [hw, hh] at hlt
  rw [position, hw] at hp
  obtain ⟨hs, hx', hy'⟩ := putchar_of hu hx (by omega) (hin h.inside) (by omega)
  refine ⟨hs, ?_⟩
  generalize position t = n at *
  rw [position, hx', hy', hw, hh]
  omega

theorem putchar_onScreen (h : OnScreen t) (c : BitVec 8) : OnScreen (terminalPutchar c t) := by
  by_cases hn : c = newline
  · rw [hn]
    exact (putchar_newline h).1
  · by_cases h0 : c = 0
    · rw [h0]
      exact (putchar_nul h).1
    · exact (putchar_cell h hn h0).1

-- ---------------------------------------------------------------------------
-- Going back
-- ---------------------------------------------------------------------------

theorem back_cell (hx : t.terminalX < vgaWidth) (hy : t.terminalY < vgaHeight)
    (hp : position t ≠ 0) :
    (terminalBack 1 t).terminalX < vgaWidth ∧ (terminalBack 1 t).terminalY < vgaHeight ∧
      position (terminalBack 1 t) + 1 = position t := by
  have hw : vgaWidth = 80 := rfl
  have hh : vgaHeight = 25 := rfl
  have hone : wordOfInt 1 = 1 := by decide
  have hint : intOfWord t.terminalX = t.terminalX := if_pos (by omega)
  rw [terminalBack, hint, hone]
  rw [position] at hp
  split
  · have hx0 : t.terminalX = 0 := by omega
    rw [hx0, hw] at hp
    have hsub : sub32 t.terminalY 1 = t.terminalY - 1 :=
      sub32_eq (by omega) (by simp only [wordSize]; omega)
    have hcol : sub32 vgaWidth (sub32 1 t.terminalX) = 79 := by
      rw [hx0]
      decide
    rw [hsub, hcol]
    refine ⟨show 79 < vgaWidth by decide, show t.terminalY - 1 < vgaHeight by omega, ?_⟩
    simp only [position]
    rw [hw, hx0]
    omega
  · have hsub : sub32 t.terminalX 1 = t.terminalX - 1 :=
      sub32_eq (by omega) (by simp only [wordSize]; omega)
    rw [hsub]
    refine ⟨show t.terminalX - 1 < vgaWidth by omega, hy, ?_⟩
    simp only [position]
    omega

theorem back_same (t : Terminal) : ∃ x y, terminalBack 1 t = { t with terminalX := x, terminalY := y } := by
  unfold terminalBack
  split
  · exact ⟨_, _, rfl⟩
  · exact ⟨_, t.terminalY, rfl⟩

theorem back_onScreen (h : OnScreen t) (hp : position t ≠ 0) :
    OnScreen (terminalBack 1 t) ∧ position (terminalBack 1 t) + 1 = position t := by
  obtain ⟨hx, hy, hpos⟩ := back_cell h.x h.y hp
  have hin : InBuffer (terminalBack 1 t) := by
    obtain ⟨x, y, hsame⟩ := back_same t
    rw [hsame]
    exact h.inside
  exact ⟨⟨hx, hy, hin⟩, hpos⟩

theorem backspace_onScreen (h : OnScreen t) (hp : position t ≠ 0) :
    OnScreen (terminalBack 1 t) ∧ OnScreen (terminalPutchar space (terminalBack 1 t)) ∧
      OnScreen (terminalBack 1 (terminalPutchar space (terminalBack 1 t))) ∧
      position (terminalBack 1 (terminalPutchar space (terminalBack 1 t))) + 1 = position t := by
  have hlast := position_lt h.x h.y
  obtain ⟨h1, hp1⟩ := back_onScreen h hp
  generalize terminalBack 1 t = u at h1 hp1 ⊢
  obtain ⟨h2, hp2⟩ := putchar_cell h1 (c := space) (by decide) (by decide)
  generalize terminalPutchar space u = v at h2 hp2 ⊢
  have hp2 := hp2.resolve_right (by omega)
  obtain ⟨h3, hp3⟩ := back_onScreen h2 (by omega)
  exact ⟨h1, h2, h3, by omega⟩

/-- From the first cell it goes to the last row that there are numbers for. -/
theorem back_first (hp : position t = 0) : ¬ OnScreen (terminalBack 1 t) := by
  intro hback
  have hw : vgaWidth = 80 := rfl
  have hxy : t.terminalX = 0 ∧ t.terminalY = 0 := by
    rw [position, hw] at hp
    omega
  have hy : (terminalBack 1 t).terminalY = wordSize - 1 := by
    rw [terminalBack, hxy.1, hxy.2, if_pos (by decide)]
    show sub32 0 1 = wordSize - 1
    decide
  have hlt := hback.y
  rw [hy] at hlt
  exact absurd hlt (by decide)

end

-- ---------------------------------------------------------------------------
-- Operations
-- ---------------------------------------------------------------------------

def State.AllOn (s : State) : Prop := ∀ u ∈ s.terminal :: s.trail, OnScreen u

def Op.Forward : Op → Prop
  | .back _ => False
  | _ => True

section
variable {s : State} {o : Op} {ops : List Op} {k : Key} {keys : List Key} {t : Terminal}

theorem Op.Forward.onScreen (h : o.Forward) (ht : OnScreen t) : OnScreen (o.run t) := by
  cases o with
  | putchar c => exact putchar_onScreen ht c
  | back dx => exact h.elim
  | movecursor => exact ⟨ht.x, ht.y, ht.inside⟩
  | setup => exact (terminalInitialize_onScreen ht.inside).1
  | setcolor color => exact ⟨ht.x, ht.y, ht.inside⟩

theorem State.AllOn.terminal (h : s.AllOn) : OnScreen s.terminal := h _ List.mem_cons_self

theorem perform_cons : s.perform (o :: ops) = State.perform ops { s with
    terminal := o.run s.terminal, trail := s.terminal :: s.trail } := rfl

theorem State.AllOn.after (o : Op) (h : s.AllOn) (ho : OnScreen (o.run s.terminal)) :
    State.AllOn { s with terminal := o.run s.terminal, trail := s.terminal :: s.trail } := by
  intro u hu
  rcases List.mem_cons.mp hu with rfl | hu
  · exact ho
  · exact h u hu

theorem State.AllOn.perform (h : s.AllOn) (hops : ∀ op ∈ ops, op.Forward) : (s.perform ops).AllOn := by
  induction ops generalizing s with
  | nil => exact h
  | cons op ops ih =>
    rw [perform_cons]
    exact ih (h.after op ((hops op List.mem_cons_self).onScreen h.terminal))
      fun x hx => hops x (List.mem_cons_of_mem op hx)

theorem perform_trail (ops : List Op) (s : State) : s.trail ⊆ (s.perform ops).trail ∧
    (ops ≠ [] → s.terminal ∈ (s.perform ops).trail) := by
  induction ops generalizing s with
  | nil => exact ⟨List.Subset.refl _, fun h => absurd rfl h⟩
  | cons op ops ih =>
    rw [perform_cons]
    obtain ⟨hsub, -⟩ := ih { s with terminal := op.run s.terminal, trail := s.terminal :: s.trail }
    exact ⟨fun u hu => hsub (List.mem_cons_of_mem _ hu), fun _ => hsub List.mem_cons_self⟩

theorem print_forward (data : List (BitVec 8)) : ∀ op ∈ print data, op.Forward := by
  intro op hop
  obtain ⟨c, -, rfl⟩ := List.mem_map.mp hop
  trivial

theorem commandOps_forward (env : Env) (buf : List (BitVec 8)) (command : Command) :
    ∀ op ∈ commandOps env buf command, op.Forward := by
  intro op hop
  cases command with
  | clear =>
    obtain rfl := List.mem_singleton.mp hop
    trivial
  | uptime => exact print_forward _ op hop
  | mem => exact (List.mem_append.mp hop).elim (print_forward _ op) (print_forward _ op)
  | version => exact (List.mem_append.mp hop).elim (print_forward _ op) (print_forward _ op)
  | getpid => exact print_forward _ op hop
  | logo =>
    obtain ⟨line, -, hop⟩ := List.mem_flatMap.mp hop
    rcases List.mem_cons.mp hop with rfl | hop
    · trivial
    · exact print_forward _ op hop
  | unknown => exact print_forward _ op hop

theorem State.AllOn.first (ops : List Op) (h : s.AllOn) (ho : o.run s.terminal = t) (ht : OnScreen t) :
    ∃ s' : State, s'.AllOn ∧ s'.terminal = t ∧ s.perform (o :: ops) = s'.perform ops := by
  subst ho
  exact ⟨_, h.after o ht, rfl, perform_cons⟩

theorem State.AllOn.backspace (h : s.AllOn) (hp : position s.terminal ≠ 0) :
    (s.perform backspaceOps).AllOn ∧
      position (s.perform backspaceOps).terminal + 1 = position s.terminal := by
  obtain ⟨h1, h2, h3, hpos⟩ := backspace_onScreen h.terminal hp
  generalize hu : terminalBack 1 s.terminal = u at h1 h2 h3 hpos
  generalize hv : terminalPutchar space u = v at h2 h3 hpos
  generalize hw : terminalBack 1 v = w at h3 hpos
  obtain ⟨s1, hs1, ht1, he1⟩ := h.first (o := .back 1) [.putchar space, .back 1, .movecursor] hu h1
  subst ht1
  obtain ⟨s2, hs2, ht2, he2⟩ := hs1.first (o := .putchar space) [.back 1, .movecursor] hv h2
  subst ht2
  obtain ⟨s3, hs3, ht3, he3⟩ := hs2.first (o := .back 1) [.movecursor] hw h3
  subst ht3
  obtain ⟨s4, hs4, ht4, he4⟩ := hs3.first (o := .movecursor) [] rfl ⟨h3.x, h3.y, h3.inside⟩
  rw [backspaceOps, he1, he2, he3, he4]
  refine ⟨hs4, ?_⟩
  show position s4.terminal + 1 = _
  rw [ht4]
  exact hpos

-- ---------------------------------------------------------------------------
-- Keys
-- ---------------------------------------------------------------------------

def Erases (s : State) (k : Key) : Prop := k.char = backspace ∧ 0 < s.shell.bufLocation

/-- No character is erased while the cursor is in the first cell. -/
def Careful : State → List Key → Prop
  | _, [] => True
  | s, k :: keys => (Erases s k → position s.terminal ≠ 0) ∧ Careful (s.key k) keys

theorem key_erases (h : Erases s k) : s.key k =
    { s.perform backspaceOps with shell := ⟨s.shell.commandBuf, s.shell.bufLocation - 1⟩ } := by
  rw [State.key, Shell.key, if_neg, if_pos h.1, if_pos h.2]
  rw [h.1]
  decide

theorem key_forward (h : ¬ Erases s k) :
    ∃ ops shell, s.key k = { s.perform ops with shell := shell } ∧ ∀ op ∈ ops, op.Forward := by
  refine ⟨(s.shell.key k.env k.char).1, (s.shell.key k.env k.char).2, rfl, ?_⟩
  unfold Shell.key
  split
  · intro op hop
    rcases List.mem_append.mp hop with hop | hop
    · rcases List.mem_append.mp hop with hop | hop
      · obtain rfl := List.mem_singleton.mp hop
        trivial
      · exact commandOps_forward _ _ _ op hop
    · exact print_forward _ op hop
  · split
    · rename_i hc
      rw [if_neg fun hpos => h ⟨hc, hpos⟩]
      exact fun op hop => absurd hop List.not_mem_nil
    · split
      · intro op hop
        obtain rfl := List.mem_singleton.mp hop
        trivial
      · exact fun op hop => absurd hop List.not_mem_nil

theorem State.AllOn.key (h : s.AllOn) (hc : Erases s k → position s.terminal ≠ 0) :
    (s.key k).AllOn := by
  by_cases he : Erases s k
  · rw [key_erases he]
    exact (h.backspace (hc he)).1
  · obtain ⟨ops, shell, hk, hf⟩ := key_forward he
    rw [hk]
    exact h.perform hf

theorem key_trail (s : State) (k : Key) : s.trail ⊆ (s.key k).trail := (perform_trail _ s).1

theorem run_trail (keys : List Key) (s : State) : s.trail ⊆ (run keys s).trail := by
  induction keys generalizing s with
  | nil => exact List.Subset.refl _
  | cons k keys ih => exact fun u hu => ih (s.key k) (key_trail s k hu)

theorem key_leaves (he : Erases s k) (hp : position s.terminal = 0) :
    ∃ u ∈ (s.key k).trail, ¬ OnScreen u := by
  rw [key_erases he]
  refine ⟨terminalBack 1 s.terminal, ?_, back_first hp⟩
  show terminalBack 1 s.terminal ∈ (s.perform backspaceOps).trail
  rw [backspaceOps, perform_cons]
  exact (perform_trail _ _).2 (by simp)

theorem State.AllOn.run_iff (h : s.AllOn) : (run keys s).AllOn ↔ Careful s keys := by
  induction keys generalizing s with
  | nil => exact iff_of_true h trivial
  | cons k keys ih =>
    by_cases hc : Erases s k → position s.terminal ≠ 0
    · exact (ih (h.key hc)).trans (and_iff_right hc).symm
    · refine iff_of_false (fun hall => ?_) fun hcareful => hc hcareful.1
      push Not at hc
      obtain ⟨u, hu, hoff⟩ := key_leaves hc.1 hc.2
      exact hoff (hall u (List.mem_cons_of_mem _ (run_trail keys _ hu)))

theorem start_allOn (t : Terminal) : (start t).AllOn := by
  refine State.AllOn.perform ?_ (print_forward _)
  intro u hu
  obtain rfl := List.mem_singleton.mp hu
  exact (terminalInitialize_onScreen fun a ha => absurd ha List.not_mem_nil).1

/-- The shell stays on the screen exactly if it never erases a character with the cursor
in the first cell. -/
theorem on_screen_iff (t : Terminal) (keys : List Key) :
    (∀ u ∈ (run keys (start t)).terminal :: (run keys (start t)).trail, u.terminalX < vgaWidth ∧
      u.terminalY < vgaHeight ∧ ∀ a ∈ u.accesses, a < vgaWidth * vgaHeight) ↔
    Careful (start t) keys := by
  rw [← (start_allOn t).run_iff, Nat.mul_comm]
  exact forall₂_congr fun u _ => ⟨fun h => ⟨h.1, h.2.1, h.2.2⟩, fun h => ⟨h.x, h.y, h.inside⟩⟩

-- ---------------------------------------------------------------------------
-- Keys without a character
-- ---------------------------------------------------------------------------

theorem key_typed (hn : k.char ≠ newline) (hb : k.char ≠ backspace)
    (hroom : s.shell.bufLocation < cmdBufSize - 1) : s.key k =
      ⟨terminalPutchar k.char s.terminal,
        ⟨s.shell.commandBuf.set s.shell.bufLocation k.char, s.shell.bufLocation + 1⟩,
        s.terminal :: s.trail⟩ := by
  rw [State.key, Shell.key, if_neg hn, if_neg hb, if_pos hroom]
  rfl

/-- There are at least as many cells before the cursor as characters in the buffer. -/
structure Printed (s : State) : Prop where
  on : s.AllOn
  few : s.shell.bufLocation < cmdBufSize
  cells : s.shell.bufLocation ≤ position s.terminal

theorem Printed.erase (h : Printed s) (he : Erases s k) : position s.terminal ≠ 0 := by
  have := h.cells
  have := he.2
  omega

theorem Printed.key (h : Printed s) (h0 : k.char ≠ 0) : Printed (s.key k) := by
  have hon : (s.key k).AllOn := h.on.key fun he => h.erase he
  have hfew := h.few
  have hcells := h.cells
  have hsize : cmdBufSize ≤ (vgaHeight - 1) * vgaWidth := by decide
  by_cases hn : k.char = newline
  · refine ⟨hon, ?_, ?_⟩
    · rw [State.key, Shell.key, if_pos hn]
      show 0 < cmdBufSize
      decide
    · rw [State.key, Shell.key, if_pos hn]
      exact Nat.zero_le _
  · by_cases hb : k.char = backspace
    · by_cases hpos : 0 < s.shell.bufLocation
      · have he : Erases s k := ⟨hb, hpos⟩
        obtain ⟨-, hp⟩ := h.on.backspace (h.erase he)
        refine ⟨hon, ?_, ?_⟩
        · rw [key_erases he]
          show s.shell.bufLocation - 1 < cmdBufSize
          omega
        · rw [key_erases he]
          show s.shell.bufLocation - 1 ≤ position (s.perform backspaceOps).terminal
          omega
      · have hsame : s.key k = s := by
          rw [State.key, Shell.key, if_neg hn, if_pos hb, if_neg hpos]
          rfl
        rw [hsame]
        exact h
    · by_cases hroom : s.shell.bufLocation < cmdBufSize - 1
      · obtain ⟨-, hp⟩ := putchar_cell h.on.terminal hn h0
        refine ⟨hon, ?_, ?_⟩
        · rw [key_typed hn hb hroom]
          show s.shell.bufLocation + 1 < cmdBufSize
          omega
        · rw [key_typed hn hb hroom]
          show s.shell.bufLocation + 1 ≤ position (terminalPutchar k.char s.terminal)
          omega
      · have hsame : s.key k = s := by
          rw [State.key, Shell.key, if_neg hn, if_neg hb, if_neg hroom]
          rfl
        rw [hsame]
        exact h

theorem Printed.careful (h : Printed s) (h0 : ∀ k ∈ keys, k.char ≠ 0) : Careful s keys := by
  induction keys generalizing s with
  | nil => trivial
  | cons k keys ih =>
    exact ⟨fun he => h.erase he, ih (h.key (h0 k List.mem_cons_self))
      fun x hx => h0 x (List.mem_cons_of_mem k hx)⟩

/-- Without the keys that have no character, the shell stays on the screen. -/
theorem careful_of_characters (t : Terminal) (h0 : ∀ k ∈ keys, k.char ≠ 0) :
    Careful (start t) keys :=
  Printed.careful ⟨start_allOn t, show 0 < cmdBufSize by decide, Nat.zero_le _⟩ h0

theorem start_position (t : Terminal) : position (start t).terminal = 82 := by
  obtain ⟨h0, hp0⟩ := terminalInitialize_onScreen (t := { t with accesses := [] })
    fun a ha => absurd ha List.not_mem_nil
  rw [start]
  generalize terminalInitialize { t with accesses := [] } = u at h0 hp0 ⊢
  have hw : vgaWidth = 80 := rfl
  have hsize : vgaHeight * vgaWidth = 2000 := rfl
  have hy : u.terminalY = 0 := by
    rw [position, hw] at hp0
    omega
  obtain ⟨h1, hx1, hy1⟩ := putchar_newline h0
  have hp1 : position (terminalPutchar newline u) = 80 := by
    rw [position, hx1, hy1, hy]
    rfl
  obtain ⟨h2, hp2⟩ := putchar_cell h1 (c := 0x24) (by decide) (by decide)
  have hp2 := hp2.resolve_right (by omega)
  obtain ⟨-, hp3⟩ := putchar_cell h2 (c := space) (by decide) (by decide)
  have hp3 := hp3.resolve_right (by omega)
  show position (terminalPutchar space (terminalPutchar 0x24 (terminalPutchar newline u))) = 82
  omega

/-- Control, which `kb_us` has no character for. -/
def controlKey : Key := ⟨⟨0, 0, 0, 0, []⟩, 29⟩

def backspaceKey : Key := ⟨⟨0, 0, 0, 0, []⟩, 14⟩

/-- A key without a character is in the buffer, but not on the screen. -/
theorem control_run (h : s.AllOn) {n : Nat} (hroom : s.shell.bufLocation + n < cmdBufSize) :
    (run (List.replicate n controlKey) s).AllOn ∧
      (run (List.replicate n controlKey) s).shell.bufLocation = s.shell.bufLocation + n ∧
      position (run (List.replicate n controlKey) s).terminal = position s.terminal := by
  induction n generalizing s with
  | zero => exact ⟨h, rfl, rfl⟩
  | succ n ih =>
    have hkey := key_typed (s := s) (k := controlKey) (by decide) (by decide) (by omega)
    have hon := h.key (k := controlKey) fun he => absurd he.1 (by decide)
    obtain ⟨-, hx, hy⟩ := putchar_nul h.terminal
    obtain ⟨h1, h2, h3⟩ := ih hon (by rw [hkey]; show s.shell.bufLocation + 1 + n < _; omega)
    refine ⟨h1, h2.trans ?_, h3.trans ?_⟩
    · rw [hkey]
      show s.shell.bufLocation + 1 + n = _
      omega
    · rw [hkey]
      show position (terminalPutchar 0 s.terminal) = _
      rw [position, position, hx, hy]

theorem backspace_run (h : s.AllOn) {n : Nat} (hn : n ≤ s.shell.bufLocation)
    (hp : n ≤ position s.terminal) :
    (run (List.replicate n backspaceKey) s).shell.bufLocation + n = s.shell.bufLocation ∧
      position (run (List.replicate n backspaceKey) s).terminal + n = position s.terminal := by
  induction n generalizing s with
  | zero => exact ⟨rfl, rfl⟩
  | succ n ih =>
    have he : Erases s backspaceKey := ⟨by decide, by omega⟩
    have hkey := key_erases he
    obtain ⟨-, hpos⟩ := h.backspace (by omega)
    have hpos' : position (s.key backspaceKey).terminal + 1 = position s.terminal := by
      rw [hkey]
      exact hpos
    have hloc : (s.key backspaceKey).shell.bufLocation = s.shell.bufLocation - 1 := by rw [hkey]
    obtain ⟨h1, h2⟩ := ih (s := s.key backspaceKey) (h.key fun _ => by omega) (by omega) (by omega)
    exact ⟨by show (run _ (s.key backspaceKey)).shell.bufLocation + (n + 1) = _; omega,
      by show position (run _ (s.key backspaceKey)).terminal + (n + 1) = _; omega⟩

theorem Careful.append {keys' : List Key} (h : Careful s (keys ++ keys')) :
    Careful (run keys s) keys' := by
  induction keys generalizing s with
  | nil => exact h
  | cons k keys ih => exact ih h.2

/-- Control 83 times and backspace 83 times: the prompt takes only 82 cells. -/
theorem shell_leaves_screen : ¬ ∀ (t : Terminal) (keys : List Key),
    ∀ u ∈ (run keys (start t)).terminal :: (run keys (start t)).trail, u.terminalX < vgaWidth ∧
      u.terminalY < vgaHeight ∧ ∀ a ∈ u.accesses, a < vgaWidth * vgaHeight := by
  intro hall
  let t : Terminal := ⟨0, 0, 0, fun _ => 0, 0, [], []⟩
  have hon : (run (List.replicate 83 controlKey ++ (List.replicate 82 backspaceKey ++ [backspaceKey]))
      (start t)).AllOn := by
    intro u hu
    obtain ⟨hx, hy, ha⟩ := hall t _ u hu
    exact ⟨hx, hy, ha⟩
  have hcareful := ((start_allOn t).run_iff.mp hon).append.append
  obtain ⟨h1, hloc, hp⟩ := control_run (start_allOn t) (n := 83) (by decide)
  rw [start_position] at hp
  have hloc : (run (List.replicate 83 controlKey) (start t)).shell.bufLocation = 83 := hloc
  obtain ⟨hloc', hp'⟩ := backspace_run h1 (n := 82) (by omega) (by omega)
  exact hcareful.1 ⟨by decide, by omega⟩ (by omega)

end

end Shigure.Sh
