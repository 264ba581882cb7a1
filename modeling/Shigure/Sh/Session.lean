import Shigure.Libc.PrintfLaws
import Shigure.Sh.Interrupts
import Shigure.Sh.Line
import Shigure.Sh.Scrollback

/-!
# What a session leaves on the screen

The reference does not know the screen: it prints the prompts, the lines as they were
entered, what the commands wrote and the line that is being typed, one after the other.
-/

namespace Shigure.Sh

open Tty Libc

-- ---------------------------------------------------------------------------
-- Operations on paper
-- ---------------------------------------------------------------------------

structure Sheet where
  roll : Scroll
  color : BitVec 8

def Sheet.blank : Sheet := ⟨.blank, vgaEntryColor .lightGrey .black⟩

def Op.type (s : Sheet) : Op → Sheet
  | .putchar c =>
    if c = newline then { s with roll := s.roll.feed vgaWidth }
    else if c = 0 then s
    else { s with roll := s.roll.put (vgaEntry c s.color) }
  | .back dx => { s with roll := ⟨s.roll.ink, s.roll.pen - dx.toNat⟩ }
  | .movecursor => s
  | .setup => .blank
  | .setcolor color => { s with color := color }

def sheet (ops : List Op) : Sheet := ops.foldl Op.type .blank

structure OnSheet (t : Terminal) (s : Sheet) : Prop where
  seen : ∃ top, Seen t s.roll top
  color : t.terminalColor = s.color

-- ---------------------------------------------------------------------------
-- Sessions
-- ---------------------------------------------------------------------------

/-- What is above the line that is being typed, and that line. -/
structure Session where
  text : List Op
  line : List (BitVec 8)

def Session.first : Session := ⟨outputPrompt, []⟩

/-- Enter prints the line, what its command writes and a prompt; the other keys edit the
line. -/
def Session.key (s : Session) (k : Key) : Session :=
  if k.char = newline then
    ⟨s.text ++ print (s.line ++ [newline]) ++ processCommand k.env s.line ++ outputPrompt, []⟩
  else ⟨s.text, edit s.line k.char⟩

def session (keys : List Key) : Session := keys.foldl Session.key .first

def Session.ops (s : Session) : List Op := s.text ++ print s.line

section
variable {t : Terminal} {s : State} {q : Session} {p : Sheet} {ops ops' : List Op} {o : Op}
  {k : Key} {keys : List Key} {c : BitVec 8}

-- ---------------------------------------------------------------------------
-- One operation
-- ---------------------------------------------------------------------------

theorem putchar_color (c : BitVec 8) (t : Terminal) :
    (terminalPutchar c t).terminalColor = t.terminalColor := by
  have hplace : (wrapLine (placeChar c t)).terminalColor = t.terminalColor := by
    simp only [wrapLine, placeChar, terminalPutentryat, Terminal.put]
    split_ifs <;> rfl
  rw [← hplace, terminalPutchar]
  generalize wrapLine (placeChar c t) = u
  show (scrollScreen u).terminalColor = u.terminalColor
  have hr := (scrollScreen_repainted u).color
  rw [scrollScreen]
  split
  · dsimp only
    exact hr
  · rfl

theorem back_color (t : Terminal) : (terminalBack 1 t).terminalColor = t.terminalColor := by
  obtain ⟨x, y, hsame⟩ := back_same t
  rw [hsame]

theorem performed_backspace (t : Terminal) : performed backspaceOps t = terminalBackspace t := rfl

theorem backspace_color (t : Terminal) : (terminalBackspace t).terminalColor = t.terminalColor := by
  rw [terminalBackspace, terminalMovecursor]
  exact (back_color _).trans ((putchar_color _ _).trans (back_color t))

theorem OnSheet.op (h : OnSheet t p) (ho : o.Forward) : OnSheet (o.run t) (o.type p) := by
  obtain ⟨top, hs⟩ := h.seen
  cases o with
  | putchar c =>
    have hcolor := (putchar_color c t).trans h.color
    rw [Op.type]
    by_cases hn : c = newline
    · rw [if_pos hn]
      subst hn
      exact ⟨⟨_, hs.newline⟩, hcolor⟩
    · rw [if_neg hn]
      by_cases h0 : c = 0
      · rw [if_pos h0]
        subst h0
        exact ⟨⟨_, hs.nul⟩, hcolor⟩
      · have hput := hs.putchar hn h0
        rw [h.color] at hput
        rw [if_neg h0]
        exact ⟨⟨_, hput⟩, hcolor⟩
  | back dx => exact ho.elim
  | movecursor =>
    exact ⟨⟨top, hs.x, hs.y, hs.pen, hs.cells, hs.below,
      shown_at hs.x hs.y (movecursor_cursor t)⟩, h.color⟩
  | setup => exact ⟨⟨0, seen_initialize t⟩, (terminalInitialize_screen t).2.1⟩
  | setcolor color => exact ⟨⟨top, hs.setcolor color⟩, rfl⟩

theorem OnSheet.perform (h : OnSheet t p) (hops : ∀ o ∈ ops, o.Forward) :
    OnSheet (performed ops t) (ops.foldl Op.type p) := by
  induction ops generalizing t p with
  | nil => exact h
  | cons o ops ih =>
    exact ih (h.op (hops o List.mem_cons_self)) fun x hx => hops x (List.mem_cons_of_mem o hx)

theorem sheet_append (ops ops' : List Op) : sheet (ops ++ ops') = ops'.foldl Op.type (sheet ops) :=
  List.foldl_append

theorem clean_type (h : p.roll.Clean) (ho : o.Forward) : (o.type p).roll.Clean := by
  cases o with
  | putchar c =>
    rw [Op.type]
    split
    · exact h.feed (by decide)
    · split
      · exact h
      · exact h.put _
  | back dx => exact ho.elim
  | movecursor => exact h
  | setup => exact Roll.clean_blank
  | setcolor color => exact h

theorem clean_types (h : p.roll.Clean) (hops : ∀ o ∈ ops, o.Forward) :
    (ops.foldl Op.type p).roll.Clean := by
  induction ops generalizing p with
  | nil => exact h
  | cons o ops ih =>
    exact ih (clean_type h (hops o List.mem_cons_self)) fun x hx => hops x (List.mem_cons_of_mem o hx)

theorem sheet_erase (hops : ∀ o ∈ ops, o.Forward) (hn : c ≠ newline) (h0 : c ≠ 0) :
    (sheet (ops ++ [.putchar c])).roll.erase = (sheet ops).roll ∧
      (sheet (ops ++ [.putchar c])).color = (sheet ops).color := by
  rw [sheet_append, List.foldl_cons, List.foldl_nil, Op.type, if_neg hn, if_neg h0]
  exact ⟨Roll.erase_put (clean_types Roll.clean_blank hops) _, rfl⟩

-- ---------------------------------------------------------------------------
-- Commands
-- ---------------------------------------------------------------------------

theorem unknown_text : text "Command not found: " =
    [67, 111, 109, 109, 97, 110, 100, 32, 110, 111, 116, 32, 102, 111, 117, 110, 100, 58, 32] := by
  decide +kernel

theorem unknown_render (buf : List (BitVec 8)) :
    render (text "Command not found: %s\n") [.str buf] =
      some (text "Command not found: " ++ cString buf ++ [newline]) := by
  have hformat : text "Command not found: %s\n" =
      text "Command not found: " ++ [percent, 0x73, newline] := by decide +kernel
  rw [hformat, unknown_text]
  simp [render, percent, conversion, Conversion.render, newline]

theorem unknown_printed (buf : List (BitVec 8)) (hlen : buf.length ≤ cmdBufSize) :
    printed "Command not found: %s\n" [.str buf] =
      text "Command not found: " ++ cString buf ++ [newline] := by
  have hshort : (cString buf).length ≤ buf.length := (List.takeWhile_prefix _).length_le
  have hsize : cmdBufSize = 256 := rfl
  have hmax : intMax = 2147483647 := rfl
  have hout : 0 + (text "Command not found: " ++ cString buf ++ [newline]).length ≤ intMax := by
    rw [unknown_text]
    simp only [List.length_append, List.length_cons, List.length_nil]
    omega
  have hloop := printfLoop_render 0 [] (Nat.lt_succ_self _) (unknown_render buf) hout
  rw [printed, printf, hloop, Option.map_some, Option.getD_some, List.nil_append]

/-- A command prints the same whatever stands behind the NUL. -/
theorem processCommand_cString (env : Env) (buf : List (BitVec 8)) (hlen : buf.length ≤ cmdBufSize) :
    processCommand env buf = processCommand env (cString buf) := by
  have hshort : (cString buf).length ≤ buf.length := (List.takeWhile_prefix _).length_le
  have hstr : cString (cString buf) = cString buf := cString_of_noNul (zero_notMem_cString buf)
  rw [processCommand, processCommand, ← findCommand_cString]
  cases findCommand buf with
  | unknown =>
    rw [commandOps, commandOps, unknown_printed _ hlen, unknown_printed _ (by omega), hstr]
  | clear => rfl
  | uptime => rfl
  | mem => rfl
  | version => rfl
  | getpid => rfl
  | logo => rfl

-- ---------------------------------------------------------------------------
-- Keys
-- ---------------------------------------------------------------------------

theorem Session.ops_append (q : Session) (c : BitVec 8) :
    Session.ops ⟨q.text, q.line ++ [c]⟩ = q.ops ++ [.putchar c] := by
  rw [Session.ops, print, List.map_append, ← List.append_assoc]
  rfl

structure InSession (s : State) (q : Session) : Prop where
  printed : Printed s
  buffered : Buffered s.shell q.line 0
  plain : newline ∉ q.line
  forward : ∀ o ∈ q.text, o.Forward
  shown : OnSheet s.terminal (sheet q.ops)

theorem InSession.forward_ops (h : InSession s q) : ∀ o ∈ q.ops, o.Forward := by
  intro o ho
  rcases List.mem_append.mp ho with ho | ho
  · exact h.forward o ho
  · exact print_forward _ o ho

theorem enter_forward (q : Session) (env : Env) :
    ∀ o ∈ [.putchar newline] ++ processCommand env q.line ++ outputPrompt, o.Forward := by
  intro o ho
  rcases List.mem_append.mp ho with ho | ho
  · rcases List.mem_append.mp ho with ho | ho
    · obtain rfl := List.mem_singleton.mp ho
      trivial
    · exact commandOps_forward _ _ _ o ho
  · exact print_forward _ o ho

theorem InSession.enter (h : InSession s q) (hn : k.char = newline) (h0 : k.char ≠ 0) :
    InSession (s.key k) (q.key k) := by
  have hprinted := h.printed.key h0
  have hf := enter_forward q k.env
  have hsize := h.buffered.size
  have hcommand : processCommand k.env (s.shell.commandBuf.set s.shell.bufLocation 0) =
      processCommand k.env q.line := by
    rw [processCommand_cString _ _ (by rw [List.length_set, hsize]), ← Shell.commandLine,
      h.buffered.commandLine]
  have hkey : s.key k = { s.perform ([.putchar newline] ++ processCommand k.env q.line ++
      outputPrompt) with shell := .fresh } := by
    rw [State.key, Shell.key, if_pos hn, ← hcommand]
  have hops : (q.key k).ops =
      q.ops ++ ([.putchar newline] ++ processCommand k.env q.line ++ outputPrompt) := by
    simp only [Session.key, if_pos hn, Session.ops, print, List.map_append, List.map_nil,
      List.map_cons, List.append_assoc, List.append_nil]
  have hline : (q.key k).line = [] := by rw [Session.key, if_pos hn]
  refine ⟨hprinted, ?_, ?_, ?_, ?_⟩
  · rw [hline, hkey]
    exact buffered_fresh
  · rw [hline]
    exact List.not_mem_nil
  · intro o ho
    have ho : o ∈ (q.key k).ops := List.mem_append_left _ ho
    rw [hops] at ho
    exact (List.mem_append.mp ho).elim (h.forward_ops o) (hf o)
  · rw [hkey, hops, sheet_append]
    show OnSheet (s.perform _).terminal _
    rw [perform_terminal]
    exact h.shown.perform hf

theorem InSession.takeBack (h : InSession s q) (hb : k.char = backspace)
    (hpos : 0 < s.shell.bufLocation) : InSession (s.key k) (q.key k) := by
  have h0 : k.char ≠ 0 := by
    rw [hb]
    decide
  have hn : k.char ≠ newline := by
    rw [hb]
    decide
  have hsome : q.line ≠ [] := by
    have hloc := h.buffered.location
    intro hnil
    rw [hnil, List.length_nil] at hloc
    exact hpos.ne' hloc
  have hprinted := h.printed.key h0
  have hposition := h.printed.erase ⟨hb, hpos⟩
  have hkey := key_erases (s := s) ⟨hb, hpos⟩
  have hq : q.key k = ⟨q.text, q.line.dropLast⟩ := by
    rw [Session.key, if_neg hn, edit, if_neg hn, if_pos hb]
  obtain ⟨line, c, hline⟩ := (List.eq_nil_or_concat' q.line).resolve_left hsome
  have hc : c ∈ q.line := hline ▸ List.mem_append_right _ List.mem_cons_self
  have hops : q.ops = Session.ops ⟨q.text, line⟩ ++ [.putchar c] := by
    rw [← Session.ops_append ⟨q.text, line⟩, ← hline]
  have hfront : ∀ o ∈ Session.ops ⟨q.text, line⟩, o.Forward := by
    intro o ho
    exact h.forward_ops o (hops ▸ List.mem_append_left _ ho)
  obtain ⟨hroll, hcolor⟩ := sheet_erase (c := c) hfront (fun he => h.plain (he ▸ hc))
    (fun he => h.buffered.noNul (he ▸ hc))
  obtain ⟨top, hs⟩ := h.shown.seen
  have hback := hs.backspace hposition
  rw [hops, hroll] at hback
  rw [hkey] at hprinted
  rw [hq, hkey]
  refine ⟨hprinted, h.buffered.dropLast hpos,
    fun hin => h.plain (List.dropLast_subset _ hin), h.forward, ?_⟩
  show OnSheet (s.perform backspaceOps).terminal _
  rw [hline, List.dropLast_concat, perform_terminal, performed_backspace]
  refine ⟨⟨top, hback⟩, ?_⟩
  rw [← hcolor, ← hops, ← h.shown.color, backspace_color]

theorem InSession.write (h : InSession s q) (hn : k.char ≠ newline) (hb : k.char ≠ backspace)
    (h0 : k.char ≠ 0) (hroom : s.shell.bufLocation < cmdBufSize - 1) :
    InSession (s.key k) (q.key k) := by
  have hprinted := h.printed.key h0
  have hloc := h.buffered.location
  have hq : q.key k = ⟨q.text, q.line ++ [k.char]⟩ := by
    rw [Session.key, if_neg hn, edit, if_neg hn, if_neg hb, if_neg h0, if_pos (by omega)]
  have hput := h.shown.op (o := .putchar k.char) trivial
  have hsheet : sheet (q.ops ++ [.putchar k.char]) = Op.type (sheet q.ops) (.putchar k.char) :=
    sheet_append _ _
  rw [← hsheet, ← Session.ops_append, ← hq] at hput
  rw [key_typed hn hb hroom] at hprinted ⊢
  refine ⟨hprinted, ?_, ?_, ?_, hput⟩
  · rw [hq]
    exact h.buffered.append hroom h0
  · rw [hq, List.mem_append, List.mem_singleton, not_or]
    exact ⟨h.plain, Ne.symm hn⟩
  · rw [hq]
    exact h.forward

/-- A key that the shell has no use for. -/
theorem InSession.ignore (h : InSession s q) (hn : k.char ≠ newline)
    (hno : k.char = backspace ∧ s.shell.bufLocation = 0 ∨
      k.char ≠ backspace ∧ k.char ≠ 0 ∧ ¬ s.shell.bufLocation < cmdBufSize - 1) :
    InSession (s.key k) (q.key k) := by
  have hloc := h.buffered.location
  have hsame : s.key k = s := by
    rw [State.key, Shell.key, if_neg hn]
    rcases hno with ⟨hb, hzero⟩ | ⟨hb, -, hfull⟩
    · rw [if_pos hb, if_neg (by omega)]
      rfl
    · rw [if_neg hb, if_neg hfull]
      rfl
  have hedit : edit q.line k.char = q.line := by
    rw [edit, if_neg hn]
    rcases hno with ⟨hb, hzero⟩ | ⟨hb, h0, hfull⟩
    · rw [if_pos hb, List.eq_nil_of_length_eq_zero (by omega : q.line.length = 0)]
      rfl
    · rw [if_neg hb, if_neg h0, if_neg (by omega)]
  rw [hsame, Session.key, if_neg hn, hedit]
  exact h

theorem InSession.key (h : InSession s q) (h0 : k.char ≠ 0) : InSession (s.key k) (q.key k) := by
  by_cases hn : k.char = newline
  · exact h.enter hn h0
  by_cases hb : k.char = backspace
  · rcases Nat.eq_zero_or_pos s.shell.bufLocation with hzero | hpos
    · exact h.ignore hn (.inl ⟨hb, hzero⟩)
    · exact h.takeBack hb hpos
  · by_cases hroom : s.shell.bufLocation < cmdBufSize - 1
    · exact h.write hn hb h0 hroom
    · exact h.ignore hn (.inr ⟨hb, h0, hroom⟩)

-- ---------------------------------------------------------------------------
-- Runs
-- ---------------------------------------------------------------------------

theorem start_printed (t : Terminal) : Printed (start t) := by
  refine ⟨start_allOn t, ?_, ?_⟩ <;> rw [start, perform_shell]
  · exact (by decide : 0 < cmdBufSize)
  · exact Nat.zero_le _

theorem start_inSession (t : Terminal) : InSession (start t) .first where
  printed := start_printed t
  buffered := by
    rw [start, perform_shell]
    exact buffered_fresh
  plain := List.not_mem_nil
  forward := print_forward _
  shown := by
    have hblank : OnSheet (terminalInitialize { t with accesses := [] }) .blank :=
      ⟨⟨0, seen_initialize _⟩, (terminalInitialize_screen _).2.1⟩
    have hops : Session.ops .first = outputPrompt := List.append_nil _
    rw [start, perform_terminal, hops]
    have hprompt : ∀ o ∈ outputPrompt, o.Forward := print_forward _
    exact hblank.perform hprompt

theorem run_inSession (h : InSession s q) (h0 : ∀ k ∈ keys, k.char ≠ 0) :
    InSession (run keys s) (keys.foldl Session.key q) := by
  induction keys generalizing s q with
  | nil => exact h
  | cons k keys ih =>
    exact ih (h.key (h0 k List.mem_cons_self)) fun x hx => h0 x (List.mem_cons_of_mem k hx)

/-- What is on the screen is the end of the session: its prompts, the lines as they were
entered, what their commands wrote, and the line that is being typed. -/
theorem session_shown (t : Terminal) (keys : List Key) (h0 : ∀ k ∈ keys, k.char ≠ 0) :
    ∃ top, Seen (run keys (start t)).terminal (sheet (session keys).ops).roll top :=
  (run_inSession (start_inSession t) h0).shown.seen

/-- A character that is taken back, and an empty line. -/
theorem session_shown_erased : ∃ top, Seen
    (run [⟨noEnv, 30⟩, ⟨noEnv, 14⟩, ⟨noEnv, 28⟩] (start ⟨0, 0, 0, fun _ => 0, 0, [], []⟩)).terminal
    (sheet (session [⟨noEnv, 30⟩, ⟨noEnv, 14⟩, ⟨noEnv, 28⟩]).ops).roll top :=
  session_shown _ _ (by decide)

end

end Shigure.Sh
