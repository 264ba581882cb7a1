import Shigure.Sh.Shell

/-!
# The command line

What the C string in `command_buf` is at Enter, against the keys as they were meant. A
key without a character puts a NUL into the buffer, which ends the string there and
is what the next Backspace takes away.
-/

namespace Shigure.Sh

open Tty Libc

/-- The line after a key, as it is meant to be edited. -/
def edit (line : List (BitVec 8)) (c : BitVec 8) : List (BitVec 8) :=
  if c = newline then []
  else if c = backspace then line.dropLast
  else if c = 0 then line
  else if line.length < cmdBufSize - 1 then line ++ [c]
  else line

/-- The line that the keys since the last Enter make. -/
def lineOf (keys : List Key) : List (BitVec 8) := keys.foldl (fun line k => edit line k.char) []

def typed (s : Shell) (keys : List Key) : Shell :=
  keys.foldl (fun s k => (s.key k.env k.char).2) s

/-- The string that `process_command` compares if Enter is pressed. -/
def Shell.commandLine (s : Shell) : List (BitVec 8) := cString (s.commandBuf.set s.bufLocation 0)

theorem run_shell (keys : List Key) (s : State) : (run keys s).shell = typed s.shell keys := by
  induction keys generalizing s with
  | nil => rfl
  | cons k keys ih => exact ih _

theorem findCommand_cString (buf : List (BitVec 8)) : findCommand buf = findCommand (cString buf) := by
  have hstr : cString (cString buf) = cString buf := cString_of_noNul (zero_notMem_cString buf)
  simp only [findCommand, strcmp_eq_zero, hstr]

theorem enter_processes (s : Shell) (env : Env) :
    (s.key env newline).1 = [.putchar newline] ++ commandOps env (s.commandBuf.set s.bufLocation 0)
      (findCommand s.commandLine) ++ outputPrompt := by
  rw [Shell.commandLine, ← findCommand_cString]
  rfl

-- ---------------------------------------------------------------------------
-- The buffer
-- ---------------------------------------------------------------------------

/-- The buffer holds the line and then NULs up to the write position. -/
structure Buffered (s : Shell) (line : List (BitVec 8)) (nuls : Nat) : Prop where
  size : s.commandBuf.length = cmdBufSize
  location : s.bufLocation = line.length + nuls
  room : s.bufLocation ≤ cmdBufSize - 1
  held : s.commandBuf.take s.bufLocation = line ++ List.replicate nuls 0
  noNul : 0 ∉ line

theorem buffered_fresh : Buffered .fresh [] 0 where
  size := by simp [Shell.fresh]
  location := rfl
  room := by decide
  held := rfl
  noNul := List.not_mem_nil

theorem set_eq_take (buf : List α) (h : n < buf.length) (c : α) :
    buf.set n c = buf.take n ++ c :: buf.drop (n + 1) := by
  rw [List.set_eq_take_append_cons_drop, if_pos h]

theorem Buffered.inBuffer (h : Buffered s line nuls) : s.bufLocation < s.commandBuf.length := by
  have hroom := h.room
  have hsize : cmdBufSize = 256 := rfl
  rw [h.size]
  omega

/-- The string ends at the write position at the latest. -/
theorem commandLine_eq {s : Shell} (h : s.bufLocation < s.commandBuf.length) :
    s.commandLine = cString (s.commandBuf.take s.bufLocation ++
      0 :: s.commandBuf.drop (s.bufLocation + 1)) := by
  rw [Shell.commandLine, set_eq_take _ h]

theorem Buffered.commandLine (h : Buffered s line nuls) : s.commandLine = line := by
  rw [commandLine_eq h.inBuffer, h.held]
  cases nuls with
  | zero =>
    rw [List.replicate_zero, List.append_nil]
    exact cString_of_nul h.noNul _
  | succ n =>
    rw [List.replicate_succ, List.append_assoc, List.cons_append]
    exact cString_of_nul h.noNul _

theorem Buffered.charAt_eq (h : Buffered s line nuls) (hi : i < s.bufLocation) :
    charAt s.commandBuf i = (line ++ List.replicate nuls 0).getD i 0 := by
  rw [← h.held, charAt, List.getD_eq_getElem?_getD, List.getD_eq_getElem?_getD,
    List.getElem?_take_of_lt hi]

theorem Buffered.lastNul (h : Buffered s line nuls) (hpos : 0 < s.bufLocation) :
    charAt s.commandBuf (s.bufLocation - 1) = 0 ↔ 0 < nuls := by
  have hloc := h.location
  rw [h.charAt_eq (by omega), List.getD_eq_getElem?_getD]
  constructor
  · intro hzero
    by_contra hnone
    obtain rfl : nuls = 0 := by omega
    have hlt : s.bufLocation - 1 < line.length := by omega
    rw [List.replicate_zero, List.append_nil, List.getElem?_eq_getElem hlt, Option.getD_some] at hzero
    exact h.noNul (hzero ▸ List.getElem_mem hlt)
  · intro hsome
    rw [List.getElem?_append_right (by omega), List.getElem?_replicate]
    split <;> rfl

theorem Buffered.firstNul (h : Buffered s line nuls) (hpos : 0 < s.bufLocation) (hnuls : 0 < nuls) :
    charAt s.commandBuf 0 = 0 ↔ line = [] := by
  rw [h.charAt_eq hpos]
  cases line with
  | nil =>
    rw [List.nil_append]
    cases nuls with
    | zero => exact absurd hnuls (Nat.lt_irrefl 0)
    | succ n => simp [List.replicate_succ]
  | cons c line =>
    have hc : c ≠ 0 := fun hc => h.noNul (hc ▸ List.mem_cons_self)
    simpa using hc

theorem Buffered.store (h : Buffered s line nuls) (hroom : s.bufLocation < cmdBufSize - 1)
    (c : BitVec 8) : (s.commandBuf.set s.bufLocation c).take (s.bufLocation + 1) =
      line ++ List.replicate nuls 0 ++ [c] := by
  have hlt : s.bufLocation < s.commandBuf.length := by
    rw [h.size]
    omega
  rw [set_eq_take _ hlt, ← h.held, List.take_append, List.take_take]
  simp [List.length_take, Nat.min_eq_left (Nat.le_of_lt hlt)]

theorem Buffered.pop (h : Buffered s line nuls) :
    s.commandBuf.take (s.bufLocation - 1) = (line ++ List.replicate nuls 0).dropLast := by
  rw [← h.held, List.dropLast_eq_take, List.take_take, List.length_take_of_le]
  · congr 1
    omega
  · have := h.room
    rw [h.size]
    omega

-- ---------------------------------------------------------------------------
-- Keys
-- ---------------------------------------------------------------------------

/-- The key has a character, or takes one away, while a NUL is the last thing in the
buffer. -/
def Disturbed (s : Shell) (k : Key) : Prop :=
  0 < s.bufLocation ∧ charAt s.commandBuf (s.bufLocation - 1) = 0 ∧ k.char ≠ newline ∧ k.char ≠ 0 ∧
    (k.char = backspace → charAt s.commandBuf 0 ≠ 0)

def Undisturbed : Shell → List Key → Prop
  | _, [] => True
  | s, k :: keys => ¬ Disturbed s k ∧ Undisturbed (s.key k.env k.char).2 keys

theorem Buffered.disturbed_iff (h : Buffered s line nuls) :
    Disturbed s k ↔
      0 < nuls ∧ k.char ≠ newline ∧ k.char ≠ 0 ∧ (k.char = backspace → line ≠ []) := by
  have hloc := h.location
  unfold Disturbed
  constructor
  · rintro ⟨hpos, hlast, hn, h0, hb⟩
    have hnuls := (h.lastNul hpos).mp hlast
    refine ⟨hnuls, hn, h0, ?_⟩
    intro hback
    have := hb hback
    rwa [ne_eq, h.firstNul hpos hnuls] at this
  · rintro ⟨hnuls, hn, h0, hb⟩
    have hpos : 0 < s.bufLocation := by omega
    refine ⟨hpos, (h.lastNul hpos).mpr hnuls, hn, h0, ?_⟩
    intro hback
    rw [ne_eq, h.firstNul hpos hnuls]
    exact hb hback

/-- A Backspace takes a NUL away if there is one behind the line. -/
theorem Buffered.erase (h : Buffered s line (n + 1)) :
    Buffered { s with bufLocation := s.bufLocation - 1 } line n where
  size := h.size
  location := by
    have := h.location
    simp only
    omega
  room := Nat.le_trans (Nat.sub_le _ _) h.room
  held := by
    rw [h.pop, List.replicate_succ', ← List.append_assoc, List.dropLast_concat]
  noNul := h.noNul

theorem Buffered.dropLast (h : Buffered s line 0) (hpos : 0 < s.bufLocation) :
    Buffered { s with bufLocation := s.bufLocation - 1 } line.dropLast 0 where
  size := h.size
  location := by
    have := h.location
    simp only [List.length_dropLast]
    omega
  room := Nat.le_trans (Nat.sub_le _ _) h.room
  held := by
    rw [h.pop, List.replicate_zero, List.append_nil, List.append_nil]
  noNul := fun h0 => h.noNul (List.dropLast_subset line h0)

theorem Buffered.append (h : Buffered s line 0) (hroom : s.bufLocation < cmdBufSize - 1)
    (hc : c ≠ 0) :
    Buffered ⟨s.commandBuf.set s.bufLocation c, s.bufLocation + 1⟩ (line ++ [c]) 0 where
  size := by rw [List.length_set, h.size]
  location := by
    have := h.location
    simp only [List.length_append, List.length_singleton]
    omega
  room := hroom
  held := by
    rw [h.store hroom, List.replicate_zero, List.append_nil, List.append_nil]
  noNul := by
    rw [List.mem_append, List.mem_singleton, not_or]
    exact ⟨h.noNul, hc.symm⟩

theorem Buffered.appendNul (h : Buffered s line nuls) (hroom : s.bufLocation < cmdBufSize - 1) :
    Buffered ⟨s.commandBuf.set s.bufLocation 0, s.bufLocation + 1⟩ line (nuls + 1) where
  size := by rw [List.length_set, h.size]
  location := by
    have := h.location
    simp only
    omega
  room := hroom
  held := by
    rw [h.store hroom, List.replicate_succ', List.append_assoc]
  noNul := h.noNul

theorem Buffered.key (h : Buffered s line nuls) (hk : ¬ Disturbed s k) :
    ∃ n, Buffered (s.key k.env k.char).2 (edit line k.char) n := by
  have hloc := h.location
  rw [h.disturbed_iff] at hk
  unfold Shell.key edit
  by_cases hn : k.char = newline
  · rw [if_pos hn, if_pos hn]
    exact ⟨0, buffered_fresh⟩
  rw [if_neg hn, if_neg hn]
  by_cases hb : k.char = backspace
  · rw [if_pos hb, if_pos hb]
    have h0 : k.char ≠ 0 := by
      rw [hb]
      decide
    cases nuls with
    | zero =>
      split
      · rename_i hpos
        exact ⟨0, h.dropLast hpos⟩
      · have hnil : line = [] := List.eq_nil_of_length_eq_zero (by omega)
        rw [hnil] at h ⊢
        exact ⟨0, h⟩
    | succ n =>
      have hnil : line = [] := by
        by_contra hne
        exact hk ⟨by omega, hn, h0, fun _ => hne⟩
      rw [if_pos (by omega)]
      rw [hnil] at h ⊢
      exact ⟨n, h.erase⟩
  · rw [if_neg hb, if_neg hb]
    by_cases h0 : k.char = 0
    · rw [if_pos h0, h0]
      split
      · rename_i hroom
        exact ⟨nuls + 1, h.appendNul hroom⟩
      · exact ⟨nuls, h⟩
    · rw [if_neg h0]
      have hnone : nuls = 0 := by
        by_contra hne
        exact hk ⟨by omega, hn, h0, fun hback => absurd hback hb⟩
      subst hnone
      rw [Nat.add_zero] at hloc
      rw [← hloc]
      split
      · rename_i hroom
        exact ⟨0, h.append hroom h0⟩
      · exact ⟨0, h⟩

/-- A key that comes while a NUL is last changes the meant line and not the string. -/
theorem Buffered.disturbed (h : Buffered s line nuls) (hk : Disturbed s k) :
    (s.key k.env k.char).2.commandLine ≠ edit line k.char := by
  have hroom := h.room
  have hloc := h.location
  obtain ⟨hnuls, hn, h0, hb⟩ := h.disturbed_iff.mp hk
  obtain ⟨n, rfl⟩ : ∃ n, nuls = n + 1 := ⟨nuls - 1, by omega⟩
  unfold Shell.key edit
  rw [if_neg hn, if_neg hn]
  by_cases hback : k.char = backspace
  · rw [if_pos hback, if_pos hback, if_pos (by omega)]
    rw [h.erase.commandLine]
    intro heq
    have hlen := congrArg List.length heq
    have hpos := List.length_pos_iff.mpr (hb hback)
    rw [List.length_dropLast] at hlen
    omega
  · rw [if_neg hback, if_neg hback, if_neg h0, if_pos (by omega : line.length < cmdBufSize - 1)]
    have hline : (if s.bufLocation < cmdBufSize - 1 then ([Op.putchar k.char],
        Shell.mk (s.commandBuf.set s.bufLocation k.char) (s.bufLocation + 1))
        else ([], s)).2.commandLine = line := by
      split
      · rename_i hfree
        have hsize : cmdBufSize = 256 := rfl
        rw [commandLine_eq (by simp only [List.length_set, h.size]; omega), h.store hfree,
          List.replicate_succ, List.append_assoc, List.append_assoc, List.cons_append]
        exact cString_of_nul h.noNul _
      · exact h.commandLine
    rw [hline]
    intro heq
    simpa using congrArg List.length heq

-- ---------------------------------------------------------------------------
-- Lines
-- ---------------------------------------------------------------------------

theorem Buffered.lines_iff (h : Buffered s line nuls) (keys : List Key) :
    (∀ p, p <+: keys →
      (typed s p).commandLine = p.foldl (fun line k => edit line k.char) line) ↔
      Undisturbed s keys := by
  induction keys generalizing s line nuls with
  | nil =>
    simp only [List.prefix_nil, Undisturbed, iff_true]
    rintro p rfl
    exact h.commandLine
  | cons k keys ih =>
    rw [Undisturbed]
    by_cases hk : Disturbed s k
    · simp only [hk, not_true_eq_false, false_and, iff_false]
      intro hall
      exact h.disturbed hk (hall [k] ⟨keys, rfl⟩)
    · obtain ⟨n, hnext⟩ := h.key hk
      simp only [hk, not_false_eq_true, true_and]
      rw [← ih hnext]
      constructor
      · intro hall p hp
        exact hall (k :: p) (List.cons_prefix_cons.mpr ⟨rfl, hp⟩)
      · intro hall p hp
        cases p with
        | nil => exact h.commandLine
        | cons k' p =>
          obtain ⟨rfl, htail⟩ := List.cons_prefix_cons.mp hp
          exact hall p htail

/-- The string compared at Enter is the line that was typed, whenever Enter comes,
exactly if no key with a character, and no Backspace with a character left to take,
comes while a NUL is the last thing in the buffer. -/
theorem line_typed_iff (keys : List Key) :
    (∀ p, p <+: keys → (typed .fresh p).commandLine = lineOf p) ↔ Undisturbed .fresh keys :=
  buffered_fresh.lines_iff keys

def noEnv : Env := ⟨0, 0, 0, 0, []⟩

/-- `a`, Control, `b`. -/
theorem line_cut_short :
    ¬ (typed .fresh [⟨noEnv, 30⟩, ⟨noEnv, 29⟩, ⟨noEnv, 48⟩]).commandLine =
      lineOf [⟨noEnv, 30⟩, ⟨noEnv, 29⟩, ⟨noEnv, 48⟩] := by
  decide +kernel

end Shigure.Sh
