import Mathlib.Data.Set.Insert
import Shigure.Kb.Runs
import Shigure.Sh.Shell

/-!
# Keys that are pressed while the shell works

The keyboard interrupts the shell between any two of its accesses to the buffer and
between any two of its operations on the terminal. Seen from the terminal, the keys
that were accepted come one after the other.
-/

namespace Shigure.Sh

open Kb Tty

/-- `todo` are the operations on the terminal that come before the next call of
`keyboard_getchar`. -/
structure System where
  kb : KbState
  shell : Shell
  terminal : Terminal
  todo : List Op

def System.irq (scancode : BitVec 8) (s : System) : System :=
  match pressed scancode with
  | some c => { s with kb := s.kb.put c }
  | none => s

/-- The shell goes on by one step; `env` is what a command would read then. -/
def System.advance (env : Env) (s : System) : System :=
  match s.todo with
  | op :: todo => { s with terminal := op.run s.terminal, todo := todo }
  | [] =>
    match s.kb.reader with
    | .update c =>
      let (ops, shell) := s.shell.key env c
      { s with kb := s.kb.readerStep, shell := shell, todo := ops }
    | _ => { s with kb := s.kb.readerStep }

def System.boot (t : Terminal) : System :=
  ⟨.init, .fresh, terminalInitialize { t with accesses := [] }, outputPrompt⟩

inductive Turn
  | irq (scancode : BitVec 8)
  | advance (env : Env)

def Turn.step (s : System) : Turn → Option System
  | .irq scancode => some (s.irq scancode)
  | .advance env => some (s.advance env)

/-- What a command would read in this step is one of `envs`. -/
def Turn.Reads (envs : Set Env) : Turn → Prop
  | .irq _ => True
  | .advance env => env ∈ envs

abbrev SystemRun (envs : Set Env) (t : Terminal) : System → Prop :=
  Reach (fun _ turn => turn.Reads envs) Turn.step (.boot t)

def performed (ops : List Op) (t : Terminal) : Terminal := ops.foldl Op.run t

theorem perform_terminal (ops : List Op) (s : State) :
    (s.perform ops).terminal = performed ops s.terminal := by
  induction ops generalizing s with
  | nil => rfl
  | cons op ops ih => exact ih _

theorem perform_shell (ops : List Op) (s : State) : (s.perform ops).shell = s.shell := by
  induction ops generalizing s with
  | nil => rfl
  | cons op ops ih => exact ih _

theorem run_append (keys keys' : List Key) (s : State) :
    run (keys ++ keys') s = run keys' (run keys s) := List.foldl_append

/-- The shell has taken the keys, up to what is still to be performed. -/
structure Caught (envs : Set Env) (t : Terminal) (s : System) (keys : List Key) : Prop where
  reads : ∀ k ∈ keys, k.env ∈ envs
  returned : keys.map Key.char = s.kb.returned
  shell : s.shell = (run keys (start t)).shell
  screen : performed s.todo s.terminal = (run keys (start t)).terminal
  typed : ∀ c ∈ s.kb.accepted, ∃ scancode : Fin 0x80, kbUs.getD scancode 0 = c

section
variable {envs : Set Env} {t : Terminal} {s u : System} {keys : List Key} {env : Env} {c : BitVec 8} {n : Nat} {op : Op}
  {todo : List Op}

theorem irq_buffer (scancode : BitVec 8) (s : System) :
    (s.irq scancode).kb.buffer = keyboardHandler scancode s.kb.buffer := by
  rw [System.irq, keyboardHandler]
  cases pressed scancode with
  | none => rfl
  | some c => rfl

theorem boot_caught (t : Terminal) : Caught envs t (.boot t) [] where
  reads := fun _ hk => absurd hk List.not_mem_nil
  returned := rfl
  shell := by
    rw [run, List.foldl_nil, start, perform_shell]
    rfl
  screen := by
    rw [run, List.foldl_nil, start, perform_terminal]
    rfl
  typed := fun _ hc => absurd hc List.not_mem_nil

-- ---------------------------------------------------------------------------
-- One step
-- ---------------------------------------------------------------------------

theorem advance_perform (h : s.todo = op :: todo) (env : Env) :
    s.advance env = { s with terminal := op.run s.terminal, todo := todo } := by
  rw [System.advance, h]

theorem advance_wait (h : s.todo = []) (hr : ∀ c, s.kb.reader ≠ .update c) (env : Env) :
    s.advance env = { s with kb := s.kb.readerStep } := by
  rw [System.advance, h]
  cases hr' : s.kb.reader with
  | test => rfl
  | read => rfl
  | update c => exact absurd hr' (hr c)

theorem advance_take (h : s.todo = []) (hr : s.kb.reader = .update c) (env : Env) :
    s.advance env = { s with
      kb := s.kb.readerStep
      shell := (s.shell.key env c).2
      todo := (s.shell.key env c).1 } := by
  rw [System.advance, h, hr]

theorem pressed_scancode {scancode : BitVec 8} (h : pressed scancode = some c) :
    ∃ k : Fin 0x80, kbUs.getD k 0 = c := by
  rw [pressed] at h
  split at h
  · rename_i htop
    have hlow : ∀ x : BitVec 8, x &&& 0x80 = 0 → x.toNat < 0x80 := by decide
    exact ⟨⟨scancode.toNat, hlow scancode htop⟩, Option.some.inj h⟩
  · cases h

/-- A key that comes changes nothing but what is in the buffer. -/
theorem Caught.irq (h : Caught envs t s keys) (scancode : BitVec 8) : Caught envs t (s.irq scancode) keys := by
  rw [System.irq]
  cases hp : pressed scancode with
  | none => exact h
  | some c =>
    refine ⟨h.reads, h.returned, h.shell, h.screen, fun d hd => ?_⟩
    simp only [KbState.put] at hd
    split at hd
    · exact h.typed d hd
    · rcases List.mem_append.mp hd with hd | hd
      · exact h.typed d hd
      · obtain rfl := List.mem_singleton.mp hd
        exact pressed_scancode hp

theorem Caught.wait (h : Caught envs t s keys) (hr : ∀ c, s.kb.reader ≠ .update c) :
    Caught envs t { s with kb := s.kb.readerStep } keys := by
  refine ⟨h.reads, ?_, h.shell, h.screen, ?_⟩
  · show keys.map Key.char = s.kb.readerStep.returned
    rw [h.returned, KbState.readerStep]
    cases hr' : s.kb.reader with
    | test => dsimp only; split <;> rfl
    | read => rfl
    | update c => exact absurd hr' (hr c)
  · show ∀ c ∈ s.kb.readerStep.accepted, _
    rw [readerStep_accepted]
    exact h.typed

theorem Caught.take (h : Caught envs t s keys) (htodo : s.todo = []) (hr : s.kb.reader = .update c)
    {k : Key}
    (hk : k.char = c) (henv : k.env ∈ envs) :
    Caught envs t { s with
      kb := s.kb.readerStep
      shell := (s.shell.key k.env c).2
      todo := (s.shell.key k.env c).1 } (keys ++ [k]) := by
  have hscreen : s.terminal = (run keys (start t)).terminal := by
    have := h.screen
    rwa [htodo] at this
  have hlast : run (keys ++ [k]) (start t) = (run keys (start t)).key k := run_append keys [k] _
  refine ⟨?_, ?_, ?_, ?_, ?_⟩
  · intro key hkey
    rcases List.mem_append.mp hkey with hkey | hkey
    · exact h.reads key hkey
    · obtain rfl := List.mem_singleton.mp hkey
      exact henv
  · show (keys ++ [k]).map Key.char = s.kb.readerStep.returned
    rw [List.map_append, h.returned, KbState.readerStep, hr, List.map_singleton, hk]
  · rw [hlast, State.key, ← h.shell, hk]
  · show performed _ s.terminal = _
    rw [hlast, State.key, ← h.shell, hk, hscreen]
    exact (perform_terminal _ _).symm
  · show ∀ c ∈ s.kb.readerStep.accepted, _
    rw [readerStep_accepted]
    exact h.typed

theorem in_hand_accepted (h : s.kb.Holds n) (hr : s.kb.reader = .update c) :
    c ∈ s.kb.accepted := by
  have hready := h.ready
  rw [hr] at hready
  obtain ⟨hpos, rfl⟩ := hready
  obtain ⟨m, rfl⟩ : ∃ m, n = m + 1 := ⟨n - 1, by omega⟩
  rw [h.queue, KbState.pending, window_pop h.start]
  exact List.mem_append_right _ List.mem_cons_self

theorem Caught.key (h : Caught envs t s keys) (hn : s.kb.Holds n) (hr : s.kb.reader = .update c)
    (env : Env) : ∃ k : Key, k.env = env ∧ k.char = c := by
  obtain ⟨scancode, hc⟩ := h.typed c (in_hand_accepted hn hr)
  exact ⟨⟨env, scancode⟩, rfl, hc⟩

/-- A step of the shell takes at most one key. -/
theorem Caught.advance (h : Caught envs t s keys) (hn : s.kb.Holds n) (henv : env ∈ envs) :
    ∃ keys', Caught envs t (s.advance env) keys' := by
  cases htodo : s.todo with
  | cons op todo =>
    have hscreen := h.screen
    rw [htodo] at hscreen
    rw [advance_perform htodo]
    exact ⟨keys, h.reads, h.returned, h.shell, hscreen, h.typed⟩
  | nil =>
    by_cases hr : ∀ c, s.kb.reader ≠ .update c
    · rw [advance_wait htodo hr]
      exact ⟨keys, h.wait hr⟩
    · push Not at hr
      obtain ⟨c, hr⟩ := hr
      obtain ⟨k, rfl, hk⟩ := h.key hn hr env
      rw [advance_take htodo hr]
      exact ⟨keys ++ [k], h.take htodo hr hk henv⟩

-- ---------------------------------------------------------------------------
-- Runs
-- ---------------------------------------------------------------------------

theorem advance_kb (s : System) (env : Env) :
    (s.advance env).kb = s.kb ∨ (s.advance env).kb = s.kb.readerStep := by
  rw [System.advance]
  split
  · exact .inl rfl
  · split <;> exact .inr rfl

theorem advance_accepted (s : System) (env : Env) :
    (s.advance env).kb.accepted = s.kb.accepted := by
  rcases advance_kb s env with he | he
  · rw [he]
  · rw [he, readerStep_accepted]

theorem irq_kb (s : System) (scancode : BitVec 8) :
    (s.irq scancode).kb = s.kb ∨ ∃ c, (s.irq scancode).kb = s.kb.put c := by
  rw [System.irq]
  cases pressed scancode with
  | none => exact .inl rfl
  | some c => exact .inr ⟨c, rfl⟩

theorem holds_turn (h : s.kb.Holds n) {turn : Turn} (hs : turn.step s = some u) :
    ∃ m, u.kb.Holds m := by
  cases turn with
  | irq scancode =>
    obtain rfl := Option.some.inj hs
    rcases irq_kb s scancode with he | ⟨c, he⟩
    · exact ⟨n, he ▸ h⟩
    · rw [he]
      exact h.step (e := .put c) rfl
  | advance env =>
    obtain rfl := Option.some.inj hs
    rcases advance_kb s env with he | he
    · exact ⟨n, he ▸ h⟩
    · rw [he]
      exact h.readerStep

theorem caught_of_run (h : SystemRun envs t s) : (∃ n, s.kb.Holds n) ∧ ∃ keys, Caught envs t s keys := by
  refine h.invariant (fun s => (∃ n, s.kb.Holds n) ∧ ∃ keys, Caught envs t s keys)
    ⟨⟨0, init_holds⟩, [], boot_caught t⟩ ?_
  rintro s turn u ⟨⟨n, hn⟩, keys, hk⟩ hreads hs
  refine ⟨holds_turn hn hs, ?_⟩
  cases turn with
  | irq scancode =>
    obtain rfl := Option.some.inj hs
    exact ⟨keys, hk.irq scancode⟩
  | advance env =>
    obtain rfl := Option.some.inj hs
    exact hk.advance hn hreads

-- ---------------------------------------------------------------------------
-- The shell left alone
-- ---------------------------------------------------------------------------

theorem advance_flush (s : System) (env : Env) :
    (System.advance env)^[s.todo.length] s =
      { s with terminal := performed s.todo s.terminal, todo := [] } := by
  obtain ⟨todo, htodo⟩ : ∃ todo, s.todo = todo := ⟨_, rfl⟩
  induction todo generalizing s with
  | nil =>
    rw [htodo]
    obtain ⟨kb, shell, terminal, ops⟩ := s
    obtain rfl : ops = [] := htodo
    rfl
  | cons op todo ih =>
    have h := ih { s with terminal := op.run s.terminal, todo := todo } rfl
    rw [htodo, List.length_cons, Function.iterate_succ_apply, advance_perform htodo]
    exact h

def Took (envs : Set Env) (t : Terminal) (env : Env) (keys : List Key) (n : Nat) (accepted : List (BitVec 8))
    (s : System) : Prop :=
  ∃ key : Key, key.env = env ∧ Caught envs t s (keys ++ [key]) ∧ s.kb.Holds n ∧ s.kb.accepted = accepted

theorem Caught.takeUpdate (h : Caught envs t s keys) (htodo : s.todo = []) (hn : s.kb.Holds (n + 1))
    (hr : s.kb.reader = .update c) (henv : env ∈ envs) :
    Took envs t env keys n s.kb.accepted (s.advance env) := by
  obtain ⟨key, rfl, hc⟩ := h.key hn hr env
  obtain ⟨m, hm, hnext⟩ := hn.update hr
  obtain rfl : n = m := by omega
  rw [advance_take htodo hr]
  exact ⟨key, rfl, h.take htodo hr hc henv, hnext, readerStep_accepted s.kb⟩

theorem Caught.takeRead (h : Caught envs t s keys) (htodo : s.todo = []) (hn : s.kb.Holds (n + 1))
    (hr : s.kb.reader = .read) (henv : env ∈ envs) :
    Took envs t env keys n s.kb.accepted ((System.advance env)^[2] s) := by
  have hne : ∀ c, s.kb.reader ≠ .update c := by simp [hr]
  obtain ⟨hnext, c, hc⟩ := hn.read hr
  have htook := (h.wait hne).takeUpdate htodo hnext hc henv
  rw [← advance_wait htodo hne env, advance_accepted] at htook
  exact htook

theorem Caught.takeNext (h : Caught envs t s keys) (htodo : s.todo = []) (hn : s.kb.Holds (n + 1))
    (henv : env ∈ envs) : ∃ k, Took envs t env keys n s.kb.accepted ((System.advance env)^[k] s) := by
  cases hr : s.kb.reader with
  | test =>
    have hne : ∀ c, s.kb.reader ≠ .update c := by simp [hr]
    obtain ⟨hnext, hread⟩ := hn.test hr
    have htook := (h.wait hne).takeRead htodo hnext (hread (Nat.succ_pos n)) henv
    rw [← advance_wait htodo hne env, advance_accepted] at htook
    exact ⟨3, htook⟩
  | read => exact ⟨2, h.takeRead htodo hn hr henv⟩
  | update c => exact ⟨1, h.takeUpdate htodo hn hr henv⟩

theorem Caught.drain (h : Caught envs t s keys) (hn : s.kb.Holds n) (henv : env ∈ envs) :
    ∃ k pending, pending.length = n ∧ (∀ key ∈ pending, Key.env key = env) ∧
      Caught envs t ((System.advance env)^[k] s) (keys ++ pending) ∧
      ((System.advance env)^[k] s).todo = [] ∧
      ((System.advance env)^[k] s).kb.Holds 0 ∧
      ((System.advance env)^[k] s).kb.accepted = s.kb.accepted := by
  induction n generalizing s keys with
  | zero =>
    have hflush := advance_flush s env
    refine ⟨s.todo.length, [], rfl, by simp, ?_⟩
    rw [hflush, List.append_nil]
    exact ⟨⟨h.reads, h.returned, h.shell, h.screen, h.typed⟩, rfl, hn, rfl⟩
  | succ n ih =>
    have hflush := advance_flush s env
    have hidle : Caught envs t { s with terminal := performed s.todo s.terminal, todo := [] } keys :=
      ⟨h.reads, h.returned, h.shell, h.screen, h.typed⟩
    obtain ⟨j, key, hkeyenv, hkey, hnext, haccepted⟩ := hidle.takeNext rfl hn henv
    change _ = s.kb.accepted at haccepted
    rw [← hflush, ← Function.iterate_add_apply] at hkey hnext haccepted
    obtain ⟨k, pending, hlen, hpending, hall, htodo, hempty, hsame⟩ := ih hkey hnext
    rw [← Function.iterate_add_apply] at hall htodo hempty hsame
    refine ⟨k + (j + s.todo.length), key :: pending, by rw [List.length_cons, hlen], ?_, ?_, htodo,
      hempty, hsame.trans haccepted⟩
    · simpa [hkeyenv] using hpending
    · rwa [List.append_assoc, List.singleton_append] at hall

/-- However the interrupts come, the shell is where the keys that it has taken lead to if
they are pressed one after the other, and left alone it comes to where all the keys that were
accepted lead to. -/
theorem keys_typed_ahead (h : SystemRun envs t s) (henv : env ∈ envs) : ∃ keys pending : List Key,
    s.kb.accepted = (keys ++ pending).map Key.char ∧ pending.length < keyboardBufferSize ∧
    (∀ key ∈ keys, key.env ∈ envs) ∧ (∀ key ∈ pending, key.env = env) ∧
    s.shell = (run keys (start t)).shell ∧
    performed s.todo s.terminal = (run keys (start t)).terminal ∧
    ∃ k, ((System.advance env)^[k] s).todo = [] ∧
      ((System.advance env)^[k] s).terminal = (run (keys ++ pending) (start t)).terminal ∧
      ((System.advance env)^[k] s).shell = (run (keys ++ pending) (start t)).shell := by
  obtain ⟨⟨n, hn⟩, keys, hk⟩ := caught_of_run h
  obtain ⟨k, pending, hlen, hpending, hall, htodo, hempty, haccepted⟩ := hk.drain hn henv
  have hreturned := hall.returned
  have hqueue := hempty.queue
  have hscreen := hall.screen
  rw [KbState.pending, window_zero, List.append_nil, ← hreturned, haccepted] at hqueue
  rw [htodo] at hscreen
  exact ⟨keys, pending, hqueue, hlen ▸ hn.room, hk.reads, hpending, hk.shell, hk.screen, k, htodo,
    hscreen, hall.shell⟩

/-- A key before the first prompt, and one between two of its characters. -/
theorem keys_typed_ahead_two : ∃ (t : Terminal) (env : Env) (keys : List Key),
    keys.map Key.char = [97, 98] ∧ ∃ k,
      ((System.advance env)^[k] ((((System.boot t).irq 30).advance env).irq 48)).terminal =
        (run keys (start t)).terminal := by
  obtain ⟨t, -⟩ : ∃ t : Terminal, t = ⟨0, 0, 0, fun _ => 0, 0, [], []⟩ := ⟨_, rfl⟩
  obtain ⟨env, -⟩ : ∃ env : Env, env = ⟨0, 0, 0, 0, []⟩ := ⟨_, rfl⟩
  have hrun : SystemRun {env} t ((((System.boot t).irq 30).advance env).irq 48) :=
    .tail (.tail (.tail .refl (i := .irq 30) trivial rfl) (i := .advance env) (Set.mem_singleton _) rfl)
      (i := .irq 48) trivial rfl
  obtain ⟨keys, pending, haccepted, -, -, -, -, -, k, -, hscreen, -⟩ :=
    keys_typed_ahead hrun (Set.mem_singleton _)
  have hprompt : ((System.boot t).irq 30).todo = .putchar newline :: print (Libc.text "$ ") := by
    show print (Libc.printed "\n$ " []) = _
    decide
  have hkb : ((((System.boot t).irq 30).advance env).irq 48).kb.accepted = [97, 98] := by
    rw [advance_perform hprompt]
    rfl
  exact ⟨t, env, keys ++ pending, (haccepted.symm.trans hkb), k, hscreen⟩

end

end Shigure.Sh
