import Shigure.Kb.Buffer
import Shigure.Libc.Printf
import Shigure.Tty.Terminal

/-!
# The shell

`sh.c`. The shell is a machine that takes one key at a time, and what it does to the terminal is a list of operations. `Env` is what
the commands read elsewhere in the kernel. Nothing goes to the history: `buf_location`
is 0 again when it is looked at.
-/

namespace Shigure.Sh

open Tty Libc
open Kb (kbUs)

def cmdBufSize : Nat := 256

def backspace : BitVec 8 := 0x08

-- ---------------------------------------------------------------------------
-- Operations on the terminal
-- ---------------------------------------------------------------------------

inductive Op where
  | putchar (c : BitVec 8)
  | back (dx : Int)
  | movecursor
  | setup
  | setcolor (color : BitVec 8)
  deriving DecidableEq

def Op.run (t : Terminal) : Op → Terminal
  | .putchar c => terminalPutchar c t
  | .back dx => terminalBack dx t
  | .movecursor => terminalMovecursor t
  | .setup => terminalInitialize t
  | .setcolor color => terminalSetcolor color t

def print (data : List (BitVec 8)) : List Op := data.map .putchar

def backspaceOps : List Op := [.back 1, .putchar space, .back 1, .movecursor]

-- ---------------------------------------------------------------------------
-- Commands
-- ---------------------------------------------------------------------------

/-- What the commands print; `version` is what `version.txt` was read to. -/
structure Env where
  secondsPassed : BitVec 32
  pmStart : BitVec 32
  pmAmount : BitVec 32
  pid : BitVec 32
  version : List (BitVec 8)

inductive Command where
  | clear
  | uptime
  | mem
  | version
  | getpid
  | logo
  | unknown
  deriving DecidableEq

def commands : List (String × Command) :=
  [("clear", .clear), ("uptime", .uptime), ("mem", .mem), ("version", .version),
    ("getpid", .getpid), ("logo", .logo)]

/-- The first command with the name, or the default handler. -/
def findCommand (buf : List (BitVec 8)) : Command :=
  ((commands.find? fun x => strcmp (text x.1) buf = 0).map Prod.snd).getD .unknown

def logo : List (VgaColor × String) :=
  [(.red, "MP\"\"\"\"\"\"`MMdP      oo                          \n"),
    (.brown, "M  mmmmm..M88                                        \n"),
    (.lightBrown, "M.      `YM88d888b.dP.d8888b.dP    dP88d888b..d8888b.\n"),
    (.green, "MMMMMMM.  M88'  `888888'  `8888    8888'  `8888ooood8\n"),
    (.cyan, "M. .MMM'  M88    888888.  .8888.  .8888      88.  ...\n"),
    (.blue, "Mb.     .dMdP    dPdP`8888P88`88888P'dP      `88888P'\n"),
    (.magenta, "MMMMMMMMMMM               .88                        \n"),
    (.lightMagenta, "                      d8888P                         \n"),
    (.lightGrey, "Welcome to Shigure OS!\n")]

def commandOps (env : Env) (buf : List (BitVec 8)) : Command → List Op
  | .clear => [.setup]
  | .uptime => print (printed "Uptime: %d sec\n" [.int env.secondsPassed])
  | .mem =>
    print (printed "Memory start address : %x\n" [.int env.pmStart]) ++
      print (printed "Memory avail amount  : %x\n" [.int env.pmAmount])
  | .version =>
    print (printed "OS version : Shigure OS %s\n" [.str env.version]) ++
      print (printed "Developed by reina314\n" [])
  | .getpid => print (printed "PID : %d\n" [.int env.pid])
  | .logo => logo.flatMap fun line => .setcolor line.1.code :: print (text line.2)
  | .unknown => print (printed "Command not found: %s\n" [.str buf])

def processCommand (env : Env) (buf : List (BitVec 8)) : List Op := commandOps env buf (findCommand buf)

-- ---------------------------------------------------------------------------
-- The loop
-- ---------------------------------------------------------------------------

structure Shell where
  commandBuf : List (BitVec 8)
  bufLocation : Nat

def outputPrompt : List Op := print (printed "\n$ " [])

/-- At the start of `wait_for_command`. -/
def Shell.fresh : Shell := ⟨List.replicate cmdBufSize 0, 0⟩

/-- What happens when `keyboard_getchar` returns, up to its next call. -/
def Shell.key (env : Env) (c : BitVec 8) (s : Shell) : List Op × Shell :=
  if c = newline then
    let buf := s.commandBuf.set s.bufLocation 0
    ([.putchar newline] ++ processCommand env buf ++ outputPrompt, .fresh)
  else if c = backspace then
    if 0 < s.bufLocation then (backspaceOps, { s with bufLocation := s.bufLocation - 1 })
    else ([], s)
  else if s.bufLocation < cmdBufSize - 1 then
    ([.putchar c], ⟨s.commandBuf.set s.bufLocation c, s.bufLocation + 1⟩)
  else ([], s)

/-- `trail` is not in the program: it is the terminal before each of the operations so
far. -/
structure State where
  terminal : Terminal
  shell : Shell
  trail : List Terminal

def State.perform (ops : List Op) (s : State) : State :=
  ops.foldl (fun s op => { s with terminal := op.run s.terminal, trail := s.terminal :: s.trail }) s

/-- `shell_initialize` up to the first key, on a terminal that has just been set up. -/
def start (t : Terminal) : State :=
  State.perform outputPrompt ⟨terminalInitialize { t with accesses := [] }, .fresh, []⟩

structure Key where
  env : Env
  scancode : Fin 0x80

def Key.char (k : Key) : BitVec 8 := kbUs.getD k.scancode 0

def State.key (s : State) (k : Key) : State :=
  let (ops, shell) := s.shell.key k.env k.char
  { s.perform ops with shell := shell }

def run (keys : List Key) (s : State) : State := keys.foldl State.key s

end Shigure.Sh
