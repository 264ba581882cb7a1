import Shigure.Lib.Stride

/-!
# The terminal

`tty.c`. The buffer is indexed as the source does it, and the coordinates wrap like a
`size_t`. `cursor` is what the VGA controller was told last and `serial` what went out
on COM1. `accesses` is not in the program: it collects the indices into
`terminal_buffer`.
-/

namespace Shigure.Tty

def vgaWidth : Nat := 80

def vgaHeight : Nat := 25

structure Terminal where
  terminalX : Nat
  terminalY : Nat
  terminalColor : BitVec 8
  terminalBuffer : Nat → BitVec 16
  cursor : Nat
  serial : List (BitVec 8)
  accesses : List Nat

/-- `enum vga_color`, as far as it is used. -/
inductive VgaColor where
  | black
  | blue
  | green
  | cyan
  | red
  | magenta
  | brown
  | lightGrey
  | lightMagenta
  | lightBrown

def VgaColor.code : VgaColor → BitVec 8
  | .black => 0
  | .blue => 1
  | .green => 2
  | .cyan => 3
  | .red => 4
  | .magenta => 5
  | .brown => 6
  | .lightGrey => 7
  | .lightMagenta => 13
  | .lightBrown => 14

def vgaEntryColor (fg bg : VgaColor) : BitVec 8 := fg.code ||| bg.code <<< 4

def vgaEntry (uc color : BitVec 8) : BitVec 16 := uc.setWidth 16 ||| color.setWidth 16 <<< 8

def space : BitVec 8 := 0x20

def newline : BitVec 8 := 0x0A

namespace Terminal

def put (t : Terminal) (index : Nat) (entry : BitVec 16) : Terminal :=
  { t with
    terminalBuffer := fun i => if i = index then entry else t.terminalBuffer i
    accesses := index :: t.accesses }

def copy (t : Terminal) (dst src : Nat) : Terminal :=
  { t with accesses := src :: t.accesses }.put dst (t.terminalBuffer src)

end Terminal

def terminalMovecursor (t : Terminal) : Terminal :=
  { t with cursor := (t.terminalX + t.terminalY * vgaWidth) % 2 ^ 16 }

def blankAt (index : Nat) (t : Terminal) : Terminal := t.put index (vgaEntry space t.terminalColor)

def terminalInitialize (t : Terminal) : Terminal :=
  let t := { t with
    terminalX := 0
    terminalY := 0
    terminalColor := vgaEntryColor .lightGrey .black }
  let t := forIndex (fun y => forIndex (fun x => blankAt (y * vgaWidth + x)) vgaWidth 0) vgaHeight 0 t
  terminalMovecursor t

def terminalClearscreen (t : Terminal) : Terminal := terminalInitialize t

def terminalSetcolor (color : BitVec 8) (t : Terminal) : Terminal := { t with terminalColor := color }

def terminalPutentryat (c color : BitVec 8) (x y : Nat) (t : Terminal) : Terminal :=
  t.put ((y * vgaWidth + x) % wordSize) (vgaEntry c color)

def terminalDeleteLastLine (t : Terminal) : Terminal := forIndex blankAt vgaWidth ((vgaHeight - 1) * vgaWidth) t

/-- Line 0 is not scrolled. -/
def terminalScroll (line : Nat) (t : Terminal) : Terminal :=
  forIndex (fun index t => t.copy (index - vgaWidth) index) vgaWidth (line * vgaWidth) t

/-- The `switch` of `terminal_putchar`. -/
def placeChar (uc : BitVec 8) (t : Terminal) : Terminal :=
  if uc = newline then { t with terminalX := 0, terminalY := add32 t.terminalY 1 }
  else if uc = 0 then t
  else
    let t := terminalPutentryat uc t.terminalColor t.terminalX t.terminalY t
    { t with terminalX := add32 t.terminalX 1 }

def wrapLine (t : Terminal) : Terminal :=
  if t.terminalX = vgaWidth then { t with terminalX := 0, terminalY := add32 t.terminalY 1 } else t

def scrollScreen (t : Terminal) : Terminal :=
  if t.terminalY = vgaHeight then
    let t := forIndex terminalScroll (vgaHeight - 1) 1 t
    { terminalDeleteLastLine t with terminalX := 0, terminalY := vgaHeight - 1 }
  else t

def serialWrite (c : BitVec 8) (t : Terminal) : Terminal := { t with serial := t.serial ++ [c] }

def terminalPutchar (c : BitVec 8) (t : Terminal) : Terminal :=
  serialWrite c (terminalMovecursor (scrollScreen (wrapLine (placeChar c t))))

def terminalNewline (t : Terminal) : Terminal := terminalPutchar newline t

def terminalWrite (data : List (BitVec 8)) (t : Terminal) : Terminal := data.foldl (fun t c => terminalPutchar c t) t

/-- To the previous row if necessary. -/
def terminalBack (dx : Int) (t : Terminal) : Terminal :=
  if intOfWord t.terminalX - dx < 0 then
    { t with
      terminalY := sub32 t.terminalY 1
      terminalX := sub32 vgaWidth (sub32 (wordOfInt dx) t.terminalX) }
  else { t with terminalX := sub32 t.terminalX (wordOfInt dx) }

def terminalBackspace (t : Terminal) : Terminal :=
  terminalMovecursor (terminalBack 1 (terminalPutchar space (terminalBack 1 t)))

end Shigure.Tty
