import Shigure.Isr.Irq
import Shigure.Lib.Reach

/-!
# The interrupt controllers

`irq_remap` and the port writes of `irq_handler`, on the two controllers that they go
to. A request is over for the controllers before its routine is called, so that it does
not matter whether the routine comes back: `switch_proc` may not.
-/

namespace Shigure.Isr

-- ---------------------------------------------------------------------------
-- A controller
-- ---------------------------------------------------------------------------

/-- The initialization words that come on the data port. -/
inductive Icw
  | base
  | cascade
  | mode
  deriving DecidableEq

/-- Fully nested and edge triggered. `requested` are the lines that ask for an interrupt. -/
structure Pic where
  base : BitVec 8
  cascade : BitVec 8
  mode : BitVec 8
  mask : BitVec 8
  requested : Fin 8 → Bool
  inService : BitVec 8
  expects : List Icw

/-- The command port: a first initialization word, or an end of interrupt for the line of
the highest priority that is in service. -/
def Pic.command (v : BitVec 8) (p : Pic) : Pic :=
  if v.getLsbD 4 then
    { p with
      cascade := if v.getLsbD 1 then 0 else p.cascade
      mode := if v.getLsbD 0 then p.mode else 0
      mask := 0
      requested := fun _ => false
      inService := 0
      expects := .base :: ((if v.getLsbD 1 then [] else [.cascade]) ++
        (if v.getLsbD 0 then [.mode] else [])) }
  else if v &&& 0xF8 = 0x20 then { p with inService := p.inService &&& (p.inService - 1) }
  else p

/-- The data port: the next initialization word, or the mask. -/
def Pic.data (v : BitVec 8) (p : Pic) : Pic :=
  match p.expects with
  | .base :: expects => { p with base := v &&& 0xF8, expects := expects }
  | .cascade :: expects => { p with cascade := v, expects := expects }
  | .mode :: expects => { p with mode := v, expects := expects }
  | [] => { p with mask := v }

/-- No request of the line is held up. -/
def Pic.Open (p : Pic) (i : Fin 8) : Prop :=
  p.expects = [] ∧ p.mask.getLsbD i = false ∧ ∀ j ≤ i, p.inService.getLsbD j = false

instance (p : Pic) (i : Fin 8) : Decidable (p.Open i) :=
  inferInstanceAs (Decidable (_ ∧ _ ∧ ∀ j ≤ i, _))

def Pic.next (lines : Fin 8 → Bool) (p : Pic) : Option (Fin 8) :=
  (List.finRange 8).find? fun i => lines i && p.Open i

def Pic.raise (i : Fin 8) (p : Pic) : Pic :=
  { p with requested := fun j => j = i || p.requested j }

/-- With an automatic end of interrupt nothing is in service. -/
def Pic.serve (i : Fin 8) (p : Pic) : Pic :=
  { p with
    requested := fun j => j ≠ i && p.requested j
    inService := if p.mode.getLsbD 1 then p.inService else p.inService ||| BitVec.twoPow 8 i }

/-- In the mode of the older processors a call comes instead. -/
def Pic.vector (i : Fin 8) (p : Pic) : Option (BitVec 8) :=
  if p.mode.getLsbD 0 then some (p.base ||| BitVec.ofNat 8 i) else none

-- ---------------------------------------------------------------------------
-- The two of them
-- ---------------------------------------------------------------------------

structure Pics where
  master : Pic
  slave : Pic

def Pics.outb (p : Pics) (w : PortWrite) : Pics :=
  if w.port = 0x20 then { p with master := p.master.command w.value }
  else if w.port = 0x21 then { p with master := p.master.data w.value }
  else if w.port = 0xA0 then { p with slave := p.slave.command w.value }
  else if w.port = 0xA1 then { p with slave := p.slave.data w.value }
  else p

/-- The line of the master that the slave is wired to; nothing else is. -/
def cascadeLine : Fin 8 := 2

def Pics.raise (n : Line) (p : Pics) : Pics :=
  if h : n.val < 8 then { p with master := p.master.raise ⟨n, h⟩ }
  else { p with slave := p.slave.raise ⟨n - 8, by omega⟩ }

def Pics.lines (p : Pics) (i : Fin 8) : Bool :=
  if i = cascadeLine then (p.slave.next p.slave.requested).isSome else p.master.requested i

/-- The processor asks for the vector of a request. For a line that the master takes for that
of a slave, the slave answers that has been given its number. -/
def Pics.acknowledge (p : Pics) : Option (BitVec 8 × Pics) := do
  let i ← p.master.next p.lines
  if p.master.cascade.getLsbD i then
    if i = cascadeLine ∧ p.slave.cascade &&& 7 = BitVec.ofNat 8 i then
      let j ← p.slave.next p.slave.requested
      let vector ← p.slave.vector j
      some (vector, ⟨p.master.serve i, p.slave.serve j⟩)
    else none
  else
    let vector ← p.master.vector i
    some (vector, { p with master := p.master.serve i })

-- ---------------------------------------------------------------------------
-- Interrupts
-- ---------------------------------------------------------------------------

/-- `enabled` is the interrupt flag. `taken` is not in the program: the vectors so far. -/
structure Interrupts where
  pics : Pics
  enabled : Bool
  taken : List (BitVec 8)

/-- The flag is changed by `cli` and `sti`, and by the `iret` of a routine that comes back. -/
inductive Event
  | request (n : Line)
  | interrupt
  | setFlag (enabled : Bool)

/-- An interrupt goes up to the call of its routine; `irq_handler` finds the vector in its
frame. An interrupt gate clears the flag. -/
def Interrupts.step (idt : Idt) (q : Interrupts) : Event → Option Interrupts
  | .request n => if n.val = cascadeLine then none else some { q with pics := q.pics.raise n }
  | .interrupt =>
    if q.enabled then do
      let (vector, pics) ← q.pics.acknowledge
      some
        { pics := (endOfInterrupt (vector.setWidth 32)).foldl Pics.outb pics
          enabled := (gateOf (idt vector).bits).type ≠ 0x0E
          taken := q.taken ++ [vector] }
    else none
  | .setFlag enabled => some { q with enabled := enabled }

-- ---------------------------------------------------------------------------
-- What they are for
-- ---------------------------------------------------------------------------

structure Waiting where
  lines : Line → Bool
  enabled : Bool
  taken : List Line

def Waiting.none : Waiting := ⟨fun _ => false, false, []⟩

/-- The lines of the slave come where it is wired to the master. -/
def priority : List Line := [0, 1, 8, 9, 10, 11, 12, 13, 14, 15, 3, 4, 5, 6, 7]

def Waiting.take (n : Line) (w : Waiting) : Waiting :=
  ⟨fun k => k ≠ n && w.lines k, false, w.taken ++ [n]⟩

def Waiting.step (w : Waiting) : Event → Option Waiting
  | .request n =>
    if n.val = cascadeLine then .none else some { w with lines := fun k => k = n || w.lines k }
  | .interrupt => if w.enabled then (priority.find? w.lines).map fun n => w.take n else .none
  | .setFlag enabled => some { w with enabled := enabled }

/-- The keyboard is behind the timer, and before the clock. -/
example : ([.request 8, .request 1, .request 0, .setFlag true, .interrupt, .setFlag true,
    .interrupt].foldlM Waiting.step .none).map Waiting.taken = some [0, 1] := by decide

def Line.ofMaster (i : Fin 8) : Line := ⟨i, by omega⟩

def Line.ofSlave (i : Fin 8) : Line := ⟨i + 8, by omega⟩

def Waiting.pics (w : Waiting) : Pics where
  master := ⟨0x20, 0x04, 0x01, 0, fun i => i ≠ cascadeLine && w.lines (.ofMaster i), 0, []⟩
  slave := ⟨0x28, 0x02, 0x01, 0, fun i => w.lines (.ofSlave i), 0, []⟩

section
variable {p : Pic} {w : Waiting} {lines : Fin 8 → Bool} {i j : Fin 8} {n : Line}

@[simp] theorem ofMaster_inj : Line.ofMaster i = Line.ofMaster j ↔ i = j := by
  simp only [Line.ofMaster, Fin.ext_iff]

@[simp] theorem ofSlave_inj : Line.ofSlave i = Line.ofSlave j ↔ i = j := by
  simp only [Line.ofSlave, Fin.ext_iff, Nat.add_right_cancel_iff]

/-- The line that a request of the master stands for. -/
def Waiting.source (w : Waiting) (i : Fin 8) : Option Line :=
  if i = cascadeLine then ((List.finRange 8).find? w.pics.slave.requested).map .ofSlave
  else some (.ofMaster i)

def Line.behind (i : Fin 8) : List Line :=
  if i = cascadeLine then (List.finRange 8).map .ofSlave else [.ofMaster i]

end

end Shigure.Isr
