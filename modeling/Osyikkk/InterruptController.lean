import Osyikkk.ReadLineProofs
import Osyikkk.PartialRun

/-!
# The interrupt controllers and the keyboard's line

Two 8259 controllers in cascade, as `pic_remap` and `activate_keyboard_interrupt` program
them and `pic_ack` acknowledges: edge triggered, fully nested, with masks. A line that goes
up is latched; the processor takes the first latched line that is not masked and has no
line before it in service, and the end of an interrupt is told by a command.

The keyboard's controller holds one byte. It takes the next one, and raises its line, only
after the byte is read from its data port, and `keyboard_isr` reads it only while the input
is on.
-/

namespace OsyConsole

/-! ## An 8259 -/

/-- Which word of the initialization the data port expects. -/
inductive InitStep where
  | icw2
  | icw3
  | icw4
  | done
  deriving DecidableEq

structure Pic where
  /-- the latched lines -/
  irr : ℕ → Bool
  /-- the lines in service -/
  isr : ℕ → Bool
  imr : UInt8
  vectorBase : UInt8
  cascade : UInt8
  mode : UInt8
  step : InitStep

abbrev icw1 : UInt8 := 0x10 ||| 0x01
abbrev icw4_8086 : UInt8 := 0x01
abbrev picAckCommand : UInt8 := 0x20
abbrev picDisableAllMask : UInt8 := 0xFF
abbrev pic1Offset : UInt8 := 0x20
abbrev pic2Offset : UInt8 := 0x28
abbrev irqKeyboard : ℕ := 1
abbrev irqCascade : ℕ := 2

def Pic.masked (p : Pic) (line : ℕ) : Bool := p.imr.toNat.testBit line

/-- The line an 8259 asks the processor to serve. -/
def Pic.request (p : Pic) : Option ℕ :=
  ((List.range 8).find? fun i => p.irr i && !p.masked i).filter fun i =>
    (List.range (i + 1)).all fun j => !p.isr j

/-- The processor takes a line. -/
def Pic.take (p : Pic) (line : ℕ) : Pic :=
  { p with
    irr := Function.update p.irr line false
    isr := Function.update p.isr line true }

/-- The end of the first line in service. -/
def Pic.endOfInterrupt (p : Pic) : Pic :=
  match (List.range 8).find? p.isr with
  | some i => { p with isr := Function.update p.isr i false }
  | none => p

/-- A command: the first word of an initialization, or the end of an interrupt. -/
def Pic.outCommand (p : Pic) (data : UInt8) : Option Pic :=
  if data = icw1 then
    some { p with
      irr := fun _ => false
      isr := fun _ => false
      imr := 0
      step := .icw2 }
  else if data = picAckCommand then some p.endOfInterrupt
  else none

def Pic.outData (p : Pic) (data : UInt8) : Pic :=
  match p.step with
  | .icw2 => { p with vectorBase := data &&& 0xF8, step := .icw3 }
  | .icw3 => { p with cascade := data, step := .icw4 }
  | .icw4 => { p with mode := data, step := .done }
  | .done => { p with imr := data }

/-! ## Two of them -/

structure Pics where
  master : Pic
  slave : Pic

def Pics.out (p : Pics) (port : UInt16) (data : UInt8) : Option Pics :=
  if port = 0x20 then (p.master.outCommand data).map fun m => { p with master := m }
  else if port = 0x21 then some { p with master := p.master.outData data }
  else if port = 0xA0 then (p.slave.outCommand data).map fun m => { p with slave := m }
  else if port = 0xA1 then some { p with slave := p.slave.outData data }
  else if port = 0x80 then some p
  else none

/-- A line of the sixteen goes up. The slave's request is the master's line 2. -/
def Pics.raise (p : Pics) (line : ℕ) : Pics :=
  if line < 8 then
    { p with master := { p.master with irr := Function.update p.master.irr line true } }
  else
    let slave := { p.slave with irr := Function.update p.slave.irr (line - 8) true }
    if slave.request.isSome then
      { master := { p.master with irr := Function.update p.master.irr irqCascade true }
        slave := slave }
    else { p with slave := slave }

/-- The processor takes an interrupt: its vector, and the controllers afterwards. A slave
    that has nothing left to ask for gives its last vector. -/
def Pics.interrupt (p : Pics) : Option (UInt8 × Pics) :=
  p.master.request.map fun i =>
    if i = irqCascade then
      match p.slave.request with
      | some j =>
          (p.slave.vectorBase + UInt8.ofNat j,
            { master := p.master.take i, slave := p.slave.take j })
      | none => (p.slave.vectorBase + 7, { p with master := p.master.take i })
    else (p.master.vectorBase + UInt8.ofNat i, { p with master := p.master.take i })

/-! ## `interrupt.c` -/

def ioWait (p : Pics) : Option Pics := p.out 0x80 0

/-- `pic_remap`. The masks are read first and put back at the end. -/
def picRemap (p : Pics) : Option Pics := do
  let a1 := p.master.imr
  let a2 := p.slave.imr
  let p ← p.out 0x20 icw1
  let p ← ioWait p
  let p ← p.out 0xA0 icw1
  let p ← ioWait p
  let p ← p.out 0x21 pic1Offset
  let p ← ioWait p
  let p ← p.out 0xA1 pic2Offset
  let p ← ioWait p
  let p ← p.out 0x21 0b0100
  let p ← ioWait p
  let p ← p.out 0xA1 0b0010
  let p ← ioWait p
  let p ← p.out 0x21 icw4_8086
  let p ← ioWait p
  let p ← p.out 0xA1 icw4_8086
  let p ← ioWait p
  let p ← p.out 0x21 a1
  p.out 0xA1 a2

def activateKeyboardInterrupt (p : Pics) : Option Pics := do
  let p ← p.out 0x21 (picDisableAllMask ^^^ 1 <<< UInt8.ofNat irqKeyboard)
  p.out 0xA1 picDisableAllMask

/-- `pic_ack`. -/
def picAck (irq : ℕ) (p : Pics) : Option Pics := do
  let p ← if 8 ≤ irq then p.out 0xA0 picAckCommand else some p
  p.out 0x20 picAckCommand

/-! ## The keyboard and its interrupts -/

/-- The keyboard with its controller, the interrupt controllers, and the process that reads
    lines. `heard` and `vectors` record what was read from the data port and which vectors
    the processor was given. -/
structure KeyLine where
  /-- typed, and not in the controller yet -/
  queue : List UInt8
  /-- the byte at the data port, and whether it is still to be read -/
  data : UInt8
  full : Bool
  pics : Pics
  /-- `keyboard_isr` has done its work, up to `pic_ack` -/
  acking : Bool
  reader : ReadLine
  heard : List UInt8
  vectors : List UInt8

inductive LineEvent where
  /-- the keyboard sends a byte -/
  | key (scancode : UInt8)
  /-- its controller takes the next byte -/
  | load
  /-- another device raises its line -/
  | device (line : ℕ)
  /-- the processor takes an interrupt and runs its handler, `keyboard_isr` up to `pic_ack` -/
  | interrupt
  /-- the rest of `keyboard_isr` -/
  | ack
  /-- a step of the interrupted process -/
  | process

/-- `main_interrupt_handler` for the vector: only the keyboard's has a case. With the input
    off `keyboard_isr` leaves the byte at the port. -/
def KeyLine.handle (behind : ℕ → UInt8) (s : KeyLine) (vector : UInt8) : KeyLine :=
  if vector = pic1Offset + UInt8.ofNat irqKeyboard then
    { s with
      full := if s.reader.terminal.keyboard.keyboardInputOn then false else s.full
      heard :=
        if s.reader.terminal.keyboard.keyboardInputOn then s.heard ++ [s.data] else s.heard
      reader := s.reader.interrupt behind s.data
      acking := true }
  else s

/-- What the processor is given, when it runs nothing with interrupts off. -/
def KeyLine.offered (s : KeyLine) : Option (UInt8 × Pics) :=
  if s.acking then none else s.pics.interrupt

/-- The state after an event; an event that is not possible changes nothing. -/
def KeyLine.next (behind : ℕ → UInt8) (s : KeyLine) : LineEvent → KeyLine
  | .key scancode => { s with queue := s.queue ++ [scancode] }
  | .load =>
      match s.queue with
      | b :: rest =>
          if s.full then s
          else { s with queue := rest, data := b, full := true, pics := s.pics.raise irqKeyboard }
      | [] => s
  | .device line =>
      if line = irqKeyboard then s else { s with pics := s.pics.raise line }
  | .interrupt =>
      match s.offered with
      | some (vector, pics) =>
          KeyLine.handle behind { s with pics := pics, vectors := s.vectors ++ [vector] } vector
      | none => s
  | .ack =>
      if s.acking then
        { s with pics := (picAck irqKeyboard s.pics).getD s.pics, acking := false }
      else s
  | .process => if s.acking then s else { s with reader := s.reader.kernel }

/-- After `kernel_setup`, with nothing typed yet. -/
def KeyLine.initial (pics : Pics) (data : UInt8) (console : Console) (buf : LineBuffer) :
    KeyLine where
  queue := []
  data := data
  full := false
  pics := ((picRemap pics).bind activateKeyboardInterrupt).getD pics
  acking := false
  reader := .initial console buf
  heard := []
  vectors := []

end OsyConsole
