import Osyikkk.DescriptorTables
import Osyikkk.InterruptReturnProofs

/-!
# From the user program into the kernel and back

`initialize_idt` and `gdt_install_tss` have filled the tables, and the `iret` of
`kernel_execute_user_program` starts the user program with the least privilege. From there
an interrupt goes through a gate, a stub and `main_interrupt_handler`.

The invariant of a run (`UserRun.userState`) is small: the privilege, and the two words of
the task state segment that the processor reads. `userRun_serves` says what every interrupt
of a run does, for handlers that write neither to their interrupt's frame nor to the task
state segment.
-/

namespace OsyInterrupt

open BitFields StackMachine

/-! ## Model -/

/-- The stubs in memory: `isr_stub_table` and the code at the addresses in it. -/
structure StubImage where
  isrStubTable : ℕ → UInt32
  codeAt : UInt32 → Option (List Instr)
  placed : ∀ v < isrStubTableLimit,
    codeAt (isrStubTable v) = some (interruptHandler (UInt32.ofNat v))

/-- What raises an interrupt: the instruction `int`, or the processor and its lines, with an
    error code for some vectors. -/
inductive Source where
  | instruction
  | hardware (errorCode : Option UInt32)

def Source.errorCode : Source → Option UInt32
  | .instruction => none
  | .hardware errorCode => errorCode

/-- `struct TSSEntry` at the base in `GDT_TSS_SELECTOR`. -/
def taskState (gdt : GlobalDescriptorTable) (mem : UInt32 → UInt32) : TaskState :=
  let base := UInt32.ofNat (segmentBase (pack (gdt gdtTssEntry).fields))
  { esp0 := mem (base + 4)
    ss0 := mem (base + 8) }

/-- The tables in use. -/
structure KernelTables where
  idt : InterruptDescriptorTable
  gdt : GlobalDescriptorTable

/-- The tables behind `kernel_setup`, with `_interrupt_tss_entry` at `tss`. -/
def KernelTables.setUp (image : StubImage) (tss : UInt32) : KernelTables where
  idt := initializeIdt image.isrStubTable fun _ => IDTGate.zero
  gdt := gdtInstallTss tss globalDescriptorTable

/-- `int` is refused for a gate of more privilege than the running code has. -/
def Source.Admits (gate : Gate) (cpl : ℕ) : Source → Prop
  | .instruction => cpl ≤ gate.dpl
  | .hardware _ => True

instance (gate : Gate) (cpl : ℕ) : ∀ source : Source, Decidable (source.Admits gate cpl)
  | .instruction => inferInstanceAs (Decidable (cpl ≤ gate.dpl))
  | .hardware _ => isTrue trivial

/-- An interrupt from its cause to the next instruction of the interrupted code; `none` when
    the processor refuses it. -/
def raise (services : Services) (image : StubImage) (tables : KernelTables) (ret : UInt32)
    (source : Source) (n : UInt8) (s : Cpu) : Option Cpu := do
  let gate ← readGate (pack (tables.idt ⟨n.toNat, UInt8.toNat_lt n⟩).fields)
  if source.Admits gate (privilege (s.reg .cs)).toNat then
    (image.codeAt (UInt32.ofNat gate.offset)).map fun code =>
      execAll (mainInterruptHandler services) ret code
        (deliver (taskState tables.gdt s.mem) (UInt32.ofNat gate.offset)
          (UInt32.ofNat gate.selector) source.errorCode s)
  else none

/-- The address of the user program goes to `ecx` and `eax`. -/
def loadArgument (s : Cpu) : Cpu :=
  { s with
    reg := Function.update (Function.update s.reg .ecx (s.mem (s.reg .esp + 4))) .eax
      (s.mem (s.reg .esp + 4)) }

/-- `kernel_execute_user_program`. -/
def kernelExecuteUserProgram (s : Cpu) : Cpu :=
  let virtualAddress := s.mem (s.reg .esp + 4)
  iret ((loadArgument s).pushAll .esp
    [0x20 ||| 0x3, virtualAddress + (0x400000 - 4), s.reg .eflags, 0x18 ||| 0x3,
      virtualAddress])

variable {services : Services} {image : StubImage} {tss ret : UInt32} {source : Source}
  {n : UInt8} {s s' : Cpu}

/-! ## Through the tables -/

/-- The task state is read where `gdt_install_tss` says it is. -/
theorem taskState_setUp (image : StubImage) (tss : UInt32) (mem : UInt32 → UInt32) :
    taskState (KernelTables.setUp image tss).gdt mem
      = { esp0 := mem (tss + 4), ss0 := mem (tss + 8) } := by
  have hbase : UInt32.ofNat (segmentBase
      (pack ((KernelTables.setUp image tss).gdt gdtTssEntry).fields)) = tss := by
    rw [KernelTables.setUp, segmentBase_stored, UInt32.ofNat_toNat]
  rw [taskState, hbase]

/-- The least privilege a vector's gate asks for. -/
def gateDpl (n : UInt8) : ℕ := if 0x30 ≤ n.toNat then 3 else 0

/-- The processor finds the stub of a vector in its gate. -/
theorem readGate_stub (image : StubImage) (tss : UInt32) (hn : n.toNat < isrStubTableLimit) :
    readGate (pack ((KernelTables.setUp image tss).idt ⟨n.toNat, UInt8.toNat_lt n⟩).fields)
      = some ⟨(image.isrStubTable n.toNat).toNat, 8, gateDpl n⟩ := by
  rw [KernelTables.setUp, readGate_initializeIdt, if_pos hn]
  rfl

/-- A vector of the table that is admitted runs its stub. -/
theorem raise_stub (hn : n.toNat < isrStubTableLimit)
    (hadmits : source = .instruction → (privilege (s.reg .cs)).toNat ≤ gateDpl n) :
    raise services image (.setUp image tss) ret source n s
      = some (interrupt services (taskState (KernelTables.setUp image tss).gdt s.mem) ret
          (image.isrStubTable n.toNat) gdtKernelCodeSegmentSelector n.toUInt32
          source.errorCode s) := by
  have hok : source.Admits ⟨(image.isrStubTable n.toNat).toNat, 8, gateDpl n⟩
      (privilege (s.reg .cs)).toNat := by
    cases source with
    | instruction => exact hadmits rfl
    | hardware _ => trivial
  have hvector : UInt32.ofNat n.toNat = n.toUInt32 := UInt32.ofNat_uInt8ToNat n
  rw [raise, readGate_stub image tss hn, Option.bind_eq_bind, Option.bind_some, if_pos hok,
    UInt32.ofNat_toNat, image.placed _ hn, Option.map_some, interrupt, hvector]
  rfl

/-- Every other vector, and an `int` without the privilege, is refused. -/
theorem raise_refused (h : n.toNat < isrStubTableLimit →
      source = .instruction ∧ gateDpl n < (privilege (s.reg .cs)).toNat) :
    raise services image (.setUp image tss) ret source n s = none := by
  by_cases hn : n.toNat < isrStubTableLimit
  · obtain ⟨rfl, hless⟩ := h hn
    rw [raise, readGate_stub image tss hn, Option.bind_eq_bind, Option.bind_some]
    exact if_neg (Nat.not_le_of_lt hless)
  · have hgate := readGate_initializeIdt image.isrStubTable ⟨n.toNat, UInt8.toNat_lt n⟩
    rw [if_neg hn] at hgate
    rw [raise, KernelTables.setUp, hgate, Option.bind_eq_bind, Option.bind_none]

/-- **An admitted vector.** Its stub serves it on the stack of the task state. -/
theorem raise_admitted (image : StubImage) (tss ret : UInt32) (hkeep : services.Keep)
    (hn : n.toNat < isrStubTableLimit)
    (hadmits : source = .instruction → (privilege (s.reg .cs)).toNat ≤ gateDpl n)
    (hagree : source.errorCode.isSome = withErrorCode n.toUInt32) :
    ∃ s', raise services image (.setUp image tss) ret source n s = some s' ∧
      Serves services { esp0 := s.mem (tss + 4), ss0 := s.mem (tss + 8) } n.toUInt32
        source.errorCode s s' := by
  refine ⟨_, raise_stub hn hadmits, ?_⟩
  rw [taskState_setUp]
  exact interrupt_serves hkeep hagree

/-! ## The entry into the program -/

theorem pushAll_grown (ws : List UInt32) (s : Cpu) :
    Grown .esp (s.reg .esp) ws.length s.mem (s.pushAll .esp ws) := by
  have hstart : Grown .esp (s.reg .esp) 0 s.mem s := .start rfl
  have hgrown := hstart.pushAll ws
  rwa [Nat.zero_add] at hgrown

theorem loadArgument_reg {r : Reg} (heax : r ≠ .eax) (hecx : r ≠ .ecx) :
    (loadArgument s).reg r = s.reg r := by
  simp only [loadArgument, Function.update_of_ne heax, Function.update_of_ne hecx]

/-- The words `kernel_execute_user_program` pushes are a frame for `iret`. -/
theorem entryFrame_stacked (virtualAddress flags : UInt32) (s : Cpu) :
    Stacked .esp (s.pushAll .esp
      [0x20 ||| 0x3, virtualAddress + (0x400000 - 4), flags, 0x18 ||| 0x3, virtualAddress])
      [virtualAddress, 0x1B, flags, virtualAddress + 0x3FFFFC, 0x23] := by
  have hempty : Stacked .esp s [] := trivial
  exact hempty.pushAll (show 5 < 1073741824 by decide)

/-- **The start of the program.** It begins at its first address, with the least privilege and
    the stack pointer at the last word of its page. -/
theorem kernelExecuteUserProgram_spec (hp : privilege (s.reg .cs) = 0) :
    let virtualAddress := s.mem (s.reg .esp + 4)
    let t := kernelExecuteUserProgram s
    t.reg .eip = virtualAddress ∧ t.reg .cs = 0x1B ∧ t.reg .eflags = s.reg .eflags ∧
      t.reg .esp = virtualAddress + 0x3FFFFC ∧ t.reg .ss = 0x23 := by
  intro virtualAddress t
  have hstack := entryFrame_stacked virtualAddress (s.reg .eflags) (loadArgument s)
  set pushed : Cpu := (loadArgument s).pushAll .esp [0x20 ||| 0x3,
    virtualAddress + (0x400000 - 4), s.reg .eflags, 0x18 ||| 0x3, virtualAddress] with hpushed
  have hcs : pushed.reg .cs = s.reg .cs := by
    rw [hpushed, pushAll_reg _ (by decide), loadArgument_reg (by decide) (by decide)]
  obtain ⟨hpopped, hbehind, -⟩ := iret_pops hstack
  have houter : t = toOuterStack (pushed.restore .esp returnRegs) := by
    refine iret_outer hstack ?_
    rw [hcs, hp]
    decide
  obtain ⟨hsp, hseg, -⟩ := hbehind
  rw [houter, toOuterStack_esp, toOuterStack_ss, hsp, hseg,
    toOuterStack_reg _ (by decide) (by decide), toOuterStack_reg _ (by decide) (by decide),
    toOuterStack_reg _ (by decide) (by decide), hpopped .eip (by decide),
    hpopped .cs (by decide), hpopped .eflags (by decide)]
  exact ⟨rfl, rfl, rfl, rfl, rfl⟩

/-- A word that `kernel_execute_user_program` pushes nothing to. -/
theorem kernelExecuteUserProgram_mem {a : UInt32}
    (ha : ∀ k < 5, a ≠ s.reg .esp - 4 * UInt32.ofNat (k + 1)) :
    (kernelExecuteUserProgram s).mem a = s.mem a := by
  rw [kernelExecuteUserProgram, iret_mem]
  refine (pushAll_grown _ _).others a ?_
  rw [loadArgument_reg (by decide) (by decide)]
  exact ha

/-! ## A run of the program -/

variable {userWord : UInt32 → Prop} {s₀ : Cpu}

/-- The program's own code changes registers and the words it may write to. Its privilege
    stays: only a gate changes it. -/
structure OwnStep (userWord : UInt32 → Prop) (s s' : Cpu) : Prop where
  privilege : privilege (s'.reg .cs) = privilege (s.reg .cs)
  mem : ∀ a, ¬ userWord a → s'.mem a = s.mem a

/-- The processor pushes an error code for the vectors that have one. -/
def Source.Regular (n : UInt8) : Source → Prop
  | .instruction => True
  | .hardware errorCode => errorCode.isSome = withErrorCode n.toUInt32

/-- The states of the user program, its own steps and its interrupts in any order. -/
inductive UserRun (services : Services) (image : StubImage) (tss ret : UInt32)
    (userWord : UInt32 → Prop) (s₀ : Cpu) : Cpu → Prop
  | start : UserRun services image tss ret userWord s₀ (kernelExecuteUserProgram s₀)
  | own {s s' : Cpu} : UserRun services image tss ret userWord s₀ s → OwnStep userWord s s' →
      UserRun services image tss ret userWord s₀ s'
  | interrupt {s s' : Cpu} (source : Source) (n : UInt8) :
      UserRun services image tss ret userWord s₀ s → source.Regular n →
      raise services image (.setUp image tss) ret source n s = some s' →
      UserRun services image tss ret userWord s₀ s'

/-- The task state segment is in a word of the kernel's own: the program may not write to it,
    the handlers do not, and no frame reaches it. -/
structure TaskStateApart (services : Services) (tss : UInt32) (userWord : UInt32 → Prop)
    (s₀ : Cpu) : Prop where
  kernel : privilege (s₀.reg .cs) = 0
  user : ∀ a ∈ [tss + 4, tss + 8], ¬ userWord a
  handlers : ∀ n cpu info s, ∀ a ∈ [tss + 4, tss + 8],
    (services.serve n cpu info s).mem a = s.mem a
  entry : ∀ a ∈ [tss + 4, tss + 8], ∀ k < 5, a ≠ s₀.reg .esp - 4 * UInt32.ofNat (k + 1)
  frames : ∀ a ∈ [tss + 4, tss + 8], ∀ k < 14,
    a ≠ s₀.mem (tss + 4) - 4 * UInt32.ofNat (k + 1)

/-- What every state of the run has. -/
structure UserState (tss : UInt32) (s₀ s : Cpu) : Prop where
  least : privilege (s.reg .cs) = 3
  taskState : ∀ a ∈ [tss + 4, tss + 8], s.mem a = s₀.mem a

theorem Source.regular_agrees (hregular : source.Regular n)
    (hadmits : source = .instruction → 3 ≤ gateDpl n) :
    source.errorCode.isSome = withErrorCode n.toUInt32 := by
  cases source with
  | hardware errorCode => exact hregular
  | instruction =>
      have hrange : 0x30 ≤ n.toNat := by
        by_contra hless
        have hdpl := hadmits rfl
        rw [gateDpl, if_neg hless] at hdpl
        exact absurd hdpl (by decide)
      -- no vector of that range has an error code
      have hnone : withErrorCode n.toUInt32 = false := by
        rw [withErrorCode, decide_eq_false_iff_not]
        intro hmem
        have hsmall : n.toUInt32.toNat ≤ 30 := by
          simp only [List.mem_cons, List.not_mem_nil, or_false] at hmem
          rcases hmem with h | h | h | h | h | h | h | h
          all_goals
            rw [h]
            decide
        rw [UInt8.toNat_toUInt32] at hsmall
        omega
      exact hnone.symm

/-- A vector that is not refused. -/
theorem raise_some (h : raise services image (.setUp image tss) ret source n s = some s') :
    n.toNat < isrStubTableLimit ∧
      (source = .instruction → (privilege (s.reg .cs)).toNat ≤ gateDpl n) := by
  by_contra hnot
  have hrefused : raise services image (.setUp image tss) ret source n s = none := by
    refine raise_refused ?_
    intro hn
    rw [not_and, Classical.not_imp, Nat.not_le] at hnot
    exact hnot hn
  rw [hrefused] at h
  cases h

/-- Every interrupt of a user state is served. -/
theorem UserState.serves (hstate : UserState tss s₀ s) (hkeep : services.Keep)
    (hregular : source.Regular n)
    (h : raise services image (.setUp image tss) ret source n s = some s') :
    Serves services { esp0 := s₀.mem (tss + 4), ss0 := s₀.mem (tss + 8) } n.toUInt32
      source.errorCode s s' := by
  obtain ⟨hn, hadmits⟩ := raise_some h
  have hleast : source = .instruction → 3 ≤ gateDpl n := by
    rw [hstate.least] at hadmits
    exact hadmits
  obtain ⟨s₁, hs₁, hserves⟩ := raise_admitted image tss ret hkeep
    hn hadmits (Source.regular_agrees hregular hleast)
  rw [hs₁, Option.some.injEq] at h
  rw [← h, ← hstate.taskState (tss + 4) (by simp), ← hstate.taskState (tss + 8) (by simp)]
  exact hserves

/-- An interrupt leaves a user state. -/
theorem UserState.interrupt (hstate : UserState tss s₀ s) (hkeep : services.Keep)
    (hapart : TaskStateApart services tss userWord s₀) (hregular : source.Regular n)
    (h : raise services image (.setUp image tss) ret source n s = some s') :
    UserState tss s₀ s' := by
  have hserves := hstate.serves hkeep hregular h
  obtain ⟨t, hmem, ht⟩ := hserves.served
  refine ⟨hserves.registers ▸ hstate.least, ?_⟩
  intro a ha
  have hnot : privilege (s.reg .cs) ≠ 0 := by
    rw [hstate.least]
    decide
  have houtside : outsideFrame { esp0 := s₀.mem (tss + 4), ss0 := s₀.mem (tss + 8) } s a := by
    intro k hk
    rw [kernelTop, if_neg hnot]
    exact hapart.frames a ha k hk
  rw [hmem, hapart.handlers _ _ _ _ a ha, ht a houtside, hstate.taskState a ha]

/-- **The invariant of a run.** -/
theorem UserRun.userState (hkeep : services.Keep)
    (hapart : TaskStateApart services tss userWord s₀)
    (h : UserRun services image tss ret userWord s₀ s) : UserState tss s₀ s := by
  induction h with
  | start =>
      obtain ⟨-, hcs, -⟩ := kernelExecuteUserProgram_spec hapart.kernel
      refine ⟨?_, fun a ha => kernelExecuteUserProgram_mem (hapart.entry a ha)⟩
      rw [hcs]
      rfl
  | own _ hown ih =>
      refine ⟨hown.privilege.trans ih.least, ?_⟩
      intro a ha
      rw [hown.mem a (hapart.user a ha), ih.taskState a ha]
  | interrupt source n _ hregular hraise ih => exact ih.interrupt hkeep hapart hregular hraise

/-- **The user program and its interrupts.** In whatever order the program's own steps and
    interrupts come, the program stays at the least privilege. The vectors it may raise
    itself are 0x30 to 0x3F. Every interrupt that is taken gives back all its registers, and
    the handler runs for that vector on the stack of the task state segment. -/
theorem userRun_serves (image : StubImage) (ret : UInt32) (hkeep : services.Keep)
    (hapart : TaskStateApart services tss userWord s₀)
    (h : UserRun services image tss ret userWord s₀ s) :
    privilege (s.reg .cs) = 3 ∧
      (∀ n, (raise services image (.setUp image tss) ret .instruction n s).isSome ↔
        0x30 ≤ n.toNat ∧ n.toNat ≤ 0x3F) ∧
      ∀ source n s', source.Regular n →
        raise services image (.setUp image tss) ret source n s = some s' →
        Serves services { esp0 := s₀.mem (tss + 4), ss0 := s₀.mem (tss + 8) } n.toUInt32
          source.errorCode s s' := by
  have hstate := h.userState hkeep hapart
  refine ⟨hstate.least, ?_, fun source n s' hregular hraise =>
    hstate.serves hkeep hregular hraise⟩
  intro n
  constructor
  · intro hsome
    obtain ⟨s', hs'⟩ := Option.isSome_iff_exists.mp hsome
    obtain ⟨hn, hadmits⟩ := raise_some hs'
    have hleast : 3 ≤ gateDpl n := by
      rw [hstate.least] at hadmits
      exact hadmits rfl
    refine ⟨?_, Nat.le_of_lt_succ hn⟩
    by_contra hless
    rw [gateDpl, if_neg hless] at hleast
    exact absurd hleast (by decide)
  · rintro ⟨hlow, hhigh⟩
    rw [raise_stub (Nat.lt_succ_of_le hhigh) fun _ => ?_]
    · rfl
    · rw [hstate.least, gateDpl, if_pos hlow]
      decide

/-- Stubs of 16 bytes from address 0x1000 on. -/
def spacedStubs : StubImage where
  isrStubTable v := UInt32.ofNat (0x1000 + 16 * v)
  codeAt a := some (interruptHandler (UInt32.ofNat ((a.toNat - 0x1000) / 16)))
  placed := by
    intro v hv
    have hsmall : 0x1000 + 16 * v < 2 ^ 32 := by
      have hv64 : v < 64 := hv
      omega
    rw [UInt32.toNat_ofNat', Nat.mod_eq_of_lt hsmall, Nat.add_sub_cancel_left,
      Nat.mul_div_cancel_left _ (by decide)]

/-- The kernel about to start the user program, with its task state at 0x100. -/
def kernelReady : Cpu where
  reg
    | .cs => gdtKernelCodeSegmentSelector
    | .esp => 0x2000
    | _ => 0
  mem a := if a = 0x104 then 0x3000 else if a = 0x108 then 0x10 else 0

/-- Services of which the system call stores `eax` in the word at 0, where no frame is. -/
def storingServices : Services where
  keyboardIsr := id
  hlt := id
  syscall := fun cpu _ s =>
    if ∀ k < frameWords, wordAt (s.reg .esp + 4) k ≠ 0 then
      { s with mem := Function.update s.mem 0 cpu.eax }
    else s

theorem storingServices_keep : storingServices.Keep where
  keyboardIsr := idleServices_keep.keyboardIsr
  hlt := idleServices_keep.hlt
  syscall cpu info := by
    constructor
    case pointer =>
      intro s
      simp only [storingServices]
      split_ifs <;> rfl
    case registers =>
      intro s r _
      simp only [storingServices]
      split_ifs <;> rfl
    case frame =>
      intro s k hk
      simp only [storingServices]
      split_ifs with hapart
      · exact Function.update_of_ne (hapart k hk) _ _
      · rfl

/-- `mov eax, w`. -/
def loadEax (w : UInt32) (s : Cpu) : Cpu :=
  { s with reg := Function.update s.reg .eax w }

theorem loadEax_own (userWord : UInt32 → Prop) (w : UInt32) (s : Cpu) :
    OwnStep userWord s (loadEax w s) where
  privilege := by
    have hne : (Reg.cs : Reg) ≠ .eax := by decide
    exact congrArg OsyInterrupt.privilege (Function.update_of_ne hne w s.reg)
  mem _ _ := rfl

/-- The program has loaded 7 into `eax`. -/
def loadedSeven : Cpu := loadEax 7 (kernelExecuteUserProgram kernelReady)

theorem kernelReady_apart :
    TaskStateApart storingServices 0x100 (fun a => a = 0) kernelReady := by
  have hlow : ∀ a ∈ [(0x100 : UInt32) + 4, 0x100 + 8], a.toNat < 0x1000 := by simp
  refine ⟨rfl, by simp, ?_, ?_, ?_⟩
  · intro n cpu info s a ha
    have hne : a ≠ 0 := by
      rintro rfl
      exact absurd ha (by decide)
    simp only [Services.serve, storingServices]
    split_ifs
    · rfl
    · rfl
    · exact Function.update_of_ne hne _ _
    · rfl
    · rfl
  · intro a ha k hk
    have htop : (kernelReady.reg .esp).toNat = 0x2000 := rfl
    have := hlow a ha
    exact ne_pushed_of_lt (by omega)
  · intro a ha k hk
    have htop : (kernelReady.mem (0x100 + 4)).toNat = 0x3000 := rfl
    have := hlow a ha
    exact ne_pushed_of_lt (by omega)

/-- The program loads a word and makes a system call with it. -/
theorem userRun_serves_syscall : ∃ s',
    raise storingServices spacedStubs (.setUp spacedStubs 0x100) 0 .instruction 0x30 loadedSeven
      = some s' ∧
    UserRun storingServices spacedStubs 0x100 0 (fun a => a = 0) kernelReady s' ∧
    s'.mem 0 = 7 ∧
    Serves storingServices { esp0 := 0x3000, ss0 := 0x10 } 0x30 none loadedSeven s' ∧
    privilege (s'.reg .cs) = 3 ∧
    ∀ n, (raise storingServices spacedStubs (.setUp spacedStubs 0x100) 0 .instruction n
      s').isSome ↔ 0x30 ≤ n.toNat ∧ n.toNat ≤ 0x3F := by
  have hloaded : UserRun storingServices spacedStubs 0x100 0 (fun a => a = 0) kernelReady
      loadedSeven := .own .start (loadEax_own _ 7 _)
  obtain ⟨-, hsome, hserves⟩ :=
    userRun_serves spacedStubs 0 storingServices_keep kernelReady_apart hloaded
  obtain ⟨s', hraise⟩ := Option.isSome_iff_exists.mp ((hsome 0x30).mpr (by decide))
  have hstored : (raise storingServices spacedStubs (.setUp spacedStubs 0x100) 0 .instruction
      0x30 loadedSeven).map (fun s => s.mem 0) = some 7 := by decide +kernel
  rw [hraise] at hstored
  have hnext := UserRun.interrupt .instruction 0x30 hloaded trivial hraise
  obtain ⟨hleast, hagain, -⟩ :=
    userRun_serves spacedStubs 0 storingServices_keep kernelReady_apart hnext
  exact ⟨s', hraise, hnext, Option.some.inj hstored, hserves .instruction 0x30 s' trivial hraise,
    hleast, hagain⟩

end OsyInterrupt
