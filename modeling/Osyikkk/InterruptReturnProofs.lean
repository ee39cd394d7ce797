import Osyikkk.InterruptStubs

/-!
# An interrupt gives back the registers

The common code pushes six registers over the vector and the error code and pops them again,
so `main_interrupt_handler` finds its arguments in the order of its parameters and the
interrupted code finds its registers (`callGenericHandler_saves`). What `iret` then takes
for `eip`, `cs` and `eflags` are the words behind the error code: the ones the processor
pushed, when the stub has put an error code there exactly if the processor has not.
-/

namespace OsyInterrupt

open StackMachine

variable {services : Services} {task : TaskState} {ret offset selector n e w : UInt32}
  {s t : Cpu} {l : List UInt32} {body : Cpu → Cpu}

/-! ## The handler -/

theorem serve_keeps (hkeep : services.Keep) (n : UInt32) (cpu : CPURegister)
    (info : InterruptStack) : KeepsFrame (services.serve n cpu info) := by
  have hcases : services.serve n cpu info = services.keyboardIsr ∨
      services.serve n cpu info = services.hlt ∨
      services.serve n cpu info = services.syscall cpu info ∨
      services.serve n cpu info = id := by
    by_cases h1 : n = 0x20 + 1
    · exact Or.inl (funext fun s => if_pos h1)
    · by_cases h2 : n = 0xE
      · exact Or.inr (Or.inl (funext fun s => (if_neg h1).trans (if_pos h2)))
      · by_cases h3 : n = 0x30
        · exact Or.inr (Or.inr (Or.inl
            (funext fun s => (if_neg h1).trans ((if_neg h2).trans (if_pos h3)))))
        · exact Or.inr (Or.inr (Or.inr
            (funext fun s => (if_neg h1).trans ((if_neg h2).trans (if_neg h3)))))
  rcases hcases with h | h | h | h
  · exact h ▸ hkeep.keyboardIsr
  · exact h ▸ hkeep.hlt
  · exact h ▸ hkeep.syscall cpu info
  · rw [h]
    exact ⟨fun _ => rfl, fun _ _ _ => rfl, fun _ _ _ => rfl⟩

/-- The body of `main_interrupt_handler`. -/
def handled (services : Services) (s : Cpu) : Cpu :=
  services.serve (argument s 6) (cpuArgument s) (infoArgument s) s

theorem handled_keeps (hkeep : services.Keep) : KeepsFrame (handled services) where
  pointer s := (serve_keeps hkeep _ _ _).pointer s
  registers s := (serve_keeps hkeep _ _ _).registers s
  frame s := (serve_keeps hkeep _ _ _).frame s

@[simp] theorem addEsp_esp (m : UInt32) (s : Cpu) :
    (addEsp m s).reg .esp = s.reg .esp + m := by
  simp only [addEsp, Function.update_self]

theorem addEsp_reg {r : Reg} (m : UInt32) (s : Cpu) (hr : r ≠ .esp) :
    (addEsp m s).reg r = s.reg r := by
  simp only [addEsp, Function.update_of_ne hr]

@[simp] theorem addEsp_mem (m : UInt32) (s : Cpu) : (addEsp m s).mem = s.mem := rfl

theorem sti_reg {r : Reg} (s : Cpu) (hr : r ≠ .eflags) : (sti s).reg r = s.reg r := by
  simp only [sti, Function.update_of_ne hr]

@[simp] theorem sti_mem (s : Cpu) : (sti s).mem = s.mem := rfl

theorem mainInterruptHandler_mem :
    (mainInterruptHandler services s).mem = (handled services s).mem := rfl

theorem mainInterruptHandler_reg {r : Reg} (hr : r ≠ .esp) :
    (mainInterruptHandler services s).reg r = (handled services s).reg r :=
  addEsp_reg 4 _ hr

theorem mainInterruptHandler_esp (hkeep : services.Keep) :
    (mainInterruptHandler services s).reg .esp = s.reg .esp + 4 := by
  rw [← (handled_keeps hkeep).pointer s]
  exact addEsp_esp 4 _

/-! ## The common code -/

/-- The registers the common code saves between the two of `esp`. -/
abbrev savedRegs : List Reg := [.ebp, .edx, .ecx, .ebx, .eax]

/-- The stack with everything saved. -/
def savedState (s : Cpu) : Cpu := (s.push .esp (s.reg .esp)).save .esp savedRegs

/-- The state `main_interrupt_handler` starts in. -/
def entryState (ret : UInt32) (s : Cpu) : Cpu := (savedState s).push .esp ret

/-- The state behind the five `pop`s. -/
def restoredState (services : Services) (ret : UInt32) (s : Cpu) : Cpu :=
  (mainInterruptHandler services (entryState ret s)).restore .esp savedRegs.reverse

/-- The state before `iret`. -/
def beforeIret (services : Services) (ret : UInt32) (s : Cpu) : Cpu :=
  sti (addEsp 8 ((restoredState services ret s).pop .esp .esp))

theorem callGenericHandler_eq (services : Services) (ret : UInt32) (s : Cpu) :
    execAll (mainInterruptHandler services) ret callGenericHandler s
      = iret (beforeIret services ret s) := by
  simp only [execAll, callGenericHandler, List.foldl_cons, List.foldl_nil, Instr.exec]
  simp only [beforeIret, restoredState, entryState, savedState, savedRegs, Machine.save,
    Machine.restore, List.foldl_cons, List.foldl_nil, List.reverse_cons, List.reverse_nil,
    List.nil_append, List.cons_append]

theorem savedState_reg {r : Reg} (hr : r ≠ .esp) : (savedState s).reg r = s.reg r := by
  rw [savedState, save_eq (by decide), pushAll_reg _ hr, push_reg _ _ hr]

theorem entryState_esp : (entryState ret s).reg .esp + 4 = (savedState s).reg .esp := by
  rw [entryState, push_sp, UInt32.sub_add_cancel]

/-- `struct CPURegister` as it is pushed. -/
def savedWords (s : Cpu) : List UInt32 :=
  [s.reg .eax, s.reg .ebx, s.reg .ecx, s.reg .edx, s.reg .ebp, s.reg .esp]

theorem savedState_stacked (h : Stacked .esp s l) (hl : l.length ≤ 7) :
    Stacked .esp (savedState s) (savedWords s ++ l) := by
  have hpush := h.push (by omega) (s.reg .esp)
  have hmap : savedRegs.map (s.push .esp (s.reg .esp)).reg = savedRegs.map s.reg := by
    refine List.map_congr_left ?_
    intro r hr
    refine push_reg _ s ?_
    rintro rfl
    exact absurd hr (by decide)
  have hlen : (s.reg .esp :: l).length + (savedRegs.map s.reg).length < 1073741824 := by
    simp only [List.length_cons, List.length_map, List.length_nil]
    omega
  have hsaved : savedState s
      = (s.push .esp (s.reg .esp)).pushAll .esp (savedRegs.map s.reg) := by
    rw [savedState, save_eq (by decide), hmap]
  have hwords : (savedRegs.map s.reg).reverse ++ (s.reg .esp :: l) = savedWords s ++ l := rfl
  rw [hsaved, ← hwords]
  exact hpush.pushAll hlen

/-- The frame as `main_interrupt_handler` finds it: its arguments behind the return
    address. -/
theorem entryState_arguments (ret : UInt32) (h : Stacked .esp s l) (hl : l.length ≤ 7) :
    Holds (entryState ret s).mem ((entryState ret s).reg .esp + 4) (savedWords s ++ l) := by
  have hlen : (savedWords s ++ l).length < 1073741823 := by
    simp only [savedWords, List.length_append, List.length_cons, List.length_nil]
    omega
  have hpush := (savedState_stacked h hl).push hlen ret
  exact hpush.2

/-- The call leaves the saved words and the pointer as they were before it. -/
theorem call_keeps (ret : UInt32) (s : Cpu) (hkeep : services.Keep) :
    (mainInterruptHandler services (entryState ret s)).reg .esp = (savedState s).reg .esp ∧
      ∀ k < frameWords,
        (mainInterruptHandler services (entryState ret s)).mem
            (wordAt ((savedState s).reg .esp) k)
          = (savedState s).mem (wordAt ((savedState s).reg .esp) k) := by
  refine ⟨(mainInterruptHandler_esp hkeep).trans entryState_esp, ?_⟩
  intro k hk
  have hframe := (handled_keeps hkeep).frame (entryState ret s) k hk
  rw [argument, argument, (handled_keeps hkeep).pointer, entryState_esp] at hframe
  have hbelow : wordAt ((savedState s).reg .esp) k ≠ (savedState s).reg .esp - 4 :=
    wordAt_ne_below _ (Nat.lt_of_lt_of_le (Nat.succ_lt_succ hk) (by decide))
  rw [mainInterruptHandler_mem, hframe]
  exact push_mem ret _ hbelow

/-- The restored registers, and those the called functions keep. -/
theorem restoredState_spec (ret : UInt32) (hkeep : services.Keep) (h : Stacked .esp s l)
    (hl : l.length ≤ 7) :
    (restoredState services ret s).reg .esp = s.reg .esp - 4 ∧
      (∀ r ∈ savedRegs ++ untouched, (restoredState services ret s).reg r = s.reg r) ∧
      Stacked .esp (restoredState services ret s) (s.reg .esp :: l) := by
  have hcall := call_keeps ret s hkeep
  have hpush := h.push (by omega) (s.reg .esp)
  have hlen : (s.reg .esp :: l).length + savedRegs.length < 1073741824 := by
    simp only [List.length_cons, List.length_nil]
    omega
  have hframe : savedRegs.length + (s.reg .esp :: l).length ≤ frameWords := by
    show 5 + (l.length + 1) ≤ 13
    omega
  rw [savedState] at hcall
  obtain ⟨hsp, hregs, hother, hstack⟩ := saved_restored hpush (by decide) (by decide) hlen
    hcall.1 fun k hk => hcall.2 k (Nat.lt_of_lt_of_le hk hframe)
  rw [restoredState]
  refine ⟨hsp.trans (push_sp ..), ?_, hstack⟩
  intro r hr
  have hesp : r ≠ .esp := by
    rintro rfl
    exact absurd hr (by decide)
  by_cases hsaved : r ∈ savedRegs
  · rw [hregs r hsaved, push_reg _ s hesp]
  · have huntouched := (List.mem_append.mp hr).resolve_left hsaved
    rw [hother r hesp hsaved, mainInterruptHandler_reg hesp,
      (handled_keeps hkeep).registers _ r huntouched, entryState, push_reg _ _ hesp,
      savedState_reg hesp]

theorem restoredState_mem :
    (restoredState services ret s).mem = (handled services (entryState ret s)).mem := by
  rw [restoredState, restore_mem, mainInterruptHandler_mem]

theorem beforeIret_mem :
    (beforeIret services ret s).mem = (handled services (entryState ret s)).mem := by
  rw [beforeIret, sti_mem, addEsp_mem, pop_mem, restoredState_mem]

theorem beforeIret_reg {r : Reg} (hr : r ∈ savedRegs ++ untouched) :
    (beforeIret services ret s).reg r = (restoredState services ret s).reg r := by
  have hne : r ≠ .esp ∧ r ≠ .eflags := by
    constructor
    all_goals
      rintro rfl
      exact absurd hr (by decide)
  rw [beforeIret, sti_reg _ hne.2, addEsp_reg _ _ hne.1, pop_other _ hne.1 hne.1]

/-- **The common code.** Over a vector and an error code it gives back every register but
    `eip` and `eflags`, with the stack pointer behind the two words. -/
theorem callGenericHandler_saves (ret : UInt32) (hkeep : services.Keep)
    (h : Stacked .esp s (n :: e :: l)) (hl : l.length ≤ 5) :
    Stacked .esp (beforeIret services ret s) l ∧
      (beforeIret services ret s).reg .esp = s.reg .esp + 8 ∧
      ∀ r ∈ savedRegs ++ untouched, (beforeIret services ret s).reg r = s.reg r := by
  have hlen : (n :: e :: l).length ≤ 7 := by
    simp only [List.length_cons]
    omega
  obtain ⟨hsp, hregs, htop, hrest⟩ := restoredState_spec ret hkeep h hlen
  -- the word that was pushed first is the address behind it
  have hesp : (beforeIret services ret s).reg .esp = s.reg .esp + 8 := by
    rw [beforeIret, sti_reg _ (by decide), addEsp_esp, pop_self, htop]
  refine ⟨?_, hesp, fun r hr => (beforeIret_reg hr).trans (hregs r hr)⟩
  have h8 : s.reg .esp + 8 = s.reg .esp - 4 + 4 + 4 + 4 := by
    rw [UInt32.sub_add_cancel, UInt32.add_assoc]
    rfl
  rw [Stacked, hesp, beforeIret_mem, ← restoredState_mem, h8, ← hsp]
  exact hrest.2.2

/-! ## `iret` -/

variable {ip code flags outerEsp outerSs : UInt32}

theorem toOuterStack_reg {r : Reg} (s : Cpu) (hesp : r ≠ .esp) (hss : r ≠ .ss) :
    (toOuterStack s).reg r = s.reg r := by
  simp only [toOuterStack, Function.update_of_ne hss, Function.update_of_ne hesp]

theorem toOuterStack_esp (s : Cpu) : (toOuterStack s).reg .esp = s.mem (s.reg .esp) := by
  simp only [toOuterStack, Function.update_of_ne (show Reg.esp ≠ Reg.ss by decide),
    Function.update_self]

theorem toOuterStack_ss (s : Cpu) : (toOuterStack s).reg .ss = s.mem (s.reg .esp + 4) := by
  simp only [toOuterStack, Function.update_self]

theorem iret_mem (s : Cpu) : (iret s).mem = s.mem := by
  rw [iret]
  split_ifs
  · exact restore_mem ..
  · exact restore_mem ..

/-- The three words every `iret` pops. -/
abbrev returnRegs : List Reg := [.eip, .cs, .eflags]

/-- The values a frame has for them. -/
def returnValue (ip code flags : UInt32) : Reg → UInt32
  | .eip => ip
  | .cs => code
  | _ => flags

theorem iret_pops (h : Stacked .esp s (ip :: code :: flags :: l)) :
    (∀ r ∈ returnRegs, (s.restore .esp returnRegs).reg r = returnValue ip code flags r) ∧
      Stacked .esp (s.restore .esp returnRegs) l ∧
      ∀ q, q ≠ .esp → q ∉ returnRegs → (s.restore .esp returnRegs).reg q = s.reg q :=
  Stacked.restore h (by decide) (by decide)

/-- A return to the same privilege. -/
theorem iret_inner (h : Stacked .esp s (ip :: code :: flags :: l))
    (hp : ¬ privilege (s.reg .cs) < privilege code) : iret s = s.restore .esp returnRegs := by
  have hcs := (iret_pops h).1 .cs (by decide)
  rw [iret, hcs, returnValue, if_neg hp]

/-- A return to less privilege. -/
theorem iret_outer (h : Stacked .esp s (ip :: code :: flags :: l))
    (hp : privilege (s.reg .cs) < privilege code) :
    iret s = toOuterStack (s.restore .esp returnRegs) := by
  have hcs := (iret_pops h).1 .cs (by decide)
  rw [iret, hcs, returnValue, if_pos hp]

/-- The top of the stack is the instruction that is returned to, whatever lies below. -/
theorem iret_eip (h : Stacked .esp s (w :: l)) : (iret s).reg .eip = w := by
  have hpop : (s.restore .esp returnRegs).reg .eip = w := by
    show (((s.pop .esp .eip).pop .esp .cs).pop .esp .eflags).reg .eip = w
    rw [pop_other _ (by decide) (by decide), pop_other _ (by decide) (by decide), pop_self, h.1]
  rw [iret]
  split_ifs
  · rw [toOuterStack_reg _ (by decide) (by decide), hpop]
  · exact hpop

/-! ## The processor's frame -/

variable {errorCode : Option UInt32}

/-- The stack of the interrupted code, when the interrupt is taken on another one. -/
def outerWords (s : Cpu) : List UInt32 :=
  if privilege (s.reg .cs) = 0 then [] else [s.reg .esp, s.reg .ss]

/-- The frame the processor pushes, without the error code. -/
def frameOf (s : Cpu) : List UInt32 := s.reg .eip :: s.reg .cs :: s.reg .eflags :: outerWords s

theorem outerWords_length (s : Cpu) : (outerWords s).length ≤ 2 := by
  rw [outerWords]
  split_ifs
  · exact Nat.zero_le _
  · exact Nat.le_refl _

theorem frameOf_length (s : Cpu) : (frameOf s).length ≤ 5 := by
  have houter := outerWords_length s
  simp only [frameOf, List.length_cons]
  omega

/-- The top of the stack behind the words of the interrupted code's own stack. -/
def frameTop (task : TaskState) (s : Cpu) : UInt32 := (onKernelStack task s).reg .esp

theorem onKernelStack_inner (hp : privilege (s.reg .cs) = 0) : onKernelStack task s = s :=
  if_pos hp

theorem switchStack_esp (task : TaskState) (s : Cpu) :
    (switchStack task s).reg .esp = task.esp0 := by
  simp only [switchStack, Function.update_self]

theorem switchStack_reg {r : Reg} (hesp : r ≠ .esp) (hss : r ≠ .ss) :
    (switchStack task s).reg r = s.reg r := by
  simp only [switchStack, Function.update_of_ne hesp, Function.update_of_ne hss]

theorem onKernelStack_reg {r : Reg} (hesp : r ≠ .esp) (hss : r ≠ .ss) :
    (onKernelStack task s).reg r = s.reg r := by
  rw [onKernelStack]
  split_ifs
  · rfl
  · rw [pushAll_reg _ hesp, switchStack_reg hesp hss]

theorem onKernelStack_stacked (task : TaskState) (s : Cpu) :
    Stacked .esp (onKernelStack task s) (outerWords s) := by
  rw [onKernelStack, outerWords]
  split_ifs
  · trivial
  · have hempty : ∀ t : Cpu, Stacked .esp t [] := fun _ => trivial
    have hlen : ([] : List UInt32).length + [s.reg .ss, s.reg .esp].length < 1073741824 := by
      simp only [List.length_cons, List.length_nil]
      omega
    exact (hempty _).pushAll hlen

theorem enterGate_esp (s : Cpu) : (enterGate offset selector s).reg .esp = s.reg .esp := by
  simp only [enterGate, Function.update_of_ne (show Reg.esp ≠ Reg.eflags by decide),
    Function.update_of_ne (show Reg.esp ≠ Reg.cs by decide),
    Function.update_of_ne (show Reg.esp ≠ Reg.eip by decide)]

theorem enterGate_reg {r : Reg} (s : Cpu) (hr : r ∉ returnRegs) :
    (enterGate offset selector s).reg r = s.reg r := by
  simp only [List.mem_cons, List.not_mem_nil, or_false, not_or] at hr
  simp only [enterGate, Function.update_of_ne hr.1, Function.update_of_ne hr.2.1,
    Function.update_of_ne hr.2.2]

theorem enterGate_cs (s : Cpu) : (enterGate offset selector s).reg .cs = selector := by
  simp only [enterGate, Function.update_of_ne (show Reg.cs ≠ Reg.eflags by decide),
    Function.update_self]

theorem interruptWords_reverse (errorCode : Option UInt32) (s : Cpu) :
    (interruptWords errorCode s).reverse ++ outerWords s
      = errorCode.toList ++ frameOf s := by
  cases errorCode <;> rfl

theorem deliver_stacked (task : TaskState) (offset selector : UInt32)
    (errorCode : Option UInt32) (s : Cpu) :
    Stacked .esp (deliver task offset selector errorCode s) (errorCode.toList ++ frameOf s) := by
  have hlen : (outerWords s).length + (interruptWords errorCode s).length < 1073741824 := by
    have houter := outerWords_length s
    have hcode : errorCode.toList.length ≤ 1 := by
      cases errorCode with
      | none => exact Nat.zero_le _
      | some e => exact Nat.le_refl _
    simp only [interruptWords, List.length_append, List.length_cons, List.length_nil]
    omega
  rw [← interruptWords_reverse, Stacked, deliver, enterGate_esp]
  exact (onKernelStack_stacked task s).pushAll hlen

theorem deliver_esp (task : TaskState) (offset selector : UInt32)
    (errorCode : Option UInt32) (s : Cpu) : (deliver task offset selector errorCode s).reg .esp
    = frameTop task s - 4 * UInt32.ofNat (interruptWords errorCode s).length := by
  rw [deliver, enterGate_esp, pushAll_sp, frameTop]

theorem deliver_reg {r : Reg} (hr : r ∉ returnRegs) (hesp : r ≠ .esp) :
    (deliver task offset selector errorCode s).reg r = (onKernelStack task s).reg r := by
  rw [deliver, enterGate_reg _ hr, pushAll_reg _ hesp]

/-! ## The stub of a vector -/

/-- What a stub pushes. -/
def stubPush (n : UInt32) (s : Cpu) : Cpu :=
  if withErrorCode n then s.push .esp n else (s.push .esp 0).push .esp n

theorem execAll_cons (handler : Cpu → Cpu) (i : Instr) (code : List Instr) (s : Cpu) :
    execAll handler ret (i :: code) s = execAll handler ret code (i.exec handler ret s) := rfl

theorem interruptHandler_eq (services : Services) (ret n : UInt32) (s : Cpu) :
    execAll (mainInterruptHandler services) ret (interruptHandler n) s
      = iret (beforeIret services ret (stubPush n s)) := by
  rw [← callGenericHandler_eq, interruptHandler, stubPush]
  split_ifs
  · rw [errorCodeInterruptHandler, execAll_cons, Instr.exec]
  · rw [noErrorCodeInterruptHandler, List.cons_append, List.cons_append, List.nil_append,
      execAll_cons, execAll_cons, Instr.exec, Instr.exec]

theorem stubPush_reg {r : Reg} (hr : r ≠ .esp) : (stubPush n s).reg r = s.reg r := by
  rw [stubPush]
  split_ifs
  · exact push_reg _ _ hr
  · rw [push_reg _ _ hr, push_reg _ _ hr]

/-- The state `call_generic_handler` is entered in. -/
def genericState (task : TaskState) (offset selector n : UInt32) (errorCode : Option UInt32)
    (s : Cpu) : Cpu :=
  stubPush n (deliver task offset selector errorCode s)

/-- When the processor and the stub agree there are exactly the vector and an error code on
    the frame. -/
theorem genericState_agrees (task : TaskState) (offset selector : UInt32) (s : Cpu)
    (hagree : errorCode.isSome = withErrorCode n) :
    Stacked .esp (genericState task offset selector n errorCode s)
        (n :: errorCode.getD 0 :: frameOf s) ∧
      (genericState task offset selector n errorCode s).reg .esp = frameTop task s - 20 := by
  have hstack := deliver_stacked task offset selector errorCode s
  have hesp := deliver_esp task offset selector errorCode s
  have hframe := frameOf_length s
  rw [genericState, stubPush]
  cases errorCode with
  | some e =>
      rw [← hagree, Option.isSome_some, if_pos rfl]
      refine ⟨hstack.push ?_ n, ?_⟩
      · show (e :: frameOf s).length < 1073741823
        rw [List.length_cons]
        omega
      · rw [push_sp, hesp, sub_sub]
        rfl
  | none =>
      rw [← hagree, Option.isSome_none, if_neg Bool.false_ne_true]
      refine ⟨(hstack.push ?_ 0).push ?_ n, ?_⟩
      · show (frameOf s).length < 1073741823
        omega
      · show (0 :: frameOf s).length < 1073741823
        rw [List.length_cons]
        omega
      · rw [push_sp, push_sp, hesp, sub_sub, sub_sub]
        rfl

theorem genericState_reg {r : Reg} (hr : r ∉ returnRegs) (hesp : r ≠ .esp) :
    (genericState task offset selector n errorCode s).reg r = (onKernelStack task s).reg r := by
  rw [genericState, stubPush_reg hesp, deliver_reg hr hesp]

/-! ## What an interrupt does -/

/-- The end of an interrupt in terms of the state before `iret`. -/
theorem interrupt_eq (services : Services) (task : TaskState)
    (ret offset selector n : UInt32) (errorCode : Option UInt32) (s : Cpu) :
    interrupt services task ret offset selector n errorCode s
      = iret (beforeIret services ret (genericState task offset selector n errorCode s)) :=
  interruptHandler_eq services ret n _

theorem reg_kept (r : Reg) : r ∈ returnRegs ∨ r = .esp ∨ r ∈ savedRegs ++ untouched := by
  cases r <;> decide

/-- The registers before `iret`. -/
theorem returning_spec (ret : UInt32) (task : TaskState) (offset : UInt32) (s : Cpu)
    (hkeep : services.Keep) (hagree : errorCode.isSome = withErrorCode n) :
    let b := beforeIret services ret
      (genericState task offset gdtKernelCodeSegmentSelector n errorCode s)
    Stacked .esp b (frameOf s) ∧ b.reg .esp = frameTop task s - 12 ∧
      b.reg .cs = gdtKernelCodeSegmentSelector ∧
      b.reg .ss = (onKernelStack task s).reg .ss ∧
      ∀ r, r ∉ returnRegs → r ≠ .esp → r ≠ .ss → b.reg r = s.reg r := by
  obtain ⟨hstack, hesp⟩ := genericState_agrees task offset gdtKernelCodeSegmentSelector s hagree
  obtain ⟨hframe, hpointer, hregs⟩ :=
    callGenericHandler_saves ret hkeep hstack (frameOf_length s)
  refine ⟨hframe, ?_, ?_, ?_, ?_⟩
  · rw [hpointer, hesp, sub_add]
    rfl
  · rw [hregs .cs (by decide), genericState, stubPush_reg (by decide), deliver, enterGate_cs]
  · rw [hregs .ss (by decide), genericState_reg (by decide) (by decide)]
  · intro r hr hrsp hrss
    have hkept := ((reg_kept r).resolve_left hr).resolve_left hrsp
    rw [hregs r hkept, genericState_reg hr hrsp, onKernelStack_reg hrsp hrss]

theorem returnValue_reg {r : Reg} (hr : r ∈ returnRegs) :
    returnValue (s.reg .eip) (s.reg .cs) (s.reg .eflags) r = s.reg r := by
  rcases List.mem_cons.mp hr with rfl | hr
  · rfl
  rcases List.mem_pair.mp hr with rfl | rfl
  · rfl
  · rfl

/-- The registers come back. -/
theorem interrupt_registers (hkeep : services.Keep)
    (hagree : errorCode.isSome = withErrorCode n) :
    (interrupt services task ret offset gdtKernelCodeSegmentSelector n errorCode s).reg
      = s.reg := by
  obtain ⟨hframe, hesp, hcs, hss, hregs⟩ := returning_spec ret task offset s hkeep hagree
  rw [interrupt_eq]
  set b := beforeIret services ret
    (genericState task offset gdtKernelCodeSegmentSelector n errorCode s) with hb
  obtain ⟨hpopped, hbehind, hothers⟩ := iret_pops hframe
  have hreturn : ∀ r ∈ returnRegs, (b.restore .esp returnRegs).reg r = s.reg r := by
    intro r hr
    rw [hpopped r hr, returnValue_reg hr]
  by_cases hp : privilege (s.reg .cs) = 0
  · have hinner : ¬ privilege (b.reg .cs) < privilege (s.reg .cs) := by
      rw [hcs, hp]
      decide
    rw [iret_inner hframe hinner]
    rw [frameTop, onKernelStack_inner hp] at hesp
    rw [onKernelStack_inner hp] at hss
    funext r
    by_cases hr : r ∈ returnRegs
    · exact hreturn r hr
    by_cases hrsp : r = .esp
    · subst hrsp
      rw [restore_sp (by decide), hesp]
      exact UInt32.sub_add_cancel _ 12
    rw [hothers r hrsp hr]
    by_cases hrss : r = .ss
    · exact hrss ▸ hss
    · exact hregs r hr hrsp hrss
  · have houter : privilege (b.reg .cs) < privilege (s.reg .cs) := by
      rw [hcs]
      exact UInt32.pos_iff_ne_zero.mpr hp
    rw [iret_outer hframe houter]
    rw [outerWords, if_neg hp] at hbehind
    obtain ⟨hsp, hseg, -⟩ := hbehind
    funext r
    by_cases hrsp : r = .esp
    · rw [hrsp, toOuterStack_esp, hsp]
    by_cases hrss : r = .ss
    · rw [hrss, toOuterStack_ss, hseg]
    rw [toOuterStack_reg _ hrsp hrss]
    by_cases hr : r ∈ returnRegs
    · exact hreturn r hr
    · rw [hothers r hrsp hr, hregs r hr hrsp hrss]

/-- The arguments `main_interrupt_handler` is called with. -/
theorem interrupt_arguments (ret : UInt32) (task : TaskState) (offset : UInt32) (s : Cpu)
    (hagree : errorCode.isSome = withErrorCode n) :
    let t := entryState ret
      (genericState task offset gdtKernelCodeSegmentSelector n errorCode s)
    argument t 6 = n ∧
      cpuArgument t
        = { eax := s.reg .eax
            ebx := s.reg .ebx
            ecx := s.reg .ecx
            edx := s.reg .edx
            ebp := s.reg .ebp
            esp := frameTop task s - 20 } ∧
      infoArgument t
        = { errorCode := errorCode.getD 0
            eip := s.reg .eip
            cs := s.reg .cs
            eflags := s.reg .eflags } := by
  obtain ⟨hstack, hesp⟩ := genericState_agrees task offset gdtKernelCodeSegmentSelector s hagree
  have hlen : (n :: errorCode.getD 0 :: frameOf s).length ≤ 7 := by
    have hframe := frameOf_length s
    simp only [List.length_cons]
    omega
  have hargs := entryState_arguments ret hstack hlen
  have hreg : ∀ r, r ∉ returnRegs → r ≠ .esp → r ≠ .ss →
      (genericState task offset gdtKernelCodeSegmentSelector n errorCode s).reg r
        = s.reg r := by
    intro r hr hrsp hrss
    rw [genericState_reg hr hrsp, onKernelStack_reg hrsp hrss]
  have hwords : savedWords (genericState task offset gdtKernelCodeSegmentSelector n errorCode s)
      = [s.reg .eax, s.reg .ebx, s.reg .ecx, s.reg .edx, s.reg .ebp, frameTop task s - 20] := by
    rw [savedWords, hesp, hreg .eax (by decide) (by decide) (by decide),
      hreg .ebx (by decide) (by decide) (by decide),
      hreg .ecx (by decide) (by decide) (by decide),
      hreg .edx (by decide) (by decide) (by decide),
      hreg .ebp (by decide) (by decide) (by decide)]
  have hlist : savedWords
        (genericState task offset gdtKernelCodeSegmentSelector n errorCode s)
          ++ (n :: errorCode.getD 0 :: frameOf s)
      = [s.reg .eax, s.reg .ebx, s.reg .ecx, s.reg .edx, s.reg .ebp, frameTop task s - 20, n,
          errorCode.getD 0, s.reg .eip, s.reg .cs, s.reg .eflags] ++ outerWords s := by
    rw [hwords]
    rfl
  rw [hlist] at hargs
  have hword : ∀ k, (hk : k < 11) →
      argument (entryState ret
          (genericState task offset gdtKernelCodeSegmentSelector n errorCode s)) k
        = [s.reg .eax, s.reg .ebx, s.reg .ecx, s.reg .edx, s.reg .ebp, frameTop task s - 20,
            n, errorCode.getD 0, s.reg .eip, s.reg .cs, s.reg .eflags][k] :=
    fun k hk => holds_iff.mp hargs.left k hk
  refine ⟨hword 6 (by decide), ?_, ?_⟩
  · rw [cpuArgument, hword 0 (by decide), hword 1 (by decide), hword 2 (by decide),
      hword 3 (by decide), hword 4 (by decide), hword 5 (by decide)]
    rfl
  · rw [infoArgument, hword 7 (by decide), hword 8 (by decide), hword 9 (by decide),
      hword 10 (by decide)]
    rfl

/-! ## The whole interrupt -/

/-- The top of the stack an interrupt is taken on. -/
def kernelTop (task : TaskState) (s : Cpu) : UInt32 :=
  if privilege (s.reg .cs) = 0 then s.reg .esp else task.esp0

/-- A word that is not among those an interrupt's frame can take. -/
def outsideFrame (task : TaskState) (s : Cpu) (a : UInt32) : Prop :=
  ∀ k < 14, a ≠ kernelTop task s - 4 * UInt32.ofNat (k + 1)

theorem onKernelStack_grown (task : TaskState) (s : Cpu) :
    ∃ m ≤ 2, Grown .esp (kernelTop task s) m s.mem (onKernelStack task s) := by
  rw [onKernelStack, kernelTop]
  split_ifs with hp
  · exact ⟨0, by decide, .start rfl⟩
  · have hstart : Grown .esp task.esp0 0 s.mem (switchStack task s) :=
      .start (switchStack_esp task s)
    exact ⟨2, by decide, hstart.pushAll [s.reg .ss, s.reg .esp]⟩

theorem stubPush_grown {b : UInt32} {m : ℕ} {mem : UInt32 → UInt32}
    (h : Grown .esp b (m + (interruptWords errorCode s).length) mem t)
    (hagree : errorCode.isSome = withErrorCode n) :
    Grown .esp b (m + 5) mem (stubPush n t) := by
  rw [stubPush]
  cases errorCode with
  | some e =>
      rw [← hagree, Option.isSome_some, if_pos rfl]
      exact h.push n
  | none =>
      rw [← hagree, Option.isSome_none, if_neg Bool.false_ne_true]
      exact (h.push 0).push n

/-- Outside its frame an interrupt has written nothing when the handler is called. -/
theorem entryState_mem (ret offset : UInt32) (hagree : errorCode.isSome = withErrorCode n)
    {a : UInt32} (ha : outsideFrame task s a) :
    (entryState ret (genericState task offset gdtKernelCodeSegmentSelector n errorCode s)).mem a
      = s.mem a := by
  obtain ⟨m, hm, hgrown⟩ := onKernelStack_grown task s
  have hdelivered : Grown .esp _ _ _
      (deliver task offset gdtKernelCodeSegmentSelector errorCode s) :=
    (hgrown.pushAll (interruptWords errorCode s)).congr (enterGate_esp _) rfl
  have hgeneric := stubPush_grown hdelivered hagree
  have hpushed := hgeneric.push
    ((genericState task offset gdtKernelCodeSegmentSelector n errorCode s).reg .esp)
  have hsaved : Grown .esp (kernelTop task s) (m + 5 + 1 + savedRegs.length) s.mem
      (savedState (genericState task offset gdtKernelCodeSegmentSelector n errorCode s)) :=
    hpushed.save (by decide)
  refine (hsaved.push ret).others a ?_
  intro k hk
  refine ha k (Nat.lt_of_lt_of_le hk ?_)
  show m + 5 + 1 + 5 + 1 ≤ 14
  omega

/-- What an interrupt does: the code that is interrupted finds all its registers as they
    were, and the handler is called once, for the vector, with these registers and the frame
    as its arguments. Outside the frame memory changes by what the handler does. -/
structure Serves (services : Services) (task : TaskState) (n : UInt32)
    (errorCode : Option UInt32) (s s' : Cpu) : Prop where
  registers : s'.reg = s.reg
  served : ∃ t : Cpu, s'.mem = (services.serve n
      { eax := s.reg .eax
        ebx := s.reg .ebx
        ecx := s.reg .ecx
        edx := s.reg .edx
        ebp := s.reg .ebp
        esp := frameTop task s - 20 }
      { errorCode := errorCode.getD 0
        eip := s.reg .eip
        cs := s.reg .cs
        eflags := s.reg .eflags } t).mem ∧
    ∀ a, outsideFrame task s a → t.mem a = s.mem a

theorem interrupt_serves (hkeep : services.Keep)
    (hagree : errorCode.isSome = withErrorCode n) :
    Serves services task n errorCode s
      (interrupt services task ret offset gdtKernelCodeSegmentSelector n errorCode s) where
  registers := interrupt_registers hkeep hagree
  served := by
    obtain ⟨hn, hcpu, hinfo⟩ := interrupt_arguments ret task offset s hagree
    refine ⟨_, ?_, fun a ha => entryState_mem ret offset hagree ha⟩
    rw [interrupt_eq, iret_mem, beforeIret_mem, handled, hn, hcpu, hinfo]

/-! ## The error code -/

/-- When the processor and the stub do not agree, `iret` takes the error code for the
    instruction pointer, or the code segment's selector. -/
theorem interrupt_disagrees (hkeep : services.Keep) (hp : privilege (s.reg .cs) = 0)
    (hdiff : errorCode.isSome ≠ withErrorCode n) :
    (interrupt services task ret offset selector n errorCode s).reg .eip
      = errorCode.getD (s.reg .cs) := by
  have hstack := deliver_stacked task offset selector errorCode s
  rw [frameOf, outerWords, if_pos hp] at hstack
  have hshort : ∀ ws : List UInt32, ws.length ≤ 6 → ws.length < 1073741823 := by
    intro ws hws
    omega
  rw [interrupt_eq, genericState, stubPush]
  cases errorCode with
  | some e =>
      have hstub : withErrorCode n = false := by
        rw [Option.isSome_some] at hdiff
        exact Bool.eq_false_of_not_eq_true (Ne.symm hdiff)
      rw [hstub, if_neg Bool.false_ne_true]
      have hgeneric := (hstack.push (hshort _ (by exact Nat.le_add_left 4 2)) 0).push
        (hshort _ (by exact Nat.le_add_left 5 1)) n
      exact iret_eip (callGenericHandler_saves ret hkeep hgeneric (by exact Nat.le_succ 4)).1
  | none =>
      have hstub : withErrorCode n = true := by
        rw [Option.isSome_none] at hdiff
        exact Bool.eq_true_of_not_eq_false (Ne.symm hdiff)
      rw [hstub, if_pos rfl]
      have hgeneric := hstack.push (hshort _ (by exact Nat.le_add_left 3 3)) n
      exact iret_eip (callGenericHandler_saves ret hkeep hgeneric (by exact Nat.le_add_left 2 3)).1

/-- Services that do nothing. -/
def idleServices : Services where
  keyboardIsr := id
  hlt := id
  syscall := fun _ _ => id

theorem idleServices_keep : idleServices.Keep where
  keyboardIsr := ⟨fun _ => rfl, fun _ _ _ => rfl, fun _ _ _ => rfl⟩
  hlt := ⟨fun _ => rfl, fun _ _ _ => rfl, fun _ _ _ => rfl⟩
  syscall _ _ := ⟨fun _ => rfl, fun _ _ _ => rfl, fun _ _ _ => rfl⟩

/-- Kernel code at address 1. -/
def kernelCode : Cpu where
  reg
    | .cs => gdtKernelCodeSegmentSelector
    | .eip => 1
    | _ => 0
  mem := fun _ => 0

/-- **Stubs and error codes.** The stub of a vector serves every interrupt, from the kernel
    and from a user program, exactly when it is written for what the processor does: an
    error code for the vectors 8, 10 to 14, 17 and 30, none for the others. -/
theorem interrupt_serves_iff (n : UInt32) (pushes : Bool) :
    (∀ services : Services, services.Keep → ∀ (task : TaskState) (ret offset : UInt32)
      (errorCode : Option UInt32) (s : Cpu), errorCode.isSome = pushes →
      Serves services task n errorCode s
        (interrupt services task ret offset gdtKernelCodeSegmentSelector n errorCode s)) ↔
    pushes = withErrorCode n := by
  constructor
  · intro h
    by_contra hdiff
    -- without services, and with the error code 0 if there is one
    set code : Option UInt32 := if pushes then some 0 else none with hcode
    have hpushes : code.isSome = pushes := by
      rw [hcode]
      cases pushes <;> rfl
    have hserves := h idleServices idleServices_keep ⟨0, 0⟩ 0 0 code kernelCode hpushes
    have hreturn : code.getD gdtKernelCodeSegmentSelector = 1 := by
      have heip : (interrupt idleServices ⟨0, 0⟩ 0 0 gdtKernelCodeSegmentSelector n code
          kernelCode).reg .eip = code.getD (kernelCode.reg .cs) :=
        interrupt_disagrees idleServices_keep (by decide) (hpushes ▸ hdiff)
      rw [hserves.registers] at heip
      exact heip.symm
    rw [hcode] at hreturn
    cases pushes with
    | true => exact absurd hreturn (by decide)
    | false => exact absurd hreturn (by decide)
  · intro hagree services hkeep task ret offset errorCode s hcode
    exact interrupt_serves hkeep (hcode.trans hagree)

end OsyInterrupt
