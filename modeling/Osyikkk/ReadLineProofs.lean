import Osyikkk.KeyboardDriver
import Mathlib.Data.List.Infix

/-!
# Reading a line while keys are typed

`syscall` with `eax == 4` turns the input on, waits until the Enter key has turned it off,
copies the edit buffer out and resets it. A keyboard interrupt can come between any two of
these steps and between two calls. `Intact` is the invariant of every interleaving: outside
a call the buffer is zero and the input is off, and from the Enter on the line is where the
next step takes it from, because with the input off the interrupt writes the index only.
-/

namespace OsyConsole

/-- The bytes of an edit buffer. -/
abbrev LineBuffer := Fin keyboardBufferSize → UInt8

/-- Where the process that reads lines stands. -/
inductive SyscallStep where
  | outside
  | polling
  | copying
  | delivering
  | resetting
  deriving DecidableEq

/-- The terminal, the system call with its local `buf`, and the lines so far with the number
    of the call each belongs to: those a call delivered, and the contents of the edit buffer
    whenever an Enter was handled. -/
structure ReadLine where
  terminal : Terminal
  step : SyscallStep
  buf : LineBuffer
  calls : ℕ
  delivered : List (ℕ × LineBuffer)
  entered : List (ℕ × LineBuffer)

/-- Before the first call, with any contents of the local buffer. -/
def ReadLine.initial (console : Console) (buf : LineBuffer) : ReadLine where
  terminal := Terminal.initial console
  step := .outside
  buf := buf
  calls := 0
  delivered := []
  entered := []

/-- The next step of the system call; outside a call, the start of one. -/
def ReadLine.kernel (s : ReadLine) : ReadLine :=
  match s.step with
  | .outside =>
      { s with terminal := s.terminal.activate, step := .polling, calls := s.calls + 1 }
  | .polling => if s.terminal.keyboard.keyboardInputOn then s else { s with step := .copying }
  | .copying => { s with buf := s.terminal.keyboard.keyboardBuffer, step := .delivering }
  | .delivering =>
      { s with delivered := s.delivered ++ [(s.calls, s.buf)], step := .resetting }
  | .resetting => { s with terminal := s.terminal.resetKeyboardBuffer, step := .outside }

/-- A keyboard interrupt. One that turns the input off was an Enter. -/
def ReadLine.interrupt (behind : ℕ → UInt8) (s : ReadLine) (scancode : UInt8) : ReadLine :=
  let t := keyboardIsr behind s.terminal scancode
  { s with
    terminal := t
    entered :=
      if s.terminal.keyboard.keyboardInputOn ∧ ¬ t.keyboard.keyboardInputOn then
        s.entered ++ [(s.calls, s.terminal.keyboard.keyboardBuffer)]
      else s.entered }

inductive Event where
  | kernel
  | interrupt (scancode : UInt8)

/-- The state after an event. -/
def ReadLine.next (behind : ℕ → UInt8) (s : ReadLine) : Event → ReadLine
  | .kernel => s.kernel
  | .interrupt scancode => s.interrupt behind scancode

/-- The events without the interrupts that come while the input is off. -/
def heard (behind : ℕ → UInt8) : ReadLine → List Event → List Event
  | _, [] => []
  | s, .kernel :: rest => .kernel :: heard behind s.kernel rest
  | s, .interrupt scancode :: rest =>
      if s.terminal.keyboard.keyboardInputOn then
        .interrupt scancode :: heard behind (s.interrupt behind scancode) rest
      else heard behind (s.interrupt behind scancode) rest

/-! ## The interrupt -/

variable {behind : ℕ → UInt8} {t : Terminal} {s s' : ReadLine} {scancode : UInt8}

/-- Only the Enter branch turns the input off, and it leaves the buffer as it is. -/
theorem pressed_enter {row col c : UInt8} (hon : t.keyboard.keyboardInputOn = true)
    (hoff : (t.pressed row col scancode c).keyboard.keyboardInputOn = false) :
    (t.pressed row col scancode c).keyboard.keyboardBuffer = t.keyboard.keyboardBuffer := by
  by_cases hn : c = charNewline
  · subst hn
    have hback : charNewline ≠ charBackspace := by decide
    have hesc : charNewline ≠ scancodeEsc := by decide
    simp only [Terminal.pressed, hback, false_and, if_false, if_true, if_neg hesc]
    rfl
  · have hstill : (t.pressed row col scancode c).keyboard.keyboardInputOn = true := by
      unfold Terminal.pressed
      simp only [if_neg hn]
      split_ifs <;> exact hon
    rw [hstill] at hoff
    exact absurd hoff (by decide)

theorem keyboardIsr_enter (hon : t.keyboard.keyboardInputOn = true)
    (hoff : (keyboardIsr behind t scancode).keyboard.keyboardInputOn = false) :
    (keyboardIsr behind t scancode).keyboard.keyboardBuffer = t.keyboard.keyboardBuffer := by
  simp only [keyboardIsr, hon, Bool.not_true, Bool.false_eq_true, if_false] at hoff ⊢
  split_ifs at hoff ⊢ with hkey hnew
  · rw [pressed_enter _ hoff]
    · exact modifiers_keyboardBuffer _ _
    · exact (modifiers_keyboardInputOn _ _).trans hon
  · exact modifiers_keyboardBuffer _ _
  · exact modifiers_keyboardBuffer _ _

/-! ## The invariant -/

/-- The edit buffer is empty and its index is at the start. -/
structure EmptyLine (kb : KeyboardDriverState) : Prop where
  buffer : kb.keyboardBuffer = fun _ => 0
  index : kb.bufferIndex = 0

/-- Where the line of an Enter is until it is delivered. -/
def Intact (s : ReadLine) : Prop :=
  s.delivered.map Prod.fst = List.range' 1 s.delivered.length ∧
  match s.step with
  | .outside =>
      s.terminal.keyboard.keyboardInputOn = false ∧ EmptyLine s.terminal.keyboard ∧
        s.calls = s.delivered.length ∧ s.entered = s.delivered
  | .polling =>
      s.calls = s.delivered.length + 1 ∧
        if s.terminal.keyboard.keyboardInputOn then s.entered = s.delivered
        else s.entered = s.delivered ++ [(s.calls, s.terminal.keyboard.keyboardBuffer)]
  | .copying =>
      s.terminal.keyboard.keyboardInputOn = false ∧ s.calls = s.delivered.length + 1 ∧
        s.entered = s.delivered ++ [(s.calls, s.terminal.keyboard.keyboardBuffer)]
  | .delivering =>
      s.terminal.keyboard.keyboardInputOn = false ∧ s.calls = s.delivered.length + 1 ∧
        s.entered = s.delivered ++ [(s.calls, s.buf)]
  | .resetting =>
      s.terminal.keyboard.keyboardInputOn = false ∧ s.calls = s.delivered.length ∧
        s.entered = s.delivered

theorem initial_intact (console : Console) (buf : LineBuffer) :
    Intact (.initial console buf) := ⟨rfl, rfl, ⟨rfl, rfl⟩, rfl, rfl⟩

theorem range'_snoc (n : ℕ) : List.range' 1 n ++ [n + 1] = List.range' 1 (n + 1) := by
  rw [List.range'_concat, Nat.one_mul, Nat.add_comm]

theorem kernel_intact (h : Intact s) : Intact s.kernel := by
  obtain ⟨hcalls, h⟩ := h
  unfold ReadLine.kernel
  cases hstep : s.step with
  | outside =>
      rw [hstep] at h
      obtain ⟨-, -, hcount, hentered⟩ := h
      exact ⟨hcalls, congrArg (· + 1) hcount, hentered⟩
  | polling =>
      rw [hstep] at h
      obtain ⟨hcount, hentered⟩ := h
      by_cases hon : s.terminal.keyboard.keyboardInputOn
      · simp only [if_pos hon]
        rw [if_pos hon] at hentered
        refine ⟨hcalls, ?_⟩
        rw [hstep]
        exact ⟨hcount, by rwa [if_pos hon]⟩
      · simp only [if_neg hon]
        rw [if_neg hon] at hentered
        exact ⟨hcalls, Bool.eq_false_of_not_eq_true hon, hcount, hentered⟩
  | copying =>
      rw [hstep] at h
      exact ⟨hcalls, h⟩
  | delivering =>
      rw [hstep] at h
      obtain ⟨hoff, hcount, hentered⟩ := h
      refine ⟨?_, hoff, ?_, hentered⟩
      · simp only [List.map_append, hcalls, List.map_cons, List.map_nil, List.length_append,
          List.length_singleton, hcount]
        exact range'_snoc _
      · simp only [List.length_append, List.length_singleton, hcount]
  | resetting =>
      rw [hstep] at h
      obtain ⟨hoff, hcount, hentered⟩ := h
      exact ⟨hcalls, hoff, ⟨rfl, rfl⟩, hcount, hentered⟩

/-- An interrupt while the input is off changes the index only. -/
theorem interrupt_off (h : s.terminal.keyboard.keyboardInputOn = false) :
    s.interrupt behind scancode
      = { s with terminal := { s.terminal with
            keyboard := { s.terminal.keyboard with bufferIndex := 0 } } } := by
  simp only [ReadLine.interrupt, keyboardIsr_off h, h, Bool.false_eq_true, false_and, if_false]

/-- The input is on only while the call polls. -/
theorem Intact.polling (h : Intact s) (hon : s.terminal.keyboard.keyboardInputOn = true) :
    s.step = .polling ∧ s.calls = s.delivered.length + 1 ∧ s.entered = s.delivered := by
  obtain ⟨-, h⟩ := h
  cases hstep : s.step with
  | polling =>
      rw [hstep] at h
      obtain ⟨hcount, hentered⟩ := h
      rw [if_pos hon] at hentered
      exact ⟨rfl, hcount, hentered⟩
  | outside | copying | delivering | resetting =>
      rw [hstep] at h
      exact absurd (h.1.symm.trans hon) (by decide)

/-- With the input off, the contents of the index is of no account. -/
theorem Intact.interrupt_off (h : Intact s) (hoff : s.terminal.keyboard.keyboardInputOn = false) :
    Intact (s.interrupt behind scancode) := by
  rw [OsyConsole.interrupt_off hoff]
  obtain ⟨hcalls, h⟩ := h
  refine ⟨hcalls, ?_⟩
  cases hstep : s.step with
  | outside =>
      rw [hstep] at h
      obtain ⟨-, hempty, hrest⟩ := h
      exact ⟨hoff, ⟨hempty.buffer, rfl⟩, hrest⟩
  | polling | copying | delivering | resetting =>
      rw [hstep] at h
      exact h

theorem Intact.interrupt_on (h : Intact s) (hon : s.terminal.keyboard.keyboardInputOn = true) :
    Intact (s.interrupt behind scancode) := by
  obtain ⟨hstep, hcount, hentered⟩ := h.polling hon
  refine ⟨h.1, ?_⟩
  have hstep' : (s.interrupt behind scancode).step = .polling := hstep
  rw [hstep']
  refine ⟨hcount, ?_⟩
  show if (keyboardIsr behind s.terminal scancode).keyboard.keyboardInputOn = true then _ else _
  by_cases hstill : (keyboardIsr behind s.terminal scancode).keyboard.keyboardInputOn = true
  · have hnot : ¬ (s.terminal.keyboard.keyboardInputOn = true ∧
        ¬ (keyboardIsr behind s.terminal scancode).keyboard.keyboardInputOn = true) :=
      fun hh => hh.2 hstill
    rw [if_pos hstill]
    simp only [ReadLine.interrupt, if_neg hnot]
    exact hentered
  · -- the Enter: the line is what the buffer holds, and keeps holding
    have hoff := Bool.eq_false_of_not_eq_true hstill
    have henter : s.terminal.keyboard.keyboardInputOn = true ∧
        ¬ (keyboardIsr behind s.terminal scancode).keyboard.keyboardInputOn = true :=
      ⟨hon, hstill⟩
    rw [if_neg hstill]
    simp only [ReadLine.interrupt, if_pos henter, keyboardIsr_enter hon hoff, hentered]

theorem next_intact (s : ReadLine) (event : Event) (h : Intact s) :
    Intact (s.next behind event) := by
  cases event with
  | kernel => exact kernel_intact h
  | interrupt scancode =>
      by_cases hon : s.terminal.keyboard.keyboardInputOn = true
      · exact h.interrupt_on hon
      · exact h.interrupt_off (Bool.eq_false_of_not_eq_true hon)

theorem events_intact (h : Intact s) (events : List Event) :
    Intact (events.foldl (ReadLine.next behind) s) := by
  induction events generalizing s with
  | nil => exact h
  | cons event rest ih => exact ih (next_intact s event h)

/-- Every delivered line is the one that was entered in its call; at most one is on its
    way. -/
theorem Intact.lines (h : Intact s) :
    s.delivered <+: s.entered ∧ s.entered.length ≤ s.delivered.length + 1 ∧
      s.entered.map Prod.fst = List.range' 1 s.entered.length := by
  have hcases : s.entered = s.delivered ∨
      ∃ line, s.entered = s.delivered ++ [(s.delivered.length + 1, line)] := by
    obtain ⟨-, h⟩ := h
    cases hstep : s.step with
    | outside =>
        rw [hstep] at h
        exact Or.inl h.2.2.2
    | polling =>
        rw [hstep] at h
        obtain ⟨hcount, hentered⟩ := h
        split at hentered
        · exact Or.inl hentered
        · exact Or.inr ⟨_, hcount ▸ hentered⟩
    | copying | delivering =>
        rw [hstep] at h
        exact Or.inr ⟨_, h.2.1 ▸ h.2.2⟩
    | resetting =>
        rw [hstep] at h
        exact Or.inl h.2.2
  rcases hcases with heq | ⟨line, heq⟩
  · rw [heq]
    exact ⟨List.prefix_rfl, Nat.le_succ _, h.1⟩
  · rw [heq]
    refine ⟨List.prefix_append _ _, ?_, ?_⟩
    · rw [List.length_append, List.length_singleton]
    · rw [List.map_append, h.1, List.length_append, List.length_singleton]
      exact range'_snoc _

/-! ## What is typed while nobody listens -/

/-- The state with another index. -/
def ReadLine.withIndex (s : ReadLine) (i : UInt8) : ReadLine :=
  { s with terminal := { s.terminal with
      keyboard := { s.terminal.keyboard with bufferIndex := i } } }

/-- Two states that differ at most in the index, and not while the input is on. -/
def Alike (s s' : ReadLine) : Prop :=
  s' = s ∨ (s.terminal.keyboard.keyboardInputOn = false ∧ ∃ i, s' = s.withIndex i)

theorem Alike.lines (h : Alike s s') : s'.delivered = s.delivered ∧ s'.entered = s.entered := by
  rcases h with rfl | ⟨-, i, rfl⟩ <;> exact ⟨rfl, rfl⟩

theorem Alike.on (h : Alike s s') (hon : s.terminal.keyboard.keyboardInputOn = true) : s' = s := by
  rcases h with rfl | ⟨hoff, -⟩
  · rfl
  · exact absurd (hoff.symm.trans hon) (by decide)

/-- No step of the call looks at the index: a call starts with 0 in it. -/
theorem Alike.kernel (h : Alike s s') (hs : Intact s) (hs' : Intact s') :
    Alike s.kernel s'.kernel := by
  rcases h with rfl | ⟨hoff, i, rfl⟩
  · exact Or.inl rfl
  cases hstep : s.step with
  | outside =>
      obtain ⟨-, hs⟩ := hs
      obtain ⟨-, hs'⟩ := hs'
      have hstep' : (s.withIndex i).step = .outside := hstep
      rw [hstep] at hs
      rw [hstep'] at hs'
      have hi : i = s.terminal.keyboard.bufferIndex := hs'.2.1.index.trans hs.2.1.index.symm
      rw [hi]
      exact Or.inl rfl
  | polling =>
      refine Or.inr ⟨?_, i, ?_⟩
      · simp only [ReadLine.kernel, hstep, hoff, Bool.false_eq_true, if_false]
      · simp only [ReadLine.kernel, ReadLine.withIndex, hstep, hoff, Bool.false_eq_true, if_false]
  | copying | delivering =>
      refine Or.inr ⟨?_, i, ?_⟩
      · simp only [ReadLine.kernel, hstep, hoff]
      · simp only [ReadLine.kernel, ReadLine.withIndex, hstep]
  | resetting =>
      refine Or.inl ?_
      simp only [ReadLine.kernel, ReadLine.withIndex, hstep]
      rfl

/-- An interrupt that is not heard leaves a state like the one before. -/
theorem Alike.unheard (h : Alike s s') (hoff : s.terminal.keyboard.keyboardInputOn = false) :
    Alike (s.interrupt behind scancode) s' := by
  rw [OsyConsole.interrupt_off hoff]
  refine Or.inr ⟨hoff, ?_⟩
  rcases h with rfl | ⟨-, i, rfl⟩
  · exact ⟨s'.terminal.keyboard.bufferIndex, rfl⟩
  · exact ⟨i, rfl⟩

theorem heard_alike (h : Alike s s') (hs : Intact s) (hs' : Intact s') (events : List Event) :
    Alike (events.foldl (ReadLine.next behind) s)
      ((heard behind s events).foldl (ReadLine.next behind) s') := by
  induction events generalizing s s' with
  | nil => exact h
  | cons event rest ih =>
      cases event with
      | kernel => exact ih (h.kernel hs hs') (kernel_intact hs) (kernel_intact hs')
      | interrupt scancode =>
          have hnext : Intact (s.interrupt behind scancode) :=
            next_intact s (.interrupt scancode) hs
          rw [heard]
          by_cases hon : s.terminal.keyboard.keyboardInputOn = true
          · rw [if_pos hon]
            obtain rfl := h.on hon
            exact ih (Or.inl rfl) hnext hnext
          · rw [if_neg hon]
            exact ih (h.unheard (Bool.eq_false_of_not_eq_true hon)) hnext hs'

/-! ## Every interleaving -/

/-- The state after a list of events, from the start. -/
def afterEvents (behind : ℕ → UInt8) (console : Console) (buf : LineBuffer)
    (events : List Event) : ReadLine :=
  events.foldl (ReadLine.next behind) (.initial console buf)

/-- **No line is torn, mixed or carried over.** -/
theorem readLine_intact (behind : ℕ → UInt8) (console : Console) (buf : LineBuffer)
    (events : List Event) :
    let s := afterEvents behind console buf events
    let s' := afterEvents behind console buf (heard behind (.initial console buf) events)
    (s.delivered <+: s.entered ∧ s.entered.length ≤ s.delivered.length + 1 ∧
      s.entered.map Prod.fst = List.range' 1 s.entered.length) ∧
    (s.step = .outside → EmptyLine s.terminal.keyboard ∧ EmptyLine s.kernel.terminal.keyboard) ∧
    s'.delivered = s.delivered ∧ s'.entered = s.entered := by
  intro s s'
  have hinit := initial_intact console buf
  have hintact : Intact s := events_intact hinit events
  refine ⟨hintact.lines, ?_, ?_⟩
  · intro hstep
    obtain ⟨-, h⟩ := hintact
    rw [hstep] at h
    obtain ⟨-, hempty, -⟩ := h
    refine ⟨hempty, ?_⟩
    simp only [ReadLine.kernel, hstep]
    exact ⟨hempty.buffer, hempty.index⟩
  · exact (heard_alike (Or.inl rfl) hinit hinit events).lines

/-- A call that reads `h`, with keys before and after it. -/
example : (afterEvents (fun _ => 0) Console.blank (fun _ => 0)
    [.interrupt 30, .kernel, .interrupt 35, .interrupt 28, .kernel, .interrupt 31, .kernel,
      .kernel, .kernel, .interrupt 32]).delivered.map
        (fun line => (line.1, (List.ofFn line.2).take 3)) = [(1, [104, 0, 0])] := by
  decide

end OsyConsole
