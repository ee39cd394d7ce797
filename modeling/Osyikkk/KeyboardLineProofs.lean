import Osyikkk.InterruptController

/-!
# What the keyboard's interrupt hears

With the masks of `activate_keyboard_interrupt` the keyboard's line is the only one the
processor is ever asked to serve, and one command ends it (`offered_eq`, `Sound`). Every
byte that is typed is then heard once and in order, or still on its way (`keys_in_order`).

A byte is lost to the line in one way only. An interrupt that finds the input off leaves the
byte at the port, the controller holds its line up, and an edge triggered request needs an
edge: no later key is ever heard (`hears_again_iff`).
-/

namespace OsyConsole

open PartialRun

variable {behind : ℕ → UInt8} {s s' : KeyLine} {e : LineEvent}

/-! ## The controllers as they are programmed -/

/-- The controllers behind `pic_remap` and `activate_keyboard_interrupt`. -/
def programmed : Pics where
  master :=
    { irr := fun _ => false
      isr := fun _ => false
      imr := 0xFD
      vectorBase := 0x20
      cascade := 4
      mode := 1
      step := .done }
  slave :=
    { irr := fun _ => false
      isr := fun _ => false
      imr := 0xFF
      vectorBase := 0x28
      cascade := 2
      mode := 1
      step := .done }

theorem pics_setUp (p : Pics) : (picRemap p).bind activateKeyboardInterrupt = some programmed :=
  rfl

/-- With the keyboard's line alone unmasked, it is the only one that is asked for. -/
theorem request_eq {p : Pic} (himr : p.imr = 0xFD) :
    p.request = if p.irr 1 && !p.isr 0 && !p.isr 1 then some 1 else none := by
  have hmask : ∀ i < 8, p.masked i = !decide (i = 1) := by
    rw [show p.masked = fun i => p.imr.toNat.testBit i from rfl, himr]
    decide
  have hfirst : ((List.range 8).find? fun i => p.irr i && !p.masked i)
      = if p.irr 1 then some 1 else none := by
    have hlines : List.range 8 = [0, 1, 2, 3, 4, 5, 6, 7] := rfl
    rw [hlines]
    cases hkey : p.irr 1 <;> simp [hmask, hkey]
  rw [Pic.request, hfirst]
  cases p.irr 1 with
  | false => rfl
  | true =>
      have hall : (List.range 2).all (fun j => !p.isr j) = (!p.isr 0 && !p.isr 1) := by
        simp [List.range_succ]
      simp only [if_true, Option.filter, hall, Bool.true_and]

/-! ## The invariant -/

/-- What every state has: the masks, the one line that may be in service, and a byte at the
    port behind every request of the keyboard. -/
structure Sound (s : KeyLine) : Prop where
  mask : s.pics.master.imr = 0xFD
  base : s.pics.master.vectorBase = 0x20
  service : ∀ i, s.pics.master.isr i = (decide (i = 1) && s.acking)
  latched : s.pics.master.irr 1 = true → s.full = true

theorem initial_sound (pics : Pics) (data : UInt8) (console : Console) (buf : LineBuffer) :
    Sound (.initial pics data console buf) where
  mask := rfl
  base := rfl
  service _ := (Bool.and_false _).symm
  latched := fun h => nomatch h

/-- The controllers when the processor has taken the keyboard's line. -/
def Pics.takeKeyboard (p : Pics) : Pics := { p with master := p.master.take 1 }

/-- **The only interrupt.** -/
theorem offered_eq (h : Sound s) :
    s.offered = if s.pics.master.irr 1 && !s.acking then some (0x21, s.pics.takeKeyboard)
      else none := by
  rw [KeyLine.offered, Pics.interrupt, request_eq h.mask, h.service 0, h.service 1]
  cases hacking : s.acking with
  | true => rw [Bool.not_true, Bool.and_false]; rfl
  | false =>
      cases hkey : s.pics.master.irr 1 with
      | false => rfl
      | true =>
          simp only [Bool.and_false, Bool.not_false, Bool.and_true, if_true, Option.map_some,
            Bool.false_eq_true, if_false, h.base]
          rfl

/-- The end of an interrupt ends the keyboard's. -/
theorem picAck_eq (h : ∀ i, s.pics.master.isr i = decide (i = 1)) :
    picAck irqKeyboard s.pics
      = some { s.pics with master := { s.pics.master with isr := fun _ => false } } := by
  have hfirst : (List.range 8).find? s.pics.master.isr = some 1 := by
    have hsame : s.pics.master.isr = fun i => decide (i = 1) := funext h
    rw [hsame]
    rfl
  have hnone : Function.update s.pics.master.isr 1 false = fun _ => false := by
    funext i
    by_cases hi : i = 1
    · rw [hi, Function.update_self]
    · rw [Function.update_of_ne hi, h i]
      exact decide_eq_false hi
  have hend : s.pics.master.endOfInterrupt
      = { s.pics.master with isr := fun _ => false } := by
    rw [Pic.endOfInterrupt, hfirst]
    simp only [hnone]
  have hport : s.pics.out 0x20 picAckCommand
      = some { s.pics with master := s.pics.master.endOfInterrupt } := rfl
  rw [picAck, if_neg (by decide)]
  simp only [Option.bind_eq_bind, Option.bind_some, hport, hend]

/-- The state in which `keyboard_isr` has served the keyboard's line. -/
def KeyLine.serve (behind : ℕ → UInt8) (s : KeyLine) : KeyLine :=
  KeyLine.handle behind
    { s with pics := s.pics.takeKeyboard, vectors := s.vectors ++ [0x21] } 0x21

/-- With the input on the byte is read, with the input off it stays at the port. -/
theorem serve_on (behind : ℕ → UInt8) (hon : s.reader.terminal.keyboard.keyboardInputOn = true) :
    (s.serve behind).heard = s.heard ++ [s.data] ∧ (s.serve behind).full = false :=
  ⟨if_pos hon, if_pos hon⟩

theorem serve_off (behind : ℕ → UInt8)
    (hoff : ¬ s.reader.terminal.keyboard.keyboardInputOn = true) :
    (s.serve behind).heard = s.heard ∧ (s.serve behind).full = s.full :=
  ⟨if_neg hoff, if_neg hoff⟩

theorem next_interrupt (h : Sound s) :
    s.next behind .interrupt
      = if s.pics.master.irr 1 && !s.acking then s.serve behind else s := by
  rw [KeyLine.next, offered_eq h]
  cases s.pics.master.irr 1 && !s.acking <;> rfl

theorem next_ack (h : Sound s) :
    s.next behind .ack
      = if s.acking then
          { s with
            pics := { s.pics with master := { s.pics.master with isr := fun _ => false } }
            acking := false }
        else s := by
  rw [KeyLine.next]
  by_cases hacking : s.acking = true
  · have hservice : ∀ i, s.pics.master.isr i = decide (i = 1) := by
      intro i
      rw [h.service i, hacking, Bool.and_true]
    rw [if_pos hacking, if_pos hacking, picAck_eq hservice, Option.getD_some]
  · rw [if_neg hacking, if_neg hacking]

/-- The next byte at the port. -/
def KeyLine.loaded (s : KeyLine) (b : UInt8) (rest : List UInt8) : KeyLine :=
  { s with queue := rest, data := b, full := true, pics := s.pics.raise irqKeyboard }

/-- The controller takes a byte when there is one and its own is read. -/
theorem next_load (behind : ℕ → UInt8) (s : KeyLine) :
    ((s.full = true ∨ s.queue = []) ∧ s.next behind .load = s) ∨
      ∃ b rest, s.full = false ∧ s.queue = b :: rest ∧
        s.next behind .load = s.loaded b rest := by
  rw [KeyLine.next]
  cases s.queue with
  | nil => exact Or.inl ⟨Or.inr rfl, rfl⟩
  | cons b rest =>
      by_cases hfull : s.full = true
      · exact Or.inl ⟨Or.inl hfull, if_pos hfull⟩
      · exact Or.inr ⟨b, rest, Bool.eq_false_of_not_eq_true hfull, rfl, if_neg hfull⟩

/-- A line that goes up is latched, and nothing else of the master changes. -/
theorem raise_master (p : Pics) (line : ℕ) :
    (p.raise line).master.imr = p.master.imr ∧
      (p.raise line).master.vectorBase = p.master.vectorBase ∧
      (p.raise line).master.isr = p.master.isr ∧
      ((p.raise line).master.irr 1 = true ↔ p.master.irr 1 = true ∨ line = 1) := by
  rw [Pics.raise]
  by_cases hline : line < 8
  · rw [if_pos hline]
    refine ⟨rfl, rfl, rfl, ?_⟩
    by_cases hkey : line = 1
    · subst hkey
      have hself : Function.update p.master.irr 1 true 1 = true := Function.update_self _ _ _
      exact iff_of_true hself (Or.inr rfl)
    · show Function.update p.master.irr line true 1 = true ↔ _
      rw [Function.update_of_ne (Ne.symm hkey), or_iff_left hkey]
  · have hne : line ≠ 1 := by omega
    rw [if_neg hline, or_iff_left hne]
    dsimp only
    split_ifs
    · refine ⟨rfl, rfl, rfl, ?_⟩
      show Function.update p.master.irr irqCascade true 1 = true ↔ _
      rw [Function.update_of_ne (by decide)]
    · exact ⟨rfl, rfl, rfl, Iff.rfl⟩

theorem next_sound (h : Sound s) (e : LineEvent) : Sound (s.next behind e) := by
  cases e with
  | key scancode => exact ⟨h.mask, h.base, h.service, h.latched⟩
  | load =>
      obtain ⟨-, hstay⟩ | ⟨b, rest, -, -, hload⟩ := next_load behind s
      · rw [hstay]
        exact h
      · obtain ⟨hmask, hbase, hisr, -⟩ := raise_master s.pics irqKeyboard
        rw [hload]
        exact ⟨hmask.trans h.mask, hbase.trans h.base, fun i => hisr ▸ h.service i,
          fun _ => rfl⟩
  | device line =>
      rw [KeyLine.next]
      by_cases hline : line = irqKeyboard
      · rw [if_pos hline]
        exact h
      · obtain ⟨hmask, hbase, hisr, hirr⟩ := raise_master s.pics line
        rw [if_neg hline]
        refine ⟨hmask.trans h.mask, hbase.trans h.base, fun i => hisr ▸ h.service i, ?_⟩
        intro hkey
        exact h.latched ((hirr.mp hkey).resolve_right hline)
  | interrupt =>
      rw [next_interrupt h]
      split_ifs with hserved
      · refine ⟨h.mask, h.base, ?_, ?_⟩
        · intro i
          have hacking : s.acking = false := by
            rw [Bool.and_eq_true, Bool.not_eq_true'] at hserved
            exact hserved.2
          show Function.update s.pics.master.isr 1 true i = (decide (i = 1) && true)
          by_cases hi : i = 1
          · rw [hi, Function.update_self]
            rfl
          · rw [Function.update_of_ne hi, h.service i, hacking, Bool.and_false]
            exact (Bool.and_eq_false_iff.mpr (Or.inl (decide_eq_false hi))).symm
        · intro hkey
          have hoff : Function.update s.pics.master.irr 1 false 1 = true := hkey
          rw [Function.update_self] at hoff
          exact nomatch hoff
      · exact h
  | ack =>
      rw [next_ack h]
      split_ifs with hacking
      · exact ⟨h.mask, h.base, fun _ => (Bool.and_false _).symm, h.latched⟩
      · exact h
  | process =>
      rw [KeyLine.next]
      split_ifs with hacking
      · exact h
      · exact ⟨h.mask, h.base, h.service, h.latched⟩

/-! ## Every byte once and in order -/

def LineEvent.typed : LineEvent → Option UInt8
  | .key scancode => some scancode
  | _ => none

def Event.code : Event → Option UInt8
  | .kernel => none
  | .interrupt scancode => some scancode

/-- The bytes that are still on their way. -/
def KeyLine.waiting (s : KeyLine) : List UInt8 :=
  (if s.full then [s.data] else []) ++ s.queue

theorem heard_append (start : ReadLine) (events events' : List Event) :
    OsyConsole.heard behind start (events ++ events')
      = OsyConsole.heard behind start events
        ++ OsyConsole.heard behind (events.foldl (ReadLine.next behind) start) events' := by
  induction events generalizing start with
  | nil => rfl
  | cons event rest ih =>
      cases event with
      | kernel => exact congrArg (Event.kernel :: ·) (ih start.kernel)
      | interrupt scancode =>
          rw [List.cons_append, OsyConsole.heard, OsyConsole.heard, List.foldl_cons]
          split_ifs with hon
          · exact congrArg (Event.interrupt scancode :: ·) (ih (start.interrupt behind scancode))
          · exact ih (start.interrupt behind scancode)

/-- What a run leaves on record. -/
structure History (behind : ℕ → UInt8) (start : ReadLine) (es : List LineEvent)
    (s : KeyLine) : Prop where
  sound : Sound s
  vectors : ∀ v ∈ s.vectors, v = 0x21
  bytes : es.filterMap LineEvent.typed = s.heard ++ s.waiting
  events : ∃ events : List Event, s.reader = events.foldl (ReadLine.next behind) start ∧
    (OsyConsole.heard behind start events).filterMap Event.code = s.heard

variable {start : ReadLine} {es : List LineEvent}

/-- An interrupt is served: the byte is heard when the input is on. -/
theorem History.served (h : History behind start es s) (hkey : s.pics.master.irr 1 = true)
    (hacking : s.acking = false) : History behind start (es ++ [.interrupt]) (s.serve behind) := by
  have hserve : s.next behind .interrupt = s.serve behind := by
    rw [next_interrupt h.sound, hkey, hacking]
    rfl
  have hfull := h.sound.latched hkey
  obtain ⟨events, hreader, hcodes⟩ := h.events
  have hreader' : (s.serve behind).reader
      = (events ++ [Event.interrupt s.data]).foldl (ReadLine.next behind) start := by
    rw [List.foldl_append, ← hreader]
    rfl
  have hqueue : (s.serve behind).queue = s.queue := rfl
  have htyped : (es ++ [LineEvent.interrupt]).filterMap LineEvent.typed
      = es.filterMap LineEvent.typed := by
    rw [List.filterMap_append]
    exact List.append_nil _
  have hsound : Sound (s.next behind .interrupt) := next_sound h.sound _
  rw [hserve] at hsound
  refine ⟨hsound, ?_, ?_, events ++ [.interrupt s.data],
    hreader', ?_⟩
  · intro v hv
    rcases List.mem_append.mp hv with hold | hnew
    · exact h.vectors v hold
    · exact List.mem_singleton.mp hnew
  · rw [htyped, h.bytes, KeyLine.waiting, KeyLine.waiting, hqueue, hfull]
    by_cases hon : s.reader.terminal.keyboard.keyboardInputOn = true
    · obtain ⟨hheard, hempty⟩ := serve_on behind hon
      rw [hheard, hempty, List.append_assoc]
      rfl
    · obtain ⟨hheard, hstill⟩ := serve_off behind hon
      rw [hheard, hstill, hfull]
      rfl
  · rw [heard_append, List.filterMap_append, hcodes, ← hreader, OsyConsole.heard]
    by_cases hon : s.reader.terminal.keyboard.keyboardInputOn = true
    · rw [if_pos hon, (serve_on behind hon).1]
      rfl
    · rw [if_neg hon, (serve_off behind hon).1]
      exact List.append_nil _

theorem History.next (h : History behind start es s) (e : LineEvent) :
    History behind start (es ++ [e]) (s.next behind e) := by
  have hsound : Sound (s.next behind e) := next_sound h.sound e
  have htyped : (es ++ [e]).filterMap LineEvent.typed
      = es.filterMap LineEvent.typed ++ [e].filterMap LineEvent.typed :=
    List.filterMap_append
  cases e with
  | key scancode =>
      refine ⟨hsound, h.vectors, ?_, h.events⟩
      rw [htyped, h.bytes, List.append_assoc]
      exact congrArg (s.heard ++ ·) (List.append_assoc _ _ _)
  | load =>
      have hnothing : [LineEvent.load].filterMap LineEvent.typed = [] := rfl
      rw [hnothing, List.append_nil] at htyped
      obtain ⟨-, hstay⟩ | ⟨b, rest, hfull, hqueue, hload⟩ := next_load behind s
      · rw [hstay] at hsound ⊢
        exact ⟨hsound, h.vectors, htyped.trans h.bytes, h.events⟩
      · rw [hload] at hsound ⊢
        refine ⟨hsound, h.vectors, ?_, h.events⟩
        rw [htyped, h.bytes, KeyLine.waiting, hfull, hqueue]
        rfl
  | device line =>
      have hnothing : [LineEvent.device line].filterMap LineEvent.typed = [] := rfl
      rw [hnothing, List.append_nil] at htyped
      rw [KeyLine.next] at hsound ⊢
      split_ifs at hsound ⊢
      · exact ⟨hsound, h.vectors, htyped.trans h.bytes, h.events⟩
      · exact ⟨hsound, h.vectors, htyped.trans h.bytes, h.events⟩
  | interrupt =>
      rw [next_interrupt h.sound] at hsound ⊢
      split_ifs at hsound ⊢ with hserved
      · rw [Bool.and_eq_true, Bool.not_eq_true'] at hserved
        exact h.served hserved.1 hserved.2
      · exact ⟨hsound, h.vectors, (htyped.trans (List.append_nil _)).trans h.bytes, h.events⟩
  | ack =>
      have hnothing : [LineEvent.ack].filterMap LineEvent.typed = [] := rfl
      rw [hnothing, List.append_nil] at htyped
      rw [next_ack h.sound] at hsound ⊢
      split_ifs at hsound ⊢
      · exact ⟨hsound, h.vectors, htyped.trans h.bytes, h.events⟩
      · exact ⟨hsound, h.vectors, htyped.trans h.bytes, h.events⟩
  | process =>
      have hnothing : [LineEvent.process].filterMap LineEvent.typed = [] := rfl
      rw [hnothing, List.append_nil] at htyped
      rw [KeyLine.next] at hsound ⊢
      split_ifs at hsound ⊢
      · exact ⟨hsound, h.vectors, htyped.trans h.bytes, h.events⟩
      · obtain ⟨events, hreader, hcodes⟩ := h.events
        refine ⟨hsound, h.vectors, htyped.trans h.bytes, events ++ [.kernel], ?_, ?_⟩
        · rw [List.foldl_append, ← hreader]
          rfl
        · rw [heard_append, List.filterMap_append, hcodes]
          exact List.append_nil _

theorem history (behind : ℕ → UInt8) (pics : Pics) (data : UInt8) (console : Console)
    (buf : LineBuffer) (es : List LineEvent) :
    History behind (.initial console buf) es
      (es.foldl (KeyLine.next behind) (.initial pics data console buf)) := by
  induction es using List.reverseRecOn with
  | nil =>
      exact ⟨initial_sound pics data console buf, fun v hv => absurd hv List.not_mem_nil, rfl,
        [], rfl, rfl⟩
  | append_singleton es e ih =>
      rw [List.foldl_append]
      exact ih.next e

/-- **Every key once and in order.** In every run behind `kernel_setup`, with any devices at
    work: the processor is given no vector but the keyboard's; what is typed is what was
    heard and then what is still on its way; and the line reader is where the scancodes it
    has heard lead it, with every delivered line whole. -/
theorem keys_in_order (behind : ℕ → UInt8) (pics : Pics) (data : UInt8) (console : Console)
    (buf : LineBuffer) (es : List LineEvent) :
    let s := es.foldl (KeyLine.next behind) (.initial pics data console buf)
    (∀ v ∈ s.vectors, v = pic1Offset + UInt8.ofNat irqKeyboard) ∧
    es.filterMap LineEvent.typed = s.heard ++ s.waiting ∧
    (∃ events : List Event, s.reader = events.foldl (ReadLine.next behind) (.initial console buf) ∧
      (OsyConsole.heard behind (.initial console buf) events).filterMap Event.code = s.heard) ∧
    s.reader.delivered <+: s.reader.entered ∧
    s.reader.entered.length ≤ s.reader.delivered.length + 1 := by
  intro s
  have h := history behind pics data console buf es
  obtain ⟨events, hreader, hcodes⟩ := h.events
  have hintact : Intact s.reader := by
    rw [show s.reader = _ from hreader]
    exact events_intact (initial_intact console buf) events
  exact ⟨h.vectors, h.bytes, ⟨events, hreader, hcodes⟩, hintact.lines.1, hintact.lines.2.1⟩

/-! ## When the line goes dead -/

/-- A byte at the port has its request. -/
def Alive (s : KeyLine) : Prop := s.full = true → s.pics.master.irr 1 = true

/-- A byte at the port, and no request for it. -/
def Dead (s : KeyLine) : Prop := s.full = true ∧ s.pics.master.irr 1 = false

/-- An interrupt that is taken finds the input on. -/
def FindsInputOn (s : KeyLine) (e : LineEvent) : Prop :=
  e = .interrupt → s.offered.isSome → s.reader.terminal.keyboard.keyboardInputOn = true

theorem offered_iff (h : Sound s) :
    s.offered.isSome ↔ s.pics.master.irr 1 = true ∧ s.acking = false := by
  rw [offered_eq h, ← Bool.not_eq_true', ← Bool.and_eq_true]
  split_ifs with hserved
  · exact iff_of_true rfl hserved
  · exact iff_of_false Bool.false_ne_true hserved

/-- Nothing is heard on a dead line, whatever happens. -/
theorem Dead.next (h : Dead s) (hsound : Sound s) (e : LineEvent) :
    Dead (s.next behind e) ∧ (s.next behind e).heard = s.heard := by
  obtain ⟨hfull, hkey⟩ := h
  cases e with
  | key scancode => exact ⟨⟨hfull, hkey⟩, rfl⟩
  | load =>
      obtain ⟨-, hstay⟩ | ⟨b, rest, hempty, -, -⟩ := next_load behind s
      · rw [hstay]
        exact ⟨⟨hfull, hkey⟩, rfl⟩
      · rw [hfull] at hempty
        exact nomatch hempty
  | device line =>
      rw [KeyLine.next]
      by_cases hline : line = irqKeyboard
      · rw [if_pos hline]
        exact ⟨⟨hfull, hkey⟩, rfl⟩
      · rw [if_neg hline]
        refine ⟨⟨hfull, ?_⟩, rfl⟩
        refine Bool.eq_false_of_not_eq_true fun hraised => ?_
        rcases (raise_master s.pics line).2.2.2.mp hraised with hold | hnew
        · rw [hkey] at hold
          exact nomatch hold
        · exact hline hnew
  | interrupt =>
      rw [next_interrupt hsound, hkey]
      exact ⟨⟨hfull, hkey⟩, rfl⟩
  | ack =>
      rw [next_ack hsound]
      by_cases hacking : s.acking = true
      · rw [if_pos hacking]
        exact ⟨⟨hfull, hkey⟩, rfl⟩
      · rw [if_neg hacking]
        exact ⟨⟨hfull, hkey⟩, rfl⟩
  | process =>
      rw [KeyLine.next]
      by_cases hacking : s.acking = true
      · rw [if_pos hacking]
        exact ⟨⟨hfull, hkey⟩, rfl⟩
      · rw [if_neg hacking]
        exact ⟨⟨hfull, hkey⟩, rfl⟩

theorem Dead.run (h : Dead s) (hsound : Sound s) (es : List LineEvent) :
    (es.foldl (KeyLine.next behind) s).heard = s.heard := by
  induction es generalizing s with
  | nil => rfl
  | cons e es ih =>
      obtain ⟨hdead, hheard⟩ : Dead (s.next behind e) ∧ (s.next behind e).heard = s.heard :=
        h.next hsound e
      exact (ih hdead (next_sound hsound e)).trans hheard

/-- **One event.** The line stays alive exactly when the interrupt finds the input on, and is
    dead otherwise. -/
theorem Alive.next_iff (h : Alive s) (hsound : Sound s) (e : LineEvent) :
    (FindsInputOn s e → Alive (s.next behind e)) ∧
      (¬ FindsInputOn s e → Dead (s.next behind e)) := by
  by_cases hserved : e = .interrupt ∧ s.offered.isSome
  · obtain ⟨rfl, hsome⟩ := hserved
    obtain ⟨hkey, hacking⟩ := (offered_iff hsound).mp hsome
    have hserve : s.next behind .interrupt = s.serve behind := by
      rw [next_interrupt hsound, hkey, hacking]
      rfl
    rw [hserve]
    constructor
    · intro hfinds hfull
      rw [(serve_on behind (hfinds rfl hsome)).2] at hfull
      exact nomatch hfull
    · intro hdeaf
      have hoff : ¬ s.reader.terminal.keyboard.keyboardInputOn = true :=
        fun hon => hdeaf fun _ _ => hon
      refine ⟨(serve_off behind hoff).2.trans (hsound.latched hkey), ?_⟩
      exact Function.update_self 1 false s.pics.master.irr
  · have hfinds : FindsInputOn s e := fun he hsome => absurd ⟨he, hsome⟩ hserved
    refine ⟨fun _ => ?_, fun hdeaf => absurd hfinds hdeaf⟩
    cases e with
    | key scancode => exact h
    | load =>
        obtain ⟨-, hstay⟩ | ⟨b, rest, -, -, hload⟩ := next_load behind s
        · rw [hstay]
          exact h
        · rw [hload]
          exact fun _ => (raise_master s.pics irqKeyboard).2.2.2.mpr (Or.inr rfl)
    | device line =>
        rw [KeyLine.next]
        split_ifs with hline
        · exact h
        · exact fun hfull => (raise_master s.pics line).2.2.2.mpr (Or.inl (h hfull))
    | interrupt =>
        rw [next_interrupt hsound, if_neg ?_]
        · exact h
        · intro hboth
          rw [Bool.and_eq_true, Bool.not_eq_true'] at hboth
          exact hserved ⟨rfl, (offered_iff hsound).mpr hboth⟩
    | ack =>
        rw [next_ack hsound]
        split_ifs <;> exact h
    | process =>
        rw [KeyLine.next]
        split_ifs <;> exact h

/-! ## A line that is alive hears the next key -/

/-- The process comes to a poll with the input on. -/
theorem polls_again (r : ReadLine) :
    ∃ n, ((ReadLine.kernel^[n]) r).terminal.keyboard.keyboardInputOn = true := by
  by_cases hon : r.terminal.keyboard.keyboardInputOn = true
  · exact ⟨0, hon⟩
  have houtside : ∀ r : ReadLine, r.step = .outside →
      r.kernel.terminal.keyboard.keyboardInputOn = true := by
    intro r hstep
    rw [ReadLine.kernel, hstep]
    rfl
  -- the call goes on to its end, and the next one turns the input on
  have hresetting : ∀ r : ReadLine, r.step = .resetting → r.kernel.step = .outside := by
    intro r hstep
    rw [ReadLine.kernel, hstep]
  have hdelivering : ∀ r : ReadLine, r.step = .delivering → r.kernel.step = .resetting := by
    intro r hstep
    rw [ReadLine.kernel, hstep]
  have hcopying : ∀ r : ReadLine, r.step = .copying → r.kernel.step = .delivering := by
    intro r hstep
    rw [ReadLine.kernel, hstep]
  cases hstep : r.step with
  | outside => exact ⟨1, houtside r hstep⟩
  | resetting => exact ⟨2, houtside _ (hresetting r hstep)⟩
  | delivering => exact ⟨3, houtside _ (hresetting _ (hdelivering r hstep))⟩
  | copying => exact ⟨4, houtside _ (hresetting _ (hdelivering _ (hcopying r hstep)))⟩
  | polling =>
      have hcopy : r.kernel.step = .copying := by
        rw [ReadLine.kernel, hstep]
        simp only [if_neg hon]
      exact ⟨5, houtside _ (hresetting _ (hdelivering _ (hcopying _ hcopy)))⟩

/-- Steps of the process alone. -/
theorem processes (hacking : s.acking = false) (n : ℕ) :
    (List.replicate n LineEvent.process).foldl (KeyLine.next behind) s
      = { s with reader := ReadLine.kernel^[n] s.reader } := by
  induction n generalizing s with
  | zero => rfl
  | succ n ih =>
      have hstep : s.next behind .process = { s with reader := s.reader.kernel } := by
        rw [KeyLine.next, if_neg (by rw [hacking]; exact Bool.false_ne_true)]
      rw [List.replicate_succ, List.foldl_cons, hstep]
      exact ih hacking

/-- The next key is heard at a poll. -/
theorem Alive.hears_polling (h : Alive s) (hsound : Sound s) (hacking : s.acking = false)
    (hon : s.reader.terminal.keyboard.keyboardInputOn = true) (scancode : UInt8) :
    ([LineEvent.key scancode, .load, .interrupt].foldl (KeyLine.next behind) s).heard
      ≠ s.heard := by
  have hsound₁ : Sound (s.next behind (.key scancode)) := next_sound hsound _
  have halive₁ : Alive (s.next behind (.key scancode)) := h
  have hqueue₁ : (s.next behind (.key scancode)).queue ≠ [] :=
    List.append_ne_nil_of_right_ne_nil _ (List.cons_ne_nil _ _)
  set t := s.next behind (.key scancode) with ht
  have hload : (t.next behind .load).full = true ∧ (t.next behind .load).acking = s.acking ∧
      (t.next behind .load).reader = s.reader ∧ (t.next behind .load).heard = s.heard := by
    obtain ⟨hwhy, hstay⟩ | ⟨b, rest, -, -, hload⟩ := next_load behind t
    · rw [hstay]
      exact ⟨hwhy.resolve_right hqueue₁, rfl, rfl, rfl⟩
    · rw [hload]
      exact ⟨rfl, rfl, rfl, rfl⟩
  obtain ⟨hfull, hacking', hreader, hheard⟩ := hload
  have halive₂ : Alive (t.next behind .load) :=
    (halive₁.next_iff hsound₁ .load).1 fun he => nomatch he
  have hserve : (t.next behind .load).next behind .interrupt
      = (t.next behind .load).serve behind := by
    rw [next_interrupt (next_sound hsound₁ _), halive₂ hfull, hacking', hacking]
    rfl
  rw [List.foldl_cons, List.foldl_cons, List.foldl_cons, List.foldl_nil, ← ht, hserve,
    (serve_on behind (hreader ▸ hon)).1, hheard]
  exact fun hsame => List.cons_ne_nil _ _ (List.append_right_eq_self.mp hsame)

/-- A line that is alive hears a key some time later. -/
theorem Alive.hears (behind : ℕ → UInt8) (h : Alive s) (hsound : Sound s) :
    ∃ es : List LineEvent, (es.foldl (KeyLine.next behind) s).heard ≠ s.heard := by
  have hack : Sound (s.next behind .ack) := next_sound hsound .ack
  have halive : Alive (s.next behind .ack) :=
    (h.next_iff hsound .ack).1 fun he => nomatch he
  have hdone : (s.next behind .ack).acking = false ∧ (s.next behind .ack).heard = s.heard := by
    rw [next_ack hsound]
    by_cases hacking : s.acking = true
    · rw [if_pos hacking]
      exact ⟨rfl, rfl⟩
    · rw [if_neg hacking]
      exact ⟨Bool.eq_false_of_not_eq_true hacking, rfl⟩
  obtain ⟨n, hon⟩ := polls_again (s.next behind .ack).reader
  refine ⟨.ack :: (List.replicate n .process ++ [.key 0, .load, .interrupt]), ?_⟩
  rw [List.foldl_cons, List.foldl_append, processes hdone.1, ← hdone.2]
  have hsound' : Sound { s.next behind .ack with
      reader := ReadLine.kernel^[n] (s.next behind .ack).reader } :=
    ⟨hack.mask, hack.base, hack.service, hack.latched⟩
  have halive' : Alive { s.next behind .ack with
      reader := ReadLine.kernel^[n] (s.next behind .ack).reader } := halive
  exact halive'.hears_polling hsound' hdone.1 hon 0

theorem alive_or_dead (hsound : Sound s) (halive : Alive s) (es : List LineEvent) :
    (Guarded (fun s e => some (KeyLine.next behind s e)) FindsInputOn s es →
        Alive (es.foldl (KeyLine.next behind) s)) ∧
      (¬ Guarded (fun s e => some (KeyLine.next behind s e)) FindsInputOn s es →
        Dead (es.foldl (KeyLine.next behind) s)) := by
  have hdead : ∀ (es : List LineEvent) (s : KeyLine), Sound s → Dead s →
      Dead (es.foldl (KeyLine.next behind) s) := by
    intro es
    induction es with
    | nil => exact fun s _ h => h
    | cons e es ih => exact fun s hsound h => ih _ (next_sound hsound e) (h.next hsound e).1
  induction es generalizing s with
  | nil => exact ⟨fun _ => halive, fun h => absurd trivial h⟩
  | cons e es ih =>
      obtain ⟨hkeep, hlose⟩ : (FindsInputOn s e → Alive (s.next behind e)) ∧
          (¬ FindsInputOn s e → Dead (s.next behind e)) := halive.next_iff hsound e
      by_cases hfinds : FindsInputOn s e
      · obtain ⟨hrest, hrest'⟩ := ih (next_sound hsound e) (hkeep hfinds)
        refine ⟨fun h => hrest (h.2 _ rfl), fun h => hrest' fun hg => h ⟨hfinds, ?_⟩⟩
        intro s' hs'
        obtain rfl := Option.some.inj hs'
        exact hg
      · exact ⟨fun h => absurd h.1 hfinds,
          fun _ => hdead es _ (next_sound hsound e) (hlose hfinds)⟩

/-- **What the keyboard's line is good for.** After a run behind `kernel_setup` there is a way
    on in which a key is heard exactly when every interrupt that was taken found the input
    on; otherwise nothing is ever heard again. -/
theorem hears_again_iff (behind : ℕ → UInt8) (pics : Pics) (data : UInt8) (console : Console)
    (buf : LineBuffer) (es : List LineEvent) :
    (∃ es' : List LineEvent,
        ((es ++ es').foldl (KeyLine.next behind) (.initial pics data console buf)).heard
          ≠ (es.foldl (KeyLine.next behind) (.initial pics data console buf)).heard) ↔
      Guarded (fun s e => some (KeyLine.next behind s e)) FindsInputOn
        (.initial pics data console buf) es := by
  have hstart := initial_sound pics data console buf
  have halive : Alive (.initial pics data console buf) := fun h => nomatch h
  have hsound := (history behind pics data console buf es).sound
  obtain ⟨hkeep, hlose⟩ := @alive_or_dead behind _ hstart halive es
  simp only [List.foldl_append]
  constructor
  · rintro ⟨es', hes'⟩
    by_contra hdeaf
    exact hes' ((hlose hdeaf).run hsound es')
  · intro hguard
    exact (hkeep hguard).hears behind hsound

end OsyConsole
