import Osyikkk.LineCalls
import Osyikkk.OwnNames

/-!
# The shell of a store

What the user of the shell works on is a store of files and directories and a path in it,
from the root to the current directory. `ShellStep` says what every command does there, in
the store's words. A walk follows the store, and goes on behind a component that leads
nowhere; the current directory's own name leads back to it.

A path stays a path in the store as long as no request takes one of its directories away
(`Trail.step`).
-/

namespace OsyShell

open OsyDisk OsyFat32 OsyVolume PartialRun NodeStore

/-! ## The path -/

/-- The store, and the levels from the current directory down to the root. -/
structure View where
  store : VolumeStore
  levels : List Level

/-- What a name leads to from a level. -/
def lookIn (s : VolumeStore) (below : Level) (name : EntryName) : Option UInt32 :=
  if name = below.dirName then some below.number else subdirectory s below.number name

/-- A step along a path in the store. -/
def viewStep (s : VolumeStore) (levels : List Level) (row : List UInt8) : Option (List Level) :=
  enter (fun _ name => levels.head?.bind fun top => lookIn s top name) levels (componentOf row)

/-- Where a walk from the current directory ends. -/
def View.walk (v : View) (rows : List (List UInt8)) : List Level :=
  skipping (viewStep v.store) v.levels rows

/-- The current directory behind a walk. -/
def View.directory (v : View) (rows : List (List UInt8)) : UInt32 := directoryNumber (v.walk rows)

/-- The levels begin with the root, and each name leads from one level to the next. -/
structure Trail (s : VolumeStore) (levels : List Level) : Prop where
  bottom : levels.getLast? = some rootLevel
  chain : levels.IsChain fun top below => lookIn s below top.dirName = some top.number

/-- The request takes no directory of the path away. -/
def Spared (levels : List Level) (request : Request UInt32 FullName (List UInt8)) : Prop :=
  levels.IsChain fun top below => ¬ request.TakesAway (below.number, (top.dirName, fun _ => 0))

variable {s s' : VolumeStore} {levels levels' : List Level} {row : List UInt8}
  {request : Request UInt32 FullName (List UInt8)}
  {response : Response UInt32 FullName (List UInt8)}
  {trace : List (Request UInt32 FullName (List UInt8) × Response UInt32 FullName (List UInt8))}

theorem trail_start (s : VolumeStore) : Trail s [rootLevel] where
  bottom := rfl
  chain := List.isChain_singleton _

theorem Trail.tail {top below : Level} {rest : List Level}
    (h : Trail s (top :: below :: rest)) : Trail s (below :: rest) where
  bottom := by
    rw [← h.bottom, List.getLast?_cons_cons]
  chain := (List.isChain_cons_cons.mp h.chain).2

theorem Trail.ne_nil (h : Trail s levels) : levels ≠ [] := by
  rintro rfl
  exact nomatch h.bottom

/-- A step of a walk stays on a path. -/
theorem Trail.viewStep (h : Trail s levels) (hstep : viewStep s levels row = some levels') :
    Trail s levels' := by
  rw [OsyShell.viewStep, enter] at hstep
  split_ifs at hstep
  · obtain rfl := Option.some.inj hstep
    rcases levels with _ | ⟨_, _ | ⟨_, _⟩⟩
    · exact h
    · exact h
    · exact h.tail
  · obtain rfl := Option.some.inj hstep
    exact h
  · cases levels with
    | nil => exact absurd hstep.symm (Option.some_ne_none levels')
    | cons top rest =>
        obtain ⟨n, hlook, rfl⟩ := Option.map_eq_some_iff.mp hstep
        constructor
        · rw [List.getLast?_cons_cons]
          exact h.bottom
        · refine List.isChain_cons_cons.mpr ⟨?_, h.chain⟩
          rw [dirName_entered]
          exact hlook

theorem Trail.walk (h : Trail s levels) (rows : List (List UInt8)) :
    Trail s (skipping (OsyShell.viewStep s) levels rows) :=
  skipping_invariant _ (fun _ _ _ ht hstep => ht.viewStep hstep) h

/-- **A path stays a path** when no request takes one of its directories away. -/
theorem Trail.step (h : Trail s levels) (hstep : Step clusterUnits s request response s')
    (hspared : Spared levels request) : Trail s' levels where
  bottom := h.bottom
  chain := by
    have hlinks := h.chain
    clear h
    induction levels with
    | nil => exact List.isChain_nil
    | cons top rest ih =>
        cases rest with
        | nil => exact List.isChain_singleton _
        | cons below rest =>
            obtain ⟨hlink, hrest⟩ := List.isChain_cons_cons.mp hlinks
            obtain ⟨hkept, hkeeps⟩ := List.isChain_cons_cons.mp hspared
            refine List.isChain_cons_cons.mpr ⟨?_, ih hkeeps hrest⟩
            rw [lookIn] at hlink ⊢
            by_cases hown : top.dirName = below.dirName
            · rw [if_pos hown] at hlink ⊢
              exact hlink
            · rw [if_neg hown, subdirectory_eq_some] at hlink ⊢
              exact hstep.entry_kept hlink hkept

theorem Trail.run (h : Trail s levels) (hrun : Run clusterUnits s trace s')
    (hspared : ∀ e ∈ trace, Spared levels e.1) : Trail s' levels := by
  induction hrun with
  | nil => exact h
  | cons hstep _ ih =>
      obtain ⟨hfirst, hrest⟩ := List.forall_mem_cons.mp hspared
      exact ih (h.step hstep hfirst) hrest

/-! ## The commands -/

/-- What a line asks for. -/
inductive UserCommand where
  | goTo (fromRoot : Bool) (path : List (List UInt8))
  | makeDirectory (path : List (List UInt8)) (name : EntryName)
  | remove (path : List (List UInt8)) (name ext : List UInt8)
  | move (source : List (List UInt8)) (name ext : List UInt8) (dest : List (List UInt8))
  | copy (source : List (List UInt8)) (parsed : ParsedFile) (dest : List (List UInt8))
  | look

/-- A name and an extension as they are typed name an entry: a directory by its name alone. -/
def NamedAs (name ext : List UInt8) (k : FullName) (n : VolumeNode) : Prop :=
  strcmp (List.ofFn k.1) name = 0 ∧ (n.kind = none → strcmp (List.ofFn k.2) ext = 0)

/-- The extension is not the empty string. -/
def HasExt (ext : EntryExt) : Prop := cString (List.ofFn ext) ≠ []

instance (ext : EntryExt) : Decidable (HasExt ext) := inferInstanceAs (Decidable (_ ≠ _))

/-- The extension of an entry as `remove` passes it on. -/
def shownExt (ext : EntryExt) : EntryExt := if HasExt ext then ext else fun _ => 0

/-- The request stores something new. -/
def Puts : Request UInt32 FullName (List UInt8) → Prop
  | .putFile _ _ _ | .makeDirectory _ _ => True
  | _ => False

/-- What `cp` asks of the store. A file is stored at the destination `d` once, with the bytes
    of the source in front; a folder begins with a new directory, and only new entries
    follow. -/
structure Copies (s : VolumeStore) (parsed : ParsedFile) (source d : UInt32)
    (requests : List (Request UInt32 FullName (List UInt8))) : Prop where
  puts : ∀ r ∈ requests, Puts r
  file : parsed.targetExt 0 ≠ 0 → requests = [] ∨ ∃ b₀ b,
    s.entry (source, (fun j => parsed.targetName j, fun j => parsed.targetExt j))
      = some (.file b₀) ∧ b₀ <+: b ∧
    requests = [.putFile d (fun j => parsed.targetName j, fun j => parsed.targetExt j) b]
  folder : parsed.targetExt 0 = 0 → ∀ r ∈ requests.head?,
    r = .makeDirectory d (fun j => parsed.targetName j, fun _ => 0)

/-- One command of the user. -/
inductive ShellStep (v : View) : UserCommand → View → Prop where
  | looked : ShellStep v .look v
  | went {fromRoot : Bool} {path : List (List UInt8)} :
      ShellStep v (.goTo fromRoot path)
        { v with
          levels := skipping (viewStep v.store) (if fromRoot then [rootLevel] else v.levels) path }
  | made {path : List (List UInt8)} {name : EntryName}
      {response : Response UInt32 FullName (List UInt8)} {s' : VolumeStore} :
      Step clusterUnits v.store (.makeDirectory (v.directory path) (name, fun _ => 0)) response s' →
      ShellStep v (.makeDirectory path name) { v with store := s' }
  | removed {path : List (List UInt8)} {name ext : List UInt8} {k : FullName} {n : VolumeNode}
      {response : Response UInt32 FullName (List UInt8)} {s' : VolumeStore} :
      v.store.entry (v.directory path, k) = some n → NamedAs name ext k n →
      Step clusterUnits v.store (.remove (v.directory path) (k.1, shownExt k.2)) response s' →
      ShellStep v (.remove path name ext) { v with store := s' }
  | nothingRemoved {path : List (List UInt8)} {name ext : List UInt8} :
      (∀ k n, v.store.entry (v.directory path, k) = some n → ¬ NamedAs name ext k n) →
      ShellStep v (.remove path name ext) v
  | moved {source dest : List (List UInt8)} {name ext : List UInt8} {k : FullName}
      {n : VolumeNode} {response : Response UInt32 FullName (List UInt8)} {s' : VolumeStore} :
      v.store.entry (v.directory source, k) = some n → NamedAs name ext k n →
      Step clusterUnits v.store (.move (v.directory source) k (v.directory dest)) response s' →
      ShellStep v (.move source name ext dest) { v with store := s' }
  -- the shell stays where it looked for the entry
  | nothingMoved {source dest : List (List UInt8)} {name ext : List UInt8} :
      (∀ k n, v.store.entry (v.directory source, k) = some n → ¬ NamedAs name ext k n) →
      ShellStep v (.move source name ext dest) { v with levels := v.walk source }
  | copied {source dest : List (List UInt8)} {parsed : ParsedFile}
      {trace : List (Request UInt32 FullName (List UInt8) × Response UInt32 FullName (List UInt8))}
      {s' : VolumeStore} :
      Run clusterUnits v.store trace s' →
      Copies v.store parsed (v.directory source) (v.directory dest) (trace.map Prod.fst) →
      ShellStep v (.copy source parsed dest) { v with store := s' }

/-- One command after another. -/
inductive ShellRun : View → List UserCommand → View → Prop where
  | nil {v : View} : ShellRun v [] v
  | cons {v v₁ v' : View} {command : UserCommand} {rest : List UserCommand} :
      ShellStep v command v₁ → ShellRun v₁ rest v' → ShellRun v (command :: rest) v'

/-- What the tokens of a command ask for. -/
def Command.asked (cmd : TokenTable) : Command → UserCommand
  | .branch .cd =>
      if cmd.cmdLength > 1 then .look
      else .goTo (decide (rowUsed cmd 1 ≠ some true)) (cdPath cmd)
  | .branch .mkdir =>
      if cmd.cmdLength = 1 then .makeDirectory (argumentPath cmd) (rowName (argumentRow cmd))
      else .look
  | .branch .rm =>
      let parsed := parseTarget (charAt (argumentRow cmd))
      if cmd.cmdLength = 1 then .remove (argumentPath cmd) parsed.name parsed.extString else .look
  | .branch .mv =>
      let parsed := parseTarget (charAt (sourceRow cmd))
      if cmd.cmdLength = 2 then .move (sourcePath cmd) parsed.name parsed.extString (destPath cmd)
      else .look
  | .branch .cp => .copy (sourcePath cmd) (parseTarget (charAt (sourceRow cmd))) (destPath cmd)
  | .branch .cat | .clear | .help | .ls | .whereis | .echo | .notFound => .look

/-- What a line asks for. -/
def Line.asked (l : Line) : UserCommand := l.tokens.elim .look fun t => t.1.asked t.2.2

theorem hasExt_iff (e : FAT32DirectoryEntry) : HasExt e.ext ↔ ¬ noExt e := by
  rw [HasExt, noExt, List.ofFn_succ, cString]
  by_cases h : e.ext 0 = 0
  · rw [h]
    exact iff_of_false (fun hne => hne rfl) fun hne => hne rfl
  · refine iff_of_true ?_ h
    intro hnil
    rw [List.takeWhile_cons_of_pos (by simpa using h)] at hnil
    exact List.cons_ne_nil _ _ hnil

/-! ## Space and entries -/

variable {v v' : View} {command : UserCommand} {commands : List UserCommand}

/-- A command is a run of requests. -/
theorem ShellStep.run (h : ShellStep v command v') :
    ∃ trace, Run clusterUnits v.store trace v'.store := by
  cases h with
  | looked => exact ⟨[], .nil⟩
  | went => exact ⟨[], .nil⟩
  | made hstep => exact ⟨_, .cons hstep .nil⟩
  | removed _ _ hstep => exact ⟨_, .cons hstep .nil⟩
  | nothingRemoved _ => exact ⟨[], .nil⟩
  | moved _ _ hstep => exact ⟨_, .cons hstep .nil⟩
  | nothingMoved _ => exact ⟨[], .nil⟩
  | copied hrun _ => exact ⟨_, hrun⟩

theorem ShellRun.run (h : ShellRun v commands v') :
    ∃ trace, Run clusterUnits v.store trace v'.store := by
  induction h with
  | nil => exact ⟨[], .nil⟩
  | cons hstep _ ih =>
      obtain ⟨trace, hrun⟩ := hstep.run
      obtain ⟨rest, hrest⟩ := ih
      exact ⟨trace ++ rest, hrun.append hrest⟩

end OsyShell
