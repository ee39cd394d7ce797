import Osyikkk.ShellStoreProofs

/-!
# Sessions of a careful user

A session begins with the prompt of `main`, on a volume that careful calls have made. It is a
run of the shell of a store (`session_refines_store`): the path is the one that was walked,
the entries are the ones that were asked for, and the clusters that are free and those of
the entries are the 509 of the volume. In every state of it `ls` prints the entries of the
current directory, each once (`session_ls`), and a file that no line takes away is read as
before (`session_keeps_file`).
-/

namespace OsyShell

open OsyDisk OsyFat32 OsyVolume PartialRun NodeStore RootedForest

/-! ## The start -/

/-- Calls of a careful user have made the volume, with any reboots between them. -/
def MadeCarefully (fs : FileSystem) : Prop :=
  ∃ disk events, Guarded execEvent StoreEvent (freshFileSystem disk) events ∧
    run execEvent (freshFileSystem disk) events = some fs

/-- The shell behind its first prompt. -/
def firstPrompt (fs : FileSystem) : UserShell where
  shell := ((startShell fs).print (text "OSyikkk:/") blue).print (text "> ") white
  pages := []

variable {fs fs' : FileSystem} {v v' : View} {u u' : UserShell} {lines : List Line}
  {events : List Event} {σ : VolumeStore}

theorem firstPrompt_fits : DirStack.initial.length ≠ 0 ∧ (homeText DirStack.initial).length < 256 :=
  ⟨by decide, by decide⟩

theorem userMain_eq (fs : FileSystem) (lines : List Line) :
    userMain fs lines = run executeLine (firstPrompt fs) lines := by
  have hprompt : printHome (startShell fs) = some (firstPrompt fs).shell :=
    if_pos firstPrompt_fits
  rw [userMain, hprompt]
  rfl

/-- Everything that careful calls keep of a volume. -/
structure CarefulVolume (fs : FileSystem) : Prop where
  volume : DriverInvariant fs
  named : OwnNames fs.table

theorem execEvent_careful (fs : FileSystem) (event : Event) (fs' : FileSystem)
    (h : CarefulVolume fs) (hevent : StoreEvent fs event) (hexec : execEvent fs event = some fs') :
    CarefulVolume fs' := by
  cases event with
  | call k => exact ⟨h.volume.exec hevent hexec, h.named.exec h.volume hevent hexec⟩
  | reboot memory =>
      obtain ⟨hdisk, hfat⟩ :=
        (reboots_of_image h.volume.mountable.image h.volume.mountable.signed).mounted memory
      obtain rfl := Option.some.inj hexec
      refine ⟨h.volume.congr hdisk hfat, ?_⟩
      rw [table_congr hdisk]
      exact h.named

/-- Such a volume is a store with 509 clusters, and the shell begins in its root. -/
theorem MadeCarefully.shows (h : MadeCarefully fs) :
    ∃ σ : VolumeStore, Mirrors (startShell fs) { store := σ, levels := [rootLevel] } ∧
      σ.Finite clusterUnits ∧ σ.free + σ.used clusterUnits = 509 := by
  obtain ⟨disk, events, hguard, hrun⟩ := h
  have hstart : CarefulVolume (freshFileSystem disk) :=
    ⟨fresh_driverInvariant disk, fresh_ownNames disk⟩
  have hcareful := run_invariant execEvent execEvent_careful hstart hguard hrun
  obtain ⟨fs', σ, hserved, -, hrep⟩ :=
    served_of_guarded hstart.volume (fresh_represents disk) hguard
  obtain rfl : fs' = fs := Option.some.inj (hserved.execEvents.symm.trans hrun)
  obtain ⟨trace, hsteps, -⟩ := hserved.run
  obtain ⟨hfinite, hspace⟩ := hsteps.space emptyStore_finite
  exact ⟨σ, ⟨hcareful.volume, hcareful.named, hrep, startShell_levels fs', trail_start σ⟩,
    hfinite, hspace.trans emptyStore_space⟩

/-! ## The session -/

theorem Mirrors.firstPrompt (h : Mirrors (startShell fs) v) : Mirrors (firstPrompt fs).shell v :=
  h.same rfl rfl

/-- **The shell refines the shell of a store.** Every session of careful lines is a run of
    commands on the store of the volume; the clusters that are free and those of the store's
    entries stay the 509 of the volume. -/
theorem session_refines_store (fs : FileSystem) (hmade : MadeCarefully fs) (lines : List Line)
    (u : UserShell) (hcareful : Guarded executeLine CarefulLine (firstPrompt fs) lines)
    (hmain : userMain fs lines = some u) :
    ∃ v v', Mirrors (startShell fs) v ∧ ShellRun v (lines.map Line.asked) v' ∧
      Mirrors u.shell v' ∧
      (freeCells u.shell.fs.fat).length + v'.store.used clusterUnits = 509 := by
  obtain ⟨σ, hshows, hfinite, hspace⟩ := hmade.shows
  rw [userMain_eq] at hmain
  obtain ⟨v', hcommands, hend⟩ := lines_refine hshows.firstPrompt hcareful hmain
  obtain ⟨trace, hsteps⟩ := hcommands.run
  obtain ⟨-, hkept⟩ := hsteps.space hfinite
  refine ⟨_, v', hshows, hcommands, hend, ?_⟩
  rw [← hend.represents.free, hkept, hspace]

/-- The line of a tree command, with zeros in the locals. -/
def typed (k : TreeCommand) : Line where
  input := k.input
  behind := k.behind
  locals := k.locals
  listed := unreadTable
  reqTable := fun _ => unreadTable

theorem typed_calls (k : TreeCommand) (s : Shell) :
    (typed k).calls s = (Command.branch k.branch).calls k.locals k.cmd s := by
  obtain ⟨line, htokens⟩ := @tokens_of_branch (typed k) k.branch k.cmd k.tokens
  rw [Line.calls, htokens]
  rfl

theorem fresh_madeCarefully (disk : Disk) : MadeCarefully (freshFileSystem disk) :=
  ⟨disk, [], trivial, rfl⟩

/-- `mkdir a`, `cd a` are careful lines. -/
theorem enteringA_careful : Guarded executeLine CarefulLine
    (firstPrompt (freshFileSystem blankDisk)) (enteringA.map typed) := by
  refine ⟨?_, fun _ _ => ⟨?_, fun _ _ => trivial⟩⟩
  case refine_1 =>
    rw [CarefulLine, typed_calls]
    refine ⟨⟨mkdir_storeCall, fun _ _ => trivial⟩, ?_⟩
    intro k _
    exact List.isChain_singleton _
  case refine_2 =>
    rw [CarefulLine, typed_calls]
    exact ⟨trivial, fun k hk => absurd hk List.not_mem_nil⟩

theorem userMain_enteringA :
    ∃ u, userMain (freshFileSystem blankDisk) (enteringA.map typed) = some u := by
  have hsome : (userMain (freshFileSystem blankDisk) (enteringA.map typed)).isSome = true := by
    decide +kernel
  exact Option.isSome_iff_exists.mp hsome

theorem session_refines_store_a : ∃ u, userMain (freshFileSystem blankDisk)
      (enteringA.map typed) = some u ∧
    ∃ v v', Mirrors (startShell (freshFileSystem blankDisk)) v ∧
      ShellRun v ((enteringA.map typed).map Line.asked) v' ∧ Mirrors u.shell v' ∧
      (freeCells u.shell.fs.fat).length + v'.store.used clusterUnits = 509 := by
  obtain ⟨u, hu⟩ := userMain_enteringA
  exact ⟨u, hu, session_refines_store _ (fresh_madeCarefully blankDisk) _ u enteringA_careful hu⟩

/-! ## `ls` -/

/-- What `ls` prints of an entry: a file in white, with its extension if it has one, and a
    directory in aqua. -/
def shownEntry : FullName × VolumeNode → List Display
  | (k, .file _) =>
      .writeString (cString (List.ofFn k.1)) white ::
        (if HasExt k.2 then
          [.writeString [dot] white, .writeString (cString (List.ofFn k.2)) white]
        else []) ++ [.writeString [space] white]
  | (k, .directory _) =>
      [.writeString (cString (List.ofFn k.1)) aqua, .writeString [space] white]

/-- The entries of a directory, each of them once. -/
structure EntriesOf (s : VolumeStore) (d : UInt32) (entries : List (FullName × VolumeNode)) :
    Prop where
  nodup : (entries.map Prod.fst).Nodup
  mem : ∀ k n, (k, n) ∈ entries ↔ s.entry (d, k) = some n

theorem listEntry_eq {e : FAT32DirectoryEntry} {n : VolumeNode} (hn : NodeOf fs e n) :
    listEntry e = shownEntry (fullName e, n) := by
  cases n with
  | file b =>
      rw [listEntry, if_pos hn.1]
      simp only [← hasExt_iff]
      rfl
  | directory x =>
      rw [listEntry, if_neg (by rw [hn.1]; decide)]
      rfl

/-- Rounds without output can be left out. -/
theorem flatMap_ite {A B : Type} (p : A → Prop) [DecidablePred p] (f : A → List B)
    (l : List A) :
    (l.flatMap fun a => if p a then f a else []) = (l.filter (p ·)).flatMap f := by
  induction l with
  | nil => rfl
  | cons a l ih =>
      rw [List.flatMap_cons, ih]
      by_cases h : p a
      · rw [if_pos h, List.filter_cons, if_pos (decide_eq_true h), List.flatMap_cons]
      · rw [if_neg h, List.filter_cons, if_neg (by simpa using h)]
        rfl

/-- The loop of `list_current_directory` prints the entries of its directory. -/
theorem listTable_entries (hinv : DriverInvariant fs) (hrep : Represents fs σ) {d : UInt32}
    (hd : Live fs.table d) :
    ∃ entries, EntriesOf σ d entries ∧ listTable (fs.table d) = entries.flatMap shownEntry := by
  have hnode : ∀ i, ∃ n, UsedSlot fs.table d i → NodeOf fs (fs.table d i) n := by
    intro i
    by_cases hs : UsedSlot fs.table d i
    · obtain ⟨n, hn⟩ := exists_nodeOf hinv.owned hs
      exact ⟨n, fun _ => hn⟩
    · exact ⟨.directory d, fun h => absurd h hs⟩
  choose node hnode using hnode
  have hmem : ∀ i, i ∈ (slotsFrom 1).filter (fun i => decide (fs.table d i).used) ↔
      UsedSlot fs.table d i := by
    intro i
    rw [List.mem_filter, mem_slotsFrom_one, decide_eq_true_eq]
    exact ⟨fun h => ⟨hd, h.1, h.2⟩, fun h => ⟨h.slot, h.used⟩⟩
  refine ⟨((slotsFrom 1).filter fun i => decide (fs.table d i).used).map
    fun i => (fullName (fs.table d i), node i), ⟨?_, ?_⟩, ?_⟩
  case refine_1 =>
    rw [List.map_map]
    refine List.Nodup.map_on ?_ ((slotsFrom_nodup 1).filter _)
    intro i hi j hj hkey
    obtain ⟨hname, hext⟩ := Prod.mk.inj hkey
    exact hinv.named.unique ((hmem i).mp hi) ((hmem j).mp hj) hname hext
  case refine_2 =>
    intro k n
    rw [List.mem_map, hrep.entry]
    constructor
    · rintro ⟨i, hi, heq⟩
      obtain ⟨rfl, rfl⟩ := Prod.mk.inj heq
      have hs := (hmem i).mp hi
      exact ⟨i, hs, rfl, hnode i hs⟩
    · rintro ⟨i, hs, rfl, hn⟩
      exact ⟨i, (hmem i).mpr hs, congrArg _ (NodeOf.unique (hnode i hs) hn)⟩
  case refine_3 =>
    rw [listTable, List.flatMap_map]
    refine (flatMap_ite (fun i => (fs.table d i).used) _ _).trans ?_
    refine List.flatMap_congr ?_
    intro i hi
    exact listEntry_eq (hnode i ((hmem i).mp hi))

/-- `ls`, where the shell shows a store. -/
theorem Mirrors.ls (h : Mirrors u.shell v) {l : Line} {input : List UInt8} {cmd : TokenTable}
    (htokens : l.tokens = some (.ls, input, cmd)) (hargs : cmd.cmdLength = 0) :
    ∃ entries, EntriesOf v.store (directoryNumber v.levels) entries ∧
      executeLine u l = (printHome { u.shell with
        screen := u.shell.screen ++ newline :: entries.flatMap shownEntry ++ [.setCursor 1 0] }).map
          fun shell => { u with shell := shell } := by
  have hlive := h.trail.directory_live h.named h.represents
  obtain ⟨entries, hentries, hlist⟩ := listTable_entries h.volume h.represents hlive
  refine ⟨entries, hentries, ?_⟩
  have hinUse : u.shell.stack.length ≠ 0 := by
    intro h0
    refine h.trail.ne_nil ?_
    rw [← h.levels, DirStack.levels, h0]
    rfl
  -- the lookup of the top level by name gives the table of its number
  have hcurrent : currentTable u.shell.fs u.shell.stack.levels
      = some (u.shell.fs.table (directoryNumber v.levels)) := by
    rw [h.levels]
    exact h.trail.currentTable h.volume h.named h.represents
  have hprinted : readCurrentTable l.listed (u.shell.print (text "\n") white)
      = some (0, u.shell.fs.table (directoryNumber v.levels)) :=
    readCurrentTable_found hinUse l.listed hcurrent
  have hls : executeLs l.listed cmd (u.shell.print (text "\n") white) = some (.finished
      { u.shell.print (text "\n") white with
        screen := (u.shell.print (text "\n") white).screen ++ entries.flatMap shownEntry }) := by
    rw [executeLs, if_neg (by omega), listCurrentDirectory_found hprinted, hlist]
    rfl
  have hline : executeLine u l = (do
      let done ← executeLs l.listed cmd (u.shell.print (text "\n") white)
      let shell ← done.finish
      some { u with shell := shell }) := by
    rw [executeLine, htokens]
    rfl
  have hscreen : (u.shell.print (text "\n") white).screen ++ entries.flatMap shownEntry
      = u.shell.screen ++ newline :: entries.flatMap shownEntry := by
    rw [Shell.print, List.append_assoc]
    rfl
  rw [hline, hls, hscreen]
  show (printHome _).bind (fun shell => some { u with shell := shell }) = _
  exact (Option.map_eq_bind ..).symm

/-- **`ls` lists the directory.** In every state of a session it prints the entries of the
    current directory of the store, each of them once, and the prompt. -/
theorem session_ls (fs : FileSystem) (hmade : MadeCarefully fs) (lines : List Line)
    (u : UserShell) (hcareful : Guarded executeLine CarefulLine (firstPrompt fs) lines)
    (hmain : userMain fs lines = some u) (l : Line) (input : List UInt8) (cmd : TokenTable)
    (htokens : l.tokens = some (.ls, input, cmd)) (hargs : cmd.cmdLength = 0) :
    ∃ v v' entries, Mirrors (startShell fs) v ∧ ShellRun v (lines.map Line.asked) v' ∧
      EntriesOf v'.store (directoryNumber v'.levels) entries ∧
      executeLine u l = (printHome { u.shell with
        screen := u.shell.screen ++ newline :: entries.flatMap shownEntry ++ [.setCursor 1 0] }).map
          fun shell => { u with shell := shell } := by
  obtain ⟨σ, hshows, -, -⟩ := hmade.shows
  rw [userMain_eq] at hmain
  obtain ⟨v', hcommands, hend⟩ := lines_refine hshows.firstPrompt hcareful hmain
  obtain ⟨entries, hentries, hls⟩ := hend.ls htokens hargs
  exact ⟨_, v', entries, hshows, hcommands, hentries, hls⟩

/-- A line of one word. -/
def typedWord (word : List UInt8) : Line where
  input := bufferOf word
  behind := 0
  locals := zeroLocals
  listed := unreadTable
  reqTable := fun _ => unreadTable

theorem typedWord_tokens (word : List UInt8) {row : List UInt8} {cmd : TokenTable}
    (hline : PlainLine word)
    (htokens : tokenize word = some cmd) (hrow : cmd.row 0 = some row) :
    (typedWord word).tokens = some (commandFor row, word, cmd) := by
  simp only [Line.tokens, typedWord, trim_bufferOf hline, lineOf_bufferOf hline,
    commandTable_of_tokenize htokens, hrow, Option.bind_eq_bind, Option.bind_some]

theorem tokens_ls : (typedWord [108, 115]).tokens
    = some (.ls, [108, 115], { rows := [[108, 115]], cmdLength := 0 }) :=
  typedWord_tokens [108, 115] ⟨by decide, by decide, by decide, fun b hb => by
    obtain rfl := Option.some.inj hb
    decide⟩ rfl rfl

theorem session_ls_a : ∃ u v v' entries, userMain (freshFileSystem blankDisk)
      (enteringA.map typed) = some u ∧
    Mirrors (startShell (freshFileSystem blankDisk)) v ∧
    ShellRun v ((enteringA.map typed).map Line.asked) v' ∧
    EntriesOf v'.store (directoryNumber v'.levels) entries ∧
    executeLine u (typedWord [108, 115]) = (printHome { u.shell with
      screen := u.shell.screen ++ newline :: entries.flatMap shownEntry ++ [.setCursor 1 0] }).map
        fun shell => { u with shell := shell } := by
  obtain ⟨u, hu⟩ := userMain_enteringA
  obtain ⟨v, v', entries, hshows, hcommands, hentries, hls⟩ :=
    session_ls _ (fresh_madeCarefully blankDisk) _ u enteringA_careful hu _ _ _ tokens_ls rfl
  exact ⟨u, v, v', entries, hu, hshows, hcommands, hentries, hls⟩

/-! ## Files -/

/-- Two volumes that have the file answer a read alike. -/
theorem read_eq_of_entry {σ' : VolumeStore} {request : FAT32DriverRequest} {b : List UInt8}
    {buf : Memory} (hinv : DriverInvariant fs) (hrep : Represents fs σ)
    (hinv' : DriverInvariant fs') (hrep' : Represents fs' σ')
    (h : σ.entry (request.parentClusterNumber, (request.name, request.ext)) = some (.file b))
    (h' : σ'.entry (request.parentClusterNumber, (request.name, request.ext)) = some (.file b))
    (hs : request.bufferSize ≠ 0) (hread : read request fs = some (0, buf)) :
    read request fs' = some (0, buf) := by
  obtain ⟨hfits, hsmall⟩ := hrep.read_file hinv h hs
  rcases Nat.lt_or_ge (clusterCount request) (clusterUnits b) with hless | hroom
  · have hcode := (hsmall hless).symm.trans hread
    exact absurd (Prod.mk.inj (Option.some.inj hcode)).1 (by decide)
  obtain ⟨buf₁, hread₁, hbytes₁, hrest₁⟩ := hfits hroom
  obtain ⟨buf₂, hread₂, hbytes₂, hrest₂⟩ := (hrep'.read_file hinv' h' hs).1 hroom
  obtain rfl := (Prod.mk.inj (Option.some.inj (hread₁.symm.trans hread))).2
  rw [hread₂]
  congr 2
  funext k
  rcases Nat.lt_or_ge k b.length with hk | hk
  · have hsame := List.map_inj_left.mp (hbytes₂.trans hbytes₁.symm)
    exact hsame k (List.mem_range.mpr hk)
  · rw [hrest₁ k hk, hrest₂ k hk]

/-- The line makes the calls of a careful user, and none of them takes the name away. -/
def LeavesFile (p : UInt32 × FullName) (u : UserShell) (l : Line) : Prop :=
  Guarded exec StoreCall u.shell.fs (l.calls u.shell) ∧
    ∀ k ∈ l.calls u.shell, ¬ k.request.TakesAway p

/-- What is stored under a name stays there in every line that leaves it. -/
theorem lines_keep_entry {p : UInt32 × FullName} {n : VolumeNode} (h : CarefulVolume u.shell.fs)
    (hrep : Represents u.shell.fs σ) (hentry : σ.entry p = some n)
    (hleaves : Guarded executeLine (LeavesFile p) u lines)
    (hrun : run executeLine u lines = some u') :
    ∃ σ' : VolumeStore, CarefulVolume u'.shell.fs ∧ Represents u'.shell.fs σ' ∧
      σ'.entry p = some n := by
  induction lines generalizing u σ with
  | nil =>
      obtain rfl := Option.some.inj hrun
      exact ⟨σ, h, hrep, hentry⟩
  | cons l lines ih =>
      obtain ⟨⟨hguard, hkept⟩, hrest⟩ := hleaves
      obtain ⟨u₁, hline, hrun⟩ := Option.bind_eq_some_iff.mp hrun
      obtain ⟨trace, σ₁, hsteps, htrace, hinv₁, hself₁, hrep₁⟩ :=
        calls_refine h.volume h.named hrep hguard (executeLine_calls hline).1
      have hentry₁ : σ₁.entry p = some n := by
        refine hsteps.entry_kept hentry ?_
        intro e he
        have hmem : e.1 ∈ (l.calls u.shell).map Call.request :=
          htrace ▸ List.mem_map_of_mem he
        obtain ⟨k, hk, heq⟩ := List.mem_map.mp hmem
        rw [← heq]
        exact hkept k hk
      exact ih ⟨hinv₁, hself₁⟩ hrep₁ hentry₁ (hrest u₁ hline) hrun

/-- **A session keeps files.** A file that is read before the session is read with the same
    bytes after it, when no line of the session takes its name away. -/
theorem session_keeps_file (fs : FileSystem) (hmade : MadeCarefully fs)
    (request : FAT32DriverRequest) (buf : Memory)
    (hlive : Live fs.table request.parentClusterNumber) (hfile : ¬ MatchesDirectory request fs)
    (hread : read request fs = some (0, buf)) (lines : List Line) (u : UserShell)
    (hleaves : Guarded executeLine
      (LeavesFile (request.parentClusterNumber, (request.name, request.ext)))
      (firstPrompt fs) lines)
    (hmain : userMain fs lines = some u) :
    read request u.shell.fs = some (0, buf) := by
  obtain ⟨σ, hshows, -, -⟩ := hmade.shows
  obtain ⟨hs, b, hentry, -⟩ := read_content hshows.volume hshows.represents hlive hfile hread
  rw [userMain_eq] at hmain
  obtain ⟨σ', hend, hrep', hentry'⟩ :=
    lines_keep_entry ⟨hshows.volume, hshows.named⟩ hshows.represents hentry hleaves hmain
  exact read_eq_of_entry hshows.volume hshows.represents hend.volume hrep' hentry hentry' hs hread

theorem tokens_help : (typedWord [104, 101, 108, 112]).tokens
    = some (.help, [104, 101, 108, 112], { rows := [[104, 101, 108, 112]], cmdLength := 0 }) :=
  typedWord_tokens [104, 101, 108, 112] ⟨by decide, by decide, by decide, fun b hb => by
    obtain rfl := Option.some.inj hb
    decide⟩ rfl rfl

theorem userMain_help (fs : FileSystem) :
    ∃ u, userMain fs [typedWord [104, 101, 108, 112]] = some u := by
  have hhelp : userMain fs [typedWord [104, 101, 108, 112]]
      = (printHome { (firstPrompt fs).shell with
          screen := (firstPrompt fs).shell.screen ++ newline :: helpTexts ++ [.setCursor 1 0] }).map
        fun shell => { shell := shell, pages := [] } := by
    rw [userMain_eq, run_cons, executeLine, tokens_help]
    rfl
  refine ⟨_, hhelp.trans (congrArg (Option.map _) (if_pos ?_))⟩
  exact firstPrompt_fits

/-- The file of 508 clusters is there behind `help`. -/
theorem session_keeps_bigFile : ∃ buf u,
    read bigFile afterBigFile = some (0, buf) ∧
    userMain afterBigFile [typedWord [104, 101, 108, 112]] = some u ∧
    read bigFile u.shell.fs = some (0, buf) := by
  have hexec : execEvent (freshFileSystem blankDisk) (.call (.write zeroTable bigFile))
      = some afterBigFile := by
    rw [execEvent, exec, write_bigFile]
    rfl
  have hmade : MadeCarefully afterBigFile :=
    ⟨blankDisk, [.call (.write zeroTable bigFile)], ⟨bigFile_storeCall, fun _ _ => trivial⟩, by
      rw [run_cons, hexec]
      rfl⟩
  obtain ⟨σ, hinv, hrep, hentry⟩ := stored_entry (fresh_driverInvariant blankDisk)
    (fresh_represents blankDisk) bigFile_storeCall (by decide) write_bigFile
  obtain ⟨buf, hread, -⟩ := (hrep.read_file hinv hentry (by decide)).1 (by
    rw [clusterUnits_bufferBytes])
  have hfile := (storeCall_read hinv hrep hentry (by decide)).careful.2.2
  obtain ⟨u, hu⟩ := userMain_help afterBigFile
  refine ⟨buf, u, hread, hu, ?_⟩
  refine session_keeps_file afterBigFile hmade bigFile buf .root hfile hread _ u ?_ hu
  refine ⟨?_, fun _ _ => trivial⟩
  rw [LeavesFile, Line.calls, tokens_help]
  exact ⟨trivial, fun k hk => absurd hk List.not_mem_nil⟩

end OsyShell
