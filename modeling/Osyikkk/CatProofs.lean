import Osyikkk.FileArgumentProofs
import Osyikkk.FileMapProofs
import Osyikkk.StackRangeProofs

/-!
# Printing a file

The request that `cat` issues is put together from three places: the name is the first eight
bytes of the token, the extension is the parsed one, and the size is that of the first slot
with what the parser has left of the name. They agree with the file's own fields exactly when
the token has no extension or a name of eight characters, and the first slot with the name has
the file's size (`printsFile_iff`).
-/

namespace OsyShell

open OsyDisk OsyFat32 OsyVolume PartialRun

variable {locals : Locals} {behind : UInt8} {s : Shell} {name ext row : List UInt8}
  {t : FAT32DirectoryTable} {d : UInt32} {i : Fin directoryEntryCount} {l : List UInt32}

/-! ## The request -/

/-- The first slot with a name. -/
def firstNamed (t : FAT32DirectoryTable) (name : List UInt8) : Option (Fin directoryEntryCount) :=
  (slotsFrom 1).find? fun i => cString (List.ofFn (t i).name) = name

/-- The request that `cat` issues for a row, over the table it has. -/
def catRequest (locals : Locals) (row : List UInt8) (t : FAT32DirectoryTable) (d : UInt32) :
    Option FAT32DriverRequest :=
  (firstNamed t (cString (parseTarget (charAt row)).name)).map fun i =>
    { buf := locals.cl
      name := rowName row
      ext := fun j => (parseTarget (charAt row)).targetExt j
      parentClusterNumber := d
      bufferSize := (t i).filesize }

/-- The table `cat` searches: the one it finds by the name of the current directory, or else
    what its local held before. -/
def searchedTable (locals : Locals) (s : Shell) : FAT32DirectoryTable :=
  (currentTable s.fs s.stack.levels).getD locals.currentTable

/-- The clusters of a file as `cat` prints them. -/
def printedClusters (disk : Disk) (l : List UInt32) : List Display :=
  l.map fun c => .writeString (cString (clusterBytes disk c)) white

theorem catLoop_request (hlen : s.stack.length ≠ 0) :
    catLoop locals row (parseTarget (charAt row)) t s =
      match catRequest locals row t (directoryNumber s.stack.levels) with
      | none => some s
      | some request => (read request s.fs).bind fun (retcode, buf) =>
          if retcode ≠ 0 then
            some (s.print (text "cat:  : No such file or directory\n") white)
          else
            some { s with
              screen := s.screen ++ clusterTexts buf (request.bufferSize / 2048).toNat } := by
  have hslot : (slotsFrom 1).find? (fun i =>
        strcmp (List.ofFn (t i).name) (parseTarget (charAt row)).name = 0)
      = firstNamed t (cString (parseTarget (charAt row)).name) :=
    List.find?_congr fun i _ => decide_eq_decide.mpr strcmp_eq_zero_iff
  rw [catLoop, hslot, catRequest]
  cases firstNamed t (cString (parseTarget (charAt row)).name) with
  | none => rfl
  | some i => simp only [top_eq hlen, Option.bind_eq_bind, Option.bind_some, Option.map_some,
      directoryNumber_levels hlen]

/-- The fields of the request for a file's token. -/
theorem catRequest_fileName (h : IsFileName name ext) :
    catRequest locals (fileName name ext) t d =
      (firstNamed t (if ext = [] ∨ 7 ≤ name.length then name else [])).map fun i =>
        { buf := locals.cl
          name := rowName (fileName name ext)
          ext := rowExt ext
          parentClusterNumber := d
          bufferSize := (t i).filesize } := by
  rw [catRequest, (parseTarget_strings h).1, parseTarget_fileName h]
  rfl

/-! ## The branch -/

/-- `cat token` up to the restoring loop, in the directory the user is in. -/
theorem catBody_token (hlen : s.stack.length ≠ 0) (h : IsFileName name ext) :
    catBody locals (pathTable Branch.cat.word [fileName name ext]) s =
      (catLoop locals (fileName name ext) (parseTarget (charAt (fileName name ext)))
        (searchedTable locals s) s).map fun s₁ => (2, s₁) := by
  have hquiet : s.printParsed (parseTarget (charAt (fileName name ext))) = s := by
    rw [parseTarget_fileName h]
    rfl
  obtain ⟨code, hread⟩ : ∃ code,
      readCurrentTable locals.currentTable s = some (code, searchedTable locals s) := by
    rw [searchedTable]
    cases ht : currentTable s.fs s.stack.levels with
    | some t => exact ⟨0, readCurrentTable_found hlen _ ht⟩
    | none =>
        obtain ⟨code, -, hread⟩ := readCurrentTable_none hlen locals.currentTable ht
        exact ⟨code, hread⟩
  rw [catBody, pathLoopIf_word _ _ h.isPath]
  simp only [Option.bind_eq_bind, Option.bind_some, row_word, hquiet, hread]
  rw [Option.map_eq_bind]
  rfl

/-! ## What `cat` prints -/

/-- The buffer of a file, cluster by cluster. -/
theorem clusterTexts_copied (disk : Disk) (buf : Memory) (l : List UInt32) :
    clusterTexts (copyClusters disk buf 0 l) l.length = printedClusters disk l := by
  refine List.ext_getElem ?_ fun m hm hm' => ?_
  · rw [clusterTexts, printedClusters, List.length_map, List.length_map, List.length_range]
  have hlt : m < l.length := by rwa [printedClusters, List.length_map] at hm'
  have hbytes : (List.range clusterSize).map
      ((copyClusters disk buf 0 l).offset (clusterSize * m)) = clusterBytes disk l[m] := by
    rw [← ofFn_eq_map_range, clusterBytes]
    refine congrArg List.ofFn (funext fun r => ?_)
    have hinside := copyClusters_inside disk buf 0 hlt r
    rwa [Nat.zero_add] at hinside
  simp only [clusterTexts, printedClusters, List.getElem_map, List.getElem_range]
  rw [hbytes]

/-- The request has the fields of the entry. -/
structure AsksFor (request : FAT32DriverRequest) (e : FAT32DirectoryEntry) : Prop where
  name : request.name = e.name
  ext : request.ext = e.ext
  size : request.bufferSize = e.filesize

/-- `cat token` issues a read of the entry, which succeeds, and has printed the clusters in
    order when it gets to its restoring loop. -/
def PrintsFile (locals : Locals) (behind : UInt8) (s : Shell) (token : List UInt8)
    (e : FAT32DirectoryEntry) (l : List UInt32) : Prop :=
  ∃ cmd request buf s₁,
    commandOf behind (bufferOf (pathLine Branch.cat.word [token])) = some (.cat, cmd) ∧
    catRequest locals token (searchedTable locals s) (directoryNumber s.stack.levels)
      = some request ∧
    AsksFor request e ∧ read request s.fs = some (0, buf) ∧
    catBody locals cmd (s.print (text "\n") white) = some (2, s₁) ∧
    s₁.fs = s.fs ∧ s₁.screen = s.screen ++ newline :: printedClusters s.fs.disk l

/-- The token's first bytes are the name, and the first slot with the name has the size of the
    file. -/
def AgreesOnFile (locals : Locals) (s : Shell) (name ext : List UInt8)
    (e : FAT32DirectoryEntry) : Prop :=
  (ext = [] ∨ name.length = 8) ∧ ∃ j, firstNamed (searchedTable locals s) name = some j ∧
    (searchedTable locals s j).filesize = e.filesize

theorem PrintsFile.agrees (hname : IsFileName name ext)
    (hfile : FileAt s.fs (directoryNumber s.stack.levels) name ext i l)
    (h : PrintsFile locals behind s (fileName name ext)
      (s.fs.table (directoryNumber s.stack.levels) i) l) :
    AgreesOnFile locals s name ext (s.fs.table (directoryNumber s.stack.levels) i) := by
  obtain ⟨cmd, request, buf, s₁, -, hrequest, hasks, -⟩ := h
  rw [catRequest_fileName hname, Option.map_eq_some_iff] at hrequest
  obtain ⟨j, hj, rfl⟩ := hrequest
  have htoken := (rowName_fileName hname).mp (hasks.name.trans hfile.nameField)
  rw [if_pos (htoken.imp_right fun h8 => h8 ▸ Nat.le_succ 7)] at hj
  exact ⟨htoken, j, hj, hasks.size⟩

/-- **`cat` prints a file** exactly when the three places that its request is put together from
    agree on it. -/
theorem printsFile_iff (locals : Locals) (behind : UInt8) (hlen : s.stack.length ≠ 0)
    (hname : IsFileName name ext)
    (hfile : FileAt s.fs (directoryNumber s.stack.levels) name ext i l) :
    PrintsFile locals behind s (fileName name ext)
        (s.fs.table (directoryNumber s.stack.levels) i) l ↔
      AgreesOnFile locals s name ext (s.fs.table (directoryNumber s.stack.levels) i) := by
  refine ⟨PrintsFile.agrees hname hfile, ?_⟩
  rintro ⟨htoken, j, hj, hsize⟩
  let request : FAT32DriverRequest :=
    { buf := locals.cl
      name := rowName (fileName name ext)
      ext := rowExt ext
      parentClusterNumber := directoryNumber s.stack.levels
      bufferSize := (searchedTable locals s j).filesize }
  have hrequest : catRequest locals (fileName name ext) (searchedTable locals s)
      (directoryNumber s.stack.levels) = some request := by
    rw [catRequest_fileName hname, if_pos (htoken.imp_right fun h8 => h8 ▸ Nat.le_succ 7), hj]
    rfl
  have hasks : AsksFor request (s.fs.table (directoryNumber s.stack.levels) i) :=
    ⟨((rowName_fileName hname).mpr htoken).trans hfile.nameField.symm, hfile.extField.symm, hsize⟩
  have hclusters : clusterCount request = l.length := by
    rw [clusterCount_eq, hasks.size, hfile.sized]
  have hsized : request.bufferSize ≠ 0 := by
    intro hzero
    rw [clusterCount_eq, hzero] at hclusters
    exact hfile.nonempty (List.length_eq_zero_iff.mp hclusters.symm)
  have hnamed : request.name ≠ fun _ => 0 := by
    rw [hasks.name, hfile.nameField]
    exact hname.rowName_ne
  have hread : read request s.fs = some (0, copyClusters s.fs.disk locals.cl 0 l) :=
    read_eq hnamed hsized (hfile.firstMatch hasks.name hasks.ext) hfile.chain
      (Nat.le_of_eq hclusters.symm)
  let s₁ : Shell := { s with screen := s.screen ++ [newline] ++ printedClusters s.fs.disk l }
  have hloop : catLoop locals (fileName name ext) (parseTarget (charAt (fileName name ext)))
      (searchedTable locals s) (s.print (text "\n") white) = some s₁ := by
    rw [catLoop_request (s := s.print (text "\n") white) hlen]
    show (match catRequest locals (fileName name ext) (searchedTable locals s)
      (directoryNumber s.stack.levels) with | none => _ | some r => _) = _
    rw [hrequest]
    show (read request s.fs).bind _ = _
    rw [hread, Option.bind_some]
    show some _ = some _
    rw [show (request.bufferSize / 2048).toNat = l.length from hclusters, clusterTexts_copied]
    rfl
  refine ⟨_, request, _, s₁, commandOf_word behind .cat hname.isPath, hrequest, hasks, hread,
    ?_, ?_⟩
  · rw [catBody_token (s := s.print (text "\n") white) hlen hname]
    show (catLoop locals (fileName name ext) _ (searchedTable locals s) _).map _ = _
    rw [hloop]
    rfl
  · exact ⟨rfl, List.append_assoc _ _ _⟩

/-! ## A file in the root -/

/-- A file of one cluster in the fresh root. -/
def rootFile (name ext : List UInt8) : FAT32DriverRequest :=
  { rootRequest name 2048 with ext := rowExt ext }

/-- The file system with that file. -/
def withFile (name ext : List UInt8) : FileSystem :=
  fileWritten (rootFile name ext) (freshFileSystem blankDisk) 3 []

theorem withFile_fileAt (h : IsFileName name ext) :
    FileAt (withFile name ext) rootClusterNumber name ext 1 [3] ∧
      (withFile name ext).table rootClusterNumber 0
        = (freshFileSystem blankDisk).table rootClusterNumber 0 := by
  have hwf := fresh_wellFormed blankDisk
  have hslot : writeSlot (rootFile name ext) (freshFileSystem blankDisk) = 1 :=
    fresh_idxEmpty blankDisk
  have hcount : clusterCount (rootFile name ext) = 1 := by
    show ((2048 : UInt32) / 2048).toNat = 1
    decide
  have hreq : FileRequest (rootFile name ext) (freshFileSystem blankDisk) := by
    constructor
    case named => exact h.rowName_ne
    case sized => exact (by decide : (2048 : UInt32) ≠ 0)
    case whole => exact (by decide : clusterSize ∣ (2048 : UInt32).toNat)
    case live => exact RootedForest.Reach.root
    case slot =>
      exact ⟨1, by decide, fresh_unused blankDisk (by decide)⟩
    case fresh =>
      intro i hi
      exact h.rowName_ne (hi.2.1.trans (congrArg _ (fresh_slot blankDisk hi.1)))
    case cells =>
      rw [hcount, fresh_freeCells]
      decide +kernel
  have htake : (freeCells (freshFileSystem blankDisk).fat).take
      (clusterCount (rootFile name ext)) = [3] := by
    rw [hcount, fresh_freeCells]
    rfl
  have hstored := fileAt_stored hwf hreq htake (by rw [hslot]; decide) rfl rfl
  rw [hslot] at hstored
  refine ⟨hstored, ?_⟩
  have hentry := (stored_inserted hwf hreq htake).entry
  rw [hslot] at hentry
  exact (congrFun hentry 0).trans (Function.update_of_ne (by decide) _ _)

/-- In that root `cat` finds the file's slot first. -/
theorem withFile_agrees (h : IsFileName name ext) (hfits : ext = [] ∨ name.length = 8) :
    AgreesOnFile locals (startShell (withFile name ext)) name ext
      ((withFile name ext).table rootClusterNumber 1) := by
  obtain ⟨hfile, hzero⟩ := withFile_fileAt h
  have hnamed : NamedAt (withFile name ext).table rootClusterNumber rootName 0
      rootClusterNumber := by
    have hroot := (fresh_selfTree blankDisk).root_named
    refine ⟨?_, fun j hj => absurd hj (Fin.not_lt_zero _), ?_⟩
    · rw [hzero]
      exact hroot.named
    · rw [hzero]
      exact hroot.cluster
  have htable : searchedTable locals (startShell (withFile name ext))
      = (withFile name ext).table rootClusterNumber := by
    show (currentTable (withFile name ext) [rootLevel]).getD _ = _
    rw [currentTable_start hnamed, Option.getD_some]
  have hfirst : firstNamed ((withFile name ext).table rootClusterNumber) name = some 1 := by
    rw [firstNamed, find?_ordered (slotsFrom_ordered 1)]
    refine ⟨mem_slotsFrom_one.mpr (by decide), ?_, ?_⟩
    · rw [hfile.nameField, decide_eq_true_eq]
      exact cString_rowName h.namePart
    · intro j hj hlt
      exact absurd (Fin.ext (Nat.lt_one_iff.mp hlt)) (mem_slotsFrom_one.mp hj)
  exact ⟨hfits, 1, by rw [htable, hfirst], by rw [htable]⟩

/-- `cat a` prints the file `a`. -/
theorem printsFile_a : PrintsFile zeroLocals 0 (startShell (withFile [97] [])) (fileName [97] [])
    ((withFile [97] []).table rootClusterNumber 1) [3] := by
  have hname : IsFileName [97] [] := by decide
  exact (printsFile_iff zeroLocals 0 (s := startShell (withFile [97] []))
    (by show (1 : UInt8) ≠ 0; decide) hname (withFile_fileAt hname).1).mpr
      (withFile_agrees hname (Or.inl rfl))

/-- `cat a.t` does not print the file `a.t`. -/
theorem shortName_notPrinted :
    FileAt (withFile [97] [116]) rootClusterNumber [97] [116] 1 [3] ∧
      ¬ PrintsFile zeroLocals 0 (startShell (withFile [97] [116])) (fileName [97] [116])
        ((withFile [97] [116]).table rootClusterNumber 1) [3] := by
  have hname : IsFileName [97] [116] := by decide
  have hfile := (withFile_fileAt hname).1
  refine ⟨hfile, fun h => ?_⟩
  have hagrees := PrintsFile.agrees (s := startShell (withFile [97] [116])) hname hfile h
  exact absurd hagrees.1 (by decide)

end OsyShell
