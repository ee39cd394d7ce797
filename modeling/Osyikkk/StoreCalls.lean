import Osyikkk.DirectoryRemovalProofs
import Osyikkk.RebootProofs
import Osyikkk.ReturnCodeProofs
import Osyikkk.StoreRepresentation

/-!
# The calls of a careful user

What a call asks of the store of `StoreRepresentation`, how its return code and its buffer
tell the store's answer, and which calls count: a careful user works on live directories,
stores new names only, leaves every entry a slot and a chain of its own, and does not read a
directory as a file. The conditions speak of the state a call meets. Such calls keep all that
is known of the volume (`DriverInvariant.exec`).
-/

namespace OsyVolume

open OsyDisk OsyFat32 LinkedChain RootedForest NodeStore

/-! ## Answers -/

/-- What a call returns: a code, a code and a buffer, or nothing. -/
inductive Answer where
  | code (c : Int8)
  | filled (c : Int8) (buf : Memory)
  | nothing

/-- A call with its answer. -/
def respond (fs : FileSystem) : Call → Option (Answer × FileSystem)
  | .write newTable request =>
      (OsyFat32.write newTable request fs).map fun (c, fs') => (.code c, fs')
  | .delete request => (OsyFat32.delete request fs).map fun (c, fs') => (.code c, fs')
  | .read request => (OsyFat32.read request fs).map fun (c, buf) => (.filled c buf, fs)
  | .readDirectory request =>
      let (c, buf) := OsyFat32.readDirectory request fs
      some (.filled c buf, fs)
  | .move srcTable destTable srcIdx =>
      (syscallMove srcTable destTable srcIdx fs).map fun fs' => (.nothing, fs')

/-- What a call asks of the store. -/
def Call.request : Call → Request UInt32 FullName (List UInt8)
  | .write _ request =>
      if request.bufferSize = 0 then
        .makeDirectory request.parentClusterNumber (request.name, fun _ => 0)
      else
        .putFile request.parentClusterNumber (request.name, request.ext) (bufferBytes request)
  | .delete request => .remove request.parentClusterNumber (request.name, request.ext)
  | .read request =>
      .read request.parentClusterNumber (request.name, request.ext) (clusterCount request)
  | .readDirectory request => .list request.parentClusterNumber (request.name, fun _ => 0)
  | .move srcTable destTable srcIdx =>
      .move (srcTable 0).cluster
        (fullName (srcTable (Fin.ofNat directoryEntryCount srcIdx.toNat))) (destTable 0).cluster

def entryKind (e : FAT32DirectoryEntry) : Option UInt32 :=
  if e.attr = attrSubdirectory then some e.cluster else none

/-- The slots `1..63` of a table say what a listing says. -/
def Lists (t : FAT32DirectoryTable) (kinds : FullName → Option (Option UInt32)) : Prop :=
  ∀ k o, kinds k = some o ↔ ∃ i, i ≠ 0 ∧ (t i).used ∧ fullName (t i) = k ∧ entryKind (t i) = o

/-- How the answers of a call tell those of the store. -/
inductive Reports : Call → Response UInt32 FullName (List UInt8) → Answer → Prop where
  | stored {newTable : FAT32DirectoryTable} {request : FAT32DriverRequest} :
      Reports (.write newTable request) .done (.code 0)
  | noSpace {newTable : FAT32DirectoryTable} {request : FAT32DriverRequest} :
      Reports (.write newTable request) .noSpace (.code 1)
  | removed {request : FAT32DriverRequest} : Reports (.delete request) .done (.code 0)
  | notEmpty {request : FAT32DriverRequest} : Reports (.delete request) .notEmpty (.code 2)
  | nothingRemoved {request : FAT32DriverRequest} :
      Reports (.delete request) .notFound (.code (-1))
  | content {request : FAT32DriverRequest} {b : List UInt8} {buf : Memory} :
      (List.range b.length).map buf = b → (∀ k, b.length ≤ k → buf k = request.buf k) →
      Reports (.read request) (.content b) (.filled 0 buf)
  | tooSmall {request : FAT32DriverRequest} :
      Reports (.read request) .tooSmall (.filled 2 request.buf)
  | nothingRead {request : FAT32DriverRequest} :
      Reports (.read request) .notFound (.filled 3 request.buf)
  | listing {request : FAT32DriverRequest} {t : FAT32DirectoryTable}
      {kinds : FullName → Option (Option UInt32)} : Lists t kinds →
      Reports (.readDirectory request) (.listing kinds)
        (.filled 0 fun k => if k < clusterSize then tableToMemory t k else request.buf k)
  | nothingListed {request : FAT32DriverRequest} :
      Reports (.readDirectory request) .notFound (.filled 2 request.buf)
  | moved {srcTable destTable : FAT32DirectoryTable} {srcIdx : UInt32} :
      Reports (.move srcTable destTable srcIdx) .done .nothing
  | notMoved {srcTable destTable : FAT32DirectoryTable} {srcIdx : UInt32} :
      Reports (.move srcTable destTable srcIdx) .noSlot .nothing

/-! ## Careful users -/

/-- Names are not empty, a file is read into a buffer and a directory listed, and a move
    finds no entry of its key. -/
def Careful (fs : FileSystem) : Call → Prop
  | .write _ request => request.name ≠ fun _ => 0
  | .delete request => request.name ≠ fun _ => 0
  | .read request => request.name ≠ (fun _ => 0) ∧ request.bufferSize ≠ 0 ∧
      ¬ MatchesDirectory request fs
  | .readDirectory request => request.name ≠ (fun _ => 0) ∧ request.bufferSize = 0 ∧
      ¬ IsDirectory request.name (fs.table request.parentClusterNumber 0)
  | .move srcTable destTable srcIdx => ∀ i : Fin directoryEntryCount, srcIdx.toNat = i →
      ∀ j, j ≠ 0 → (destTable j).used → fullName (destTable j) ≠ fullName (srcTable i)

/-- The requests that are steps of the store. -/
structure StoreCall (fs : FileSystem) (k : Call) : Prop where
  admissible : Admissible fs k
  ownership : KeepsOwnership fs k
  names : KeepsNames fs k
  careful : Careful fs k

/-- The directories of a volume have no extension. -/
def PlainDirectories (tbl : Tables) : Prop :=
  ∀ d i c, Live tbl d → dirEdge tbl d i c → (tbl d i).ext = fun _ => 0

/-- What every call of a careful user keeps. -/
structure DriverInvariant (fs : FileSystem) : Prop where
  owned : Owned fs.table fs.fat
  named : WellNamed fs.table
  mountable : Mountable fs
  plain : PlainDirectories fs.table

variable {fs fs' : FileSystem} {k : Call} {request : FAT32DriverRequest}
  {newTable : FAT32DirectoryTable} {code : Int8} {s : VolumeStore} {c : UInt32}
  {rest : List UInt32} {tbl tbl' : Tables} {fat fat' : FAT32FileAllocationTable}
  {p q : UInt32} {i j : Fin directoryEntryCount} {e : FAT32DirectoryEntry} {l : List UInt32}

theorem fresh_driverInvariant (disk : Disk) : DriverInvariant (freshFileSystem disk) where
  owned := fresh_owned disk
  named := fresh_wellNamed disk
  mountable := fresh_mountable disk
  plain _ _ _ hd he := absurd (usedSlot_of_dirEdge hd he) (fresh_no_slot disk)

/-! ## The invariant -/

theorem PlainDirectories.inserted (hplain : PlainDirectories tbl)
    (h : Inserted tbl tbl' fat fat' p i e l)
    (he : i ≠ 0 → e.attr = attrSubdirectory → e.ext = fun _ => 0) : PlainDirectories tbl' := by
  intro d j c hd hedge
  rcases h.usedSlot (usedSlot_of_dirEdge hd hedge) with ⟨-, -, hi, heq⟩ | ⟨hold, -, heq⟩
  · have hattr := hedge.2.2.1
    rw [heq] at hattr ⊢
    exact he hi hattr
  · rw [dirEdge, heq] at hedge
    rw [heq]
    exact hplain d j c hold.live hedge

theorem PlainDirectories.removed (hplain : PlainDirectories tbl) (hcons : Consistent tbl fat)
    (h : Removed tbl tbl' fat fat' p i l) : PlainDirectories tbl' := by
  intro d j c hd hedge
  have hs := usedSlot_of_dirEdge hd hedge
  have heq := h.entry_kept hcons hs
  rw [dirEdge, heq] at hedge
  rw [heq]
  exact hplain d j c ((h.usedSlot_iff hcons).mp hs).1.live hedge

theorem PlainDirectories.moved (hplain : PlainDirectories tbl) (h : Moved tbl tbl' p q i j)
    (hbelow : ¬ Below tbl p i q) : PlainDirectories tbl' := by
  intro d y c hd hedge
  obtain ⟨d₀, y₀, hs₀, heq, -⟩ := h.origin hbelow (usedSlot_of_dirEdge hd hedge)
  have hattr := hedge.2.2.1
  rw [heq] at hattr ⊢
  exact hplain d₀ y₀ _ hs₀.live ⟨hs₀.slot, hs₀.used, hattr, rfl⟩

/-- A moved entry has a name of its own when its target has no entry of its key. -/
theorem WellNamed.moved (hw : WellNamed tbl) (h : Moved tbl tbl' p q i j)
    (hbelow : ¬ Below tbl p i q)
    (hfresh : ∀ y, UsedSlot tbl q y → fullName (tbl q y) ≠ fullName (tbl p i)) :
    WellNamed tbl' := by
  have hentry : ∀ {d y}, UsedSlot tbl d y → ¬ (d = p ∧ y = i) → ¬ (d = q ∧ y = j) →
      tbl' d y = tbl d y := by
    intro d y hs hp hq
    rcases h.table hs.live y with ⟨hdp, hyi, -⟩ | ⟨hdq, hyj, -⟩ | ⟨-, -, ht⟩
    · exact absurd ⟨hdp, hyi⟩ hp
    · exact absurd ⟨hdq, hyj⟩ hq
    · exact ht
  have hdest : tbl' q j = tbl p i := by rw [h.dest, Function.update_self]
  constructor
  case named =>
    intro d y hs
    obtain ⟨d₀, y₀, hs₀, heq, -⟩ := h.origin hbelow hs
    rw [heq]
    exact hw.named hs₀
  case unique =>
    intro d y z hy hz hname hext
    rcases (h.usedSlot_iff hbelow).mp hy with ⟨rfl, rfl⟩ | ⟨hoy, hpy, hqy⟩
    · rcases (h.usedSlot_iff hbelow).mp hz with ⟨-, rfl⟩ | ⟨hoz, hpz, hqz⟩
      · rfl
      · rw [hdest, hentry hoz hpz hqz] at hname hext
        exact absurd (Prod.ext hname.symm hext.symm) (hfresh z hoz)
    · rcases (h.usedSlot_iff hbelow).mp hz with ⟨rfl, rfl⟩ | ⟨hoz, hpz, hqz⟩
      · rw [hdest, hentry hoy hpy hqy] at hname hext
        exact absurd (Prod.ext hname hext) (hfresh y hoy)
      · rw [hentry hoy hpy hqy, hentry hoz hpz hqz] at hname hext
        exact hw.unique hoy hoz hname hext

/-- A move writes to the two directories only. -/
theorem entryMoved_mountable (hmount : Mountable fs) (hs : UsedSlot fs.table p i)
    (hq : Live fs.table q) (hmove : Moved fs.table (entryMoved fs p q i j).table p q i j)
    (hbelow : ¬ Below fs.table p i q) : Mountable (entryMoved fs p q i j) := by
  have hcons := hmount.consistent
  have hrange : ∀ {d}, Live fs.table d → drivePlace fatClusterNumber ≠ drivePlace d ∧
      drivePlace bootSector ≠ drivePlace d := by
    intro d hd
    obtain ⟨h2, hlt⟩ := hcons.live_range hd
    exact ⟨(place_ne_fatCluster h2 hlt).symm, place_ne_boot h2 hlt⟩
  constructor
  case consistent => exact hmove.consistent hcons hbelow
  case image =>
    have hkept : clusterAt (entryMoved fs p q i j).disk fatClusterNumber
        = clusterAt fs.disk fatClusterNumber :=
      entryMoved_clusterAt (hrange hs.live).1 (hrange hq).1
    exact (readFat_congr hkept).trans hmount.image
  case signed =>
    have hkept : clusterAt (entryMoved fs p q i j).disk bootSector = clusterAt fs.disk bootSector :=
      entryMoved_clusterAt (hrange hs.live).2 (hrange hq).2
    rw [isEmptyStorage_congr hkept]
    exact hmount.signed

/-- A move leaves everything as it is, or moves the entry to a slot of the destination. -/
theorem StoreCall.move {srcTable destTable : FAT32DirectoryTable} {srcIdx : UInt32}
    (hk : StoreCall fs (.move srcTable destTable srcIdx)) (hinv : DriverInvariant fs) :
    ∃ p q i, UsedSlot fs.table p i ∧ Live fs.table q ∧ srcTable = fs.table p ∧
      destTable = fs.table q ∧ srcIdx.toNat = i ∧
      (syscallMove srcTable destTable srcIdx fs = some fs ∨
        ∃ j, syscallMove srcTable destTable srcIdx fs = some (entryMoved fs p q i j) ∧
          Moved fs.table (entryMoved fs p q i j).table p q i j ∧ ¬ Below fs.table p i q ∧
          ∀ y, UsedSlot fs.table q y → fullName (fs.table q y) ≠ fullName (fs.table p i)) := by
  have hown := hinv.owned
  rcases hk.admissible with ⟨hlive, -⟩ | hmove
  · exact absurd hlive id
  obtain ⟨p, q, i, hp, hq, rfl, rfl, hi, hidx, hused⟩ := hmove
  refine ⟨p, q, i, ⟨hp, hi, hused⟩, hq, rfl, rfl, hidx, ?_⟩
  cases hfind : firstUnused (fs.table q) with
  | none => exact Or.inl (syscallMove_full (hown.self hp) (hown.self hq) hfind)
  | some j =>
      obtain ⟨hj, hun⟩ := firstUnused_some hfind
      obtain ⟨hpq, hbelow⟩ := hk.ownership ⟨j, hj, hun⟩
      rw [hown.self hp, hown.self hq] at hpq hbelow
      refine Or.inr ⟨j, syscallMove_eq (hown.self hp) (hown.self hq) hi hidx hfind, ?_, ?_, ?_⟩
      · exact entryMoved_moved hown.consistent ⟨hp, hi, hused⟩ hq hpq hj hun
      · exact hbelow i hidx
      · exact fun y hs => hk.careful i hidx y hs.slot hs.used

/-- Directories meet another first free cell than 511. -/
theorem StoreCall.keepsImage (hk : StoreCall fs k) : KeepsImage fs k := by
  cases k with
  | write newTable request =>
      intro hn hs c hc
      have hmany : ¬ FewCells request fs := by
        rintro (⟨-, hnone⟩ | ⟨hne, -⟩)
        · rw [hnone] at hc
          cases hc
        · exact hne hs
      exact (hk.ownership hn hmany).2 hs c hc
  | delete request => exact hk.ownership
  | read request => trivial
  | readDirectory request => trivial
  | move srcTable destTable srcIdx => trivial

/-- What `write` stores is plain. -/
theorem WriteOutcome.plain (hplain : PlainDirectories fs.table) (hcons : FsConsistent fs)
    (hlive : OnLiveDirectory fs (.write newTable request))
    (h : WriteOutcome newTable request fs code fs') : PlainDirectories fs'.table := by
  obtain ⟨hlive, hzero⟩ := hlive
  cases h with
  | refused _ => exact hplain
  | leaked _ _ _ => exact hplain
  | @directory c rest _ _ hfree _ =>
      have hc : c ∈ freeCells fs.fat := hfree ▸ List.mem_cons_self
      exact hplain.inserted (directoryWritten_inserted hcons hlive hc hzero)
        fun h0 _ => directoryEntry_ext hcons hlive h0 c
  | @file c rest _ hs _ _ htake =>
      exact hplain.inserted (fileWritten_inserted hcons hlive hs htake)
        fun _ hattr => absurd hattr (fileEntry_notDirectory c hs)

/-- A careful call keeps the invariant. -/
theorem DriverInvariant.exec (hinv : DriverInvariant fs) (hk : StoreCall fs k)
    (h : exec fs k = some fs') : DriverInvariant fs' := by
  have hcons := hinv.owned.consistent
  have howned : Owned fs'.table fs'.fat := by
    obtain ⟨fs₁, h₁, hown⟩ := exec_owned fs k hinv.owned ⟨hk.admissible, hk.ownership⟩
    rw [h, Option.some.injEq] at h₁
    exact h₁ ▸ hown
  rcases hk.admissible with ⟨hlive, hwhole⟩ | hmove
  · have hnamed := exec_nameInvariant fs k fs' ⟨hcons, hinv.named⟩ ⟨hlive, hk.names⟩ h
    have hmount : Mountable fs' := by
      obtain ⟨fs₁, h₁, hmount⟩ :=
        exec_mountable fs k hinv.mountable ⟨⟨hlive, hwhole⟩, hk.keepsImage⟩
      rw [h, Option.some.injEq] at h₁
      exact h₁ ▸ hmount
    refine ⟨howned, hnamed.2, hmount, ?_⟩
    have hplain := hinv.plain
    cases driverCall_outcome hcons hlive h with
    | unchanged => exact hplain
    | write _ hout => exact hout.plain hplain hcons hlive
    | delete hn hout =>
        rcases hout.removed hcons hlive hn with rfl | ⟨i, l, freed, -, -, -, hrem⟩
        · exact hplain
        · exact hplain.removed hcons hrem
  · obtain ⟨srcTable, destTable, srcIdx, rfl⟩ := exists_move hmove
    obtain ⟨p, q, i, hs, hq, -, -, -, hcases⟩ := hk.move hinv
    change syscallMove srcTable destTable srcIdx fs = some fs' at h
    rcases hcases with hfull | ⟨j, heq, hmoved, hbelow, hfresh⟩
    · rw [hfull, Option.some.injEq] at h
      exact h ▸ hinv
    · rw [heq, Option.some.injEq] at h
      subst h
      exact ⟨howned, hinv.named.moved hmoved hbelow hfresh,
        entryMoved_mountable hinv.mountable hs hq hmoved hbelow,
        PlainDirectories.moved hinv.plain hmoved hbelow⟩

theorem respond_exec (fs : FileSystem) (k : Call) :
    (respond fs k).map Prod.snd = exec fs k := by
  cases k with
  | write newTable request => rw [respond, exec, Option.map_map]; rfl
  | delete request => rw [respond, exec, Option.map_map]; rfl
  | read request => rw [respond, exec, Option.map_map]; rfl
  | readDirectory request => rfl
  | move srcTable destTable srcIdx =>
      rw [respond, exec, Option.map_map]
      exact congrFun Option.map_id _

end OsyVolume
