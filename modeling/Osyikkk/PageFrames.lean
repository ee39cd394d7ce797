import Mathlib.Data.UInt
import Mathlib.Data.List.Range
import Mathlib.Logic.Function.Basic

/-!
# The frame allocator of `paging.c`

`allocate_single_user_page_frame` counts a physical address up by one frame a call and
compares it with `0x100000` for the limit. That is 1 MiB and no multiple of the frame size,
so the comparison never holds: every call succeeds (`allocate_eq`) and call `k` hands out
the address `4 MiB * (k + 1)`, wrapped to 32 bits. The frames are those of the machine for
31 calls and no longer.
-/

namespace OsyPaging

abbrev pageEntryCount : ℕ := 1024
abbrev pageFrameSize : UInt32 := 4 * 1024 * 1024

/-- The 128 MiB of the default QEMU configuration. -/
abbrev maxMemory : ℕ := 128 * 1024 * 1024

/-- `struct PageDirectoryEntryFlag`. -/
structure PageDirectoryEntryFlag where
  presentBit : BitVec 1
  writeBit : BitVec 1
  userBit : BitVec 1
  writeThroughBit : BitVec 1
  cacheDisableBit : BitVec 1
  accessedBit : BitVec 1
  availableBit : BitVec 1
  usePagesize4Mb : BitVec 1
  deriving DecidableEq

/-- `struct PageDirectoryEntry`. -/
structure PageDirectoryEntry where
  flag : PageDirectoryEntryFlag
  globalPage : BitVec 1
  available : BitVec 3
  patBit : BitVec 1
  higherAddress : BitVec 8
  reserved : BitVec 1
  lowerAddress : BitVec 10
  deriving DecidableEq

/-- `struct PageDirectory`: its one member `table`. -/
abbrev PageDirectory := Fin pageEntryCount → PageDirectoryEntry

/-- `_paging_kernel_page_directory` and `page_driver_state`. -/
structure PagingState where
  pageDirectory : PageDirectory
  lastAvailablePhysicalAddr : UInt32

/-- An entry with every bit zero. -/
def PageDirectoryEntry.zero : PageDirectoryEntry where
  flag :=
    { presentBit := 0
      writeBit := 0
      userBit := 0
      writeThroughBit := 0
      cacheDisableBit := 0
      accessedBit := 0
      availableBit := 0
      usePagesize4Mb := 0 }
  globalPage := 0
  available := 0
  patBit := 0
  higherAddress := 0
  reserved := 0
  lowerAddress := 0

/-- `_paging_kernel_page_directory` as it is initialised: frame 0 at the bottom of the
    address space and at `0xC0000000`. -/
def kernelPageDirectory : PageDirectory := fun i =>
  if i.val = 0 ∨ i.val = 0x300 then
    { PageDirectoryEntry.zero with
      flag :=
        { PageDirectoryEntry.zero.flag with
          presentBit := 1
          writeBit := 1
          usePagesize4Mb := 1 } }
  else PageDirectoryEntry.zero

/-- `page_driver_state` as it is initialised, with any page directory. -/
def PagingState.initial (pageDirectory : PageDirectory) : PagingState where
  pageDirectory := pageDirectory
  lastAvailablePhysicalAddr := 0 + pageFrameSize

/-- `(addr >> 22) & 0x3FF`. -/
def frameIndex (addr : UInt32) : UInt32 := addr >>> 22 &&& 0x3FF

theorem frameIndex_lt (addr : UInt32) : (frameIndex addr).toNat < pageEntryCount := by
  rw [frameIndex, UInt32.toNat_and]
  exact Nat.lt_succ_of_le Nat.and_le_right

/-- The entry of a virtual address. -/
def pageIndex (virtualAddr : UInt32) : Fin pageEntryCount :=
  ⟨(frameIndex virtualAddr).toNat, frameIndex_lt virtualAddr⟩

/-- `update_page_directory_entry`; the flushed TLB entry is not part of the state. -/
def updatePageDirectoryEntry (physicalAddr virtualAddr : UInt32)
    (flag : PageDirectoryEntryFlag) (s : PagingState) : PagingState :=
  let entry := s.pageDirectory (pageIndex virtualAddr)
  { s with
    pageDirectory := Function.update s.pageDirectory (pageIndex virtualAddr)
      { entry with
        flag := flag
        lowerAddress := BitVec.ofNat 10 (frameIndex physicalAddr).toNat } }

/-- The flags of a user page. -/
def userFlag : PageDirectoryEntryFlag where
  presentBit := 1
  writeBit := 1
  userBit := 1
  writeThroughBit := 0
  cacheDisableBit := 0
  accessedBit := 0
  availableBit := 0
  usePagesize4Mb := 1

/-- `allocate_single_user_page_frame`. -/
def allocateSingleUserPageFrame (virtualAddr : UInt32) (s : PagingState) :
    Int8 × PagingState :=
  let start := s.lastAvailablePhysicalAddr
  if start = 0x100000 then (-1, s)
  else
    (0, { updatePageDirectoryEntry start virtualAddr userFlag s with
          lastAvailablePhysicalAddr := start + pageFrameSize })

/-! ## Runs of calls -/

/-- The state after a list of calls. -/
def afterCalls (s : PagingState) (virtualAddrs : List UInt32) : PagingState :=
  virtualAddrs.foldl (fun s virtualAddr => (allocateSingleUserPageFrame virtualAddr s).2) s

/-- The physical address a page directory maps a virtual address to. -/
def mappedFrame (pageDirectory : PageDirectory) (virtualAddr : UInt32) : ℕ :=
  (pageDirectory (pageIndex virtualAddr)).lowerAddress.toNat * pageFrameSize.toNat

/-- The physical frames the calls that return 0 hand out, in order. -/
def handedOut : PagingState → List UInt32 → List ℕ
  | _, [] => []
  | s, virtualAddr :: rest =>
      let (code, s') := allocateSingleUserPageFrame virtualAddr s
      if code = 0 then mappedFrame s'.pageDirectory virtualAddr :: handedOut s' rest
      else handedOut s' rest

/-- A frame of the machine that is not the kernel's. -/
def UserFrame (frame : ℕ) : Prop :=
  pageFrameSize.toNat ∣ frame ∧ frame ≠ 0 ∧ frame + pageFrameSize.toNat ≤ maxMemory

/-- Every frame is handed out once and is a user frame; when all are used up a call fails
    and changes no mapping. -/
structure FramesSound (s : PagingState) (virtualAddrs : List UInt32) : Prop where
  distinct : (handedOut s virtualAddrs).Nodup
  userFrames : ∀ frame ∈ handedOut s virtualAddrs, UserFrame frame
  usedUp : ∀ before virtualAddr after, virtualAddrs = before ++ virtualAddr :: after →
    (∀ frame, UserFrame frame → frame ∈ handedOut s before) →
    (allocateSingleUserPageFrame virtualAddr (afterCalls s before)).1 = -1 ∧
      (allocateSingleUserPageFrame virtualAddr (afterCalls s before)).2.pageDirectory
        = (afterCalls s before).pageDirectory

/-! ## What the calls hand out -/

/-- The next call takes the frame of number `n`, wrapped to the address space. -/
def NextFrame (s : PagingState) (n : ℕ) : Prop :=
  s.lastAvailablePhysicalAddr.toNat = n % pageEntryCount * pageFrameSize.toNat

theorem initial_nextFrame (pageDirectory : PageDirectory) :
    NextFrame (.initial pageDirectory) 1 := rfl

theorem frameIndex_toNat (addr : UInt32) : (frameIndex addr).toNat = addr.toNat / 2 ^ 22 := by
  have haddr := UInt32.toNat_lt addr
  have hshift : (addr >>> 22).toNat = addr.toNat / 2 ^ 22 := by
    rw [UInt32.toNat_shiftRight]
    exact Nat.shiftRight_eq_div_pow _ 22
  have hand : (frameIndex addr).toNat = addr.toNat / 2 ^ 22 % 2 ^ 10 := by
    rw [frameIndex, UInt32.toNat_and, hshift]
    exact Nat.and_two_pow_sub_one_eq_mod _ 10
  rw [hand]
  omega

/-- No frame starts at 1 MiB, so the limit is never met. -/
theorem nextFrame_ne_limit {s : PagingState} {n : ℕ} (h : NextFrame s n) :
    s.lastAvailablePhysicalAddr ≠ 0x100000 := by
  intro heq
  have hnat : (0x100000 : UInt32).toNat = n % pageEntryCount * pageFrameSize.toNat := heq ▸ h
  have hlimit : (0x100000 : UInt32).toNat = 1048576 := by decide
  have hsize : pageFrameSize.toNat = 4194304 := by decide
  rw [hlimit, hsize] at hnat
  omega

/-- Every call succeeds. -/
theorem allocate_eq {s : PagingState} {n : ℕ} (h : NextFrame s n) (virtualAddr : UInt32) :
    allocateSingleUserPageFrame virtualAddr s
      = (0, { updatePageDirectoryEntry s.lastAvailablePhysicalAddr virtualAddr userFlag s with
              lastAvailablePhysicalAddr := s.lastAvailablePhysicalAddr + pageFrameSize }) :=
  if_neg (nextFrame_ne_limit h)

theorem allocate_nextFrame {s : PagingState} {n : ℕ} (h : NextFrame s n)
    (virtualAddr : UInt32) :
    NextFrame (allocateSingleUserPageFrame virtualAddr s).2 (n + 1) := by
  rw [allocate_eq h]
  have hn : n % pageEntryCount < pageEntryCount := Nat.mod_lt _ (by decide)
  have hsize : pageFrameSize.toNat = 4194304 := by decide
  show (s.lastAvailablePhysicalAddr + pageFrameSize).toNat = _
  rw [NextFrame, hsize] at h
  rw [UInt32.toNat_add, h, hsize]
  simp only [pageEntryCount] at hn ⊢
  omega

/-- A call maps its virtual address to the frame whose turn it is. -/
theorem allocate_mappedFrame {s : PagingState} {n : ℕ} (h : NextFrame s n)
    (virtualAddr : UInt32) :
    mappedFrame (allocateSingleUserPageFrame virtualAddr s).2.pageDirectory virtualAddr
      = n % pageEntryCount * pageFrameSize.toNat := by
  have hn : n % pageEntryCount < pageEntryCount := Nat.mod_lt _ (by decide)
  have hindex : (frameIndex s.lastAvailablePhysicalAddr).toNat = n % pageEntryCount := by
    have hsize : pageFrameSize.toNat = 4194304 := by decide
    rw [frameIndex_toNat, h, hsize]
    omega
  rw [allocate_eq h]
  simp only [mappedFrame, updatePageDirectoryEntry, Function.update_self, hindex,
    BitVec.toNat_ofNat]
  rw [Nat.mod_eq_of_lt hn]

/-- Call after call the frames are handed out in order, around the address space. -/
theorem handedOut_eq {s : PagingState} {n : ℕ} (h : NextFrame s n)
    (virtualAddrs : List UInt32) :
    handedOut s virtualAddrs
      = (List.range' n virtualAddrs.length).map
          fun k => k % pageEntryCount * pageFrameSize.toNat := by
  induction virtualAddrs generalizing s n with
  | nil => rfl
  | cons virtualAddr rest ih =>
      have hcode : (allocateSingleUserPageFrame virtualAddr s).1 = 0 := by rw [allocate_eq h]
      have hrest := ih (allocate_nextFrame h virtualAddr)
      rw [handedOut]
      simp only [hcode, if_true, allocate_mappedFrame h, hrest, List.length_cons,
        List.range'_succ, List.map_cons]

theorem mem_handedOut_initial {pageDirectory : PageDirectory} {virtualAddrs : List UInt32}
    {frame : ℕ} :
    frame ∈ handedOut (.initial pageDirectory) virtualAddrs ↔
      ∃ k, 1 ≤ k ∧ k ≤ virtualAddrs.length ∧
        k % pageEntryCount * pageFrameSize.toNat = frame := by
  rw [handedOut_eq (initial_nextFrame pageDirectory)]
  simp only [List.mem_map, List.mem_range'_1]
  constructor
  · rintro ⟨k, ⟨h1, hk⟩, heq⟩
    exact ⟨k, h1, by omega, heq⟩
  · rintro ⟨k, h1, hk, heq⟩
    exact ⟨k, ⟨h1, by omega⟩, heq⟩

/-- The frames of the machine are the numbers 1 to 31. -/
theorem userFrame_iff {k : ℕ} :
    UserFrame (k * pageFrameSize.toNat) ↔ 1 ≤ k ∧ k ≤ 31 := by
  have hsize : pageFrameSize.toNat = 4194304 := by decide
  simp only [UserFrame, hsize, maxMemory]
  omega

/-- The call behind the last frame of the machine hands out what is not there. -/
theorem handedOut_beyond (pageDirectory : PageDirectory) {virtualAddrs : List UInt32}
    (h : 31 < virtualAddrs.length) :
    ∃ frame ∈ handedOut (.initial pageDirectory) virtualAddrs, ¬ UserFrame frame := by
  refine ⟨32 % pageEntryCount * pageFrameSize.toNat, ?_, ?_⟩
  · exact mem_handedOut_initial.mpr ⟨32, by decide, h, rfl⟩
  · rw [userFrame_iff]
    decide

/-- **The frames are sound for the first 31 calls.** -/
theorem framesSound_iff (pageDirectory : PageDirectory) (virtualAddrs : List UInt32) :
    FramesSound (.initial pageDirectory) virtualAddrs ↔ virtualAddrs.length ≤ 31 := by
  constructor
  · intro h
    by_contra hlen
    obtain ⟨frame, hmem, hno⟩ := handedOut_beyond pageDirectory (Nat.not_le.mp hlen)
    exact hno (h.userFrames frame hmem)
  · intro hlen
    have hmod : ∀ k, k ≤ 31 → k % pageEntryCount = k := fun k hk =>
      Nat.mod_eq_of_lt (Nat.lt_of_le_of_lt hk (by decide))
    constructor
    case distinct =>
      rw [handedOut_eq (initial_nextFrame pageDirectory)]
      refine List.Nodup.map_on ?_ List.nodup_range'
      intro j hj k hk heq
      rw [List.mem_range'_1] at hj hk
      rw [hmod j (by omega), hmod k (by omega)] at heq
      exact Nat.eq_of_mul_eq_mul_right (by decide) heq
    case userFrames =>
      intro frame hmem
      obtain ⟨k, h1, hk, rfl⟩ := mem_handedOut_initial.mp hmem
      rw [hmod k (by omega), userFrame_iff]
      omega
    case usedUp =>
      -- fewer than 31 calls leave frame 31 unused
      intro before virtualAddr after hsplit hall
      have hlast := hall (31 * pageFrameSize.toNat) (userFrame_iff.mpr (by decide))
      obtain ⟨k, -, hk, heq⟩ := mem_handedOut_initial.mp hlast
      rw [hsplit, List.length_append, List.length_cons] at hlen
      rw [hmod k (by omega)] at heq
      have hk31 := Nat.eq_of_mul_eq_mul_right (by decide) heq
      omega

/-- The 32nd call hands out the address behind the memory, the 1024th the kernel's frame. -/
theorem frames_unsound :
    ¬ FramesSound (.initial kernelPageDirectory) (List.replicate 32 0x800000) ∧
      0 ∈ handedOut (.initial kernelPageDirectory) (List.replicate 1024 0x800000) := by
  constructor
  · intro h
    obtain ⟨frame, hmem, hno⟩ := handedOut_beyond kernelPageDirectory
      (show 31 < (List.replicate 32 0x800000).length by decide)
    exact hno (h.userFrames frame hmem)
  · refine mem_handedOut_initial.mpr ⟨1024, by decide, ?_, by decide⟩
    rw [List.length_replicate]

end OsyPaging
