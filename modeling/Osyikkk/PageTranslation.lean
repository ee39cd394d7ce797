import Osyikkk.BitFields
import Osyikkk.PageFrames

/-!
# Address translation through the page directory

The processor reads an entry of `_paging_kernel_page_directory` as 32 bits and keeps
translations in its TLB. `allocate_single_user_page_frame` changes one entry and flushes one
translation, so no access ever goes through an old one (`Mapped.coherent`).

`isolated_iff` says for which calls the kernel's memory stays the kernel's. Nothing in
`paging.c` checks for it: page 0x300 may be named, and the 1024th call hands out frame 0.
-/

namespace OsyPaging

open BitFields

/-! ## Entries -/

/-- The fields in their order in memory. -/
def PageDirectoryEntry.fields (e : PageDirectoryEntry) : List Field :=
  [⟨1, e.flag.presentBit⟩, ⟨1, e.flag.writeBit⟩, ⟨1, e.flag.userBit⟩,
    ⟨1, e.flag.writeThroughBit⟩, ⟨1, e.flag.cacheDisableBit⟩, ⟨1, e.flag.accessedBit⟩,
    ⟨1, e.flag.availableBit⟩, ⟨1, e.flag.usePagesize4Mb⟩, ⟨1, e.globalPage⟩, ⟨3, e.available⟩,
    ⟨1, e.patBit⟩, ⟨8, e.higherAddress⟩, ⟨1, e.reserved⟩, ⟨10, e.lowerAddress⟩]

/-- What the processor takes from the entry of a 4 MiB page. -/
structure Translation where
  base : ℕ
  write : Bool
  user : Bool
  deriving DecidableEq

/-- The processor reads an entry: bit 0 says that it is there, bit 7 that it maps 4 MiB. Bits
    22 to 31 and 13 to 20 are the two pieces of the address. -/
def readEntry (q : ℕ) : Option Translation :=
  if bits 0 1 q = 1 ∧ bits 7 1 q = 1 then
    some
      { base := bits 22 10 q * 2 ^ 22 + bits 13 8 q * 2 ^ 32
        write := bits 1 1 q = 1
        user := bits 2 1 q = 1 }
  else none

/-- The same, by fields. -/
theorem readEntry_fields (e : PageDirectoryEntry) :
    readEntry (pack e.fields)
      = if e.flag.presentBit.toNat = 1 ∧ e.flag.usePagesize4Mb.toNat = 1 then
          some
            { base := e.lowerAddress.toNat * 2 ^ 22 + e.higherAddress.toNat * 2 ^ 32
              write := e.flag.writeBit.toNat = 1
              user := e.flag.userBit.toNat = 1 }
        else none := by
  have hpresent : bits 0 1 (pack e.fields) = e.flag.presentBit.toNat :=
    bits_field [] ⟨1, e.flag.presentBit⟩ (e.fields.drop 1)
  have hwrite : bits 1 1 (pack e.fields) = e.flag.writeBit.toNat :=
    bits_field (e.fields.take 1) ⟨1, e.flag.writeBit⟩ (e.fields.drop 2)
  have huser : bits 2 1 (pack e.fields) = e.flag.userBit.toNat :=
    bits_field (e.fields.take 2) ⟨1, e.flag.userBit⟩ (e.fields.drop 3)
  have hsize : bits 7 1 (pack e.fields) = e.flag.usePagesize4Mb.toNat :=
    bits_field (e.fields.take 7) ⟨1, e.flag.usePagesize4Mb⟩ (e.fields.drop 8)
  have hhigher : bits 13 8 (pack e.fields) = e.higherAddress.toNat :=
    bits_field (e.fields.take 11) ⟨8, e.higherAddress⟩ (e.fields.drop 12)
  have hlower : bits 22 10 (pack e.fields) = e.lowerAddress.toNat :=
    bits_field (e.fields.take 13) ⟨10, e.lowerAddress⟩ []
  rw [readEntry, hpresent, hwrite, huser, hsize, hhigher, hlower]

/-- The translation in a page directory. -/
def walk (pageDirectory : PageDirectory) (i : Fin pageEntryCount) : Option Translation :=
  readEntry (pack (pageDirectory i).fields)

/-! ## The processor and its TLB -/

/-- The state of paging with the translations the processor has kept. -/
structure Mmu where
  paging : PagingState
  tlb : Fin pageEntryCount → Option Translation

/-- The translation of a page: a kept one first. -/
def Mmu.translate (m : Mmu) (i : Fin pageEntryCount) : Option Translation :=
  (m.tlb i).or (walk m.paging.pageDirectory i)

/-- The physical address of an access; `none` is a page fault. The kernel may use every page
    that is there (`CR0.WP` is not set). -/
def Mmu.access (m : Mmu) (user write : Bool) (virtualAddr : UInt32) : Option ℕ := do
  let t ← m.translate (pageIndex virtualAddr)
  if user → t.user ∧ (write → t.write) then
    some (t.base + virtualAddr.toNat % pageFrameSize.toNat)
  else none

/-- `flush_single_tlb`. -/
def flushSingleTlb (virtualAddr : UInt32) (m : Mmu) : Mmu :=
  { m with tlb := Function.update m.tlb (pageIndex virtualAddr) none }

/-- What happens to the tables: a call, and what the processor does by itself. It keeps a
    translation, drops one, or notes in an entry that the page was used or written to. -/
inductive PagingEvent where
  | allocate (virtualAddr : UInt32)
  | keep (i : Fin pageEntryCount)
  | drop (i : Fin pageEntryCount)
  | note (i : Fin pageEntryCount) (accessed dirty : BitVec 1)

/-- The processor's notes are in the flags `accessed_bit` and `available_bit`. -/
def PageDirectoryEntry.note (accessed dirty : BitVec 1) (e : PageDirectoryEntry) :
    PageDirectoryEntry :=
  { e with flag := { e.flag with accessedBit := accessed, availableBit := dirty } }

/-- `allocate_single_user_page_frame` with the flush in `update_page_directory_entry`. -/
def Mmu.allocate (m : Mmu) (virtualAddr : UInt32) : Mmu :=
  let (code, paging) := allocateSingleUserPageFrame virtualAddr m.paging
  if code = 0 then flushSingleTlb virtualAddr { m with paging := paging }
  else { m with paging := paging }

/-- One event. -/
def Mmu.step (m : Mmu) : PagingEvent → Mmu
  | .allocate virtualAddr => m.allocate virtualAddr
  | .keep i => { m with tlb := Function.update m.tlb i (m.translate i) }
  | .drop i => { m with tlb := Function.update m.tlb i none }
  | .note i accessed dirty =>
      { m with
        paging :=
          { m.paging with
            pageDirectory := Function.update m.paging.pageDirectory i
              ((m.paging.pageDirectory i).note accessed dirty) } }

/-- The state in which the kernel starts: `loader_virtual` has cleared entry 0 and flushed
    address 0. Before, the processor has kept some translations. -/
def Mmu.loaded (kept : Fin pageEntryCount → Bool) : Mmu :=
  flushSingleTlb 0
    { paging := .initial (Function.update kernelPageDirectory 0 PageDirectoryEntry.zero)
      tlb := fun i => if kept i then walk kernelPageDirectory i else none }

/-- The state after events. -/
def Mmu.after (m : Mmu) (events : List PagingEvent) : Mmu := events.foldl Mmu.step m

/-- The kernel's memory is the kernel's: it reaches it at `0xC0000000`, no user access ends
    there, and no two user addresses are the same memory. -/
structure Mmu.Isolated (m : Mmu) : Prop where
  kernel : ∀ virtualAddr, pageIndex virtualAddr = 0x300 →
    ∀ write, m.access false write virtualAddr = some (virtualAddr.toNat % pageFrameSize.toNat) ∧
      m.access true write virtualAddr = none
  kernelMemory : ∀ virtualAddr write p, m.access true write virtualAddr = some p →
    pageFrameSize.toNat ≤ p
  distinct : ∀ a b write write' p, m.access true write a = some p →
    m.access true write' b = some p → a = b

/-- The addresses the calls name. -/
def allocated : List PagingEvent → List UInt32
  | [] => []
  | .allocate virtualAddr :: events => virtualAddr :: allocated events
  | _ :: events => allocated events

/-! ## The invariant -/

variable {m : Mmu} {n : ℕ} {i j : Fin pageEntryCount} {virtualAddr : UInt32} {t : Translation}
  {pageDirectory : PageDirectory}

/-- The translation of a user page with frame `k`. -/
def userTranslation (k : ℕ) : Translation := ⟨k * pageFrameSize.toNat, true, true⟩

/-- Frame `n` is next. The kernel's page is its own, every other page that is there has a
    frame that was handed out, each of them its own one; and the TLB has nothing else. -/
structure Mapped (n : ℕ) (m : Mmu) : Prop where
  next : NextFrame m.paging n
  coherent : ∀ i t, m.tlb i = some t → walk m.paging.pageDirectory i = some t
  plain : ∀ i, (m.paging.pageDirectory i).higherAddress = 0
  kernel : walk m.paging.pageDirectory 0x300 = some ⟨0, true, false⟩
  user : ∀ i, i ≠ 0x300 → ∀ t, walk m.paging.pageDirectory i = some t →
    ∃ k, 1 ≤ k ∧ k < n ∧ t = userTranslation k
  distinct : ∀ i j t, walk m.paging.pageDirectory i = some t →
    walk m.paging.pageDirectory j = some t → i = j

/-- A coherent TLB is not seen. -/
theorem Mapped.translate (h : Mapped n m) (i : Fin pageEntryCount) :
    m.translate i = walk m.paging.pageDirectory i := by
  rw [Mmu.translate]
  cases hkept : m.tlb i with
  | none => exact Option.none_or
  | some t => rw [Option.some_or, h.coherent i t hkept]

/-- An entry that differs in the processor's notes. -/
theorem walk_note (pageDirectory : PageDirectory) (i : Fin pageEntryCount)
    (accessed dirty : BitVec 1) :
    walk (Function.update pageDirectory i ((pageDirectory i).note accessed dirty))
      = walk pageDirectory := by
  funext j
  by_cases hj : j = i
  · rw [hj, walk, walk, Function.update_self, readEntry_fields, readEntry_fields]
    rfl
  · rw [walk, walk, Function.update_of_ne hj]

theorem higherAddress_note (pageDirectory : PageDirectory) (i j : Fin pageEntryCount)
    (accessed dirty : BitVec 1) :
    (Function.update pageDirectory i ((pageDirectory i).note accessed dirty) j).higherAddress
      = (pageDirectory j).higherAddress := by
  by_cases hj : j = i
  · rw [hj, Function.update_self]
    rfl
  · rw [Function.update_of_ne hj]

/-- What the processor does by itself keeps the invariant. -/
theorem Mapped.keep (h : Mapped n m) (i : Fin pageEntryCount) :
    Mapped n (m.step (.keep i)) where
  next := h.next
  coherent := by
    intro j t hj
    by_cases hij : j = i
    · subst hij
      have hkept : m.translate j = some t := by
        rw [← hj]
        exact (Function.update_self j (m.translate j) m.tlb).symm
      rw [← hkept, h.translate]
      rfl
    · refine h.coherent j t ?_
      rw [← hj]
      exact (Function.update_of_ne hij (m.translate i) m.tlb).symm
  plain := h.plain
  kernel := h.kernel
  user := h.user
  distinct := h.distinct

theorem kept_of_flushed (h : Function.update m.tlb i none j = some t) :
    j ≠ i ∧ m.tlb j = some t := by
  by_cases hij : j = i
  · rw [hij, Function.update_self] at h
    cases h
  · rw [Function.update_of_ne hij] at h
    exact ⟨hij, h⟩

theorem Mapped.drop (h : Mapped n m) (i : Fin pageEntryCount) :
    Mapped n (m.step (.drop i)) where
  next := h.next
  coherent j t hj := h.coherent j t (kept_of_flushed hj).2
  plain := h.plain
  kernel := h.kernel
  user := h.user
  distinct := h.distinct

theorem Mapped.note (h : Mapped n m) (i : Fin pageEntryCount) (accessed dirty : BitVec 1) :
    Mapped n (m.step (.note i accessed dirty)) := by
  have hwalk := walk_note m.paging.pageDirectory i accessed dirty
  constructor
  · exact h.next
  · intro j t hj
    exact (congrFun hwalk j).trans (h.coherent j t hj)
  · intro j
    exact (higherAddress_note _ i j accessed dirty).trans (h.plain j)
  · exact (congrFun hwalk _).trans h.kernel
  · intro j hj t ht
    exact h.user j hj t ((congrFun hwalk j).symm.trans ht)
  · intro j k t hj hk
    exact h.distinct j k t ((congrFun hwalk j).symm.trans hj) ((congrFun hwalk k).symm.trans hk)

/-! ## A call -/

/-- The entry a call stores. -/
def userEntry (physicalAddr : UInt32) (e : PageDirectoryEntry) : PageDirectoryEntry :=
  { e with
    flag := userFlag
    lowerAddress := BitVec.ofNat 10 (frameIndex physicalAddr).toNat }

theorem step_allocate_directory (h : NextFrame m.paging n) (virtualAddr : UInt32) :
    (m.step (.allocate virtualAddr)).paging.pageDirectory
      = Function.update m.paging.pageDirectory (pageIndex virtualAddr)
          (userEntry m.paging.lastAvailablePhysicalAddr
            (m.paging.pageDirectory (pageIndex virtualAddr))) := by
  rw [Mmu.step, Mmu.allocate, allocate_eq h]
  rfl

theorem step_allocate_tlb (h : NextFrame m.paging n) (virtualAddr : UInt32) :
    (m.step (.allocate virtualAddr)).tlb
      = Function.update m.tlb (pageIndex virtualAddr) none := by
  rw [Mmu.step, Mmu.allocate, allocate_eq h]
  rfl

theorem step_allocate_next (h : NextFrame m.paging n) (virtualAddr : UInt32) :
    NextFrame (m.step (.allocate virtualAddr)).paging (n + 1) := by
  have hnext := allocate_nextFrame h virtualAddr
  rw [allocate_eq h] at hnext
  rw [Mmu.step, Mmu.allocate, allocate_eq h]
  exact hnext

/-- The entry maps the page to the frame whose turn it is. -/
theorem readEntry_userEntry (h : NextFrame m.paging n) {e : PageDirectoryEntry}
    (hplain : e.higherAddress = 0) :
    readEntry (pack (userEntry m.paging.lastAvailablePhysicalAddr e).fields)
      = some (userTranslation (n % pageEntryCount)) := by
  have hn : n % pageEntryCount < 2 ^ 10 := Nat.mod_lt _ (by decide)
  have hindex : (frameIndex m.paging.lastAvailablePhysicalAddr).toNat = n % pageEntryCount := by
    have hsize : pageFrameSize.toNat = 4194304 := by decide
    rw [frameIndex_toNat, h, hsize]
    omega
  have hbase : (BitVec.ofNat 10 (n % pageEntryCount)).toNat * 2 ^ 22
        + (0 : BitVec 8).toNat * 2 ^ 32 = n % pageEntryCount * pageFrameSize.toNat := by
    have hsize : pageFrameSize.toNat = 2 ^ 22 := by decide
    rw [BitVec.toNat_ofNat, Nat.mod_eq_of_lt hn, hsize, show (0 : BitVec 8).toNat = 0 from rfl,
      Nat.zero_mul, Nat.add_zero]
  rw [readEntry_fields, userEntry, hplain, hindex, if_pos ⟨rfl, rfl⟩, hbase]
  rfl

theorem step_allocate_walk_self (h : NextFrame m.paging n)
    (hplain : ∀ i, (m.paging.pageDirectory i).higherAddress = 0) (virtualAddr : UInt32) :
    walk (m.step (.allocate virtualAddr)).paging.pageDirectory (pageIndex virtualAddr)
      = some (userTranslation (n % pageEntryCount)) := by
  rw [walk, step_allocate_directory h, Function.update_self]
  exact readEntry_userEntry h (hplain _)

/-- The other entries stay. -/
theorem step_allocate_walk_of_ne (h : NextFrame m.paging n) (hi : i ≠ pageIndex virtualAddr) :
    walk (m.step (.allocate virtualAddr)).paging.pageDirectory i
      = walk m.paging.pageDirectory i := by
  rw [walk, walk, step_allocate_directory h, Function.update_of_ne hi]

theorem step_allocate_higherAddress (h : NextFrame m.paging n) (virtualAddr : UInt32)
    (i : Fin pageEntryCount) :
    ((m.step (.allocate virtualAddr)).paging.pageDirectory i).higherAddress
      = (m.paging.pageDirectory i).higherAddress := by
  rw [step_allocate_directory h]
  by_cases hi : i = pageIndex virtualAddr
  · rw [hi, Function.update_self]
    rfl
  · rw [Function.update_of_ne hi]

/-- After a call the flushed page and the others are as in the directory. -/
theorem step_allocate_coherent (h : NextFrame m.paging n)
    (hcoherent : ∀ i t, m.tlb i = some t → walk m.paging.pageDirectory i = some t)
    (hi : (m.step (.allocate virtualAddr)).tlb i = some t) :
    walk (m.step (.allocate virtualAddr)).paging.pageDirectory i = some t := by
  have hflushed : Function.update m.tlb (pageIndex virtualAddr) none i = some t := by
    rw [← hi, step_allocate_tlb h]
  obtain ⟨hne, hkept⟩ := kept_of_flushed hflushed
  rw [step_allocate_walk_of_ne h hne]
  exact hcoherent i t hkept

theorem userTranslation_inj {k l : ℕ} (h : userTranslation k = userTranslation l) : k = l := by
  rw [userTranslation, userTranslation, Translation.mk.injEq] at h
  exact Nat.eq_of_mul_eq_mul_right (by decide) h.1

/-- A call for a page that is not the kernel's, while there are frames left to count. -/
theorem Mapped.allocate (h : Mapped n m) (h1 : 1 ≤ n) (hn : n < pageEntryCount)
    (hva : pageIndex virtualAddr ≠ 0x300) :
    Mapped (n + 1) (m.step (.allocate virtualAddr)) := by
  have hself := step_allocate_walk_self h.next h.plain virtualAddr
  rw [Nat.mod_eq_of_lt hn] at hself
  -- the new frame is nobody's
  have hfresh : ∀ i t, i ≠ pageIndex virtualAddr → walk m.paging.pageDirectory i = some t →
      t ≠ userTranslation n := by
    intro i t _ ht heq
    by_cases hkernel : i = 0x300
    · rw [hkernel, h.kernel, Option.some.injEq] at ht
      rw [← ht] at heq
      cases congrArg Translation.user heq
    · obtain ⟨k, -, hk, hframe⟩ := h.user i hkernel t ht
      rw [userTranslation_inj (hframe.symm.trans heq)] at hk
      exact Nat.lt_irrefl n hk
  constructor
  case next => exact step_allocate_next h.next virtualAddr
  case coherent => exact fun i t hi => step_allocate_coherent h.next h.coherent hi
  case plain => exact fun i => (step_allocate_higherAddress h.next virtualAddr i).trans (h.plain i)
  case kernel => rw [step_allocate_walk_of_ne h.next (Ne.symm hva), h.kernel]
  case user =>
    intro i hi t ht
    by_cases hpage : i = pageIndex virtualAddr
    · rw [hpage, hself, Option.some.injEq] at ht
      exact ⟨n, h1, Nat.lt_succ_self n, ht.symm⟩
    · rw [step_allocate_walk_of_ne h.next hpage] at ht
      obtain ⟨k, hk1, hk, hframe⟩ := h.user i hi t ht
      exact ⟨k, hk1, Nat.lt_succ_of_lt hk, hframe⟩
  case distinct =>
    intro i j t hi hj
    by_cases hpi : i = pageIndex virtualAddr
    · by_cases hpj : j = pageIndex virtualAddr
      · rw [hpi, hpj]
      · rw [hpi, hself, Option.some.injEq] at hi
        rw [step_allocate_walk_of_ne h.next hpj] at hj
        exact absurd hi.symm (hfresh j t hpj hj)
    · rw [step_allocate_walk_of_ne h.next hpi] at hi
      by_cases hpj : j = pageIndex virtualAddr
      · rw [hpj, hself, Option.some.injEq] at hj
        exact absurd hj.symm (hfresh i t hpi hi)
      · rw [step_allocate_walk_of_ne h.next hpj] at hj
        exact h.distinct i j t hi hj

/-! ## Accesses -/

theorem Mapped.access_eq (h : Mapped n m) (user write : Bool) (virtualAddr : UInt32) :
    m.access user write virtualAddr
      = (walk m.paging.pageDirectory (pageIndex virtualAddr)).bind fun t =>
          if user → t.user ∧ (write → t.write) then
            some (t.base + virtualAddr.toNat % pageFrameSize.toNat)
          else none := by
  rw [Mmu.access, h.translate]
  rfl

/-- A user access goes to a frame that was handed out. -/
theorem Mapped.access_user (h : Mapped n m) {write : Bool} {p : ℕ}
    (hp : m.access true write virtualAddr = some p) :
    ∃ k, 1 ≤ k ∧ k < n ∧
      walk m.paging.pageDirectory (pageIndex virtualAddr) = some (userTranslation k) ∧
      p = k * pageFrameSize.toNat + virtualAddr.toNat % pageFrameSize.toNat := by
  rw [h.access_eq] at hp
  obtain ⟨t, ht, haccess⟩ := Option.bind_eq_some_iff.mp hp
  by_cases hallowed : true = true → t.user ∧ (write → t.write)
  · rw [if_pos hallowed, Option.some.injEq] at haccess
    have hpage : pageIndex virtualAddr ≠ 0x300 := by
      intro hkernel
      rw [hkernel, h.kernel, Option.some.injEq] at ht
      have huser := (hallowed rfl).1
      rw [← ht] at huser
      cases huser
    obtain ⟨k, h1, hk, hframe⟩ := h.user _ hpage t ht
    refine ⟨k, h1, hk, hframe ▸ ht, ?_⟩
    rw [← haccess, hframe]
    rfl
  · rw [if_neg hallowed] at haccess
    cases haccess

/-- Two addresses of one page with the same offset. -/
theorem eq_of_page {a b : UInt32} (hpage : pageIndex a = pageIndex b)
    (hoffset : a.toNat % pageFrameSize.toNat = b.toNat % pageFrameSize.toNat) : a = b := by
  have hindex : (frameIndex a).toNat = (frameIndex b).toNat := by
    rw [pageIndex, pageIndex, Fin.mk.injEq] at hpage
    exact hpage
  have hsize : pageFrameSize.toNat = 4194304 := by decide
  rw [frameIndex_toNat, frameIndex_toNat] at hindex
  rw [hsize] at hoffset
  refine UInt32.toNat_inj.mp ?_
  omega

theorem Mapped.isolated (h : Mapped n m) : m.Isolated where
  kernel := by
    intro virtualAddr hpage write
    rw [h.access_eq, h.access_eq, hpage, h.kernel, Option.bind_some, Option.bind_some]
    refine ⟨?_, ?_⟩
    · rw [if_pos fun hfalse => absurd hfalse Bool.false_ne_true, Nat.zero_add]
    · refine if_neg ?_
      intro hallowed
      exact absurd (hallowed rfl).1 Bool.false_ne_true
  kernelMemory := by
    intro virtualAddr write p hp
    obtain ⟨k, h1, -, -, rfl⟩ := h.access_user hp
    exact Nat.le_add_right_of_le (Nat.le_mul_of_pos_left _ h1)
  distinct := by
    intro a b write write' p ha hb
    obtain ⟨k, -, -, hka, hpa⟩ := h.access_user ha
    obtain ⟨l, -, -, hlb, hpb⟩ := h.access_user hb
    have hsize : pageFrameSize.toNat = 4194304 := by decide
    have hsame := hpa.symm.trans hpb
    rw [hsize] at hsame
    have hframe : k = l := by omega
    have hoffset : a.toNat % pageFrameSize.toNat = b.toNat % pageFrameSize.toNat := by
      rw [hsize]
      omega
    rw [hframe] at hka
    exact eq_of_page (h.distinct _ _ _ hka hlb) hoffset

/-- A user access to the page of a call, right after it. -/
theorem Mapped.access_allocated (h : Mapped n m) (virtualAddr : UInt32) :
    (m.step (.allocate virtualAddr)).access true true virtualAddr
      = some (n % pageEntryCount * pageFrameSize.toNat
          + virtualAddr.toNat % pageFrameSize.toNat) := by
  have hself := step_allocate_walk_self h.next h.plain virtualAddr
  have htlb : (m.step (.allocate virtualAddr)).tlb (pageIndex virtualAddr) = none := by
    rw [step_allocate_tlb h.next, Function.update_self]
  rw [Mmu.access, Mmu.translate, htlb, Option.none_or, hself]
  rfl

/-- **One call.** It keeps the kernel's memory apart exactly when it is not for the kernel's
    page and does not come to frame 1024. -/
theorem Mapped.allocate_isolated_iff (h : Mapped n m) (h1 : 1 ≤ n) (hn : n ≤ pageEntryCount)
    (virtualAddr : UInt32) :
    (m.step (.allocate virtualAddr)).Isolated ↔
      pageIndex virtualAddr ≠ 0x300 ∧ n < pageEntryCount := by
  constructor
  · intro hisolated
    have haccess := h.access_allocated virtualAddr
    refine ⟨?_, ?_⟩
    · intro hpage
      rw [(hisolated.kernel virtualAddr hpage true).2] at haccess
      cases haccess
    · refine Nat.lt_of_le_of_ne hn ?_
      rintro rfl
      have hlow := hisolated.kernelMemory virtualAddr true _ haccess
      rw [Nat.mod_self, Nat.zero_mul, Nat.zero_add] at hlow
      exact absurd (Nat.mod_lt _ (by decide)) (Nat.not_lt.mpr hlow)
  · rintro ⟨hpage, hless⟩
    exact (h.allocate h1 hless hpage).isolated

/-! ## Runs -/

/-- No call names the kernel's page, and fewer than `left` of them come. -/
def Admitted (left : ℕ) (events : List PagingEvent) : Prop :=
  (∀ virtualAddr ∈ allocated events, pageIndex virtualAddr ≠ 0x300) ∧
    (allocated events).length ≤ left

theorem isolated_before_iff {events : List PagingEvent} (h : Mapped n m) (h1 : 1 ≤ n)
    (hn : n ≤ pageEntryCount) :
    (∀ before, before <+: events → (m.after before).Isolated) ↔
      Admitted (pageEntryCount - n) events := by
  induction events generalizing m n with
  | nil =>
      refine iff_of_true ?_ ⟨fun _ hmem => absurd hmem List.not_mem_nil, Nat.zero_le _⟩
      intro before hbefore
      rw [List.prefix_nil.mp hbefore]
      exact h.isolated
  | cons e events ih =>
      -- the states before the event, after it, and of the rest
      have hsplit : (∀ before, before <+: e :: events → (m.after before).Isolated) ↔
          ∀ before, before <+: events → ((m.step e).after before).Isolated := by
        constructor
        · intro hall before hbefore
          exact hall (e :: before) (List.cons_prefix_cons.mpr ⟨rfl, hbefore⟩)
        · intro hall before hbefore
          cases before with
          | nil => exact h.isolated
          | cons e' before =>
              obtain ⟨rfl, htail⟩ := List.cons_prefix_cons.mp hbefore
              exact hall before htail
      rw [hsplit]
      cases e with
      | keep i => exact ih (h.keep i) h1 hn
      | drop i => exact ih (h.drop i) h1 hn
      | note i accessed dirty => exact ih (h.note i accessed dirty) h1 hn
      | allocate virtualAddr =>
          have hone := h.allocate_isolated_iff h1 hn virtualAddr
          by_cases hok : pageIndex virtualAddr ≠ 0x300 ∧ n < pageEntryCount
          · rw [ih (h.allocate h1 hok.2 hok.1) (Nat.le_succ_of_le h1) hok.2]
            simp only [Admitted, allocated, List.forall_mem_cons, List.length_cons]
            have hcount : (allocated events).length ≤ pageEntryCount - (n + 1) ↔
                (allocated events).length + 1 ≤ pageEntryCount - n := by
              have hless := hok.2
              omega
            rw [hcount]
            exact ⟨fun hrest => ⟨⟨hok.1, hrest.1⟩, hrest.2⟩,
              fun hall => ⟨hall.1.2, hall.2⟩⟩
          · refine iff_of_false ?_ ?_
            · intro hall
              exact hok (hone.mp (hall [] (List.nil_prefix)))
            · rintro ⟨hpages, hcount⟩
              simp only [allocated, List.forall_mem_cons, List.length_cons] at hpages hcount
              exact hok ⟨hpages.1, by omega⟩

theorem loaded_walk (kept : Fin pageEntryCount → Bool) (i : Fin pageEntryCount) :
    walk (Mmu.loaded kept).paging.pageDirectory i
      = if i = 0x300 then some ⟨0, true, false⟩ else none := by
  show walk (Function.update kernelPageDirectory 0 PageDirectoryEntry.zero) i = _
  rw [walk]
  by_cases h0 : i = 0
  · rw [h0, Function.update_self]
    decide
  · rw [Function.update_of_ne h0]
    by_cases hkernel : i = 0x300
    · rw [if_pos hkernel, hkernel]
      decide
    · have hother : ¬ (i.val = 0 ∨ i.val = 0x300) := by
        rintro (hi | hi)
        · exact h0 (Fin.ext hi)
        · exact hkernel (Fin.ext hi)
      rw [if_neg hkernel, kernelPageDirectory, if_neg hother]
      decide

/-- The kernel starts with frame 1 next and no user page. -/
theorem loaded_mapped (kept : Fin pageEntryCount → Bool) : Mapped 1 (Mmu.loaded kept) := by
  have hkernel : walk (Mmu.loaded kept).paging.pageDirectory 0x300 = some ⟨0, true, false⟩ := by
    rw [loaded_walk, if_pos rfl]
  have hpage : ∀ i t, walk (Mmu.loaded kept).paging.pageDirectory i = some t → i = 0x300 := by
    intro i t ht
    by_contra hi
    rw [loaded_walk, if_neg hi] at ht
    cases ht
  constructor
  case next => exact initial_nextFrame _
  case coherent =>
    intro i t hi
    have hflushed : Function.update (fun i => if kept i then walk kernelPageDirectory i else none)
        (pageIndex 0) none i = some t := hi
    have hne : i ≠ 0 := by
      rintro rfl
      rw [show pageIndex 0 = 0 from rfl, Function.update_self] at hflushed
      cases hflushed
    rw [show pageIndex 0 = 0 from rfl, Function.update_of_ne hne] at hflushed
    split_ifs at hflushed with hkept
    · rw [← hflushed]
      show walk (Function.update kernelPageDirectory 0 PageDirectoryEntry.zero) i = _
      rw [walk, walk, Function.update_of_ne hne]
  case plain =>
    intro i
    show (Function.update kernelPageDirectory 0 PageDirectoryEntry.zero i).higherAddress = 0
    by_cases h0 : i = 0
    · rw [h0, Function.update_self]
      rfl
    · rw [Function.update_of_ne h0, kernelPageDirectory]
      split_ifs
      · rfl
      · rfl
  case kernel => exact hkernel
  case user => exact fun i hi t ht => absurd (hpage i t ht) hi
  case distinct => exact fun i j t hi hj => (hpage i t hi).trans (hpage j t hj).symm

/-- **The kernel's memory.** Whatever translations the processor keeps or drops, the kernel's
    memory is its own in every state of a run exactly when no call names page 0x300 and there
    are fewer than 1024 calls. -/
theorem isolated_iff (kept : Fin pageEntryCount → Bool) (events : List PagingEvent) :
    (∀ before, before <+: events → ((Mmu.loaded kept).after before).Isolated) ↔
      (∀ virtualAddr ∈ allocated events, pageIndex virtualAddr ≠ 0x300) ∧
        (allocated events).length < pageEntryCount := by
  rw [isolated_before_iff (loaded_mapped kept) (Nat.le_refl 1) (by decide), Admitted]
  exact and_congr_right fun _ => Nat.lt_succ_iff.symm

end OsyPaging
