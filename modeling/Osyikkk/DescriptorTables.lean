import Osyikkk.BitFields
import Mathlib.Data.UInt

/-!
# The descriptor tables of `idt.c` and `gdt.c`

A gate of the interrupt descriptor table and a segment descriptor are structures of bit
fields, of eight bytes each. The processor reads the same eight bytes as its manual draws
them: an address is in two or three pieces, the type of a gate in three fields. Both
readings agree for whatever the functions here store (`readGate_stored`,
`segmentBase_stored`).
-/

namespace OsyInterrupt

open BitFields

/-! ## Gates -/

abbrev idtMaxEntryCount : ℕ := 256
abbrev isrStubTableLimit : ℕ := 64

/-- `struct IDTGate`. -/
structure IDTGate where
  offsetLow : BitVec 16
  segment : BitVec 16
  reserved : BitVec 5
  rBit1 : BitVec 3
  rBit2 : BitVec 3
  gate32 : BitVec 1
  rBit3 : BitVec 1
  dpl : BitVec 2
  validBit : BitVec 1
  offsetHigh : BitVec 16
  deriving DecidableEq

/-- The fields in their order in memory. -/
def IDTGate.fields (g : IDTGate) : List Field :=
  [⟨16, g.offsetLow⟩, ⟨16, g.segment⟩, ⟨5, g.reserved⟩, ⟨3, g.rBit1⟩, ⟨3, g.rBit2⟩,
    ⟨1, g.gate32⟩, ⟨1, g.rBit3⟩, ⟨2, g.dpl⟩, ⟨1, g.validBit⟩, ⟨16, g.offsetHigh⟩]

/-- `struct InterruptDescriptorTable`. -/
abbrev InterruptDescriptorTable := Fin idtMaxEntryCount → IDTGate

/-- An entry of static storage. -/
def IDTGate.zero : IDTGate where
  offsetLow := 0
  segment := 0
  reserved := 0
  rBit1 := 0
  rBit2 := 0
  gate32 := 0
  rBit3 := 0
  dpl := 0
  validBit := 0
  offsetHigh := 0

/-- The gate `set_interrupt_gate` stores. -/
def interruptGate (handlerAddress : UInt32) (gdtSegSelector : UInt16) (privilege : UInt8) :
    IDTGate where
  offsetLow := (handlerAddress &&& 0xFFFF).toUInt16.toBitVec
  segment := gdtSegSelector.toBitVec
  reserved := 0b0
  rBit1 := 0b000
  rBit2 := 0b110
  gate32 := 1
  rBit3 := 0b0
  dpl := BitVec.ofNat 2 privilege.toNat
  validBit := 1
  offsetHigh := (handlerAddress >>> 16).toUInt16.toBitVec

/-- `set_interrupt_gate`. -/
def setInterruptGate (intVector : UInt8) (handlerAddress : UInt32) (gdtSegSelector : UInt16)
    (privilege : UInt8) (table : InterruptDescriptorTable) : InterruptDescriptorTable :=
  Function.update table ⟨intVector.toNat, UInt8.toNat_lt intVector⟩
    (interruptGate handlerAddress gdtSegSelector privilege)

/-- The privilege `initialize_idt` passes for a vector. -/
def gatePrivilege (i : UInt8) : UInt8 := if i ≥ 0x30 ∧ i ≤ 0x3F then 0x3 else 0x0

/-- The loop of `initialize_idt`. -/
def initializeIdt (isrStubTable : ℕ → UInt32) (table : InterruptDescriptorTable) :
    InterruptDescriptorTable :=
  (List.range isrStubTableLimit).foldl (fun table i =>
    setInterruptGate (UInt8.ofNat i) (isrStubTable i) 0x8 (gatePrivilege (UInt8.ofNat i)) table)
    table

/-- What the processor takes from a gate. -/
structure Gate where
  offset : ℕ
  selector : ℕ
  dpl : ℕ
  deriving DecidableEq

/-- The processor reads the eight bytes of a gate: bit 47 says that it is there, bits 40 to 44
    that it is an interrupt gate for 32-bit code. -/
def readGate (q : ℕ) : Option Gate :=
  if bits 47 1 q = 1 ∧ bits 40 5 q = 0b01110 then
    some
      { offset := bits 48 16 q * 2 ^ 16 + bits 0 16 q
        selector := bits 16 16 q
        dpl := bits 45 2 q }
  else none

theorem bits_fields (g : IDTGate) :
    bits 0 16 (pack g.fields) = g.offsetLow.toNat ∧
    bits 16 16 (pack g.fields) = g.segment.toNat ∧
    bits 40 5 (pack g.fields)
      = g.rBit2.toNat + 2 ^ 3 * (g.gate32.toNat + 2 * g.rBit3.toNat) ∧
    bits 45 2 (pack g.fields) = g.dpl.toNat ∧
    bits 47 1 (pack g.fields) = g.validBit.toNat ∧
    bits 48 16 (pack g.fields) = g.offsetHigh.toNat := by
  refine ⟨?_, ?_, ?_, ?_, ?_, ?_⟩
  · exact bits_field [] ⟨16, g.offsetLow⟩ (g.fields.drop 1)
  · exact bits_field (g.fields.take 1) ⟨16, g.segment⟩ (g.fields.drop 2)
  · have htype := bits_pack (g.fields.take 4) [⟨3, g.rBit2⟩, ⟨1, g.gate32⟩, ⟨1, g.rBit3⟩]
      (g.fields.drop 7)
    simp only [pack, Nat.mul_zero, Nat.add_zero, pow_one] at htype
    exact htype
  · exact bits_field (g.fields.take 7) ⟨2, g.dpl⟩ (g.fields.drop 8)
  · exact bits_field (g.fields.take 8) ⟨1, g.validBit⟩ (g.fields.drop 9)
  · exact bits_field (g.fields.take 9) ⟨16, g.offsetHigh⟩ []

theorem low_half (w : UInt32) : (w &&& 0xFFFF).toUInt16.toNat = w.toNat % 2 ^ 16 := by
  rw [UInt32.toNat_toUInt16, UInt32.toNat_and, show (0xFFFF : UInt32).toNat = 2 ^ 16 - 1 by rfl,
    Nat.and_two_pow_sub_one_eq_mod, Nat.mod_mod]

/-- Two halves of 16 bits. -/
theorem halves (w : UInt32) :
    (w >>> 16).toUInt16.toBitVec.toNat * 2 ^ 16 + (w &&& 0xFFFF).toUInt16.toBitVec.toNat
      = w.toNat := by
  have hw := w.toNat_lt
  have hlow : (w &&& 0xFFFF).toUInt16.toBitVec.toNat = w.toNat % 2 ^ 16 := low_half w
  have hhigh : (w >>> 16).toUInt16.toBitVec.toNat = w.toNat / 2 ^ 16 := by
    show (w >>> 16).toUInt16.toNat = w.toNat / 2 ^ 16
    rw [UInt32.toNat_toUInt16, UInt32.toNat_shiftRight, show (16 : UInt32).toNat % 32 = 16 by rfl,
      Nat.shiftRight_eq_div_pow, Nat.mod_eq_of_lt (by omega)]
  rw [hlow, hhigh]
  omega

/-- **A stored gate.** The processor finds the whole address, the segment and the privilege. -/
theorem readGate_stored (handlerAddress : UInt32) (gdtSegSelector : UInt16)
    (privilege : UInt8) :
    readGate (pack (interruptGate handlerAddress gdtSegSelector privilege).fields)
      = some
        { offset := handlerAddress.toNat
          selector := gdtSegSelector.toNat
          dpl := privilege.toNat % 4 } := by
  obtain ⟨hlow, hseg, htype, hdpl, hvalid, hhigh⟩ :=
    bits_fields (interruptGate handlerAddress gdtSegSelector privilege)
  rw [readGate, hlow, hseg, htype, hdpl, hvalid, hhigh, if_pos ⟨rfl, rfl⟩]
  congr 1
  rw [Gate.mk.injEq]
  refine ⟨halves handlerAddress, rfl, ?_⟩
  exact BitVec.toNat_ofNat _ _

theorem readGate_zero : readGate (pack IDTGate.zero.fields) = none := by decide

/-- The loop fills the entries it has come to. -/
theorem initializeIdt_steps (isrStubTable : ℕ → UInt32) (table : InterruptDescriptorTable)
    (n : ℕ) (hn : n ≤ idtMaxEntryCount) (v : Fin idtMaxEntryCount) :
    (List.range n).foldl (fun table i =>
        setInterruptGate (UInt8.ofNat i) (isrStubTable i) 0x8
          (gatePrivilege (UInt8.ofNat i)) table) table v
      = if v.val < n then
          interruptGate (isrStubTable v) 0x8 (gatePrivilege (UInt8.ofNat v))
        else table v := by
  induction n with
  | zero => rfl
  | succ n ih =>
      have hindex : (UInt8.ofNat n).toNat = n := by
        rw [UInt8.toNat_ofNat', Nat.mod_eq_of_lt hn]
      rw [List.range_succ, List.foldl_append, List.foldl_cons, List.foldl_nil, setInterruptGate]
      by_cases hv : v.val = n
      · have hkey : v = ⟨(UInt8.ofNat n).toNat, UInt8.toNat_lt _⟩ := Fin.ext (hv.trans hindex.symm)
        rw [← hkey, Function.update_self, if_pos (by omega), hv]
      · have hkey : v ≠ ⟨(UInt8.ofNat n).toNat, UInt8.toNat_lt _⟩ := by
          intro h
          exact hv ((congrArg Fin.val h).trans hindex)
        rw [Function.update_of_ne hkey, ih (Nat.le_of_succ_le hn)]
        by_cases hlt : v.val < n
        · rw [if_pos hlt, if_pos (Nat.lt_succ_of_lt hlt)]
        · rw [if_neg hlt, if_neg (by omega)]

/-- The table as the processor reads it. -/
theorem readGate_initializeIdt (isrStubTable : ℕ → UInt32) (v : Fin idtMaxEntryCount) :
    readGate (pack (initializeIdt isrStubTable (fun _ => IDTGate.zero) v).fields)
      = if v.val < isrStubTableLimit then
          some
            { offset := (isrStubTable v).toNat
              selector := 8
              dpl := if 0x30 ≤ v.val then 3 else 0 }
        else none := by
  rw [initializeIdt, initializeIdt_steps _ _ _ (by decide)]
  by_cases hv : v.val < isrStubTableLimit
  · have hindex : (UInt8.ofNat v.val).toNat = v.val := by
      rw [UInt8.toNat_ofNat', Nat.mod_eq_of_lt v.isLt]
    have hrange : UInt8.ofNat v.val ≥ 0x30 ∧ UInt8.ofNat v.val ≤ 0x3F ↔ 0x30 ≤ v.val := by
      rw [ge_iff_le, UInt8.le_iff_toNat_le, UInt8.le_iff_toNat_le, hindex]
      exact ⟨And.left, fun h30 => ⟨h30, Nat.le_of_lt_succ hv⟩⟩
    have hprivilege : (gatePrivilege (UInt8.ofNat v.val)).toNat % 4
        = if 0x30 ≤ v.val then 3 else 0 := by
      simp only [gatePrivilege, hrange]
      split_ifs
      · rfl
      · rfl
    rw [if_pos hv, if_pos hv, readGate_stored, hprivilege]
    rfl
  · rw [if_neg hv, if_neg hv, readGate_zero]

/-! ## Segments -/

abbrev gdtMaxEntryCount : ℕ := 32

/-- `struct SegmentDescriptor`. -/
structure SegmentDescriptor where
  segmentLow : BitVec 16
  baseLow : BitVec 16
  baseMid : BitVec 8
  typeBit : BitVec 4
  nonSystem : BitVec 1
  dpl : BitVec 2
  segmentPresent : BitVec 1
  segmentLimit : BitVec 4
  avl : BitVec 1
  codeSeg64bit : BitVec 1
  defOpSize : BitVec 1
  granularity : BitVec 1
  baseHigh : BitVec 8
  deriving DecidableEq

/-- The fields in their order in memory. -/
def SegmentDescriptor.fields (d : SegmentDescriptor) : List Field :=
  [⟨16, d.segmentLow⟩, ⟨16, d.baseLow⟩, ⟨8, d.baseMid⟩, ⟨4, d.typeBit⟩, ⟨1, d.nonSystem⟩,
    ⟨2, d.dpl⟩, ⟨1, d.segmentPresent⟩, ⟨4, d.segmentLimit⟩, ⟨1, d.avl⟩, ⟨1, d.codeSeg64bit⟩,
    ⟨1, d.defOpSize⟩, ⟨1, d.granularity⟩, ⟨8, d.baseHigh⟩]

/-- `struct GlobalDescriptorTable`. -/
abbrev GlobalDescriptorTable := Fin gdtMaxEntryCount → SegmentDescriptor

/-- An entry without an initialiser. -/
def SegmentDescriptor.zero : SegmentDescriptor where
  segmentLow := 0
  baseLow := 0
  baseMid := 0
  typeBit := 0
  nonSystem := 0
  dpl := 0
  segmentPresent := 0
  segmentLimit := 0
  avl := 0
  codeSeg64bit := 0
  defOpSize := 0
  granularity := 0
  baseHigh := 0

/-- The descriptors of the four code and data segments, which differ in three fields. -/
def flatSegment (typeBit : BitVec 4) (dpl : BitVec 2) (codeSeg64bit : BitVec 1) :
    SegmentDescriptor where
  segmentLow := 0xFFFF
  baseLow := 0x0000
  baseMid := 0x00
  typeBit := typeBit
  nonSystem := 0x1
  dpl := dpl
  segmentPresent := 0x1
  segmentLimit := 0xF
  avl := 0x0
  codeSeg64bit := codeSeg64bit
  defOpSize := 0x1
  granularity := 0x1
  baseHigh := 0x00

/-- `sizeof(struct TSSEntry)`. -/
abbrev tssEntrySize : ℕ := 26 * 4

/-- The descriptor of the task state segment, before its base is installed. -/
def tssDescriptor : SegmentDescriptor where
  segmentLow := BitVec.ofNat 16 tssEntrySize
  baseLow := 0x0000
  baseMid := 0x00
  typeBit := 0x9
  nonSystem := 0x0
  dpl := 0x0
  segmentPresent := 0x1
  segmentLimit := BitVec.ofNat 4 (tssEntrySize / 2 ^ 16)
  avl := 0x0
  codeSeg64bit := 0x0
  defOpSize := 0x1
  granularity := 0x0
  baseHigh := 0x00

/-- `global_descriptor_table` as it is initialised. -/
def globalDescriptorTable : GlobalDescriptorTable := fun i =>
  if i.val = 1 then flatSegment 0xA 0x0 0x1
  else if i.val = 2 then flatSegment 0x2 0x0 0x0
  else if i.val = 3 then flatSegment 0xA 0x3 0x1
  else if i.val = 4 then flatSegment 0x2 0x3 0x0
  else if i.val = 5 then tssDescriptor
  else SegmentDescriptor.zero

/-- The entry that `GDT_TSS_SELECTOR` selects. -/
abbrev gdtTssEntry : Fin gdtMaxEntryCount := 5

/-- `gdt_install_tss`, with the address of `_interrupt_tss_entry`. -/
def gdtInstallTss (base : UInt32) (table : GlobalDescriptorTable) : GlobalDescriptorTable :=
  Function.update table gdtTssEntry
    { table gdtTssEntry with
      baseHigh := ((base &&& (0xFF : UInt32) <<< 24) >>> 24).toUInt8.toBitVec
      baseMid := ((base &&& (0xFF : UInt32) <<< 16) >>> 16).toUInt8.toBitVec
      baseLow := (base &&& 0xFFFF).toUInt16.toBitVec }

/-- The base address the processor reads from a descriptor. -/
def segmentBase (q : ℕ) : ℕ := bits 56 8 q * 2 ^ 24 + bits 32 8 q * 2 ^ 16 + bits 16 16 q

/-- A byte of a word, masked before it is shifted down. -/
theorem maskedByte (w : UInt32) (k : UInt32) (hk : k.toNat ≤ 24) :
    ((w &&& ((0xFF : UInt32) <<< k)) >>> k).toUInt8.toNat = w.toNat / 2 ^ k.toNat % 2 ^ 8 := by
  have hmask : ((0xFF : UInt32) <<< k).toNat = 255 * 2 ^ k.toNat := by
    rw [UInt32.toNat_shiftLeft, Nat.mod_eq_of_lt (show k.toNat < 32 by omega),
      Nat.shiftLeft_eq]
    refine Nat.mod_eq_of_lt ?_
    calc 255 * 2 ^ k.toNat ≤ 255 * 2 ^ 24 :=
          Nat.mul_le_mul_left _ (Nat.pow_le_pow_right (by decide) hk)
      _ < 2 ^ 32 := by decide
  rw [UInt32.toNat_toUInt8, UInt32.toNat_shiftRight, UInt32.toNat_and, hmask,
    Nat.mod_eq_of_lt (show k.toNat < 32 by omega), Nat.shiftRight_and_distrib,
    Nat.shiftRight_eq_div_pow, Nat.shiftRight_eq_div_pow,
    Nat.mul_div_cancel _ (Nat.two_pow_pos _), show 255 = 2 ^ 8 - 1 by rfl,
    Nat.and_two_pow_sub_one_eq_mod, Nat.mod_mod]

/-- The three pieces of a base address. -/
theorem basePieces (base : UInt32) :
    ((base &&& (0xFF : UInt32) <<< 24) >>> 24).toUInt8.toBitVec.toNat * 2 ^ 24
      + ((base &&& (0xFF : UInt32) <<< 16) >>> 16).toUInt8.toBitVec.toNat * 2 ^ 16
      + (base &&& 0xFFFF).toUInt16.toBitVec.toNat = base.toNat := by
  have hhigh := maskedByte base 24 (by decide)
  have hmid := maskedByte base 16 (by decide)
  have hlow := low_half base
  have hlt := base.toNat_lt
  change _ = base.toNat / 2 ^ 24 % 2 ^ 8 at hhigh
  change _ = base.toNat / 2 ^ 16 % 2 ^ 8 at hmid
  show ((base &&& (0xFF : UInt32) <<< 24) >>> 24).toUInt8.toNat * 2 ^ 24
      + ((base &&& (0xFF : UInt32) <<< 16) >>> 16).toUInt8.toNat * 2 ^ 16
      + (base &&& 0xFFFF).toUInt16.toNat = base.toNat
  rw [hhigh, hmid, hlow]
  omega

/-- **The installed base.** The processor finds the address of `_interrupt_tss_entry`. -/
theorem segmentBase_stored (base : UInt32) (table : GlobalDescriptorTable) :
    segmentBase (pack (gdtInstallTss base table gdtTssEntry).fields) = base.toNat := by
  set d := gdtInstallTss base table gdtTssEntry with hd
  have hlow : bits 16 16 (pack d.fields) = d.baseLow.toNat :=
    bits_field (d.fields.take 1) ⟨16, d.baseLow⟩ (d.fields.drop 2)
  have hmid : bits 32 8 (pack d.fields) = d.baseMid.toNat :=
    bits_field (d.fields.take 2) ⟨8, d.baseMid⟩ (d.fields.drop 3)
  have hhigh : bits 56 8 (pack d.fields) = d.baseHigh.toNat :=
    bits_field (d.fields.take 12) ⟨8, d.baseHigh⟩ []
  rw [segmentBase, hlow, hmid, hhigh, hd, gdtInstallTss, Function.update_self]
  exact basePieces base

end OsyInterrupt
