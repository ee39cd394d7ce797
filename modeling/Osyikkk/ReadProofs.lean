import Osyikkk.FileDeletionProofs

/-!
# Reading exactly

`read` walks the chain of its match twice: once to count the clusters and once to copy them.
On a consistent volume both walks follow the one chain the entry owns, so a buffer is either
left alone because it is too small or receives the clusters of the chain in order and nothing
behind them.
-/

namespace OsyVolume

open OsyDisk OsyFat32 LinkedChain RootedForest

variable {request : FAT32DriverRequest} {fs : FileSystem} {l : List UInt32}

/-- The outcome for a match that owns the chain `l`: error 2 and an untouched buffer when the
    chain is longer than the whole clusters of the buffer, and otherwise its clusters in
    order, inside the buffer, and nothing beyond them. -/
structure ReadExactly (request : FAT32DriverRequest) (fs : FileSystem) (l : List UInt32) :
    Prop where
  tooSmall : (∃ buf, OsyFat32.read request fs = some (2, buf)) ↔
    l.length > request.bufferSize.toNat / clusterSize
  untouched : ∀ code buf, OsyFat32.read request fs = some (code, buf) → code ≠ 0 →
    buf = request.buf
  copied : l.length ≤ request.bufferSize.toNat / clusterSize →
    ∃ buf, OsyFat32.read request fs = some (0, buf) ∧
      clusterSize * l.length ≤ request.bufferSize.toNat ∧
      (∀ m, (hm : m < l.length) → ∀ k : Fin clusterSize,
        buf (clusterSize * m + k) = clusterAt fs.disk l[m] k) ∧
      ∀ k, clusterSize * l.length ≤ k → buf k = request.buf k

/-- A chain that is copied lands in the buffer and nowhere else. -/
theorem copyClusters_exact (disk : Disk) (buf : Memory) (l : List UInt32) :
    (∀ m, (hm : m < l.length) → ∀ k : Fin clusterSize,
      copyClusters disk buf 0 l (clusterSize * m + k) = clusterAt disk l[m] k) ∧
    ∀ k, clusterSize * l.length ≤ k → copyClusters disk buf 0 l k = buf k := by
  constructor
  · intro m hm k
    have hcopied := copyClusters_inside disk buf 0 hm k
    rwa [Nat.zero_add] at hcopied
  · intro k hk
    refine copyClusters_outside disk buf (Or.inr ?_)
    rwa [Nat.zero_add]

theorem readExactly_of_chain {i : Fin directoryEntryCount} (hn : request.name ≠ fun _ => 0)
    (hs : request.bufferSize ≠ 0)
    (hm : firstMatch request (fs.table request.parentClusterNumber) = some i)
    (hl : FatChain fs.fat (fs.table request.parentClusterNumber i).cluster l) :
    ReadExactly request fs l := by
  have hcount := clusterCount_eq request
  by_cases hsmall : clusterCount request < l.length
  · have hread := read_tooSmall hn hs hm hl hsmall
    rw [hcount] at hsmall
    constructor
    case tooSmall => exact iff_of_true ⟨_, hread⟩ hsmall
    case untouched =>
      intro code buf h _
      exact (Prod.mk.inj (Option.some.inj (h.symm.trans hread))).2
    case copied => exact fun hle => absurd hsmall (Nat.not_lt.mpr hle)
  · have hread := read_eq hn hs hm hl (Nat.not_lt.mp hsmall)
    rw [hcount] at hsmall
    constructor
    case tooSmall =>
      refine iff_of_false ?_ hsmall
      rintro ⟨buf, h⟩
      exact absurd (Prod.mk.inj (Option.some.inj (h.symm.trans hread))).1 (by decide)
    case untouched =>
      intro code buf h hcode
      exact absurd (Prod.mk.inj (Option.some.inj (h.symm.trans hread))).1 hcode
    case copied =>
      intro hle
      refine ⟨_, hread, ?_, copyClusters_exact fs.disk request.buf l⟩
      exact (Nat.mul_le_mul_left _ hle).trans (Nat.mul_div_le _ _)

/-- **`read` is exact and bounded.** -/
theorem read_exactly (hcons : FsConsistent fs)
    (hlive : Live fs.table request.parentClusterNumber) (hn : request.name ≠ fun _ => 0)
    (hs : request.bufferSize ≠ 0) :
    exec fs (.read request) = some fs ∧
    (firstMatch request (fs.table request.parentClusterNumber) = none →
      OsyFat32.read request fs = some (3, request.buf)) ∧
    ∀ i, firstMatch request (fs.table request.parentClusterNumber) = some i →
      ∃ l, FatChain fs.fat (fs.table request.parentClusterNumber i).cluster l ∧
        (∀ c ∈ l, 3 ≤ c.toNat ∧ c.toNat < clusterMapSize) ∧ ReadExactly request fs l := by
  refine ⟨?_, read_notFound hn hs, ?_⟩
  · obtain ⟨result, hread⟩ := read_total hcons hlive
    rw [exec, hread, Option.map_some]
  · intro i hm
    obtain ⟨l, hl, -, h3⟩ := hcons.chain (usedSlot_of_firstMatch hcons hlive hn hm)
    exact ⟨l, hl, fun c hc => ⟨h3 c hc, fatChain_lt hl hc⟩, readExactly_of_chain hn hs hm hl⟩

/-- A file of two clusters read into a buffer of 5000 bytes. -/
theorem read_exactly_twoClusters :
    ∃ l, FatChain (afterFile 4096 [4]).fat ((afterFile 4096 [4]).table 2 1).cluster l ∧
      (∀ c ∈ l, 3 ≤ c.toNat ∧ c.toNat < clusterMapSize) ∧
      ReadExactly (rootRequest [97] 5000) (afterFile 4096 [4]) l := by
  obtain ⟨hcons, hm, -, -⟩ := afterFile_state 4096 [4] (by decide) (by decide)
    (by rw [fresh_freeCells]; rfl) (by rw [fresh_freeCells]; decide +kernel)
  exact (read_exactly hcons Reach.root rootName_a (by decide)).2.2 1 hm

end OsyVolume
