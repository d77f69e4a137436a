import Mathlib

/-!
# Mounting and growing an oxfs

`mount_from_disk` of `sys/modules/oxfs/src/lib.rs`, with what it takes of the format from
`lib/liboxfs/src/lib.rs`: the superblock is read and checked, the layout is taken from it, and the
free blocks and inodes are counted.  A block is a function from offsets to bytes.

On a device, block 0 is the superblock, the bitmap follows it with one bit for each data block, and
the data blocks follow the bitmap.  So the number of bitmap blocks decides where every data block
lies, and two formulas give it: the superblock's number of data blocks, divided by the bits of a
bitmap block (`Superblock.bitmapBlocks`), and the size of the device, divided by the bits and one
more for the bitmap block itself (`layoutFor`).  Mounting compares only the two numbers of bitmap
blocks, and growing takes the one of the device for the place of the data and the one of the
superblock everywhere after.

Nothing a superblock says is trusted by the model: its inode file may point anywhere.  oxfs is built
with `--release`, so a data block's number plus the offset of the data wraps around at 32 bits
(`Fs.withBlock`) and the mount goes on with another block.

* `fits_iff_le_capacity`: what fits on a device, by the two formulas.
* `mount_fits_iff`: a file system that was mounted lies on its device exactly if the superblock has
  no more data blocks than the device has room for, which is not checked
  (`mount_past_device`).
* `layoutFor_exact_iff`: at one size in 32769 the two formulas do not agree, and growing puts the
  data where the new superblock does not have them.
* `grow_keeps`: `grow` of `lib/liboxfs/src/grow.rs` keeps the data at every other size.
-/

set_option autoImplicit false

namespace OxideBSD.Oxfs.Mount

open Function

/-! ## The format -/

/-- `BLOCK_SIZE`. -/
def blockSize : ℕ := 4096
/-- `BITS_PER_BITMAP_BLOCK`: the data blocks that one bitmap block is for. -/
def bitsPerBitmapBlock : ℕ := 32768
/-- Block numbers from here up belong to no disk. -/
def maxDiskBlocks : ℕ := 0xF0000000
/-- The bitmap's first device block. -/
def bitmapStart : ℕ := 1
/-- The one version of the layout that mounts. -/
def superblockVersion : ℕ := 7
/-- The bytes of an inode record. -/
def inodeStride : ℕ := 128
def inodesPerBlock : ℕ := 32
/-- The pointers in the inode itself. -/
def directBlocks : ℕ := 12
/-- The pointers in an index block. -/
def ptrsPerIndirect : ℕ := 1024
def ptrsPerDoubleIndirect : ℕ := 1048576
/-- The pointer to no block. -/
def noBlock : ℕ := 2 ^ 32 - 1

/-- `u64::div_ceil`. -/
def divCeil (a b : ℕ) : ℕ := (a + b - 1) / b

/-- Data blocks and bitmap blocks for a device of `deviceBlocks` blocks. -/
def layoutFor (deviceBlocks : ℕ) : ℕ × ℕ :=
  let usable := min (deviceBlocks - bitmapStart) (maxDiskBlocks - 1)
  let bitmap := divCeil usable (bitsPerBitmapBlock + 1)
  (usable - bitmap, bitmap)

/-- What a block holds, by offset. -/
abbrev Block : Type := ℕ → UInt8

/-- `u32::from_le_bytes` at `off`. -/
def le32 (b : Block) (off : ℕ) : ℕ :=
  (b off).toNat + 256 * ((b (off + 1)).toNat + 256 * ((b (off + 2)).toNat
    + 256 * (b (off + 3)).toNat))

/-- `InodeKind`, 0 on the disk being `free`. -/
inductive InodeKind
  | free
  | file
  | dir
  | symlink
  | device
  | fifo
  | socket
  deriving DecidableEq, Repr

/-- The pointers of an inode record, and its kind. -/
structure Inode where
  kind : InodeKind
  direct : List ℕ
  indirect : ℕ
  doubleIndirect : ℕ

/-- The inode record at `off`. -/
def unpackInode (b : Block) (off : ℕ) : Inode where
  kind := match (b off).toNat with
    | 1 => .file
    | 2 => .dir
    | 3 => .symlink
    | 4 => .device
    | 5 => .fifo
    | 6 => .socket
    | _ => .free
  direct := (List.range directBlocks).map fun i ↦ le32 b (off + 9 + i * 4)
  indirect := le32 b (off + 9 + directBlocks * 4)
  doubleIndirect := le32 b (off + 9 + directBlocks * 4 + 4)

/-- `Superblock`: the counts, and the record of the inode file. -/
structure Superblock where
  dataBlocks : ℕ
  inodeCount : ℕ
  rootInode : ℕ
  clean : Bool
  label : List UInt8
  inodeFile : Inode

/-- Why a superblock did not decode. -/
inductive SuperblockError
  | notOxfs
  | version (found : ℕ)
  deriving DecidableEq, Repr

namespace Superblock

/-- `Superblock::decode`: the magic number is `OXFS`. -/
def decode (b : Block) : Except SuperblockError Superblock :=
  if (List.range 4).map b ≠ [79, 88, 70, 83] then .error .notOxfs
  else if le32 b 4 ≠ superblockVersion then .error (.version (le32 b 4))
  else .ok {
    dataBlocks := le32 b 8
    inodeCount := le32 b 12
    rootInode := le32 b 16
    clean := le32 b 20 = 1
    label := (List.range 32).map fun i ↦ b (32 + i)
    inodeFile := unpackInode b 128 }

/-- One bit per data block. -/
def bitmapBlocks (sb : Superblock) : ℕ := divCeil sb.dataBlocks bitsPerBitmapBlock

end Superblock

/-! ## The device -/

/-- A device: its size in sectors, and what is read at a block, `none` if that fails. -/
structure Device where
  sectors : ℕ
  block : ℕ → Option Block

namespace Device

/-- The device's size in blocks. -/
def deviceBlocks (dev : Device) : ℕ := dev.sectors / 8

/-- Reads a block, around the cache; it has to lie on the device (`locate`). -/
def readDirect (dev : Device) (n : ℕ) : Option Block :=
  if n * 8 + 8 ≤ dev.sectors then dev.block n else none

/-- The cache's copy of a block: zeros if it cannot be read. -/
def cached (dev : Device) (n : ℕ) : Block := (dev.readDirect n).getD fun _ ↦ 0

end Device

/-! ## Mounting -/

/-- The inode file, its slots, how many are free and where to look for one. -/
structure InodeTable where
  file : Inode
  count : ℕ
  free : ℕ
  hint : ℕ

/-- One mounted oxfs. -/
structure Fs where
  dataBlocks : ℕ
  bitmapBlocks : ℕ
  dataBlockOffset : ℕ
  /-- Free blocks in each bitmap block. -/
  freeCounts : List ℕ
  inodes : InodeTable
  nextFreeBlock : ℕ
  label : List UInt8

/-- Why `mount_from_disk` returns `false`. -/
inductive MountError
  | unreadable
  | superblock (e : SuperblockError)
  | larger
  | noMemory
  deriving DecidableEq, Repr

namespace Fs

/-- Nothing read yet. -/
def new : Fs where
  dataBlocks := 0
  bitmapBlocks := 0
  dataBlockOffset := 0
  freeCounts := []
  inodes := ⟨⟨.free, List.replicate directBlocks noBlock, noBlock, noBlock⟩, 0, 0, 0⟩
  nextFreeBlock := 0
  label := List.replicate 32 0

/-- `set_layout`: the data follow the bitmap. -/
def setLayout (fs : Fs) (dataBlocks bitmap : ℕ) : Fs :=
  { fs with
    dataBlocks := dataBlocks
    bitmapBlocks := bitmap
    dataBlockOffset := bitmapStart + bitmap }

/-- Data block `n`.  The sum is one of `u32`s and wraps around. -/
def withBlock (fs : Fs) (dev : Device) (n : ℕ) : Block :=
  dev.cached ((fs.dataBlockOffset + n) % 2 ^ 32)

def someBlock (n : ℕ) : Option ℕ := if n ≠ noBlock then some n else none

/-- Pointer `slot` of index block `n`. -/
def readIndexPtr (fs : Fs) (dev : Device) (n slot : ℕ) : ℕ := le32 (fs.withBlock dev n) (slot * 4)

/-- The block of `inode`'s block `index`, if it has one. -/
def inodeBlockAt (fs : Fs) (dev : Device) (inode : Inode) (index : ℕ) : Option ℕ :=
  if index < directBlocks then
    someBlock (inode.direct.getD index noBlock)
  else
    let index := index - directBlocks
    if index < ptrsPerIndirect then
      if inode.indirect = noBlock then none
      else someBlock (fs.readIndexPtr dev inode.indirect index)
    else
      let index := index - ptrsPerIndirect
      if inode.doubleIndirect = noBlock ∨ ptrsPerDoubleIndirect ≤ index then none
      else
        let inner := fs.readIndexPtr dev inode.doubleIndirect (index / ptrsPerIndirect)
        if inner = noBlock then none
        else someBlock (fs.readIndexPtr dev inner (index % ptrsPerIndirect))

/-- The kind of inode `n`, free if it is past the table. -/
def readInodeKind (fs : Fs) (dev : Device) (n : ℕ) : InodeKind :=
  if fs.inodes.count ≤ n then .free
  else
    match fs.inodeBlockAt dev fs.inodes.file (n / inodesPerBlock) with
    | none => .free
    | some block =>
      (unpackInode (fs.withBlock dev block) (n % inodesPerBlock * inodeStride)).kind

/-- How many of the first `bits` bits of a bitmap block are set. -/
def bitsSet (b : Block) (bits : ℕ) : ℕ :=
  ((List.range bits).filter fun bit ↦ (b (bit / 8)).toNat.testBit (bit % 8)).length

/-- The free blocks of bitmap block `index`. -/
def countFree (dev : Device) (dataBlocks index : ℕ) : ℕ :=
  let bits := min (dataBlocks - index * bitsPerBitmapBlock) bitsPerBitmapBlock
  bits - bitsSet (dev.cached (bitmapStart + index)) bits

/-- The state with the layout, the free counts and the inode table read, its free slots still to be
counted. -/
def laidOut (fs : Fs) (dev : Device) (sb : Superblock) : Fs :=
  { fs.setLayout sb.dataBlocks sb.bitmapBlocks with
    freeCounts := (List.range sb.bitmapBlocks).map (countFree dev sb.dataBlocks)
    label := sb.label
    nextFreeBlock := 0
    inodes := ⟨sb.inodeFile, sb.inodeCount, 0, 0⟩ }

/-- `mount_from_disk`.  `memory` says whether there is room for the free counts. -/
def mountFromDisk (fs : Fs) (dev : Device) (memory : Bool) : Except MountError Fs :=
  match dev.readDirect 0 with
  | none => .error .unreadable
  | some b =>
    match Superblock.decode b with
    | .error e => .error (.superblock e)
    | .ok sb =>
      if (layoutFor dev.deviceBlocks).2 < sb.bitmapBlocks then .error .larger
      else if memory = false then .error .noMemory
      else
        let fs := fs.laidOut dev sb
        let kinds := (List.range sb.inodeCount).map (fs.readInodeKind dev)
        .ok { fs with inodes := { fs.inodes with free := kinds.count .free } }

end Fs

/-! ## What fits -/

/-- The data blocks a device has room for: `layout_for` without its cap. -/
def capacity (deviceBlocks : ℕ) : ℕ :=
  deviceBlocks - bitmapStart - divCeil (deviceBlocks - bitmapStart) (bitsPerBitmapBlock + 1)

/-- `div_ceil` of the data blocks by the bits of a bitmap block, against `div_ceil` of the usable
blocks by the bits and the bitmap block itself. -/
theorem fits_iff_le_capacity {n : ℕ} (d : ℕ) (hn : 1 ≤ n) :
    bitmapStart + divCeil d bitsPerBitmapBlock + d ≤ n ↔ d ≤ capacity n := by
  simp only [capacity, divCeil, bitmapStart, bitsPerBitmapBlock]
  omega

/-- **A mounted file system lies on its device exactly if its superblock has no more data blocks
than the device has room for.** -/
theorem mount_fits_iff {fs fs' : Fs} {dev : Device} {memory : Bool}
    (h : fs.mountFromDisk dev memory = .ok fs') : ∃ b sb, dev.readDirect 0 = some b ∧
      Superblock.decode b = .ok sb ∧ fs'.dataBlocks = sb.dataBlocks ∧
      (fs'.dataBlockOffset + fs'.dataBlocks ≤ dev.deviceBlocks ↔
        sb.dataBlocks ≤ capacity dev.deviceBlocks) := by
  rw [Fs.mountFromDisk] at h
  cases hread : dev.readDirect 0 with
  | none =>
    rw [hread] at h
    cases h
  | some b =>
    have hsize : 1 ≤ dev.deviceBlocks := by
      rw [Device.readDirect] at hread
      split_ifs at hread with hsectors
      rw [Device.deviceBlocks]
      omega
    rw [hread] at h
    dsimp only at h
    cases hdecode : Superblock.decode b with
    | error e =>
      rw [hdecode] at h
      cases h
    | ok sb =>
      rw [hdecode] at h
      dsimp only at h
      split_ifs at h
      cases h
      exact ⟨b, sb, rfl, hdecode, rfl, fits_iff_le_capacity sb.dataBlocks hsize⟩

/-- A superblock of `dataBlocks` data blocks (below 256) and no inodes, and nothing else. -/
def bare (dataBlocks : UInt8) : Block := fun i ↦
  [79, 88, 70, 83, 7, 0, 0, 0, dataBlocks].getD i 0

/-- A device of 100 blocks with that superblock. -/
def bareDevice (dataBlocks : UInt8) : Device where
  sectors := 800
  block n := some (if n = 0 then bare dataBlocks else fun _ ↦ 0)

/-- A mount evaluated. -/
theorem Fs.exists_mounted {fs : Fs} {dev : Device} {memory : Bool} (p : Fs → Bool)
    (h : (fs.mountFromDisk dev memory).toOption.any p = true) :
    ∃ fs', fs.mountFromDisk dev memory = .ok fs' ∧ p fs' = true := by
  cases hmount : fs.mountFromDisk dev memory with
  | error e =>
    rw [hmount] at h
    cases h
  | ok fs' =>
    rw [hmount] at h
    exact ⟨fs', rfl, h⟩

/-- 98 data blocks, a bitmap block and the superblock. -/
theorem mount_fits_iff_full : ∃ fs', Fs.new.mountFromDisk (bareDevice 98) true = .ok fs' ∧
    fs'.dataBlockOffset + fs'.dataBlocks = (bareDevice 98).deviceBlocks ∧
    ∃ b sb, (bareDevice 98).readDirect 0 = some b ∧ Superblock.decode b = .ok sb ∧
      fs'.dataBlocks = sb.dataBlocks ∧
      (fs'.dataBlockOffset + fs'.dataBlocks ≤ (bareDevice 98).deviceBlocks ↔
        sb.dataBlocks ≤ capacity (bareDevice 98).deviceBlocks) := by
  obtain ⟨fs', hmount, hfull⟩ := @Fs.exists_mounted Fs.new (bareDevice 98) true
    (fun fs' ↦ fs'.dataBlockOffset + fs'.dataBlocks = (bareDevice 98).deviceBlocks)
    (by decide +kernel)
  exact ⟨fs', hmount, of_decide_eq_true hfull, mount_fits_iff hmount⟩

/-- A superblock of 255 data blocks on a device of 100: one bitmap block is enough for both. -/
theorem mount_past_device : ∃ fs', Fs.new.mountFromDisk (bareDevice 255) true = .ok fs' ∧
    ¬ fs'.dataBlockOffset + fs'.dataBlocks ≤ (bareDevice 255).deviceBlocks := by
  obtain ⟨fs', hmount, hpast⟩ := @Fs.exists_mounted Fs.new (bareDevice 255) true
    (fun fs' ↦ ¬ fs'.dataBlockOffset + fs'.dataBlocks ≤ (bareDevice 255).deviceBlocks)
    (by decide +kernel)
  exact ⟨fs', hmount, of_decide_eq_true hpast⟩

/-! ## Growing -/

/-- What is on a device, by block. -/
abbrev Blocks : Type := ℕ → Block

/-- Whether data block `i` is in use. -/
def bit (d : Blocks) (i : ℕ) : Bool :=
  let b := i % bitsPerBitmapBlock
  (d (bitmapStart + i / bitsPerBitmapBlock) (b / 8)).toNat.testBit (b % 8)

/-- Device block holding data block 0. -/
def Superblock.dataBlockOffset (sb : Superblock) : ℕ := bitmapStart + sb.bitmapBlocks

/-- `Grown`: the data blocks before and after, and by how many blocks the data move. -/
structure Grown where
  oldBlocks : ℕ
  newBlocks : ℕ
  movedBy : ℕ

/-- Why `grow` did not; the device's own errors are left out. -/
inductive GrowError
  | notClean
  | noRoom

/-- What `grow` would do on a device of `deviceBlocks` blocks. -/
def plan (sb : Superblock) (deviceBlocks : ℕ) : Except GrowError Grown :=
  let (newBlocks, newBitmap) := layoutFor deviceBlocks
  if newBlocks ≤ sb.dataBlocks then .error .noRoom
  else .ok ⟨sb.dataBlocks, newBlocks, newBitmap - sb.bitmapBlocks⟩

/-- The two loops over the bitmap, the highest bit first; no move changes it. -/
def moveData (oldStart newStart : ℕ) : ℕ → Blocks → Blocks
  | 0, d => d
  | i + 1, d => moveData oldStart newStart i
      (if bit d i then update d (newStart + i) (d (oldStart + i)) else d)

/-- A bitmap block without the bits from `start` on. -/
def clearFrom (start : ℕ) (map : Block) : Block :=
  fun j ↦ .ofNat ((map j).toNat % 2 ^ (start - 8 * j))

/-- `grow`, from the superblock and what is on the device. -/
def grow (sb : Superblock) (d : Blocks) (deviceBlocks : ℕ) :
    Except GrowError (Superblock × Blocks) :=
  match plan sb deviceBlocks with
  | .error e => .error e
  | .ok g =>
    if sb.clean = false then .error .notClean
    else
      let oldStart := sb.dataBlockOffset
      let newStart := oldStart + g.movedBy
      let d :=
        if 0 < g.movedBy then
          -- then the new bitmap blocks are zeroed
          fun n ↦ if oldStart ≤ n ∧ n < newStart then fun _ ↦ 0
            else moveData oldStart newStart g.oldBlocks d n
        else d
      let last := sb.bitmapBlocks - 1
      let d := update d (bitmapStart + last)
        (clearFrom (g.oldBlocks - last * bitsPerBitmapBlock) (d (bitmapStart + last)))
      .ok ({ sb with dataBlocks := g.newBlocks }, d)

/-- After `k` turns the blocks in use are at their new place, and no others have changed. -/
theorem moveData_spec {oldStart newStart : ℕ} (hle : oldStart ≤ newStart) : ∀ {k : ℕ} {d : Blocks},
    (∀ i < k, bitmapStart + i / bitsPerBitmapBlock < newStart) →
    (∀ n, n < newStart ∨ newStart + k ≤ n → moveData oldStart newStart k d n = d n) ∧
      ∀ i < k, bit d i = true → moveData oldStart newStart k d (newStart + i) = d (oldStart + i)
  | 0, _, _ => ⟨fun _ _ ↦ rfl, fun i hi ↦ absurd hi (Nat.not_lt_zero i)⟩
  | k + 1, d, hmap => by
    rw [moveData]
    generalize hd' : (if bit d k then update d (newStart + k) (d (oldStart + k)) else d) = d'
    have hother : ∀ n, n ≠ newStart + k → d' n = d n := by
      intro n hn
      rw [← hd']
      split
      · exact update_of_ne hn _ _
      · rfl
    obtain ⟨hout, hin⟩ := moveData_spec hle (k := k) (d := d') fun i hi ↦ hmap i (by omega)
    refine ⟨fun n hn ↦ ?_, fun i hi hbit ↦ ?_⟩
    · rw [hout n (by omega), hother n (by omega)]
    · by_cases hk : i = k
      · subst hk
        rw [hout _ (by omega), ← hd', if_pos hbit, update_self]
      · have hbit' : bit d' i = true := by
          have := hmap i (by omega)
          rw [bit, hother _ (by omega)]
          exact hbit
        rw [hin i (by omega) hbit', hother _ (by omega)]

/-- The new place of the data is the one of the device's formula. -/
theorem newStart_of_plan {sb : Superblock} {n : ℕ} {g : Grown} (h : plan sb n = .ok g) :
    g.oldBlocks = sb.dataBlocks ∧ g.newBlocks = (layoutFor n).1 ∧
      sb.dataBlockOffset + g.movedBy = bitmapStart + (layoutFor n).2 := by
  rw [plan] at h
  dsimp only at h
  split_ifs at h with hroom
  cases h
  -- the bitmap of the device is never too small for more data blocks than the superblock has
  have hmore : sb.bitmapBlocks ≤ (layoutFor n).2 := by
    simp only [Superblock.bitmapBlocks, layoutFor, divCeil, bitsPerBitmapBlock] at hroom ⊢
    omega
  refine ⟨rfl, rfl, ?_⟩
  rw [Superblock.dataBlockOffset, Nat.add_assoc, Nat.add_sub_cancel' hmore]

/-- **At one size in 32769 `layout_for` counts a bitmap block too many**, and `grow` then moves the
data to where the new superblock does not have them. -/
theorem layoutFor_exact_iff (n : ℕ) :
    ((layoutFor n).2 = divCeil (layoutFor n).1 bitsPerBitmapBlock ↔
      min (n - bitmapStart) (maxDiskBlocks - 1) % (bitsPerBitmapBlock + 1) ≠ 1) ∧
    ∀ sb g, plan sb n = .ok g →
      (sb.dataBlockOffset + g.movedBy =
          Superblock.dataBlockOffset { sb with dataBlocks := g.newBlocks } ↔
        min (n - bitmapStart) (maxDiskBlocks - 1) % (bitsPerBitmapBlock + 1) ≠ 1) := by
  have hexact : (layoutFor n).2 = divCeil (layoutFor n).1 bitsPerBitmapBlock ↔
      min (n - bitmapStart) (maxDiskBlocks - 1) % (bitsPerBitmapBlock + 1) ≠ 1 := by
    simp only [layoutFor, divCeil, bitsPerBitmapBlock]
    generalize min (n - bitmapStart) (maxDiskBlocks - 1) = usable
    have hceil : (usable + (32768 + 1) - 1) / (32768 + 1) =
        usable / 32769 + if usable % 32769 = 0 then 0 else 1 := by
      split <;> omega
    rw [hceil]
    split <;> omega
  refine ⟨hexact, fun sb g hplan ↦ ?_⟩
  obtain ⟨-, hnew, hstart⟩ := newStart_of_plan hplan
  rw [← hexact, hstart, hnew, Superblock.dataBlockOffset, Superblock.bitmapBlocks]
  exact Nat.add_left_cancel_iff

/-- **Growing keeps the data**: the blocks in use are where the new superblock has them. -/
theorem grow_keeps {sb sb' : Superblock} {d d' : Blocks} {n i : ℕ}
    (h : grow sb d n = .ok (sb', d'))
    (hexact : (layoutFor n).2 = divCeil (layoutFor n).1 bitsPerBitmapBlock)
    (hi : i < sb.dataBlocks) (hbit : bit d i = true) :
    d' (sb'.dataBlockOffset + i) = d (sb.dataBlockOffset + i) := by
  rw [grow] at h
  cases hplan : plan sb n with
  | error e =>
    rw [hplan] at h
    cases h
  | ok g =>
    rw [hplan] at h
    dsimp only at h
    obtain ⟨hold, hnew, hmoved⟩ := newStart_of_plan hplan
    have hmap : ∀ j < sb.dataBlocks, j / bitsPerBitmapBlock < sb.bitmapBlocks := by
      intro j hj
      simp only [Superblock.bitmapBlocks, divCeil, bitsPerBitmapBlock]
      omega
    have hlast : 0 < sb.bitmapBlocks := Nat.zero_lt_of_lt (hmap i hi)
    have hstart : Superblock.dataBlockOffset { sb with dataBlocks := g.newBlocks } =
        sb.dataBlockOffset + g.movedBy := by
      rw [hmoved, Superblock.dataBlockOffset, Superblock.bitmapBlocks, hnew, ← hexact]
    have hoff : sb.dataBlockOffset = bitmapStart + sb.bitmapBlocks := rfl
    split_ifs at h with hclean hpos <;> cases h <;>
      rw [hstart, update_of_ne (by omega)]
    · rw [if_neg (by omega)]
      have hspec := @moveData_spec sb.dataBlockOffset (sb.dataBlockOffset + g.movedBy)
        (Nat.le_add_right _ _) g.oldBlocks d fun j hj ↦ by
          have := hmap j (by omega)
          omega
      exact hspec.2 i (by omega) hbit
    · congr 1
      omega

/-- Four data blocks, all of them in use. -/
def four : Superblock × Blocks :=
  (⟨4, 0, 0, true, [], Fs.new.inodes.file⟩, fun n _ ↦ if n = bitmapStart then 15 else .ofNat n)

theorem grow_keeps_four : ∃ sb d, grow four.1 four.2 32772 = .ok (sb, d) ∧
    d (sb.dataBlockOffset + 3) = four.2 (four.1.dataBlockOffset + 3) :=
  ⟨_, _, rfl, grow_keeps (n := 32772) rfl (by decide) (by decide) (by decide)⟩

/-- On 32771 blocks the data move by one, and the superblock has them where they were. -/
example : ∃ sb d, grow four.1 four.2 32771 = .ok (sb, d) ∧ bit four.2 0 = true ∧
    d sb.dataBlockOffset ≠ four.2 four.1.dataBlockOffset :=
  ⟨_, _, rfl, by decide, fun h ↦ absurd (congrFun h 0) (by decide)⟩

end OxideBSD.Oxfs.Mount
