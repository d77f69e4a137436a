import OxideBSD.Lib.Bytes
import OxideBSD.Oxfs.Mount

/-!
# The contents of an oxfs's files

`sys/modules/oxfs/src/lib.rs`: the block pool of a mounted oxfs, the addressing of a file's blocks,
and the walks over them that read, write and resize a file.  The pool is seen through the buffer
cache, so a block holds what was last stored in it; the inode table is a function from numbers to
records.

* `allocBlock` takes the first free block from the cursor on.
* `inodeBlockAt` and `inodeEnsureBlockAt` find a file's block, the latter adding what is missing.
* `readInodeWith`, `resizeInodeData` and `writeInodeWith` walk a file block by block.  Each round
  covers at least one byte, so the bytes to do bound the rounds.
-/

set_option autoImplicit false

namespace OxideBSD.OxfsFiles

open Function

open Oxfs.Mount (blockSize directBlocks ptrsPerIndirect ptrsPerDoubleIndirect noBlock
  bitsPerBitmapBlock Block)

def ENOSPC : ℤ := 28

/-- What is used here of an inode. -/
structure Inode where
  size : ℕ
  direct : Fin directBlocks → ℕ
  indirect : ℕ
  doubleIndirect : ℕ

/-- `Inode::FREE`; a new inode has no blocks either. -/
def Inode.free : Inode := ⟨0, fun _ ↦ noBlock, noBlock, noBlock⟩

/-- One mounted oxfs, with its blocks. -/
structure Fs where
  dataBlocks : ℕ
  bitmapBlocks : ℕ
  /-- The bitmap. -/
  used : ℕ → Bool
  /-- Free blocks in each bitmap block. -/
  freeCounts : ℕ → ℕ
  /-- Where `allocBlock` starts looking. -/
  nextFreeBlock : ℕ
  data : ℕ → Block
  /-- The inodes in the table. -/
  count : ℕ
  inodes : ℕ → Inode

namespace Fs

/-! ## Blocks and inodes -/

def writeBlock (fs : Fs) (n : ℕ) (block : Block) : Fs :=
  { fs with data := update fs.data n block }

/-- Inode `n`, or a free one if `n` is past the table. -/
def readInode (fs : Fs) (n : ℕ) : Inode := if n < fs.count then fs.inodes n else .free

def writeInode (fs : Fs) (n : ℕ) (inode : Inode) : Fs :=
  if n < fs.count then { fs with inodes := update fs.inodes n inode } else fs

/-- Marks block `n` used or free, with its bitmap block's free count kept in step. -/
def setBlockUsed (fs : Fs) (n : ℕ) (used : Bool) : Fs :=
  if fs.used n = used then fs
  else
    let index := n / bitsPerBitmapBlock
    let count := fs.freeCounts index
    { fs with
      used := update fs.used n used
      freeCounts := update fs.freeCounts index (if used then count - 1 else count + 1) }

/-- The walk of `allocBlock` over the bitmap blocks from `index` on. -/
def allocScan (fs : Fs) (start : ℕ) : ℕ → ℕ → Option ℕ
  | 0, _ => none
  | fuel + 1, index =>
    -- a full bitmap block is skipped on its count
    if 0 < fs.freeCounts index then
      let base := index * bitsPerBitmapBlock
      let first := max start base - base
      let last := min (fs.dataBlocks - base) bitsPerBitmapBlock
      match (List.range' first (last - first)).find? fun bit ↦ !fs.used (base + bit) with
      | some bit => some (base + bit)
      | none => allocScan fs start fuel (index + 1)
    else allocScan fs start fuel (index + 1)

/-- Claims the first free block from the cursor on, and zeroes it. -/
def allocBlock (fs : Fs) : Option (ℕ × Fs) :=
  let index := fs.nextFreeBlock / bitsPerBitmapBlock
  match fs.allocScan fs.nextFreeBlock (fs.bitmapBlocks - index) index with
  | none => none
  | some n =>
    let fs := (fs.setBlockUsed n true).writeBlock n fun _ ↦ 0
    some (n, { fs with nextFreeBlock := n + 1 })

/-- `allocBlock` with every pointer in the block empty. -/
def allocIndirectBlock (fs : Fs) : Option (ℕ × Fs) :=
  match fs.allocBlock with
  | none => none
  | some (n, fs) => some (n, fs.writeBlock n fun _ ↦ 0xFF)

/-! ## Addressing -/

/-- The pointer at `slot` of an index block. -/
def indexPtr (block : Block) (slot : ℕ) : ℕ := Bytes.le block (slot * 4) 4

/-- An index block with another pointer at `slot`. -/
def setIndexPtr (block : Block) (slot n : ℕ) : Block := Bytes.put block (slot * 4) (Bytes.toLe 4 n)

def readIndexPtr (fs : Fs) (ib slot : ℕ) : ℕ := indexPtr (fs.data ib) slot

/-- `(b != NO_BLOCK).then_some(b)`. -/
def someBlock (b : ℕ) : Option ℕ := if b = noBlock then none else some b

/-- The block behind the file's block `index`, if it was ever allocated. -/
def inodeBlockAt (fs : Fs) (inode : Inode) (index : ℕ) : Option ℕ :=
  if h : index < directBlocks then someBlock (inode.direct ⟨index, h⟩)
  else
    let index := index - directBlocks
    if index < ptrsPerIndirect then
      if inode.indirect = noBlock then none else someBlock (fs.readIndexPtr inode.indirect index)
    else
      let index := index - ptrsPerIndirect
      if inode.doubleIndirect = noBlock ∨ ptrsPerDoubleIndirect ≤ index then none
      else
        let inner := fs.readIndexPtr inode.doubleIndirect (index / ptrsPerIndirect)
        if inner = noBlock then none
        else someBlock (fs.readIndexPtr inner (index % ptrsPerIndirect))

/-- The data block at `slot` of index block `ib`, a new one if there is none. -/
def ensureIndexSlot (fs : Fs) (ib slot : ℕ) : Fs × Option ℕ :=
  let block := fs.data ib
  if indexPtr block slot ≠ noBlock then (fs, some (indexPtr block slot))
  else
    match fs.allocBlock with
    | none => (fs, none)
    | some (nb, fs) => (fs.writeBlock ib (setIndexPtr block slot nb), some nb)

/-- The index block a pointer leads to, a new one if it is empty. -/
def ensureIndirect (fs : Fs) (pointer : ℕ) : Option (ℕ × Fs) :=
  if pointer = noBlock then fs.allocIndirectBlock else some (pointer, fs)

/-- The index block at `slot` of the double-indirect block, a new one if there is none. -/
def ensureInner (fs : Fs) (outer slot : ℕ) : Option (ℕ × Fs) :=
  let block := fs.data outer
  if indexPtr block slot ≠ noBlock then some (indexPtr block slot, fs)
  else
    match fs.allocIndirectBlock with
    | none => none
    | some (nb, fs) => some (nb, fs.writeBlock outer (setIndexPtr block slot nb))

/-- The file's block `index`, with what is missing allocated.  When the pool runs out, the index
blocks allocated before stay. -/
def ensureBlock (fs : Fs) (inode : Inode) (index : ℕ) : Fs × Inode × Option ℕ :=
  if h : index < directBlocks then
    let i : Fin directBlocks := ⟨index, h⟩
    if inode.direct i = noBlock then
      match fs.allocBlock with
      | none => (fs, inode, none)
      | some (nb, fs) =>
        (fs, { inode with direct := update inode.direct i nb }, some nb)
    else (fs, inode, some (inode.direct i))
  else if index - directBlocks < ptrsPerIndirect then
    match fs.ensureIndirect inode.indirect with
    | none => (fs, inode, none)
    | some (ib, fs) =>
      let (fs, result) := fs.ensureIndexSlot ib (index - directBlocks)
      (fs, { inode with indirect := ib }, result)
  else
    let index := index - directBlocks - ptrsPerIndirect
    if ptrsPerDoubleIndirect ≤ index then (fs, inode, none)
    else
      match fs.ensureIndirect inode.doubleIndirect with
      | none => (fs, inode, none)
      | some (outer, fs) =>
        let inode := { inode with doubleIndirect := outer }
        match fs.ensureInner outer (index / ptrsPerIndirect) with
        | none => (fs, inode, none)
        | some (inner, fs) =>
          let (fs, result) := fs.ensureIndexSlot inner (index % ptrsPerIndirect)
          (fs, inode, result)

/-- `ensureBlock` for a numbered inode: the record is copied in and out. -/
def inodeEnsureBlockAt (fs : Fs) (n index : ℕ) : Fs × Option ℕ :=
  let (fs, inode, result) := fs.ensureBlock (fs.readInode n) index
  (fs.writeInode n inode, result)

/-! ## The walks -/

/-- How far a round that starts at `pos` goes: to `last` or the end of the block. -/
def chunk (last pos : ℕ) : ℕ := min (last - pos) (blockSize - pos % blockSize)

/-- The rounds of a read up to `last`. -/
def readLoop (fs : Fs) (inode : Inode) (last : ℕ) : ℕ → ℕ → List UInt8
  | 0, _ => []
  | fuel + 1, pos =>
    if pos < last then
      match fs.inodeBlockAt inode (pos / blockSize) with
      | none => []
      | some blk =>
        Bytes.bytes (fs.data blk) (pos % blockSize) (chunk last pos)
          ++ readLoop fs inode last fuel (pos + chunk last pos)
    else []

/-- Up to `max` bytes of the file from `position` on. -/
def readInodeAt (fs : Fs) (n position max : ℕ) : List UInt8 :=
  let inode := fs.readInode n
  if inode.size ≤ position then []
  else
    let len := min max (inode.size - position)
    fs.readLoop inode (position + len) len position

/-- The rounds that add zeros up to `newSize`. -/
def growLoop (n newSize : ℕ) : ℕ → Fs → ℕ → Fs × Bool
  | 0, fs, _ => (fs, true)
  | fuel + 1, fs, pos =>
    if pos < newSize then
      match fs.inodeEnsureBlockAt n (pos / blockSize) with
      | (fs, none) => (fs, false)
      | (fs, some blk) =>
        let zeros := List.replicate (chunk newSize pos) 0
        growLoop n newSize fuel
          (fs.writeBlock blk (Bytes.put (fs.data blk) (pos % blockSize) zeros))
          (pos + chunk newSize pos)
    else (fs, true)

/-- Resizes a file: growing adds zeros, shrinking leaves the blocks as they are. -/
def resizeInodeData (fs : Fs) (n newSize : ℕ) : Fs × Bool :=
  let oldSize := (fs.readInode n).size
  match growLoop n newSize (newSize - oldSize) fs oldSize with
  | (fs, false) => (fs, false)
  | (fs, true) => (fs.writeInode n { fs.readInode n with size := newSize }, true)

/-- What a write takes its bytes from: after `written` bytes, a share of the given length or an
error. -/
abbrev Fill : Type := (written share : ℕ) → Except ℤ (ℕ → UInt8)

/-- The rounds of a write up to `last`: the file system, the position reached, and the error that
stopped it. -/
def writeLoop (n position last : ℕ) (fill : Fill) : ℕ → Fs → ℕ → Fs × ℕ × Option ℤ
  | 0, fs, pos => (fs, pos, none)
  | fuel + 1, fs, pos =>
    if pos < last then
      match fs.inodeEnsureBlockAt n (pos / blockSize) with
      | (fs, none) => (fs, pos, some (-ENOSPC))
      | (fs, some blk) =>
        match fill (pos - position) (chunk last pos) with
        | .error e => (fs, pos, some e)
        | .ok share =>
          let bytes := Bytes.bytes share 0 (chunk last pos)
          writeLoop n position last fill fuel
            (fs.writeBlock blk (Bytes.put (fs.data blk) (pos % blockSize) bytes))
            (pos + chunk last pos)
    else (fs, pos, none)

/-- The size of a write covers what was written. -/
def coverSize (fs : Fs) (n pos : ℕ) : Fs :=
  let inode := fs.readInode n
  fs.writeInode n { inode with size := max inode.size pos }

/-- Writes `len` bytes at `position`: how many were written, an error only if none was. -/
def writeInodeWith (fs : Fs) (n position len : ℕ) (fill : Fill) : Fs × Except ℤ ℕ :=
  -- a write past the end fills the gap first, and this commits a new size
  let (fs, grown) :=
    if (fs.readInode n).size < position then fs.resizeInodeData n position else (fs, true)
  if grown then
    let (fs, pos, stopped) := writeLoop n position (position + len) fill len fs position
    let fs := fs.coverSize n pos
    match stopped with
    | some e => if pos = position then (fs, .error e) else (fs, .ok (pos - position))
    | none => (fs, .ok (pos - position))
  else (fs, .error (-ENOSPC))

end Fs

end OxideBSD.OxfsFiles
