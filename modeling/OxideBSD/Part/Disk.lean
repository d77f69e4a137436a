import OxideBSD.Part.Table

/-!
# Reading a partition table

`parse` of `lib/libpart/src/lib.rs`: a table from the first and last sectors of a disk, a GPT by its
primary or its backup header, or the MBR's four entries.  A buffer is a length and a function from
offsets to bytes; what is read of one is checked against its length first.
-/

set_option autoImplicit false

namespace OxideBSD.Part

open Bytes

def mbrGptProtective : UInt8 := 0xEE

def le32 (b : ℕ → UInt8) (a : ℕ) : ℕ := le b a 4

def le64 (b : ℕ → UInt8) (a : ℕ) : ℕ := le b a 8

/-- The eight shifts of `crc32` for one byte. -/
def crcByte (crc : UInt32) (byte : UInt8) : UInt32 :=
  let shift (crc : UInt32) : UInt32 :=
    if crc &&& 1 ≠ 0 then (crc >>> 1) ^^^ 0xEDB88320 else crc >>> 1
  Nat.repeat shift 8 (crc ^^^ byte.toUInt32)

/-- CRC-32 (IEEE 802.3, reflected), as GPT uses. -/
def crc32 (data : List UInt8) : ℕ := (~~~data.foldl crcByte 0xFFFFFFFF).toNat

structure Buf where
  len : ℕ
  byte : ℕ → UInt8

/-! ## GPT -/

/-- "EFI PART". -/
def efiPart : List UInt8 := [69, 70, 73, 32, 80, 65, 82, 84]

/-- The header of `n` bytes at `a`, its CRC field zero. -/
def withoutCrc (b : ℕ → UInt8) (a n : ℕ) : List UInt8 :=
  (List.range n).map fun i ↦ if 16 ≤ i ∧ i < 20 then 0 else b (a + i)

/-- The fields of a header that the rest is read by. -/
structure Header where
  diskGuid : Guid
  firstUsable : ℕ
  lastUsable : ℕ
  entriesLba : ℕ
  count : ℕ
  size : ℕ
  entriesCrc : ℕ

/-- The header at `a`. -/
def headerAt (b : ℕ → UInt8) (a : ℕ) : Header where
  diskGuid := guidAt b (a + 56)
  firstUsable := le64 b (a + 40)
  lastUsable := le64 b (a + 48)
  entriesLba := le64 b (a + 72)
  count := le32 b (a + 80)
  size := le32 b (a + 84)
  entriesCrc := le32 b (a + 88)

namespace Header

/-- Its usable range and the numbers of its entries are in bounds. -/
def InBounds (h : Header) (diskSectors : ℕ) : Prop :=
  h.firstUsable ≤ h.lastUsable ∧ h.lastUsable < diskSectors ∧
    128 ≤ h.size ∧ h.size ≤ 4096 ∧ h.size % 8 = 0 ∧ h.count ≤ 1024

instance (h : Header) (diskSectors : ℕ) : Decidable (h.InBounds diskSectors) :=
  inferInstanceAs (Decidable (_ ∧ _))

/-- The sectors `write` takes for its entries. -/
def entrySectors (h : Header) (sectorSize : ℕ) : ℕ :=
  gptEntrySectors sectorSize h.count gptEntrySize

end Header

/-- The header of sector `lba` at `a`: signature, size, CRC and own position. -/
def HeaderOk (b : ℕ → UInt8) (a lba : ℕ) : Prop :=
  bytes b a 8 = efiPart ∧ (92 ≤ le32 b (a + 12) ∧ le32 b (a + 12) ≤ 512) ∧
    crc32 (withoutCrc b a (le32 b (a + 12))) = le32 b (a + 16) ∧ le64 b (a + 24) = lba

instance (b : ℕ → UInt8) (a lba : ℕ) : Decidable (HeaderOk b a lba) :=
  inferInstanceAs (Decidable (_ ∧ _))

/-- The name of the entry at `a`: up to its first zero, `?` for half a pair. -/
def labelAt (b : ℕ → UInt8) (a : ℕ) : List Char :=
  let units := (List.range gptLabelUnits).map fun j ↦ le b (a + 56 + 2 * j) 2
  (Utf16.decode (units.takeWhile (· ≠ 0))).map fun c ↦ c.getD '?'

/-- The entry `i` of a GPT, at `a`; a slot without a type, or that ends before it starts, has
none. -/
def gptSlot (b : ℕ → UInt8) (a i : ℕ) : Res (Option Entry) :=
  if guidAt b a = zeroGuid then .ok none
  else if le64 b (a + 32) > le64 b (a + 40) then .ok none
  else do
    let sectors ← addU64 (le64 b (a + 40) - le64 b (a + 32)) 1
    pure (some {
      index := i + 1, code := .gpt (guidAt b a), first := le64 b (a + 32), sectors
      label := labelAt b a, guid := guidAt b (a + 16), attributes := le64 b (a + 48)
      active := false })

/-- The entries in the slots `is` of the array at `start`. -/
def gptSlots (b : ℕ → UInt8) (start size : ℕ) : List ℕ → Res (List Entry)
  | [] => .ok []
  | i :: is => do
    let slot ← gptSlot b (start + i * size) i
    let rest ← gptSlots b start size is
    pure (slot.toList ++ rest)

/-- Where sector `lba` is in a buffer that starts with sector `bufFirst`. -/
def offsetOf (bufFirst sectorSize lba : ℕ) : Option ℕ :=
  if bufFirst ≤ lba ∧ (lba - bufFirst) * sectorSize < 2 ^ 64 then
    some ((lba - bufFirst) * sectorSize)
  else none

/-- The GPT whose header is at sector `headerLba`, from `buf`, which holds the disk's sectors from
`bufFirst` on. -/
def parseGpt (buf : Buf) (headerLba bufFirst sectorSize diskSectors : ℕ) (boot : Vector UInt8 446) :
    Res (Option Table) :=
  match offsetOf bufFirst sectorSize headerLba with
  | none => .ok none
  | some a => do
    let past ← addU64 a 512
    let h := headerAt buf.byte a
    if buf.len < past ∨ ¬HeaderOk buf.byte a headerLba ∨ ¬h.InBounds diskSectors then pure none
    else if 2 + h.entrySectors sectorSize > h.firstUsable then pure none
    else
      -- `last_usable < disk_sectors`, so that the two terms of one fit.
      let room ← addU64 (h.lastUsable + 1) (h.entrySectors sectorSize)
      if room > diskSectors - 1 then pure none
      else match offsetOf bufFirst sectorSize h.entriesLba with
        | none => pure none
        | some start =>
          if buf.len < start + h.count * h.size ∨
              crc32 (bytes buf.byte start (h.count * h.size)) ≠ h.entriesCrc then pure none
          else
            let entries ← gptSlots buf.byte start h.size (List.range h.count)
            pure (some {
              scheme := .gpt, sectorSize, diskSectors, diskGuid := h.diskGuid
              firstUsable := h.firstUsable, lastUsable := h.lastUsable, entries
              slots := h.count, boot, fromBackup := false })

/-! ## MBR -/

/-- Entry `i` of the MBR, without a protective one. -/
def mbrSlot (b : ℕ → UInt8) (i : ℕ) : Option Entry :=
  let a := 446 + i * 16
  if b (a + 4) ≠ 0 ∧ b (a + 4) ≠ mbrGptProtective ∧ le32 b (a + 12) > 0 then
    some {
      index := i + 1, code := .mbr (b (a + 4)), first := le32 b (a + 8), sectors := le32 b (a + 12)
      label := [], guid := zeroGuid, attributes := 0, active := b a = 0x80 }
  else none

/-- The MBR's four primary entries. -/
def parseMbr (b : ℕ → UInt8) (sectorSize diskSectors : ℕ) (boot : Vector UInt8 446) :
    Res Table := do
  let lastUsable ← subU64 (min diskSectors (2 ^ 32)) 1
  pure {
    scheme := .mbr, sectorSize, diskSectors, diskGuid := zeroGuid
    firstUsable := 1, lastUsable, entries := (List.range 4).filterMap (mbrSlot b), slots := 4
    boot, fromBackup := false }

/-- An entry of the MBR covers a GPT disk. -/
def HasProtective (b : ℕ → UInt8) : Prop := ∃ i < 4, b (446 + i * 16 + 4) = mbrGptProtective

instance (b : ℕ → UInt8) : Decidable (HasProtective b) :=
  inferInstanceAs (Decidable (∃ i < 4, _))

/-! ## Either -/

/-- The backup GPT, from the disk's last sectors. -/
def parseBackup (tail : Buf) (sectorSize diskSectors : ℕ) (boot : Vector UInt8 446) :
    Res (Option Table) :=
  if diskSectors < tail.len / sectorSize ∨ tail.len = 0 then .ok none
  else do
    let last ← subU64 diskSectors 1
    parseGpt tail last (diskSectors - tail.len / sectorSize) sectorSize diskSectors boot

/-- A disk with a table: a sector size there is, two sectors of it, and `55 AA`. -/
def Signed (head : Buf) (sectorSize : ℕ) : Prop :=
  2 ^ sectorSize.log2 = sectorSize ∧ 512 ≤ sectorSize ∧ 2 * sectorSize ≤ head.len ∧
    bytes head.byte 510 2 = [0x55, 0xAA]

instance (head : Buf) (sectorSize : ℕ) : Decidable (Signed head sectorSize) :=
  inferInstanceAs (Decidable (_ ∧ _))

/-- The table on a disk of `diskSectors` sectors, from its first ones and its last ones. -/
def parse (head tail : Buf) (sectorSize diskSectors : ℕ) : Res (Option Table) :=
  let boot : Vector UInt8 446 := Vector.ofFn fun i ↦ head.byte i
  if ¬Signed head sectorSize then .ok none
  else if HasProtective head.byte then do
    match ← parseGpt head 1 0 sectorSize diskSectors boot with
    | some t => pure (some t)
    | none =>
      match ← parseBackup tail sectorSize diskSectors boot with
      | some t => pure (some { t with fromBackup := true })
      | none => (parseMbr head.byte sectorSize diskSectors boot).map some
  else (parseMbr head.byte sectorSize diskSectors boot).map some

/-! ## Disks -/

/-- A disk that can be read. -/
structure Disk where
  sectorSize : UInt32
  sectors : UInt64
  byte : ℕ → UInt8

namespace Disk

/-- The sector size and the number of sectors. -/
def ss (d : Disk) : ℕ := d.sectorSize.toNat

def total (d : Disk) : ℕ := d.sectors.toNat

/-- The `n` sectors from `lba` on, read into a buffer. -/
def sectorsFrom (d : Disk) (lba n : ℕ) : Buf := ⟨n * d.ss, fun i ↦ d.byte (lba * d.ss + i)⟩

/-- `parse` of the disk's first `headN` and last `tailN` sectors. -/
def parsed (d : Disk) (headN tailN : ℕ) : Res (Option Table) :=
  parse (d.sectorsFrom 0 headN) (d.sectorsFrom (d.total - tailN) tailN) d.ss d.total

/-- There are these sectors, and they fit in memory. -/
structure Reads (d : Disk) (headN tailN : ℕ) : Prop where
  head_le : headN ≤ d.total
  tail_le : tailN ≤ d.total
  head_fits : headN * d.ss < 2 ^ 63
  tail_fits : tailN * d.ss < 2 ^ 63

end Disk

end OxideBSD.Part
