import OxideBSD.Part.Disk

/-!
# Writing a partition table

`Table::write` of `lib/libpart/src/lib.rs`: the sectors that hold a table, each with the fields that
are copied into it one after the other.
-/

set_option autoImplicit false

namespace OxideBSD.Part

open Bytes

/-- A buffer of zeros. -/
def zeros : ℕ → UInt8 := fun _ ↦ 0

/-- The fields of MBR entry `i` (`mbr_entry`, which writes the signature again). -/
def mbrFields (i : ℕ) (kind : UInt8) (first sectors : ℕ) (active : Bool) : List (ℕ × List UInt8) :=
  let a := 446 + i * 16
  [(a, [if active then 0x80 else 0]), (a + 1, [0xFE, 0xFF, 0xFF]), (a + 4, [kind]),
    (a + 5, [0xFE, 0xFF, 0xFF]), (a + 8, toLe 4 (min first (2 ^ 32 - 1))),
    (a + 12, toLe 4 (min sectors (2 ^ 32 - 1)))]

/-- The fields of a partition in the MBR. -/
def Entry.mbrFields (e : Entry) : List (ℕ × List UInt8) :=
  match e.code with
  | .mbr b => Part.mbrFields (e.index - 1) b e.first e.sectors e.active
  | .gpt _ => []

/-- The fields of a partition of type `code` in the array of a GPT. -/
def Entry.gptFields (e : Entry) (code : Guid) (past : ℕ) : List (ℕ × List UInt8) :=
  let a := (e.index - 1) * gptEntrySize
  [(a, code.toList), (a + 16, e.guid.toList), (a + 32, toLe 8 e.first), (a + 40, toLe 8 (past - 1)),
    (a + 48, toLe 8 e.attributes),
    (a + 56, ((Utf16.encode e.label).take gptLabelUnits).flatMap (toLe 2))]

/-- The fields of the array of a GPT. -/
def arrayFields : List Entry → Res (List (ℕ × List UInt8))
  | [] => .ok []
  | e :: es =>
    match e.code with
    | .mbr _ => arrayFields es
    | .gpt code => do
      let past ← e.past
      let rest ← arrayFields es
      pure (e.gptFields code past ++ rest)

namespace Table

/-- Sector 0 with the boot code, these entries and the signature. -/
def sector0 (t : Table) (entries : List (ℕ × List UInt8)) : List UInt8 :=
  bytes (puts zeros ((0, t.boot.toList) :: (510, [0x55, 0xAA]) :: entries)) 0 t.sectorSize

/-- The fields of a GPT header but its CRC. -/
def headerFields (t : Table) (crc this other entriesLba : ℕ) : List (ℕ × List UInt8) :=
  [(0, efiPart), (8, toLe 4 0x10000), (12, toLe 4 92), (24, toLe 8 this), (32, toLe 8 other),
    (40, toLe 8 t.firstUsable), (48, toLe 8 t.lastUsable), (56, t.diskGuid.toList),
    (72, toLe 8 entriesLba), (80, toLe 4 t.slots), (84, toLe 4 gptEntrySize), (88, toLe 4 crc)]

/-- The GPT header at sector `this`: its CRC is taken and written last. -/
def header (t : Table) (crc this other entriesLba : ℕ) : ℕ → UInt8 :=
  let fields := t.headerFields crc this other entriesLba
  puts zeros (fields ++ [(16, toLe 4 (crc32 (bytes (puts zeros fields) 0 92)))])

/-- The sectors that write this table, as the first one and the bytes.  A sector of less than 512
bytes has no room for sector 0. -/
def write (t : Table) : Res (List (ℕ × List UInt8)) :=
  if t.sectorSize < 512 then .error .overflow
  else match t.scheme with
    | .mbr => .ok [(0, t.sector0 (t.entries.flatMap Entry.mbrFields))]
    | .gpt => do
      let backup ← subU64 t.diskSectors 1
      let fields ← arrayFields t.entries
      let entries := bytes (puts zeros fields) 0 (t.slots * gptEntrySize)
      let entrySectors := gptEntrySectors t.sectorSize t.slots gptEntrySize
      let padded := entries ++ List.replicate (entrySectors * t.sectorSize - entries.length) 0
      let crc := crc32 entries
      let entriesLba ← subU64 backup entrySectors
      pure [(0, t.sector0 (mbrFields 0 mbrGptProtective 1 backup false)),
        (1, bytes (t.header crc 1 backup 2) 0 t.sectorSize), (2, padded), (entriesLba, padded),
        (backup, bytes (t.header crc backup 1 entriesLba) 0 t.sectorSize)]

end Table

/-- The disk with these sectors written. -/
def Disk.write (d : Disk) (ws : List (ℕ × List UInt8)) : Disk :=
  { d with byte := puts d.byte (ws.map fun w ↦ (w.1 * d.ss, w.2)) }

end OxideBSD.Part
