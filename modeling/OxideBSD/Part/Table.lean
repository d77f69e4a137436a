import OxideBSD.Lib.Bytes
import OxideBSD.Lib.Machine
import OxideBSD.Lib.Utf16

/-!
# Partition tables and their editing calls

`Table` of `lib/libpart/src/lib.rs`: a disk's partitions, counted in its sectors, and the calls that
change them.  Numbers are naturals; an addition, subtraction or multiplication of the source that
leaves 64 bits is a panic (`Fail.overflow`), apart from the `Error`s by which a call refuses.

* `Table.new` makes an empty table, `add`, `delete`, `resize`, `modify`, `setActive` and
  `setBiosBootcodeIn` change one.
* `step` is a successful call, for runs of calls.
-/

set_option autoImplicit false

namespace OxideBSD.Part

open Bytes

abbrev Guid : Type := Vector UInt8 16

/-- The GUID at `a`. -/
def guidAt (b : ℕ → UInt8) (a : ℕ) : Guid := Vector.ofFn fun i ↦ b (a + i)

def zeroGuid : Guid := Vector.replicate 16 0

/-- "Hah!IdontNeedEFI". -/
def biosBootGuid : Guid :=
  ⟨#[72, 97, 104, 33, 73, 100, 111, 110, 116, 78, 101, 101, 100, 69, 70, 73], rfl⟩

inductive Scheme
  | gpt
  | mbr
  deriving DecidableEq, Repr

/-- A partition's type as the table stores it. -/
inductive TypeCode
  | gpt (g : Guid)
  | mbr (b : UInt8)
  deriving DecidableEq, Repr

/-- The two combinations of scheme and type that `add` and `modify` refuse. -/
def wrongScheme : Scheme → TypeCode → Bool
  | .gpt, .mbr _ => true
  | .mbr, .gpt _ => true
  | _, _ => false

inductive Error
  | diskTooSmall
  | tableFull
  | noSpace
  | overlap
  | noSuchPartition
  | wrongScheme
  | badLabel
  | tooBigForMbr
  | badSize
  | bootCode
  deriving DecidableEq, Repr

/-- How a call ends otherwise than with its result: a panic, or a refusal. -/
inductive Fail
  | overflow
  | refused (e : Error)
  deriving DecidableEq, Repr

abbrev Res : Type → Type := Except Fail

/-! ## Checked arithmetic -/

def addU64 (a b : ℕ) : Res ℕ := if a + b < 2 ^ 64 then .ok (a + b) else .error .overflow

def subU64 (a b : ℕ) : Res ℕ := if b ≤ a then .ok (a - b) else .error .overflow

def mulU64 (a b : ℕ) : Res ℕ := if a * b < 2 ^ 64 then .ok (a * b) else .error .overflow

/-- `u64::div_ceil`. -/
def divCeil (a b : ℕ) : ℕ := (a + b - 1) / b

/-! ## Tables -/

/-- One partition. -/
structure Entry where
  /-- Its number from 1: its GPT slot, or its MBR entry. -/
  index : ℕ
  code : TypeCode
  first : ℕ
  sectors : ℕ
  label : List Char
  guid : Guid
  attributes : ℕ
  active : Bool
  deriving DecidableEq, Repr

/-- The sector after its last (`end`). -/
def Entry.past (e : Entry) : Res ℕ := addU64 e.first e.sectors

structure Table where
  scheme : Scheme
  sectorSize : ℕ
  diskSectors : ℕ
  diskGuid : Guid
  firstUsable : ℕ
  lastUsable : ℕ
  /-- By index. -/
  entries : List Entry
  slots : ℕ
  /-- Sector 0's first 446 bytes. -/
  boot : Vector UInt8 446
  fromBackup : Bool
  deriving DecidableEq, Repr

def alignBytes : ℕ := 2 ^ 20
def blockBytes : ℕ := 4096
def gptEntries : ℕ := 128
def gptEntrySize : ℕ := 128
def gptLabelUnits : ℕ := 36

/-- How many sectors a GPT's entries take. -/
def gptEntrySectors (sectorSize count size : ℕ) : ℕ := divCeil (count * size) sectorSize

namespace Table

/-- An empty table for a disk. -/
def new (scheme : Scheme) (sectorSize diskSectors : ℕ) (diskGuid : Guid) : Res Table :=
  let entries := gptEntrySectors sectorSize gptEntries gptEntrySize
  let make (firstUsable lastUsable slots : ℕ) : Res Table :=
    if firstUsable > lastUsable then .error (.refused .diskTooSmall)
    else .ok {
      scheme, sectorSize, diskSectors, diskGuid, firstUsable, lastUsable, slots
      entries := [], boot := Vector.replicate 446 0, fromBackup := false }
  match scheme with
  | .gpt =>
    -- `div_ceil` panics on a sector size of zero.
    if sectorSize = 0 then .error .overflow
    else if diskSectors < 2 + entries then .error (.refused .diskTooSmall)
    else make (2 + entries) (diskSectors - (2 + entries)) gptEntries
  | .mbr =>
    if min diskSectors (2 ^ 32) < 1 then .error (.refused .diskTooSmall)
    else make 1 (min diskSectors (2 ^ 32) - 1) 4

def align (t : Table) : ℕ := max (alignBytes / t.sectorSize) 1

def block (t : Table) : ℕ := max (blockBytes / t.sectorSize) 1

def entry (t : Table) (index : ℕ) : Option Entry := t.entries.find? fun e ↦ e.index = index

/-! ## Free space -/

/-- The extents of the entries, `(first, end)`. -/
def extents : List Entry → Res (List (ℕ × ℕ))
  | [] => .ok []
  | e :: es => do
    let past ← e.past
    let rest ← extents es
    pure ((e.first, past) :: rest)

/-- The order of pairs. -/
def pairLe (p q : ℕ × ℕ) : Bool := p.1 < q.1 || (p.1 = q.1 && p.2 ≤ q.2)

/-- The loop of `free`, from the sector `pos` on. -/
def freeLoop (lastUsable : ℕ) : List (ℕ × ℕ) → ℕ → Res (List (ℕ × ℕ))
  | [], pos =>
    if pos ≤ lastUsable then do
      let past ← addU64 lastUsable 1
      pure [(pos, past - pos)]
    else .ok []
  | (first, past) :: used, pos => do
    let rest ← freeLoop lastUsable used (max pos past)
    pure (if first > pos then (pos, first - pos) :: rest else rest)

/-- The usable sectors no partition has, as `(first, sectors)`, in order. -/
def free (t : Table) : Res (List (ℕ × ℕ)) := do
  let used ← extents t.entries
  freeLoop t.lastUsable (used.mergeSort pairLe) t.firstUsable

/-- No entry but `except`'s touches `[first, past)`. -/
def clearOf (first past except : ℕ) : List Entry → Res Bool
  | [] => .ok true
  | e :: es =>
    if e.index = except ∨ past ≤ e.first then clearOf first past except es
    else do
      let ePast ← e.past
      if ePast ≤ first then clearOf first past except es else pure false

/-- Whether `[first, first + sectors)` is usable and touches no partition but `except`'s. -/
def fits (t : Table) (first sectors except : ℕ) : Res Bool :=
  if ¬(first + sectors < 2 ^ 64) ∨ first < t.firstUsable then .ok false
  else do
    let usable ← addU64 t.lastUsable 1
    if first + sectors ≤ usable then clearOf first (first + sectors) except t.entries
    else pure false

/-- What `check_mbr_range` refuses. -/
def pastMbr (t : Table) (first sectors : ℕ) : Bool :=
  t.scheme = .mbr && (first > 2 ^ 32 - 1 || sectors > 2 ^ 32 - 1)

/-- What `check_label` lets pass. -/
def labelOk (t : Table) (label : List Char) : Bool :=
  match t.scheme with
  | .mbr => label.isEmpty
  | .gpt => (Utf16.encode label).length ≤ gptLabelUnits && !label.any fun c ↦ c = '\x00' || c = '/'

/-! ## Adding -/

/-- The free extent that `first` lies in. -/
def extentOf (first : ℕ) : List (ℕ × ℕ) → Res (Option (ℕ × ℕ))
  | [] => .ok none
  | (pos, n) :: rest =>
    if first < pos then extentOf first rest
    else do
      let past ← addU64 pos n
      if first < past then pure (some (pos, n)) else extentOf first rest

/-- The loop of `place`: the first extent with room at an alignment boundary. -/
def placeLoop (align block : ℕ) (want : Option ℕ) : List (ℕ × ℕ) → Res (ℕ × ℕ)
  | [] => .error (.refused .noSpace)
  | (pos, n) :: rest => do
    let start ← mulU64 (divCeil pos align) align
    let past ← addU64 pos n
    if start ≥ past then placeLoop align block want rest
    else
      let room := (past - start) / block * block
      match want with
      | some len => if len ≤ room then .ok (start, len) else placeLoop align block want rest
      | none => if room > 0 then .ok (start, room) else placeLoop align block want rest

/-- The extent `place` gives in the free extent `(pos, n)` for a partition starting at `first`. -/
def placeIn (block first : ℕ) (want : Option ℕ) (pos n : ℕ) : Res (ℕ × ℕ) := do
  let past ← addU64 pos n
  let room := (past - first) / block * block
  let len := want.getD room
  if len = 0 ∨ len > room then .error (.refused .noSpace) else .ok (first, len)

/-- Where a new partition goes. -/
def place (t : Table) (first want : Option ℕ) : Res (ℕ × ℕ) := do
  let extents ← t.free
  match first with
  | some first =>
    match ← extentOf first extents with
    | none => .error (.refused .noSpace)
    | some (pos, n) => placeIn t.block first want pos n
  | none => placeLoop t.align t.block want extents

/-- The length asked for in whole blocks; `none` if it is none. -/
def wanted (t : Table) : Option ℕ → Option (Option ℕ)
  | none => some none
  | some n => if n / t.block * t.block > 0 then some (some (n / t.block * t.block)) else none

/-- The lowest unused number. -/
def unused (t : Table) : Option ℕ :=
  (List.range t.slots).map (· + 1) |>.find? fun i ↦ (t.entry i).isNone

/-- `push` and `sort_by_key`. -/
def insert (t : Table) (e : Entry) : Table :=
  { t with entries := (t.entries ++ [e]).mergeSort fun a b ↦ a.index ≤ b.index }

/-- Adds a partition; its number. -/
def add (t : Table) (code : TypeCode) (label : List Char) (first sectors : Option ℕ) (guid : Guid) :
    Res (Table × ℕ) :=
  if wrongScheme t.scheme code then .error (.refused .wrongScheme)
  else if ¬t.labelOk label then .error (.refused .badLabel)
  else match t.unused with
    | none => .error (.refused .tableFull)
    | some index => match t.wanted sectors with
      | none => .error (.refused .badSize)
      | some want => do
        let (start, len) ← t.place first want
        if t.pastMbr start len then .error (.refused .tooBigForMbr)
        else
          let e : Entry := {
            index, code, first := start, sectors := len, label, guid
            attributes := 0, active := false }
          .ok (t.insert e, index)

/-! ## The other changes -/

/-- Removes a partition; what it was. -/
def delete (t : Table) (index : ℕ) : Res (Table × Entry) :=
  match t.entry index with
  | none => .error (.refused .noSuchPartition)
  | some e => .ok ({ t with entries := t.entries.eraseP fun e ↦ e.index = index }, e)

/-- Changes the first entry with this number. -/
def update (index : ℕ) (f : Entry → Entry) : List Entry → List Entry
  | [] => []
  | e :: es => if e.index = index then f e :: es else e :: update index f es

/-- The starts of the other partitions after `e`. -/
def startsAfter (e : Entry) : List Entry → Res (List ℕ)
  | [] => .ok []
  | o :: os =>
    if o.index = e.index then startsAfter e os
    else do
      let past ← e.past
      let rest ← startsAfter e os
      pure (if o.first ≥ past then o.first :: rest else rest)

/-- The length `resize` is asked for. -/
def resizeLen (block : ℕ) (e : Entry) (limit : ℕ) : Option ℕ → Res ℕ
  | some n => .ok (n / block * block)
  | none => do
    let room ← subU64 limit e.first
    pure (room / block * block)

/-- Makes a partition `sectors` long, or as long as the free space after it allows. -/
def resize (t : Table) (index : ℕ) (sectors : Option ℕ) : Res Table :=
  match t.entry index with
  | none => .error (.refused .noSuchPartition)
  | some e => do
    let starts ← startsAfter e t.entries
    let usable ← addU64 t.lastUsable 1
    let len ← resizeLen t.block e (starts.min?.getD usable) sectors
    if len = 0 then .error (.refused .badSize)
    else
      let ok ← t.fits e.first len index
      if !ok then .error (.refused .overlap)
      else if t.pastMbr e.first len then .error (.refused .tooBigForMbr)
      else .ok { t with entries := update index (fun e ↦ { e with sectors := len }) t.entries }

/-- Changes a partition's type and name. -/
def modify (t : Table) (index : ℕ) (code : Option TypeCode) (label : Option (List Char)) :
    Res Table :=
  if code.any (wrongScheme t.scheme) then .error (.refused .wrongScheme)
  else if label.any fun l ↦ !t.labelOk l then .error (.refused .badLabel)
  else if (t.entry index).isNone then .error (.refused .noSuchPartition)
  else
    let change (e : Entry) : Entry :=
      { e with code := code.getD e.code, label := label.getD e.label }
    .ok { t with entries := update index change t.entries }

/-- The boot flag of `e` when partition `index`'s is set to `active`. -/
def flagOf (index : ℕ) (active : Bool) (e : Entry) : Bool :=
  if e.index = index then active else if active then false else e.active

/-- Sets or clears an MBR partition's boot flag; setting it clears the others'. -/
def setActive (t : Table) (index : ℕ) (active : Bool) : Res Table :=
  if t.scheme ≠ .mbr then .error (.refused .wrongScheme)
  else if (t.entry index).isNone then .error (.refused .noSuchPartition)
  else .ok { t with entries := t.entries.map fun e ↦ { e with active := flagOf index active e } }

/-! ## Boot code -/

/-- The first entry that starts lowest (`min_by_key`). -/
def lowest : List Entry → Option Entry
  | [] => none
  | e :: es => match lowest es with
    | none => some e
    | some e' => if e.first ≤ e'.first then some e else some e'

/-- Where stage 2 goes and how many bytes there are for it.  `Kind::of` gives `BiosBoot` for this
GUID only. -/
def stage2Place (t : Table) (bios : Option ℕ) : Res (ℕ × ℕ) :=
  match t.scheme with
  | .gpt =>
    match t.entries.find? fun e ↦ e.code = .gpt biosBootGuid && bios.all (e.index = ·) with
    | none => .error (.refused .bootCode)
    | some e => do
      let loc ← mulU64 e.first 512
      let room ← mulU64 e.sectors 512
      pure (loc, room)
  | .mbr =>
    let first := ((t.entries.map Entry.first).min?).getD (2 ^ 64 - 1)
    .ok (4096, min (63 * 512) (min (first * 512) (2 ^ 64 - 1)) - 4096)

/-- The boot sector's code: the disk's timestamp and signature stay, stage 2's place at `0x1a4`. -/
def bootWith (boot : Vector UInt8 446) (code : List UInt8) (loc : ℕ) : Vector UInt8 446 :=
  Vector.ofFn fun i ↦
    if 420 ≤ i.val ∧ i.val < 428 then UInt8.ofNat (loc / 256 ^ (i.val - 420))
    else if i.val < 218 ∨ 224 ≤ i.val ∧ i.val < 440 then code.getD i.val 0
    else boot.get i

/-- Takes BIOS boot code: the new table, and stage 2 as the sector and the bytes to write. -/
def setBiosBootcodeIn (t : Table) (code : List UInt8) (bios : Option ℕ) :
    Res (Table × ℕ × List UInt8) :=
  if t.sectorSize ≠ 512 ∨ code.length ≤ 512 then .error (.refused .bootCode)
  else do
    let stage2 := code.drop 512
    let (loc, room) ← t.stage2Place bios
    if stage2.length > room then .error (.refused .bootCode)
    else
      let t := { t with boot := bootWith t.boot code loc }
      let t ← if t.scheme = .mbr && !t.entries.any Entry.active then
          match lowest t.entries with
          | none => .ok t
          | some e => t.setActive e.index true
        else .ok t
      let pad := divCeil stage2.length 512 * 512 - stage2.length
      pure (t, loc / 512, stage2 ++ List.replicate pad 0)

end Table

/-! ## Runs of calls -/

/-- A call that changes a table. -/
inductive Call
  | add (code : TypeCode) (label : List Char) (first sectors : Option ℕ) (guid : Guid)
  | delete (index : ℕ)
  | resize (index : ℕ) (sectors : Option ℕ)
  | modify (index : ℕ) (code : Option TypeCode) (label : Option (List Char))
  | setActive (index : ℕ) (active : Bool)
  | setBiosBootcode (code : List UInt8) (bios : Option ℕ)

/-- The table after a successful call. -/
def step (t : Table) : Call → Option Table
  | .add code label first sectors guid => (t.add code label first sectors guid).toOption.map (·.1)
  | .delete index => (t.delete index).toOption.map (·.1)
  | .resize index sectors => (t.resize index sectors).toOption
  | .modify index code label => (t.modify index code label).toOption
  | .setActive index active => (t.setActive index active).toOption
  | .setBiosBootcode code bios => (t.setBiosBootcodeIn code bios).toOption.map (·.1)

end OxideBSD.Part
