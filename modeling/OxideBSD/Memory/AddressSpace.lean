import OxideBSD.Lib.Machine
import OxideBSD.Lib.References

/-!
# Address spaces

The user pages of every address space, as `sys/memory/address_space.rs`, `sys/memory/refs.rs` and
the page-table half of `sys/process/mm.rs` keep them: fork shares private pages copy-on-write and
counts the sharers of a frame, a fault copies or takes the page over, and the removal paths drop
the count.

* `Leaf` and `Entry` are a level-1 page-table entry with the bits that decide who owns its frame.
  The tables of all address spaces are one finite table keyed by address space and page number.
* `releaseFrame`, `dropEntry`, `copyEntry`, `copyTable`, `unshare`, `fork`, `teardown`,
  `tryResolveCow`, `munmap`, `mprotect`, `shmdt` and the mapping functions are the source's.
* `step` runs one call of any process, or what another part of the kernel does with frames.

The table levels above the leaves are left out: a walk visits the pages in the order of their
addresses, and may run out of frames for a table before any of them.
-/

set_option autoImplicit false

namespace OxideBSD.AddressSpace

open Function

abbrev Frame := Nat

/-- An address space and the number of a page of it. -/
abbrev Key := Nat × Nat

/-- `FAULT_SCRATCH_VA`, as a page number. -/
def faultScratch : Nat := 0x1FFFFFFFE

/-- `FAULT_TRAMPOLINE_VA`, as a page number. -/
def faultTrampoline : Nat := 0x1FFFFFFFF

/-- A user leaf.  `protNone` is `PROT_NONE_LEAF` on an entry that is not present. -/
structure Leaf where
  frame : Frame
  protNone : Bool := false
  writable : Bool := false
  /-- `COW_LEAF` -/
  cow : Bool := false
  /-- `SHARED_LEAF` -/
  shared : Bool := false
  /-- `CACHED_LEAF` -/
  cached : Bool := false
  /-- `MAY_WRITE_LEAF` -/
  mayWrite : Bool := false
deriving DecidableEq

/-- An entry in use: a page, or a `FILE_LEAF` for a page of a page cache entry. -/
inductive Entry where
  | leaf (l : Leaf)
  | file (id page : Nat)
deriving DecidableEq

/-- The entry is a private page in the frame `f`. -/
def Entry.maps (f : Frame) : Entry → Bool
  | .leaf l => !l.shared && l.frame == f
  | .file _ _ => false

abbrev Tables := AList fun _ : Key ↦ Entry

structure St where
  tables : Tables
  /-- How many handles (`Arc`s) of each address space there are. -/
  handles : Nat → Nat
  refs : Frame → Nat
  free : List Frame
  /-- Frames that other parts of the kernel own. -/
  held : List Frame
  /-- Frames of the page cache. -/
  cache : List Frame
  /-- Frames allocated for a page that could not be mapped, which nobody gives back. -/
  lost : List Frame
  /-- What each frame holds. -/
  mem : Frame → Nat

/-- The allocator has the frames below `n` and nothing is mapped. -/
def boot (n : Nat) : St :=
  ⟨∅, fun _ ↦ 0, fun _ ↦ 0, List.range n, [], [], [], fun _ ↦ 0⟩

/-! ## Frames -/

/-- `allocate_frame`, which gives the frame `got` if it is free. -/
def allocate (s : St) (got : Option Frame) : Option (Frame × St) :=
  match got with
  | some f => if f ∈ s.free then some (f, { s with free := s.free.erase f }) else none
  | none => none

def share (refs : Frame → Nat) (f : Frame) : Option (Frame → Nat) :=
  if refs f + 1 < 65535 then some (update refs f (refs f + 1)) else none

/-- `refs::release`: the counts after it, and whether it was the last mapping. -/
def release (refs : Frame → Nat) (f : Frame) : (Frame → Nat) × Bool :=
  if refs f = 0 then (refs, true) else (update refs f (refs f - 1), false)

def soleOwner (refs : Frame → Nat) (f : Frame) : Bool := refs f == 0

/-- `if refs::release(frame) { deallocate_frame(frame) }` -/
def releaseFrame (s : St) (f : Frame) : St :=
  match release s.refs f with
  | (refs, true) => { s with refs := refs, free := f :: s.free }
  | (refs, false) => { s with refs := refs }

/-! ## Teardown and unmapping -/

/-- One leaf of `free_table_level`, and one page of `do_munmap`'s loop. -/
def dropEntry (s : St) (k : Key) : St :=
  match s.tables.lookup k with
  | some (.leaf l) =>
    let s' := { s with tables := s.tables.erase k }
    if l.shared then s' else releaseFrame s' l.frame
  | some (.file _ _) => { s with tables := s.tables.erase k }
  | none => s

/-- The pages of `sp` in use, in the order a walk of its tables meets them. -/
def pagesOf (s : St) (sp : Nat) : List Nat :=
  ((s.tables.keys.filter fun k ↦ k.1 = sp).map Prod.snd).insertionSort (· ≤ ·)

def freeTable (s : St) (sp : Nat) : St :=
  (pagesOf s sp).foldl (fun s va ↦ dropEntry s (sp, va)) s

/-- `AddressSpace::teardown` of one handle: the last one frees the table. -/
def teardown (s : St) (sp : Nat) : St :=
  if 1 < s.handles sp then { s with handles := update s.handles sp (s.handles sp - 1) }
  else { freeTable s sp with handles := update s.handles sp 0 }

/-- The pages the kernel keeps in every map: no call changes their mappings. -/
def kernelPage (va : Nat) : Bool := va == faultScratch || va == faultTrampoline

/-- `do_munmap` -/
def munmap (s : St) (sp : Nat) (vas : List Nat) : St :=
  if vas.any kernelPage then s else vas.foldl (fun s va ↦ dropEntry s (sp, va)) s

/-- One page of `do_shmdt`: a present leaf goes, whoever owns its frame. -/
def shmdtPage (s : St) (k : Key) : St :=
  match s.tables.lookup k with
  | some (.leaf l) => if l.protNone then s else { s with tables := s.tables.erase k }
  | _ => s

def shmdt (s : St) (sp : Nat) (vas : List Nat) : St :=
  vas.foldl (fun s va ↦ shmdtPage s (sp, va)) s

/-! ## Fork -/

/-- `cow_flags` -/
def Leaf.cowFlags (l : Leaf) : Leaf :=
  if l.writable then { l with writable := false, cow := true } else l

/-- One entry of `copy_table_level` at level 1; `none` when the frame has too many sharers. -/
def copyEntry (s : St) (parent child va : Nat) : Option St :=
  match s.tables.lookup (parent, va) with
  | some (.leaf l) =>
    if l.shared then some { s with tables := s.tables.insert (child, va) (.leaf l) }
    else (share s.refs l.frame).map fun refs ↦ { s with
      refs := refs
      tables := (s.tables.insert (parent, va) (.leaf l.cowFlags)).insert (child, va)
        (.leaf l.cowFlags) }
  | some (.file id page) => some { s with tables := s.tables.insert (child, va) (.file id page) }
  | none => some s

/-- `copy_table_level` over the pages left, with frames for `room` more steps.  A failure leaves
what is built. -/
def copyTable (parent child : Nat) : St → List Nat → Nat → St × Bool
  | s, _, 0 => (s, false)
  | s, [], _ + 1 => (s, true)
  | s, va :: vas, room + 1 =>
    match copyEntry s parent child va with
    | some s' => copyTable parent child s' vas room
    | none => (s, false)

/-- `AddressSpace::unshare` of the scratch page; `none` when there is no frame for the copy. -/
def unshare (s : St) (parent child : Nat) (got : Option Frame) : Option St :=
  match s.tables.lookup (parent, faultScratch) with
  | some (.leaf l) =>
    if l.protNone || !l.cow then some s
    else (allocate s got).map fun (copy, s) ↦
      let own := { l with cow := false, writable := true }
      { s with
        mem := update s.mem copy (s.mem l.frame)
        tables := (s.tables.insert (child, faultScratch) (.leaf { own with frame := copy })).insert
          (parent, faultScratch) (.leaf own)
        refs := (release s.refs l.frame).1 }
  | _ => some s

/-- `AddressSpace::fork`: a copy that fails halfway is undone. -/
def fork (s : St) (parent child room : Nat) (got : Option Frame) : St :=
  match copyTable parent child s (pagesOf s parent) room with
  | (s', false) => freeTable s' child
  | (s', true) =>
    match unshare s' parent child got with
    | some s'' => { s'' with handles := update s''.handles child 1 }
    | none => freeTable s' child

/-! ## Faults -/

/-- `try_resolve_cow` -/
def tryResolveCow (s : St) (k : Key) (got : Option Frame) : St :=
  match s.tables.lookup k with
  | some (.leaf l) =>
    if l.protNone || !l.cow then s
    else
      let own := { l with cow := false, writable := true }
      if soleOwner s.refs l.frame then { s with tables := s.tables.insert k (.leaf own) }
      else
        match allocate s got with
        | none => s
        | some (new, s) => releaseFrame { s with
            mem := update s.mem new (s.mem l.frame)
            tables := s.tables.insert k (.leaf { own with frame := new }) } l.frame
  | _ => s

/-- `map_to` of a frame just allocated that holds `d`.  Without frames for the tables, or on a slot
in use, the mapping fails and the frame is lost. -/
def mapFresh (s : St) (k : Key) (writable : Bool) (got : Option Frame) (tables : Bool) (d : Nat) :
    St × Bool :=
  match allocate s got with
  | none => (s, false)
  | some (f, s) =>
    if tables && (s.tables.lookup k).isNone then
      ({ s with
        mem := update s.mem f d
        tables := s.tables.insert k (.leaf { frame := f, writable := writable }) }, true)
    else ({ s with lost := f :: s.lost }, false)

/-- `try_fill_anon` and `try_grow_user_stack` -/
def touch (s : St) (k : Key) (writable : Bool) (got : Option Frame) (tables : Bool) : St :=
  if (s.tables.lookup k).isSome then s else (mapFresh s k writable got tables 0).1

/-- The end of `try_fill_file_page`: the cache gave the frame `f`.  Only the entry as it was when
the fill began is replaced. -/
def fillFile (s : St) (k : Key) (id page : Nat) (f : Frame) : St :=
  if s.tables.lookup k = some (.file id page) then
    { s with tables := s.tables.insert k (.leaf { frame := f, shared := true, cached := true }) }
  else s

/-! ## Mapping -/

/-- Where a new mapping's page comes from. -/
inductive Backing where
  /-- a frame of its own that holds `d` -/
  | own (got : Option Frame) (d : Nat)
  /-- a frame of a shared memory segment or of a file mapped `MAP_SHARED` -/
  | shared (f : Frame) (mayWrite : Bool)
  /-- a frame of the page cache, mapped read-only -/
  | cached (f : Frame)

/-- One page of a new mapping: `map_to` fails on a slot in use, or without frames for tables. -/
def mapPage (s : St) (k : Key) (writable tables : Bool) : Backing → St × Bool
  | .own got d => mapFresh s k writable got tables d
  | .shared f mayWrite =>
    if tables && (s.tables.lookup k).isNone then
      let l : Leaf := { frame := f, writable := writable, shared := true, mayWrite := mayWrite }
      ({ s with tables := s.tables.insert k (.leaf l) }, true)
    else (s, false)
  | .cached f =>
    if tables && (s.tables.lookup k).isNone then
      let l : Leaf := { frame := f, shared := true, cached := true }
      ({ s with tables := s.tables.insert k (.leaf l) }, true)
    else (s, false)

/-- The mapping loops of `do_mmap_file_backed`, `do_shmat` and the program loader: a failure leaves
the pages mapped so far. -/
def mapPages (sp : Nat) (writable : Bool) : St → List (Nat × Bool × Backing) → St × Bool
  | s, [] => (s, true)
  | s, (va, tables, b) :: pages =>
    match mapPage s (sp, va) writable tables b with
    | (s', true) => mapPages sp writable s' pages
    | (s', false) => (s', false)

/-- `do_mmap_anon` of pages made at once (`eager`): a failure unmaps the range. -/
def mmapAnon (s : St) (sp : Nat) (writable : Bool) (pages : List (Nat × Bool × Option Frame)) :
    St :=
  if pages.any fun p ↦ kernelPage p.1 then s
  else
    match mapPages sp writable s (pages.map fun p ↦ (p.1, p.2.1, Backing.own p.2.2 0)) with
    | (s', true) => s'
    | (s', false) => munmap s' sp (pages.map Prod.fst)

/-- `set_file_entry` on the pages of a mapping filled on demand. -/
def mapFile (s : St) (sp : Nat) (pages : List (Nat × Nat × Nat)) : St :=
  pages.foldl (fun s p ↦ { s with tables := s.tables.insert (sp, p.1) (.file p.2.1 p.2.2) }) s

/-! ## Protection -/

/-- The check `do_mprotect` makes of a page before it changes anything. -/
def mprotectRefuses (s : St) (writable : Bool) (k : Key) : Bool :=
  match s.tables.lookup k with
  | some (.leaf l) => writable && (l.shared && !l.cached) && !l.mayWrite
  | some (.file _ _) => true
  | none => false

/-- One page of `do_mprotect`; `false` without a frame for a page cache page's copy. -/
def mprotectPage (s : St) (k : Key) (accessible writable : Bool) (got : Option Frame) : St × Bool :=
  match s.tables.lookup k with
  | some (.leaf l) =>
    if !accessible then ({ s with tables := s.tables.insert k (.leaf { l with protNone := true }) },
      true)
    else
      let l := { l with protNone := false }
      if writable && l.cached then
        match allocate s got with
        | none => ({ s with tables := s.tables.insert k (.leaf l) }, false)
        | some (copy, s) => ({ s with
            mem := update s.mem copy (s.mem l.frame)
            tables := s.tables.insert k (.leaf { l with
              frame := copy, writable := true, shared := false, cached := false }) }, true)
      else if l.shared then
        ({ s with tables := s.tables.insert k (.leaf { l with writable := writable }) }, true)
      else
        let sole := soleOwner s.refs l.frame
        ({ s with tables := s.tables.insert k (.leaf { l with
          writable := writable && sole, cow := writable && !sole }) }, true)
  | _ => (s, true)

def mprotectLoop (sp : Nat) (accessible writable : Bool) : St → List (Nat × Option Frame) → St
  | s, [] => s
  | s, (va, got) :: pages =>
    match mprotectPage s (sp, va) accessible writable got with
    | (s', true) => mprotectLoop sp accessible writable s' pages
    | (s', false) => s'

/-- `do_mprotect` of a range its map lets it change. -/
def mprotect (s : St) (sp : Nat) (accessible writable : Bool) (pages : List (Nat × Option Frame)) :
    St :=
  if pages.any fun p ↦ kernelPage p.1 || mprotectRefuses s writable (sp, p.1) then s
  else mprotectLoop sp accessible writable s pages

/-! ## The machine -/

inductive Event where
  /-- `AddressSpace::new_excluding_user`: an address space for an exec or a new process -/
  | new (sp : Nat)
  /-- another handle of `sp`, for a thread or a vfork child -/
  | share (sp : Nat)
  /-- a handle goes: exit, or exec's old address space -/
  | teardown (sp : Nat)
  | fork (parent child room : Nat) (got : Option Frame)
  | cow (k : Key) (got : Option Frame)
  | touch (k : Key) (writable : Bool) (got : Option Frame) (tables : Bool)
  | fillFile (k : Key) (id page : Nat) (f : Frame)
  | mmapAnon (sp : Nat) (shared writable : Bool) (pages : List (Nat × Bool × Option Frame))
  | mapPages (sp : Nat) (writable : Bool) (pages : List (Nat × Bool × Backing))
  | mapFile (sp : Nat) (pages : List (Nat × Nat × Nat))
  | munmap (sp : Nat) (vas : List Nat)
  | mprotect (sp : Nat) (accessible writable : Bool) (pages : List (Nat × Option Frame))
  | shmdt (sp : Nat) (vas : List Nat)
  /-- the process stores through the page, which then holds `d` -/
  | store (k : Key) (d : Nat)
  /-- another part of the kernel, or the page cache, takes a frame and fills it with `d` -/
  | take (f : Frame) (cache : Bool) (d : Nat)
  /-- and gives it back -/
  | give (f : Frame)

/-- The frame a mapping is made of is its owner's. -/
def Backing.owned (s : St) : Backing → Bool
  | .own _ _ => true
  | .shared f _ => f ∈ s.held
  | .cached f => f ∈ s.cache

/-- A store through a present, writable leaf; any other one faults. -/
def store (s : St) (k : Key) (d : Nat) : St :=
  match s.tables.lookup k with
  | some (.leaf l) =>
    if l.writable && !l.protNone then { s with mem := update s.mem l.frame d } else s
  | _ => s

/-- What the calls do that can always be made in an address space that exists. -/
def act (s : St) : Event → St
  | .share sp => { s with handles := update s.handles sp (s.handles sp + 1) }
  | .teardown sp => teardown s sp
  | .cow k got => tryResolveCow s k got
  | .touch k writable got tables => touch s k writable got tables
  | .mmapAnon sp _ writable pages => mmapAnon s sp writable pages
  | .mapFile sp pages => mapFile s sp pages
  | .munmap sp vas => munmap s sp vas
  | .mprotect sp accessible writable pages => mprotect s sp accessible writable pages
  | .shmdt sp vas => shmdt s sp vas
  | .store k d => store s k d
  | _ => s

/-- The address space the event is in. -/
def Event.space : Event → Nat
  | .new sp | .share sp | .teardown sp | .fork sp _ _ _ | .mmapAnon sp _ _ _ | .mapPages sp _ _
  | .mapFile sp _ | .munmap sp _ | .mprotect sp _ _ _ | .shmdt sp _ => sp
  | .cow k _ | .touch k _ _ _ | .fillFile k _ _ _ | .store k _ => k.1
  | .take _ _ _ | .give _ => 0

/-- `sp` is not an address space: its level-4 table is a new, zeroed one. -/
def unused (s : St) (sp : Nat) : Bool := s.handles sp == 0 && (pagesOf s sp).isEmpty

def step (s : St) : Event → Option St
  | .new sp => if unused s sp then some { s with handles := update s.handles sp 1 } else none
  | .fork parent child room got =>
    if s.handles parent ≠ 0 ∧ unused s child then some (fork s parent child room got) else none
  | .take f cache d =>
    (allocate s (some f)).map fun (f, s) ↦
      let s := { s with mem := update s.mem f d }
      if cache then { s with cache := f :: s.cache } else { s with held := f :: s.held }
  | .give f =>
    if f ∈ s.held then some { s with held := s.held.erase f, free := f :: s.free }
    else if f ∈ s.cache then some { s with cache := s.cache.erase f, free := f :: s.free }
    else none
  | .mapPages sp writable pages =>
    if s.handles sp ≠ 0 ∧ pages.all (fun p ↦ p.2.2.owned s) then
      some (mapPages sp writable s pages).1
    else none
  | .fillFile k id page f =>
    if s.handles k.1 ≠ 0 ∧ f ∈ s.cache then some (fillFile s k id page f) else none
  | e => if s.handles e.space ≠ 0 then some (act s e) else none

end OxideBSD.AddressSpace
