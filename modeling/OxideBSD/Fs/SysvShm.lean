import OxideBSD.Fs.SysvIpc
import OxideBSD.Lib.Machine

/-!
# System V shared memory

`sys/fs/sysv_shm.rs`: `shmget`, `shmat`, `shmdt`, `shmctl`, and what `fork`, `execve` and `exit` do to
attachments.  No call sleeps, so each is one event.  An address space is a map from page numbers to
what is mapped there and the list of its attachments, newest first; processes are single threads, and
a `vfork` child shares its parent's address space.

* `shmget`, `attach`, `shmdt`, `rmid`, `detach`, `bump` are the code; `St.step` is the machine.
* `Counted n` says that a table of segments agrees with the numbers `n` of attachments; each function
  on the table has a rule that says what it does to `n`.
* `Sound` is what the accounting is for, and `Proper` the condition under which it works: no `shmat`
  runs out of memory for page tables, nothing is mapped over what is still attached, and no removed
  segment goes, or is removed again, after its key was given to another.
* `run_accounting`: `Sound` holds in every state of a run that meets `Proper`.
* `reused_key_unbound`: it does not without.
-/

set_option autoImplicit false

namespace OxideBSD.Shm

open Function Ipc List Option

abbrev Pid := Nat
abbrev Space := Nat

def shmRdonly : Nat := 0o10000
def shmRnd : Nat := 0o20000
def maxShmSegmentSize : Nat := 4 * 1024 * 1024
def maxSysvShmSegments : Nat := 32
def vmMinuser : Nat := 0x1000
def vmMaxuser : Nat := 0x800000000000

/-! ## Segments -/

/-- `frames` is how many there are. -/
structure ShmSegment where
  perm : Perm
  size : Nat
  frames : Nat
  nattch : Nat
  markedForRemoval : Bool
  deriving DecidableEq, Repr

/-- `do_shmget`; `room` if there are frames for a new segment. -/
def shmget (t : Ids ShmSegment) (c : Cred) (key : Int) (size shmflg : Nat) (room : Bool) :
    Option (Except Errno Int × Ids ShmSegment) :=
  match if key ≠ ipcPrivate then t.keys key else none with
  | some id => (t.found ShmSegment.perm (fun s ↦ s.size < size) c shmflg id).map fun r ↦ (r, t)
  | none =>
    if key ≠ ipcPrivate ∧ shmflg &&& ipcCreat = 0 then some (.error .ENOENT, t)
    else if size = 0 ∨ maxShmSegmentSize < size then some (.error .EINVAL, t)
    else if maxSysvShmSegments ≤ t.len then some (.error .EAGAIN, t)
    else if !room then some (.error .ENOMEM, t)
    else t.create key
      ⟨⟨key, c.uid, c.gid, c.uid, c.gid, shmflg % 0o1000⟩, size, (size + 4095) / 4096, 0, false⟩

/-- One more attachment. -/
def bump (t : Ids ShmSegment) (id : Int) : Ids ShmSegment :=
  match t.objs id with
  | none => t
  | some seg => t.put id { seg with nattch := seg.nattch + 1 }

/-- One attachment less: the last one of a removed segment takes it along, and its key. -/
def detach (t : Ids ShmSegment) (id : Int) : Ids ShmSegment :=
  match t.objs id with
  | none => t
  | some seg =>
    if seg.markedForRemoval ∧ seg.nattch - 1 = 0 then t.remove id seg.perm.key
    else t.put id { seg with nattch := seg.nattch - 1 }

/-- `IPC_RMID` of `do_shmctl`. -/
def rmid (t : Ids ShmSegment) (c : Cred) (id : Int) : Except Errno Unit × Ids ShmSegment :=
  match t.objs id with
  | none => (.error .EIDRM, t)
  | some seg =>
    if !isOwnerOrCreator seg.perm c then (.error .EACCES, t)
    else if seg.nattch = 0 then (.ok (), t.remove id seg.perm.key)
    else (.ok (), { t.put id { seg with markedForRemoval := true } with
      keys := if seg.perm.key ≠ ipcPrivate then update t.keys seg.perm.key none else t.keys })

/-! ## Address spaces -/

/-- `VmKind`, as far as it matters here. -/
inductive VmKind
  | shm (shmid : Int)
  | kernel
  | other
  deriving DecidableEq, Repr

structure VmState where
  map : Nat → Option VmKind
  shmAttach : List (Nat × Int)

namespace VmState

variable (v : VmState)

/-- `!overlaps` -/
def free (page n : Nat) : Bool := decide (∀ i < n, v.map (page + i) = none)

def insert (page n : Nat) (kind : VmKind) : VmState :=
  { v with map := fun q ↦ if page ≤ q ∧ q < page + n then some kind else v.map q }

/-- `VmMap::remove`, which spares the kernel's pages. -/
def remove (page n : Nat) : Option VmState :=
  if ∃ i < n, v.map (page + i) = some .kernel then none
  else some { v with map := fun q ↦ if page ≤ q ∧ q < page + n then none else v.map q }

def munmap (page n : Nat) : VmState := (v.remove page n).getD v

/-- `do_mmap`; `ok` unless it fails after it has made room. -/
def mmap (page n : Nat) (fixed ok : Bool) : VmState :=
  let v := if fixed then v.munmap page n else v
  if ok && v.free page n then v.insert page n .other else v

end VmState

/-- Where an attachment is to go; `va` is what `alloc_va` finds. -/
def askedFor (shmaddr shmflg : Nat) (va : Option Nat) : Option Nat :=
  if shmaddr = 0 then va
  else some (if shmflg &&& shmRnd ≠ 0 then shmaddr / 4096 * 4096 else shmaddr)

/-- The address of an attachment of `n` pages; `room` is what `check_as` says.  What `alloc_va` finds
is free. -/
def place (v : VmState) (shmaddr shmflg n : Nat) (va : Option Nat) (room : Bool) : Except Errno Nat :=
  match askedFor shmaddr shmflg va with
  | none => .error .ENOMEM
  | some base =>
    if base % 4096 ≠ 0 ∨ shmaddr ≠ 0 ∧ (base < vmMinuser ∨ vmMaxuser < base + n * 4096) ∨
        v.free (base / 4096) n = false then .error .EINVAL
    else if shmaddr ≠ 0 ∧ room = false then .error .ENOMEM
    else .ok base

/-! ## The machine -/

/-- `removed` is kept for the theorems: which segments `IPC_RMID` was done to. -/
structure St where
  ids : Ids ShmSegment
  removed : Int → Bool
  vm : Space → VmState
  spaces : Nat
  procs : Pid → Option Space
  next : Pid

namespace St

variable (s : St)

def setVm (a : Space) (v : VmState) : St := { s with vm := update s.vm a v }

/-- A live process has the address space. -/
def InUse (a : Space) : Prop := ∃ p < s.next, s.procs p = some a

instance (a : Space) : Decidable (s.InUse a) := inferInstanceAs (Decidable (∃ p < _, _))

/-- `do_shmat` once it has an address; `mapped` is how many pages there are page tables for. -/
def attach (a : Space) (id : Int) (n mapped base : Nat) : Except Errno Nat × St :=
  let v := (s.vm a).insert (base / 4096) n (.shm id)
  if n ≤ mapped then
    (.ok base, { s with ids := bump s.ids id }.setVm a { v with shmAttach := (base, id) :: v.shmAttach })
  else (.error .ENOMEM, { s with ids := bump s.ids id }.setVm a v)

/-- `do_shmat`.  A call that finds no address takes back what it counted. -/
def shmat (a : Space) (c : Cred) (id : Int) (shmaddr shmflg : Nat) (va : Option Nat) (room : Bool)
    (mapped : Nat) : Except Errno Nat × St :=
  match s.ids.objs id with
  | none => (.error .EINVAL, s)
  | some seg =>
    if !checkAccess seg.perm c (shmflg &&& shmRdonly = 0) then (.error .EACCES, s)
    else match place (s.vm a) shmaddr shmflg seg.frames va room with
      | .error e => (.error e, { s with ids := (bump s.ids id).put id seg })
      | .ok base => s.attach a id seg.frames mapped base

/-- `do_shmdt`; a segment that is attached is there, or the kernel stops. -/
def shmdt (a : Space) (shmaddr : Nat) : Option (Except Errno Unit × St) :=
  let v := s.vm a
  match v.shmAttach.find? fun x ↦ x.1 = shmaddr with
  | none => some (.error .EINVAL, s)
  | some x =>
    (s.ids.objs x.2).map fun seg ↦
      let v := { v with shmAttach := v.shmAttach.eraseP fun x ↦ x.1 = shmaddr }
      (.ok (), { s with ids := detach s.ids x.2 }.setVm a (v.munmap (shmaddr / 4096) seg.frames))

/-- `inherit_vm_for_fork`, with `inherit_attachments_for_fork`. -/
def fork (a : Space) : St :=
  { s with
    ids := (s.vm a).shmAttach.foldr (fun x t ↦ bump t x.2) s.ids
    vm := update s.vm s.spaces (s.vm a)
    spaces := s.spaces + 1
    procs := update s.procs s.next (some s.spaces)
    next := s.next + 1 }

def vfork (a : Space) : St :=
  { s with procs := update s.procs s.next (some a), next := s.next + 1 }

/-- `cleanup_vm`, if no live process has the address space; with `detach_all_for_exit`. -/
def cleanupVm (a : Space) : St :=
  if s.InUse a then s
  else
    let v := s.vm a
    { s with
      ids := v.shmAttach.foldr (fun x t ↦ detach t x.2) s.ids
      vm := update s.vm a { v with shmAttach := [] } }

/-- `exec_image`, with the pages of the new program. -/
def exec (p : Pid) (a : Space) (image : List Nat) : St :=
  { s with
    vm := update s.vm s.spaces ⟨fun q ↦ if q ∈ image then some .other else none, []⟩
    spaces := s.spaces + 1
    procs := update s.procs p (some s.spaces) }.cleanupVm a

def exit (p : Pid) (a : Space) : St :=
  { s with procs := update s.procs p none }.cleanupVm a

end St

inductive Event
  | shmget (c : Cred) (key : Int) (size shmflg : Nat) (room : Bool)
  | shmat (p : Pid) (c : Cred) (id : Int) (shmaddr shmflg : Nat) (va : Option Nat) (room : Bool)
      (mapped : Nat)
  | shmdt (p : Pid) (shmaddr : Nat)
  | rmid (c : Cred) (id : Int)
  | munmap (p : Pid) (page n : Nat)
  | mmap (p : Pid) (page n : Nat) (fixed ok : Bool)
  | fork (p : Pid)
  | vfork (p : Pid)
  | exec (p : Pid) (image : List Nat)
  | exit (p : Pid)
  deriving DecidableEq, Repr

/-- `none` if the process is not there, or the kernel stops. -/
def step (s : St) : Event → Option St
  | .shmget c key size shmflg room =>
    (shmget s.ids c key size shmflg room).map fun r ↦ { s with ids := r.2 }
  | .shmat p c id shmaddr shmflg va room mapped =>
    (s.procs p).map fun a ↦ (s.shmat a c id shmaddr shmflg va room mapped).2
  | .shmdt p shmaddr => (s.procs p).bind fun a ↦ (s.shmdt a shmaddr).map Prod.snd
  | .rmid c id =>
    let r := rmid s.ids c id
    some { s with
      ids := r.2
      removed := if r.1.isOk then update s.removed id true else s.removed }
  | .munmap p page n => (s.procs p).map fun a ↦ s.setVm a ((s.vm a).munmap page n)
  | .mmap p page n fixed ok => (s.procs p).map fun a ↦ s.setVm a ((s.vm a).mmap page n fixed ok)
  | .fork p => (s.procs p).map s.fork
  | .vfork p => (s.procs p).map s.vfork
  | .exec p image => (s.procs p).map fun a ↦ s.exec p a image
  | .exit p => (s.procs p).map (s.exit p)

/-- Init runs. -/
def boot : St where
  ids := .empty
  removed _ := false
  vm _ := ⟨fun _ ↦ none, []⟩
  spaces := 1
  procs := update (fun _ ↦ none) 1 (some 0)
  next := 2

/-! ## What the accounting is for -/

/-- How often a segment is attached in the address spaces that are in use. -/
def St.attached (s : St) (id : Int) : Nat :=
  ∑ a ∈ Finset.range s.spaces, if s.InUse a then (s.vm a).shmAttach.countP (·.2 = id) else 0

/-- Nothing but the segment itself is mapped where it is attached. -/
def Own (t : Ids ShmSegment) (v : VmState) : Prop :=
  ∀ x ∈ v.shmAttach, ∀ seg, t.objs x.2 = some seg → ∀ i < seg.frames,
    v.map (x.1 / 4096 + i) = none ∨ v.map (x.1 / 4096 + i) = some (.shm x.2)

structure Sound (s : St) : Prop where
  nattch : ∀ id seg, s.ids.objs id = some seg → seg.nattch = s.attached id
  gone : ∀ id, 1 ≤ id → id < s.ids.next →
    (s.ids.objs id = none ↔ s.removed id = true ∧ s.attached id = 0)
  keys : ∀ key id, s.ids.keys key = some id ↔ key ≠ ipcPrivate ∧ s.removed id = false ∧
    ∃ seg, s.ids.objs id = some seg ∧ seg.perm.key = key
  own : ∀ a, s.InUse a → Own s.ids (s.vm a)

/-! ## The condition -/

/-- The key of a removed segment names no other. -/
def Unnamed (t : Ids ShmSegment) (seg : ShmSegment) : Prop :=
  seg.markedForRemoval = true → seg.perm.key = ipcPrivate ∨ t.keys seg.perm.key = none

/-- The pages do not meet the attachments of an address space, other than those of `id`. -/
def Apart (t : Ids ShmSegment) (v : VmState) (page n : Nat) (id : Option Int) : Prop :=
  ∀ x ∈ v.shmAttach, some x.2 ≠ id → ∀ seg ∈ t.objs x.2,
    page + n ≤ x.1 / 4096 ∨ x.1 / 4096 + seg.frames ≤ page

/-- The address space of `p` can be given up. -/
def Leaves (s : St) (p : Pid) : Prop :=
  ∀ a ∈ s.procs p, (∃ q < s.next, q ≠ p ∧ s.procs q = some a) ∨
    ∀ x ∈ (s.vm a).shmAttach, ∀ seg ∈ s.ids.objs x.2,
      seg.nattch ≤ (s.vm a).shmAttach.countP (fun y ↦ y.2 = x.2) → Unnamed s.ids seg

def Proper (s : St) : Event → Prop
  | .shmat p _ id shmaddr shmflg va _ mapped => ∀ a ∈ s.procs p, ∀ seg ∈ s.ids.objs id,
    seg.frames ≤ mapped ∧ ∀ base ∈ askedFor shmaddr shmflg va,
      Apart s.ids (s.vm a) (base / 4096) seg.frames (some id)
  | .shmdt p shmaddr => ∀ a ∈ s.procs p, ∀ x ∈ (s.vm a).shmAttach.find? fun x ↦ x.1 = shmaddr,
    ∀ seg ∈ s.ids.objs x.2, seg.nattch ≤ 1 → Unnamed s.ids seg
  | .rmid _ id => ∀ seg ∈ s.ids.objs id, Unnamed s.ids seg
  | .mmap p page n _ _ => ∀ a ∈ s.procs p, Apart s.ids (s.vm a) page n none
  | .exec p _ | .exit p => Leaves s p
  | _ => True

instance (t : Ids ShmSegment) (seg : ShmSegment) : Decidable (Unnamed t seg) :=
  inferInstanceAs (Decidable (_ → _))

instance (t : Ids ShmSegment) (v : VmState) (page n : Nat) (id : Option Int) :
    Decidable (Apart t v page n id) := by
  unfold Apart
  infer_instance

instance (s : St) (p : Pid) : Decidable (Leaves s p) := by
  unfold Leaves
  infer_instance

instance (s : St) (e : Event) : Decidable (Proper s e) := by
  unfold Proper
  split <;> infer_instance

/-! ## The table of segments -/

/-- The table agrees with the numbers `n` of attachments. -/
structure Counted (t : Ids ShmSegment) (removed : Int → Bool) (n : Int → Nat) : Prop where
  nattch : ∀ id seg, t.objs id = some seg → seg.nattch = n id
  marked : ∀ id seg, t.objs id = some seg →
    seg.markedForRemoval = removed id ∧ (removed id = true → 0 < n id)
  lost : ∀ id, t.objs id = none → n id = 0 ∧ (1 ≤ id → id < t.next → removed id = true)
  fresh : ∀ id, t.next ≤ id → t.objs id = none ∧ removed id = false
  keyed : ∀ key id, t.keys key = some id → key ≠ ipcPrivate ∧ removed id = false ∧
    ∃ seg, t.objs id = some seg ∧ seg.perm.key = key
  named : ∀ id seg, t.objs id = some seg → removed id = false → seg.perm.key ≠ ipcPrivate →
    t.keys seg.perm.key = some id

variable {t t' : Ids ShmSegment} {removed : Int → Bool} {n n' : Int → Nat} {id : Int}
  {seg : ShmSegment} {s s' : St} {a : Space} {p : Pid} {v : VmState} {l : List (Nat × Int)}
  {x : Nat × Int}

theorem Counted.bump (h : Counted t removed n) (hid : t.objs id = some seg) :
    Counted (bump t id) removed (update n id (n id + 1)) := by
  obtain ⟨h1, h2, h3, h4, h5, h6⟩ := h
  simp only [Shm.bump, hid]
  constructor <;> simp only [Ids.put] <;> grind

theorem Counted.detach (h : Counted t removed (update n id (n id + 1)))
    (hid : t.objs id = some seg) (hfree : n id = 0 → Unnamed t seg) :
    Counted (detach t id) removed n := by
  obtain ⟨h1, h2, h3, h4, h5, h6⟩ := h
  simp only [Shm.detach, hid]
  unfold Unnamed at hfree
  split
  · constructor <;> simp only [Ids.remove] <;> grind
  · constructor <;> simp only [Ids.put] <;> grind

theorem Counted.rmid (h : Counted t removed n) (c : Cred)
    (hfree : ∀ seg ∈ t.objs id, Unnamed t seg) :
    Counted (rmid t c id).2
      (if (rmid t c id).1.isOk then update removed id true else removed) n := by
  have hall := h
  obtain ⟨h1, h2, h3, h4, h5, h6⟩ := hall
  unfold Unnamed at hfree
  cases hid : t.objs id with
  | none => simpa [Shm.rmid, hid, Except.isOk, Except.toBool] using h
  | some seg =>
    by_cases hown : isOwnerOrCreator seg.perm c = true
    · by_cases hzero : seg.nattch = 0
      · simp only [Shm.rmid, hid, hown, hzero, Except.isOk, Except.toBool, Bool.not_true]
        constructor <;> simp only [Ids.remove] <;> grind
      · simp only [Shm.rmid, hid, hown, hzero, Except.isOk, Except.toBool, Bool.not_true]
        constructor <;> simp only [Ids.put] <;> grind
    · simpa [Shm.rmid, hid, hown, Except.toBool] using h

theorem Counted.shmget {c : Cred} {key : Int} {size shmflg : Nat} {room : Bool} {r : Except Errno Int}
    (h : Counted t removed n) (ht : shmget t c key size shmflg room = some (r, t')) :
    Counted t' removed n ∧ ∀ id seg, 0 < n id → t'.objs id = some seg → t.objs id = some seg := by
  have hall := h
  obtain ⟨h1, h2, h3, h4, h5, h6⟩ := hall
  unfold Shm.shmget at ht
  split at ht
  · obtain ⟨_, -, heq⟩ := map_eq_some_iff.1 ht
    cases heq
    exact ⟨h, fun _ _ _ ↦ id⟩
  · rename_i hkey
    split_ifs at ht
    · cases ht
      exact ⟨h, fun _ _ _ ↦ id⟩
    · cases ht
      exact ⟨h, fun _ _ _ ↦ id⟩
    · cases ht
      exact ⟨h, fun _ _ _ ↦ id⟩
    · cases ht
      exact ⟨h, fun _ _ _ ↦ id⟩
    · obtain ⟨next, hnext, heq⟩ := map_eq_some_iff.1 ht
      have := checkedI32_eq_some hnext
      cases heq
      refine ⟨?_, ?_⟩
      · constructor <;> simp only [update_apply] <;> grind
      · simp only [update_apply]
        grind

/-- The attachments of `l`, counted. -/
def tally (l : List (Nat × Int)) (id : Int) : Nat := l.countP (·.2 = id)

theorem tally_cons (x : Nat × Int) (l : List (Nat × Int)) :
    tally (x :: l) = update (tally l) x.2 (tally l x.2 + 1) := by
  funext id
  simp only [tally, update_apply]
  grind

theorem Counted.bumps (h : Counted t removed n) (hl : ∀ x ∈ l, 0 < n x.2) :
    Counted (l.foldr (fun x t ↦ Shm.bump t x.2) t) removed (n + tally l) := by
  induction l with
  | nil => exact h
  | cons x l ih =>
    have ih := ih fun y hy ↦ hl y (mem_cons_of_mem x hy)
    have hpos : 0 < (n + tally l) x.2 := by
      have := hl x mem_cons_self
      simp only [Pi.add_apply]
      omega
    cases hid : (l.foldr (fun x t ↦ Shm.bump t x.2) t).objs x.2 with
    | none => exact absurd (ih.lost _ hid).1 hpos.ne'
    | some seg =>
      have hn : n + tally (x :: l) =
          update (n + tally l) x.2 ((n + tally l) x.2 + 1) := by
        rw [tally_cons]
        funext id
        simp only [Pi.add_apply, update_apply]
        grind
      rw [hn]
      exact ih.bump hid

/-- What is left of a table: the segments are as they were but for their counts, and no key is new. -/
structure Less (t t' : Ids ShmSegment) : Prop where
  objs : ∀ id seg', t'.objs id = some seg' → ∃ seg, t.objs id = some seg ∧ seg'.perm = seg.perm ∧
    seg'.frames = seg.frames ∧ seg'.markedForRemoval = seg.markedForRemoval
  keys : ∀ key, t.keys key = none → t'.keys key = none

theorem Less.refl (t : Ids ShmSegment) : Less t t :=
  ⟨fun _ seg h ↦ ⟨seg, h, rfl, rfl, rfl⟩, fun _ ↦ id⟩

theorem less_put (hid : t.objs id = some seg) (k : Nat) :
    Less t (t.put id { seg with nattch := k }) := by
  refine ⟨fun i seg' h ↦ ?_, fun _ h ↦ h⟩
  simp only [Ids.put_objs] at h
  grind

theorem less_remove (t : Ids ShmSegment) (id key : Int) : Less t (t.remove id key) := by
  constructor <;> simp only [Ids.remove] <;> grind

theorem less_bump (t : Ids ShmSegment) (id : Int) : Less t (bump t id) := by
  unfold bump
  split
  · exact .refl t
  · exact less_put ‹_› _

theorem less_detach (t : Ids ShmSegment) (id : Int) : Less t (detach t id) := by
  unfold detach
  split
  · exact .refl t
  · split
    · exact less_remove ..
    · exact less_put ‹_› _

theorem less_foldr {f : Ids ShmSegment → Int → Ids ShmSegment} (hf : ∀ t id, Less t (f t id))
    (t : Ids ShmSegment) (l : List (Nat × Int)) : Less t (l.foldr (fun x t ↦ f t x.2) t) := by
  induction l with
  | nil => exact ⟨fun _ seg h ↦ ⟨seg, h, rfl, rfl, rfl⟩, fun _ ↦ id⟩
  | cons x l ih =>
    refine ⟨fun id seg'' h ↦ ?_, fun key h ↦ (hf _ x.2).keys key (ih.keys key h)⟩
    obtain ⟨seg', h', hperm', hframes', hmarked'⟩ := (hf _ x.2).objs id seg'' h
    obtain ⟨seg, h, hperm, hframes, hmarked⟩ := ih.objs id seg' h'
    exact ⟨seg, h, hperm'.trans hperm, hframes'.trans hframes, hmarked'.trans hmarked⟩

theorem Counted.detaches (h : Counted t removed (n + tally l))
    (hfree : ∀ x ∈ l, ∀ seg ∈ t.objs x.2, seg.nattch ≤ tally l x.2 → Unnamed t seg) :
    Counted (l.foldr (fun x t ↦ Shm.detach t x.2) t) removed n := by
  induction l generalizing n with
  | nil => exact h
  | cons x l ih =>
    have hn : n + tally (x :: l) = update n x.2 (n x.2 + 1) + tally l := by
      rw [tally_cons]
      funext id
      simp only [Pi.add_apply]
      grind
    have hle : ∀ id, tally l id ≤ tally (x :: l) id := fun id ↦
      Sublist.countP_le (sublist_cons_self x l)
    have hrest := ih (hn ▸ h) fun y hy seg hseg hc ↦
      hfree y (mem_cons_of_mem x hy) seg hseg (hc.trans (hle y.2))
    have hless := less_foldr less_detach t l
    rw [foldr_cons]
    generalize foldr (fun x t ↦ Shm.detach t x.2) t l = t₁ at hrest hless ⊢
    cases hid : t₁.objs x.2 with
    | none =>
      have := (hrest.lost _ hid).1
      simp at this
    | some seg' =>
      refine hrest.detach hid fun hzero hmarked ↦ ?_
      obtain ⟨seg, hseg, hperm, -, hmarked'⟩ := hless.objs _ _ hid
      have hcount := h.nattch _ _ hseg
      simp only [Pi.add_apply] at hcount
      rw [hperm]
      exact (hfree x mem_cons_self seg hseg (by omega) (hmarked'.symm.trans hmarked)).imp_right
        (hless.keys _)

/-! ## Address spaces -/

theorem Own.mono (h : Own t v) (hlike : ∀ x ∈ v.shmAttach, ∀ seg', t'.objs x.2 = some seg' →
    ∃ seg, t.objs x.2 = some seg ∧ seg'.frames = seg.frames) : Own t' v := by
  intro x hx seg' hseg' i hi
  obtain ⟨seg, hseg, hframes⟩ := hlike x hx seg' hseg'
  exact h x hx seg hseg i (hframes ▸ hi)

theorem Own.less (h : Own t v) (hless : Less t t') : Own t' v :=
  h.mono fun x _ seg' hseg' ↦ by
    obtain ⟨seg, hseg, -, hframes, -⟩ := hless.objs x.2 seg' hseg'
    exact ⟨seg, hseg, hframes⟩

theorem Own.munmap (h : Own t v) (page k : Nat) : Own t (v.munmap page k) := by
  unfold VmState.munmap VmState.remove
  split
  · exact h
  · intro x hx seg hseg i hi
    simp only [getD_some]
    split
    · exact .inl rfl
    · exact h x hx seg hseg i hi

theorem munmap_shmAttach (v : VmState) (page k : Nat) :
    (v.munmap page k).shmAttach = v.shmAttach := by
  unfold VmState.munmap VmState.remove
  split <;> rfl

theorem Own.insert (h : Own t v) {page k : Nat} {o : Option Int} (kind : VmKind)
    (hapart : Apart t v page k o) (hkind : ∀ i, o = some i → kind = .shm i) :
    Own t (v.insert page k kind) := by
  intro x hx seg hseg i hi
  have hold := h x hx seg hseg i hi
  simp only [VmState.insert]
  split
  · rename_i hin
    by_cases ho : some x.2 = o
    · exact .inr (congrArg some (hkind x.2 ho.symm))
    · have := hapart x hx ho seg hseg
      omega
  · exact hold

theorem Own.mmap (h : Own t v) {page k : Nat} (hapart : Apart t v page k none) (fixed ok : Bool) :
    Own t (v.mmap page k fixed ok) ∧ (v.mmap page k fixed ok).shmAttach = v.shmAttach := by
  have key : ∀ w : VmState, Own t w → w.shmAttach = v.shmAttach →
      Own t (if (ok && w.free page k) = true then w.insert page k .other else w) ∧
        (if (ok && w.free page k) = true then w.insert page k .other else w).shmAttach =
          v.shmAttach := by
    intro w hw heq
    split
    · refine ⟨hw.insert (o := none) .other ?_ nofun, heq⟩
      rw [Apart, heq]
      exact hapart
    · exact ⟨hw, heq⟩
  cases fixed
  · exact key v h rfl
  · exact key _ (h.munmap page k) (munmap_shmAttach v page k)

/-! ## The invariant -/

/-- How often a segment is attached in all address spaces. -/
def St.total (s : St) : Int → Nat := ∑ a ∈ Finset.range s.spaces, tally (s.vm a).shmAttach

structure Inv (s : St) : Prop where
  counted : Counted s.ids s.removed s.total
  idle : ∀ a, ¬ s.InUse a → (s.vm a).shmAttach = []
  own : ∀ a, Own s.ids (s.vm a)
  lt : ∀ p a, s.procs p = some a → p < s.next ∧ a < s.spaces

theorem Inv.inUse (h : Inv s) (hp : s.procs p = some a) : s.InUse a := ⟨p, (h.lt p a hp).1, hp⟩

theorem Inv.attached (h : Inv s) (id : Int) : s.attached id = s.total id := by
  rw [St.total, Finset.sum_apply]
  refine Finset.sum_congr rfl fun a _ ↦ ?_
  by_cases ha : s.InUse a
  · rw [if_pos ha, tally]
  · rw [if_neg ha, h.idle a ha]
    rfl

theorem Inv.sound (h : Inv s) : Sound s where
  nattch id seg hid := (h.counted.nattch id seg hid).trans (h.attached id).symm
  gone id hpos hlt := by
    rw [h.attached]
    refine ⟨fun hid ↦ ⟨(h.counted.lost id hid).2 hpos hlt, (h.counted.lost id hid).1⟩, fun hgone ↦ ?_⟩
    cases hid : s.ids.objs id with
    | none => rfl
    | some seg => exact absurd hgone.2 ((h.counted.marked id seg hid).2 hgone.1).ne'
  keys key id := by
    refine ⟨h.counted.keyed key id, ?_⟩
    rintro ⟨hne, hkept, seg, hid, rfl⟩
    exact h.counted.named id seg hid hkept hne
  own a _ := h.own a

theorem total_pos (ha : a < s.spaces) (hx : x ∈ (s.vm a).shmAttach) : 0 < s.total x.2 := by
  have hle : tally (s.vm a).shmAttach x.2 ≤ s.total x.2 := by
    rw [St.total, Finset.sum_apply]
    exact Finset.single_le_sum (f := fun a ↦ tally (s.vm a).shmAttach x.2)
      (fun _ _ ↦ Nat.zero_le _) (Finset.mem_range.2 ha)
  exact (countP_pos_iff.2 ⟨x, hx, by simp⟩).trans_le hle

/-- One address space changes its attachments. -/
theorem total_setVm (ha : a < s.spaces) (v : VmState) :
    (s.setVm a v).total + tally (s.vm a).shmAttach = s.total + tally v.shmAttach := by
  have hmem := Finset.mem_range.2 ha
  rw [St.total, St.total, show (s.setVm a v).spaces = s.spaces from rfl,
    ← Finset.add_sum_erase _ (fun b ↦ tally ((s.setVm a v).vm b).shmAttach) hmem,
    ← Finset.add_sum_erase _ (fun b ↦ tally (s.vm b).shmAttach) hmem]
  have hrest : ∑ b ∈ (Finset.range s.spaces).erase a, tally ((s.setVm a v).vm b).shmAttach =
      ∑ b ∈ (Finset.range s.spaces).erase a, tally (s.vm b).shmAttach := by
    refine Finset.sum_congr rfl fun b hb ↦ ?_
    simp [St.setVm, Finset.ne_of_mem_erase hb]
  have hself : (s.setVm a v).vm a = v := update_self ..
  rw [hself, hrest]
  abel

theorem total_setVm_cons (ha : a < s.spaces) (hv : v.shmAttach = x :: (s.vm a).shmAttach) :
    (s.setVm a v).total = update s.total x.2 (s.total x.2 + 1) := by
  have htotal := total_setVm ha v
  rw [hv, tally_cons] at htotal
  funext i
  have hi := congrFun htotal i
  simp only [Pi.add_apply] at hi ⊢
  grind

theorem tally_eraseP {f : Nat × Int → Bool} (hx : l.find? f = some x) :
    tally l = update (tally (l.eraseP f)) x.2 (tally (l.eraseP f) x.2 + 1) := by
  induction l with
  | nil => cases hx
  | cons y l ih =>
    by_cases hy : f y = true
    · rw [find?_cons_of_pos hy] at hx
      cases hx
      rw [eraseP_cons_of_pos hy, tally_cons]
    · rw [find?_cons_of_neg hy] at hx
      rw [eraseP_cons_of_neg hy, tally_cons, tally_cons, ih hx]
      grind

theorem total_setVm_eraseP (ha : a < s.spaces) {f : Nat × Int → Bool}
    (hx : (s.vm a).shmAttach.find? f = some x) (hv : v.shmAttach = (s.vm a).shmAttach.eraseP f) :
    s.total = update (s.setVm a v).total x.2 ((s.setVm a v).total x.2 + 1) := by
  have htotal := total_setVm ha v
  rw [tally_eraseP hx] at htotal
  funext i
  have hi := congrFun htotal i
  simp only [Pi.add_apply] at hi ⊢
  grind

/-- A call that changes one address space, and the table. -/
theorem Inv.setVm (h : Inv s) (hp : s.procs p = some a) (hless : Less s.ids t')
    (hcounted : Counted t' s.removed (s.setVm a v).total) (hown : Own t' v) :
    Inv ({ s with ids := t' }.setVm a v) := by
  refine ⟨hcounted, fun b hb ↦ ?_, fun b ↦ ?_, h.lt⟩
  · have hba : b ≠ a := by
      rintro rfl
      exact hb (h.inUse hp)
    simp only [St.setVm, update_of_ne hba]
    exact h.idle b hb
  · simp only [St.setVm, update_apply]
    split
    · exact hown
    · exact (h.own b).less hless

/-- A call that changes what is mapped. -/
theorem Inv.remap (h : Inv s) (hp : s.procs p = some a) (hsame : v.shmAttach = (s.vm a).shmAttach)
    (hown : Own s.ids v) : Inv (s.setVm a v) := by
  refine h.setVm hp (.refl _) ?_ hown
  have htotal := total_setVm (h.lt p a hp).2 v
  rw [hsame] at htotal
  rw [add_right_cancel htotal]
  exact h.counted

theorem Inv.attach (h : Inv s) (hp : s.procs p = some a) (hid : s.ids.objs id = some seg)
    {mapped base : Nat} (hmapped : seg.frames ≤ mapped)
    (hapart : Apart s.ids (s.vm a) (base / 4096) seg.frames (some id)) :
    Inv (s.attach a id seg.frames mapped base).2 := by
  simp only [St.attach, hmapped]
  have hless := less_bump s.ids id
  refine h.setVm hp hless ?_ ?_
  · rw [total_setVm_cons (h.lt p a hp).2 rfl]
    exact h.counted.bump hid
  · have hins := ((h.own a).less hless).insert (.shm id)
      (show Apart _ _ (base / 4096) seg.frames (some id) from ?_)
      fun i hi ↦ by rw [some.inj hi]
    · intro x hx seg' hseg' i hi
      obtain rfl | hx := mem_cons.1 hx
      · obtain ⟨seg₀, hseg₀, -, hframes, -⟩ := hless.objs _ _ hseg'
        rw [hid] at hseg₀
        cases hseg₀
        refine .inr (if_pos ⟨Nat.le_add_right _ _, ?_⟩)
        rw [hframes] at hi
        exact Nat.add_lt_add_left hi _
      · exact hins x hx seg' hseg' i hi
    · intro x hx hne seg' hseg'
      obtain ⟨seg₀, hseg₀, -, hframes, -⟩ := hless.objs _ _ hseg'
      rw [hframes]
      exact hapart x hx hne seg₀ hseg₀

theorem Inv.shmdt (h : Inv s) (hp : s.procs p = some a) {shmaddr : Nat} {r : Except Errno Unit}
    (hstep : s.shmdt a shmaddr = some (r, s'))
    (hfree : ∀ x ∈ (s.vm a).shmAttach.find? fun x ↦ x.1 = shmaddr, ∀ seg ∈ s.ids.objs x.2,
      seg.nattch ≤ 1 → Unnamed s.ids seg) : Inv s' := by
  simp only [St.shmdt] at hstep
  split at hstep
  · cases hstep
    exact h
  · rename_i x hx
    obtain ⟨seg, hseg, heq⟩ := map_eq_some_iff.1 hstep
    cases heq
    have hless := less_detach s.ids x.2
    have hown : Own (Shm.detach s.ids x.2)
        { s.vm a with shmAttach := (s.vm a).shmAttach.eraseP fun x ↦ x.1 = shmaddr } :=
      fun y hy ↦ ((h.own a).less hless) y (mem_of_mem_eraseP hy)
    refine h.setVm hp hless ?_ (hown.munmap _ _)
    have hcounted := h.counted
    rw [total_setVm_eraseP (h.lt p a hp).2 hx
      (munmap_shmAttach { s.vm a with shmAttach := _ } _ _)] at hcounted
    refine hcounted.detach hseg fun hzero ↦ hfree x hx seg hseg ?_
    rw [hcounted.nattch _ _ hseg, update_self, hzero]

theorem Inv.fork (h : Inv s) (hp : s.procs p = some a) : Inv (s.fork a) := by
  have hlt := (h.lt p a hp).2
  have hless := less_foldr less_bump s.ids (s.vm a).shmAttach
  have hvm : ∀ b, (s.fork a).vm b = if b = s.spaces then s.vm a else s.vm b := fun b ↦
    update_apply ..
  refine ⟨?_, fun b hb ↦ ?_, fun b ↦ ?_, fun q b hq ↦ ?_⟩
  · have htotal : (s.fork a).total = s.total + tally (s.vm a).shmAttach := by
      rw [St.total, show (s.fork a).spaces = s.spaces + 1 from rfl, Finset.sum_range_succ, hvm,
        if_pos rfl]
      congr 1
      refine Finset.sum_congr rfl fun b hb ↦ ?_
      rw [hvm, if_neg (Finset.mem_range.1 hb).ne]
    rw [htotal]
    exact h.counted.bumps fun x hx ↦ total_pos hlt hx
  · have hb' : ¬ s.InUse b := fun ⟨q, hq, hqb⟩ ↦ hb ⟨q, Nat.lt_succ_of_lt hq, by
      simp only [St.fork, update_of_ne hq.ne]
      exact hqb⟩
    rw [hvm]
    split
    · rename_i hbs
      refine (hb ⟨s.next, Nat.lt_succ_self _, ?_⟩).elim
      simp [St.fork, hbs]
    · exact h.idle b hb'
  · rw [hvm]
    split
    · exact (h.own a).less hless
    · exact (h.own b).less hless
  · simp only [St.fork, update_apply] at hq ⊢
    split at hq
    · rename_i hqs
      cases hq
      exact ⟨hqs ▸ Nat.lt_succ_self _, Nat.lt_succ_self _⟩
    · exact (h.lt q b hq).imp Nat.lt_succ_of_lt Nat.lt_succ_of_lt

theorem Inv.vfork (h : Inv s) (hp : s.procs p = some a) : Inv (s.vfork a) := by
  refine ⟨h.counted, fun b hb ↦ h.idle b fun ⟨q, hq, hqb⟩ ↦ hb ⟨q, Nat.lt_succ_of_lt hq, ?_⟩, h.own,
    fun q b hq ↦ ?_⟩
  · simp only [St.vfork, update_of_ne hq.ne]
    exact hqb
  · simp only [St.vfork, update_apply] at hq ⊢
    split at hq
    · rename_i hqs
      cases hq
      exact ⟨hqs ▸ Nat.lt_succ_self _, (h.lt p a hp).2⟩
    · exact (h.lt q b hq).imp_left Nat.lt_succ_of_lt

/-- An address space that has lost a user. -/
theorem inv_cleanupVm (hcounted : Counted s.ids s.removed s.total)
    (hidle : ∀ b, b ≠ a → ¬ s.InUse b → (s.vm b).shmAttach = []) (hown : ∀ b, Own s.ids (s.vm b))
    (hlt : ∀ q b, s.procs q = some b → q < s.next ∧ b < s.spaces) (ha : a < s.spaces)
    (hfree : ¬ s.InUse a → ∀ x ∈ (s.vm a).shmAttach, ∀ seg ∈ s.ids.objs x.2,
      seg.nattch ≤ tally (s.vm a).shmAttach x.2 → Unnamed s.ids seg) : Inv (s.cleanupVm a) := by
  rw [St.cleanupVm]
  split
  · rename_i hin
    refine ⟨hcounted, fun b hb ↦ hidle b ?_ hb, hown, hlt⟩
    rintro rfl
    exact hb hin
  · rename_i hout
    have hless := less_foldr less_detach s.ids (s.vm a).shmAttach
    refine ⟨?_, fun b hb ↦ ?_, fun b ↦ ?_, hlt⟩
    · have htotal := total_setVm ha { s.vm a with shmAttach := [] }
      exact Counted.detaches (htotal ▸ hcounted) (hfree hout)
    · simp only [update_apply]
      split
      · rfl
      · exact hidle b ‹_› hb
    · simp only [update_apply]
      split
      · nofun
      · exact (hown b).less hless

/-- `p` gives its address space up, and may have a new one. -/
theorem Inv.leave (h : Inv s) (hp : s.procs p = some a) (hleaves : Leaves s p) (hids : s'.ids = s.ids)
    (hremoved : s'.removed = s.removed) (htotal : s'.total = s.total) (hnext : s'.next = s.next)
    (hspaces : s.spaces ≤ s'.spaces) (hvm : ∀ b, b ≠ s.spaces → s'.vm b = s.vm b)
    (hnew : (s'.vm s.spaces).shmAttach = []) (hothers : ∀ q, q ≠ p → s'.procs q = s.procs q)
    (hself : ∀ b, s'.procs p = some b → b < s'.spaces) : Inv (s'.cleanupVm a) := by
  have hlt := h.lt p a hp
  refine inv_cleanupVm ?_ (fun b hb hout ↦ ?_) (fun b ↦ ?_) (fun q b hq ↦ ?_)
    (hlt.2.trans_le hspaces) fun hout ↦ ?_
  · rw [hids, hremoved, htotal]
    exact h.counted
  · by_cases hbs : b = s.spaces
    · rw [hbs]
      exact hnew
    · rw [hvm b hbs]
      refine h.idle b fun ⟨q, hq, hqb⟩ ↦ hout ⟨q, hnext ▸ hq, ?_⟩
      rw [hothers q ?_]
      · exact hqb
      · rintro rfl
        exact hb (some.inj (hqb.symm.trans hp))
  · rw [hids]
    by_cases hbs : b = s.spaces
    · rw [Own, hbs, hnew]
      nofun
    · rw [hvm b hbs]
      exact h.own b
  · rw [hnext]
    by_cases hqp : q = p
    · subst hqp
      exact ⟨hlt.1, hself b hq⟩
    · rw [hothers q hqp] at hq
      exact (h.lt q b hq).imp_right fun hb ↦ Nat.lt_of_lt_of_le hb hspaces
  · rw [hids, hvm a hlt.2.ne]
    refine (hleaves a hp).resolve_left fun ⟨q, hq, hqp, hqa⟩ ↦ hout ⟨q, hnext ▸ hq, ?_⟩
    rw [hothers q hqp]
    exact hqa

theorem Inv.exec (h : Inv s) (hp : s.procs p = some a) (hleaves : Leaves s p) (image : List Nat) :
    Inv (s.exec p a image) := by
  refine h.leave hp hleaves rfl rfl ?_ rfl (Nat.le_succ _) (fun b hb ↦ update_of_ne hb ..)
    ?_ (fun q hq ↦ update_of_ne hq ..) fun b hb ↦ ?_
  · rw [St.total, Finset.sum_range_succ]
    dsimp only
    rw [update_self, show tally [] = 0 from rfl, add_zero]
    refine Finset.sum_congr rfl fun b hb ↦ ?_
    rw [update_of_ne (Finset.mem_range.1 hb).ne]
  · simp only [update_self]
  · simp only [update_self, some.injEq] at hb
    exact hb ▸ Nat.lt_succ_self _

theorem Inv.exit (h : Inv s) (hp : s.procs p = some a) (hleaves : Leaves s p) : Inv (s.exit p a) := by
  refine h.leave hp hleaves rfl rfl rfl rfl le_rfl (fun _ _ ↦ rfl)
    (h.idle _ fun ⟨q, _, hq⟩ ↦ lt_irrefl _ (h.lt q _ hq).2) (fun q hq ↦ update_of_ne hq ..)
    fun b hb ↦ ?_
  simp at hb

theorem put_bump (hid : t.objs id = some seg) : (bump t id).put id seg = t := by
  simp only [bump, hid, Ids.put, update_idem]
  rw [← hid, update_eq_self]

theorem step_inv {e : Event} (hproper : Proper s e) (h : Inv s) (hstep : step s e = some s') :
    Inv s' := by
  cases e with
  | shmget c key size shmflg room =>
    obtain ⟨⟨r, t'⟩, ht, rfl⟩ := map_eq_some_iff.1 hstep
    obtain ⟨hcounted, hold⟩ := h.counted.shmget ht
    refine ⟨hcounted, h.idle, fun a ↦ (h.own a).mono fun x hx seg hseg ↦ ?_, h.lt⟩
    refine ⟨seg, hold _ seg ?_ hseg, rfl⟩
    by_cases ha : s.InUse a
    · obtain ⟨p, -, hp⟩ := ha
      exact total_pos (h.lt p a hp).2 hx
    · rw [h.idle a ha] at hx
      cases hx
  | shmat p c id shmaddr shmflg va room mapped =>
    obtain ⟨a, hp, rfl⟩ := map_eq_some_iff.1 hstep
    cases hid : s.ids.objs id with
    | none =>
      simp only [St.shmat, hid]
      exact h
    | some seg =>
      obtain ⟨hmapped, hapart⟩ := hproper a hp seg hid
      simp only [St.shmat, hid, put_bump hid]
      split
      · exact h
      · cases hplace : place (s.vm a) shmaddr shmflg seg.frames va room with
        | error e => exact h
        | ok base =>
          refine h.attach hp hid hmapped (hapart base ?_)
          unfold place at hplace
          grind
  | shmdt p shmaddr =>
    obtain ⟨a, hp, hs⟩ := bind_eq_some_iff.1 hstep
    obtain ⟨⟨r, s''⟩, hs', rfl⟩ := map_eq_some_iff.1 hs
    exact h.shmdt hp hs' (hproper a hp)
  | rmid c id =>
    cases hstep
    refine ⟨h.counted.rmid c hproper, h.idle, fun a ↦ (h.own a).mono fun x _ seg hseg ↦ ?_, h.lt⟩
    revert hseg
    simp only [rmid]
    split
    · exact fun hseg ↦ ⟨seg, hseg, rfl⟩
    · split_ifs <;> simp only [Ids.remove, Ids.put] <;> grind
  | munmap p page k =>
    obtain ⟨a, hp, rfl⟩ := map_eq_some_iff.1 hstep
    exact h.remap hp (munmap_shmAttach ..) ((h.own a).munmap page k)
  | mmap p page k fixed ok =>
    obtain ⟨a, hp, rfl⟩ := map_eq_some_iff.1 hstep
    obtain ⟨hown, hsame⟩ := (h.own a).mmap (hproper a hp) fixed ok
    exact h.remap hp hsame hown
  | fork p =>
    obtain ⟨a, hp, rfl⟩ := map_eq_some_iff.1 hstep
    exact h.fork hp
  | vfork p =>
    obtain ⟨a, hp, rfl⟩ := map_eq_some_iff.1 hstep
    exact h.vfork hp
  | exec p image =>
    obtain ⟨a, hp, rfl⟩ := map_eq_some_iff.1 hstep
    exact h.exec hp hproper image
  | exit p =>
    obtain ⟨a, hp, rfl⟩ := map_eq_some_iff.1 hstep
    exact h.exit hp hproper

theorem boot_inv : Inv boot := by
  refine ⟨⟨nofun, nofun, fun id _ ↦ ⟨by simp [St.total, boot, tally], fun h h' ↦ ?_⟩,
    fun _ _ ↦ ⟨rfl, rfl⟩, nofun, nofun⟩, fun _ _ ↦ rfl, fun _ ↦ nofun, fun p a hp ↦ ?_⟩
  · exact absurd h' (not_lt.2 h)
  · simp only [boot, update_apply] at hp ⊢
    obtain ⟨hp1, ⟨⟩⟩ := of_ite_right hp nofun
    exact ⟨hp1 ▸ Nat.lt_succ_self 1, Nat.zero_lt_one⟩

/-- **The accounting of shared memory**: in every run in which `shmat` has memory for page tables,
nothing is mapped over attachments, and no removed segment goes after its key was given to another,
every segment's `nattch` is the number of its attachments, a segment is gone exactly when it was removed
and has none, a key names the one segment made under it that was not removed, and `shmdt` finds nothing
but its segment. -/
theorem run_accounting {es : List Event} (hproper : Machine.Meets step Proper boot es)
    (hrun : Machine.run step boot es = some s) : Sound s :=
  (Machine.run_inv (fun _ _ _ ↦ step_inv) boot_inv hproper hrun).sound

/-- A segment is shared with a child, removed, and detached by both; its key is used again. -/
def shared : List Event :=
  [.shmget ⟨0, 0⟩ 7 8192 0o1600 true, .shmat 1 ⟨0, 0⟩ 1 0 0 (some 0x10000) true 2, .fork 1,
   .rmid ⟨0, 0⟩ 1, .exit 2, .shmdt 1 0x10000, .shmget ⟨0, 0⟩ 7 4096 0o1600 true]

theorem run_accounting_shared : ∃ s, Machine.run step boot shared = some s ∧
    (s.ids.objs 1 = none ∧ s.ids.keys 7 = some 2) ∧ Sound s :=
  Machine.exists_run_and (by decide +kernel) fun _ hrun ↦ run_accounting (by decide +kernel) hrun

/-- A segment is removed while it is attached, its key is used again, and then it is detached. -/
def reusedKey : List Event :=
  [.shmget ⟨0, 0⟩ 7 4096 0o1600 true, .shmat 1 ⟨0, 0⟩ 1 0 0 (some 0x10000) true 1, .rmid ⟨0, 0⟩ 1,
   .shmget ⟨0, 0⟩ 7 4096 0o1600 true, .shmdt 1 0x10000]

/-- **The last detach of a removed segment unbinds the key of another.** -/
theorem reused_key_unbound : ∃ s, Machine.run step boot reusedKey = some s ∧ ¬ Sound s := by
  refine Machine.exists_run_of (fun s ↦ s.ids.keys 7 = none ∧ s.removed 2 = false ∧
    (s.ids.objs 2).any (fun seg ↦ seg.perm.key = 7) = true) (by decide +kernel)
    fun s _ ⟨hkey, hkept, hseg⟩ ↦ ?_
  intro hsound
  obtain ⟨seg, hid, hseg⟩ := (any_eq_true _ _).1 hseg
  have hnamed := (hsound.keys 7 2).2 ⟨by decide, hkept, seg, hid, of_decide_eq_true hseg⟩
  rw [hkey] at hnamed
  cases hnamed

end OxideBSD.Shm
