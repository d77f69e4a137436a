import OxideBSD.Kern.Uio
import OxideBSD.Lib.Machine

/-!
# Shared file offsets

`transfer` of `sys/fs/fd.rs` over a vnode file (`vn_read`, `vn_write` of `sys/kern/vfs_vnops.rs`):
descriptors made by `dup` or `fork` share one description and its offset.  A call without an offset
of its own reads the description's offset, then waits for the file-system lock and transfers, and
stores the offset back afterwards; the three are separate events of the machine below.

* `readUio`, `writeUio` are the block walks of the transfer.
* `Follows` is what the shared offset is for: the ranges that calls without an offset of their own
  transferred follow one another, and the offset is at the end of the last.
* `run_follows`: that holds of every run in which no such call starts while another is under way, no
  copy faults after the call has moved something, and no write appends (`Alone`).
* `overlapping_not_follows`: it does not hold in general; a call that reads the offset while another
  is waiting for the lock transfers the same range again.
-/

set_option autoImplicit false

namespace OxideBSD

open List

/-! ## What one inode can address -/

namespace Oxfs

abbrev blockSize : Nat := 4096
abbrev directBlocks : Nat := 12
@[irreducible] def ptrsPerIndirect : Nat := 1024
@[irreducible] def ptrsPerDoubleIndirect : Nat := 1048576
/-- The blocks one inode can address: direct, single- and double-indirect. -/
@[irreducible] def maxFileBlocks : Nat := directBlocks + ptrsPerIndirect + ptrsPerDoubleIndirect

end Oxfs

namespace Transfer

open Kern Kern.Uio
open Oxfs (blockSize maxFileBlocks)

/-! ## Vnode files -/

def ENOSPC : Nat := 28
def EFBIG : Nat := 27
def EISDIR : Nat := 21

/-- `-errno`. -/
def failure (errno : Nat) : Int := -(errno : Int)

/-- What a transfer finds while it has the file-system lock: whether the vnode is a directory or a
regular file, the file's size and bytes, which of its blocks are there, which can be had, and
whether it can be extended to where a write starts. -/
structure File where
  isDir : Bool
  isReg : Bool
  size : UInt64
  byte : Nat → UInt8
  present : Nat → Bool
  room : Nat → Bool
  room_lt : ∀ i, room i = true → i < maxFileBlocks
  extensible : Bool

/-- The block walk `read_inode_with` and `write_inode_with` have in common: from `position` on, `n`
bytes, of which `written` are moved, one block's share at a time.  A block that is not `ready` stops
it with `missing`, a failed move with its error. -/
def walk (ready : Nat → Bool) (missing : Option Nat)
    (move : Nat → Nat → Uio → Option Nat × Uio) (position n : Nat) :
    Nat → Nat → Uio → Nat × Option Nat × Uio
  | 0, written, u => (written, none, u)
  | fuel + 1, written, u =>
    if n ≤ written then (written, none, u)
    else
      let off := position + written
      if ready (off / blockSize) then
        let chunk := min (n - written) (blockSize - off % blockSize)
        match move off chunk u with
        | (some e, u') => (written, some e, u')
        | (none, u') => walk ready missing move position n fuel (written + chunk) u'
      else (written, missing, u)

/-- `uio_out` of a block's share. -/
def moveOut (mem : Memory) (f : File) (off chunk : Nat) (u : Uio) : Option Nat × Uio :=
  match u.uiomoveOut mem ((List.range chunk).map fun i ↦ f.byte (off + i)) with
  | (.error e, u') => (some e, u')
  | (.ok _, u') => (none, u')

/-- `uio_in` of a block's share. -/
def moveIn (mem : Memory) (_off chunk : Nat) (u : Uio) : Option Nat × Uio :=
  match u.uiomoveIn mem chunk with
  | (.error e, u') => (some e, u')
  | (.ok _, u') => (none, u')

/-- `read_inode_uio`: reads stop at the end of the file or at a missing block. -/
def readUio (mem : Memory) (f : File) (u : Uio) : Except Nat Nat × Uio :=
  let position := u.offset.toNat
  if f.size.toNat ≤ position then (.ok 0, u)
  else
    let n := min u.resid (f.size.toNat - position)
    match walk f.present none (moveOut mem f) position n n 0 u with
    | (_, some e, u') => (.error e, u')
    | (written, none, u') => (.ok written, u')

/-- `write_inode_uio`: an error is one only if nothing was written. -/
def writeUio (mem : Memory) (f : File) (u : Uio) : Except Nat Nat × Uio :=
  let position := u.offset.toNat
  if f.size.toNat < position ∧ ¬ f.extensible then (.error ENOSPC, u)
  else
    match walk f.room (some ENOSPC) (moveIn mem) position u.resid u.resid 0 u with
    | (0, some e, u') => (.error e, u')
    | (written, _, u') => (.ok written, u')

/-- A transfer's return value. -/
def resultOf : Except Nat Nat × Uio → Int × Uio
  | (.ok n, u) => (n, u)
  | (.error e, u) => (failure e, u)

def vnRead (mem : Memory) (f : File) (u : Uio) : Int × Uio :=
  if f.isDir then (failure EISDIR, u) else resultOf (readUio mem f u)

/-- `check_fsize`: how much of a write of `len` bytes at `offset` the limit allows. -/
def checkFsize (limit offset len : Nat) : Except Nat Nat :=
  if len = 0 ∨ min (offset + len) (2 ^ 64 - 1) ≤ limit then .ok len
  else if limit ≤ offset then .error EFBIG
  else .ok (limit - offset)

/-- Shortens the transfer to at most `max` more bytes. -/
def limitResid (u : Uio) (max : Nat) : Uio := { u with resid := min u.resid max }

def vopWrite (mem : Memory) (f : File) (append : Bool) (u : Uio) : Int × Uio :=
  let u := if append then u.setOffset f.size else u
  if u.resid = 0 then (0, u) else resultOf (writeUio mem f u)

def vnWrite (mem : Memory) (f : File) (limit : Nat) (append : Bool) (u : Uio) : Int × Uio :=
  if f.isReg then
    match checkFsize limit (if append then f.size.toNat else u.offset.toNat) u.resid with
    | .ok n => vopWrite mem f append (limitResid u n)
    | .error e => (failure e, u)
  else vopWrite mem f append u

/-! ## The machine -/

/-- Which way data moves. -/
inductive UioRw
  | read
  | write
  deriving DecidableEq, Repr

/-- Where a call is.  `kept` says that it uses the description's offset. -/
inductive Call
  /-- It has its offset and waits for the file-system lock. -/
  | waiting (kept : Bool) (rw : UioRw) (u : Uio)
  /-- It has transferred and is about to store the offset. -/
  | transferred (kept : Bool) (u : Uio) (result : Int)
  | returned (result : Int)
  deriving DecidableEq, Repr

/-- A description, the calls made on it in the order they started, and the record of the ranges that
calls without an offset of their own transferred, as start and length. -/
structure St where
  offset : UInt64
  calls : List Call
  ranges : List (Nat × Nat)

/-- One thread's code from one point where others may run to the next. -/
inductive Event
  /-- A `read` or `write` over the segments `iov`, at `own` if it gives an offset (`FOF_OFFSET`); the
  access mode must allow it. -/
  | start (rw : UioRw) (iov : List IoSeg) (seg : UioSeg) (own : Option UInt64) (allowed : Bool)
  /-- The transfer of a call, under the file-system lock. -/
  | transfer (id : Nat) (mem : Memory) (f : File) (limit : Nat) (append : Bool)
  /-- The offset stored back. -/
  | store (id : Nat)

/-- `transfer` up to the lock. -/
def begin (offset : UInt64) (rw : UioRw) (iov : List IoSeg) (seg : UioSeg) (own : Option UInt64)
    (allowed : Bool) : Call :=
  match Uio.new iov seg (own.getD 0) with
  | .error e => .returned (failure e)
  | .ok u =>
    if ¬ allowed then .returned (failure EBADF)
    else if u.resid = 0 then .returned 0
    else
      match own with
      | some _ => .waiting false rw u
      | none => .waiting true rw (u.setOffset offset)

/-- The operation of a call. -/
def operate (mem : Memory) (f : File) (limit : Nat) (append : Bool) (rw : UioRw) (u : Uio) :
    Int × Uio :=
  match rw with
  | .read => vnRead mem f u
  | .write => vnWrite mem f limit append u

/-- Where in the file a call's range starts. -/
def position (f : File) (append : Bool) (rw : UioRw) (u : Uio) : Nat :=
  match rw, append with
  | .write, true => f.size.toNat
  | _, _ => u.offset.toNat

namespace St

/-- What an event does.  `O_APPEND` applies to a write without an offset of its own. -/
def step (s : St) : Event → Option St
  | .start rw iov seg own allowed =>
    some { s with calls := s.calls ++ [begin s.offset rw iov seg own allowed] }
  | .transfer id mem f limit append =>
    match s.calls[id]? with
    | some (.waiting kept rw u) =>
      let r := operate mem f limit (append && kept) rw u
      some { s with
        calls := s.calls.set id (.transferred kept r.2 r.1)
        ranges :=
          if kept ∧ 0 ≤ r.1 then s.ranges ++ [(position f append rw u, r.1.toNat)]
          else s.ranges }
    | _ => none
  | .store id =>
    match s.calls[id]? with
    | some (.transferred kept u result) =>
      some { s with
        offset := if kept then u.offset else s.offset
        calls := s.calls.set id (.returned result) }
    | _ => none

/-- A description at `offset`, with no call under way. -/
def init (offset : UInt64) : St := ⟨offset, [], []⟩

end St

/-! ## What the shared offset is for -/

/-- A call that uses the description's offset and has not stored it back. -/
def Call.Kept : Call → Prop
  | .waiting kept _ _ => kept = true
  | .transferred kept _ _ => kept = true
  | .returned _ => False

instance : DecidablePred Call.Kept
  | .waiting kept _ _ => inferInstanceAs (Decidable (kept = true))
  | .transferred kept _ _ => inferInstanceAs (Decidable (kept = true))
  | .returned _ => inferInstanceAs (Decidable False)

/-- Ranges that follow one another from `o` on. -/
def Consecutive : Nat → List (Nat × Nat) → Prop
  | _, [] => True
  | o, r :: rs => r.1 = o ∧ Consecutive (o + r.2) rs

/-- The bytes moved in all. -/
def total (rs : List (Nat × Nat)) : Nat := (rs.map Prod.snd).sum

namespace St

/-- From the offset `o` on, the ranges transferred are consecutive, so disjoint, and when no call is
under way the offset is at their end. -/
structure Follows (o : UInt64) (s : St) : Prop where
  consecutive : Consecutive o.toNat s.ranges
  disjoint : s.ranges.Pairwise fun r r' ↦ r.1 + r.2 ≤ r'.1
  offset : (∀ c ∈ s.calls, ¬ c.Kept) → s.offset.toNat = o.toNat + total s.ranges

/-- The bytes a call may move: a read those up to the end of the file, a write those the limit
allows. -/
def wanted (f : File) (limit : Nat) (u : Uio) : UioRw → Nat
  | .read => min u.resid (f.size.toNat - u.offset.toNat)
  | .write =>
    if f.isReg then
      match checkFsize limit u.offset.toNat u.resid with
      | .ok n => min u.resid n
      | .error _ => 0
    else u.resid

/-- The addresses a call's copies write, reading, or read, writing. -/
def mapped (mem : Memory) : UioRw → Nat → Bool
  | .read => mem.writable
  | .write => mem.readable

/-- A call that uses the description's offset starts only while no other is under way, does not
append, and none of its copies faults, unless the first does at the first byte. -/
def Alone (s : St) : Event → Prop
  | .start _ _ _ own _ => own = none → ∀ c ∈ s.calls, ¬ c.Kept
  | .transfer id mem f limit append =>
    match s.calls[id]? with
    | some (.waiting true rw u) =>
      (rw = .write → append = false) ∧
        (u.Clear (mapped mem rw) (wanted f limit u rw) ∨ ¬ u.Clear (mapped mem rw) 1)
    | _ => True
  | .store _ => True

instance (s : St) (e : Event) : Decidable (s.Alone e) := by
  cases e with
  | start => exact inferInstanceAs (Decidable (_ → _))
  | transfer =>
    unfold Alone
    dsimp only
    split <;> infer_instance
  | store => exact isTrue trivial

end St

/-! ## One transfer -/

/-- What a call's move of a block's share does: all of it, or nothing if the first byte faults. -/
structure Moves (mapped : Nat → Bool) (move : Nat → Nat → Uio → Option Nat × Uio) : Prop where
  clear : ∀ off chunk {u}, u.WF → chunk ≤ u.resid → u.Clear mapped chunk →
    ∃ u', move off chunk u = (none, u') ∧ u.Advances u' chunk
  fault : ∀ off chunk {u}, u.WF → chunk ≤ u.resid → 0 < chunk → ¬ u.Clear mapped 1 →
    ∃ u', move off chunk u = (some EFAULT, u') ∧ u.Advances u' 0

variable {u : Uio} {o id : Nat} {rs : List (Nat × Nat)} {s : St} {c c' : Call}

/-- A move that faults at the first byte has moved nothing. -/
theorem ends_of_fault {mapped : Nat → Bool} {bytes : List UInt8} {r : Except Nat (List UInt8) × Uio}
    (h : Uio.Ends mapped u bytes r) (hpos : 0 < bytes.length) (hfault : ¬ u.Clear mapped 1) :
    ∃ u', r = (.error EFAULT, u') ∧ u.Advances u' 0 := by
  cases h with
  | ok hclear hadv => exact absurd (hclear.mono hpos) hfault
  | @fault u' k hclear hk hpassed hadv =>
    obtain rfl : k = 0 := by
      by_contra hne
      exact hfault (hpassed.mono (Nat.one_le_iff_ne_zero.2 hne))
    exact ⟨u', rfl, hadv⟩

theorem ends_of_clear {mapped : Nat → Bool} {bytes : List UInt8} {r : Except Nat (List UInt8) × Uio}
    (h : Uio.Ends mapped u bytes r) (hclear : u.Clear mapped bytes.length) :
    ∃ u', r = (.ok bytes, u') ∧ u.Advances u' bytes.length := by
  cases h with
  | ok _ hadv => exact ⟨_, rfl, hadv⟩
  | fault hnot => exact absurd hclear hnot

theorem moves_moveOut (mem : Memory) (f : File) : Moves mem.writable (moveOut mem f) where
  clear off chunk u h hle hclear := by
    have hspec := uiomoveOut_spec mem ((range chunk).map fun i ↦ f.byte (off + i)) h (by simpa)
    obtain ⟨u', hr, hadv⟩ := ends_of_clear hspec (by simpa using hclear)
    exact ⟨u', by rw [moveOut, hr], by simpa using hadv⟩
  fault off chunk u h hle hpos hfault := by
    have hspec := uiomoveOut_spec mem ((range chunk).map fun i ↦ f.byte (off + i)) h (by simpa)
    obtain ⟨u', hr, hadv⟩ := ends_of_fault hspec (by simpa using hpos) hfault
    exact ⟨u', by rw [moveOut, hr], hadv⟩

theorem moves_moveIn (mem : Memory) : Moves mem.readable (moveIn mem) where
  clear off chunk u h hle hclear := by
    have hlen := length_bytes mem h hle
    obtain ⟨u', hr, hadv⟩ := ends_of_clear (uiomoveIn_spec mem chunk h hle) (by rwa [hlen])
    exact ⟨u', by rw [moveIn, hr], by rwa [hlen] at hadv⟩
  fault off chunk u h hle hpos hfault := by
    have hlen := length_bytes mem h hle
    obtain ⟨u', hr, hadv⟩ := ends_of_fault (uiomoveIn_spec mem chunk h hle) (by rwa [hlen]) hfault
    exact ⟨u', by rw [moveIn, hr], hadv⟩

section Walk

variable {mapped : Nat → Bool} {move : Nat → Nat → Uio → Option Nat × Uio} (ready : Nat → Bool)
  (missing : Option Nat) (position n : Nat)

/-- A walk none of whose copies faults moves the transfer on by what it counts, up to the end of a
block that was ready. -/
theorem walk_of_clear (fuel written : Nat) (hmove : Moves mapped move) {u : Uio} (h : u.WF)
    (hresid : n - written ≤ u.resid) (hfuel : n - written ≤ fuel)
    (hclear : u.Clear mapped (n - written)) :
    ∃ m e u', walk ready missing move position n fuel written u = (written + m, e, u') ∧
      u.Advances u' m ∧ m ≤ n - written ∧ (e = none ∨ e = missing) ∧
      (m = 0 ∨ ∃ i, ready i = true ∧ position + written + m ≤ (i + 1) * blockSize) := by
  induction fuel generalizing written u with
  | zero => exact ⟨0, none, u, rfl, .refl h, Nat.zero_le _, Or.inl rfl, Or.inl rfl⟩
  | succ fuel ih =>
    rw [walk]
    split_ifs with hdone
    · exact ⟨0, none, u, rfl, .refl h, Nat.zero_le _, Or.inl rfl, Or.inl rfl⟩
    dsimp only
    split_ifs with hready
    · obtain ⟨chunk, hchunk⟩ : ∃ c, c = min (n - written)
          (blockSize - (position + written) % blockSize) := ⟨_, rfl⟩
      have hblock : (position + written) % blockSize < blockSize := Nat.mod_lt _ (by decide)
      have hsplit : n - written = chunk + (n - (written + chunk)) := by omega
      rw [hsplit] at hclear
      rw [← hchunk]
      obtain ⟨u', hmoved, hadv⟩ := hmove.clear (position + written) chunk h (by omega)
        (hclear.mono (by omega))
      have hresid' := hadv.resid
      obtain ⟨m, e, u'', hwalk, hadv', hm, he, hend⟩ :=
        ih (written + chunk) hadv.wf (by omega) (by omega) (hadv.clear_iff.1 hclear).2
      refine ⟨chunk + m, e, u'', ?_, hadv.trans hadv', by omega, he, Or.inr ?_⟩
      · rw [hmoved]
        dsimp only
        rw [hwalk, Nat.add_assoc]
      · rcases hend with rfl | ⟨i, hi, hle⟩
        · refine ⟨_, hready, ?_⟩
          have := Nat.div_add_mod (position + written) blockSize
          rw [Nat.add_mul, Nat.mul_comm (_ / _)]
          omega
        · exact ⟨i, hi, by omega⟩
    · exact ⟨0, missing, u, rfl, .refl h, Nat.zero_le _, Or.inr rfl, Or.inl rfl⟩

/-- A walk whose first byte faults counts nothing and leaves the transfer where it was. -/
theorem walk_of_fault (fuel : Nat) (hmove : Moves mapped move) {u : Uio} (h : u.WF)
    (hresid : n ≤ u.resid) (hfault : ¬ u.Clear mapped 1) :
    ∃ e u', walk ready missing move position n fuel 0 u = (0, e, u') ∧ u.Advances u' 0 := by
  cases fuel with
  | zero => exact ⟨none, u, rfl, .refl h⟩
  | succ fuel =>
    rw [walk]
    split_ifs with hdone
    · exact ⟨none, u, rfl, .refl h⟩
    dsimp only
    split_ifs with hready
    · have hblock : (position + 0) % blockSize < blockSize := Nat.mod_lt _ (by decide)
      obtain ⟨u', hmoved, hadv⟩ := hmove.fault (position + 0)
        (min (n - 0) (blockSize - (position + 0) % blockSize)) h (by omega) (by omega) hfault
      rw [hmoved]
      exact ⟨_, u', rfl, hadv⟩
    · exact ⟨missing, u, rfl, .refl h⟩

end Walk

/-- The offset `o'` after a call at the offset `o` that returned `r`: past what was moved. -/
def Tells (o o' : UInt64) (r : Int) : Prop := 0 ≤ r ∧ o'.toNat = o.toNat + r.toNat ∨ r < 0 ∧ o' = o

theorem Tells.refl (o : UInt64) {r : Int} (h : r ≤ 0) : Tells o o r := by
  rcases h.lt_or_eq with hneg | rfl
  · exact Or.inr ⟨hneg, rfl⟩
  · exact Or.inl ⟨le_rfl, rfl⟩

theorem Tells.failure (o : UInt64) (e : Nat) : Tells o o (failure e) :=
  .refl o (by rw [Transfer.failure]; omega)

theorem Advances.tells {u' : Uio} {m : Nat} (h : u.Advances u' m)
    (hlt : u.offset.toNat + m < 2 ^ 64) : Tells u.offset u'.offset m := by
  refine Or.inl ⟨Int.natCast_nonneg m, ?_⟩
  rw [h.offset, UInt64.toNat_add, UInt64.toNat_ofNat', Nat.add_mod_mod, Nat.mod_eq_of_lt hlt,
    Int.toNat_natCast]

theorem Advances.offset_zero {u' : Uio} (h : u.Advances u' 0) : u'.offset = u.offset := by
  rw [h.offset]
  exact UInt64.add_zero _

theorem readUio_tells (mem : Memory) (f : File) (h : u.WF)
    (hq : u.Clear mem.writable (min u.resid (f.size.toNat - u.offset.toNat)) ∨
      ¬ u.Clear mem.writable 1) :
    Tells u.offset (resultOf (readUio mem f u)).2.offset (resultOf (readUio mem f u)).1 := by
  rw [readUio]
  dsimp only
  split_ifs with hend
  · exact .refl _ le_rfl
  have hsize := f.size.toNat_lt
  obtain ⟨n, hn⟩ : ∃ n, n = min u.resid (f.size.toNat - u.offset.toNat) := ⟨_, rfl⟩
  rw [← hn] at hq ⊢
  rcases hq with hclear | hfault
  · obtain ⟨m, e, u', hwalk, hadv, hm, he, -⟩ := walk_of_clear f.present none u.offset.toNat n n 0
      (moves_moveOut mem f) h (by omega) (Nat.sub_le _ _) hclear
    obtain rfl : e = none := he.elim id id
    rw [hwalk, Nat.zero_add]
    exact Advances.tells hadv (by omega)
  · obtain ⟨e, u', hwalk, hadv⟩ := walk_of_fault f.present none u.offset.toNat n n
      (moves_moveOut mem f) h (by omega) hfault
    rw [hwalk]
    cases e with
    | none => exact Advances.offset_zero hadv ▸ .refl _ le_rfl
    | some e => exact Advances.offset_zero hadv ▸ .failure _ _

theorem maxFileBlocks_mul_blockSize_lt : maxFileBlocks * blockSize < 2 ^ 64 := by
  rw [maxFileBlocks, Oxfs.ptrsPerIndirect, Oxfs.ptrsPerDoubleIndirect]
  norm_num

theorem writeUio_tells (mem : Memory) (f : File) (h : u.WF)
    (hq : u.Clear mem.readable u.resid ∨ ¬ u.Clear mem.readable 1) :
    Tells u.offset (resultOf (writeUio mem f u)).2.offset (resultOf (writeUio mem f u)).1 := by
  rw [writeUio]
  split_ifs with hfull
  · exact .failure _ _
  rcases hq with hclear | hfault
  · obtain ⟨m, e, u', hwalk, hadv, hm, -, hend⟩ := walk_of_clear f.room (some ENOSPC)
      u.offset.toNat u.resid u.resid 0 (moves_moveIn mem) h (Nat.sub_le _ _) (Nat.sub_le _ _) hclear
    have hlt : u.offset.toNat + m < 2 ^ 64 := by
      rcases hend with rfl | ⟨i, hi, hle⟩
      · exact u.offset.toNat_lt
      · refine (hle.trans ?_).trans_lt maxFileBlocks_mul_blockSize_lt
        exact Nat.mul_le_mul_right _ (f.room_lt i hi)
    rw [hwalk, Nat.zero_add]
    match m, e with
    | 0, some e => exact Advances.offset_zero hadv ▸ .failure _ _
    | 0, none => exact Advances.tells hadv hlt
    | m + 1, e => exact Advances.tells hadv hlt
  · obtain ⟨e, u', hwalk, hadv⟩ := walk_of_fault f.room (some ENOSPC) u.offset.toNat u.resid u.resid
      (moves_moveIn mem) h le_rfl hfault
    rw [hwalk]
    cases e with
    | none => exact Advances.offset_zero hadv ▸ .refl _ le_rfl
    | some e => exact Advances.offset_zero hadv ▸ .failure _ _

theorem vopWrite_tells (mem : Memory) (f : File) (h : u.WF)
    (hq : u.Clear mem.readable u.resid ∨ ¬ u.Clear mem.readable 1) :
    Tells u.offset (vopWrite mem f false u).2.offset (vopWrite mem f false u).1 := by
  rw [vopWrite, if_neg Bool.false_ne_true]
  split_ifs with hzero
  · exact .refl _ le_rfl
  · exact writeUio_tells mem f h hq

/-- A call that meets the condition of `St.Alone` leaves its transfer past what it reports. -/
theorem operate_tells (mem : Memory) (f : File) (limit : Nat) (rw : UioRw) (h : u.WF)
    (hq : u.Clear (St.mapped mem rw) (St.wanted f limit u rw) ∨ ¬ u.Clear (St.mapped mem rw) 1) :
    Tells u.offset (operate mem f limit false rw u).2.offset (operate mem f limit false rw u).1 := by
  cases rw with
  | read =>
    rw [operate, vnRead]
    split_ifs with hdir
    · exact .failure _ _
    · exact readUio_tells mem f h hq
  | write =>
    rw [operate, vnWrite, if_neg Bool.false_ne_true]
    rw [St.wanted] at hq
    split_ifs with hreg
    · rw [if_pos hreg] at hq
      cases hlimit : checkFsize limit u.offset.toNat u.resid with
      | error e => exact .failure _ _
      | ok n =>
        rw [hlimit] at hq
        have hwf : (limitResid u n).WF := ⟨h.segOff_le, (Nat.min_le_left _ _).trans h.resid_le⟩
        exact vopWrite_tells mem f hwf hq
    · rw [if_neg hreg] at hq
      exact vopWrite_tells mem f h hq

/-! ## Whole runs -/

theorem Consecutive.append (h : Consecutive o rs) {a n : Nat} (ha : a = o + total rs) :
    Consecutive o (rs ++ [(a, n)]) := by
  induction rs generalizing o with
  | nil => exact ⟨ha, trivial⟩
  | cons r rs ih =>
    refine ⟨h.1, ih h.2 ?_⟩
    rw [ha, total, total, map_cons, sum_cons, Nat.add_assoc]

theorem Consecutive.le (h : Consecutive o rs) : ∀ r ∈ rs, o ≤ r.1 := by
  induction rs generalizing o with
  | nil => exact fun r hr ↦ absurd hr not_mem_nil
  | cons r rs ih =>
    intro r' hr'
    rcases mem_cons.1 hr' with rfl | hr'
    · exact h.1.ge
    · exact (Nat.le_add_right _ _).trans (ih h.2 r' hr')

theorem Consecutive.pairwise (h : Consecutive o rs) : rs.Pairwise fun r r' ↦ r.1 + r.2 ≤ r'.1 := by
  induction rs generalizing o with
  | nil => exact .nil
  | cons r rs ih =>
    refine .cons (fun r' hr' ↦ ?_) (ih h.2)
    rw [h.1]
    exact h.2.le r' hr'

theorem total_append (rs : List (Nat × Nat)) (r : Nat × Nat) :
    total (rs ++ [r]) = total rs + r.2 := by
  simp [total]

/-- The offset a call under way goes by is at the end of the ranges transferred so far; one that has
yet to transfer still agrees with the description. -/
def Goes (o : Nat) (s : St) : Call → Prop
  | .waiting kept _ u =>
    u.WF ∧ (kept = true → u.offset = s.offset ∧ s.offset.toNat = o + total s.ranges)
  | .transferred kept u _ => kept = true → u.offset.toNat = o + total s.ranges
  | .returned _ => True

/-- The invariant of the machine. -/
structure Inv (o : UInt64) (s : St) : Prop where
  ranges : Consecutive o.toNat s.ranges
  calls : ∀ (id : Nat) (c : Call), s.calls[id]? = some c → Goes o.toNat s c
  alone : ∀ (id id' : Nat) (c c' : Call), s.calls[id]? = some c → s.calls[id']? = some c' → c.Kept → c'.Kept →
    id = id'
  idle : (∀ (id : Nat) (c : Call), s.calls[id]? = some c → ¬ c.Kept) →
    s.offset.toNat = o.toNat + total s.ranges

theorem init_inv (o : UInt64) : Inv o (St.init o) where
  ranges := trivial
  calls id c h := by simp [St.init] at h
  alone id id' c c' h := by simp [St.init] at h
  idle _ := rfl

theorem Inv.follows {o : UInt64} (h : Inv o s) : s.Follows o :=
  ⟨h.ranges, h.ranges.pairwise, fun hidle ↦
    h.idle fun _ c hc ↦ hidle c (mem_of_getElem? hc)⟩

/-- A call that starts has its offset from the description, unless it brought its own. -/
theorem begin_goes (rw : UioRw) (iov : List IoSeg) (seg : UioSeg) {own : Option UInt64}
    (allowed : Bool) (hidle : own = none → s.offset.toNat = o + total s.ranges) :
    Goes o s (begin s.offset rw iov seg own allowed) ∧
      ((begin s.offset rw iov seg own allowed).Kept → own = none) := by
  rw [begin]
  split
  · exact ⟨trivial, nofun⟩
  · rename_i u hnew
    split_ifs with hallowed hzero
    · exact ⟨trivial, nofun⟩
    · cases own with
      | some offset => exact ⟨⟨new_wf hnew, nofun⟩, nofun⟩
      | none => exact ⟨⟨setOffset_wf (new_wf hnew) _, fun _ ↦ ⟨rfl, hidle rfl⟩⟩, fun _ ↦ rfl⟩
    · exact ⟨trivial, nofun⟩

theorem getElem?_append_cases {calls : List Call} (h : (calls ++ [c])[id]? = some c') :
    id = calls.length ∧ c' = c ∨ calls[id]? = some c' := by
  rw [getElem?_append] at h
  split_ifs at h with hlt
  · exact Or.inr h
  · have hid : id - calls.length = 0 := by
      by_contra hne
      rw [getElem?_eq_none (by simp; omega)] at h
      cases h
    rw [hid] at h
    exact Or.inl ⟨by omega, (Option.some.inj h).symm⟩

/-- What an event leaves of the call `id`, all others being as they were. -/
theorem getElem?_set_cases {calls : List Call} {id' : Nat} (h : (calls.set id c)[id']? = some c') :
    id' = id ∧ c' = c ∨ id' ≠ id ∧ calls[id']? = some c' := by
  rw [getElem?_set] at h
  split_ifs at h with hid hlt
  · exact Or.inl ⟨hid.symm, (Option.some.inj h).symm⟩
  · exact Or.inr ⟨Ne.symm hid, h⟩

theorem Inv.start {o : UInt64} (h : Inv o s) (hc : Goes o.toNat s c)
    (halone : c.Kept → ∀ c' ∈ s.calls, ¬ c'.Kept) : Inv o { s with calls := s.calls ++ [c] } where
  ranges := h.ranges
  calls id c' hc' := by
    rcases getElem?_append_cases hc' with ⟨-, rfl⟩ | hold
    · exact hc
    · exact h.calls id c' hold
  alone id id' c₁ c₂ h₁ h₂ hk₁ hk₂ := by
    rcases getElem?_append_cases h₁ with ⟨hid, rfl⟩ | hold
    · rcases getElem?_append_cases h₂ with ⟨hid', -⟩ | hold'
      · exact hid.trans hid'.symm
      · exact absurd hk₂ (halone hk₁ c₂ (mem_of_getElem? hold'))
    · rcases getElem?_append_cases h₂ with ⟨-, rfl⟩ | hold'
      · exact absurd hk₁ (halone hk₂ c₁ (mem_of_getElem? hold))
      · exact h.alone id id' c₁ c₂ hold hold' hk₁ hk₂
  idle hidle := h.idle fun id c' hc' ↦ hidle id c' (by
    rw [getElem?_append_left (List.getElem?_eq_some_iff.1 hc').1]
    exact hc')

/-- An event of a call that does not use the description's offset changes nothing for the rest. -/
theorem Inv.apart {o : UInt64} (h : Inv o s) (hcall : s.calls[id]? = some c) (hc : ¬ c.Kept)
    (hc' : ¬ c'.Kept) (hgoes : Goes o.toNat s c') :
    Inv o { s with calls := s.calls.set id c' } where
  ranges := h.ranges
  calls id₁ c₁ h₁ := by
    rcases getElem?_set_cases h₁ with ⟨-, rfl⟩ | ⟨-, hold⟩
    · exact hgoes
    · exact h.calls id₁ c₁ hold
  alone id₁ id₂ c₁ c₂ h₁ h₂ hk₁ hk₂ := by
    rcases getElem?_set_cases h₁ with ⟨-, rfl⟩ | ⟨-, hold₁⟩
    · exact absurd hk₁ hc'
    · rcases getElem?_set_cases h₂ with ⟨-, rfl⟩ | ⟨-, hold₂⟩
      · exact absurd hk₂ hc'
      · exact h.alone id₁ id₂ c₁ c₂ hold₁ hold₂ hk₁ hk₂
  idle hidle := h.idle fun id₁ c₁ h₁ ↦ by
    by_cases hid : id₁ = id
    · subst hid
      rw [hcall] at h₁
      rwa [← Option.some.inj h₁]
    · exact hidle id₁ c₁ (by rwa [getElem?_set_ne (Ne.symm hid)])

/-- An event of the one call that uses the description's offset. -/
theorem Inv.own {o offset : UInt64} (h : Inv o s) {ranges : List (Nat × Nat)}
    (hcall : s.calls[id]? = some c) (hc : c.Kept) (hranges : Consecutive o.toNat ranges)
    (hgoes : Goes o.toNat ⟨offset, s.calls.set id c', ranges⟩ c')
    (hidle : ¬ c'.Kept → offset.toNat = o.toNat + total ranges) :
    Inv o ⟨offset, s.calls.set id c', ranges⟩ := by
  -- every other call has an offset of its own
  have hother : ∀ id₁ c₁, id₁ ≠ id → s.calls[id₁]? = some c₁ → ¬ c₁.Kept := fun id₁ c₁ hne h₁ hk ↦
    hne (h.alone id₁ id c₁ c h₁ hcall hk hc)
  refine ⟨hranges, fun id₁ c₁ h₁ ↦ ?_, fun id₁ id₂ c₁ c₂ h₁ h₂ hk₁ hk₂ ↦ ?_, fun hnone ↦ ?_⟩
  · rcases getElem?_set_cases h₁ with ⟨-, rfl⟩ | ⟨hne, hold⟩
    · exact hgoes
    · have hgoes₁ := h.calls id₁ c₁ hold
      have hkept := hother id₁ c₁ hne hold
      cases c₁ with
      | waiting kept rw u => exact ⟨hgoes₁.1, fun hk ↦ absurd hk hkept⟩
      | transferred kept u r => exact fun hk ↦ absurd hk hkept
      | returned r => trivial
  · rcases getElem?_set_cases h₁ with ⟨rfl, -⟩ | ⟨hne₁, hold₁⟩
    · rcases getElem?_set_cases h₂ with ⟨rfl, -⟩ | ⟨hne₂, hold₂⟩
      · rfl
      · exact absurd hk₂ (hother id₂ c₂ hne₂ hold₂)
    · exact absurd hk₁ (hother id₁ c₁ hne₁ hold₁)
  · refine hidle (hnone id c' ?_)
    exact getElem?_set_self (List.getElem?_eq_some_iff.1 hcall).1

/-- A call that does not append operates at its transfer's offset. -/
theorem operate_of_not_append (mem : Memory) (f : File) (limit : Nat) {append : Bool} {rw : UioRw}
    (u : Uio) (h : rw = .write → append = false) :
    operate mem f limit (append && true) rw u = operate mem f limit false rw u ∧
      position f append rw u = u.offset.toNat := by
  cases rw with
  | read => exact ⟨rfl, rfl⟩
  | write =>
    rw [h rfl]
    exact ⟨rfl, rfl⟩

/-- One step that meets the condition keeps the invariant. -/
theorem step_inv (o : UInt64) (s : St) (e : Event) (s' : St) (halone : s.Alone e) (h : Inv o s)
    (hstep : s.step e = some s') : Inv o s' := by
  cases e with
  | start rw iov seg own allowed =>
    cases hstep
    obtain ⟨hgoes, hkept⟩ := begin_goes rw iov seg allowed fun hown : own = none ↦
      h.idle fun _ c hc ↦ halone hown c (mem_of_getElem? hc)
    exact h.start hgoes fun hk ↦ halone (hkept hk)
  | transfer id mem f limit append =>
    rw [St.step] at hstep
    split at hstep
    case h_2 => cases hstep
    case h_1 kept rw u hcall =>
      cases hstep
      obtain ⟨hwf, hoffset⟩ := h.calls id _ hcall
      cases kept with
      | false => exact h.apart hcall (by simp [Call.Kept]) (by simp [Call.Kept]) nofun
      | true =>
        simp only [St.Alone, hcall] at halone
        obtain ⟨happend, hq⟩ := halone
        obtain ⟨hsame, hend⟩ := hoffset rfl
        obtain ⟨hop, hposition⟩ := operate_of_not_append mem f limit u happend
        rw [hop, hposition]
        rcases operate_tells mem f limit rw hwf hq with ⟨hpos, hto⟩ | ⟨hneg, hto⟩
        · rw [if_pos ⟨rfl, hpos⟩]
          refine h.own hcall rfl (h.ranges.append (hsame ▸ hend)) (fun _ ↦ ?_) (absurd rfl)
          rw [hto, hsame, hend, total_append, Nat.add_assoc]
        · rw [if_neg fun hr ↦ absurd hr.2 (not_le.2 hneg)]
          refine h.own hcall rfl h.ranges (fun _ ↦ ?_) (absurd rfl)
          rw [hto, hsame, hend]
  | store id =>
    rw [St.step] at hstep
    split at hstep
    case h_2 => cases hstep
    case h_1 kept u r hcall =>
      cases hstep
      cases kept with
      | false => exact h.apart hcall (by simp [Call.Kept]) nofun trivial
      | true =>
        have hend := h.calls id _ hcall rfl
        exact h.own hcall rfl h.ranges trivial fun _ ↦ hend

/-- **Shared offsets.**  In every run whose calls without an offset of their own do not overlap, do
not append and do not fault on the way, in every state reached: the ranges they transferred are
disjoint and follow one another from the first offset on, and the offset is past all of them. -/
theorem run_follows {o : UInt64} {es : List Event} {s : St}
    (halone : Machine.Meets St.step St.Alone (St.init o) es)
    (hrun : Machine.run St.step (St.init o) es = some s) : s.Follows o :=
  (Machine.run_inv (step_inv o) (init_inv o) halone hrun).follows

/-- Memory without a hole, and a file of one block. -/
def plainMemory : Memory := ⟨fun _ ↦ true, fun _ ↦ true, fun a ↦ .ofNat a⟩

def oneBlock : File where
  isDir := false
  isReg := true
  size := 4096
  byte i := .ofNat i
  present i := i = 0
  room i := i = 0
  room_lt i hi := by
    rw [of_decide_eq_true hi, maxFileBlocks, Oxfs.directBlocks]
    omega
  extensible := false

/-- A read of three bytes, then one of two with another at an offset of its own in between. -/
def oneByOne : List Event :=
  [.start .read [⟨0x1000, 3⟩] .user none true, .transfer 0 plainMemory oneBlock 0 false, .store 0,
    .start .read [⟨0x1000, 2⟩] .user none true, .start .read [⟨0x2000, 9⟩] .user (some 100) true,
    .transfer 2 plainMemory oneBlock 0 false, .transfer 1 plainMemory oneBlock 0 false, .store 1,
    .store 2]

theorem run_follows_oneByOne : ∃ s, Machine.run St.step (St.init 10) oneByOne = some s ∧
    s.ranges = [(10, 3), (13, 2)] ∧ s.offset = 15 ∧ s.Follows 10 :=
  Machine.exists_run_of (fun s ↦ s.ranges = [(10, 3), (13, 2)] ∧ s.offset = 15)
    (by decide +kernel)
    fun _ hs ⟨hranges, hoffset⟩ ↦ ⟨hranges, hoffset, run_follows (by decide +kernel) hs⟩

/-- Two reads of three bytes; the second reads the offset while the first waits for the lock. -/
def overlapping : List Event :=
  [.start .read [⟨0x1000, 3⟩] .user none true, .start .read [⟨0x2000, 3⟩] .user none true,
    .transfer 0 plainMemory oneBlock 0 false, .store 0,
    .transfer 1 plainMemory oneBlock 0 false, .store 1]

/-- Both read the same range. -/
theorem overlapping_not_follows : ∃ s, Machine.run St.step (St.init 10) overlapping = some s ∧
    s.ranges = [(10, 3), (10, 3)] ∧ s.offset = 13 ∧ ¬ s.Follows 10 := by
  refine Machine.exists_run_of (fun s ↦ s.ranges = [(10, 3), (10, 3)] ∧ s.offset = 13)
    (by decide +kernel) fun s _ ⟨hranges, hoffset⟩ ↦ ?_
  refine ⟨hranges, hoffset, fun h ↦ ?_⟩
  have hdisjoint := h.disjoint
  rw [hranges] at hdisjoint
  exact absurd hdisjoint (by decide)

end Transfer
end OxideBSD
