import Mathlib

/-!
# Data transfer between a backend and the caller's buffers

`sys/kern/subr_uio.rs` and the part of `sys/memory/usercopy.rs` it rests on.  A `Uio` walks over
the caller's segments; `moveRaw` is the loop behind `uiomove_out` and `uiomove_in`, which copies
piece by piece and gives up at the first piece that faults.

The walk is described by one list: `Uio.rest u`, the addresses still ahead, in order.

`moveRaw_moves` says how a move of `len` bytes ends (`Uio.Moves`): when the next `len` addresses are
all accessible exactly those are moved, otherwise the call fails having moved on over some of them
but not all.  Either way the transfer has advanced (`Uio.Advances`) by what was moved.  The backend
asks for no more than `resid` bytes, as all of them do.  `uiomoveOut_spec` and `uiomoveIn_spec` are
the same for the two directions.  `rewind` gives back what a backend did not take (`rewind_resid`).
-/

set_option autoImplicit false

namespace OxideBSD.Kern

open List

/-! ## Error numbers -/

def EINTR : Nat := 4
def EBADF : Nat := 9
def EAGAIN : Nat := 11
def EFAULT : Nat := 14
def EINVAL : Nat := 22
def ESPIPE : Nat := 29
def EPIPE : Nat := 32
def ERESTART : Nat := 512

/-! ## The caller's memory -/

/-- Whose addresses the segments are. -/
inductive UioSeg
  | user
  | kernel
  deriving DecidableEq, Repr

/-- Start of the user range. -/
def vmMinUser : Nat := 0x1000

/-- End of the user range: the end of the canonical lower half. -/
def vmMaxUser : Nat := 0x800000000000

/-- Memory during one stretch of kernel code: which user addresses a copy can read and write
without faulting, and the bytes there. -/
structure Memory where
  readable : Nat → Bool
  writable : Nat → Bool
  byte : Nat → UInt8

/-- The address is in the user range (`check_range`) and mapped; a kernel segment never faults. -/
def Accessible (mapped : Nat → Bool) (seg : UioSeg) (a : Nat) : Prop :=
  seg = .kernel ∨ vmMinUser ≤ a ∧ a < vmMaxUser ∧ mapped a = true

instance (mapped : Nat → Bool) (seg : UioSeg) (a : Nat) : Decidable (Accessible mapped seg a) :=
  inferInstanceAs (Decidable (_ ∨ _))

/-- The addresses of the `n` bytes from `addr` on. -/
def addrs (addr n : Nat) : List Nat := (List.range n).map fun i ↦ (addr + i) % 2 ^ 64

/-- Whether `copyin` or `copyout` of `n` bytes at `addr` succeeds: `check_range`, then no page of
the range faults. -/
def copyOk (mapped : Nat → Bool) (seg : UioSeg) (addr n : Nat) : Bool :=
  match seg with
  | .kernel => true
  | .user => decide (vmMinUser ≤ addr ∧ addr + n ≤ vmMaxUser) &&
      (List.range n).all fun i ↦ mapped (addr + i)

@[simp] theorem length_addrs (addr n : Nat) : (addrs addr n).length = n := by
  rw [addrs, length_map, length_range]

theorem addrs_mod (addr n : Nat) : addrs (addr % 2 ^ 64) n = addrs addr n := by
  simp only [addrs, Nat.mod_add_mod]

theorem addrs_drop (addr n k : Nat) : (addrs addr n).drop k = addrs (addr + k) (n - k) := by
  refine ext_getElem (by simp) fun i _ _ ↦ ?_
  simp only [addrs, getElem_drop, getElem_map, getElem_range, Nat.add_assoc]

theorem addrs_take (addr : Nat) {n k : Nat} (h : k ≤ n) : (addrs addr n).take k = addrs addr k := by
  rw [addrs, ← map_take, take_range, Nat.min_eq_left h, addrs]

/-- A copy succeeds exactly when every address it touches is accessible. -/
theorem copyOk_iff {mapped : Nat → Bool} {seg : UioSeg} {addr n : Nat} (haddr : addr < 2 ^ 64)
    (hn : 0 < n) :
    copyOk mapped seg addr n = true ↔ ∀ a ∈ addrs addr n, Accessible mapped seg a := by
  cases seg with
  | kernel => exact iff_of_true rfl fun a _ ↦ Or.inl rfl
  | user =>
    simp only [copyOk, addrs, Bool.and_eq_true, decide_eq_true_eq, all_eq_true, mem_range,
      mem_map, forall_exists_index, and_imp, forall_apply_eq_imp_iff₂, Accessible,
      reduceCtorEq, false_or]
    have hmax : vmMaxUser < 2 ^ 64 := by decide
    constructor
    · rintro ⟨⟨hlo, hhi⟩, hall⟩ i hi
      rw [Nat.mod_eq_of_lt (by omega)]
      exact ⟨by omega, by omega, hall i hi⟩
    · intro h
      obtain ⟨hlo, hlt, -⟩ := h 0 hn
      rw [Nat.add_zero, Nat.mod_eq_of_lt haddr] at hlo hlt
      -- a range that ran past the user range would touch its end
      have hhi : addr + n ≤ vmMaxUser := by
        by_contra hlong
        obtain ⟨-, hend, -⟩ := h (vmMaxUser - addr) (by omega)
        omega
      refine ⟨⟨hlo, hhi⟩, fun i hi ↦ ?_⟩
      obtain ⟨-, -, hmap⟩ := h i hi
      rwa [Nat.mod_eq_of_lt (by omega)] at hmap

/-! ## Transfers -/

/-- One buffer of the caller. -/
structure IoSeg where
  base : Nat
  len : Nat
  deriving DecidableEq, Repr

/-- One transfer: the segments still to fill or drain, in order. -/
structure Uio where
  iov : List IoSeg
  idx : Nat
  segOff : Nat
  resid : Nat
  offset : UInt64
  seg : UioSeg
  deriving DecidableEq, Repr

namespace Uio

/-- `isize::MAX`. -/
def isizeMax : Nat := 2 ^ 63 - 1

/-- A transfer over `iov`; the lengths may not add up past `isize::MAX`. -/
def new (iov : List IoSeg) (seg : UioSeg) (offset : UInt64) : Except Nat Uio :=
  if (iov.map IoSeg.len).sum ≤ isizeMax then
    .ok ⟨iov, 0, 0, (iov.map IoSeg.len).sum, offset, seg⟩
  else .error EINVAL

/-- Starts the transfer at file offset `offset`. -/
def setOffset (u : Uio) (offset : UInt64) : Uio := { u with offset := offset }

/-- The bookkeeping of `move_raw` after a piece of `n` bytes. -/
def passed (u : Uio) (n : Nat) : Uio :=
  { u with segOff := u.segOff + n, resid := u.resid - n, offset := u.offset + .ofNat n }

/-- The loop of `move_raw` with `left` bytes still wanted: the addresses moved over, whether a copy
faulted, and the transfer afterwards. -/
def moveLoop (mapped : Nat → Bool) : Nat → Nat → Uio → List Nat × Bool × Uio
  | 0, _, u => ([], false, u)
  | fuel + 1, left, u =>
    if left = 0 ∨ u.resid = 0 then ([], false, u)
    else
      let s := u.iov.getD u.idx ⟨0, 0⟩
      if s.len - u.segOff = 0 then
        moveLoop mapped fuel left { u with idx := u.idx + 1, segOff := 0 }
      else
        let n := min (s.len - u.segOff) left
        let addr := (s.base + u.segOff) % 2 ^ 64
        if copyOk mapped u.seg addr n then
          let r := moveLoop mapped fuel (left - n) (u.passed n)
          (addrs addr n ++ r.1, r.2)
        else ([], true, u)

/-- `move_raw`: every turn of its loop finishes a segment or moves a byte. -/
def moveRaw (mapped : Nat → Bool) (len : Nat) (u : Uio) : List Nat × Bool × Uio :=
  moveLoop mapped (u.iov.length - u.idx + len) len u

/-- `uiomove` of a `Read` transfer: moves `data` out to the segments, as far as they go. -/
def uiomoveOut (mem : Memory) (data : List UInt8) (u : Uio) : Except Nat (List UInt8) × Uio :=
  let r := moveRaw mem.writable data.length u
  (if r.2.1 then .error EFAULT else .ok (data.take r.1.length), r.2.2)

/-- `uiomove` of a `Write` transfer: moves up to `len` bytes in from the segments. -/
def uiomoveIn (mem : Memory) (len : Nat) (u : Uio) : Except Nat (List UInt8) × Uio :=
  let r := moveRaw mem.readable len u
  (if r.2.1 then .error EFAULT else .ok (r.1.map mem.byte), r.2.2)

/-! ## What is still ahead -/

/-- The addresses still ahead, in order. -/
def rest (u : Uio) : List Nat :=
  ((u.iov.drop u.idx).flatMap fun s ↦ addrs s.base s.len).drop u.segOff

/-- The transfer is inside the segment it is at, and its segments hold what it has yet to move. -/
structure WF (u : Uio) : Prop where
  segOff_le : u.segOff ≤ (u.iov.getD u.idx ⟨0, 0⟩).len
  resid_le : u.resid ≤ u.rest.length

/-- `u'` is `u` moved on by `k` bytes. -/
structure Advances (u u' : Uio) (k : Nat) : Prop where
  rest : u'.rest = u.rest.drop k
  resid : u'.resid + k = u.resid
  offset : u'.offset = u.offset + .ofNat k
  seg : u'.seg = u.seg
  wf : u'.WF

variable {iov : List IoSeg} {seg : UioSeg} {offset : UInt64} {u u' : Uio} {n fuel : Nat}
  {mapped : Nat → Bool}

theorem new_offset (h : new iov seg offset = .ok u) : u.offset = offset := by
  rw [new] at h
  split at h
  · cases h
    rfl
  · cases h

theorem new_wf (h : new iov seg offset = .ok u) : u.WF := by
  rw [new] at h
  split at h
  · cases h
    refine ⟨Nat.zero_le _, ?_⟩
    simp only [rest, drop_zero, length_flatMap, length_addrs]
    exact le_rfl
  · cases h

theorem setOffset_wf (h : u.WF) (offset : UInt64) : (u.setOffset offset).WF :=
  ⟨h.segOff_le, h.resid_le⟩

theorem Advances.trans {u'' : Uio} {k l : Nat} (h : u.Advances u' k) (h' : u'.Advances u'' l) :
    u.Advances u'' (k + l) where
  rest := by rw [h'.rest, h.rest, drop_drop]
  resid := by rw [← h.resid, ← h'.resid, Nat.add_assoc, Nat.add_comm k]
  offset := by rw [h'.offset, h.offset, UInt64.ofNat_add, UInt64.add_assoc]
  seg := h'.seg.trans h.seg
  wf := h'.wf

/-- What is left of the segment the transfer is at comes first. -/
theorem rest_eq (u : Uio) (h : u.segOff ≤ (u.iov.getD u.idx ⟨0, 0⟩).len) :
    u.rest = addrs ((u.iov.getD u.idx ⟨0, 0⟩).base + u.segOff)
        ((u.iov.getD u.idx ⟨0, 0⟩).len - u.segOff) ++
      { u with idx := u.idx + 1, segOff := 0 }.rest := by
  rcases Nat.lt_or_ge u.idx u.iov.length with hlt | hge
  · rw [getD_eq_getElem _ _ hlt] at h ⊢
    simp only [rest, drop_zero]
    rw [drop_eq_getElem_cons hlt, flatMap_cons,
      drop_append_of_le_length (by rwa [length_addrs]), addrs_drop]
  · rw [getD_eq_default _ _ hge] at h ⊢
    simp only [rest]
    rw [drop_eq_nil_of_le hge, drop_eq_nil_of_le (Nat.le_succ_of_le hge)]
    simp [addrs]

/-- Moving on over an exhausted segment changes nothing. -/
theorem Advances.next (h : u.WF) (hdone : (u.iov.getD u.idx ⟨0, 0⟩).len - u.segOff = 0) :
    u.Advances { u with idx := u.idx + 1, segOff := 0 } 0 := by
  have hrest : u.rest = { u with idx := u.idx + 1, segOff := 0 }.rest := by
    rw [rest_eq u h.segOff_le, hdone]
    rfl
  exact ⟨hrest.symm, rfl, (UInt64.add_zero _).symm, rfl, Nat.zero_le _, hrest ▸ h.resid_le⟩

/-- A piece of `n` bytes of the segment the transfer is at. -/
theorem Advances.piece (h : u.WF) (hn : n ≤ (u.iov.getD u.idx ⟨0, 0⟩).len - u.segOff)
    (hresid : n ≤ u.resid) :
    u.Advances (u.passed n) n ∧
      u.rest.take n = addrs (((u.iov.getD u.idx ⟨0, 0⟩).base + u.segOff) % 2 ^ 64) n := by
  have hseg := h.segOff_le
  have hoff : (u.passed n).segOff ≤ ((u.passed n).iov.getD (u.passed n).idx ⟨0, 0⟩).len := by
    show u.segOff + n ≤ (u.iov.getD u.idx ⟨0, 0⟩).len
    omega
  have hrest : (u.passed n).rest = u.rest.drop n := (drop_drop ..).symm
  refine ⟨⟨hrest, Nat.sub_add_cancel hresid, rfl, rfl, hoff, ?_⟩, ?_⟩
  · rw [hrest, length_drop]
    exact Nat.sub_le_sub_right h.resid_le n
  · rw [rest_eq u hseg, take_append_of_le_length (by rwa [length_addrs]),
      addrs_take _ hn, addrs_mod]

/-- The next `n` addresses are all accessible. -/
def Clear (mapped : Nat → Bool) (u : Uio) (n : Nat) : Prop :=
  ∀ a ∈ u.rest.take n, Accessible mapped u.seg a

instance (mapped : Nat → Bool) (u : Uio) (n : Nat) : Decidable (u.Clear mapped n) :=
  inferInstanceAs (Decidable (∀ a ∈ u.rest.take n, Accessible mapped u.seg a))

theorem Clear.mono {m : Nat} (h : u.Clear mapped n) (hmn : m ≤ n) : u.Clear mapped m :=
  fun a ha ↦ h a (mem_of_mem_take (by rwa [take_take, Nat.min_eq_left hmn]))

/-- One buffer in user memory that is mapped everywhere. -/
theorem clear_user {addr len : Nat} (hmin : vmMinUser ≤ addr) (hmax : addr + len ≤ vmMaxUser)
    (n : Nat) : (⟨[⟨addr, len⟩], 0, 0, len, 0, .user⟩ : Uio).Clear (fun _ ↦ true) n := by
  intro a ha
  have hmem := mem_of_mem_take ha
  simp only [rest, drop_zero, flatMap_cons, flatMap_nil, append_nil, addrs, mem_map,
    mem_range] at hmem
  obtain ⟨i, hi, rfl⟩ := hmem
  rw [vmMaxUser] at hmax
  exact .inr ⟨by omega, by rw [vmMaxUser]; omega, rfl⟩

/-- What is ahead of `u`, in two parts. -/
theorem Advances.clear_iff {k : Nat} (h : u.Advances u' k) :
    u.Clear mapped (k + n) ↔ u.Clear mapped k ∧ u'.Clear mapped n := by
  simp only [Clear, h.seg, h.rest, take_add, forall_mem_append]

/-- How a move of `len` bytes from `u` can end: all of them moved, every address being accessible,
or a fault somewhere before the last. -/
inductive Moves (mapped : Nat → Bool) (len : Nat) (u : Uio) : List Nat × Bool × Uio → Prop
  | all {u' : Uio} (hclear : u.Clear mapped len) (hadv : u.Advances u' len) :
      Moves mapped len u (u.rest.take len, false, u')
  | fault {u' : Uio} {k : Nat} (hclear : ¬ u.Clear mapped len) (hk : k < len)
      (hpassed : u.Clear mapped k) (hadv : u.Advances u' k) :
      Moves mapped len u (u.rest.take k, true, u')

theorem Advances.refl (h : u.WF) : u.Advances u 0 :=
  ⟨rfl, rfl, (UInt64.add_zero _).symm, rfl, h⟩

theorem clear_zero (mapped : Nat → Bool) (u : Uio) : u.Clear mapped 0 :=
  fun _ ha ↦ absurd ha (by simp)

/-- A move goes on behind a first part of `n` bytes. -/
theorem Moves.after {len : Nat} {r : List Nat × Bool × Uio} (hn : n ≤ len) (hadv : u.Advances u' n)
    (hclear : u.Clear mapped n) (h : Moves mapped (len - n) u' r) :
    Moves mapped len u (u.rest.take n ++ r.1, r.2) := by
  have hsplit : ∀ k, u.rest.take n ++ u'.rest.take k = u.rest.take (n + k) := fun k ↦ by
    rw [hadv.rest, ← take_add]
  obtain ⟨m, rfl⟩ := Nat.exists_eq_add_of_le hn
  rw [Nat.add_sub_cancel_left] at h
  cases h with
  | all hclear' hadv' =>
    rw [hsplit]
    exact .all (hadv.clear_iff.2 ⟨hclear, hclear'⟩) (hadv.trans hadv')
  | fault hclear' hk hpassed hadv' =>
    rw [hsplit]
    exact .fault (fun h ↦ hclear' (hadv.clear_iff.1 h).2) (by omega)
      (hadv.clear_iff.2 ⟨hclear, hpassed⟩) (hadv.trans hadv')

/-- The loop, with a turn for every segment and every byte still wanted. -/
theorem moveLoop_moves (mapped : Nat → Bool) {left : Nat} (h : u.WF) (hleft : left ≤ u.resid)
    (hfuel : u.iov.length - u.idx + left ≤ fuel) :
    Moves mapped left u (moveLoop mapped fuel left u) := by
  induction fuel generalizing left u with
  | zero =>
    obtain rfl : left = 0 := by omega
    exact .all (clear_zero _ _) (.refl h)
  | succ fuel ih =>
    rw [moveLoop]
    split_ifs with hstop
    · obtain rfl : left = 0 := by omega
      exact .all (clear_zero _ _) (.refl h)
    dsimp only
    split_ifs with hdone hok
    · -- the segment is exhausted: on to the next, of which there is one
      have hlt : u.idx < u.iov.length := by
        by_contra hge
        have := h.resid_le
        rw [rest, drop_eq_nil_of_le (not_lt.1 hge)] at this
        simp at this
        omega
      have hnext := Advances.next h hdone
      have := ih hnext.wf (hnext.resid ▸ hleft) (by
        show u.iov.length - (u.idx + 1) + left ≤ fuel
        omega)
      exact Moves.after (Nat.zero_le left) hnext (clear_zero _ _) this
    · obtain ⟨hadv, htake⟩ := Advances.piece h (Nat.min_le_left _ left) (by omega)
      rw [← htake]
      rw [copyOk_iff (Nat.mod_lt _ (by norm_num)) (by omega), ← htake] at hok
      have := hadv.resid
      refine Moves.after (Nat.min_le_right _ left) hadv hok (ih hadv.wf (by omega) ?_)
      show u.iov.length - u.idx + _ ≤ _
      omega
    · obtain ⟨hadv, htake⟩ := Advances.piece h (Nat.min_le_left _ left) (by omega)
      rw [copyOk_iff (Nat.mod_lt _ (by norm_num)) (by omega), ← htake] at hok
      exact .fault (fun hall ↦ hok (hall.mono (Nat.min_le_right _ left))) (by omega)
        (clear_zero _ _) (.refl h)

theorem moveRaw_moves (mapped : Nat → Bool) {len : Nat} (h : u.WF) (hlen : len ≤ u.resid) :
    Moves mapped len u (moveRaw mapped len u) :=
  moveLoop_moves mapped h hlen le_rfl

/-- How a move of up to `len` bytes ends: all of them, or `EFAULT` with the transfer moved on by
less than `len`. -/
inductive Ends (mapped : Nat → Bool) (u : Uio) (bytes : List UInt8) :
    Except Nat (List UInt8) × Uio → Prop
  | ok {u' : Uio} (hclear : u.Clear mapped bytes.length) (hadv : u.Advances u' bytes.length) :
      Ends mapped u bytes (.ok bytes, u')
  | fault {u' : Uio} {k : Nat} (hclear : ¬ u.Clear mapped bytes.length) (hk : k < bytes.length)
      (hpassed : u.Clear mapped k) (hadv : u.Advances u' k) :
      Ends mapped u bytes (.error EFAULT, u')

theorem uiomoveOut_spec (mem : Memory) (data : List UInt8) (h : u.WF)
    (hlen : data.length ≤ u.resid) : Ends mem.writable u data (uiomoveOut mem data u) := by
  have hmoves := moveRaw_moves mem.writable h hlen
  rw [uiomoveOut]
  revert hmoves
  generalize moveRaw mem.writable data.length u = r
  intro hmoves
  cases hmoves with
  | all hclear hadv =>
    have hle := h.resid_le
    simp only [length_take]
    rw [take_of_length_le (by omega)]
    exact .ok hclear hadv
  | fault hclear hk hpassed hadv => exact .fault hclear hk hpassed hadv

/-- The bytes the caller has in the next `n` addresses. -/
def bytes (mem : Memory) (u : Uio) (n : Nat) : List UInt8 := (u.rest.take n).map mem.byte

theorem length_bytes (mem : Memory) (h : u.WF) (hn : n ≤ u.resid) : (u.bytes mem n).length = n := by
  rw [bytes, length_map, length_take, Nat.min_eq_left (hn.trans h.resid_le)]

theorem uiomoveIn_spec (mem : Memory) (len : Nat) (h : u.WF) (hlen : len ≤ u.resid) :
    Ends mem.readable u (u.bytes mem len) (uiomoveIn mem len u) := by
  have hmoves := moveRaw_moves mem.readable h hlen
  have hbytes := length_bytes mem h hlen
  rw [uiomoveIn]
  revert hmoves
  generalize moveRaw mem.readable len u = r
  intro hmoves
  cases hmoves with
  | all hclear hadv => exact .ok (by rwa [hbytes]) (by rwa [hbytes])
  | fault hclear hk hpassed hadv =>
    exact .fault (by rwa [hbytes]) (by rwa [hbytes]) hpassed hadv

/-! ## Going back -/

/-- How far the transfer has come, in bytes. -/
def pos (u : Uio) : Nat := ((u.iov.take u.idx).map IoSeg.len).sum + u.segOff

/-- The loop of `rewind`. -/
def rewindLoop : Nat → Nat → Uio → Uio
  | 0, _, u => u
  | fuel + 1, n, u =>
    if n = 0 then u
    else if u.segOff = 0 then
      if u.idx = 0 then u
      else rewindLoop fuel n
        { u with idx := u.idx - 1, segOff := (u.iov.getD (u.idx - 1) ⟨0, 0⟩).len }
    else
      let k := min u.segOff n
      rewindLoop fuel (n - k)
        { u with segOff := u.segOff - k, resid := u.resid + k, offset := u.offset - .ofNat k }

/-- `rewind`: every turn of its loop goes back a segment or a byte. -/
def rewind (u : Uio) (n : Nat) : Uio := rewindLoop (u.idx + n) n u

theorem rewindLoop_resid (hn : n ≤ u.pos) (hfuel : u.idx + n ≤ fuel) :
    (rewindLoop fuel n u).resid = u.resid + n := by
  induction fuel generalizing n u with
  | zero =>
    obtain rfl : n = 0 := by omega
    rfl
  | succ fuel ih =>
    rw [rewindLoop]
    split_ifs with hzero hstart hfirst
    · rw [hzero, Nat.add_zero]
    · -- at the very start nothing can be taken back
      rw [pos, hfirst] at hn
      simp only [take_zero, map_nil, sum_nil] at hn
      omega
    · refine ih ?_ (by dsimp only; omega)
      obtain ⟨i, hi⟩ := Nat.exists_eq_succ_of_ne_zero hfirst
      rw [pos, hstart, hi] at hn
      rw [pos]
      simp only [hi, Nat.succ_sub_one]
      rcases Nat.lt_or_ge i u.iov.length with hlt | hge
      · rw [take_succ_eq_append_getElem hlt, map_append, sum_append] at hn
        rw [getD_eq_getElem _ _ hlt]
        simpa using hn
      · rw [take_of_length_le (by omega)] at hn
        rw [take_of_length_le hge]
        omega
    · have hk : 0 < min u.segOff n := by omega
      have hpos : n - min u.segOff n ≤ pos { u with
          segOff := u.segOff - min u.segOff n
          resid := u.resid + min u.segOff n
          offset := u.offset - .ofNat (min u.segOff n) } := by
        rw [pos] at hn ⊢
        dsimp only
        omega
      have hrest := ih hpos (by dsimp only; omega)
      dsimp only at hrest ⊢
      omega

/-- What was moved can be taken back. -/
theorem rewind_resid (h : n ≤ u.pos) : (u.rewind n).resid = u.resid + n :=
  rewindLoop_resid h le_rfl

theorem pos_next (h : u.segOff = (u.iov.getD u.idx ⟨0, 0⟩).len) :
    Uio.pos { u with idx := u.idx + 1, segOff := 0 } = u.pos := by
  simp only [pos, h]
  rcases Nat.lt_or_ge u.idx u.iov.length with hlt | hge
  · rw [take_succ_eq_append_getElem hlt, map_append,
      getD_eq_getElem _ _ hlt]
    simp
  · rw [take_of_length_le hge, take_of_length_le (by omega),
      getD_eq_default _ _ hge]

/-- The loop of `move_raw` goes forward as far as it takes off `resid`. -/
theorem moveLoop_pos (mapped : Nat → Bool) {left : Nat} (h : u.WF) (hleft : left ≤ u.resid) :
    (moveLoop mapped fuel left u).2.2.pos + (moveLoop mapped fuel left u).2.2.resid
      = u.pos + u.resid := by
  induction fuel generalizing left u with
  | zero => rfl
  | succ fuel ih =>
    rw [moveLoop]
    split_ifs with hstop
    · rfl
    dsimp only
    split_ifs with hdone hok
    · have hseg := h.segOff_le
      have hnext := Advances.next h hdone
      rw [ih hnext.wf (hnext.resid ▸ hleft), pos_next (by omega)]
    · obtain ⟨hadv, -⟩ := Advances.piece h (Nat.min_le_left _ left) (by omega)
      have hresid := hadv.resid
      rw [ih hadv.wf (by omega)]
      simp only [pos, passed] at hresid ⊢
      omega
    · rfl

theorem new_pos (h : new iov seg offset = .ok u) : u.pos = 0 := by
  rw [new] at h
  split at h
  · cases h
    rfl
  · cases h

theorem uiomoveIn_pos (mem : Memory) (len : Nat) (h : u.WF) (hlen : len ≤ u.resid) :
    (uiomoveIn mem len u).2.pos + (uiomoveIn mem len u).2.resid = u.pos + u.resid :=
  moveLoop_pos mem.readable h hlen

end Uio
end OxideBSD.Kern
