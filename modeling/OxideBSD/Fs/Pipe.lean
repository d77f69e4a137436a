import OxideBSD.Kern.Uio
import OxideBSD.Lib.Machine

/-!
# Pipes

`sys/fs/pipe.rs`: the buffer behind a pipe or FIFO, and any number of reads and writes going on over
it at once.  `blocking_read` and `write_into` are loops whose turns run under the `PIPES` lock and
between which other threads may run; one turn is one event of the machine below, so a list of events
is one interleaving.  What the ring buffer's first run is, what the caller's memory looks like and
whether the descriptor is non-blocking are up to the event.

The machine keeps a record of the bytes that entered the buffer and of the bytes handed out, each
with the call that moved it.

* `Delivers` is what a pipe is for: bytes come out once and in the order they went in, a call's
  result is the number of bytes it moved, and a call that fails has moved none.
* `step_inv`, `run_delivers`: that holds of every run in which a copy faults only while the call has
  moved nothing (`Harmless`).
* `faultyWrite_not_delivers`: it does not hold in general; a write that faults in a later chunk
  returns `EFAULT` and leaves its earlier chunks in the buffer.
-/

set_option autoImplicit false

namespace OxideBSD.Pipe

open Function Kern Kern.Uio List

/-! ## The buffer -/

/-- A pipe's buffer. -/
structure PipeBuffer where
  data : List UInt8
  readClosed : Bool
  writeClosed : Bool
  deriving DecidableEq, Repr

/-- The two ends of a pipe. -/
inductive End
  | read
  | write
  deriving DecidableEq, Repr

/-- `PIPE_CAPACITY`. -/
def pipeCapacity : Nat := 65536

/-- The size of the buffer `write_into` copies through. -/
def chunkSize : Nat := 512

/-- `new_pipe_buffer`. -/
def newPipeBuffer : PipeBuffer := ⟨[], false, false⟩

/-- `-errno`. -/
def failure (errno : Nat) : Int := -(errno : Int)

/-- How a turn of one of the two loops ends. -/
inductive Turn
  /-- The call returns. -/
  | returns (result : Int)
  /-- The loop starts over, at once or after the process has slept. -/
  | again
  deriving DecidableEq, Repr

/-- The copy of the first `n` buffered bytes, in the ring buffer's two runs, of which the first
holds `front` bytes: the bytes that moved, and the error if a copy failed. -/
def moveFront (mem : Memory) (front n : Nat) (data : List UInt8) (u : Uio) :
    List UInt8 × Option Nat × Uio :=
  let first := min n (data.take front).length
  match u.uiomoveOut mem ((data.take front).take first) with
  | (.error e, u1) => ([], some e, u1)
  | (.ok xs, u1) =>
    if xs.length = first ∧ first < n then
      match u1.uiomoveOut mem ((data.drop front).take (n - first)) with
      | (.error e, u2) => (xs, some e, u2)
      | (.ok ys, u2) => (xs ++ ys, none, u2)
    else (xs, none, u1)

/-- One turn of `blocking_read`: how it ends, the buffer and transfer after it, and the bytes it
handed out. -/
def blockingRead (mem : Memory) (front : Nat) (nonblocking : Bool) (pipe : Option PipeBuffer)
    (u : Uio) : Turn × Option PipeBuffer × Uio × List UInt8 :=
  match pipe with
  | none => (.returns 0, none, u, [])
  | some p =>
    if p.data ≠ [] then
      let n := min u.resid p.data.length
      match moveFront mem front n p.data u with
      | (xs, none, u') =>
        (.returns xs.length, some { p with data := p.data.drop xs.length }, u', xs)
      | (xs, some e, u') =>
        (.returns (failure e), some { p with data := p.data.drop xs.length }, u', xs)
    else if p.writeClosed then (.returns 0, some p, u, [])
    else if nonblocking then (.returns (failure EAGAIN), some p, u, [])
    else (.again, some p, u, [])

/-- The chunk loop of `write_into`, with `left` bytes still to take: the bytes added to the buffer,
the error if a copy failed, and the transfer afterwards. -/
def chunkLoop (mem : Memory) : Nat → Nat → Uio → List UInt8 × Option Nat × Uio
  | 0, _, u => ([], none, u)
  | fuel + 1, left, u =>
    if left = 0 then ([], none, u)
    else
      match u.uiomoveIn mem (min left chunkSize) with
      | (.ok xs, u') =>
        let r := chunkLoop mem fuel (left - xs.length) u'
        (xs ++ r.1, r.2)
      | (.error e, u') => ([], some e, u')

/-- A write that cannot go on reports what it has written, or fails if that is nothing. -/
def partly (written errno : Nat) : Turn :=
  .returns (if written > 0 then (written : Int) else failure errno)

/-- One turn of `write_into`, `written` bytes into the call: how it ends, the buffer and transfer
after it, and the bytes it added. -/
def writeInto (mem : Memory) (nonblocking : Bool) (pipe : Option PipeBuffer) (u : Uio)
    (written : Nat) : Turn × Option PipeBuffer × Uio × List UInt8 :=
  match pipe with
  | none => (partly written EPIPE, none, u, [])
  | some p =>
    if p.readClosed || p.writeClosed then (partly written EPIPE, some p, u, [])
    else
      let available := pipeCapacity - p.data.length
      if available > 0 then
        let left := min u.resid available
        let r := chunkLoop mem left left u
        let p' := some { p with data := p.data ++ r.1 }
        match r.2.1 with
        | some e => (.returns (failure e), p', r.2.2, r.1)
        | none =>
          if r.2.2.resid = 0 then (.returns (written + r.1.length : Nat), p', r.2.2, r.1)
          else (.again, p', r.2.2, r.1)
      else if nonblocking then (partly written EAGAIN, some p, u, [])
      else (.again, some p, u, [])

/-- `close_direction`: the buffer goes once both directions are closed. -/
def closeDirection (dir : End) (p : PipeBuffer) : Option PipeBuffer :=
  let p' := match dir with
    | .read => { p with readClosed := true }
    | .write => { p with writeClosed := true }
  if p'.readClosed && p'.writeClosed then none else some p'

/-- `fifo_changed`: a FIFO's flags follow its open counts, and can clear again. -/
def fifoChanged (readers writers : Nat) (p : PipeBuffer) : PipeBuffer :=
  { p with readClosed := readers = 0, writeClosed := writers = 0 }

/-! ## The machine -/

/-- Where a call is.  A call that has not returned keeps the length it asked for, its transfer and,
writing, how much it has written. -/
inductive Call
  | reading (len : Nat) (u : Uio)
  | writing (len : Nat) (u : Uio) (written : Nat)
  | returned (result : Int)
  deriving DecidableEq, Repr

/-- A buffer, the calls made on it, and the record of what they moved. -/
structure St where
  /-- `none` once it is torn down. -/
  pipe : Option PipeBuffer
  calls : Nat → Option Call
  /-- The bytes that entered the buffer, each with the call that added it. -/
  entered : List (Nat × UInt8)
  /-- The bytes handed out, each with the call it was handed to. -/
  handed : List (Nat × UInt8)
  /-- What a torn-down buffer held. -/
  dropped : List UInt8

/-- What `transfer` makes of an operation's result: a call interrupted after it moved something
reports that. -/
def transferResult (len : Nat) (u : Uio) (r : Int) : Int :=
  if r < 0 ∧ len - u.resid > 0 ∧
      (r = failure EINTR ∨ r = failure ERESTART ∨ r = failure EAGAIN) then
    (len - u.resid : Nat)
  else r

/-- One thread's code from one point where others may run to the next. -/
inductive Event
  /-- `read` or `write` over the segments `iov`, with the checks `transfer` makes: an explicit
  offset is refused, the access mode must allow the transfer, and nothing to move is `0`. -/
  | start (id : Nat) (dir : End) (iov : List IoSeg) (seg : UioSeg) (explicit allowed : Bool)
  /-- One turn of a call's loop. -/
  | turn (id : Nat) (mem : Memory) (front : Nat) (nonblocking : Bool)
  | closeDirection (dir : End)
  | fifoChanged (readers writers : Nat)
  /-- `fifo_release` of the last open end. -/
  | fifoRemoved

/-- The first state of a call. -/
def begin (dir : End) (iov : List IoSeg) (seg : UioSeg) (explicit allowed : Bool) : Call :=
  match Uio.new iov seg 0 with
  | .error e => .returned (failure e)
  | .ok u =>
    if explicit then .returned (failure ESPIPE)
    else if ¬ allowed then .returned (failure EBADF)
    else if u.resid = 0 then .returned 0
    else
      match dir with
      | .read => .reading u.resid u
      | .write => .writing u.resid u 0

namespace St

/-- The buffer is removed; what it held is gone. -/
def remove (s : St) : St :=
  match s.pipe with
  | none => s
  | some p => { s with pipe := none, dropped := p.data }

/-- A turn of the call `id` that leaves it at `call` and the buffer as `pipe`, having added and
handed out some bytes. -/
def record (s : St) (id : Nat) (call : Call) (pipe : Option PipeBuffer) (added out : List UInt8) :
    St :=
  { s with
    pipe := pipe
    calls := update s.calls id (some call)
    entered := s.entered ++ added.map fun b ↦ (id, b)
    handed := s.handed ++ out.map fun b ↦ (id, b) }

/-- A turn of the call `id`. -/
def turn (s : St) (id : Nat) (mem : Memory) (front : Nat) (nonblocking : Bool) : Option St :=
  match s.calls id with
  | some (.reading len u) =>
    let r := blockingRead mem front nonblocking s.pipe u
    match r.1 with
    | .returns res => some (s.record id (.returned (transferResult len r.2.2.1 res)) r.2.1 [] r.2.2.2)
    | .again => some (s.record id (.reading len r.2.2.1) r.2.1 [] r.2.2.2)
  | some (.writing len u written) =>
    let r := writeInto mem nonblocking s.pipe u written
    match r.1 with
    | .returns res => some (s.record id (.returned (transferResult len r.2.2.1 res)) r.2.1 r.2.2.2 [])
    | .again => some (s.record id (.writing len r.2.2.1 (written + r.2.2.2.length)) r.2.1 r.2.2.2 [])
  | _ => none

/-- What an event does; a call is numbered when it starts. -/
def step (s : St) : Event → Option St
  | .start id dir iov seg explicit allowed =>
    if s.calls id = none then
      some { s with
        calls := update s.calls id (some (begin dir iov seg explicit allowed)) }
    else none
  | .turn id mem front nonblocking => s.turn id mem front nonblocking
  | .closeDirection dir =>
    match s.pipe with
    | none => some s
    | some p =>
      match Pipe.closeDirection dir p with
      | none => some s.remove
      | some p' => some { s with pipe := some p' }
  | .fifoChanged readers writers =>
    some { s with pipe := s.pipe.map (Pipe.fifoChanged readers writers) }
  | .fifoRemoved => some s.remove

/-- A fresh pipe. -/
def init : St := ⟨some newPipeBuffer, fun _ ↦ none, [], [], []⟩

end St

/-! ## What a pipe is for -/

/-- The bytes of a record that the call `id` moved. -/
def movedBy (l : List (Nat × UInt8)) (id : Nat) : List (Nat × UInt8) :=
  l.filter fun x ↦ x.1 = id

namespace St

/-- Calls that have not failed. -/
def Counts (s : St) (id : Nat) : Prop :=
  match s.calls id with
  | some (.returned r) => 0 ≤ r
  | _ => True

instance (s : St) (id : Nat) : Decidable (s.Counts id) := by
  unfold Counts
  split <;> infer_instance

/-- The bytes of a record moved by calls that have not failed: those that returned reported them,
those still at it are going to. -/
def reported (s : St) (l : List (Nat × UInt8)) : List UInt8 :=
  (l.filter fun x ↦ s.Counts x.1).map Prod.snd

/-- What has not been handed out. -/
def rest (s : St) : List UInt8 :=
  match s.pipe with
  | some p => p.data
  | none => s.dropped

/-- Bytes come out once and in the order they went in, a call reports what it moved, and a call that
fails has moved nothing. -/
structure Delivers (s : St) : Prop where
  order : s.reported s.handed ++ s.rest = s.reported s.entered
  reports : ∀ id r, s.calls id = some (.returned r) → 0 ≤ r →
    ((movedBy s.entered id).length + (movedBy s.handed id).length : Nat) = r
  failed : ∀ id r, s.calls id = some (.returned r) → r < 0 →
    movedBy s.entered id = [] ∧ movedBy s.handed id = []
  capacity : ∀ p, s.pipe = some p → p.data.length ≤ pipeCapacity

/-- No copy of the event faults after its call has moved something.  A read's copies are those of
the ring buffer's two runs, a write's those of its chunks. -/
def Harmless (s : St) : Event → Prop
  | .turn id mem front _ =>
    match s.calls id, s.pipe with
    | some (.reading _ u), some p =>
      let n := min u.resid p.data.length
      u.Clear mem.writable n ∨ ¬ u.Clear mem.writable (min n front)
    | some (.writing _ u written), some p =>
      let left := min u.resid (pipeCapacity - p.data.length)
      u.Clear mem.readable left ∨
        written = 0 ∧ ¬ u.Clear mem.readable (min left chunkSize)
    | _, _ => True
  | _ => True

instance (s : St) (e : Event) : Decidable (s.Harmless e) := by
  cases e with
  | turn id mem front nonblocking =>
    unfold Harmless
    dsimp only
    split <;> infer_instance
  | _ => exact isTrue trivial

end St

/-! ## One turn -/

/-- The result `r` of a call that moved `total` bytes. -/
def Reports (total : Nat) (r : Int) : Prop := r = total ∨ r < 0 ∧ total = 0

variable {len n front id : Nat} {u : Uio} {r : Int} {data : List UInt8} {pipe : Option PipeBuffer}
  {s s' : St}

theorem transferResult_of_ne
    (h : ¬ (r = failure EINTR ∨ r = failure ERESTART ∨ r = failure EAGAIN)) :
    transferResult len u r = r :=
  if_neg fun hr ↦ h hr.2.2

theorem transferResult_of_eq : transferResult u.resid u r = r :=
  if_neg fun hr ↦ absurd hr.2.1 (by simp)

theorem transferResult_of_nonneg (h : 0 ≤ r) : transferResult len u r = r :=
  if_neg fun hr ↦ absurd hr.1 (not_lt.2 h)

theorem Reports.moved : Reports n (transferResult len u n) :=
  Or.inl (transferResult_of_nonneg (Int.natCast_nonneg n))

theorem Reports.fault : Reports 0 (transferResult len u (failure EFAULT)) := by
  rw [transferResult_of_ne (by decide)]
  exact Or.inr ⟨by decide, rfl⟩

/-- The first of the two runs, as far as the read goes. -/
theorem take_front (front : Nat) (hdata : n ≤ data.length) :
    (data.take front).take (min n (data.take front).length) = data.take (min n front) ∧
      min n (data.take front).length = min n front ∧
      (data.take (min n front)).length = min n front := by
  have hlen : min n (data.take front).length = min n front := by
    rw [length_take, ← Nat.min_assoc, Nat.min_right_comm, Nat.min_eq_left hdata]
  rw [hlen, take_take, Nat.min_assoc, Nat.min_self, length_take]
  exact ⟨rfl, rfl, by omega⟩

theorem moveFront_of_clear (mem : Memory) (h : u.WF) (hn : n ≤ u.resid) (hdata : n ≤ data.length)
    (hclear : u.Clear mem.writable n) :
    ∃ u', moveFront mem front n data u = (data.take n, none, u') ∧ u.Advances u' n := by
  obtain ⟨htake, hmin, hxs⟩ := take_front front hdata
  have hfirst := uiomoveOut_spec mem (data.take (min n front)) h (by omega)
  rw [moveFront, htake, hmin]
  revert hfirst
  generalize u.uiomoveOut mem (data.take (min n front)) = r
  rintro (⟨-, hadv⟩ | ⟨hfault, -, -, -⟩)
  swap
  · exact absurd (hclear.mono (by omega)) hfault
  rw [hxs] at hadv
  dsimp only
  by_cases hlt : front < n
  · -- both runs are needed
    rw [Nat.min_eq_right hlt.le] at hxs hadv ⊢
    rw [if_pos ⟨hxs, hlt⟩]
    have hys : ((data.drop front).take (n - front)).length = n - front := by
      rw [length_take, length_drop]
      omega
    have hresid := hadv.resid
    have hsecond := uiomoveOut_spec mem ((data.drop front).take (n - front)) hadv.wf
      (by omega)
    revert hsecond
    generalize uiomoveOut mem ((data.drop front).take (n - front)) _ = r
    have hsplit : front + (n - front) = n := by omega
    rintro (⟨-, hadv'⟩ | ⟨hfault, -, -, -⟩)
    · refine ⟨_, ?_, hsplit ▸ hys ▸ hadv.trans hadv'⟩
      dsimp only
      rw [← take_add, hsplit]
    · rw [hys] at hfault
      rw [← hsplit, hadv.clear_iff] at hclear
      exact absurd hclear.2 hfault
  · rw [Nat.min_eq_left (by omega)] at hxs hadv ⊢
    rw [if_neg (fun h ↦ absurd h.2 (lt_irrefl n))]
    exact ⟨_, rfl, hadv⟩

/-- The first run faults. -/
theorem moveFront_of_fault (mem : Memory) (h : u.WF) (hn : n ≤ u.resid) (hdata : n ≤ data.length)
    (hclear : ¬ u.Clear mem.writable (min n front)) :
    ∃ u', moveFront mem front n data u = ([], some EFAULT, u') := by
  obtain ⟨htake, hmin, hxs⟩ := take_front front hdata
  have hfirst := uiomoveOut_spec mem (data.take (min n front)) h (by omega)
  rw [moveFront, htake]
  revert hfirst
  generalize u.uiomoveOut mem (data.take (min n front)) = r
  rintro (⟨hok, -⟩ | -)
  · exact absurd (hxs ▸ hok) hclear
  · exact ⟨_, rfl⟩

theorem chunkLoop_of_clear (mem : Memory) {fuel left : Nat} (h : u.WF) (hleft : left ≤ u.resid)
    (hfuel : left ≤ fuel) (hclear : u.Clear mem.readable left) :
    ∃ u', chunkLoop mem fuel left u = (u.bytes mem left, none, u') ∧ u.Advances u' left := by
  induction fuel generalizing left u with
  | zero =>
    obtain rfl := Nat.le_zero.1 hfuel
    exact ⟨u, rfl, .refl h⟩
  | succ fuel ih =>
    rw [chunkLoop]
    split_ifs with hzero
    · subst hzero
      exact ⟨u, rfl, .refl h⟩
    obtain ⟨k, hk⟩ : ∃ k, k = min left chunkSize := ⟨_, rfl⟩
    have hpos : 0 < k := by
      rw [hk, chunkSize]
      omega
    have hsplit : k + (left - k) = left := by omega
    rw [← hk]
    have hmove := uiomoveIn_spec mem k h (by omega)
    have hlen := length_bytes mem h (n := k) (by omega)
    revert hmove
    generalize u.uiomoveIn mem k = r
    rw [← hsplit] at hclear
    rintro (⟨-, hadv⟩ | ⟨hfault, -, -, -⟩)
    swap
    · exact absurd (hclear.mono (by omega)) hfault
    dsimp only
    rw [hlen] at hadv ⊢
    have hresid := hadv.resid
    obtain ⟨u', hloop, hadv'⟩ := ih hadv.wf (by omega) (by omega) (hadv.clear_iff.1 hclear).2
    refine ⟨u', ?_, hsplit ▸ hadv.trans hadv'⟩
    rw [hloop, bytes, bytes, hadv.rest, ← map_append, ← take_add, hsplit, bytes]

/-- The first chunk faults. -/
theorem chunkLoop_of_fault (mem : Memory) {fuel left : Nat} (h : u.WF) (hleft : left ≤ u.resid)
    (hfuel : left ≤ fuel) (hclear : ¬ u.Clear mem.readable (min left chunkSize)) :
    ∃ u', chunkLoop mem fuel left u = ([], some EFAULT, u') := by
  have hpos : left ≠ 0 := by
    rintro rfl
    exact hclear (clear_zero _ _)
  obtain ⟨fuel, rfl⟩ := Nat.exists_eq_succ_of_ne_zero (show fuel ≠ 0 by omega)
  have hlen := length_bytes mem h (n := min left chunkSize) (by omega)
  have hmove := uiomoveIn_spec mem (min left chunkSize) h (by omega)
  rw [chunkLoop, if_neg hpos]
  revert hmove
  generalize u.uiomoveIn mem (min left chunkSize) = r
  rintro (⟨hok, -⟩ | -)
  · exact absurd (hlen ▸ hok) hclear
  · exact ⟨_, rfl⟩

/-- What a turn of a read that has moved nothing yet can do: return what it takes off the front of
the buffer, return with nothing, or go on waiting. -/
inductive ReadTurn (u : Uio) :
    Option PipeBuffer → Turn × Option PipeBuffer × Uio × List UInt8 → Prop
  | takes {p : PipeBuffer} {n : Nat} {u' : Uio} {r : Int} (hn : n ≤ p.data.length)
      (hr : Reports n (transferResult u.resid u' r)) :
      ReadTurn u (some p) (.returns r, some { p with data := p.data.drop n }, u', p.data.take n)
  | nothing {pipe : Option PipeBuffer} {r : Int} (hr : Reports 0 (transferResult u.resid u r)) :
      ReadTurn u pipe (.returns r, pipe, u, [])
  | again {pipe : Option PipeBuffer} : ReadTurn u pipe (.again, pipe, u, [])

theorem Reports.refused {e : Nat} (he : 0 < e) :
    Reports 0 (transferResult u.resid u (failure e)) := by
  rw [transferResult_of_eq]
  exact Or.inr ⟨by rw [failure]; omega, rfl⟩

theorem blockingRead_spec (mem : Memory) (front : Nat) (nonblocking : Bool)
    (pipe : Option PipeBuffer) (h : u.WF)
    (hharm : ∀ p, pipe = some p → u.Clear mem.writable (min u.resid p.data.length) ∨
      ¬ u.Clear mem.writable (min (min u.resid p.data.length) front)) :
    ReadTurn u pipe (blockingRead mem front nonblocking pipe u) := by
  cases pipe with
  | none => exact .nothing .moved
  | some p =>
    rw [blockingRead]
    dsimp only
    split_ifs with hdata hclosed hnon
    · have hn : min u.resid p.data.length ≤ p.data.length := Nat.min_le_right ..
      rcases hharm p rfl with hclear | hclear
      · obtain ⟨u', hmove, -⟩ := moveFront_of_clear mem h (Nat.min_le_left ..) hn hclear
        rw [hmove]
        have hlen : (p.data.take (min u.resid p.data.length)).length = min u.resid p.data.length := by
          rw [length_take, Nat.min_eq_left hn]
        dsimp only
        rw [hlen]
        exact .takes hn .moved
      · obtain ⟨u', hmove⟩ := moveFront_of_fault mem h (Nat.min_le_left ..) hn hclear
        rw [hmove]
        exact .takes (Nat.zero_le _) .fault
    · exact .nothing .moved
    · exact .nothing (.refused (by decide))
    · exact .again

/-- What a turn of a write can do, `written` bytes into the call: return after adding bytes, go on
after adding bytes, or return with nothing added. -/
inductive WriteTurn (u : Uio) (written : Nat) :
    Option PipeBuffer → Turn × Option PipeBuffer × Uio × List UInt8 → Prop
  | returns {p : PipeBuffer} {xs : List UInt8} {u' : Uio} {r : Int}
      (hcap : p.data.length + xs.length ≤ max p.data.length pipeCapacity)
      (hr : Reports (written + xs.length) (transferResult (u.resid + written) u' r)) :
      WriteTurn u written (some p) (.returns r, some { p with data := p.data ++ xs }, u', xs)
  | again {p : PipeBuffer} {xs : List UInt8} {u' : Uio}
      (hcap : p.data.length + xs.length ≤ max p.data.length pipeCapacity)
      (hadv : u.Advances u' xs.length) :
      WriteTurn u written (some p) (.again, some { p with data := p.data ++ xs }, u', xs)
  | nothing {pipe : Option PipeBuffer} {r : Int}
      (hr : Reports written (transferResult (u.resid + written) u r)) :
      WriteTurn u written pipe (.returns r, pipe, u, [])

theorem WriteTurn.partly (written : Nat) {e : Nat} (he : 0 < e) :
    WriteTurn u written pipe (Pipe.partly written e, pipe, u, []) := by
  refine .nothing ?_
  split_ifs with hpos
  · exact .moved
  · obtain rfl : written = 0 := by omega
    exact .refused he

theorem WriteTurn.waits {p : PipeBuffer} {written : Nat} (h : u.WF) :
    WriteTurn u written (some p) (.again, some p, u, []) := by
  have hsame : WriteTurn u written (some p) (.again, some { p with data := p.data ++ [] }, u, []) :=
    .again (le_max_left _ _) (.refl h)
  rwa [append_nil] at hsame

theorem writeInto_spec (mem : Memory) (nonblocking : Bool) (pipe : Option PipeBuffer)
    (written : Nat) (h : u.WF)
    (hharm : ∀ p, pipe = some p →
      u.Clear mem.readable (min u.resid (pipeCapacity - p.data.length)) ∨ written = 0 ∧
        ¬ u.Clear mem.readable (min (min u.resid (pipeCapacity - p.data.length)) chunkSize)) :
    WriteTurn u written pipe (writeInto mem nonblocking pipe u written) := by
  cases pipe with
  | none => exact .partly written (by decide)
  | some p =>
    rw [writeInto]
    by_cases hclosed : (p.readClosed || p.writeClosed) = true
    · rw [if_pos hclosed]
      exact .partly written (by decide)
    rw [if_neg hclosed]
    obtain ⟨left, hleft⟩ : ∃ n, n = min u.resid (pipeCapacity - p.data.length) := ⟨_, rfl⟩
    by_cases hroom : pipeCapacity - p.data.length > 0
    · dsimp only
      rw [if_pos hroom, ← hleft]
      rcases hharm p rfl with hclear | ⟨rfl, hclear⟩
      · rw [← hleft] at hclear
        obtain ⟨u', hloop, hadv⟩ := chunkLoop_of_clear mem h (by omega) le_rfl hclear
        have hlen := length_bytes mem h (show left ≤ u.resid by omega)
        have hcap : p.data.length + (u.bytes mem left).length ≤ max p.data.length pipeCapacity := by
          omega
        rw [hloop]
        split_ifs with hdone
        · exact .returns hcap .moved
        · exact .again hcap (by rwa [hlen])
      · rw [← hleft] at hclear
        obtain ⟨u', hloop⟩ := chunkLoop_of_fault mem h (by omega) le_rfl hclear
        rw [hloop]
        exact .returns (le_max_left _ _) .fault
    · dsimp only
      split_ifs with hnon
      · exact .partly written (by decide)
      · exact .waits h

/-! ## Whole runs -/

/-- What the machine keeps for the call `id`: its transfer and the record agree on what it has
moved. -/
def Keeps (s : St) (id : Nat) : Option Call → Prop
  | none => movedBy s.entered id = [] ∧ movedBy s.handed id = []
  | some (.reading len u) =>
    u.WF ∧ u.resid = len ∧ movedBy s.entered id = [] ∧ movedBy s.handed id = []
  | some (.writing len u written) =>
    u.WF ∧ u.resid + written = len ∧ (movedBy s.entered id).length = written ∧
      movedBy s.handed id = []
  | some (.returned r) => Reports ((movedBy s.entered id).length + (movedBy s.handed id).length) r

/-- The invariant of the machine. -/
structure Inv (s : St) : Prop where
  order : s.handed.map Prod.snd ++ s.rest = s.entered.map Prod.snd
  calls : ∀ id, Keeps s id (s.calls id)
  capacity : ∀ p, s.pipe = some p → p.data.length ≤ pipeCapacity

theorem init_inv : Inv St.init := by
  refine ⟨rfl, fun id ↦ ⟨rfl, rfl⟩, ?_⟩
  rintro p ⟨⟩
  exact Nat.zero_le _

/-- A failed call is not in the record, so leaving failed calls out of it changes nothing. -/
theorem Inv.reported (h : Inv s) {l : List (Nat × UInt8)} (hl : l = s.entered ∨ l = s.handed) :
    s.reported l = l.map Prod.snd := by
  rw [St.reported, filter_eq_self.2]
  intro x hx
  rw [decide_eq_true_eq, St.Counts]
  split
  case h_2 => trivial
  case h_1 r hr =>
    have hcall := h.calls x.1
    rw [hr] at hcall
    rcases hcall with rfl | ⟨-, hzero⟩
    · exact Int.natCast_nonneg _
    · have hmem : x ∈ movedBy l x.1 := mem_filter.2 ⟨hx, by simp⟩
      rcases hl with rfl | rfl
      · rw [length_eq_zero_iff.1 (show (movedBy s.entered x.1).length = 0 by omega)] at hmem
        exact absurd hmem not_mem_nil
      · rw [length_eq_zero_iff.1 (show (movedBy s.handed x.1).length = 0 by omega)] at hmem
        exact absurd hmem not_mem_nil

theorem Inv.delivers (h : Inv s) : s.Delivers where
  order := by rw [h.reported (Or.inr rfl), h.reported (Or.inl rfl), h.order]
  reports id r hr hpos := by
    have hcall := h.calls id
    rw [hr] at hcall
    rcases hcall with hcall | ⟨hneg, -⟩
    · exact hcall.symm
    · omega
  failed id r hr hneg := by
    have hcall := h.calls id
    rw [hr] at hcall
    rcases hcall with hcall | ⟨-, hzero⟩
    · omega
    · exact ⟨length_eq_zero_iff.1 (by omega), length_eq_zero_iff.1 (by omega)⟩
  capacity := h.capacity

theorem length_movedBy_append (l : List (Nat × UInt8)) (xs : List UInt8) (id : Nat) :
    (movedBy (l ++ xs.map fun b ↦ (id, b)) id).length = (movedBy l id).length + xs.length := by
  simp [movedBy, filter_map]

theorem movedBy_append_of_ne (l : List (Nat × UInt8)) (xs : List UInt8) {id' : Nat} (h : id' ≠ id) :
    movedBy (l ++ xs.map fun b ↦ (id, b)) id' = movedBy l id' := by
  simp [movedBy, Ne.symm h]

/-- What is kept for a call depends only on what the record has of it. -/
theorem Keeps.congr {c : Option Call} (h : Keeps s id c)
    (hentered : movedBy s'.entered id = movedBy s.entered id)
    (hhanded : movedBy s'.handed id = movedBy s.handed id) : Keeps s' id c := by
  unfold Keeps at *
  rwa [hentered, hhanded]

theorem begin_keeps (h : Keeps s id none) (dir : End) (iov : List IoSeg) (seg : UioSeg)
    (explicit allowed : Bool) : Keeps s id (some (begin dir iov seg explicit allowed)) := by
  obtain ⟨hentered, hhanded⟩ := h
  have hzero : (movedBy s.entered id).length + (movedBy s.handed id).length = 0 := by
    rw [hentered, hhanded]
    rfl
  have hfail : ∀ e, 0 < e → Keeps s id (some (.returned (failure e))) := fun e he ↦
    Or.inr ⟨by rw [failure]; omega, hzero⟩
  rw [begin]
  split
  · rename_i e hnew
    cases (of_ite_left hnew nofun).2
    exact hfail _ (by decide)
  · rename_i u hnew
    split_ifs with hexplicit hallowed hresid
    · exact hfail _ (by decide)
    · exact Or.inl (by rw [hzero]; rfl)
    · cases dir with
      | read => exact ⟨new_wf hnew, rfl, hentered, hhanded⟩
      | write => exact ⟨new_wf hnew, rfl, by rw [hentered]; rfl, hhanded⟩
    · exact hfail _ (by decide)

/-- A step that changes the buffer's flags or tears it down. -/
theorem Inv.flags (h : Inv s) {dropped : List UInt8}
    (hrest : { s with pipe := pipe, dropped := dropped }.rest = s.rest )
    (hdata : ∀ p', pipe = some p' → ∃ p, s.pipe = some p ∧ p'.data = p.data) :
    Inv { s with pipe := pipe, dropped := dropped } where
  order := by
    rw [hrest]
    exact h.order
  calls := h.calls
  capacity p' hp' := by
    obtain ⟨p, hp, heq⟩ := hdata p' hp'
    rw [heq]
    exact h.capacity p hp

theorem Inv.remove (h : Inv s) : Inv s.remove := by
  rw [St.remove]
  split
  · exact h
  · rename_i p hp
    exact h.flags (by rw [St.rest, St.rest, hp]) (by simp)

theorem St.record_calls (s : St) (id : Nat) (call : Call) (pipe : Option PipeBuffer)
    (xs ys : List UInt8) :
    (s.record id call pipe xs ys).calls = update s.calls id (some call) := rfl

/-- A call that returns from a turn reports what it moved before and in the turn. -/
theorem Keeps.returned {xs ys : List UInt8}
    (h : Reports ((movedBy s.entered id).length + xs.length +
      ((movedBy s.handed id).length + ys.length)) r) :
    Keeps (s.record id (.returned r) pipe xs ys) id (some (.returned r)) := by
  show Reports ((movedBy (s.entered ++ _) id).length + (movedBy (s.handed ++ _) id).length) r
  rwa [length_movedBy_append, length_movedBy_append]

theorem closeDirection_data {dir : End} {p p' : PipeBuffer} (h : closeDirection dir p = some p') :
    p'.data = p.data := by
  cases dir <;> (simp only [closeDirection] at h; split_ifs at h; cases h; rfl)

/-- A turn keeps the invariant if it does so for its own call and its buffer. -/
theorem Inv.record (h : Inv s) {call : Call} {xs ys : List UInt8}
    (hrest : ys ++ (s.record id call pipe xs ys).rest = s.rest ++ xs)
    (hcap : ∀ p, pipe = some p → p.data.length ≤ pipeCapacity)
    (hcall : Keeps (s.record id call pipe xs ys) id (some call)) :
    Inv (s.record id call pipe xs ys) := by
  refine ⟨?_, fun id' ↦ ?_, hcap⟩
  · simp only [St.record, map_append, map_map, comp_def, map_id']
    rw [append_assoc, ← h.order, append_assoc, ← hrest]
    rfl
  · by_cases hid : id' = id
    · subst hid
      rwa [St.record_calls, update_self]
    · rw [St.record_calls, update_of_ne hid]
      exact (h.calls id').congr (movedBy_append_of_ne _ _ hid) (movedBy_append_of_ne _ _ hid)

/-- A turn that only moves its call on. -/
theorem Inv.record_nil (h : Inv s) {call : Call}
    (hcall : Keeps (s.record id call s.pipe [] []) id (some call)) :
    Inv (s.record id call s.pipe [] []) :=
  h.record (by rw [append_nil]; rfl) h.capacity hcall

theorem Inv.readTurn (h : Inv s) {mem : Memory} {nonblocking : Bool}
    (hcall : s.calls id = some (.reading len u))
    (hr : ReadTurn u s.pipe (blockingRead mem front nonblocking s.pipe u))
    (hstep : s.turn id mem front nonblocking = some s') : Inv s' := by
  have hkeeps := h.calls id
  rw [hcall] at hkeeps
  obtain ⟨hwf, rfl, hentered, hhanded⟩ := hkeeps
  rw [St.turn, hcall] at hstep
  dsimp only at hstep
  revert hr hstep
  generalize blockingRead mem front nonblocking s.pipe u = r
  generalize hpipe : s.pipe = pipe
  intro hr hstep
  cases hr with
  | @takes p n u' r hn hr =>
    cases hstep
    refine h.record ?_ ?_ ?_
    · simp [St.rest, St.record, hpipe]
    · rintro p' ⟨⟩
      rw [length_drop]
      exact (Nat.sub_le _ _).trans (h.capacity p hpipe)
    · exact .returned (by simpa [hentered, hhanded, hn] using hr)
  | nothing hr =>
    cases hstep
    subst hpipe
    exact h.record_nil (.returned (by simpa [hentered, hhanded] using hr))
  | again =>
    cases hstep
    subst hpipe
    exact h.record_nil (by simpa [Keeps, St.record, hentered, hhanded] using hwf)

theorem Inv.writeTurn (h : Inv s) {written : Nat} {mem : Memory} {nonblocking : Bool}
    (hcall : s.calls id = some (.writing len u written))
    (hr : WriteTurn u written s.pipe (writeInto mem nonblocking s.pipe u written))
    (hstep : s.turn id mem front nonblocking = some s') : Inv s' := by
  have hkeeps := h.calls id
  rw [hcall] at hkeeps
  obtain ⟨hwf, rfl, hentered, hhanded⟩ := hkeeps
  rw [St.turn, hcall] at hstep
  dsimp only at hstep
  revert hr hstep
  generalize writeInto mem nonblocking s.pipe u written = r
  generalize hpipe : s.pipe = pipe
  intro hr hstep
  have hfits : ∀ {p xs}, s.pipe = some p →
      p.data.length + xs.length ≤ max p.data.length pipeCapacity →
      (p.data ++ xs).length ≤ pipeCapacity := fun hp hcap ↦ by
    have := h.capacity _ hp
    rw [length_append]
    omega
  cases hr with
  | @returns p xs u' r hcap hr =>
    cases hstep
    refine h.record ?_ ?_ ?_
    · simp [St.rest, St.record, hpipe]
    · rintro p' ⟨⟩
      exact hfits hpipe hcap
    · exact .returned (by simpa [hentered, hhanded] using hr)
  | @again p xs u' hcap hadv =>
    cases hstep
    refine h.record ?_ ?_ ?_
    · simp [St.rest, St.record, hpipe]
    · rintro p' ⟨⟩
      exact hfits hpipe hcap
    · refine ⟨hadv.wf, ?_, ?_, by simpa [St.record] using hhanded⟩
      · rw [← hadv.resid, Nat.add_assoc, Nat.add_comm xs.length]
      · rw [← hentered]
        exact length_movedBy_append ..
  | nothing hr =>
    cases hstep
    subst hpipe
    exact h.record_nil (.returned (by simpa [hentered, hhanded] using hr))

/-- One harmless step keeps the invariant. -/
theorem step_inv (s : St) (e : Event) (s' : St) (hharm : s.Harmless e) (h : Inv s)
    (hstep : s.step e = some s') : Inv s' := by
  cases e with
  | start id dir iov seg explicit allowed =>
    rw [St.step] at hstep
    split_ifs at hstep with hfresh
    cases hstep
    refine ⟨h.order, fun id' ↦ ?_, h.capacity⟩
    by_cases hid : id' = id
    · subst hid
      have hnone := h.calls id'
      rw [hfresh] at hnone
      dsimp only
      rw [update_self]
      exact begin_keeps hnone ..
    · dsimp only
      rw [update_of_ne hid]
      exact h.calls id'
  | turn id mem front nonblocking =>
    rw [St.step] at hstep
    have hkeeps := h.calls id
    match hcall : s.calls id with
    | none => simp [St.turn, hcall] at hstep
    | some (.returned r) => simp [St.turn, hcall] at hstep
    | some (.reading len u) =>
      rw [hcall] at hkeeps
      refine h.readTurn hcall (blockingRead_spec mem front nonblocking _ hkeeps.1 fun p hp ↦ ?_) hstep
      simpa only [St.Harmless, hcall, hp] using hharm
    | some (.writing len u written) =>
      rw [hcall] at hkeeps
      refine h.writeTurn hcall (writeInto_spec mem nonblocking _ written hkeeps.1 fun p hp ↦ ?_) hstep
      simpa only [St.Harmless, hcall, hp] using hharm
  | closeDirection dir =>
    rw [St.step] at hstep
    split at hstep
    · cases hstep
      exact h
    · rename_i p hp
      split at hstep
      · cases hstep
        exact h.remove
      · rename_i p' hp'
        cases hstep
        have hdata := closeDirection_data hp'
        refine h.flags (by rw [St.rest, St.rest, hp]; exact hdata) ?_
        rintro _ ⟨⟩
        exact ⟨p, hp, hdata⟩
  | fifoChanged readers writers =>
    cases hstep
    refine h.flags ?_ fun p' hp' ↦ ?_
    · rw [St.rest, St.rest]
      cases s.pipe <;> rfl
    · obtain ⟨p, hp, rfl⟩ := Option.map_eq_some_iff.1 hp'
      exact ⟨p, hp, rfl⟩
  | fifoRemoved =>
    cases hstep
    exact h.remove

/-- **Pipes deliver.**  In every run from a fresh buffer in which copies fault only before their
call has moved anything, in every state reached: bytes come out once and in the order they went in,
calls report what they moved, and calls that fail moved nothing. -/
theorem run_delivers {es : List Event} {s : St} (hharm : Machine.Meets St.step St.Harmless St.init es)
    (hrun : Machine.run St.step St.init es = some s) : s.Delivers :=
  (Machine.run_inv step_inv init_inv hharm hrun).delivers

/-- Memory that is mapped below `limit`. -/
def mappedBelow (limit : Nat) : Memory :=
  ⟨fun a ↦ a < limit, fun a ↦ a < limit, fun a ↦ .ofNat a⟩

/-- A write of two bytes, and a read of three. -/
def twoBytes : List Event :=
  [.start 0 .write [⟨0x1000, 2⟩] .user false true, .turn 0 (mappedBelow 0x2000) 0 false,
    .start 1 .read [⟨0x1800, 3⟩] .user false true, .turn 1 (mappedBelow 0x2000) 2 false]

theorem run_delivers_twoBytes : ∃ s, Machine.run St.step St.init twoBytes = some s ∧
    s.calls 1 = some (.returned 2) ∧ s.Delivers :=
  Machine.exists_run_and (by decide +kernel) fun _ hs ↦ run_delivers (by decide +kernel) hs

/-- A write of 513 bytes of which the last is not mapped. -/
def faultyWrite : List Event :=
  [.start 0 .write [⟨0x2000 - 512, 513⟩] .user false true, .turn 0 (mappedBelow 0x2000) 0 false]

/-- The first chunk stays in the buffer, and the call returns `EFAULT`. -/
theorem faultyWrite_not_delivers : ∃ s, Machine.run St.step St.init faultyWrite = some s ∧
    s.calls 0 = some (.returned (failure EFAULT)) ∧ s.rest.length = 512 ∧ ¬ s.Delivers := by
  refine Machine.exists_run_of (fun s ↦ s.calls 0 = some (.returned (failure EFAULT)) ∧
    s.rest.length = 512 ∧ (movedBy s.entered 0).length = 512) (by decide +kernel)
    fun s _ ⟨hcall, hrest, hmoved⟩ ↦ ?_
  refine ⟨hcall, hrest, fun h ↦ ?_⟩
  rw [(h.failed 0 _ hcall (by decide)).1] at hmoved
  exact absurd hmoved (by decide)

end OxideBSD.Pipe
