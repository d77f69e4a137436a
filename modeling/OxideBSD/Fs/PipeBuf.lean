import OxideBSD.Fs.Pipe

/-!
# Small writes to a pipe

A write of at most `PIPE_BUF` bytes is to be atomic: its bytes stand together in the stream, and on
a non-blocking descriptor it transfers all of them or none.  `write_into` of `sys/fs/pipe.rs` does
not look at the length: with any room at all it writes what fits, and the rest in a later turn.

The machine is the one of `OxideBSD.Fs.Pipe`, with a record of the length each write asked for,
whether its descriptor was blocking, and whether it met a closed pipe or bad memory.

* `Atomic` is what is expected of small writes.
* `step_whole`, `run_atomic`: that holds of every run in which a small write finds no room or room
  for all of it (`Fits`).
* `torn_not_atomic`: it does not hold in general; a write that finds room for one of its two bytes
  is torn apart by another.
-/

set_option autoImplicit false

namespace OxideBSD.Pipe

open Function Kern Kern.Uio List Option

/-- `PIPE_BUF`. -/
def pipeBuf : Nat := 4096

/-! ## The machine, watched -/

/-- A turn of the write `id` meets a closed pipe, or memory that cannot be read. -/
def St.Refuses (s : St) (id : Nat) (mem : Memory) : Prop :=
  match s.calls id with
  | some (.writing _ u _) =>
    (∀ p ∈ s.pipe, p.readClosed || p.writeClosed) ∨ ¬ u.Clear mem.readable u.resid
  | _ => False

instance (s : St) (id : Nat) (mem : Memory) : Decidable (s.Refuses id mem) := by
  unfold St.Refuses
  exact match s.calls id with
    | some (.writing ..) => inferInstance
    | none | some (.reading ..) | some (.returned _) => isFalse not_false

/-- A pipe and what is remembered of the writes to it. -/
structure Watched where
  st : St
  /-- The length of each write that `transfer` let through. -/
  asked : Nat → Option Nat
  /-- Whether a turn of the call was made on a blocking descriptor. -/
  blocking : Nat → Bool
  refused : Nat → Bool

namespace Watched

def step (w : Watched) : Event → Option Watched
  | .start id dir iov seg explicit allowed =>
    (w.st.step (.start id dir iov seg explicit allowed)).map fun s ↦
      match s.calls id with
      | some (.writing len _ _) =>
        { w with st := s, asked := update w.asked id (some len) }
      | _ => { w with st := s }
  | .turn id mem front nonblocking =>
    (w.st.step (.turn id mem front nonblocking)).map fun s ↦
      { w with
        st := s
        blocking := update w.blocking id (w.blocking id || !nonblocking)
        refused := update w.refused id (w.refused id || decide (w.st.Refuses id mem)) }
  | e => (w.st.step e).map fun s ↦ { w with st := s }

/-- A fresh pipe. -/
def init : Watched := ⟨St.init, fun _ ↦ none, fun _ ↦ false, fun _ ↦ false⟩

/-- How a write of `len` bytes that never blocks may end: with all of them, or with none because
there was no room, or because the pipe was closed or the memory bad. -/
def AllOrNone (w : Watched) (id len : Nat) (r : Int) : Prop :=
  r = len ∧ (movedBy w.st.entered id).length = len ∨
    movedBy w.st.entered id = [] ∧ (r = failure EAGAIN ∨ w.refused id = true ∧ r < 0)

/-- The bytes of a small write stand together in the stream, and one that does not block transfers
all of them or none. -/
structure Atomic (w : Watched) : Prop where
  together : ∀ id len, w.asked id = some len → len ≤ pipeBuf →
    movedBy w.st.entered id <:+: w.st.entered
  whole : ∀ id len r, w.asked id = some len → len ≤ pipeBuf → w.st.calls id = some (.returned r) →
    w.blocking id = false → w.AllOrNone id len r

/-- A small write to an open pipe finds no room, or room for all of it; and then the memory it is
from can be read, or not even the first chunk of it. -/
def Fits (w : Watched) : Event → Prop
  | .turn id mem _ _ =>
    match w.st.calls id, w.st.pipe with
    | some (.writing len u _), some p =>
      len ≤ pipeBuf → (p.readClosed || p.writeClosed) = false →
        pipeCapacity ≤ p.data.length ∨
          u.resid ≤ pipeCapacity - p.data.length ∧
            (u.Clear mem.readable u.resid ∨ ¬ u.Clear mem.readable (min u.resid chunkSize))
    | _, _ => True
  | _ => True

instance (w : Watched) : (e : Event) → Decidable (w.Fits e)
  | .turn id mem _ _ => by
    unfold Fits
    dsimp only
    exact match w.st.calls id, w.st.pipe with
      | some (.writing ..), some _ => inferInstance
      | none, _ | some (.reading ..), _ | some (.returned _), _ | some (.writing ..), none =>
        isTrue trivial
  | .start .. | .closeDirection _ | .fifoChanged .. | .fifoRemoved => isTrue trivial

end Watched

/-! ## One turn of a small write -/

/-- What a turn of a write that has moved nothing can do if it fits: move everything, fail with
nothing moved, or go on waiting. -/
inductive WholeTurn (len : Nat) (nonblocking refused : Bool) (u : Uio) :
    Turn × Option PipeBuffer × Uio × List UInt8 → Prop
  | all {pipe : Option PipeBuffer} {u' : Uio} {xs : List UInt8} (hlen : xs.length = len) :
      WholeTurn len nonblocking refused u (.returns (len : Nat), pipe, u', xs)
  | none {pipe : Option PipeBuffer} {u' : Uio} {r : Int} (hneg : r < 0)
      (hr : transferResult len u' r = r) (hwhy : r = failure EAGAIN ∨ refused = true) :
      WholeTurn len nonblocking refused u (.returns r, pipe, u', [])
  | again {pipe : Option PipeBuffer} (hnon : nonblocking = false) :
      WholeTurn len nonblocking refused u (.again, pipe, u, [])

theorem writeInto_whole (mem : Memory) (nonblocking refused : Bool) (pipe : Option PipeBuffer)
    {u : Uio} (h : u.WF) (hpos : 0 < u.resid)
    (hfits : ∀ p, pipe = some p → (p.readClosed || p.writeClosed) = false →
      pipeCapacity ≤ p.data.length ∨ u.resid ≤ pipeCapacity - p.data.length ∧
        (u.Clear mem.readable u.resid ∨ ¬ u.Clear mem.readable (min u.resid chunkSize)))
    (hrefused : (∀ p ∈ pipe, p.readClosed || p.writeClosed) ∨ ¬ u.Clear mem.readable u.resid →
      refused = true) :
    WholeTurn u.resid nonblocking refused u (writeInto mem nonblocking pipe u 0) := by
  cases pipe with
  | none =>
    exact .none (by decide) transferResult_of_eq (Or.inr (hrefused (Or.inl (by simp))))
  | some p =>
    rw [writeInto]
    by_cases hclosed : (p.readClosed || p.writeClosed) = true
    · rw [if_pos hclosed]
      exact .none (by decide) transferResult_of_eq
        (Or.inr (hrefused (Or.inl (by simpa using hclosed))))
    rw [if_neg hclosed]
    dsimp only
    rcases hfits p rfl (by simpa using hclosed) with hfull | ⟨hroom, hmem⟩
    · rw [if_neg (by omega)]
      split_ifs with hnon
      · exact .none (by decide) transferResult_of_eq (Or.inl rfl)
      · exact .again (by simpa using hnon)
    · rw [if_pos (by omega), Nat.min_eq_left hroom]
      rcases hmem with hclear | hclear
      · obtain ⟨u', hloop, hadv⟩ := chunkLoop_of_clear mem h le_rfl le_rfl hclear
        have hlen := length_bytes mem h (le_refl u.resid)
        have hresid : u'.resid = 0 := by
          have := hadv.resid
          omega
        rw [hloop]
        rw [if_pos hresid, Nat.zero_add, hlen]
        exact .all hlen
      · obtain ⟨u', hloop⟩ := chunkLoop_of_fault mem h le_rfl le_rfl hclear
        rw [hloop]
        refine .none (by decide) (transferResult_of_ne (by decide)) (Or.inr (hrefused (Or.inr ?_)))
        exact fun hall ↦ hclear (hall.mono (Nat.min_le_left ..))

/-! ## Whole runs -/

namespace Watched

/-- What is kept of the small write `id` of `len` bytes: until it returns it has moved nothing. -/
def Whole (w : Watched) (id len : Nat) : Option Call → Prop
  | some (.writing _ u written) =>
    u.WF ∧ u.resid = len ∧ 0 < len ∧ written = 0 ∧ movedBy w.st.entered id = []
  | some (.returned r) =>
    movedBy w.st.entered id <:+: w.st.entered ∧ (w.blocking id = false → w.AllOrNone id len r)
  | _ => False

/-- The invariant of the watched machine. -/
structure Inv (w : Watched) : Prop where
  fresh : ∀ id, w.st.calls id = none → movedBy w.st.entered id = []
  asked : ∀ id len u written, w.st.calls id = some (.writing len u written) →
    w.asked id = some len
  small : ∀ id len, w.asked id = some len → len ≤ pipeBuf → w.Whole id len (w.st.calls id)

variable {w w' : Watched} {id len : Nat}

theorem Inv.atomic (h : Inv w) : w.Atomic where
  together id len hasked hlen := by
    have hwhole := h.small id len hasked hlen
    revert hwhole
    rcases w.st.calls id with _ | ⟨len', u⟩ | ⟨len', u, written⟩ | r
    · exact False.elim
    · exact False.elim
    · rintro ⟨_, _, _, _, hnone⟩
      rw [hnone]
      exact nil_infix
    · exact And.left
  whole id len r hasked hlen hr := by
    have hwhole := h.small id len hasked hlen
    rw [hr] at hwhole
    exact hwhole.2

theorem inv_init : Inv init := by
  refine ⟨fun _ _ ↦ rfl, fun _ _ _ _ hcall ↦ ?_, fun _ _ hasked ↦ ?_⟩
  · cases hcall
  · cases hasked

/-- What is kept of a small write is not touched by what others add to the stream. -/
theorem Whole.congr {c : Option Call} (h : w.Whole id len c)
    (hmoved : movedBy w'.st.entered id = movedBy w.st.entered id)
    (hentered : w.st.entered <+: w'.st.entered) (hblocking : w'.blocking id = w.blocking id)
    (hrefused : w'.refused id = w.refused id) : w'.Whole id len c := by
  rcases c with _ | ⟨len', u⟩ | ⟨len', u, written⟩ | r
  · exact h
  · exact h
  · obtain ⟨hwf, hresid, hpos, hwritten, hnone⟩ := h
    exact ⟨hwf, hresid, hpos, hwritten, hmoved.trans hnone⟩
  · obtain ⟨htogether, hall⟩ := h
    refine ⟨?_, ?_⟩
    · rw [hmoved]
      exact htogether.trans hentered.isInfix
    · rwa [AllOrNone, hmoved, hblocking, hrefused]

/-- The start or a turn of the call `id`: nothing changes for the others, and the call itself is as
kept. -/
theorem Inv.moved (h : Inv w) {call : Call} (added : List UInt8)
    (hcalls : w'.st.calls = update w.st.calls id (some call))
    (hentered : w'.st.entered = w.st.entered ++ added.map fun b ↦ (id, b))
    (hothers : ∀ id', id' ≠ id → w'.asked id' = w.asked id' ∧ w'.blocking id' = w.blocking id' ∧
      w'.refused id' = w.refused id')
    (hwriting : ∀ len u written, call = .writing len u written → w'.asked id = some len)
    (hwhole : ∀ len, w'.asked id = some len → len ≤ pipeBuf → w'.Whole id len (some call)) :
    Inv w' := by
  have hmoved : ∀ id', id' ≠ id → movedBy w'.st.entered id' = movedBy w.st.entered id' := by
    intro id' hid
    rw [hentered, movedBy_append_of_ne _ _ hid]
  refine ⟨fun id' hnone ↦ ?_, fun id' len u written hcall ↦ ?_, fun id' len hlen hsmall ↦ ?_⟩
  · have hid : id' ≠ id := by
      rintro rfl
      simp [hcalls] at hnone
    rw [hcalls, update_of_ne hid] at hnone
    rw [hmoved id' hid, h.fresh id' hnone]
  · by_cases hid : id' = id
    · subst hid
      rw [hcalls, update_self] at hcall
      exact hwriting len u written (some.inj hcall)
    · rw [hcalls, update_of_ne hid] at hcall
      rw [(hothers id' hid).1]
      exact h.asked id' len u written hcall
  · by_cases hid : id' = id
    · subst hid
      rw [hcalls, update_self]
      exact hwhole len hlen hsmall
    · obtain ⟨hasked, hblocking, hrefused⟩ := hothers id' hid
      rw [hcalls, update_of_ne hid]
      rw [hasked] at hlen
      exact (h.small id' len hlen hsmall).congr (hmoved id' hid)
        (hentered ▸ prefix_append _ _) hblocking hrefused

/-- A turn is remembered of its own call only. -/
theorem others_turned (w : Watched) (id : Nat) (blocking refused : Bool) (st : St) (id' : Nat)
    (hid : id' ≠ id) :
    { w with
      st := st
      blocking := update w.blocking id blocking
      refused := update w.refused id refused }.asked id' = w.asked id' ∧
    update w.blocking id blocking id' = w.blocking id' ∧
    update w.refused id refused id' = w.refused id' :=
  ⟨rfl, update_of_ne hid _ _, update_of_ne hid _ _⟩

theorem movedBy_append_self (l : List (Nat × UInt8)) (xs : List UInt8) (id : Nat) :
    movedBy (l ++ xs.map fun b ↦ (id, b)) id = movedBy l id ++ xs.map fun b ↦ (id, b) := by
  rw [movedBy, movedBy]
  simp

/-- A turn of a small write that fits. -/
theorem Inv.smallTurn (h : Inv w) {front : Nat} {u : Uio} {written : Nat} {mem : Memory}
    {nonblocking : Bool} (hcall : w.st.calls id = some (.writing len u written))
    (hsmall : len ≤ pipeBuf) (hfits : w.Fits (.turn id mem front nonblocking))
    (hstep : w.step (.turn id mem front nonblocking) = some w') : Inv w' := by
  have hasked := h.asked id len u written hcall
  have hkept := h.small id len hasked hsmall
  rw [hcall] at hkept
  obtain ⟨hwf, rfl, hpos, rfl, hnone⟩ := hkept
  obtain ⟨s', hs', rfl⟩ := map_eq_some_iff.1 hstep
  have hturn : WholeTurn u.resid nonblocking (decide (w.st.Refuses id mem)) u
      (writeInto mem nonblocking w.st.pipe u 0) := by
    refine writeInto_whole mem nonblocking _ w.st.pipe hwf hpos (fun p hp hopen ↦ ?_) fun hr ↦ ?_
    · rw [Fits, hcall, hp] at hfits
      exact hfits hsmall hopen
    · rw [decide_eq_true_eq, St.Refuses, hcall]
      exact hr
  rw [St.step, St.turn, hcall] at hs'
  dsimp only at hs'
  revert hturn hs'
  generalize writeInto mem nonblocking w.st.pipe u 0 = r
  intro hs' hturn
  cases hturn with
  | @all pipe u' xs hlen =>
    cases hs'
    refine h.moved _ rfl rfl (others_turned w id _ _ _) (by simp)
      fun len' hlen' _ ↦ ?_
    cases hasked.symm.trans hlen'
    have hmoved := movedBy_append_self w.st.entered xs id
    rw [hnone] at hmoved
    refine ⟨?_, fun _ ↦ Or.inl ⟨transferResult_of_nonneg (Int.natCast_nonneg _), ?_⟩⟩
    · exact hmoved.symm ▸ (suffix_append _ _).isInfix
    · exact hmoved.symm ▸ (length_map _).trans hlen
  | @none pipe u' r hneg hr hwhy =>
    cases hs'
    refine h.moved _ rfl rfl (others_turned w id _ _ _) (by simp)
      fun len' hlen' _ ↦ ?_
    have hmoved : movedBy (w.st.entered ++ [].map fun b ↦ (id, b)) id = [] := by
      rw [movedBy_append_self, hnone]
      rfl
    refine ⟨hmoved.symm ▸ nil_infix, fun _ ↦ Or.inr ⟨hmoved, ?_⟩⟩
    rw [hr]
    exact hwhy.imp_right fun hrefused ↦ ⟨by simp [hrefused], hneg⟩
  | again hnon =>
    cases hs'
    refine h.moved _ rfl rfl (others_turned w id _ _ _) (fun _ _ _ hw ↦ ?_) fun len' hlen' _ ↦ ?_
    · cases hw
      exact hasked
    · cases hasked.symm.trans hlen'
      exact ⟨hwf, rfl, hpos, rfl, by simpa [St.record] using hnone⟩

/-- A turn of another call. -/
theorem Inv.otherTurn (h : Inv w) {front : Nat} {mem : Memory} {nonblocking : Bool}
    (hbig : ∀ len, w.asked id = some len → ¬ len ≤ pipeBuf)
    (hstep : w.step (.turn id mem front nonblocking) = some w') : Inv w' := by
  obtain ⟨s', hs', rfl⟩ := map_eq_some_iff.1 hstep
  rw [St.step, St.turn] at hs'
  split at hs'
  next len u hcall =>
    dsimp only at hs'
    split at hs' <;> cases hs' <;>
      exact h.moved _ rfl rfl (others_turned w id _ _ _) (by simp)
        fun len hlen hsmall ↦ absurd hsmall (hbig len hlen)
  next len u written hcall =>
    dsimp only at hs'
    split at hs' <;> cases hs' <;>
      refine h.moved _ rfl rfl (others_turned w id _ _ _) (fun _ _ _ hw ↦ ?_)
        fun len hlen hsmall ↦ absurd hsmall (hbig len hlen)
    · cases hw
    · cases hw
      exact h.asked id len u written hcall
  next => cases hs'

theorem begin_writing {dir : End} {iov : List IoSeg} {seg : UioSeg} {explicit allowed : Bool}
    {written : Nat} {u : Uio} (h : begin dir iov seg explicit allowed = .writing len u written) :
    u.WF ∧ u.resid = len ∧ 0 < len ∧ written = 0 := by
  rw [begin] at h
  split at h
  · cases h
  next u' hnew =>
    split_ifs at h with hexplicit hallowed hresid
    cases dir with
    | read => cases h
    | write =>
      cases h
      exact ⟨new_wf hnew, rfl, Nat.pos_of_ne_zero hresid, rfl⟩

theorem Inv.start (h : Inv w) {dir : End} {iov : List IoSeg} {seg : UioSeg}
    {explicit allowed : Bool} (hstep : w.step (.start id dir iov seg explicit allowed) = some w') :
    Inv w' := by
  obtain ⟨s', hs', hw'⟩ := map_eq_some_iff.1 hstep
  rw [St.step] at hs'
  split_ifs at hs' with hnone
  cases hs'
  dsimp only at hw'
  rw [update_self] at hw'
  split at hw'
  next len u written hcall =>
    subst hw'
    obtain ⟨hwf, hresid, hpos, hwritten⟩ := begin_writing (some.inj hcall)
    refine h.moved [] rfl (append_nil _).symm
      (fun id' hid ↦ ⟨update_of_ne hid _ _, rfl, rfl⟩) (fun len' u' written' hw ↦ ?_)
      fun len' hlen' _ ↦ ?_
    · rw [← some_inj, hcall] at hw
      cases hw
      exact update_self ..
    · simp only [update_self, some.injEq] at hlen'
      rw [hcall, ← hlen']
      exact ⟨hwf, hresid, hpos, hwritten, h.fresh id hnone⟩
  next hnot =>
    subst hw'
    refine h.moved [] rfl (append_nil _).symm (fun _ _ ↦ ⟨rfl, rfl, rfl⟩)
      (fun len u written hw ↦ ?_) fun len hlen hsmall ↦ ?_
    · exact absurd (congrArg some hw) (hnot len u written)
    · have hkept := h.small id len hlen hsmall
      rw [hnone] at hkept
      exact hkept.elim

theorem remove_calls (s : St) : s.remove.calls = s.calls := by
  rw [St.remove]
  split <;> rfl

theorem remove_entered (s : St) : s.remove.entered = s.entered := by
  rw [St.remove]
  split <;> rfl

/-- An event that is neither the start nor a turn of a call. -/
theorem Inv.flagged (h : Inv w) {s' : St} (hcalls : s'.calls = w.st.calls)
    (hentered : s'.entered = w.st.entered) : Inv { w with st := s' } := by
  refine ⟨fun id hnone ↦ ?_, fun id len u written hcall ↦ ?_, fun id len hasked hsmall ↦ ?_⟩
  · dsimp only at hnone ⊢
    rw [hcalls] at hnone
    rw [hentered, h.fresh id hnone]
  · dsimp only at hcall ⊢
    rw [hcalls] at hcall
    exact h.asked id len u written hcall
  · dsimp only at hasked ⊢
    rw [hcalls]
    exact (h.small id len hasked hsmall).congr (by rw [hentered])
      (hentered ▸ prefix_rfl) rfl rfl

/-- **One step keeps small writes whole.** -/
theorem step_whole {e : Event} (hfits : w.Fits e) (h : Inv w) (hstep : w.step e = some w') :
    Inv w' := by
  cases e with
  | start id dir iov seg explicit allowed => exact h.start hstep
  | turn id mem front nonblocking =>
    by_cases hbig : ∀ len, w.asked id = some len → ¬ len ≤ pipeBuf
    · exact h.otherTurn hbig hstep
    · push Not at hbig
      obtain ⟨len, hasked, hsmall⟩ := hbig
      have hkept := h.small id len hasked hsmall
      obtain ⟨s', hs', -⟩ := map_eq_some_iff.1 hstep
      rw [St.step, St.turn] at hs'
      split at hs'
      next len' u hcall =>
        rw [hcall] at hkept
        exact hkept.elim
      next len' u written hcall =>
        cases hasked.symm.trans (h.asked id len' u written hcall)
        exact h.smallTurn hcall hsmall hfits hstep
      next => cases hs'
  | closeDirection dir =>
    obtain ⟨s', hs', rfl⟩ := map_eq_some_iff.1 hstep
    rw [St.step] at hs'
    split at hs'
    · cases hs'
      exact h
    · split at hs' <;> cases hs'
      · exact h.flagged (remove_calls _) (remove_entered _)
      · exact h.flagged rfl rfl
  | fifoChanged readers writers =>
    cases hstep
    exact h.flagged rfl rfl
  | fifoRemoved =>
    cases hstep
    exact h.flagged (remove_calls _) (remove_entered _)

/-- **Small writes are atomic in every run in which they fit.** -/
theorem run_atomic {es : List Event} {w : Watched} (hfits : Machine.Meets step Fits init es)
    (hrun : Machine.run step init es = some w) : w.Atomic :=
  (Machine.run_inv (fun _ _ _ hfits h hstep ↦ step_whole hfits h hstep) inv_init hfits hrun).atomic

/-- Two small writes on a non-blocking descriptor. -/
theorem run_atomic_twoWrites : ∃ w, Machine.run step init
      [.start 0 .write [⟨0x1000, 2⟩] .user false true, .turn 0 (mappedBelow 0x2000) 0 true,
        .start 1 .write [⟨0x1800, 3⟩] .user false true, .turn 1 (mappedBelow 0x1802) 0 true]
        = some w ∧
    w.st.calls 0 = some (.returned 2) ∧ w.st.calls 1 = some (.returned (failure EFAULT)) ∧
      w.Atomic :=
  Machine.exists_run_of (fun w ↦ w.st.calls 0 = some (.returned 2) ∧
    w.st.calls 1 = some (.returned (failure EFAULT))) (by decide +kernel)
    fun _ hw hcall ↦ ⟨hcall.1, hcall.2, run_atomic (by decide +kernel) hw⟩

/-! ## A write torn apart -/

section Torn

variable {w : Watched} {id len front written : Nat} {u : Uio} {p : PipeBuffer} {mem : Memory}
  {nonblocking : Bool}

/-- A transfer from or to one buffer. -/
def oneSeg (addr len : Nat) : Uio := ⟨[⟨addr, len⟩], 0, 0, len, 0, .user⟩

theorem oneSeg_wf (addr len : Nat) : (oneSeg addr len).WF :=
  ⟨Nat.zero_le _, by simp [oneSeg, rest]⟩

/-- Memory that is mapped everywhere. -/
def mapped : Memory := ⟨fun _ ↦ true, fun _ ↦ true, fun a ↦ .ofNat a⟩

theorem oneSeg_clear (hlen : len ≤ 65536) (n : Nat) :
    (oneSeg 0x1000 len).Clear (fun _ ↦ true) n :=
  clear_user (by decide) (by rw [vmMaxUser]; omega) n

/-- A turn of a write that moves the next `n` bytes, which is as much as there is room for. -/
theorem turn_moves (hcall : w.st.calls id = some (.writing len u written))
    (hpipe : w.st.pipe = some p) (hopen : (p.readClosed || p.writeClosed) = false) (hwf : u.WF)
    (hclear : u.Clear (fun _ ↦ true) u.resid) {n : Nat} (hpos : 0 < n)
    (hn : n = min u.resid (pipeCapacity - p.data.length)) :
    ∃ w' xs u', w.step (.turn id mapped 0 false) = some w' ∧ xs.length = n ∧ u.Advances u' n ∧
      w'.asked = w.asked ∧ w'.st = w.st.record id
        (if u'.resid = 0 then .returned (written + n : Nat) else .writing len u' (written + n))
        (some { p with data := p.data ++ xs }) xs [] := by
  obtain ⟨u', hloop, hadv⟩ := chunkLoop_of_clear mapped hwf (show n ≤ u.resid by omega) le_rfl
    (hclear.mono (by omega))
  have hlen := length_bytes mapped hwf (show n ≤ u.resid by omega)
  have hwrite : writeInto mapped false w.st.pipe u written =
      (if u'.resid = 0 then .returns (written + n : Nat) else .again,
        some { p with data := p.data ++ u.bytes mapped n }, u', u.bytes mapped n) := by
    rw [hpipe, writeInto, hopen]
    simp only [Bool.false_eq_true, if_false]
    rw [if_pos (by omega), ← hn, hloop]
    split_ifs <;> simp [hlen]
  have hturn : w.st.turn id mapped 0 false = some (w.st.record id
      (if u'.resid = 0 then .returned (written + n : Nat) else .writing len u' (written + n))
      (some { p with data := p.data ++ u.bytes mapped n }) (u.bytes mapped n) []) := by
    rw [St.turn, hcall]
    dsimp only
    rw [hwrite]
    by_cases hdone : u'.resid = 0
    · simp only [hdone, if_true]
      rw [transferResult_of_nonneg (Int.natCast_nonneg _)]
    · simp only [hdone, if_false, hlen]
  exact ⟨_, u.bytes mapped n, u', congrArg (Option.map _) hturn, hlen, hadv, rfl, rfl⟩

/-- A turn of a read that finds what it asked for. -/
theorem turn_takes (hcall : w.st.calls id = some (.reading len u)) (hpipe : w.st.pipe = some p)
    (hwf : u.WF) (hclear : u.Clear (fun _ ↦ true) u.resid) (hpos : 0 < u.resid)
    (hdata : u.resid ≤ p.data.length) :
    ∃ w' call xs, w.step (.turn id mapped 0 false) = some w' ∧ w'.asked = w.asked ∧
      w'.st = w.st.record id call (some { p with data := p.data.drop u.resid }) [] xs := by
  obtain ⟨u', hmove, -⟩ : ∃ u', moveFront mapped 0 u.resid p.data u = _ ∧ _ :=
    moveFront_of_clear mapped hwf le_rfl hdata hclear
  have hlen : (p.data.take u.resid).length = u.resid := by
    rw [length_take, Nat.min_eq_left hdata]
  have hne : p.data ≠ [] := by
    rintro heq
    rw [heq] at hdata
    exact absurd hpos (by simpa using hdata)
  have hturn : w.st.turn id mapped 0 false = some (w.st.record id
      (.returned (transferResult len u' u.resid)) (some { p with data := p.data.drop u.resid }) []
      (p.data.take u.resid)) := by
    rw [St.turn, hcall]
    simp only [blockingRead, hpipe]
    rw [if_pos hne, Nat.min_eq_left hdata, hmove]
    simp only [hlen]
  exact ⟨_, _, _, congrArg (Option.map _) hturn, rfl, rfl⟩

/-- A call on one buffer starts. -/
theorem start_call (dir : End) (hcall : w.st.calls id = none) (hpos : 0 < len)
    (hlen : len ≤ 65536) :
    ∃ w', w.step (.start id dir [⟨0x1000, len⟩] .user false true) = some w' ∧
      w'.asked = (if dir = .write then update w.asked id (some len) else w.asked) ∧
      w'.st = { w.st with calls := update w.st.calls id (some (match dir with
        | .read => .reading len (oneSeg 0x1000 len)
        | .write => .writing len (oneSeg 0x1000 len) 0)) } := by
  have hmax : len ≤ isizeMax := by
    rw [isizeMax]
    omega
  cases dir <;> simp [step, St.step, hcall, begin, new, hmax, Nat.ne_of_gt hpos, oneSeg]

/-- A write starts and has its first turn. -/
theorem run_write (id len n : Nat) (hcall : w.st.calls id = none) (hpipe : w.st.pipe = some p)
    (hopen : (p.readClosed || p.writeClosed) = false) (hlen : len ≤ 65536) (hpos : 0 < n)
    (hn : n = min len (pipeCapacity - p.data.length)) :
    ∃ w' xs u', (∀ es, Machine.run step w
        (.start id .write [⟨0x1000, len⟩] .user false true :: .turn id mapped 0 false :: es)
          = Machine.run step w' es) ∧
      xs.length = n ∧ (oneSeg 0x1000 len).Advances u' n ∧
      w'.asked = update w.asked id (some len) ∧
      w'.st.pipe = some { p with data := p.data ++ xs } ∧
      w'.st.entered = w.st.entered ++ xs.map (fun b ↦ (id, b)) ∧
      w'.st.calls = update w.st.calls id
        (some (if u'.resid = 0 then .returned n else .writing len u' n)) := by
  obtain ⟨w1, hstart, hasked1, hst1⟩ := start_call .write hcall (show 0 < len by omega) hlen
  have hcall1 : w1.st.calls id = some (.writing len (oneSeg 0x1000 len) 0) := by
    rw [hst1]
    exact update_self ..
  obtain ⟨w', xs, u', hturn, hxs, hadv, hasked, hst⟩ := turn_moves hcall1 (by rw [hst1, hpipe]) hopen
    (oneSeg_wf 0x1000 len) (oneSeg_clear hlen _) hpos hn
  refine ⟨w', xs, u', fun es ↦ ?_, hxs, hadv, hasked.trans hasked1, by rw [hst]; rfl,
    by rw [hst, hst1]; rfl, ?_⟩
  · rw [Machine.run, hstart, bind_some, Machine.run, hturn, bind_some]
  · rw [hst, hst1]
    simp only [St.record, update_idem, Nat.zero_add]

/-- A read starts and finds what it asked for. -/
theorem run_read (id len : Nat) (hcall : w.st.calls id = none) (hpipe : w.st.pipe = some p)
    (hlen : len ≤ 65536) (hpos : 0 < len) (hdata : len ≤ p.data.length) :
    ∃ w' call, (∀ es, Machine.run step w
        (.start id .read [⟨0x1000, len⟩] .user false true :: .turn id mapped 0 false :: es)
          = Machine.run step w' es) ∧
      w'.asked = w.asked ∧ w'.st.pipe = some { p with data := p.data.drop len } ∧
      w'.st.entered = w.st.entered ∧ w'.st.calls = update w.st.calls id (some call) := by
  obtain ⟨w1, hstart, hasked1, hst1⟩ := start_call .read hcall hpos hlen
  have hcall1 : w1.st.calls id = some (.reading len (oneSeg 0x1000 len)) := by
    rw [hst1]
    exact update_self ..
  obtain ⟨w', call, xs, hturn, hasked, hst⟩ := turn_takes hcall1 (by rw [hst1, hpipe])
    (oneSeg_wf 0x1000 len) (oneSeg_clear hlen _) hpos hdata
  refine ⟨w', call, fun es ↦ ?_, hasked.trans hasked1, by rw [hst]; rfl, ?_, ?_⟩
  · rw [Machine.run, hstart, bind_some, Machine.run, hturn, bind_some]
  · rw [hst, hst1]
    simp [St.record]
  · rw [hst, hst1]
    simp only [St.record, update_idem]

/-- The pipe is filled but for one byte, a write of two bytes gets one in, a reader makes room, and
another write's byte comes before the second. -/
def torn : List Event :=
  [.start 0 .write [⟨0x1000, 65535⟩] .user false true, .turn 0 mapped 0 false,
    .start 1 .write [⟨0x1000, 2⟩] .user false true, .turn 1 mapped 0 false,
    .start 2 .read [⟨0x1000, 2⟩] .user false true, .turn 2 mapped 0 false,
    .start 3 .write [⟨0x1000, 1⟩] .user false true, .turn 3 mapped 0 false,
    .turn 1 mapped 0 false]

theorem run_torn : ∃ w, Machine.run step init torn = some w ∧ w.asked 1 = some 2 ∧
    w.st.entered.map Prod.fst = List.replicate 65535 0 ++ [1, 3, 1] := by
  obtain ⟨w0, xs0, u0, hrun0, hxs0, -, hasked0, hpipe0, hentered0, hcalls0⟩ :=
    run_write (w := init) 0 65535 65535 rfl rfl rfl (by decide) (by decide) (by decide)
  obtain ⟨w1, xs1, u1, hrun1, hxs1, hadv1, hasked1, hpipe1, hentered1, hcalls1⟩ :=
    run_write 1 2 1 (by rw [hcalls0]; rfl) hpipe0 rfl (by decide) (by decide)
      (by simp [hxs0, pipeCapacity, newPipeBuffer])
  obtain ⟨w2, call, hrun2, hasked2, hpipe2, hentered2, hcalls2⟩ :=
    run_read 2 2 (by rw [hcalls1, hcalls0]; rfl) hpipe1 (by decide) (by decide)
      (by simp [hxs0, hxs1])
  obtain ⟨w3, xs3, u3, hrun3, hxs3, -, hasked3, hpipe3, hentered3, hcalls3⟩ :=
    run_write 3 1 1 (by rw [hcalls2, hcalls1, hcalls0]; rfl) hpipe2 rfl (by decide) (by decide)
      (by simp [hxs0, hxs1, newPipeBuffer, pipeCapacity])
  -- the second byte of the write of two
  have hresid1 : u1.resid = 1 := Nat.succ.inj hadv1.resid
  have hcall : w3.st.calls 1 = some (.writing 2 u1 1) := by
    rw [hcalls3, hcalls2, hcalls1, hresid1]
    rfl
  have hclear : u1.Clear (fun _ ↦ true) u1.resid :=
    (hadv1.clear_iff.1 (oneSeg_clear (by decide) _)).2
  obtain ⟨w4, xs4, u4, hturn, hxs4, -, hasked4, hst4⟩ := turn_moves hcall hpipe3 rfl hadv1.wf hclear
    (show 0 < 1 by decide) (by simp [hresid1, hxs0, hxs1, hxs3, newPipeBuffer, pipeCapacity])
  refine ⟨w4, ?_, ?_, ?_⟩
  · rw [torn, hrun0, hrun1, hrun2, hrun3, Machine.run, hturn]
    rfl
  · rw [hasked4, hasked3, hasked2, hasked1]
    rfl
  · have hentered : w4.st.entered = w3.st.entered ++ xs4.map fun b ↦ (1, b) := by rw [hst4]; rfl
    have hfst : ∀ (xs : List UInt8) (id : Nat),
        (xs.map fun b ↦ (id, b)).map Prod.fst = replicate xs.length id := by
      intro xs id
      rw [List.map_map]
      exact map_const' ..
    have hinit : init.st.entered = [] := rfl
    have hone : replicate 1 1 ++ (replicate 1 3 ++ replicate 1 1) = [1, 3, 1] := rfl
    rw [hentered, hentered3, hentered2, hentered1, hentered0, hinit, nil_append,
      map_append, map_append, map_append, hfst, hfst, hfst, hfst, hxs0, hxs1, hxs3,
      hxs4, append_assoc, append_assoc, hone]

theorem not_infix_replicate (n : Nat) : ¬ [1, 1] <:+: List.replicate n 0 ++ [1, 3, 1] := by
  induction n with
  | zero => decide
  | succ n ih =>
    rw [replicate_succ, cons_append, infix_cons_iff]
    rintro (hstart | hinfix)
    · simp at hstart
    · exact ih hinfix

theorem not_infix_of_torn {l : List (Nat × UInt8)} {n : Nat}
    (h : l.map Prod.fst = List.replicate n 0 ++ [1, 3, 1]) : ¬ movedBy l 1 <:+: l := by
  intro hinfix
  have hids : (movedBy l 1).map Prod.fst = [1, 1] := by
    rw [movedBy, ← comp_def (fun i ↦ decide (i = 1)) Prod.fst, ← List.filter_map, h,
      filter_append, filter_replicate]
    rfl
  have hmap := hinfix.map Prod.fst
  rw [hids, h] at hmap
  exact not_infix_replicate n hmap

/-- **The bytes of a small write need not stand together.** -/
theorem torn_not_atomic : ∃ w, Machine.run step init torn = some w ∧ ¬ w.Atomic := by
  obtain ⟨w, hrun, hasked, hentered⟩ := run_torn
  exact ⟨w, hrun, fun h ↦ not_infix_of_torn hentered (h.together 1 2 hasked (by decide))⟩

end Torn

end Watched

end OxideBSD.Pipe
