import OxideBSD.Fs.Pipe
import OxideBSD.Lib.References

/-!
# Opening and closing FIFOs

The named pipes of `sys/fs/pipe.rs`: a FIFO has a buffer while it is open somewhere, and counts its
readers and writers.  An open counts at once and, with nobody at the other end, waits until somebody
has opened that end; if it ends otherwise (a signal, no room for the description, the process killed)
the count is given back.  Opens, their waits, kills and closes are the events of the machine below.

* `Counted` is what the counts are for: they are the open ends and the waiting opens, the buffer's
  flags say which of them is zero, FIFO and buffer are there while one is not, and a wait whose other
  end has been opened is over.
* `step_counted`, `run_counted_fifo`: that holds of every run.
* `resume_of_since`: a wait that is over ends at its next turn.
-/

set_option autoImplicit false

namespace OxideBSD.Fifos

open Function References Pipe Option AList

/-! ## FIFOs and their opens -/

def ENXIO : Nat := 6
def ENFILE : Nat := 23

structure FifoEnd where
  key : Nat
  read : Bool
  write : Bool
  deriving DecidableEq, Repr

/-- A FIFO that is open. -/
structure Fifo where
  pipeId : Nat
  readers : Nat
  writers : Nat
  /-- Counts the opens for reading, so that a waiting open notices one that has closed again. -/
  readerOpens : Nat
  writerOpens : Nat
  deriving DecidableEq, Repr

/-- The FIFO with one more open. -/
def Fifo.opened (f : Fifo) (e : FifoEnd) : Fifo where
  pipeId := f.pipeId
  readers := if e.read then f.readers + 1 else f.readers
  writers := if e.write then f.writers + 1 else f.writers
  readerOpens := if e.read then f.readerOpens + 1 else f.readerOpens
  writerOpens := if e.write then f.writerOpens + 1 else f.writerOpens

/-- The FIFO with one open less. -/
def Fifo.closed (f : Fifo) (e : FifoEnd) : Fifo :=
  { f with
    readers := if e.read then f.readers - 1 else f.readers
    writers := if e.write then f.writers - 1 else f.writers }

/-- An entry of `FIFO_OPENING`, with what the open it stands for waits for. -/
structure Opening where
  fifoEnd : FifoEnd
  waitForWriter : Bool
  waitForReader : Bool
  /-- `reader_opens` and `writer_opens` as the open has seen them. -/
  seen : Nat × Nat
  deriving DecidableEq, Repr

/-- The end an open waits for is opened by `e`. -/
def Opening.Meets (o : Opening) (e : FifoEnd) : Prop :=
  o.fifoEnd.key = e.key ∧ (o.waitForWriter ∧ e.write ∨ o.waitForReader ∧ e.read)

instance (o : Opening) (e : FifoEnd) : Decidable (o.Meets e) := inferInstanceAs (Decidable (_ ∧ _))

structure St where
  fifos : Nat → Option Fifo
  pipes : Nat → Option PipeBuffer
  nextPipe : Nat
  ends : AList fun _ : Nat ↦ FifoEnd
  nextFd : Nat
  opening : AList fun _ : Nat ↦ Opening
  /-- Whether a waiting process sleeps (`BlockReason::Polling`). -/
  asleep : Nat → Bool
  /-- What a process's last open returned. -/
  results : Nat → Option Int
  /-- An underflow, or the FIFO of a waiting open gone. -/
  panicked : Bool
  /-- For the record: whether the end a process waits for has been opened since. -/
  since : Nat → Bool

def accmode : UInt64 := 3
def wronly : UInt64 := 1
def rdwr : UInt64 := 2
def nonblock : UInt64 := 0o4000

/-- The end an open with `flags` makes. -/
def endOf (key : Nat) (flags : UInt64) : FifoEnd :=
  if flags &&& accmode = wronly then ⟨key, false, true⟩
  else if flags &&& accmode = rdwr then ⟨key, true, true⟩
  else ⟨key, true, false⟩

namespace St

def returns (s : St) (pid : Nat) (result : Int) : St :=
  { s with results := update s.results pid (some result) }

/-- `fifo_changed`: the flags follow the counts, and everybody who waits looks again. -/
def changed (s : St) (key : Nat) (f : Fifo) : St :=
  { s with
    fifos := update s.fifos key (some f)
    pipes := update s.pipes f.pipeId
      ((s.pipes f.pipeId).map (fifoChanged f.readers f.writers))
    asleep := fun _ ↦ false }

/-- The FIFO and its buffer go. -/
def remove (s : St) (key id : Nat) : St :=
  { s with
    fifos := update s.fifos key none
    pipes := update s.pipes id none }

/-- `fifo_release`. -/
def release (s : St) (e : FifoEnd) : St :=
  match s.fifos e.key with
  | none => s
  | some f =>
    if (e.read ∧ f.readers = 0) ∨ (e.write ∧ f.writers = 0) then { s with panicked := true }
    else
      let f := f.closed e
      let s := s.changed e.key f
      if f.readers = 0 ∧ f.writers = 0 then s.remove e.key f.pipeId else s

/-- The end of an open: the descriptor `fd`, unless there is no room for one any more. -/
def install (s : St) (pid : Nat) (e : FifoEnd) : Option Nat → St
  | some fd => { s with nextFd := s.nextFd + 1, ends := s.ends.insert s.nextFd e }.returns pid fd
  | none => ({ s with nextFd := s.nextFd + 1 }.release e).returns pid (failure ENFILE)

/-- A turn of the loop in which the open of process `pid` waits. -/
def turn (s : St) (pid : Nat) (o : Opening) (interrupted : Bool) (fd : Option Nat) : St :=
  match s.fifos o.fifoEnd.key with
  | none => { s with panicked := true }
  | some f =>
    if (o.waitForWriter ∧ f.writerOpens ≠ o.seen.2)
        ∨ (o.waitForReader ∧ f.readerOpens ≠ o.seen.1) then
      { s with opening := s.opening.erase pid }.install pid o.fifoEnd fd
    else if interrupted then
      ({ s with opening := s.opening.erase pid }.release o.fifoEnd).returns pid (failure Kern.EINTR)
    else { s with asleep := update s.asleep pid true }

/-- The FIFO an open finds, made if it is not there. -/
def entry (s : St) (key : Nat) : Fifo × St :=
  match s.fifos key with
  | some f => (f, s)
  | none =>
    let f : Fifo := ⟨s.nextPipe, 0, 0, 0, 0⟩
    (f, { s with
      fifos := update s.fifos key (some f)
      pipes := update s.pipes s.nextPipe (some newPipeBuffer)
      nextPipe := s.nextPipe + 1 })

/-- The record of who waits for the end `e`. -/
def noted (s : St) (e : FifoEnd) (pid : Nat) : Bool :=
  s.since pid || (s.opening.lookup pid).any fun o ↦ o.Meets e

/-- An open counts. -/
def count (s : St) (e : FifoEnd) : Fifo × St :=
  let p := s.entry e.key
  let f := p.1.opened e
  (f, { p.2 with since := p.2.noted e }.changed e.key f)

/-- `oxidebsd_fifo_open` up to where it waits, if it does. -/
def openFifo (s : St) (pid key : Nat) (flags : UInt64) (refused : Option Nat) (interrupted : Bool)
    (fd : Option Nat) : St :=
  let e := endOf key flags
  let nonblocking := flags &&& nonblock ≠ 0
  match refused with
  | some errno => s.returns pid (failure errno)
  | none =>
    if ¬ e.read ∧ nonblocking ∧ (∀ f ∈ s.fifos key, f.readers = 0) then
      s.returns pid (failure ENXIO)
    else
      let p := s.count e
      let o : Opening :=
        { fifoEnd := e
          waitForWriter := e.read ∧ ¬ e.write ∧ ¬ nonblocking ∧ p.1.writers = 0
          waitForReader := e.write ∧ ¬ e.read ∧ p.1.readers = 0
          seen := (p.1.readerOpens, p.1.writerOpens) }
      if o.waitForWriter ∨ o.waitForReader then
        { p.2 with
          opening := p.2.opening.insert pid o
          since := update p.2.since pid false }.turn pid o interrupted fd
      else p.2.install pid e fd

end St

/-! ## The machine -/

/-- What a process does between two points where others may run, or what happens to it.  Whether
there is room for a descriptor, and which it is, is up to the event, and so is whether a signal is
pending. -/
inductive Event
  | openFifo (pid key : Nat) (flags : UInt64) (refused : Option Nat) (interrupted : Bool)
      (fd : Option Nat)
  /-- A waiting open that was woken looks again. -/
  | resume (pid : Nat) (interrupted : Bool) (fd : Option Nat)
  /-- A waiting open is woken by something else. -/
  | wake (pid : Nat)
  /-- `abandon_fifo_open`: the process ends. -/
  | abandon (pid : Nat)
  /-- `fifo_close`, at the description's last close. -/
  | close (realFd : Nat)
  /-- Reads and writes change what the buffer holds. -/
  | transfer (key : Nat) (data : List UInt8)

namespace St

def step (s : St) : Event → Option St
  | .openFifo pid key flags refused interrupted fd =>
    match s.opening.lookup pid with
    | some _ => none
    | none => some (s.openFifo pid key flags refused interrupted fd)
  | .resume pid interrupted fd =>
    match s.opening.lookup pid with
    | none => none
    | some o => if s.asleep pid then none else some (s.turn pid o interrupted fd)
  | .wake pid => some { s with asleep := update s.asleep pid false }
  | .abandon pid =>
    match s.opening.lookup pid with
    | none => some s
    | some o => some ({ s with opening := s.opening.erase pid }.release o.fifoEnd)
  | .close realFd =>
    match s.ends.lookup realFd with
    | none => none
    | some e => some ({ s with ends := s.ends.erase realFd }.release e)
  | .transfer key data =>
    (s.fifos key).map fun f ↦
      { s with
        pipes := update s.pipes f.pipeId
          ((s.pipes f.pipeId).map fun p ↦ { p with data := data }) }

/-- Nothing is open. -/
def init : St :=
  ⟨fun _ ↦ none, fun _ ↦ none, 0, ∅, 0, ∅, fun _ ↦ false, fun _ ↦ none, false, fun _ ↦ false⟩

end St

/-! ## What holds of every run -/

/-- An open end of FIFO `key` with some access. -/
def FifoEnd.opens (key : Nat) (mode : FifoEnd → Bool) (e : FifoEnd) : Bool :=
  e.key = key && mode e

/-- The open ends and waiting opens of FIFO `key` with some access.  While an open is being made or
given up it counts and is in neither table: it is `x`. -/
def St.opens (s : St) (x : Option FifoEnd) (key : Nat) (mode : FifoEnd → Bool) : Nat :=
  tally s.ends (FifoEnd.opens key mode) + tally s.opening (fun o ↦ o.fifoEnd.opens key mode)
    + if x.any (FifoEnd.opens key mode) then 1 else 0

/-- The counts of the FIFO `f` under `key` are right, and it has a buffer. -/
structure FifoOk (s : St) (x : Option FifoEnd) (key : Nat) (f : Fifo) : Prop where
  readers : f.readers = s.opens x key FifoEnd.read
  writers : f.writers = s.opens x key FifoEnd.write
  lt : f.pipeId < s.nextPipe
  buffer : (s.pipes f.pipeId).isSome

/-- The counts are the open ends and waiting opens, without ever an underflow, and the buffers are
those of the FIFOs. -/
structure Balanced (s : St) (x : Option FifoEnd) : Prop where
  panicked : s.panicked = false
  fifo : ∀ key f, s.fifos key = some f → FifoOk s x key f
  gone : ∀ key, s.fifos key = none →
    s.opens x key FifoEnd.read = 0 ∧ s.opens x key FifoEnd.write = 0
  injective : ∀ key key' f f', s.fifos key = some f → s.fifos key' = some f' →
    f.pipeId = f'.pipeId → key = key'
  owner : ∀ id p, s.pipes id = some p → ∃ key f, s.fifos key = some f ∧ f.pipeId = id
  fds : ∀ fd, s.nextFd ≤ fd → s.ends.lookup fd = none
  ends : ∀ fd e, s.ends.lookup fd = some e → e.read = true ∨ e.write = true
  opening : ∀ pid o, s.opening.lookup pid = some o → o.fifoEnd.read = true ∨ o.fifoEnd.write = true

/-- The FIFO `f` is open somewhere, and the flags of its buffer say which count is zero. -/
structure Settled (s : St) (f : Fifo) : Prop where
  pos : 0 < f.readers + f.writers
  flags : ∀ p, s.pipes f.pipeId = some p →
    p.readClosed = decide (f.readers = 0) ∧ p.writeClosed = decide (f.writers = 0)

/-- The end `o` waits for has been opened since, as the counts of the FIFO `f` say. -/
def Opening.Over (o : Opening) (f : Fifo) : Prop :=
  (o.waitForWriter ∧ f.writerOpens ≠ o.seen.2) ∨ (o.waitForReader ∧ f.readerOpens ≠ o.seen.1)

instance (o : Opening) (f : Fifo) : Decidable (o.Over f) := inferInstanceAs (Decidable (_ ∨ _))

/-- The end the open `o` of process `pid` waits for has been opened since exactly if the FIFO's
counts say so, and then the process does not sleep. -/
structure Waits (s : St) (pid : Nat) (o : Opening) : Prop where
  seen : ∀ f, s.fifos o.fifoEnd.key = some f →
    o.seen.1 ≤ f.readerOpens ∧ o.seen.2 ≤ f.writerOpens ∧ (s.since pid = true ↔ o.Over f)
  awake : s.since pid = true → s.asleep pid = false

/-- The counts are the open ends and waiting opens, without ever an underflow; a FIFO and its buffer
are there exactly while a count is positive, with the flags that say which is zero; and a wait whose
other end has been opened since is over.  Between steps no open is being made or given up, and `x` is
`none`. -/
structure Counted (s : St) (x : Option FifoEnd) : Prop where
  balanced : Balanced s x
  settled : ∀ key f, s.fifos key = some f → Settled s f
  waits : ∀ pid o, s.opening.lookup pid = some o → Waits s pid o

/-! ## Counting -/

section Opens

variable {s : St} {x : Option FifoEnd} {key pid fd : Nat} {mode : FifoEnd → Bool} {e : FifoEnd}
  {o : Opening}

theorem opens_some (e : FifoEnd) : s.opens (some e) key mode
    = s.opens none key mode + if e.opens key mode then 1 else 0 := rfl

/-- An open leaves the tables. -/
theorem opens_erase_opening (h : s.opening.lookup pid = some o) :
    St.opens { s with opening := s.opening.erase pid } (some o.fifoEnd) key mode
      = s.opens none key mode := by
  have herase := tally_erase h fun o ↦ o.fifoEnd.opens key mode
  rw [opens_some, St.opens, St.opens]
  simp only [any_none]
  omega

theorem opens_erase_ends (h : s.ends.lookup fd = some e) :
    St.opens { s with ends := s.ends.erase fd } (some e) key mode = s.opens none key mode := by
  have herase := tally_erase h (FifoEnd.opens key mode)
  rw [opens_some, St.opens, St.opens]
  simp only [any_none]
  omega

/-- An open enters the tables. -/
theorem opens_insert_opening (h : s.opening.lookup pid = none) (o : Opening) :
    St.opens { s with opening := s.opening.insert pid o } none key mode
      = s.opens (some o.fifoEnd) key mode := by
  rw [opens_some, St.opens, St.opens, tally_insert h]
  simp only [any_none]
  omega

theorem opens_insert_ends (h : s.ends.lookup fd = none) (e : FifoEnd) :
    St.opens { s with ends := s.ends.insert fd e } none key mode = s.opens (some e) key mode := by
  rw [opens_some, St.opens, St.opens, tally_insert h]
  simp only [any_none]
  omega

/-- A waiting open counts. -/
theorem opens_pos_of_opening (h : s.opening.lookup pid = some o) (hmode : mode o.fifoEnd = true) :
    0 < s.opens x o.fifoEnd.key mode := by
  have hpos := tally_pos_of_lookup h (p := fun o' ↦ o'.fifoEnd.opens o.fifoEnd.key mode)
    (by simp [FifoEnd.opens, hmode])
  rw [St.opens]
  omega

/-- The FIFO of a waiting open is there. -/
theorem Balanced.exists_fifo (h : Balanced s x) (ho : s.opening.lookup pid = some o) :
    ∃ f, s.fifos o.fifoEnd.key = some f := by
  cases hf : s.fifos o.fifoEnd.key with
  | some f => exact ⟨f, rfl⟩
  | none =>
    obtain ⟨hread, hwrite⟩ := h.gone _ hf
    rcases h.opening pid o ho with hmode | hmode
    · exact absurd hread (Nat.ne_of_gt (opens_pos_of_opening ho hmode))
    · exact absurd hwrite (Nat.ne_of_gt (opens_pos_of_opening ho hmode))

end Opens

/-! ## The pieces of a step -/

section Pieces

variable {s s' : St} {x x' : Option FifoEnd} {key pid fd : Nat} {e : FifoEnd} {o : Opening}
  {f f₀ : Fifo} {β : Type} {k k' key' : Nat} {v : β} {f' : Fifo}

/-- The tables change, but not what they count. -/
theorem Balanced.retable (h : Balanced s x) (hfifos : s'.fifos = s.fifos)
    (hpipes : ∀ id, (s'.pipes id).isSome = (s.pipes id).isSome) (hnext : s'.nextPipe = s.nextPipe)
    (hpanicked : s'.panicked = s.panicked)
    (hopens : ∀ key mode, s'.opens x' key mode = s.opens x key mode)
    (hfds : ∀ fd, s'.nextFd ≤ fd → s'.ends.lookup fd = none)
    (hends : ∀ fd e, s'.ends.lookup fd = some e → e.read = true ∨ e.write = true)
    (hopening : ∀ pid o, s'.opening.lookup pid = some o →
      o.fifoEnd.read = true ∨ o.fifoEnd.write = true) : Balanced s' x' := by
  refine ⟨hpanicked.trans h.panicked, fun key f hf ↦ ?_, fun key hf ↦ ?_, ?_, ?_, hfds, hends,
    hopening⟩
  · rw [hfifos] at hf
    obtain ⟨hreaders, hwriters, hlt, hbuffer⟩ := h.fifo key f hf
    exact ⟨by rw [hopens, hreaders], by rw [hopens, hwriters], by rwa [hnext], by rwa [hpipes]⟩
  · rw [hfifos] at hf
    rw [hopens, hopens]
    exact h.gone key hf
  · rw [hfifos]
    exact h.injective
  · intro id p hp
    have hbuffer : (s.pipes id).isSome := by rw [← hpipes, hp]; rfl
    obtain ⟨p₀, hp₀⟩ := isSome_iff_exists.1 hbuffer
    rw [hfifos]
    exact h.owner id p₀ hp₀

theorem lookup_erase_eq_some {t : AList fun _ : Nat ↦ β} (h : (t.erase k).lookup k' = some v) :
    t.lookup k' = some v := by
  by_cases hk : k' = k
  · rw [hk, lookup_erase] at h
    cases h
  · rwa [lookup_erase_ne hk] at h

theorem lookup_insert_eq_some {t : AList fun _ : Nat ↦ β} {w : β}
    (h : (t.insert k w).lookup k' = some v) : k' = k ∧ v = w ∨ k' ≠ k ∧ t.lookup k' = some v := by
  by_cases hk : k' = k
  · rw [hk, lookup_insert] at h
    exact Or.inl ⟨hk, (some.inj h).symm⟩
  · rw [lookup_insert_ne hk] at h
    exact Or.inr ⟨hk, h⟩

/-- A waiting open is taken out of the tables. -/
theorem Balanced.erase_opening (h : Balanced s none) (ho : s.opening.lookup pid = some o) :
    Balanced { s with opening := s.opening.erase pid } (some o.fifoEnd) :=
  h.retable rfl (fun _ ↦ rfl) rfl rfl (fun _ _ ↦ opens_erase_opening ho) h.fds h.ends
    fun pid' o' ho' ↦ h.opening pid' o' (lookup_erase_eq_some ho')

/-- An open end is taken out of the tables. -/
theorem Balanced.erase_ends (h : Balanced s none) (he : s.ends.lookup fd = some e) :
    Balanced { s with ends := s.ends.erase fd } (some e) := by
  refine h.retable rfl (fun _ ↦ rfl) rfl rfl (fun _ _ ↦ opens_erase_ends he) (fun fd' hfd' ↦ ?_)
    (fun fd' e' he' ↦ h.ends fd' e' (lookup_erase_eq_some he')) h.opening
  cases hlookup : (s.ends.erase fd).lookup fd' with
  | none => rfl
  | some e' =>
    cases (lookup_erase_eq_some hlookup).symm.trans (h.fds fd' hfd')

/-- A waiting open enters the tables. -/
theorem Balanced.insert_opening (h : Balanced s (some o.fifoEnd))
    (hpid : s.opening.lookup pid = none)
    (haccess : o.fifoEnd.read = true ∨ o.fifoEnd.write = true) (since : Nat → Bool) :
    Balanced { s with opening := s.opening.insert pid o, since := since } none := by
  refine h.retable rfl (fun _ ↦ rfl) rfl rfl (fun _ _ ↦ opens_insert_opening hpid o) h.fds h.ends
    fun pid' o' ho' ↦ ?_
  rcases lookup_insert_eq_some ho' with ⟨_, rfl⟩ | ⟨_, ho'⟩
  · exact haccess
  · exact h.opening pid' o' ho'

/-- An open end enters the tables. -/
theorem Balanced.insert_ends (h : Balanced s (some e)) (haccess : e.read = true ∨ e.write = true) :
    Balanced { s with nextFd := s.nextFd + 1, ends := s.ends.insert s.nextFd e } none := by
  refine h.retable rfl (fun _ ↦ rfl) rfl rfl (fun _ _ ↦ opens_insert_ends (h.fds _ le_rfl) e)
    (fun fd hfd ↦ ?_) (fun fd e' he' ↦ ?_) h.opening
  · rw [lookup_insert_ne (Nat.ne_of_gt hfd)]
    exact h.fds fd (Nat.le_of_succ_le hfd)
  · rcases lookup_insert_eq_some he' with ⟨_, rfl⟩ | ⟨_, he'⟩
    · exact haccess
    · exact h.ends fd e' he'

theorem update_some_eq_some {g : Nat → Option β} {w : β}
    (h : update g k (some w) k' = some v) : k' = k ∧ v = w ∨ k' ≠ k ∧ g k' = some v := by
  by_cases hk : k' = k
  · rw [hk, update_self] at h
    exact Or.inl ⟨hk, (some.inj h).symm⟩
  · rw [update_of_ne hk] at h
    exact Or.inr ⟨hk, h⟩

theorem changed_fifos (h : (s.changed key f).fifos key' = some f') :
    key' = key ∧ f' = f ∨ key' ≠ key ∧ s.fifos key' = some f' :=
  update_some_eq_some h

theorem isSome_changed_pipes (id : Nat) :
    ((s.changed key f).pipes id).isSome = (s.pipes id).isSome := by
  by_cases hid : id = f.pipeId
  · simp [St.changed, hid]
  · simp [St.changed, hid]

/-- The FIFOs are the same ones, with the same buffers. -/
theorem changed_fifos_pipeId (hf₀ : s.fifos key = some f₀) (hid : f.pipeId = f₀.pipeId)
    (h : (s.changed key f).fifos key' = some f') :
    ∃ f'', s.fifos key' = some f'' ∧ f''.pipeId = f'.pipeId := by
  rcases changed_fifos h with ⟨rfl, rfl⟩ | ⟨_, hf'⟩
  · exact ⟨f₀, hf₀, hid.symm⟩
  · exact ⟨f', hf', rfl⟩

/-- The counts of one FIFO follow what is counted. -/
theorem Balanced.changed (h : Balanced s x) (hf₀ : s.fifos key = some f₀)
    (hid : f.pipeId = f₀.pipeId) (hreaders : f.readers = s.opens x' key FifoEnd.read)
    (hwriters : f.writers = s.opens x' key FifoEnd.write)
    (hothers : ∀ key', key' ≠ key → ∀ mode, s.opens x' key' mode = s.opens x key' mode) :
    Balanced (s.changed key f) x' := by
  refine ⟨h.panicked, fun key' f' hf' ↦ ?_, fun key' hf' ↦ ?_, fun k k' f' f'' hf' hf'' hpipe ↦ ?_,
    fun id p hp ↦ ?_, h.fds, h.ends, h.opening⟩
  · rcases changed_fifos hf' with ⟨rfl, rfl⟩ | ⟨hkey, hf'⟩
    · obtain ⟨_, _, hlt, hbuffer⟩ := h.fifo key' f₀ hf₀
      exact ⟨hreaders, hwriters, hid ▸ hlt, by rwa [isSome_changed_pipes, hid]⟩
    · obtain ⟨hreaders', hwriters', hlt, hbuffer⟩ := h.fifo key' f' hf'
      exact ⟨hreaders'.trans (hothers key' hkey _).symm, hwriters'.trans (hothers key' hkey _).symm,
        hlt, by rwa [isSome_changed_pipes]⟩
  · by_cases hkey : key' = key
    · simp [St.changed, hkey] at hf'
    · simp only [St.changed, update_of_ne hkey] at hf'
      obtain ⟨hread, hwrite⟩ := h.gone key' hf'
      exact ⟨(hothers key' hkey _).trans hread, (hothers key' hkey _).trans hwrite⟩
  · obtain ⟨g', hg', hid'⟩ := changed_fifos_pipeId hf₀ hid hf'
    obtain ⟨g'', hg'', hid''⟩ := changed_fifos_pipeId hf₀ hid hf''
    exact h.injective k k' g' g'' hg' hg'' (hid'.trans (hpipe.trans hid''.symm))
  · have hbuffer : (s.pipes id).isSome := by rw [← isSome_changed_pipes, hp]; rfl
    obtain ⟨p₀, hp₀⟩ := isSome_iff_exists.1 hbuffer
    obtain ⟨key', f', hf', hid'⟩ := h.owner id p₀ hp₀
    by_cases hkey : key' = key
    · subst hkey
      cases hf₀.symm.trans hf'
      exact ⟨key', f, by simp [St.changed], hid.trans hid'⟩
    · exact ⟨key', f', by simp only [St.changed, update_of_ne hkey, hf'], hid'⟩

theorem Settled.of_pipes_eq (h : Settled s f) (hpipes : s'.pipes f.pipeId = s.pipes f.pipeId) :
    Settled s' f :=
  ⟨h.pos, by rw [hpipes]; exact h.flags⟩

/-- The flags of the changed FIFO follow its counts. -/
theorem settled_changed_self (hpos : 0 < f.readers + f.writers) : Settled (s.changed key f) f := by
  refine ⟨hpos, fun p hp ↦ ?_⟩
  simp only [St.changed, update_self, map_eq_some_iff] at hp
  obtain ⟨p₀, _, rfl⟩ := hp
  exact ⟨rfl, rfl⟩

theorem Balanced.pipeId_ne (h : Balanced s x) (hkey : key' ≠ key) (hf' : s.fifos key' = some f')
    (hf : s.fifos key = some f) : f'.pipeId ≠ f.pipeId :=
  fun heq ↦ hkey (h.injective key' key f' f hf' hf heq)

/-- The flags of the other FIFOs stay. -/
theorem Settled.changed_of_ne (h : Settled s f') (hne : f'.pipeId ≠ f.pipeId) :
    Settled (s.changed key f) f' :=
  h.of_pipes_eq (by simp only [St.changed, update_of_ne hne])

theorem remove_fifos {id : Nat} (h : (s.remove key id).fifos key' = some f') :
    key' ≠ key ∧ s.fifos key' = some f' := by
  by_cases hkey : key' = key
  · simp [St.remove, hkey] at h
  · simp only [St.remove, update_of_ne hkey] at h
    exact ⟨hkey, h⟩

/-- A FIFO without opens goes, with its buffer. -/
theorem Balanced.remove (h : Balanced s x) (hf : s.fifos key = some f) (hreaders : f.readers = 0)
    (hwriters : f.writers = 0) : Balanced (s.remove key f.pipeId) x := by
  refine ⟨h.panicked, fun key' f' hf' ↦ ?_, fun key' hf' ↦ ?_, fun k k' f' f'' hf' hf'' ↦ ?_,
    fun id p hp ↦ ?_, h.fds, h.ends, h.opening⟩
  · obtain ⟨hkey, hf'⟩ := remove_fifos hf'
    obtain ⟨hreaders', hwriters', hlt, hbuffer⟩ := h.fifo key' f' hf'
    have hne := h.pipeId_ne hkey hf' hf
    exact ⟨hreaders', hwriters', hlt, by simpa only [St.remove, update_of_ne hne]⟩
  · by_cases hkey : key' = key
    · obtain ⟨hreaders', hwriters', _, _⟩ := h.fifo key f hf
      rw [hkey]
      exact ⟨hreaders'.symm.trans hreaders, hwriters'.symm.trans hwriters⟩
    · simp only [St.remove, update_of_ne hkey] at hf'
      exact h.gone key' hf'
  · exact h.injective k k' f' f'' (remove_fifos hf').2 (remove_fifos hf'').2
  · have hne : id ≠ f.pipeId := by
      rintro rfl
      simp [St.remove] at hp
    simp only [St.remove, update_of_ne hne] at hp
    obtain ⟨key', f', hf', hid'⟩ := h.owner id p hp
    have hkey : key' ≠ key := by
      rintro rfl
      cases hf.symm.trans hf'
      exact hne hid'.symm
    exact ⟨key', f', by simp only [St.remove, update_of_ne hkey, hf'], hid'⟩

theorem opens_of_ne_key (hkey : key ≠ e.key) (mode : FifoEnd → Bool) :
    s.opens (some e) key mode = s.opens none key mode := by
  rw [opens_some, FifoEnd.opens, decide_eq_false (Ne.symm hkey)]
  rfl

theorem opens_key (mode : FifoEnd → Bool) :
    s.opens (some e) e.key mode = s.opens none e.key mode + if mode e then 1 else 0 := by
  rw [opens_some, FifoEnd.opens, decide_eq_true rfl, Bool.true_and]

/-- What an open that is given up takes from the counts was in them. -/
theorem Balanced.closed (h : Balanced s (some e)) (hf : s.fifos e.key = some f) :
    ¬ ((e.read ∧ f.readers = 0) ∨ (e.write ∧ f.writers = 0)) ∧
      (f.closed e).readers = s.opens none e.key FifoEnd.read ∧
      (f.closed e).writers = s.opens none e.key FifoEnd.write := by
  obtain ⟨hreaders, hwriters, _, _⟩ := h.fifo e.key f hf
  rw [opens_key] at hreaders hwriters
  rw [Fifo.closed, hreaders, hwriters]
  cases e.read <;> cases e.write <;> simp

/-- The FIFO of an open that is being made or given up is there. -/
theorem Balanced.exists_fifo_of_some (h : Balanced s (some e))
    (haccess : e.read = true ∨ e.write = true) : ∃ f, s.fifos e.key = some f := by
  cases hf : s.fifos e.key with
  | some f => exact ⟨f, rfl⟩
  | none =>
    obtain ⟨hread, hwrite⟩ := h.gone e.key hf
    rw [opens_key] at hread hwrite
    rcases haccess with hmode | hmode <;> simp [hmode] at hread hwrite

/-- A wait looks only at how often the ends have been opened. -/
theorem waits_changed (hf₀ : s.fifos key = some f₀) (hreader : f.readerOpens = f₀.readerOpens)
    (hwriter : f.writerOpens = f₀.writerOpens) (h : Waits s pid o) :
    Waits (s.changed key f) pid o := by
  refine ⟨fun f' hf' ↦ ?_, fun _ ↦ rfl⟩
  rcases changed_fifos hf' with ⟨hkey, rfl⟩ | ⟨_, hf'⟩
  · rw [Opening.Over, hreader, hwriter]
    exact h.seen f₀ (hkey ▸ hf₀)
  · exact h.seen f' hf'

/-- **`fifo_release` gives back what an open counted.** -/
theorem Counted.release (h : Counted s (some e)) (haccess : e.read = true ∨ e.write = true) :
    Counted (s.release e) none := by
  obtain ⟨f, hf⟩ := h.balanced.exists_fifo_of_some haccess
  obtain ⟨hpos, hreaders, hwriters⟩ := h.balanced.closed hf
  have hchanged : Balanced (s.changed e.key (f.closed e)) none :=
    h.balanced.changed hf rfl hreaders hwriters fun _ hkey mode ↦ (opens_of_ne_key hkey mode).symm
  have hwaits : ∀ pid o, s.opening.lookup pid = some o →
      Waits (s.changed e.key (f.closed e)) pid o := fun pid o ho ↦
    waits_changed hf rfl rfl (h.waits pid o ho)
  have hothers : ∀ key' f', key' ≠ e.key → s.fifos key' = some f' →
      Settled (s.changed e.key (f.closed e)) f' := by
    intro key' f' hkey hf'
    have hne : f'.pipeId ≠ f.pipeId := h.balanced.pipeId_ne hkey hf' hf
    exact (h.settled key' f' hf').changed_of_ne hne
  simp only [St.release, hf]
  split_ifs with hzero
  · have hf₁ : (s.changed e.key (f.closed e)).fifos e.key = some (f.closed e) := by
      simp [St.changed]
    refine ⟨hchanged.remove hf₁ hzero.1 hzero.2, fun key' f' hf' ↦ ?_, fun pid o ho ↦ ?_⟩
    · obtain ⟨hkey, hf'⟩ := remove_fifos hf'
      have hne := hchanged.pipeId_ne hkey hf' hf₁
      rcases changed_fifos hf' with ⟨rfl, _⟩ | ⟨_, hf'⟩
      · exact absurd rfl hkey
      · exact (hothers key' f' hkey hf').of_pipes_eq
          (by simp only [St.remove, update_of_ne hne])
    · exact ⟨fun f' hf' ↦ (hwaits pid o ho).seen f' (remove_fifos hf').2, fun _ ↦ rfl⟩
  · refine ⟨hchanged, fun key' f' hf' ↦ ?_, hwaits⟩
    rcases changed_fifos hf' with ⟨rfl, rfl⟩ | ⟨hkey, hf'⟩
    · exact settled_changed_self (by omega)
    · exact hothers key' f' hkey hf'

/-- The FIFO an open finds or makes is there, and counts nobody if it was not. -/
theorem Balanced.entry (h : Balanced s none) (key : Nat) : Balanced (s.entry key).2 none := by
  rw [St.entry]
  split
  · exact h
  next hnone =>
    refine ⟨h.panicked, fun key' f' hf' ↦ ?_, fun key' hf' ↦ ?_, fun k k' f' f'' hf' hf'' hid ↦ ?_,
      fun id p hp ↦ ?_, h.fds, h.ends, h.opening⟩
    · rcases update_some_eq_some hf' with ⟨rfl, rfl⟩ | ⟨hkey, hf'⟩
      · obtain ⟨hread, hwrite⟩ := h.gone key' hnone
        exact ⟨hread.symm, hwrite.symm, Nat.lt_succ_self _, by simp⟩
      · obtain ⟨hreaders, hwriters, hlt, hbuffer⟩ := h.fifo key' f' hf'
        exact ⟨hreaders, hwriters, Nat.lt_succ_of_lt hlt,
          by simpa only [update_of_ne (Nat.ne_of_lt hlt)]⟩
    · have hkey : key' ≠ key := by
        rintro rfl
        simp at hf'
      simp only [update_of_ne hkey] at hf'
      exact h.gone key' hf'
    · rcases update_some_eq_some hf' with ⟨rfl, rfl⟩ | ⟨_, hg'⟩ <;>
        rcases update_some_eq_some hf'' with ⟨rfl, rfl⟩ | ⟨_, hg''⟩
      · rfl
      · exact absurd hid.symm (Nat.ne_of_lt (h.fifo k' f'' hg'').lt)
      · exact absurd hid (Nat.ne_of_lt (h.fifo k f' hg').lt)
      · exact h.injective k k' f' f'' hg' hg'' hid
    · by_cases hid : id = s.nextPipe
      · exact ⟨key, ⟨s.nextPipe, 0, 0, 0, 0⟩, by simp, hid.symm⟩
      · simp only [update_of_ne hid] at hp
        obtain ⟨key', f', hf', hid'⟩ := h.owner id p hp
        have hkey : key' ≠ key := by
          rintro rfl
          cases hnone.symm.trans hf'
        exact ⟨key', f', by simp only [update_of_ne hkey, hf'], hid'⟩

theorem entry_fifos (key : Nat) : (s.entry key).2.fifos key = some (s.entry key).1 := by
  rw [St.entry]
  split
  next hsome => exact hsome
  · simp

theorem entry_fifos_of_ne (hkey : key' ≠ key) : (s.entry key).2.fifos key' = s.fifos key' := by
  rw [St.entry]
  split
  · rfl
  · simp [hkey]

theorem entry_opening : (s.entry key).2.opening = s.opening := by
  rw [St.entry]
  split <;> rfl

theorem entry_noted : (s.entry key).2.noted e = s.noted e := by
  rw [St.entry]
  split <;> rfl

theorem entry_pipes {id : Nat} (hid : id < s.nextPipe) : (s.entry key).2.pipes id = s.pipes id := by
  rw [St.entry]
  split
  · rfl
  · simp only [update_of_ne (Nat.ne_of_lt hid)]

theorem noted_eq (h : s.opening.lookup pid = some o) :
    s.noted e pid = true ↔ s.since pid = true ∨ o.Meets e := by
  simp [St.noted, h]

theorem entry_of_some (h : s.fifos key = some f) : s.entry key = (f, s) := by
  rw [St.entry, h]

/-- An open of the end that is waited for shows in the counts. -/
theorem Opening.over_opened (hkey : o.fifoEnd.key = e.key) (hreader : o.seen.1 ≤ f.readerOpens)
    (hwriter : o.seen.2 ≤ f.writerOpens) : o.Over (f.opened e) ↔ o.Over f ∨ o.Meets e := by
  simp only [Opening.Over, Opening.Meets, Fifo.opened]
  cases e.read <;> cases e.write <;> cases o.waitForReader <;> cases o.waitForWriter <;>
    simp <;> omega

/-- **An open counts.** -/
theorem Counted.count (h : Counted s none) (haccess : e.read = true ∨ e.write = true) :
    Counted (s.count e).2 (some e) := by
  have hentry := h.balanced.entry e.key
  have hnoted : Balanced { (s.entry e.key).2 with since := (s.entry e.key).2.noted e } none :=
    hentry.retable rfl (fun _ ↦ rfl) rfl rfl (fun _ _ ↦ rfl) hentry.fds hentry.ends hentry.opening
  have hf := entry_fifos (s := s) e.key
  obtain ⟨hreaders, hwriters, _, _⟩ := hentry.fifo e.key _ hf
  refine ⟨hnoted.changed hf rfl ?_ ?_ fun _ hkey mode ↦ opens_of_ne_key hkey mode,
    fun key' f' hf' ↦ ?_, fun pid o ho ↦ ⟨fun f' hf' ↦ ?_, fun _ ↦ rfl⟩⟩
  · rw [opens_key]
    simp only [Fifo.opened, hreaders]
    cases e.read <;> rfl
  · rw [opens_key]
    simp only [Fifo.opened, hwriters]
    cases e.write <;> rfl
  · rcases changed_fifos hf' with ⟨rfl, rfl⟩ | ⟨hkey, hf'⟩
    · refine settled_changed_self ?_
      rcases haccess with hmode | hmode <;> simp only [Fifo.opened, hmode, if_true] <;> omega
    · have hne : f'.pipeId ≠ (s.entry e.key).1.pipeId := hentry.pipeId_ne hkey hf' hf
      have hfs : s.fifos key' = some f' := by rw [← entry_fifos_of_ne hkey]; exact hf'
      have hpipes : (s.entry e.key).2.pipes f'.pipeId = s.pipes f'.pipeId :=
        entry_pipes (h.balanced.fifo key' f' hfs).lt
      exact Settled.changed_of_ne ((h.settled key' f' hfs).of_pipes_eq hpipes) hne
  · have ho' : s.opening.lookup pid = some o := by rw [← entry_opening]; exact ho
    show o.seen.1 ≤ _ ∧ o.seen.2 ≤ _ ∧ ((s.entry e.key).2.noted e pid = true ↔ o.Over f')
    rw [entry_noted, noted_eq ho']
    rcases changed_fifos hf' with ⟨hkey, rfl⟩ | ⟨hkey, hf'⟩
    · obtain ⟨f, hfs⟩ := h.balanced.exists_fifo ho'
      obtain ⟨hreader, hwriter, hsince⟩ := (h.waits pid o ho').seen f hfs
      rw [entry_of_some (hkey ▸ hfs), Opening.over_opened hkey hreader hwriter, hsince]
      refine ⟨hreader.trans ?_, hwriter.trans ?_, Iff.rfl⟩
      · simp only [Fifo.opened]
        split_ifs <;> omega
      · simp only [Fifo.opened]
        split_ifs <;> omega
    · have hfs : s.fifos o.fifoEnd.key = some f' := by rw [← entry_fifos_of_ne hkey]; exact hf'
      obtain ⟨hreader, hwriter, hsince⟩ := (h.waits pid o ho').seen f' hfs
      have hmeets : ¬ o.Meets e := fun hmeets ↦ hkey hmeets.1
      exact ⟨hreader, hwriter, by rw [or_iff_left hmeets, hsince]⟩

theorem count_fifos : (s.count e).2.fifos e.key = some (s.count e).1 := by
  simp [St.count, St.changed]

theorem count_opening : (s.count e).2.opening = s.opening :=
  entry_opening

theorem Counted.retable (h : Counted s x) (hbalanced : Balanced s' x')
    (hfifos : s'.fifos = s.fifos) (hpipes : s'.pipes = s.pipes)
    (hwaits : ∀ pid o, s'.opening.lookup pid = some o → Waits s' pid o) : Counted s' x' :=
  ⟨hbalanced, fun key f hf ↦ (h.settled key f (by rwa [← hfifos])).of_pipes_eq (by rw [hpipes]),
    hwaits⟩

/-- Results are given and processes put to sleep, except those whose wait is over. -/
theorem Counted.frame {asleep : Nat → Bool} {results : Nat → Option Int} (h : Counted s x)
    (hawake : ∀ pid o, s.opening.lookup pid = some o → s.since pid = true → asleep pid = false) :
    Counted { s with asleep, results } x :=
  h.retable (h.balanced.retable rfl (fun _ ↦ rfl) rfl rfl (fun _ _ ↦ rfl) h.balanced.fds h.balanced.ends
    h.balanced.opening) rfl rfl fun pid o ho ↦ ⟨(h.waits pid o ho).seen, hawake pid o ho⟩

theorem Counted.returns (h : Counted s x) (result : Int) : Counted (s.returns pid result) x :=
  h.frame fun pid o ho ↦ (h.waits pid o ho).awake

theorem Counted.erase_opening (h : Counted s none) (ho : s.opening.lookup pid = some o) :
    Counted { s with opening := s.opening.erase pid } (some o.fifoEnd) := by
  exact h.retable (h.balanced.erase_opening ho) rfl rfl fun pid' o' ho' ↦
    { h.waits pid' o' (lookup_erase_eq_some ho') with }

theorem Counted.erase_ends (h : Counted s none) (he : s.ends.lookup fd = some e) :
    Counted { s with ends := s.ends.erase fd } (some e) :=
  h.retable (h.balanced.erase_ends he) rfl rfl fun pid o ho ↦
    { h.waits pid o ho with }

/-- **An open ends with a descriptor, or gives its count back.** -/
theorem Counted.install (h : Counted s (some e)) (haccess : e.read = true ∨ e.write = true)
    (fd : Option Nat) : Counted (s.install pid e fd) none := by
  cases fd with
  | some fd =>
    refine Counted.returns (h.retable (h.balanced.insert_ends haccess) rfl rfl fun pid o ho ↦ ?_) _
    exact { h.waits pid o ho with }
  | none =>
    have hnext : Counted { s with nextFd := s.nextFd + 1 } (some e) := by
      refine h.retable ?_ rfl rfl fun pid o ho ↦ { h.waits pid o ho with }
      exact h.balanced.retable rfl (fun _ ↦ rfl) rfl rfl (fun _ _ ↦ rfl)
        (fun fd hfd ↦ h.balanced.fds fd (Nat.le_of_succ_le hfd)) h.balanced.ends h.balanced.opening
    exact (hnext.release haccess).returns _

/-- **A turn of a waiting open.** -/
theorem Counted.turn (h : Counted s none) (ho : s.opening.lookup pid = some o) (interrupted : Bool)
    (fd : Option Nat) : Counted (s.turn pid o interrupted fd) none := by
  have haccess := h.balanced.opening pid o ho
  obtain ⟨f, hf⟩ := h.balanced.exists_fifo ho
  simp only [St.turn, hf]
  split_ifs with hover hinterrupted
  · exact (h.erase_opening ho).install haccess fd
  · exact ((h.erase_opening ho).release haccess).returns _
  · refine h.frame fun pid' o' ho' hsince ↦ ?_
    by_cases hpid : pid' = pid
    · -- who goes to sleep has just seen that nobody has come
      subst hpid
      exact absurd (((h.waits pid' o ho).seen f hf).2.2.1 hsince) hover
    · simp only [update_of_ne hpid]
      exact (h.waits pid' o' ho').awake hsince

theorem endOf_access (key : Nat) (flags : UInt64) :
    (endOf key flags).read = true ∨ (endOf key flags).write = true := by
  rw [endOf]
  split_ifs <;> simp

/-- An open that starts to wait has seen the counts as they are. -/
theorem Counted.insert_opening (h : Counted s (some o.fifoEnd))
    (hpid : s.opening.lookup pid = none)
    (haccess : o.fifoEnd.read = true ∨ o.fifoEnd.write = true)
    (hf : s.fifos o.fifoEnd.key = some f) (hseen : o.seen = (f.readerOpens, f.writerOpens)) :
    Counted { s with
      opening := s.opening.insert pid o
      since := update s.since pid false } none := by
  refine h.retable (h.balanced.insert_opening hpid haccess _) rfl rfl fun pid' o' ho' ↦ ?_
  rcases lookup_insert_eq_some ho' with ⟨rfl, rfl⟩ | ⟨hne, ho'⟩
  · refine ⟨fun f' hf' ↦ ?_, fun hsince ↦ ?_⟩
    · cases hf.symm.trans hf'
      simp [hseen, Opening.Over]
    · simp at hsince
  · obtain ⟨hseen', hawake⟩ := h.waits pid' o' ho'
    refine ⟨?_, ?_⟩
    · simpa only [update_of_ne hne] using hseen'
    · simpa only [update_of_ne hne] using hawake

theorem Counted.openFifo (h : Counted s none) (hpid : s.opening.lookup pid = none)
    (flags : UInt64) (refused : Option Nat) (interrupted : Bool) (fd : Option Nat) :
    Counted (s.openFifo pid key flags refused interrupted fd) none := by
  have haccess := endOf_access key flags
  have hcount := h.count haccess
  have hf := count_fifos (s := s) (e := endOf key flags)
  have hpid' : (s.count (endOf key flags)).2.opening.lookup pid = none := by
    rw [count_opening, hpid]
  cases refused with
  | some errno => exact h.returns _
  | none =>
    simp only [St.openFifo]
    split_ifs with henxio hwait
    · exact h.returns _
    · exact (hcount.insert_opening hpid' haccess hf rfl).turn (lookup_insert _) interrupted fd
    · exact hcount.install haccess fd

theorem Counted.transfer (h : Counted s none) (f : Fifo) (data : List UInt8) :
    Counted { s with
      pipes := update s.pipes f.pipeId
        ((s.pipes f.pipeId).map fun p ↦ { p with data := data }) } none := by
  refine ⟨h.balanced.retable rfl (fun id ↦ ?_) rfl rfl (fun _ _ ↦ rfl) h.balanced.fds
    h.balanced.ends h.balanced.opening, fun key' f' hf' ↦ ⟨(h.settled key' f' hf').pos, ?_⟩,
    fun pid o ho ↦ { h.waits pid o ho with }⟩
  · by_cases hid : id = f.pipeId
    · simp [hid]
    · simp [hid]
  · intro p hp
    have hflags := (h.settled key' f' hf').flags
    by_cases hid : f'.pipeId = f.pipeId
    · simp only [hid, update_self, map_eq_some_iff] at hp
      obtain ⟨p₀, hp₀, rfl⟩ := hp
      exact hflags p₀ (by rw [hid, hp₀])
    · simp only [update_of_ne hid] at hp
      exact hflags p hp

end Pieces

/-! ## Runs -/

variable {s s' : St} {pid : Nat} {o : Opening}

theorem counted_init : Counted St.init none := by
  refine ⟨⟨rfl, fun _ _ hf ↦ ?_, fun _ _ ↦ ⟨rfl, rfl⟩, fun _ _ _ _ hf ↦ ?_, fun _ _ hp ↦ ?_,
    fun _ _ ↦ rfl, fun _ _ he ↦ ?_, fun _ _ ho ↦ ?_⟩, fun _ _ hf ↦ ?_, fun _ _ ho ↦ ?_⟩
  all_goals contradiction

/-- **One step keeps the counts.** -/
theorem step_counted (h : Counted s none) {e : Event} (hstep : s.step e = some s') :
    Counted s' none := by
  cases e with
  | openFifo pid key flags refused interrupted fd =>
    simp only [St.step] at hstep
    split at hstep
    · cases hstep
    next hpid =>
      cases hstep
      exact h.openFifo hpid flags refused interrupted fd
  | resume pid interrupted fd =>
    simp only [St.step] at hstep
    split at hstep
    · cases hstep
    next o ho =>
      split_ifs at hstep
      cases hstep
      exact h.turn ho interrupted fd
  | wake pid =>
    cases hstep
    refine h.frame fun pid' o ho hsince ↦ ?_
    by_cases hpid : pid' = pid
    · simp [hpid]
    · simpa [hpid] using (h.waits pid' o ho).awake hsince
  | abandon pid =>
    simp only [St.step] at hstep
    split at hstep
    · cases hstep
      exact h
    next o ho =>
      cases hstep
      exact (h.erase_opening ho).release (h.balanced.opening pid o ho)
  | close realFd =>
    simp only [St.step] at hstep
    split at hstep
    · cases hstep
    next e he =>
      cases hstep
      exact (h.erase_ends he).release (h.balanced.ends realFd e he)
  | transfer key data =>
    obtain ⟨f, hf, rfl⟩ := map_eq_some_iff.1 hstep
    exact h.transfer f data

/-- What the open of a process comes to once it need not wait any more: a descriptor, if there is
room for one. -/
def opened : Option Nat → Int
  | some fd => fd
  | none => failure ENFILE

theorem install_returns (e : FifoEnd) (fd : Option Nat) :
    (s.install pid e fd).results pid = some (opened fd) := by
  cases fd <;> simp [St.install, St.returns, opened]

theorem release_opening (e : FifoEnd) : (s.release e).opening = s.opening := by
  rw [St.release]
  split
  · rfl
  · split_ifs
    · rfl
    · dsimp only
      split_ifs <;> rfl

theorem install_opening (e : FifoEnd) (fd : Option Nat) :
    (s.install pid e fd).opening = s.opening := by
  cases fd
  · exact release_opening e
  · rfl

/-- **A wait whose other end has been opened since ends at its next turn**, signal or not, and
nothing keeps that turn from coming. -/
theorem resume_of_since (h : Counted s none) (ho : s.opening.lookup pid = some o)
    (hsince : s.since pid = true) (interrupted : Bool) (fd : Option Nat) :
    ∃ s', s.step (.resume pid interrupted fd) = some s' ∧ s'.opening.lookup pid = none ∧
      s'.results pid = some (opened fd) := by
  obtain ⟨f, hf⟩ := h.balanced.exists_fifo ho
  obtain ⟨hseen, hawake⟩ := h.waits pid o ho
  have hover : o.Over f := (hseen f hf).2.2.1 hsince
  refine ⟨s.turn pid o interrupted fd, ?_, ?_⟩
  · simp [St.step, ho, hawake hsince]
  · have hturn : s.turn pid o interrupted fd
        = { s with opening := s.opening.erase pid }.install pid o.fifoEnd fd := by
      simp only [St.turn, hf]
      exact if_pos hover
    rw [hturn, install_opening, install_returns]
    exact ⟨lookup_erase _ _, rfl⟩

/-- **FIFO opens are counted.**  After any sequence of opens, waits, signals, kills and closes the
counts are those of the open ends and waiting opens, flags, FIFOs and buffers follow them, and an
open whose other end has been opened since it began to wait is let go, even if that end is closed
again. -/
theorem run_counted_fifo {es : List Event} (hrun : Machine.run St.step St.init es = some s) :
    Counted s none ∧
      ∀ pid o, s.opening.lookup pid = some o → s.since pid = true → ∀ interrupted fd,
        ∃ s', s.step (.resume pid interrupted fd) = some s' ∧ s'.opening.lookup pid = none ∧
          s'.results pid = some (opened fd) := by
  have h : Counted s none :=
    Machine.run_keeps (I := fun s ↦ Counted s none) (fun _ _ _ h hstep ↦ step_counted h hstep)
      counted_init hrun
  exact ⟨h, fun pid o ho hsince interrupted fd ↦ resume_of_since h ho hsince interrupted fd⟩

/-- A reader waits, a writer comes and goes: the reader's open ends. -/
theorem run_counted_fifo_peer_gone : ∃ s,
    Machine.run St.step St.init
      [.openFifo 1 7 0 none false none, .openFifo 2 7 1 none false (some 3), .close 0] = some s ∧
    ((s.fifos 7).map fun f ↦ (f.readers, f.writers)) = some (1, 0) ∧ Counted s none ∧
      ∃ s', s.step (.resume 1 false (some 3)) = some s' ∧ s'.results 1 = some 3 := by
  refine Machine.exists_run_of (fun s ↦ ((s.fifos 7).map fun f ↦ (f.readers, f.writers)) = some (1, 0) ∧
    s.since 1 = true ∧ (s.opening.lookup 1).isSome) (by decide) ?_
  rintro s hrun ⟨hfifo, hsince, hopening⟩
  obtain ⟨o, ho⟩ := isSome_iff_exists.1 hopening
  obtain ⟨hcounted, hover⟩ := run_counted_fifo hrun
  obtain ⟨s', hstep, _, hresult⟩ := hover 1 o ho hsince false (some 3)
  exact ⟨hfifo, hcounted, s', hstep, hresult⟩

end OxideBSD.Fifos
