import OxideBSD.Lib.Machine

/-!
# Futexes

`do_futex`, `do_futex_requeue`, `futex_key` and `wake_futex` of `sys/process/limits.rs`, with the
wake-ups of a waiter that are not the waker's: a signal's (`wake_if_futex_waiting`), the timer
interrupt's, and that of `SIGCONT` after a stop.

* `Word` is what a futex is to its users: a place in a mapped object, whoever maps it and wherever.
  The code never sees it; it finds a waiter by the pair that `Mem.futexKey` computes from the caller's
  page table.
* `Mem` has the pages and objects of each address space, `St` each thread's call, and a `log` of what
  calls have returned.
* `step` takes one event; a wait is two of them, up to `schedule` and from there.

Waiter and waker compute their keys apart, at different times and from different page tables.  The
keys agree (`agree_of_alike`) if the pages do: shared memory is used without `FUTEX_PRIVATE` and a
frame of the page cache that is mapped privately only with it (`Page.Fits`), a page that somebody waits
on keeps its object and its frame (`Stays`), and the waker sees the word as its waiters do
(`SeenAlike`).  That the waiters' keys are still those of their pages is an invariant of runs (`Inv`).

No wake is lost (`run_wakes_kept`) in a run where the pages agree, and where a waiter that was counted
finds neither a signal nor its deadline passed when it runs.  The source does not see to either
(`wakes_lost`): it answers `EINTR` to a waiter that was counted, keys a private page that shows the
page cache's frame by that frame, and by its address once it has been made writable, and keys the
pages that a `vfork` child borrows by the child.
-/

set_option autoImplicit false

namespace OxideBSD.Futex

open Function Machine List Option

abbrev Pid := Nat

/-! ## Memory -/

/-- A place in a mapped object: the object's page and the offset in it. -/
abbrev Word := Nat × Nat

/-- What a thread's page table and map say of a page. -/
inductive Page
  /-- `SHARED_LEAF`: a page of a file mapped `MAP_SHARED`, or of a System V segment -/
  | shared (frame : Nat)
  /-- `SHARED_LEAF` and `CACHED_LEAF`: a frame of the page cache, mapped privately and read-only -/
  | cached (frame : Nat)
  /-- any other page that is present -/
  | own
  /-- not present, in an entry of anonymous memory or the heap that is not shared -/
  | untouched
  /-- not present, in any other -/
  | absent
  deriving DecidableEq, Repr

/-- The frame of a page that other processes may see. -/
def Page.sharedFrame : Page → Option Nat
  | .shared frame => some frame
  | _ => none

def pageSize : Nat := 4096

/-- `VirtAddr::try_new` -/
def canonical (addr : Nat) : Bool := addr < 2 ^ 47 || 2 ^ 64 - 2 ^ 47 ≤ addr

/-- The address space of each process, a `vfork` child's being its parent's, and what each page of
each address space is and shows. -/
structure Mem where
  spaces : Pid → Nat
  pages : Nat → Nat → Page
  objects : Nat → Nat → Nat

namespace Mem

variable (m : Mem) (tgid : Pid) (addr : Nat)

/-- The page at an address of the process. -/
def page : Page := if canonical addr then m.pages (m.spaces tgid) (addr / pageSize) else .absent

/-- The word at an address of the process. -/
def wordAt : Word := (m.objects (m.spaces tgid) (addr / pageSize), addr % pageSize)

/-- `futex_key` -/
def futexKey (isPrivate : Bool) : Option (Pid × Nat) :=
  if isPrivate then some (tgid, addr)
  else if !canonical addr then none
  else match m.page tgid addr with
    | .shared frame | .cached frame => some (0, frame * pageSize + addr % pageSize)
    | .own | .untouched => some (tgid, addr)
    | .absent => none

/-- A page of an address space is mapped, unmapped, filled or copied. -/
def put (space vpage : Nat) (page : Page) (object : Nat) : Mem :=
  { m with
    pages := update m.pages space (update (m.pages space) vpage page)
    objects := update m.objects space (update (m.objects space) vpage object) }

end Mem

/-- `u64::MAX`, the deadline of a wait without one. -/
def never : Nat := 2 ^ 64 - 1

/-- `pit::TIMER_HZ` -/
def timerHz : Nat := 100

/-! ## Threads and calls -/

inductive Errno
  | eagain
  | efault
  | eintr
  | einval
  | etimedout
  deriving DecidableEq, Repr

inductive Result
  | ok (value : Nat)
  | err (errno : Errno)
  deriving DecidableEq, Repr

/-- `BlockReason::WaitingForFutex`, and the word the wait is on, with the address it is seen at. -/
structure Waiter where
  scope : Pid
  key : Nat
  deadline : Nat
  addr : Nat
  word : Word
  deriving DecidableEq, Repr

/-- Where a thread is in `FUTEX_WAIT`: outside, blocked, stopped by a signal out of the block (its
state no longer says what it waits for), or ready to run on; `counted` says that `FUTEX_WAKE`
counted it as woken. -/
inductive Call
  | out
  | blocked (w : Waiter)
  | stopped (w : Waiter)
  | awake (deadline : Nat) (counted : Bool)
  deriving DecidableEq, Repr

/-- `interrupting` is what `has_interrupting_signal` says of the thread. -/
structure Thread where
  tgid : Pid
  interrupting : Bool
  call : Call
  deriving DecidableEq, Repr

/-- The wait a thread is in, blocked or stopped out of it. -/
def Thread.waiter (t : Thread) : Option Waiter :=
  match t.call with
  | .blocked w | .stopped w => some w
  | _ => none

/-- What a call came to: a wait's result, or the threads `FUTEX_WAKE` woke of those on its word. -/
inductive Note
  | returned (pid : Pid) (counted : Bool) (result : Result)
  | woke (word : Word) (max : Nat) (woken : List (Pid × Word)) (left : List Pid)
  deriving DecidableEq, Repr

/-- The system, with a log of what its calls have come to. -/
structure St where
  threads : Pid → Option Thread
  next : Pid
  mem : Mem
  values : Word → Nat
  now : Nat
  log : List Note

/-- No process yet; `spaces` are the address spaces that they will be in. -/
def St.boot (spaces : Pid → Nat) : St where
  threads := fun _ ↦ none
  next := 1
  mem := ⟨spaces, fun _ _ ↦ .absent, fun _ _ ↦ 0⟩
  values := fun _ ↦ 0
  now := 0
  log := []

namespace St

variable (s : St)

def setCall (p : Pid) (call : Call) : St :=
  { s with threads := update s.threads p ((s.threads p).map fun t ↦ { t with call := call }) }

def note (n : Note) : St := { s with log := n :: s.log }

/-! ## Waiting -/

end St

/-- `futex`'s timeout: none, one that cannot be read, or a relative time. -/
inductive Timeout
  | null
  | fault
  | after (sec nsec : Int)
  deriving DecidableEq, Repr

/-- The deadline of a wait that starts now; `none` where the arithmetic overflows. -/
def deadlineOf (now : Nat) : Timeout → Option (Except Errno Nat)
  | .null => some (.ok never)
  | .fault => some (.error .efault)
  | .after sec nsec =>
    if sec < 0 ∨ nsec < 0 ∨ 1000000000 ≤ nsec then some (.error .einval)
    else
      let ticks := sec.toNat * timerHz + (nsec.toNat * timerHz + 999999999) / 1000000000
      if now + ticks < 2 ^ 64 then some (.ok (now + ticks)) else none

namespace St

variable (s : St) (p : Pid) (t : Thread)

/-- `do_futex` for `FUTEX_WAIT`, up to `schedule`. -/
def futexWait (addr : Nat) (isPrivate : Bool) (val : Nat) (timeout : Timeout) : Option St :=
  let returns := fun e ↦ some (s.note (.returned p false (.err e)))
  if s.mem.page t.tgid addr = .absent then returns .efault
  else if s.values (s.mem.wordAt t.tgid addr) ≠ val % 2 ^ 32 then returns .eagain
  else match deadlineOf s.now timeout with
    | none => none
    | some (.error e) => returns e
    | some (.ok deadline) =>
      if deadline ≤ s.now then returns .etimedout
      else match s.mem.futexKey t.tgid addr isPrivate with
        | none => returns .efault
        | some (scope, key) =>
          if t.interrupting then returns .eintr
          else some (s.setCall p (.blocked
            ⟨scope, key, deadline, addr, s.mem.wordAt t.tgid addr⟩))

/-- `do_futex` for `FUTEX_WAIT`, from `schedule` on. -/
def resume (deadline : Nat) (counted : Bool) : St :=
  let result := if t.interrupting then .err .eintr
    else if deadline ≤ s.now then .err .etimedout else .ok 0
  (s.setCall p .out).note (.returned p counted result)

/-! ## Waking -/

/-- The wait the thread at `p` is blocked in. -/
def blocked (q : Pid) : Option Waiter :=
  (s.threads q).bind fun t ↦ match t.call with
    | .blocked w => some w
    | _ => none

/-- The threads blocked under a key, in the order of the table. -/
def waitersOn (scope : Pid) (key : Nat) : List Pid :=
  (List.range s.next).filter fun q ↦ (s.blocked q).any fun w ↦ w.scope = scope ∧ w.key = key

/-- The threads whose wait is on a word, blocked or stopped out of it. -/
def waitersFor (word : Word) : List Pid :=
  (List.range s.next).filter fun q ↦ (s.threads q).any fun t ↦ t.waiter.any fun w ↦ w.word = word

/-- Makes the blocked threads of `l` ready. -/
def rouse (counted : Bool) (l : List Pid) : St :=
  { s with threads := fun q ↦ (s.threads q).map fun t ↦
      if q ∈ l then match t.call with
        | .blocked w => { t with call := .awake w.deadline counted }
        | _ => t
      else t }

/-- `wake_futex`: how many it wakes is the length of the list. -/
def woken (scope : Pid) (key : Nat) (max : Nat) : List Pid := (s.waitersOn scope key).take max

/-- What `FUTEX_WAKE` has done, for the log. -/
def wokeNote (word : Word) (max : Nat) (l : List Pid) : Note :=
  .woke word max (l.filterMap fun q ↦ (s.blocked q).map fun w ↦ (q, w.word))
    ((s.waitersFor word).filter fun q ↦ q ∉ l)

/-- `do_futex` for `FUTEX_WAKE`. -/
def futexWake (addr : Nat) (isPrivate : Bool) (max : Nat) : St :=
  let l := (s.mem.futexKey t.tgid addr isPrivate).elim [] fun k ↦ s.woken k.1 k.2 max
  (s.rouse true l).note (s.wokeNote (s.mem.wordAt t.tgid addr) max l)

/-- `do_futex_requeue` -/
def futexRequeue (addr addr2 nrWake nrRequeue : Nat) : St :=
  let s' := s.rouse true (s.woken t.tgid addr nrWake)
  let moved := (s'.waitersOn t.tgid addr).take nrRequeue
  { s' with threads := fun q ↦ (s'.threads q).map fun u ↦
      if q ∈ moved then match u.call with
        | .blocked w =>
          { u with
            call := .blocked ⟨t.tgid, addr2, w.deadline, addr2, s.mem.wordAt t.tgid addr2⟩ }
        | _ => u
      else u }

/-- The timer interrupt: waits whose deadline has come end. -/
def tick : St :=
  let s := { s with now := s.now + 1 }
  s.rouse false ((List.range s.next).filter fun q ↦ (s.blocked q).any fun w ↦ w.deadline ≤ s.now)

/-- A new thread. -/
def spawn (tgid : Pid) : St :=
  { s with threads := update s.threads s.next (some ⟨tgid, false, .out⟩), next := s.next + 1 }

end St

/-! ## Events -/

inductive Event
  | futexWait (pid : Pid) (addr : Nat) (isPrivate : Bool) (val : Nat) (timeout : Timeout)
  /-- a waiter that was made ready runs on -/
  | resume (pid : Pid)
  | futexWake (pid : Pid) (addr : Nat) (isPrivate : Bool) (max : Nat)
  | futexRequeue (pid : Pid) (addr addr2 nrWake nrRequeue : Nat)
  | tick
  /-- what is pending, blocked or handled changes; a signal sent may wake its target -/
  | signal (pid : Pid) (interrupting wakes : Bool)
  | stop (pid : Pid)
  | cont (pid : Pid)
  /-- a thread ends: `CLONE_CHILD_CLEARTID` wakes one waiter -/
  | exit (pid : Pid) (clearTid : Option Nat)
  /-- a new thread of the caller's process -/
  | clone (pid : Pid)
  /-- a new process, by `fork` or `vfork` -/
  | fork
  | remap (space vpage : Nat) (page : Page) (object : Nat)
  | store (word : Word) (val : Nat)
  deriving DecidableEq, Repr

/-- One event of the system. -/
def step (s : St) : Event → Option St
  | .futexWait p addr isPrivate val timeout =>
    (s.threads p).bind fun t ↦
      if t.call = .out then s.futexWait p t addr isPrivate val timeout else none
  | .resume p =>
    (s.threads p).bind fun t ↦ match t.call with
      | .awake deadline counted => some (s.resume p t deadline counted)
      | _ => none
  | .futexWake p addr isPrivate max =>
    (s.threads p).bind fun t ↦
      if t.call = .out then some (s.futexWake t addr isPrivate max) else none
  | .futexRequeue p addr addr2 nrWake nrRequeue =>
    (s.threads p).bind fun t ↦
      if t.call = .out then some (s.futexRequeue t addr addr2 nrWake nrRequeue) else none
  | .tick => some s.tick
  | .signal p interrupting wakes =>
    (s.threads p).map fun t ↦
      St.rouse { s with threads := update s.threads p (some { t with interrupting := interrupting }) }
        false (if wakes then [p] else [])
  | .stop p =>
    (s.threads p).map fun t ↦ match t.call with
      | .blocked w => s.setCall p (.stopped w)
      | _ => s
  | .cont p =>
    (s.threads p).map fun t ↦ match t.call with
      | .stopped w => s.setCall p (.awake w.deadline false)
      | _ => s
  | .exit p clearTid =>
    (s.threads p).map fun t ↦
      let s := clearTid.elim s fun addr ↦ s.rouse false (s.woken t.tgid addr 1)
      { s with threads := update s.threads p none }
  | .clone p => (s.threads p).map fun t ↦ s.spawn t.tgid
  | .fork => some (s.spawn s.next)
  | .remap space vpage page object => some { s with mem := s.mem.put space vpage page object }
  | .store word val => some { s with values := update s.values word (val % 2 ^ 32) }

/-! ## No wake is lost -/

/-- A waiter that was counted has returned 0; a wake has woken every waiter on its word, or as many
of them as it was asked to. -/
def Note.Kept : Note → Prop
  | .returned _ counted result => counted = true → result = .ok 0
  | .woke word max woken left => left = [] ∨ (woken.length = max ∧ ∀ x ∈ woken, x.2 = word)

/-- No wake was lost so far. -/
def Kept (s : St) : Prop := ∀ n ∈ s.log, n.Kept

/-- Shared memory is used without `FUTEX_PRIVATE`, and a frame of the page cache that is mapped
privately only with it. -/
def Page.Fits (page : Page) (isPrivate : Bool) : Prop :=
  match page with
  | .shared _ => isPrivate = false
  | .cached _ => isPrivate = true
  | _ => True

instance (page : Page) (isPrivate : Bool) : Decidable (page.Fits isPrivate) := by
  delta Page.Fits
  split <;> infer_instance

/-- What is put at a page that a thread waits on shows the same object, and in the same frame if the
page is shared. -/
def Stays (s : St) (space vpage : Nat) (page : Page) (object : Nat) : Prop :=
  ∀ q ∈ List.range s.next, ∀ u ∈ s.threads q, ∀ w ∈ u.waiter,
    s.mem.spaces u.tgid = space → w.addr / pageSize = vpage →
      page ≠ .absent ∧ page.sharedFrame = (s.mem.page u.tgid w.addr).sharedFrame ∧ object = w.word.1

/-- The waiters on the waker's word are blocked, and see it in the same shared frame or, in memory
that is not shared, are threads of the waker's process that see it at the same address.  A frame that
the waker and a waiter share shows both the same object. -/
def SeenAlike (s : St) (tgid : Pid) (addr : Nat) : Prop :=
  ∀ q ∈ List.range s.next, ∀ u ∈ s.threads q, ∀ w ∈ u.waiter,
    (w.word = s.mem.wordAt tgid addr → u.call = .blocked w ∧
      (s.mem.page u.tgid w.addr).sharedFrame = (s.mem.page tgid addr).sharedFrame ∧
      ((s.mem.page tgid addr).sharedFrame = none → u.tgid = tgid ∧ w.addr = addr)) ∧
    ((s.mem.page tgid addr).sharedFrame ≠ none →
      (s.mem.page u.tgid w.addr).sharedFrame = (s.mem.page tgid addr).sharedFrame →
        w.word.1 = (s.mem.wordAt tgid addr).1)

/-- A waiter that runs on after it was counted has no signal to take and its deadline to come. -/
def Thread.Clear (now : Nat) (t : Thread) : Prop :=
  match t.call with
  | .awake deadline true => t.interrupting = false ∧ now < deadline
  | _ => True

instance (now : Nat) (t : Thread) : Decidable (t.Clear now) := by
  delta Thread.Clear
  split <;> infer_instance

/-- Each call is made for a page that suits it. -/
def Proper (s : St) : Event → Prop
  | .futexWait p addr isPrivate _ _ => ∀ t ∈ s.threads p, (s.mem.page t.tgid addr).Fits isPrivate
  | .resume p => ∀ t ∈ s.threads p, t.Clear s.now
  | .futexWake p addr isPrivate _ => ∀ t ∈ s.threads p,
    (s.mem.page t.tgid addr).Fits isPrivate ∧ SeenAlike s t.tgid addr
  | .futexRequeue p _ addr2 _ _ => ∀ t ∈ s.threads p,
    s.mem.page t.tgid addr2 ≠ .absent ∧ (s.mem.page t.tgid addr2).sharedFrame = none
  | .remap space vpage page object => Stays s space vpage page object
  | _ => True

instance (s : St) (e : Event) : Decidable (Proper s e) := by
  delta Proper Stays SeenAlike
  split <;> infer_instance

/-! ## The keys agree -/

/-- The key that a page gives: of the frame if it is shared, and else of the process. -/
def Mem.keyOf (m : Mem) (tgid : Pid) (addr : Nat) : Pid × Nat :=
  (m.page tgid addr).sharedFrame.elim (tgid, addr) fun frame ↦
    (0, frame * pageSize + addr % pageSize)

/-- The word and key of a wait of the process are what its page gives. -/
structure Waits (m : Mem) (tgid : Pid) (w : Waiter) : Prop where
  mapped : m.page tgid w.addr ≠ .absent
  word : w.word = m.wordAt tgid w.addr
  key : (w.scope, w.key) = m.keyOf tgid w.addr

/-- A thread's process has a number, and its wait the key of its page. -/
structure Thread.Good (m : Mem) (t : Thread) : Prop where
  pos : 0 < t.tgid
  waits : ∀ w, t.waiter = some w → Waits m t.tgid w

/-- Every waiter waits under the key of its page. -/
structure Inv (s : St) : Prop where
  pos : 0 < s.next
  good : ∀ q u, s.threads q = some u → q < s.next ∧ u.Good s.mem

/-- The waker's key is that of its word's waiters: each of them is blocked under it, and no other
thread is. -/
structure Agree (s : St) (tgid : Pid) (addr : Nat) (isPrivate : Bool) : Prop where
  found : ∀ q ∈ s.waitersFor (s.mem.wordAt tgid addr), ∃ w, s.blocked q = some w ∧
    s.mem.futexKey tgid addr isPrivate = some (w.scope, w.key)
  sole : ∀ q w, s.blocked q = some w → s.mem.futexKey tgid addr isPrivate = some (w.scope, w.key) →
    w.word = s.mem.wordAt tgid addr

section Keys

variable {s s' : St} {m : Mem} {p q tgid : Pid} {t u : Thread} {w : Waiter} {addr : Nat}
  {isPrivate : Bool}

/-- A wait returns an error at once, or blocks under its key. -/
theorem futexWait_cases {val : Nat} {timeout : Timeout}
    (h : s.futexWait p t addr isPrivate val timeout = some s') :
    (∃ e, s' = s.note (.returned p false (.err e))) ∨
      ∃ w, s.mem.page t.tgid addr ≠ .absent ∧ w.addr = addr ∧ w.word = s.mem.wordAt t.tgid addr ∧
        s.mem.futexKey t.tgid addr isPrivate = some (w.scope, w.key) ∧
        s' = s.setCall p (.blocked w) := by
  simp only [St.futexWait] at h
  split_ifs at h with hmapped hval
  · exact .inl ⟨_, (some.inj h).symm⟩
  · exact .inl ⟨_, (some.inj h).symm⟩
  all_goals
    split at h
    · cases h
    · exact .inl ⟨_, (some.inj h).symm⟩
    split at h
    · exact .inl ⟨_, (some.inj h).symm⟩
    split at h
    · exact .inl ⟨_, (some.inj h).symm⟩
  · exact .inl ⟨_, (some.inj h).symm⟩
  · next hkey => exact .inr ⟨_, hmapped, rfl, rfl, hkey, (some.inj h).symm⟩

theorem canonical_of_mapped (h : m.page tgid addr ≠ .absent) : canonical addr = true := by
  by_contra hnot
  exact h (if_neg hnot)

theorem futexKey_of_fits (hfits : (m.page tgid addr).Fits isPrivate)
    (hmapped : m.page tgid addr ≠ .absent) :
    m.futexKey tgid addr isPrivate = some (m.keyOf tgid addr) := by
  have hcanonical := canonical_of_mapped hmapped
  rw [Mem.futexKey, Mem.keyOf]
  cases isPrivate <;> cases hp : m.page tgid addr <;> simp_all [Page.Fits, Page.sharedFrame]

theorem keyOf_of_futexKey {k : Pid × Nat} (hfits : (m.page tgid addr).Fits isPrivate)
    (h : m.futexKey tgid addr isPrivate = some k) : k = m.keyOf tgid addr := by
  by_cases habsent : m.page tgid addr = .absent
  · -- only a private futex has a key where nothing is mapped
    rw [Mem.futexKey, habsent] at h
    cases isPrivate with
    | true =>
      rw [Mem.keyOf, habsent]
      exact (Option.some.inj h).symm
    | false => simp at h
  · rw [futexKey_of_fits hfits habsent] at h
    exact (Option.some.inj h).symm

theorem blocked_eq_some : s.blocked q = some w ↔ ∃ u, s.threads q = some u ∧ u.call = .blocked w := by
  rw [St.blocked, bind_eq_some_iff]
  refine exists_congr fun u ↦ and_congr_right fun _ ↦ ?_
  cases u.call <;> simp

theorem waiter_of_blocked (h : u.call = .blocked w) : u.waiter = some w := by
  rw [Thread.waiter, h]

/-- **The keys agree if the pages do.** -/
theorem agree_of_alike (h : Inv s) (hpos : 0 < tgid) (hfits : (s.mem.page tgid addr).Fits isPrivate)
    (halike : SeenAlike s tgid addr) : Agree s tgid addr isPrivate := by
  constructor
  · intro q hq
    obtain ⟨hlt, hany⟩ := mem_filter.1 hq
    obtain ⟨u, hu, hany⟩ := (any_eq_true _ _).1 hany
    obtain ⟨w, hw, hword⟩ := (any_eq_true _ _).1 hany
    have hword := of_decide_eq_true hword
    obtain ⟨hcall, hframe, hprivate⟩ := (halike q hlt u hu w hw).1 hword
    obtain ⟨hmapped, hat, hkey⟩ := (h.good q u hu).2.waits w hw
    refine ⟨w, blocked_eq_some.2 ⟨u, hu, hcall⟩, ?_⟩
    cases hshared : (s.mem.page tgid addr).sharedFrame with
    | none =>
      obtain ⟨rfl, rfl⟩ := hprivate hshared
      rw [futexKey_of_fits hfits hmapped, hkey]
    | some frame =>
      have hmapped : s.mem.page tgid addr ≠ .absent := by
        intro habsent
        rw [habsent] at hshared
        cases hshared
      have hoff : w.addr % pageSize = addr % pageSize := congrArg Prod.snd (hat ▸ hword)
      rw [futexKey_of_fits hfits hmapped, hkey, Mem.keyOf, Mem.keyOf, hframe, hshared]
      simp only [Option.elim_some, hoff]
  · intro q w hblocked hkey
    obtain ⟨u, hu, hcall⟩ := blocked_eq_some.1 hblocked
    have hw := waiter_of_blocked hcall
    obtain ⟨hlt, hgood⟩ := h.good q u hu
    obtain ⟨-, hat, hkey'⟩ := hgood.waits w hw
    have hobject := (halike q (mem_range.2 hlt) u hu w hw).2
    have heq := (keyOf_of_futexKey hfits hkey).symm.trans hkey'
    rw [Mem.keyOf, Mem.keyOf] at heq
    -- the scope tells a shared key from a private one
    cases hshared : (s.mem.page tgid addr).sharedFrame <;>
      cases hshared' : (s.mem.page u.tgid w.addr).sharedFrame <;> rw [hshared, hshared'] at heq
    · obtain ⟨htgid, haddr⟩ := Prod.mk.inj heq
      rw [hat, ← htgid, ← haddr]
    · exact absurd (congrArg Prod.fst heq) (Nat.pos_iff_ne_zero.1 hpos)
    · exact absurd (congrArg Prod.fst heq).symm (Nat.pos_iff_ne_zero.1 hgood.pos)
    next frame frame' =>
      have hsum : frame * pageSize + addr % pageSize = frame' * pageSize + w.addr % pageSize :=
        congrArg Prod.snd heq
      have hboth : frame = frame' ∧ addr % pageSize = w.addr % pageSize := by
        rw [pageSize] at *
        omega
      rw [hshared, hshared', hboth.1] at hobject
      refine Prod.ext (hobject nofun rfl) ?_
      rw [hat]
      exact hboth.2.symm

/-! ## The invariant -/

/-- A thread that comes out of its wait, or goes into one that has the key of its page. -/
theorem Thread.Good.change {t' : Thread} (h : t.Good m) (htgid : t'.tgid = t.tgid)
    (hwaits : ∀ w, t'.waiter = some w → t.waiter = some w ∨ Waits m t.tgid w) : t'.Good m :=
  ⟨htgid ▸ h.pos, fun w hw ↦ htgid ▸ (hwaits w hw).elim (h.waits w) id⟩

theorem Inv.update (h : Inv s) {t' : Option Thread}
    (ht' : ∀ u, t' = some u → p < s.next ∧ u.Good s.mem) :
    Inv { s with threads := update s.threads p t' } := by
  refine ⟨h.pos, fun q u hu ↦ ?_⟩
  simp only [update_apply] at hu
  split at hu
  · next hq => exact hq ▸ ht' u hu
  · exact h.good q u hu

theorem Inv.setCall {call : Call} (h : Inv s) (ht : s.threads p = some t)
    (hwaits : ∀ w, { t with call := call }.waiter = some w →
      t.waiter = some w ∨ Waits s.mem t.tgid w) : Inv (s.setCall p call) := by
  refine h.update fun u hu ↦ ⟨(h.good p t ht).1, ?_⟩
  rw [ht] at hu
  cases hu
  exact (h.good p t ht).2.change rfl hwaits

theorem Inv.rouse (h : Inv s) (counted : Bool) (l : List Pid) : Inv (s.rouse counted l) := by
  refine ⟨h.pos, fun q u' hu' ↦ ?_⟩
  obtain ⟨u, hu, rfl⟩ := map_eq_some_iff.1 hu'
  obtain ⟨hlt, hgood⟩ := h.good q u hu
  refine ⟨hlt, ?_⟩
  split
  · split
    · exact hgood.change rfl nofun
    · exact hgood
  · exact hgood

theorem Inv.spawn (h : Inv s) (hpos : 0 < tgid) : Inv (s.spawn tgid) := by
  have hnext : Inv { s with next := s.next + 1 } :=
    ⟨Nat.succ_pos _, fun q u hu ↦ (h.good q u hu).imp_left Nat.lt_succ_of_lt⟩
  refine hnext.update fun u hu ↦ ⟨Nat.lt_succ_self _, ?_⟩
  cases hu
  exact ⟨hpos, nofun⟩

/-- A wait outlives a change of its page that leaves object and frame. -/
theorem Waits.put {space vpage object : Nat} {page : Page} (h : Waits m tgid w)
    (hstays : m.spaces tgid = space → w.addr / pageSize = vpage →
      page ≠ .absent ∧ page.sharedFrame = (m.page tgid w.addr).sharedFrame ∧ object = w.word.1) :
    Waits (m.put space vpage page object) tgid w := by
  obtain ⟨hmapped, hword, hkey⟩ := h
  by_cases hhere : m.spaces tgid = space ∧ w.addr / pageSize = vpage
  · obtain ⟨rfl, rfl⟩ := hhere
    obtain ⟨hpage, hframe, hobject⟩ := hstays rfl rfl
    have hnew : (m.put (m.spaces tgid) (w.addr / pageSize) page object).page tgid w.addr = page := by
      simp [Mem.page, Mem.put, canonical_of_mapped hmapped]
    refine ⟨by rwa [hnew], ?_, ?_⟩
    · rw [hobject]
      simp [Mem.wordAt, Mem.put, hword]
    · rw [hkey, Mem.keyOf, Mem.keyOf, hnew, hframe]
  · have hsame : ∀ {α : Type} (f : Nat → Nat → α) (x : α),
        update f space (update (f space) vpage x) (m.spaces tgid) (w.addr / pageSize) =
          f (m.spaces tgid) (w.addr / pageSize) := by
      intro α f x
      by_cases hspace : m.spaces tgid = space
      · have hvpage : w.addr / pageSize ≠ vpage := fun heq ↦ hhere ⟨hspace, heq⟩
        rw [hspace, update_self, update_of_ne hvpage]
      · rw [update_of_ne hspace]
    have hpage : (m.put space vpage page object).page tgid w.addr = m.page tgid w.addr := by
      simp only [Mem.page, Mem.put, hsame]
    refine ⟨by rwa [hpage], ?_, by rw [hkey, Mem.keyOf, Mem.keyOf, hpage]⟩
    simp only [hword, Mem.wordAt, Mem.put, hsame]

theorem mem_waitersOn {scope key : Nat} :
    q ∈ s.waitersOn scope key ↔
      q < s.next ∧ ∃ w, s.blocked q = some w ∧ w.scope = scope ∧ w.key = key := by
  simp [St.waitersOn, Option.any_eq_true]

/-- Who waits under a private key is a thread of the process whose key it is. -/
theorem Thread.Good.tgid_of_scope (h : u.Good m) (hw : u.waiter = some w) (hpos : 0 < w.scope) :
    w.scope = u.tgid := by
  have hkey := (h.waits w hw).key
  rw [Mem.keyOf] at hkey
  cases hframe : (m.page u.tgid w.addr).sharedFrame <;> rw [hframe] at hkey
  · exact congrArg Prod.fst hkey
  · exact absurd (congrArg Prod.fst hkey) (Nat.pos_iff_ne_zero.1 hpos)

theorem Inv.futexRequeue {addr2 nrWake nrRequeue : Nat} (h : Inv s) (hpos : 0 < t.tgid)
    (hmapped : s.mem.page t.tgid addr2 ≠ .absent)
    (hprivate : (s.mem.page t.tgid addr2).sharedFrame = none) :
    Inv (s.futexRequeue t addr addr2 nrWake nrRequeue) := by
  have hrouse := h.rouse true (s.woken t.tgid addr nrWake)
  refine ⟨h.pos, fun q u' hu' ↦ ?_⟩
  obtain ⟨u, hu, rfl⟩ := map_eq_some_iff.1 hu'
  obtain ⟨hlt, hgood⟩ := hrouse.good q u hu
  refine ⟨hlt, ?_⟩
  split
  · next hmoved =>
    split
    · next w hcall =>
      obtain ⟨-, w₀, hw₀, hscope, -⟩ := mem_waitersOn.1 (mem_of_mem_take hmoved)
      obtain ⟨u₀, hu₀, hcall₀⟩ := blocked_eq_some.1 hw₀
      cases hu.symm.trans hu₀
      have htgid : t.tgid = u.tgid := by
        rw [← hscope] at hpos ⊢
        exact hgood.tgid_of_scope (waiter_of_blocked hcall₀) hpos
      refine hgood.change rfl fun w' hw' ↦ .inr ?_
      cases hw'
      rw [htgid] at hmapped hprivate ⊢
      refine ⟨hmapped, rfl, ?_⟩
      rw [Mem.keyOf]
      exact (congrArg (Option.elim · (u.tgid, addr2) _) hprivate).symm
    · exact hgood
  · exact hgood

/-- **One step** keeps every wait's key that of its page. -/
theorem step_inv {e : Event} (hproper : Proper s e) (h : Inv s) (hstep : step s e = some s') :
    Inv s' := by
  cases e with
  | futexWait p addr isPrivate val timeout =>
    obtain ⟨t, ht, hstep⟩ := bind_eq_some_iff.1 hstep
    rcases futexWait_cases (of_ite_right hstep nofun).2 with
      ⟨e, rfl⟩ | ⟨w, hmapped, rfl, hword, hkey, rfl⟩
    · exact ⟨h.pos, h.good⟩
    · refine h.setCall ht fun w' hw' ↦ .inr ?_
      cases hw'
      exact ⟨hmapped, hword, keyOf_of_futexKey (hproper t ht) hkey⟩
  | resume p =>
    obtain ⟨t, ht, hstep⟩ := bind_eq_some_iff.1 hstep
    split at hstep
    · cases hstep
      have hout : Inv (s.setCall p .out) := h.setCall ht nofun
      exact ⟨hout.pos, hout.good⟩
    · cases hstep
  | futexWake p addr isPrivate max =>
    obtain ⟨t, ht, hstep⟩ := bind_eq_some_iff.1 hstep
    cases (of_ite_right hstep nofun).2
    obtain ⟨hpos, hgood⟩ := h.rouse true _
    exact ⟨hpos, hgood⟩
  | futexRequeue p addr addr2 nrWake nrRequeue =>
    obtain ⟨t, ht, hstep⟩ := bind_eq_some_iff.1 hstep
    cases (of_ite_right hstep nofun).2
    obtain ⟨hmapped, hprivate⟩ := hproper t ht
    exact h.futexRequeue (h.good p t ht).2.pos hmapped hprivate
  | tick =>
    cases hstep
    have hlater : Inv { s with now := s.now + 1 } := ⟨h.pos, h.good⟩
    exact hlater.rouse false _
  | signal p interrupting wakes =>
    obtain ⟨t, ht, rfl⟩ := map_eq_some_iff.1 hstep
    refine (h.update fun u hu ↦ ?_).rouse false _
    cases hu
    exact ⟨(h.good p t ht).1, (h.good p t ht).2.change rfl fun _ ↦ .inl⟩
  | stop p =>
    obtain ⟨t, ht, rfl⟩ := map_eq_some_iff.1 hstep
    split
    · next w hcall =>
      refine h.setCall ht fun w' hw' ↦ .inl ?_
      cases hw'
      exact waiter_of_blocked hcall
    · exact h
  | cont p =>
    obtain ⟨t, ht, rfl⟩ := map_eq_some_iff.1 hstep
    split
    · exact h.setCall ht nofun
    · exact h
  | exit p clearTid =>
    obtain ⟨t, ht, rfl⟩ := map_eq_some_iff.1 hstep
    cases clearTid with
    | none => exact h.update nofun
    | some addr => exact (h.rouse false _).update nofun
  | clone p =>
    obtain ⟨t, ht, rfl⟩ := map_eq_some_iff.1 hstep
    exact h.spawn (h.good p t ht).2.pos
  | fork =>
    cases hstep
    exact h.spawn h.pos
  | remap space vpage page object =>
    cases hstep
    refine ⟨h.pos, fun q u hu ↦ ?_⟩
    obtain ⟨hlt, hgood⟩ := h.good q u hu
    exact ⟨hlt, hgood.pos, fun w hw ↦
      (hgood.waits w hw).put (hproper q (mem_range.2 hlt) u hu w hw)⟩
  | store word val =>
    cases hstep
    exact ⟨h.pos, h.good⟩

end Keys

section

variable {s s' : St} {p q tgid : Pid} {t : Thread}

theorem Kept.note {n : Note} : Kept (s.note n) ↔ n.Kept ∧ Kept s :=
  forall_mem_cons

/-- **A wake under the key of its word's waiters** leaves none of them, unless it has woken as many
as it was asked to. -/
theorem wokeNote_kept {addr max : Nat} {isPrivate : Bool} {k : Pid × Nat}
    (hkey : s.mem.futexKey tgid addr isPrivate = some k) (hagree : Agree s tgid addr isPrivate) :
    (s.wokeNote (s.mem.wordAt tgid addr) max (s.woken k.1 k.2 max)).Kept := by
  obtain ⟨hfor, hon⟩ := hagree
  rw [St.woken]
  by_cases hlen : (s.waitersOn k.1 k.2).length ≤ max
  · -- every thread under the key is woken
    refine .inl (filter_eq_nil_iff.2 fun q hq ↦ ?_)
    rw [take_of_length_le hlen, decide_eq_true_eq, not_not, mem_waitersOn]
    obtain ⟨w, hw, hk⟩ := hfor q hq
    rw [hkey, some.injEq] at hk
    refine ⟨mem_range.1 (mem_filter.1 hq).1, w, hw, ?_⟩
    rw [hk]
    exact ⟨rfl, rfl⟩
  · have hblocked : ∀ q ∈ (s.waitersOn k.1 k.2).take max, ∃ w, s.blocked q = some w ∧
        w.word = s.mem.wordAt tgid addr := by
      intro q hq
      obtain ⟨-, w, hw, hscope, hk⟩ := mem_waitersOn.1 (mem_of_mem_take hq)
      refine ⟨w, hw, hon q w hw ?_⟩
      rw [hkey, hscope, hk]
    refine .inr ⟨?_, fun x hx ↦ ?_⟩
    · rw [length_filterMap_eq_countP, countP_eq_length.2, length_take]
      · omega
      · intro q hq
        obtain ⟨w, hw, -⟩ := hblocked q hq
        rw [hw]
        rfl
    · obtain ⟨q, hq, hx⟩ := mem_filterMap.1 hx
      obtain ⟨w, hw, hword⟩ := hblocked q hq
      rw [hw, map_some, some.injEq] at hx
      rw [← hx]
      exact hword

theorem futexWake_kept {addr max : Nat} {isPrivate : Bool} (h : Kept s)
    (hagree : Agree s t.tgid addr isPrivate) : Kept (s.futexWake t addr isPrivate max) := by
  refine Kept.note.2 ⟨?_, h⟩
  cases hkey : s.mem.futexKey t.tgid addr isPrivate with
  | none =>
    refine .inl (filter_eq_nil_iff.2 fun q hq ↦ ?_)
    obtain ⟨w, -, hk⟩ := hagree.found q hq
    rw [hkey] at hk
    cases hk
  | some k => exact wokeNote_kept hkey hagree

/-- What a waiter returns is right exactly when it is clear. -/
theorem resume_kept {deadline : Nat} {counted : Bool} (hcall : t.call = .awake deadline counted) :
    Kept (s.resume p t deadline counted) ↔ t.Clear s.now ∧ Kept s := by
  rw [St.resume, Kept.note, Thread.Clear, hcall]
  refine and_congr_left fun _ ↦ ?_
  rw [Note.Kept]
  cases counted with
  | false => simp
  | true =>
    cases hsig : t.interrupting with
    | true => simp
    | false =>
      by_cases hlate : deadline ≤ s.now
      · simp
      · simp [Nat.not_le.1 hlate]

/-- **One step** that is proper loses no wake. -/
theorem step_kept {e : Event} (hproper : Proper s e) (hinv : Inv s) (h : Kept s)
    (hstep : step s e = some s') : Kept s' := by
  cases e with
  | futexWait p addr isPrivate val timeout =>
    obtain ⟨t, -, hstep⟩ := bind_eq_some_iff.1 hstep
    rcases futexWait_cases (of_ite_right hstep nofun).2 with ⟨e, rfl⟩ | ⟨w, -, -, -, -, rfl⟩
    · exact Kept.note.2 ⟨nofun, h⟩
    · exact h
  | resume p =>
    obtain ⟨t, ht, hstep⟩ := bind_eq_some_iff.1 hstep
    split at hstep
    · next hcall =>
      cases hstep
      exact (resume_kept hcall).2 ⟨hproper t ht, h⟩
    · cases hstep
  | futexWake p addr isPrivate max =>
    obtain ⟨t, ht, hstep⟩ := bind_eq_some_iff.1 hstep
    cases (of_ite_right hstep nofun).2
    obtain ⟨hfits, halike⟩ := hproper t ht
    exact futexWake_kept h (agree_of_alike hinv (hinv.good p t ht).2.pos hfits halike)
  | futexRequeue p addr addr2 nrWake nrRequeue =>
    obtain ⟨t, -, hstep⟩ := bind_eq_some_iff.1 hstep
    cases (of_ite_right hstep nofun).2
    exact h
  | signal p interrupting wakes =>
    obtain ⟨t, -, rfl⟩ := map_eq_some_iff.1 hstep
    exact h
  | stop p | cont p =>
    obtain ⟨t, -, rfl⟩ := map_eq_some_iff.1 hstep
    split <;> exact h
  | exit p clearTid =>
    obtain ⟨t, -, rfl⟩ := map_eq_some_iff.1 hstep
    cases clearTid <;> exact h
  | clone p =>
    obtain ⟨t, -, rfl⟩ := map_eq_some_iff.1 hstep
    exact h
  | tick | fork | remap space vpage page object | store word val =>
    cases hstep
    exact h

/-- **No wake is lost in a run whose steps are proper**, and a waiter that runs on returns what it
should exactly when its step is. -/
theorem run_wakes_kept (spaces : Pid → Nat) (es : List Event)
    (hes : Meets step Proper (St.boot spaces) es) (hrun : run step (St.boot spaces) es = some s) :
    Kept s ∧ ∀ p s', step s (.resume p) = some s' → (Kept s' ↔ Proper s (.resume p)) := by
  have hboot : Inv (St.boot spaces) ∧ Kept (St.boot spaces) :=
    ⟨⟨Nat.one_pos, nofun⟩, by simp [Kept, St.boot]⟩
  obtain ⟨hinv, hkept⟩ := run_inv (I := fun s ↦ Inv s ∧ Kept s)
    (fun _ _ _ hC hI hstep ↦ ⟨step_inv hC hI.1 hstep, step_kept hC hI.1 hI.2 hstep⟩) hboot hes hrun
  refine ⟨hkept, fun p s' hstep ↦ ⟨fun h ↦ ?_, fun hproper ↦ step_kept hproper hinv hkept hstep⟩⟩
  obtain ⟨t, ht, hstep⟩ := bind_eq_some_iff.1 hstep
  split at hstep
  · next hcall =>
    cases hstep
    intro t' ht'
    cases ht.symm.trans ht'
    exact ((resume_kept hcall).1 h).1
  · cases hstep

end

/-- Every process is in one address space. -/
def together : St := .boot fun _ ↦ 1

/-- Two threads of a process, and a page of theirs at 0x5000. -/
def twoThreads (page : Page) : List Event := [.fork, .clone 1, .remap 1 5 page 7]

/-- The first waits on a word of the page, which is filled then, and the second wakes it. -/
def handOver : List Event :=
  twoThreads .untouched ++ [.futexWait 1 0x5000 true 0 (.after 1 0), .tick, .remap 1 5 .own 7,
    .store (7, 0) 1, .futexWake 2 0x5000 false 1, .resume 1]

theorem run_wakes_kept_handOver : Meets step Proper together handOver ∧
    ∃ s, run step together handOver = some s ∧ .returned 1 true (.ok 0) ∈ s.log ∧ Kept s := by
  have hes : Meets step Proper together handOver := by decide +kernel
  exact ⟨hes, exists_run_and (by decide +kernel) fun _ hrun ↦ (run_wakes_kept _ handOver hes hrun).1⟩

/-- The waiter is counted and a signal comes before it runs. -/
def signalled : List Event :=
  twoThreads .own ++ [.futexWait 1 0x5000 true 0 .null, .futexWake 2 0x5000 true 1,
    .signal 1 true true, .resume 1]

/-- The page is a private read-only mapping of a file, which `mprotect` makes writable between the
wait and the wake. -/
def madeWritable : List Event :=
  twoThreads (.cached 9) ++ [.futexWait 1 0x5000 false 0 .null, .remap 1 5 .own 7,
    .store (7, 0) 1, .futexWake 2 0x5000 false 1]

/-- The second thread has a `vfork` child, which wakes the first. -/
def borrowed : List Event :=
  twoThreads .own ++ [.futexWait 1 0x5000 false 0 .null, .fork, .futexWake 3 0x5000 false 1]

/-- A waiter that was counted returns `EINTR`; and a wake does not find the waiter on its word. -/
theorem wakes_lost :
    (∃ s, run step together signalled = some s ∧ .returned 1 true (.err .eintr) ∈ s.log ∧ ¬ Kept s) ∧
    (∃ s, run step together madeWritable = some s ∧ .woke (7, 0) 1 [] [1] ∈ s.log ∧ ¬ Kept s) ∧
    ∃ s, run step together borrowed = some s ∧ .woke (7, 0) 1 [] [1] ∈ s.log ∧ ¬ Kept s := by
  have hlost : ∀ {s : St}, .woke (7, 0) 1 [] [1] ∈ s.log → ¬ Kept s := by
    intro s hlog h
    obtain hnil | ⟨hlen, -⟩ := h _ hlog
    · cases hnil
    · cases hlen
  refine ⟨?_, ?_, ?_⟩
  · exact exists_run_of (fun s ↦ .returned 1 true (.err .eintr) ∈ s.log) (by decide +kernel)
      fun _ _ hlog ↦ ⟨hlog, fun h ↦ nomatch h _ hlog rfl⟩
  · exact exists_run_of (fun s ↦ .woke (7, 0) 1 [] [1] ∈ s.log) (by decide +kernel)
      fun s _ hlog ↦ ⟨hlog, hlost hlog⟩
  · exact exists_run_of (fun s ↦ .woke (7, 0) 1 [] [1] ∈ s.log) (by decide +kernel)
      fun s _ hlog ↦ ⟨hlog, hlost hlog⟩

end OxideBSD.Futex
