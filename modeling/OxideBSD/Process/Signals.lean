import OxideBSD.Lib.Machine

/-!
# Signals pending on a thread, and how they are taken

The part of `sys/process/signals.rs` that decides which signal a thread takes, when and under which
mask: `record_pending`, `take_deliverable_signal` with its cascade budget, `do_sigtimedwait`, the
calls that set the mask, and `deliver_pending_signal` and `do_sigreturn` of `sys/syscall/mod.rs`.

* `Thread` holds what is pending, the queues of the real-time signals, the mask and the frames of the
  handlers being run.  A queued instance is a number, given out by `St.clock`.
* `Thread.recordPending` and `Thread.take` add an instance and remove one; `Thread.takeLoop` is the
  loop of `take_deliverable_signal`, `Thread.sigtimedwait` the other way to take one.
* `St` is the system of all threads, with the actions that the threads of a group share, and `step`
  one event of it.

The fields `accepted`, `taken` and `owed` of a thread and the `log` of the system record what has
happened; no function of the source reads them.  A system call and the return to user mode after it
are separate events, and so is a return that takes no signal (`Act.resume`), which a thread in user
mode may make at any time.  A step is `none` where the thread cannot take it or the kernel would
panic.
-/

set_option autoImplicit false

namespace OxideBSD
namespace Proc

abbrev Pid := Nat

abbrev Sig := Nat

abbrev Sigset := Finset Nat

/-! ## Signals -/

def sigKill : Sig := 9
def sigSegv : Sig := 11
def sigChld : Sig := 17
def sigCont : Sig := 18
def sigStop : Sig := 19
def sigTstp : Sig := 20
def sigTtin : Sig := 21
def sigTtou : Sig := 22
def sigRtMin : Sig := 35
def sigRtMax : Sig := 64

inductive DefaultDisposition
  | terminate
  | core
  | ignore
  | stop
  deriving DecidableEq, Repr

/-- `default_disposition`; the numbers are those of `sys/process/mod.rs`. -/
def defaultDisposition (sig : Sig) : DefaultDisposition :=
  if sig ∈ [sigStop, sigTstp, sigTtin, sigTtou] then .stop
  -- SIGCHLD, SIGCONT, SIGURG, SIGWINCH, SIGIO
  else if sig ∈ [sigChld, sigCont, 23, 28, 29] then .ignore
  -- SIGQUIT, SIGILL, SIGTRAP, SIGABRT, SIGBUS, SIGFPE, SIGSEGV, SIGSYS, SIGXCPU, SIGXFSZ
  else if sig ∈ [3, 4, 5, 6, 7, 8, sigSegv, 31, 24, 25] then .core
  else .terminate

/-- `sa_handler`: 0, 1 or an address. -/
inductive Handler
  | dfl
  | ign
  | caught
  deriving DecidableEq, Repr

/-- `struct SigAction`, with the flags the modelled functions read. -/
structure SigAction where
  handler : Handler
  mask : Sigset
  noDefer : Bool
  noCldWait : Bool
  noCldStop : Bool
  deriving DecidableEq

def SigAction.default : SigAction where
  handler := .dfl
  mask := ∅
  noDefer := false
  noCldWait := false
  noCldStop := false

end Proc

namespace Signals

open Function Machine Proc

/-! ## Threads -/

/-- `struct CascadeBudget`; `began` is when the snapshot was taken. -/
structure Budget where
  standard : Sigset
  rt : Sig → Nat
  began : Nat

/-- A signal that was taken: the instance, the signals it was chosen among, and for a chained
delivery when its cascade began. -/
structure Taken where
  sig : Sig
  id : Nat
  among : Sigset
  chained : Option Nat
  deriving DecidableEq

/-- `stack` holds the masks that `sigreturn` restores, the last handler's first; `restore` is
`sigsuspend_restore_mask`, `temporary` the mask that a `sigsuspend` or `ppoll` under way has replaced,
`waiting` the set of a `sigtimedwait` that is blocked. -/
structure Thread where
  tgid : Pid
  shared : Nat
  live : Bool
  asleep : Bool
  stopped : Bool
  pending : Sigset
  blocked : Sigset
  rtQueue : Sig → List Nat
  stack : List Sigset
  budget : Option Budget
  restore : Option Sigset
  temporary : Option Sigset
  waiting : Option Sigset
  accepted : List (Sig × Nat)
  taken : List Taken
  owed : Sigset

def isRt (sig : Sig) : Bool := sigRtMin ≤ sig

def rtQueueCap : Nat := 16

/-- The signals nothing blocks. -/
def unblockable : Sigset := {sigKill, sigStop}

/-- `trailing_zeros() + 1` of a mask that is not 0 -/
def lowest (set : Sigset) : Option Sig := (List.range (sigRtMax + 1)).find? (· ∈ set)

namespace Thread

variable (t : Thread)

def deliverable : Sigset := t.pending \ t.blocked

/-- `record_pending`: the bit is set whether or not the queue has room. -/
def recordPending (sig : Sig) (id : Nat) : Thread :=
  let t := { t with pending := insert sig t.pending }
  if isRt sig then
    if rtQueueCap ≤ (t.rtQueue sig).length then t
    else { t with
      rtQueue := update t.rtQueue sig (t.rtQueue sig ++ [id])
      accepted := t.accepted ++ [(sig, id)] }
  else t

/-- A signal recorded; it is `owed` if it was sent to the process and is not ignored. -/
def recorded (sig : Sig) (id : Nat) (owed : Bool) : Thread :=
  let t := t.recordPending sig id
  { t with owed := if owed then insert sig t.owed else t.owed }

/-- A POSIX timer's expiry, of one that signals. -/
def timerExpires (sig : Sig) (id : Nat) : Thread :=
  if isRt sig then
    if t.rtQueue sig ≠ [] then t
    else { t with
      rtQueue := update t.rtQueue sig (t.rtQueue sig ++ [id])
      accepted := t.accepted ++ [(sig, id)]
      pending := insert sig t.pending }
  else { t with pending := insert sig t.pending }

/-- The first instance of a signal goes, and the bit with the last. -/
def consume (sig : Sig) : Option (Nat × Thread) :=
  if isRt sig then
    match t.rtQueue sig with
    | [] => none
    | id :: rest => some (id, { t with
        rtQueue := update t.rtQueue sig rest
        pending := if rest = [] then t.pending.erase sig else t.pending
        owed := if rest = [] then t.owed.erase sig else t.owed })
  else some (0, { t with pending := t.pending.erase sig, owed := t.owed.erase sig })

end Thread

/-- The budget after a delivery; `none` where the count would underflow. -/
def Budget.spend (b : Budget) (sig : Sig) : Option Budget :=
  if isRt sig then
    if b.rt sig = 0 then none else some { b with rt := update b.rt sig (b.rt sig - 1) }
  else some { b with standard := b.standard.erase sig }

def Budget.covers (b : Budget) (sig : Sig) : Bool :=
  if isRt sig then 0 < b.rt sig else sig ∈ b.standard

/-- What the action of a signal comes to. -/
inductive Verdict
  | ignore
  | terminate
  | core
  | stop
  | handler (mask : Sigset)
  deriving DecidableEq

def verdict (a : SigAction) (sig : Sig) : Verdict :=
  match a.handler with
  | .ign => .ignore
  | .dfl => match defaultDisposition sig with
    | .ignore => .ignore
    | .terminate => .terminate
    | .core => .core
    | .stop => .stop
  | .caught => .handler (if a.noDefer then a.mask.erase sig else insert sig a.mask)

namespace Thread

variable (t : Thread)

/-- The budget of a cascade that begins now. -/
def snapshot (clock : Nat) : Budget where
  standard := t.deliverable
  rt := fun sig ↦ if sig ∈ t.deliverable then (t.rtQueue sig).length else 0
  began := clock

/-- One turn of `take_deliverable_signal`'s loop takes a signal. -/
def take (chained : Bool) (sig : Sig) : Option Thread :=
  (t.consume sig).bind fun (id, t') ↦
    match t.budget with
    | none => some { t' with taken := t.taken ++ [⟨sig, id, t.deliverable, none⟩] }
    | some b => (b.spend sig).map fun b' ↦
      { t' with
        budget := some b'
        taken := t.taken ++ [⟨sig, id, t.deliverable, if chained then some b.began else none⟩] }

/-- `take_deliverable_signal`'s loop, with fuel for its turns. -/
def takeLoop (actions : Sig → SigAction) (chained : Bool) :
    Nat → Thread → Option (Thread × Option (Sig × Verdict))
  | 0, t => some (t, none)
  | fuel + 1, t =>
    match lowest t.deliverable with
    | none => some (if chained then { t with budget := none } else t, none)
    | some sig =>
      if chained && !t.budget.any (·.covers sig) then some ({ t with budget := none }, none)
      else (t.take chained sig).bind fun t' ↦
        match verdict (actions sig) sig with
        | .ignore => takeLoop actions chained fuel t'
        | v => some (t', some (sig, v))

/-- How many instances are pending: the turns the loop can make. -/
def load : Nat :=
  ∑ sig ∈ Finset.range (sigRtMax + 1),
    if isRt sig then (t.rtQueue sig).length else if sig ∈ t.pending then 1 else 0

/-- A new cascade begins at a return to user mode outside every handler. -/
def begin (clock : Nat) (chained : Bool) : Thread :=
  if !chained && t.stack = [] then { t with budget := some (t.snapshot clock) } else t

/-- `take_deliverable_signal` -/
def takeDeliverable (actions : Sig → SigAction) (clock : Nat) (chained : Bool) :
    Option (Thread × Option (Sig × Verdict)) :=
  takeLoop actions chained (t.load + 1) (t.begin clock chained)

/-- `do_sigtimedwait`'s loop, one turn: the signal consumed, if one of the set is pending; otherwise
the call ends if it is `late`, and the thread sleeps if not. -/
def sigtimedwait (set : Sigset) (late : Bool) : Option (Thread × Option Sig) :=
  match lowest (t.pending ∩ set) with
  | none =>
    some (if late then { t with waiting := none }
      else { t with waiting := some set, asleep := true }, none)
  | some sig => (t.consume sig).map fun (id, t') ↦
      ({ t' with
        taken := t.taken ++ [⟨sig, id, t.pending ∩ set, none⟩]
        waiting := none }, some sig)

/-- `has_interrupting_signal` -/
def interrupting (actions : Sig → SigAction) : Bool :=
  (List.range (sigRtMax + 1)).any fun sig ↦
    sig ∈ t.deliverable && verdict (actions sig) sig ≠ .ignore

/-- `do_sigprocmask` -/
def sigprocmask (how : Nat) (set : Sigset) : Thread :=
  match how with
  | 0 => { t with blocked := t.blocked ∪ (set \ unblockable) }
  | 1 => { t with blocked := t.blocked \ set }
  | 2 => { t with blocked := set \ unblockable }
  | _ => t

/-- `do_sigsuspend` and `begin_temporary_sigmask`, where they set the mask -/
def beginTemporary (set : Sigset) : Thread :=
  { t with temporary := some t.blocked, blocked := set \ unblockable }

/-- `end_temporary_sigmask`; `do_sigsuspend` returns only when a signal interrupts it. -/
def endTemporary (actions : Sig → SigAction) : Thread :=
  match t.temporary with
  | none => t
  | some original =>
    if t.interrupting actions then { t with temporary := none, restore := some original }
    else { t with temporary := none, blocked := original }

/-- `restore_blocked_signals` -/
def restoreMask (restore : Option Sigset) : Thread :=
  match restore with
  | none => t
  | some mask => { t with blocked := mask }

/-- `stash_signal_context` and `set_signal_saved_blocked_override` -/
def enterHandler (mask : Sigset) (restore : Option Sigset) : Thread :=
  { t with stack := restore.getD t.blocked :: t.stack, blocked := t.blocked ∪ mask }

/-- What `deliver_pending_signal` makes of the signal taken: the thread, and whether its group dies.
`faults` says that the handler's frame cannot be written. -/
def settle (restore : Option Sigset) (faults : Bool) (taken : Option (Sig × Verdict)) :
    Thread × Bool :=
  match taken with
  | none | some (_, .ignore) => (t.restoreMask restore, false)
  | some (_, .terminate) | some (_, .core) => (t, true)
  | some (_, .stop) => ({ t with stopped := true }.restoreMask restore, false)
  | some (_, .handler mask) => if faults then (t, true) else (t.enterHandler mask restore, false)

/-- `deliver_pending_signal` -/
def deliver (actions : Sig → SigAction) (clock : Nat) (chained faults : Bool) :
    Option (Thread × Bool) :=
  let t₀ : Thread := { t with restore := none }
  (t₀.takeDeliverable actions clock chained).map fun r ↦ r.1.settle t.restore faults r.2

/-- `do_sigreturn`, with a frame to return to. -/
def sigreturn (actions : Sig → SigAction) (clock : Nat) (faults : Bool) : Option (Thread × Bool) :=
  match t.stack with
  | [] => none
  | mask :: rest => { t with stack := rest, blocked := mask }.deliver actions clock true faults

/-- The thread is not inside `sigtimedwait`, `sigsuspend` or `ppoll`. -/
def idle : Bool := t.temporary = none && t.waiting = none

end Thread

/-! ## The system -/

/-- What has happened: `sigtimedwait` has returned a signal; a thread has gone back to user mode or
died on the way, with `SIGKILL` pending or not; a thread has exited and left signals of its process
behind. -/
inductive Note
  | waited (pid : Pid) (sig : Sig)
  | returned (pid : Pid) (killed died : Bool)
  | exited (pid : Pid) (lost : Sigset)
  deriving DecidableEq

structure St where
  threads : Pid → Option Thread
  next : Pid
  actions : Nat → Sig → SigAction
  nextShared : Nat
  clock : Nat
  log : List Note

def initPid : Pid := 1

/-- A process's first thread. -/
def Thread.fresh (tgid : Pid) (shared : Nat) : Thread where
  tgid := tgid
  shared := shared
  live := true
  asleep := false
  stopped := false
  pending := ∅
  blocked := ∅
  rtQueue := fun _ ↦ []
  stack := []
  budget := none
  restore := none
  temporary := none
  waiting := none
  accepted := []
  taken := []
  owed := ∅

/-- Init, and nothing pending. -/
def St.boot : St where
  threads := update (fun _ ↦ none) initPid (some (.fresh initPid 0))
  next := 2
  actions := fun _ _ ↦ .default
  nextShared := 1
  clock := 0
  log := []

namespace St

variable (s : St) (p : Pid) (t : Thread)

def put : St := { s with threads := update s.threads p (some t) }

def note (n : Note) : St := { s with log := n :: s.log }

/-- `terminate_thread_group` -/
def killGroup (tgid : Pid) : St :=
  { s with threads := fun q ↦ (s.threads q).map fun u ↦
      if u.tgid = tgid then { u with live := false } else u }

/-- Whether another live thread shares the group of the thread `p`. -/
def othersLive : Bool :=
  (List.range s.next).any fun q ↦ q ≠ p && (s.threads q).any fun u ↦ u.live && u.tgid = t.tgid

/-- The thread `p` is on its way to user mode and has become `r.1`. -/
def goBack (r : Thread × Bool) : St :=
  let s' := s.put p r.1
  (if r.2 then s'.killGroup t.tgid else s').note
    (.returned p (sigKill ∈ t.pending && t.tgid ≠ initPid) r.2)

/-! ### Sending -/

/-- The live threads of a group, in the order of the table. -/
def threadsOf (tgid : Pid) : List Pid :=
  (List.range s.next).filter fun q ↦ (s.threads q).any fun u ↦ u.live && u.tgid = tgid

/-- `resolve_signal_recipient` for the leader of a group, and `route_signal_target` -/
def recipient (target : Pid) (sig : Sig) : Pid :=
  let threads := s.threadsOf target
  let waiting := threads.find? fun q ↦ (s.threads q).any fun u ↦
    u.asleep && u.waiting.any (sig ∈ ·)
  let unblocked := threads.find? fun q ↦ (s.threads q).any fun u ↦ sig ∉ u.blocked
  let other := threads.find? (· ≠ target)
  if (s.threads target).any (·.tgid = target) then
    (waiting <|> unblocked <|> other <|> threads.head?).getD target
  else target

/-- The signal becomes pending on the thread `q`. -/
def record (q : Pid) (sig : Sig) (owed : Bool) : St :=
  match s.threads q with
  | none => s
  | some u => { s.put q (u.recorded sig s.clock owed) with clock := s.clock + 1 }

/-- `SIGCONT` for a stopped thread -/
def continued (u : Thread) : Thread :=
  { u with
    stopped := false
    asleep := false
    pending := u.pending \ {sigStop, sigTstp}
    owed := u.owed \ {sigStop, sigTstp} }

/-- `do_kill` of a process or thread, and (`queued`) `do_sigqueue`, with permission to. -/
def send (caller target : Pid) (sig : Sig) (queued : Bool) : St :=
  let q := s.recipient target sig
  match s.threads q with
  | none => s
  | some u =>
    let a := s.actions u.shared sig
    let owed := u.tgid = target && verdict a sig ≠ .ignore
    if u.tgid = initPid && a.handler ≠ .caught then s
    else if q = caller || (!queued && (s.threads caller).any (·.tgid = u.tgid)) then
      s.record q sig owed
    else if !u.live then s
    else
      let u := if sig = sigCont && u.stopped then continued u else u
      let s := s.put q u
      match a.handler with
      | .ign => s
      | .caught => s.record q sig owed
      | .dfl =>
        if sig ∈ u.blocked then s.record q sig owed
        else match defaultDisposition sig with
          | .ignore => s
          | .core =>
            if u.asleep || u.stopped then s.killGroup u.tgid else s.record q sig owed
          | .terminate => s.killGroup u.tgid
          | .stop => s.put q { u with
              stopped := true
              asleep := false
              pending := u.pending.erase sigCont
              owed := u.owed.erase sigCont }

/-! ### New threads, new images -/

/-- A thread made by `clone` or `fork`: the mask and the frames are the caller's. -/
def child (tgid : Pid) (shared : Nat) : Thread :=
  { Thread.fresh tgid shared with blocked := t.blocked, stack := t.stack }

def clone : St :=
  { s.put s.next (child t t.tgid t.shared) with next := s.next + 1 }

def fork : St :=
  { s.put s.next (child t s.next s.nextShared) with
    next := s.next + 1
    actions := update s.actions s.nextShared (s.actions t.shared)
    nextShared := s.nextShared + 1 }

/-- `execve`: handlers are reset. -/
def exec : St :=
  { s with actions := update s.actions t.shared fun sig ↦
      if (s.actions t.shared sig).handler = .caught then .default else s.actions t.shared sig }

/-- `sigaction`: not for `SIGKILL` and `SIGSTOP`. -/
def sigaction (sig : Sig) (a : SigAction) : St :=
  if sig = sigKill ∨ sig = sigStop ∨ ¬ (1 ≤ sig ∧ sig ≤ sigRtMax) then s
  else { s with actions := update s.actions t.shared (update (s.actions t.shared) sig a) }

end St

/-! ## Events -/

/-- What a running thread does. -/
inductive Act
  | sigaction (sig : Sig) (a : SigAction)
  | sigprocmask (how : Nat) (set : Sigset)
  | beginTemporary (set : Sigset)
  | endTemporary
  | sigtimedwait (set : Sigset) (late : Bool)
  /-- a return to user mode through `deliver_pending_signal` -/
  | returnToUser (faults : Bool)
  | sigreturn (faults : Bool)
  /-- one that takes no signal: from a page fault, from a timer interrupt inside a handler
  (`timer_interrupt_handler`), or when a stop that a delivery made is over -/
  | resume
  | send (target : Pid) (sig : Sig) (queued : Bool)
  | clone
  | fork
  | exec
  | exit
  | exitGroup
  deriving DecidableEq

inductive Event
  | act (pid : Pid) (a : Act)
  /-- the kernel posts a signal to a thread -/
  | post (pid : Pid) (sig : Sig)
  | timer (pid : Pid) (sig : Sig)
  | sleep (pid : Pid)
  | wake (pid : Pid)
  deriving DecidableEq

/-- A signal's number. -/
def isSig (sig : Sig) : Bool := 1 ≤ sig && sig ≤ sigRtMax

/-- An act of the running thread `p`; inside a call it only goes on with the call. -/
def perform (s : St) (p : Pid) (t : Thread) : Act → Option St
  | .sigtimedwait set late =>
    if t.temporary = none ∧ t.waiting.all (· = set) then
      (t.sigtimedwait set late).map fun r ↦
        let s' := s.put p r.1
        r.2.elim s' fun sig ↦ s'.note (.waited p sig)
    else none
  | .endTemporary =>
    if t.waiting = none then some (s.put p (t.endTemporary (s.actions t.shared))) else none
  | a => if t.idle then idly a else none
where
  idly : Act → Option St
    | .sigtimedwait .. | .endTemporary => none
    | .sigaction sig a => some (s.sigaction t sig a)
    | .sigprocmask how set => some (s.put p (t.sigprocmask how set))
    | .beginTemporary set => some (s.put p (t.beginTemporary set))
    | .returnToUser faults =>
      (t.deliver (s.actions t.shared) s.clock false faults).map (s.goBack p t)
    | .sigreturn faults => (t.sigreturn (s.actions t.shared) s.clock faults).map (s.goBack p t)
    | .resume => some (s.goBack p t (t, false))
    | .send target sig queued => if isSig sig then some (s.send p target sig queued) else none
    | .clone => some (s.clone t)
    | .fork => some (s.fork t)
    | .exec => some (s.exec t)
    | .exit =>
      some ((s.put p { t with live := false }).note
        (.exited p (if s.othersLive p t then t.owed else ∅)))
    | .exitGroup => some (s.killGroup t.tgid)

/-- One event of the system. -/
def step (s : St) : Event → Option St
  | .act p a => (s.threads p).bind fun t ↦
    if t.live && !t.asleep && !t.stopped then perform s p t a else none
  | .post p sig => if isSig sig then some (s.record p sig false) else none
  | .timer p sig =>
    if isSig sig then
      (s.threads p).map fun t ↦ { s.put p (t.timerExpires sig s.clock) with clock := s.clock + 1 }
    else none
  | .sleep p => (s.threads p).bind fun t ↦
    if t.stopped then none else some (s.put p { t with asleep := true })
  | .wake p => (s.threads p).map fun t ↦ s.put p { t with asleep := false }

end Signals
end OxideBSD
