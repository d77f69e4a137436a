import OxideBSD.Fs.SysvIpc
import OxideBSD.Lib.Machine
import OxideBSD.Lib.Waiters

/-!
# POSIX message queues

`sys/fs/mqueue.rs`: `mq_open`, `mq_close`, `mq_unlink`, `mq_timedsend`, `mq_timedreceive`,
`mq_notify`.  The code of one process from one `schedule()` to the next is one event of the machine
below; a signal or an expired timeout that gets a process out of its sleep is the event `rouse`, and
what the process finds when it runs again (the time, a signal, whether user memory can be written) is
an argument of its next turn.

* `insertByPriority`: a queue is kept in the order in which it is received.
* `St.sendTurn`, `St.recvTurn`: one turn of the loops of `do_mq_timedsend` and `do_mq_timedreceive`.
* `St.mqOpen`, `St.mqClose`, `St.mqUnlink`, `St.mqNotify`: the other calls; `St.step`: the machine.

A descriptor is its `real_fd`: the number in the file table and who has it is not modelled, so any
open one can be closed at any time, also while somebody sleeps in a call made through it.  Messages
carry a number that the source does not have: how many were put into their queue before.
-/

set_option autoImplicit false

namespace OxideBSD.Mq

open Function Ipc

abbrev Pid := Nat

def oAccmode : Nat := 3
def oCreat : Nat := 0o100
def oExcl : Nat := 0o200
def mqDefaultMaxmsg : Int := 10
def mqDefaultMsgsize : Int := 8192
def mqMaxMaxmsg : Int := 256
def mqMaxMsgsize : Int := 65536
def mqPrioMax : Nat := 32768

structure Message where
  priority : Nat
  data : List UInt8
  no : Nat
  deriving DecidableEq, Repr

/-- A registration by `mq_notify`. -/
inductive Notify
  | signal (pid : Pid) (signo : Nat)
  | none
  deriving DecidableEq, Repr

structure MessageQueue where
  maxMsg : Int
  msgSize : Int
  messages : List Message
  openCount : Nat
  unlinked : Bool
  notify : Option Notify
  notifyOwnerFd : Option Nat
  deriving DecidableEq, Repr

structure MqEnd where
  mqId : Nat
  access : Nat
  deriving DecidableEq, Repr

def insertByPriority (messages : List Message) (m : Message) : List Message :=
  let pos := (messages.findIdx? fun m' ↦ decide (m'.priority < m.priority)).getD messages.length
  messages.insertIdx pos m

/-! ## The calls -/

/-- An `mq_timedsend`, its arguments read. -/
structure SendCall where
  mqId : Nat
  prio : Nat
  data : List UInt8
  deadline : Nat
  deriving DecidableEq, Repr

/-- An `mq_timedreceive`. -/
structure RecvCall where
  mqId : Nat
  len : Nat
  deriving DecidableEq, Repr

inductive Call
  | send (c : SendCall)
  | recv (c : RecvCall)
  deriving DecidableEq, Repr

/-- What a process asleep in a call waits for: `WaitingForMqSpace` or `WaitingForMqData`, the queue
and the deadline. -/
inductive Key
  | space (mqId deadline : Nat)
  | data (mqId deadline : Nat)
  deriving DecidableEq, Repr

/-- What becomes of the copies out to user memory. -/
inductive Copy
  | done
  | dataFault
  | prioFault
  deriving DecidableEq, Repr

/-- What a turn finds: whether the descriptor is non-blocking, whether a signal interrupts, the time,
the deadline of a receive (its conversion can fail) and what becomes of its copies. -/
structure Env where
  nonblocking : Bool
  interrupted : Bool
  ticks : Nat
  deadline : Except Errno Nat
  copy : Copy

/-- The queues, their names and descriptors, the processes, who sleeps, who is in a call, how many
messages were put into each queue, and the signals that notifications sent. -/
structure St where
  next : Nat
  queues : Nat → Option MessageQueue
  names : List UInt8 → Option Nat
  ends : Nat → Option MqEnd
  table : List Pid
  asleep : Pid → Option Key
  calls : Pid → Option Call
  count : Nat → Nat
  fired : List (Pid × Nat)

def St.init : St where
  next := 1
  queues _ := none
  names _ := none
  ends _ := none
  table := []
  asleep _ := none
  calls _ := none
  count _ := 0
  fired := []

def Key.isData (mqId : Nat) : Key → Bool
  | .data id _ => id == mqId
  | .space .. => false

def Key.isSpace (mqId : Nat) : Key → Bool
  | .space id _ => id == mqId
  | .data .. => false

def wakeBlockedReceivers (mqId : Nat) : (Pid → Option Key) → Pid → Option Key :=
  Waiters.wake (Key.isData mqId)

/-- Whether `wake_blocked_receivers` wakes anybody. -/
def St.hasWaitingReceiver (s : St) (mqId : Nat) : Bool :=
  s.table.any fun pid ↦ (s.asleep pid).any (Key.isData mqId)

def wakeBlockedSenders (mqId : Nat) : (Pid → Option Key) → Pid → Option Key :=
  Waiters.wake (Key.isSpace mqId)

def St.put (s : St) (mqId : Nat) (q : MessageQueue) : St :=
  { s with queues := update s.queues mqId (some q) }

def St.remove (s : St) (mqId : Nat) : St :=
  { s with queues := update s.queues mqId none }

@[simp] theorem put_queues (s : St) (mqId : Nat) (q : MessageQueue) :
    (s.put mqId q).queues = update s.queues mqId (some q) := rfl

@[simp] theorem remove_queues (s : St) (mqId : Nat) :
    (s.remove mqId).queues = update s.queues mqId none := rfl

/-- `do_mq_timedsend` up to the loop. -/
def St.sendCall (s : St) (realFd : Option Nat) (len prio : Nat) (deadline : Except Errno Nat)
    (text : Option (Nat → UInt8)) : Except Errno SendCall :=
  if mqPrioMax ≤ prio then .error .EINVAL
  else match realFd.bind s.ends with
    | none => .error .EBADF
    | some mqEnd =>
      if mqEnd.access = 0 then .error .EBADF
      else match deadline, s.queues mqEnd.mqId with
        | .error e, _ => .error e
        | .ok _, none => .error .EBADF
        | .ok deadline, some q =>
          if q.msgSize < len then .error .EMSGSIZE
          else match text with
            | none => .error .EFAULT
            | some text => .ok ⟨mqEnd.mqId, prio, (List.range len).map text, deadline⟩

/-- `do_mq_timedreceive` up to the loop. -/
def St.recvCall (s : St) (realFd : Option Nat) (len : Nat) : Except Errno RecvCall :=
  match realFd.bind s.ends with
  | none => .error .EBADF
  | some mqEnd => if mqEnd.access = 1 then .error .EBADF else .ok ⟨mqEnd.mqId, len⟩

/-- The registration a message put into the queue fires: one for a signal, if the queue was empty and
nobody waited to receive. -/
def St.fires (s : St) (mqId : Nat) (q : MessageQueue) : Option (Pid × Nat) :=
  match q.notify with
  | some (.signal pid signo) =>
    if q.messages.isEmpty && !s.hasWaitingReceiver mqId then some (pid, signo) else none
  | _ => none

/-- The queue with one more message, its registration used up if it fires. -/
def MessageQueue.push (q : MessageQueue) (m : Message) (fires : Bool) : MessageQueue :=
  { q with
    messages := insertByPriority q.messages m
    notify := if fires then none else q.notify
    notifyOwnerFd := if fires then none else q.notifyOwnerFd }

/-- One turn of the loop of `do_mq_timedsend`: what the call returns, `none` if it goes to sleep. -/
def St.sendTurn (s : St) (caller : Pid) (c : SendCall) (env : Env) : Option (Except Errno Nat) × St :=
  match s.queues c.mqId with
  | none => (some (.error .EBADF), s)
  | some q =>
    if q.msgSize < c.data.length then (some (.error .EMSGSIZE), s)
    else if q.messages.length < q.maxMsg then
      let fires := s.fires c.mqId q
      let m : Message := ⟨c.prio, c.data, s.count c.mqId⟩
      (some (.ok 0),
        { s.put c.mqId (q.push m fires.isSome) with
          asleep := wakeBlockedReceivers c.mqId s.asleep
          count := update s.count c.mqId (s.count c.mqId + 1)
          fired := s.fired ++ fires.toList })
    else if env.nonblocking then (some (.error .EAGAIN), s)
    else if c.deadline ≤ env.ticks then (some (.error .ETIMEDOUT), s)
    else if env.interrupted then (some (.error .EINTR), s)
    else
      let key := Key.space c.mqId c.deadline
      (none, { s with asleep := update s.asleep caller (some key) })

/-- One turn of the loop of `do_mq_timedreceive`.  The message is off the queue when it is copied out,
and the senders are woken after that. -/
def St.recvTurn (s : St) (caller : Pid) (c : RecvCall) (env : Env) : Option (Except Errno Nat) × St :=
  match s.queues c.mqId with
  | none => (some (.error .EBADF), s)
  | some q =>
    if (c.len : Int) < q.msgSize then (some (.error .EMSGSIZE), s)
    else match q.messages with
      | m :: rest =>
        let s := s.put c.mqId { q with messages := rest }
        match env.copy with
        | .done =>
          (some (.ok m.data.length), { s with asleep := wakeBlockedSenders c.mqId s.asleep })
        | .dataFault | .prioFault => (some (.error .EFAULT), s)
      | [] =>
        if env.nonblocking then (some (.error .EAGAIN), s)
        else match env.deadline with
          | .error e => (some (.error e), s)
          | .ok deadline =>
            if deadline ≤ env.ticks then (some (.error .ETIMEDOUT), s)
            else if env.interrupted then (some (.error .EINTR), s)
            else
              let key := Key.data c.mqId deadline
              (none, { s with asleep := update s.asleep caller (some key) })

/-- A turn of a call, and whether the caller is still in it after that. -/
def St.enter (s : St) (caller : Pid) (c : Call) (env : Env) : St :=
  let rs := match c with
    | .send c => s.sendTurn caller c env
    | .recv c => s.recvTurn caller c env
  { rs.2 with calls := update rs.2.calls caller (if rs.1.isNone then some c else none) }

/-! ## Names and descriptors -/

/-- The queue of a name in `mq_open`, made if it is not there.  `attr` is what the pointer gives: no
attributes, some that cannot be read, or `mq_maxmsg` and `mq_msgsize`. -/
def St.lookup (s : St) (name : List UInt8) (flags : Nat) (attr : Option (Option (Int × Int))) :
    Except Errno (Nat × St) :=
  match s.names name with
  | some id => if flags &&& oCreat ≠ 0 ∧ flags &&& oExcl ≠ 0 then .error .EEXIST else .ok (id, s)
  | none =>
    if flags &&& oCreat = 0 then .error .ENOENT
    else match attr.getD (some (mqDefaultMaxmsg, mqDefaultMsgsize)) with
      | none => .error .EFAULT
      | some (maxMsg, msgSize) =>
        if maxMsg ≤ 0 ∨ msgSize ≤ 0 ∨ mqMaxMaxmsg < maxMsg ∨ mqMaxMsgsize < msgSize then .error .EINVAL
        else .ok (s.next,
          { s.put s.next ⟨maxMsg, msgSize, [], 0, false, none, none⟩ with
            next := s.next + 1
            names := update s.names name (some s.next) })

/-- `do_mq_open`: `name` and `room` are the results of `read_cstr` and `check_room`, `fd` the new
`real_fd`. -/
def St.mqOpen (s : St) (name : Except Errno (List UInt8)) (flags : Nat)
    (attr : Option (Option (Int × Int))) (room : Except Errno Unit) (fd : Nat) : St :=
  match name, room with
  | .ok name, .ok () =>
    if name.isEmpty then s
    else match s.lookup name flags attr with
      | .error _ => s
      | .ok (id, s') =>
        let s' := match s'.queues id with
          | some q => s'.put id { q with openCount := q.openCount + 1 }
          | none => s'
        { s' with ends := update s'.ends fd (some ⟨id, flags &&& oAccmode⟩) }
  | _, _ => s

/-- The queue without the registration made through the descriptor. -/
def MessageQueue.forget (q : MessageQueue) (realFd : Nat) : MessageQueue :=
  if q.notifyOwnerFd = some realFd then { q with notify := none, notifyOwnerFd := none } else q

def St.mqClose (s : St) (realFd : Nat) : St :=
  match s.ends realFd with
  | none => s
  | some mqEnd =>
    let s := { s with ends := update s.ends realFd none }
    match s.queues mqEnd.mqId with
    | none => s
    | some q =>
      let q := { q.forget realFd with openCount := q.openCount - 1 }
      if q.openCount = 0 ∧ q.unlinked then s.remove mqEnd.mqId else s.put mqEnd.mqId q

def St.mqUnlink (s : St) (name : Except Errno (List UInt8)) : St :=
  match name with
  | .error _ => s
  | .ok name => match s.names name with
    | none => s
    | some id =>
      let s := { s with names := update s.names name none }
      match s.queues id with
      | none => s
      | some q => if q.openCount = 0 then s.remove id else s.put id { q with unlinked := true }

/-- The `sigevent` of an `mq_notify`: `sigev_notify` with `sigev_signo`, or one that cannot be read. -/
inductive Sigevent
  | fault
  | sigevNone
  | sigevSignal (signo : Int)
  | other
  deriving DecidableEq, Repr

/-- `do_mq_notify`: `sev` is `none` for a null pointer. -/
def St.mqNotify (s : St) (caller : Pid) (realFd : Option Nat) (sev : Option Sigevent) : St :=
  match realFd.bind fun fd ↦ (s.ends fd).bind fun mqEnd ↦
      (s.queues mqEnd.mqId).map fun q ↦ (fd, mqEnd.mqId, q) with
  | none => s
  | some (fd, id, q) => match sev with
    | none => s.put id (q.forget fd)
    | some sev =>
      if q.notify.isSome then s
      else match sev with
        | .fault | .other => s
        | .sigevNone => s.put id { q with notify := some .none, notifyOwnerFd := some fd }
        | .sigevSignal signo =>
          if signo < 0 ∨ 64 < signo then s
          else s.put id
            { q with notify := some (.signal caller signo.toNat), notifyOwnerFd := some fd }

/-! ## The machine -/

/-- What can happen.  `resume` is a caller that runs again, `leave` a process or thread that ends,
`rouse` whatever else takes a process out of its sleep. -/
inductive Event
  | spawn (pid : Pid)
  | mqOpen (name : Except Errno (List UInt8)) (flags : Nat) (attr : Option (Option (Int × Int)))
      (room : Except Errno Unit) (fd : Nat)
  | mqClose (fd : Nat)
  | mqUnlink (name : Except Errno (List UInt8))
  | mqTimedsend (pid : Pid) (realFd : Option Nat) (len prio : Nat) (deadline : Except Errno Nat)
      (text : Option (Nat → UInt8)) (env : Env)
  | mqTimedreceive (pid : Pid) (realFd : Option Nat) (len : Nat) (env : Env)
  | mqNotify (pid : Pid) (realFd : Option Nat) (sev : Option Sigevent)
  | resume (pid : Pid) (env : Env)
  | leave (pid : Pid)
  | rouse (pid : Pid)

/-- The call whose loop an event runs a turn of, and what the turn finds. -/
def turnOf (s : St) : Event → Option (Pid × Call × Env)
  | .mqTimedsend pid realFd len prio deadline text env =>
    match s.sendCall realFd len prio deadline text with
    | .ok c => some (pid, .send c, env)
    | .error _ => none
  | .mqTimedreceive pid realFd len env => match s.recvCall realFd len with
    | .ok c => some (pid, .recv c, env)
    | .error _ => none
  | .resume pid env => (s.calls pid).map fun c ↦ (pid, c, env)
  | _ => none

/-- A process in the table that is in no call and so can make one. -/
def St.Free (s : St) (pid : Pid) : Prop :=
  pid ∈ s.table ∧ s.asleep pid = none ∧ s.calls pid = none

instance (s : St) (pid : Pid) : Decidable (s.Free pid) := inferInstanceAs (Decidable (_ ∧ _ ∧ _))

def St.step (s : St) : Event → Option St
  | .spawn pid => some { s with table := pid :: s.table }
  | .mqOpen name flags attr room fd =>
    if s.ends fd = none then some (s.mqOpen name flags attr room fd) else none
  | .mqClose fd => some (s.mqClose fd)
  | .mqUnlink name => some (s.mqUnlink name)
  | .mqTimedsend pid realFd len prio deadline text env =>
    if s.Free pid then
      match s.sendCall realFd len prio deadline text with
      | .error _ => some s
      | .ok c => some (s.enter pid (.send c) env)
    else none
  | .mqTimedreceive pid realFd len env =>
    if s.Free pid then
      match s.recvCall realFd len with
      | .error _ => some s
      | .ok c => some (s.enter pid (.recv c) env)
    else none
  | .mqNotify pid realFd sev => if s.Free pid then some (s.mqNotify pid realFd sev) else none
  | .resume pid env =>
    if s.asleep pid = none then (s.calls pid).map fun c ↦ s.enter pid c env else none
  | .leave pid =>
    some { s with
      table := s.table.erase pid
      asleep := update s.asleep pid none
      calls := update s.calls pid none }
  | .rouse pid => some { s with asleep := update s.asleep pid none }

end OxideBSD.Mq
