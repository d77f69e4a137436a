import OxideBSD.Kern.Local
import OxideBSD.Lib.Machine

/-!
# Local sockets at work

The functions of `OxideBSD.Kern.Local`, called by any number of threads.  A call takes the lock of
`STATE` once or more often, and between two of these others may run; what it still has to do is a
list of `Work`, and one event of the machine below either starts a call or goes on with one.  So a
list of events is one interleaving.

Of the descriptor tables of `sys/fs/fd.rs` the machine keeps the reference count of every description
and how many slots refer to it.  The last reference gone, a local socket is detached, which may
release more references and collect garbage: that too is work left to do.

The machine keeps a record of the rights that were taken by sends, those that were installed in a
receiver and those that were released.
-/

set_option autoImplicit false

namespace OxideBSD.Local

open Kern

/-! ## Work -/

/-- What a thread in the middle of a call does next. -/
inductive Work
  /-- `fd::release` of what a message held. -/
  | release (r : Right)
  /-- The close operation of a description is done: the description goes. -/
  | forget (real : Nat)
  /-- A call of `gc`. -/
  | collect
  /-- The loop of `gc` starts over. -/
  | mark
  /-- `gc` has found the garbage. -/
  | flush (garbage : List Nat)
  /-- A new socket gets a descriptor. -/
  | install (so : Nat)
  /-- `bind`, the socket having had no name. -/
  | bind (so : Nat) (name : Name)
  /-- `connect`, the name having been resolved. -/
  | connect (so : Nat) (ty : SockType) (name : Name) (target : Nat) (cred : Cred)
  /-- A datagram whose destination has not been checked. -/
  | address (so dest : Nat) (data : List UInt8) (sender : Cred) (control : Option Asked)
  /-- `send_msg`, with everything checked. -/
  | send (ty : SockType) (dest : Nat) (data : List UInt8) (fromName : Option (Option Name))
      (sender : Cred) (control : Option Asked)
  deriving DecidableEq

/-- A name a socket is bound to. -/
inductive Place
  | abstract (a : List UInt8)
  | node (node : Nat)
  deriving DecidableEq, Repr

/-- The name a control block records, as far as the tables know it. -/
def Unp.place (u : Unp) : Option Place :=
  match u.name, u.node with
  | some (.abstract a), _ => some (.abstract a)
  | some (.path _), some node => some (.node node)
  | _, _ => none

structure St where
  st : State
  /-- The reference count of every description. -/
  descriptions : Nat → Option Nat
  /-- How many descriptor slots refer to a description. -/
  slots : Nat → Nat
  /-- The next `real_fd`. -/
  next : Nat
  gcRunning : Bool
  /-- What the threads in the middle of a call have to do. -/
  tasks : List (List Work)
  /-- For the record: the rights taken by sends, those installed and those released. -/
  taken : List Right
  installed : List Right
  released : List Right
  /-- For the record: the names sockets were bound to. -/
  bound : List (Nat × Place)

namespace St

def init : St := ⟨.init, fun _ ↦ none, fun _ ↦ 0, 0, false, [], [], [], [], []⟩

/-- The socket `so` has been through `bind`. -/
def bindResult (s : St) (so : Nat) (r : Except Nat Unit × State) : St :=
  { s with
    st := r.2
    bound := match r.1, (r.2.socks so).bind Unp.place with
      | .ok _, some place => (so, place) :: s.bound
      | _, _ => s.bound }

/-- `fd::refs`. -/
def refs (s : St) (real : Nat) : Nat := (s.descriptions real).getD 0

/-- A reference of a description is gone; the last one closes it, and a local socket is detached. -/
def dropRef (s : St) (real : Nat) : St × List Work :=
  match s.descriptions real with
  | none => (s, [])
  | some n =>
    let s := { s with descriptions := Function.update s.descriptions real (some (n - 1)) }
    if n - 1 = 0 then
      let r := s.st.detach real
      ({ s with st := r.1 },
        r.2.1.map Work.release ++ (if r.2.2 then [Work.collect] else []) ++ [.forget real])
    else (s, [])

/-- `fd::hold` of the rights a send takes. -/
def hold (s : St) (rights : List Right) : St :=
  { s with
    descriptions := fun real ↦ (s.descriptions real).map (· + rights.countP (·.real = real)) }

/-- `install_held` of the rights a receiver gets. -/
def installHeld (s : St) (rights : List Right) : St :=
  { s with
    slots := fun real ↦ s.slots real + rights.countP (·.real = real)
    installed := s.installed ++ rights }

/-- One item of work.  What the file system says about a path is `node`; a file made by `bind` is a
new one.  The receiver's buffer takes `cap` bytes. -/
def doWork (s : St) (w : Work) (node : Except Nat Nat) (cap : Nat) : Option (St × List Work) :=
  match w with
  | .release r =>
    let d := s.dropRef r.real
    some ({ d.1 with released := d.1.released ++ [r] }, d.2)
  | .forget real =>
    some ({ s with descriptions := Function.update s.descriptions real none }, [])
  | .collect => if s.gcRunning then some (s, []) else some ({ s with gcRunning := true }, [.mark])
  | .mark =>
    if s.st.inflightTotal = 0 then some ({ s with gcRunning := false }, [])
    else if s.st.garbage s.next s.refs = [] then some ({ s with gcRunning := false }, [])
    else some (s, [.flush (s.st.garbage s.next s.refs)])
  | .flush garbage =>
    let r := s.st.flushAll garbage
    some ({ s with st := r.1 }, r.2.map Work.release ++ [.mark])
  | .install so =>
    some ({ s with
      descriptions := Function.update s.descriptions so (some 1)
      slots := Function.update s.slots so 1 }, [])
  | .bind so name =>
    match name with
    | .abstract a => some (s.bindResult so (s.st.bindAbstract so a), [])
    | .path p =>
      match node with
      | .error _ => some (s, [])
      | .ok node =>
        if (s.st.nodes node).isSome then none
        else some (s.bindResult so (s.st.bindPath so p node), [])
  | .connect so ty name target cred =>
    -- the number is not used if the connection is refused
    some ({ s with st := (s.st.connect so ty name target s.next cred).2, next := s.next + 1 }, [])
  | .address so dest data sender control =>
    match s.st.checkDest so dest with
    | .error _ => some (s, [])
    | .ok name => some (s, [.send .dgram dest data (some name) sender control])
  | .send ty dest data fromName sender control =>
    if ty = .seqpacket ∧ cap < data.length then some (s, [])
    else
      let control := control.map (Asked.take · s.taken.length)
      let r := s.st.sendMsg ty dest data fromName cap sender control
      some ({ s.hold r.held with st := r.st, taken := s.taken ++ r.held },
        r.release.map Work.release)

end St

/-! ## Calls -/

inductive Event
  /-- A thread in the middle of a call goes on. -/
  | work (i : Nat) (node : Except Nat Nat) (cap : Nat)
  /-- Something else than a local socket is opened. -/
  | file
  | socket (ty : SockType)
  | socketpair (ty : SockType) (cred : Cred)
  /-- `dup`, `fork`: another slot for a description that has one. -/
  | dup (real : Nat)
  /-- `close_one` of a slot. -/
  | close (real : Nat)
  | bind (so : Nat) (addr : List UInt8)
  | listen (so : Nat) (backlog : Int) (cred : Cred)
  | connect (so : Nat) (addr : List UInt8) (node : Except Nat Nat) (cred : Cred)
  | accept (so : Nat)
  | send (so : Nat) (data : List UInt8) (addr : Option (List UInt8)) (node : Except Nat Nat)
      (control : List UInt8) (fdOf : Nat → Option Nat) (cred : Cred) (sndbuf : Nat)
  | recv (so len : Nat) (peek : Bool) (ctl : RecvCtl) (fdRoom : Nat) (fds : Nat → UInt32)
  | shutdown (so how : Nat)
  | setPasscred (so : Nat) (on : Bool)
  | setLocalCreds (so : Nat) (want : LocalCreds) (on : Bool)

namespace St

/-- A call is in the middle of something. -/
def begin (s : St) (work : List Work) : St := { s with tasks := s.tasks ++ [work] }

/-- `send_msg` up to where the destination is known. -/
def startSend (s : St) (so : Nat) (u : Unp) (data : List UInt8) (addr : Option (List UInt8))
    (node : Except Nat Nat) (sender : Cred) (control : Option Asked) : Except Nat Work :=
  match u.ty with
  | .dgram =>
    let dest := match addr with
      | none => s.st.defaultDest so
      | some addr =>
        match parseAddr addr with
        | .error e => .error e
        | .ok .unnamed => .error EINVAL
        | .ok (.named name) => s.st.resolve name node
    dest.map fun dest ↦ .address so dest data sender control
  | ty =>
    (s.st.destination so addr.isSome).map fun dest ↦ .send ty dest data none sender control

/-- What an event does. -/
def step (s : St) : Event → Option St
  | .work i node cap =>
    match s.tasks[i]? with
    | some (w :: rest) =>
      (s.doWork w node cap).map fun r ↦ { r.1 with tasks := s.tasks.set i (r.2 ++ rest) }
    | _ => none
  | .file =>
    some { s with
      descriptions := Function.update s.descriptions s.next (some 1)
      slots := Function.update s.slots s.next 1
      next := s.next + 1 }
  | .socket ty =>
    some ({ s with st := s.st.attach s.next ty, next := s.next + 1 }.begin [.install s.next])
  | .socketpair ty cred =>
    let st := ((s.st.attach s.next ty).attach (s.next + 1) ty).pair s.next (s.next + 1) cred
    some ({ s with st := st, next := s.next + 2 }.begin [.install s.next, .install (s.next + 1)])
  | .dup real =>
    match s.descriptions real with
    | none => none
    | some n =>
      if s.slots real = 0 then none
      else some { s with
        descriptions := Function.update s.descriptions real (some (n + 1))
        slots := Function.update s.slots real (s.slots real + 1) }
  | .close real =>
    if s.slots real = 0 then none
    else
      let s := { s with slots := Function.update s.slots real (s.slots real - 1) }
      match s.descriptions real with
      | none => none
      | some n =>
        let d := s.dropRef real
        -- with references left, they may be only those of messages in flight
        some (if n - 1 ≠ 0 ∧ 0 < s.st.inflight real then d.1.begin [.collect] else d.1.begin d.2)
  | .bind so addr =>
    match parseAddr addr with
    | .error _ => some s
    | .ok .unnamed => some (s.bindResult so (s.st.bindUnnamed so))
    | .ok (.named name) =>
      match s.st.bindCheck so with
      | .error _ => some s
      | .ok _ => some (s.begin [.bind so name])
  | .listen so backlog cred =>
    match s.st.socks so with
    | none => some s
    | some u => some { s with st := (s.st.listen so u.ty backlog cred).2 }
  | .connect so addr node cred =>
    match s.st.socks so with
    | none => some s
    | some u =>
      if u.ty = .dgram ∧ isUnspec addr then some { s with st := (s.st.disconnect so).2 }
      else
        match parseAddr addr with
        | .ok (.named name) =>
          match s.st.resolve name node with
          | .error _ => some s
          | .ok target => some (s.begin [.connect so u.ty name target cred])
        | _ => some s
  | .accept so =>
    let r := s.st.accept so
    match r.1 with
    | .error _ => some s
    | .ok (conn, _) => some ({ s with st := r.2 }.begin [.install conn])
  | .send so data addr node control fdOf cred sndbuf =>
    match s.st.socks so with
    | none => some s
    | some u =>
      if u.ty = .dgram ∧ sndbuf < data.length then some s
      else
        match parseControl fdOf cred control with
        | .error _ => some s
        | .ok control =>
          match s.startSend so u data addr node cred control with
          | .error _ => some s
          | .ok w => some (s.begin [w])
  | .recv so len peek ctl fdRoom fds =>
    match s.st.socks so with
    | none => some s
    | some u =>
      let r := s.st.recvMsg so u.ty len peek ctl fdRoom fds
      some ({ s.installHeld r.2.2.1 with st := r.2.1 }.begin (r.2.2.2.map Work.release))
  | .shutdown so how =>
    match s.st.socks so with
    | none => some s
    | some u =>
      let r := s.st.shutdown so u.ty how
      some ({ s with st := r.2.1 }.begin (r.2.2.map Work.release))
  | .setPasscred so on => some { s with st := (s.st.setPasscred so on).2 }
  | .setLocalCreds so want on => some { s with st := (s.st.setLocalCreds so want on).2 }

end St

end OxideBSD.Local
