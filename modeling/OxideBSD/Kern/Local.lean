import OxideBSD.Kern.Uio
import OxideBSD.Lib.Bytes
import OxideBSD.Lib.Marking

/-!
# Local sockets

`sys/kern/uipc_usrreq.rs`: stream, datagram and sequenced-packet sockets of the family `AF_UNIX`.
Every socket has a control block (`Unp`) with a queue of messages; a message carries bytes, the
credentials of its sender and, with `SCM_RIGHTS`, references to descriptions that its receiver gets
descriptors for.  What the code does under one acquisition of the lock of `STATE` is one function of
`State` here; the descriptions it has to release afterwards, when the lock is free again, are part
of the result.

The sections follow the source: addresses, credentials, control data, one socket's queue, and the
tables of all sockets.  Who calls these functions in which order is the matter of
`OxideBSD.Kern.LocalRun`.
-/

set_option autoImplicit false

namespace OxideBSD.Local

open Kern

def EPERM : Nat := 1
def EMSGSIZE : Nat := 90
def EPROTOTYPE : Nat := 91
def EOPNOTSUPP : Nat := 95
def EAFNOSUPPORT : Nat := 97
def EADDRINUSE : Nat := 98
def ECONNRESET : Nat := 104
def ENOBUFS : Nat := 105
def EISCONN : Nat := 106
def ENOTCONN : Nat := 107
def ETOOMANYREFS : Nat := 109
def ECONNREFUSED : Nat := 111

/-! ## Addresses -/

/-- `SOCK_STREAM`, `SOCK_DGRAM` and `SOCK_SEQPACKET`. -/
inductive SockType
  | stream
  | dgram
  | seqpacket
  deriving DecidableEq, Repr

/-- `connected_type`. -/
def SockType.connected (ty : SockType) : Bool := ty ≠ .dgram

/-- A local socket's name. -/
inductive Name
  | path (p : List UInt8)
  | abstract (a : List UInt8)
  deriving DecidableEq, Repr

/-- What an address names. -/
inductive Addr
  | unnamed
  | named (name : Name)
  deriving DecidableEq, Repr

def sockaddrUnLen : Nat := 110
def afUnspec : Nat := 0
def afUnix : Nat := 1

/-- The family of a `struct sockaddr`. -/
def family (addr : List UInt8) : Nat := Bytes.ofLe (addr.take 2)

def parseAddr (addr : List UInt8) : Except Nat Addr :=
  if addr.length < 2 ∨ sockaddrUnLen < addr.length then .error EINVAL
  else if family addr ≠ afUnix then .error EAFNOSUPPORT
  else
    match addr.drop 2 with
    | [] => .ok .unnamed
    | b :: path =>
      if b = 0 then .ok (.named (.abstract path))
      else .ok (.named (.path ((b :: path).takeWhile (· ≠ 0))))

def sockaddr (name : Option Name) : List UInt8 :=
  Bytes.toLe 2 afUnix ++
    match name with
    | none => []
    | some (.path p) => p ++ [0]
    | some (.abstract a) => 0 :: a

def isUnspec (addr : List UInt8) : Bool := 2 ≤ addr.length && family addr = afUnspec

/-! ## Credentials -/

structure Cred where
  pid : UInt32
  ruid : UInt32
  euid : UInt32
  rgid : UInt32
  egid : UInt32
  ngroups : UInt32
  /-- Sixteen of them. -/
  groups : List UInt32
  deriving DecidableEq, Repr

def words (v : List UInt32) : List UInt8 := v.flatMap fun w ↦ Bytes.toLe 4 w.toNat

/-- `struct ucred`. -/
def ucred (c : Cred) : List UInt8 := words [c.pid, c.euid, c.egid]

/-- `struct cmsgcred`. -/
def cmsgcred (c : Cred) : List UInt8 :=
  words [c.pid, c.ruid, c.euid, c.rgid] ++ Bytes.toLe 2 c.ngroups.toNat ++ [0, 0] ++ words c.groups

/-- `struct sockcred`. -/
def sockcred (c : Cred) : List UInt8 :=
  words [c.ruid, c.euid, c.rgid, c.egid, c.ngroups] ++ words (c.groups.take c.ngroups.toNat)

/-- `struct sockcred2`. -/
def sockcred2 (c : Cred) : List UInt8 := words [0, c.pid] ++ sockcred c

/-! ## Messages -/

/-- A description held by a message. -/
structure Right where
  real : Nat
  /-- For the record: which of all the rights ever taken it is. -/
  token : Nat
  deriving DecidableEq, Repr

structure Control where
  rights : List Right
  creds : Bool
  credentials : Option Cred
  deriving DecidableEq, Repr

structure Msg where
  data : List UInt8
  /-- How much of `data` has been read. -/
  off : Nat
  /-- The sender's name, for datagrams. -/
  fromName : Option (Option Name)
  sender : Cred
  control : Option Control
  deriving DecidableEq, Repr

namespace Msg

def left (m : Msg) : Nat := m.data.length - m.off

/-- The bytes not yet read. -/
def unread (m : Msg) : List UInt8 := m.data.drop m.off

def rights (m : Msg) : List Right :=
  match m.control with
  | none => []
  | some c => c.rights

end Msg

inductive LocalCreds
  | off
  | once
  | persistent
  deriving DecidableEq, Repr

/-- A local socket's control block. -/
structure Unp where
  ty : SockType
  name : Option Name
  /-- The socket file's vnode, for a path name. -/
  node : Option Nat
  peer : Option Nat
  peerName : Option Name
  peerCred : Option Cred
  listenCred : Option Cred
  connected : Bool
  listening : Bool
  backlog : Nat
  /-- Connections not yet accepted, oldest first. -/
  pending : List Nat
  queue : List Msg
  queued : Nat
  rdShut : Bool
  wrShut : Bool
  eof : Bool
  peerGone : Bool
  reset : Bool
  passcred : Bool
  localCreds : LocalCreds
  credsGiven : Bool
  deriving DecidableEq, Repr

/-- `Unp::new`. -/
def Unp.new (ty : SockType) : Unp :=
  ⟨ty, none, none, none, none, none, none, false, false, 0, [], [], 0, false, false, false, false,
    false, false, .off, false⟩

/-- The rights in a socket's queue. -/
def Unp.rights (u : Unp) : List Right := u.queue.flatMap Msg.rights

/-! ## Control data -/

def cmsgHdr : Nat := 16
def solSocket : Nat := 1
def scmRights : Nat := 1
def scmCredentials : Nat := 2
def scmCreds : Nat := 3
def scmCreds2 : Nat := 8

/-- What the control data of a send asks for: the descriptions of `SCM_RIGHTS` are not held yet. -/
structure Asked where
  rights : List Nat
  creds : Bool
  credentials : Option Cred
  deriving DecidableEq, Repr

/-- The descriptors of an `SCM_RIGHTS` message. -/
def chunks : List UInt8 → List Nat
  | a :: b :: c :: d :: rest => Bytes.ofLe [a, b, c, d] :: chunks rest
  | _ => []

/-- The descriptions of the descriptors `fds`; `fdOf` is the caller's table. -/
def resolveFds (fdOf : Nat → Option Nat) : List Nat → Except Nat (List Nat)
  | [] => .ok []
  | fd :: fds =>
    match if fd < 2 ^ 31 then fdOf fd else none with
    | none => .error EBADF
    | some real => (resolveFds fdOf fds).map (real :: ·)

/-- One `struct cmsghdr` of type `ty` and its data. -/
def parseOne (fdOf : Nat → Option Nat) (me : Cred) (level ty : Nat) (data : List UInt8)
    (c : Asked) : Except Nat Asked :=
  if level ≠ solSocket then .error EINVAL
  else if ty = scmRights then
    if data.length % 4 ≠ 0 then .error EINVAL
    else (resolveFds fdOf (chunks data)).map fun rights ↦ { c with rights := c.rights ++ rights }
  else if ty = scmCreds then .ok { c with creds := true }
  else if ty = scmCredentials then
    if data.length < 12 then .error EINVAL
    else
      let w (i : Nat) : UInt32 := .ofNat (Bytes.ofLe ((data.drop i).take 4))
      let given : Cred := ⟨w 0, w 4, w 4, w 8, w 8, 1, w 8 :: List.replicate 15 0⟩
      let own := w 0 = me.pid ∧ (w 4 = me.ruid ∨ w 4 = me.euid) ∧ (w 8 = me.rgid ∨ w 8 = me.egid)
      if ¬ own ∧ me.euid ≠ 0 then .error EPERM
      else .ok { c with credentials := some given }
  else .error EINVAL

/-- The loop of `parse_control` over the bytes still ahead. -/
def parseLoop (fdOf : Nat → Option Nat) (me : Cred) : Nat → List UInt8 → Asked → Except Nat Asked
  | 0, _, c => .ok c
  | fuel + 1, control, c =>
    if control.length < cmsgHdr then .ok c
    else
      let len := Bytes.ofLe (control.take 4)
      if len < cmsgHdr ∨ control.length < len then .error EINVAL
      else
        match parseOne fdOf me (Bytes.ofLe ((control.drop 8).take 4))
            (Bytes.ofLe ((control.drop 12).take 4)) ((control.take len).drop cmsgHdr) c with
        | .error e => .error e
        | .ok c => parseLoop fdOf me fuel (control.drop ((len + 7) / 8 * 8)) c

/-- `parse_control`; every turn of its loop takes at least a header off the bytes. -/
def parseControl (fdOf : Nat → Option Nat) (me : Cred) (control : List UInt8) :
    Except Nat (Option Asked) :=
  if control = [] then .ok none
  else (parseLoop fdOf me control.length control ⟨[], false, none⟩).map some

/-- The rights a send takes, numbered from `token` on. -/
def Asked.take (c : Asked) (token : Nat) : Control :=
  ⟨c.rights.zipIdx.map fun x ↦ ⟨x.1, token + x.2⟩, c.creds, c.credentials⟩

/-- Control data being built for a receiver with `room` bytes for it. -/
structure CmsgBuf where
  out : List UInt8
  room : Nat
  truncated : Bool
  deriving DecidableEq, Repr

def CmsgBuf.push (b : CmsgBuf) (ty : Nat) (data : List UInt8) : CmsgBuf :=
  let len := cmsgHdr + data.length
  if b.room - b.out.length < len then { b with truncated := true }
  else
    let out := b.out ++ Bytes.toLe 4 len ++ [0, 0, 0, 0] ++ Bytes.toLe 4 solSocket ++
      Bytes.toLe 4 ty ++ data
    { b with out := out ++ List.replicate (min ((len + 7) / 8 * 8 - len) (b.room - out.length)) 0 }

/-- What `externalize` makes of a message. -/
structure Handed where
  credsGiven : Bool
  control : List UInt8
  ctrunc : Bool
  /-- The rights that are no longer in flight. -/
  rights : List Right
  installed : List Right
  release : List Right
  /-- The rights do not fit under the receiver's limit of descriptors. -/
  refused : Bool

/-- `externalize` for the receiver `u`, which has `fdRoom` descriptors free; the `i`-th descriptor
it gets is `fds i`. -/
def externalize (u : Unp) (m : Msg) (room : Nat) (peek : Bool) (fdRoom : Nat) (fds : Nat → UInt32) :
    Handed :=
  let b : CmsgBuf := ⟨[], room, false⟩
  let b := if m.control.any Control.creds ∧ u.localCreds = .off then
      b.push scmCreds (cmsgcred m.sender) else b
  let once : Bool := u.localCreds = .once ∧ (u.ty = .dgram ∨ ¬ u.credsGiven)
  let b := if once then b.push scmCreds (sockcred m.sender)
    else if u.localCreds = .persistent then b.push scmCreds2 (sockcred2 m.sender) else b
  let b := if u.passcred then
      b.push scmCredentials (ucred ((m.control.bind Control.credentials).getD m.sender)) else b
  let credsGiven := u.credsGiven || (once && !peek)
  let rights := if peek then [] else m.rights
  if rights = [] then ⟨credsGiven, b.out, b.truncated, [], [], [], false⟩
  else
    let n := min rights.length ((room - b.out.length - cmsgHdr) / 4)
    if fdRoom < n then ⟨credsGiven, [], false, rights, [], rights, true⟩
    else
      let b := if 0 < n then b.push scmRights (words ((List.range n).map fds)) else b
      ⟨credsGiven, b.out, b.truncated || n < rights.length, rights, rights.take n, rights.drop n,
        false⟩

/-! ## One socket's queue -/

namespace Unp

/-- `deliver`, to a socket that reads: a stream takes what fits, a record or datagram goes whole or
not at all. -/
def deliver (dst : Unp) (ty : SockType) (data : List UInt8) (fromName : Option (Option Name))
    (cap : Nat) (sender : Cred) (control : Option Control) : Except Nat (Nat × Unp) :=
  let room := cap - dst.queued
  match ty with
  | .stream =>
    let n := min data.length room
    if n = 0 ∧ data ≠ [] then .error EAGAIN
    else
      let queue :=
        match dst.queue.getLast?, control with
        | some last, none =>
          if last.sender = sender then
            dst.queue.dropLast ++ [{ last with data := last.data ++ data.take n }]
          else dst.queue ++ [⟨data.take n, 0, none, sender, none⟩]
        | _, _ => dst.queue ++ [⟨data.take n, 0, none, sender, control⟩]
      .ok (n, { dst with queue := queue, queued := dst.queued + n })
  | _ =>
    if room < data.length then .error (if ty = .dgram then ENOBUFS else EAGAIN)
    else .ok (data.length, { dst with
      queue := dst.queue ++ [⟨data, 0, fromName, sender, control⟩]
      queued := dst.queued + data.length })

end Unp

/-- What a receive asks of control data (`RecvCtl`). -/
structure RecvCtl where
  room : Nat
  /-- A later turn of `MSG_WAITALL`. -/
  continuing : Bool
  deriving DecidableEq, Repr

/-- A message as received (`RecvMsg` and its `Received`). -/
structure RecvMsg where
  data : List UInt8
  full : Nat
  fromAddr : Option (List UInt8)
  eor : Bool
  control : List UInt8
  ctrunc : Bool
  stopped : Bool
  deriving DecidableEq, Repr

/-- `Received::bytes`. -/
def RecvMsg.bytes (data control : List UInt8) (ctrunc stopped : Bool) : RecvMsg :=
  ⟨data, data.length, none, false, control, ctrunc, stopped⟩

/-- How a receive ends: its result, the socket, and where the rights of the message went. -/
structure Recv where
  result : Except Nat RecvMsg
  unp : Unp
  /-- The user the rights were counted for. -/
  uid : UInt32
  /-- The rights that are no longer in flight, and where they went. -/
  rights : List Right
  installed : List Right
  release : List Right

/-- The bytes of the messages after the first that a stream's receive takes, with `room` left. -/
def takeMore : Nat → List Msg → List UInt8
  | _, [] => []
  | room, next :: queue =>
    if room = 0 ∨ next.control.isSome then []
    else
      let k := min next.left room
      next.unread.take k ++ takeMore (room - k) queue

/-- The queue with `left` more bytes read. -/
def consume : Nat → List Msg → List Msg
  | _, [] => []
  | left, next :: queue =>
    if left = 0 then next :: queue
    else
      let k := min next.left left
      let next := { next with off := next.off + k }
      if next.left = 0 then consume (left - k) queue else next :: queue

namespace Unp

/-- What a receive from an empty queue comes to. -/
def recvNone (u : Unp) (ty : SockType) : Except Nat RecvMsg :=
  if u.reset then .error ECONNRESET
  else if u.rdShut || u.eof then .ok (.bytes [] [] false false)
  else if ty.connected && !u.connected then .error ENOTCONN
  else .error EAGAIN

/-- The control data of the message `m`, if the socket is to hand out any. -/
def control (u : Unp) (m : Msg) (room : Nat) (peek : Bool) (fdRoom : Nat) (fds : Nat → UInt32) :
    Handed :=
  if m.control.isSome || u.passcred || u.localCreds ≠ .off then
    externalize u m room peek fdRoom fds
  else ⟨u.credsGiven, [], false, [], [], [], false⟩

/-- The bytes a receive of up to `len` bytes takes off the queue, and the queue after it; `m` is the
first message. -/
def readStream (m : Msg) (queue : List Msg) (len : Nat) (peek : Bool) :
    List UInt8 × List Msg :=
  let n := min m.left len
  let more := takeMore (len - n) queue
  let data := m.unread.take n ++ more
  if peek then (data, m :: queue)
  else
    let m' := { m with off := m.off + n }
    let queue := consume more.length queue
    (data, if 0 < m'.left then m' :: queue else queue)

/-- `recv_msg`, up to the release of what nobody gets. -/
def recvMsg (u : Unp) (ty : SockType) (len : Nat) (peek : Bool) (ctl : RecvCtl) (fdRoom : Nat)
    (fds : Nat → UInt32) : Recv :=
  match u.queue with
  | [] => ⟨u.recvNone ty, u, 0, [], [], []⟩
  | m :: queue =>
    if ty = .stream ∧ ctl.continuing ∧ m.control.isSome then
      ⟨.ok (.bytes [] [] false true), u, 0, [], [], []⟩
    else
      let h := u.control m ctl.room peek fdRoom fds
      let u := { u with credsGiven := h.credsGiven }
      if h.refused then
        let u := if ty = .stream then { u with queue := { m with control := none } :: queue }
          else { u with queue := queue, queued := u.queued - m.data.length }
        ⟨.error EMSGSIZE, u, m.sender.euid, h.rights, [], h.release⟩
      else
        let m := if peek then m else { m with control := none }
        if ty = .stream then
          let r := readStream m queue len peek
          let u := { u with
            queue := r.2
            queued := if peek then u.queued else u.queued - r.1.length }
          ⟨.ok (.bytes r.1 h.control h.ctrunc false), u, m.sender.euid, h.rights, h.installed,
            h.release⟩
        else
          let u := if peek then { u with queue := m :: queue }
            else { u with queue := queue, queued := u.queued - m.data.length }
          ⟨.ok ⟨m.data.take len, m.data.length, m.fromName.map sockaddr, ty = .seqpacket, h.control,
            h.ctrunc, false⟩, u, m.sender.euid, h.rights, h.installed, h.release⟩

end Unp

/-! ## All sockets -/

def maxInflightUser : Nat := 1024
def maxInflight : Nat := 4096
def somaxconn : Nat := 128

/-- The tables of all local sockets.  A count that is not in a table is zero. -/
structure State where
  socks : Nat → Option Unp
  abstractNames : List UInt8 → Option Nat
  nodes : Nat → Option Nat
  nextAutobind : UInt32
  inflight : Nat → Nat
  inflightByUid : UInt32 → Nat
  inflightTotal : Nat

namespace State

/-- No socket. -/
def init : State :=
  ⟨fun _ ↦ none, fun _ ↦ none, fun _ ↦ none, 0, fun _ ↦ 0, fun _ ↦ 0, 0⟩

/-- The socket `so` becomes `u`. -/
def set (st : State) (so : Nat) (u : Unp) : State :=
  { st with socks := Function.update st.socks so (some u) }

def takeInflight (st : State) (uid : UInt32) (rights : List Right) : Except Nat State :=
  let n := rights.length
  if maxInflight < st.inflightTotal + n ∨ (uid ≠ 0 ∧ maxInflightUser < st.inflightByUid uid + n) then
    .error ETOOMANYREFS
  else .ok { st with
    inflight := fun r ↦ st.inflight r + rights.countP (·.real = r)
    inflightByUid := Function.update st.inflightByUid uid (st.inflightByUid uid + n)
    inflightTotal := st.inflightTotal + n }

def putInflight (st : State) (uid : UInt32) (rights : List Right) : State :=
  { st with
    inflight := fun r ↦ st.inflight r - rights.countP (·.real = r)
    inflightByUid := Function.update st.inflightByUid uid (st.inflightByUid uid - rights.length)
    inflightTotal := st.inflightTotal - rights.length }

/-- `discard`: the messages' rights are no longer in flight, and to be released. -/
def discard (st : State) : List Msg → State × List Right
  | [] => (st, [])
  | m :: msgs =>
    let st := if m.rights = [] then st else st.putInflight m.sender.euid m.rights
    let r := st.discard msgs
    (r.1, m.rights ++ r.2)

def flush (st : State) (so : Nat) : State × List Right :=
  match st.socks so with
  | none => (st, [])
  | some u => (st.set so { u with queue := [], queued := 0 }).discard u.queue

/-- The flushes of a round of `gc`. -/
def flushAll (st : State) : List Nat → State × List Right
  | [] => (st, [])
  | so :: garbage =>
    let r := st.flush so
    let r' := r.1.flushAll garbage
    (r'.1, r.2 ++ r'.2)

/-- `deliver`: to a receiver that shut its read side everything is dropped. -/
def deliver (st : State) (ty : SockType) (dest : Nat) (data : List UInt8)
    (fromName : Option (Option Name)) (cap : Nat) (sender : Cred) (control : Option Control) :
    Except Nat (Nat × State × List Right) :=
  match st.socks dest with
  | none => .error EPIPE
  | some dst =>
    if dst.rdShut then
      match control with
      | none => .ok (data.length, st, [])
      | some c => .ok (data.length, st.discard [⟨[], 0, none, sender, some c⟩])
    else
      match dst.deliver ty data fromName cap sender control with
      | .error e => .error e
      | .ok (n, dst) => .ok (n, st.set dest dst, [])

/-- How a send ends: its result, the tables, the descriptions held and those to release again. -/
structure Sent where
  result : Except Nat Nat
  st : State
  held : List Right
  release : List Right

/-- The last part of `send_msg`, with everything checked and the destination known. -/
def sendMsg (st : State) (ty : SockType) (dest : Nat) (data : List UInt8)
    (fromName : Option (Option Name)) (cap : Nat) (sender : Cred) (control : Option Control) :
    Sent :=
  let rights := control.elim [] Control.rights
  match if rights = [] then .ok st else st.takeInflight sender.euid rights with
  | .error e => ⟨.error e, st, [], []⟩
  | .ok st =>
    match st.deliver ty dest data fromName cap sender control with
    | .error e =>
      ⟨.error e, if rights = [] then st else st.putInflight sender.euid rights, rights, rights⟩
    | .ok (n, st, dropped) => ⟨.ok n, st, rights, dropped⟩

/-- `recv_msg` on the socket `so`: the rights it takes out of a message are no longer in flight. -/
def recvMsg (st : State) (so : Nat) (ty : SockType) (len : Nat) (peek : Bool) (ctl : RecvCtl)
    (fdRoom : Nat) (fds : Nat → UInt32) : Except Nat RecvMsg × State × List Right × List Right :=
  match st.socks so with
  | none => (.error EBADF, st, [], [])
  | some u =>
    let r := u.recvMsg ty len peek ctl fdRoom fds
    let st := st.set so r.unp
    (r.result, if r.rights = [] then st else st.putInflight r.uid r.rights, r.installed, r.release)

/-- Where a send of a connected type goes. -/
def destination (st : State) (so : Nat) (addressed : Bool) : Except Nat Nat :=
  match st.socks so with
  | none => .error EBADF
  | some u =>
    if addressed then .error (if u.connected then EISCONN else EOPNOTSUPP)
    else if u.wrShut || u.peerGone then .error EPIPE
    else if ¬ u.connected then .error ENOTCONN
    else u.peer.elim (.error ENOTCONN) .ok

/-- The default destination of a datagram. -/
def defaultDest (st : State) (so : Nat) : Except Nat Nat :=
  match st.socks so with
  | none => .error EBADF
  | some u =>
    match u.peer with
    | none => .error ENOTCONN
    | some peer => if (st.socks peer).isSome then .ok peer else .error ENOTCONN

/-- The checks of a datagram to `dest`, and the sender's name. -/
def checkDest (st : State) (so dest : Nat) : Except Nat (Option Name) :=
  match st.socks so with
  | none => .error EBADF
  | some u =>
    if u.wrShut then .error EPIPE
    else
      match st.socks dest with
      | none => .error ECONNREFUSED
      | some d => if d.ty ≠ .dgram then .error EPROTOTYPE else .ok u.name

/-- `resolve`; what the file system says about a path is `node`. -/
def resolve (st : State) (name : Name) (node : Except Nat Nat) : Except Nat Nat :=
  match name with
  | .abstract a => (st.abstractNames a).elim (.error ECONNREFUSED) .ok
  | .path _ =>
    match node with
    | .error e => .error e
    | .ok node => (st.nodes node).elim (.error ECONNREFUSED) .ok

def attach (st : State) (so : Nat) (ty : SockType) : State := st.set so (Unp.new ty)

/-- One end of `pair`. -/
def pairOne (st : State) (me other : Nat) (cred : Cred) : State :=
  match st.socks me with
  | none => st
  | some u => st.set me { u with peer := some other, peerCred := some cred, connected := true }

def pair (st : State) (a b : Nat) (cred : Cred) : State := (st.pairOne a b cred).pairOne b a cred

/-- The name of a socket that closes is free again. -/
def unbind (st : State) (u : Unp) : State :=
  match u.name with
  | some (.abstract a) => { st with abstractNames := Function.update st.abstractNames a none }
  | some (.path _) =>
    match u.node with
    | some node => { st with nodes := Function.update st.nodes node none }
    | none => st
  | none => st

/-- The other end of a connection that closes without having been accepted. -/
def resetClient (st : State) (client : Option Nat) : State :=
  match client.bind fun c ↦ (st.socks c).map fun u ↦ (c, u) with
  | none => st
  | some (c, u) => st.set c { u with reset := true, peerGone := true, eof := true }

/-- Connections never accepted are reset. -/
def resetPending (st : State) : List Nat → State × List Right
  | [] => (st, [])
  | conn :: pending =>
    match st.socks conn with
    | none => st.resetPending pending
    | some c =>
      let st := { st with socks := Function.update st.socks conn none }
      let r := st.discard c.queue
      let r' := (r.1.resetClient c.peer).resetPending pending
      (r'.1, r.2 ++ r'.2)

/-- The peer of a socket that closes. -/
def tellPeer (st : State) (u : Unp) : State :=
  if u.ty.connected then
    match u.peer.bind fun p ↦ (st.socks p).map fun v ↦ (p, v) with
    | none => st
    | some (p, v) => st.set p { v with eof := true, peerGone := true }
  else st

/-- `detach`, up to the release of what the messages held; afterwards sockets may have to be
collected. -/
def detach (st : State) (so : Nat) : State × List Right × Bool :=
  match st.socks so with
  | none => (st, [], false)
  | some u =>
    let r := { st with socks := Function.update st.socks so none }.discard u.queue
    let r' := (r.1.unbind u).resetPending u.pending
    let st := r'.1.tellPeer u
    (st, r.2 ++ r'.2, 0 < st.inflightTotal)

/-- The first check of `bind`. -/
def bindCheck (st : State) (so : Nat) : Except Nat Unit :=
  match st.socks so with
  | none => .error EBADF
  | some u => if u.name.isSome then .error EINVAL else .ok ()

def hexDigit (n : UInt32) : UInt8 := if n < 10 then 48 + n.toUInt8 else 87 + n.toUInt8

/-- Five hexadecimal digits. -/
def hex (n : UInt32) : List UInt8 :=
  ([16, 12, 8, 4, 0] : List UInt32).map fun s ↦ hexDigit (n >>> s &&& 0xf)

/-- The search for a free name of `bind` without a name. -/
def autobind (st : State) (so : Nat) (u : Unp) : Nat → Except Nat Unit × State
  | 0 => (.error EADDRINUSE, st)
  | fuel + 1 =>
    let a := hex (st.nextAutobind &&& 0xfffff)
    let st := { st with nextAutobind := st.nextAutobind + 1 }
    if (st.abstractNames a).isSome then st.autobind so u fuel
    else
      (.ok (), { st with abstractNames := Function.update st.abstractNames a (some so) }.set so
        { u with name := some (.abstract a) })

/-- `bind` without a name. -/
def bindUnnamed (st : State) (so : Nat) : Except Nat Unit × State :=
  match st.socks so with
  | none => (.error EBADF, st)
  | some u => if u.name.isSome then (.error EINVAL, st) else st.autobind so u 0x100000

/-- The last part of `bind` to an abstract name. -/
def bindAbstract (st : State) (so : Nat) (a : List UInt8) : Except Nat Unit × State :=
  if (st.abstractNames a).isSome then (.error EADDRINUSE, st)
  else
    let st := { st with abstractNames := Function.update st.abstractNames a (some so) }
    match st.socks so with
    | none => (.error EBADF, st)
    | some u => (.ok (), st.set so { u with name := some (.abstract a) })

/-- The last part of `bind` to a path, whose socket file has been made. -/
def bindPath (st : State) (so : Nat) (p : List UInt8) (node : Nat) : Except Nat Unit × State :=
  match st.socks so with
  | none => (.error EBADF, { st with nodes := Function.update st.nodes node none })
  | some u =>
    (.ok (), { st with nodes := Function.update st.nodes node (some so) }.set so
      { u with name := some (.path p), node := some node })

/-- `connect` to no address. -/
def disconnect (st : State) (so : Nat) : Except Nat Unit × State :=
  match st.socks so with
  | none => (.error EBADF, st)
  | some u => (.ok (), st.set so { u with peer := none, peerName := none, connected := false })

/-- The last part of `connect` to the socket `target`, which was found under `name`; a connection's
server end is the socket `server`. -/
def connect (st : State) (so : Nat) (ty : SockType) (name : Name) (target server : Nat)
    (cred : Cred) : Except Nat Unit × State :=
  match st.socks target with
  | none => (.error ECONNREFUSED, st)
  | some listener =>
    if listener.ty ≠ ty then (.error EPROTOTYPE, st)
    else
      match st.socks so with
      | none => (.error EBADF, st)
      | some me =>
        if ty = .dgram then
          (.ok (), st.set so
            { me with peer := some target, peerName := some name, connected := true })
        else if me.listening then (.error EINVAL, st)
        else if me.connected then (.error EISCONN, st)
        else if ¬ listener.listening ∨ listener.backlog ≤ listener.pending.length then
          (.error ECONNREFUSED, st)
        else
          let su : Unp := { Unp.new ty with
            name := listener.name
            peer := some so
            peerName := me.name
            peerCred := some cred
            connected := true }
          let st := (st.set server su).set target
            { listener with pending := listener.pending ++ [server] }
          (.ok (), st.set so { me with
            peer := some server
            peerName := listener.name
            peerCred := listener.listenCred
            connected := true })

def listen (st : State) (so : Nat) (ty : SockType) (backlog : Int) (cred : Cred) :
    Except Nat Unit × State :=
  if ¬ ty.connected then (.error EOPNOTSUPP, st)
  else
    match st.socks so with
    | none => (.error EBADF, st)
    | some u =>
      if u.name.isNone ∨ u.connected then (.error EINVAL, st)
      else
        (.ok (), st.set so { u with
          listening := true
          backlog := min (max backlog 1).toNat somaxconn
          listenCred := some cred })

def accept (st : State) (so : Nat) : Except Nat (Nat × List UInt8) × State :=
  match st.socks so with
  | none => (.error EBADF, st)
  | some u =>
    if ¬ u.listening then (.error EINVAL, st)
    else
      match u.pending with
      | [] => (.error EAGAIN, st)
      | conn :: pending =>
        let peer := (st.socks conn).elim [] fun c ↦ sockaddr c.peerName
        (.ok (conn, peer), st.set so { u with pending := pending })

/-- The peer of a socket that shuts down its sending side. -/
def shutPeer (st : State) (u : Unp) : State :=
  if u.ty.connected then
    match u.peer.bind fun p ↦ (st.socks p).map fun v ↦ (p, v) with
    | none => st
    | some (p, v) => st.set p { v with eof := true }
  else st

def shutdown (st : State) (so : Nat) (ty : SockType) (how : Nat) :
    Except Nat Unit × State × List Right :=
  match st.socks so with
  | none => (.error EBADF, st, [])
  | some u =>
    if ty.connected ∧ ¬ u.connected then (.error ENOTCONN, st, [])
    else
      let r := if how = 0 ∨ how = 2 then (st.set so { u with rdShut := true }).flush so else (st, [])
      let st := if how = 1 ∨ how = 2 then
          match r.1.socks so with
          | none => r.1
          | some u => (r.1.set so { u with wrShut := true }).shutPeer u
        else r.1
      (.ok (), st, r.2)

/-- `setopt` of `SO_PASSCRED`. -/
def setPasscred (st : State) (so : Nat) (on : Bool) : Except Nat Unit × State :=
  match st.socks so with
  | none => (.error EBADF, st)
  | some u => (.ok (), st.set so { u with passcred := on })

/-- `setopt` of `LOCAL_CREDS` or `LOCAL_CREDS_PERSISTENT`, which exclude each other. -/
def setLocalCreds (st : State) (so : Nat) (want : LocalCreds) (on : Bool) :
    Except Nat Unit × State :=
  match st.socks so with
  | none => (.error EBADF, st)
  | some u =>
    if on then
      if u.localCreds ≠ .off ∧ u.localCreds ≠ want then (.error EINVAL, st)
      else (.ok (), st.set so { u with localCreds := want })
    else if u.localCreds = want then (.ok (), st.set so { u with localCreds := .off })
    else (.ok (), st)

/-! ### Garbage -/

/-- The sockets there are; every `real_fd` is below `n`. -/
def keys (st : State) (n : Nat) : List Nat := (List.range n).filter fun so ↦ (st.socks so).isSome

/-- The sockets inside `so`: in its queue, or connections it has not accepted. -/
def inside (st : State) (so : Nat) : List Nat :=
  match st.socks so with
  | none => []
  | some u => (u.rights.map Right.real ++ u.pending).filter fun r ↦ (st.socks r).isSome

/-- The sockets with more references than messages hold. -/
def roots (st : State) (n : Nat) (refs : Nat → Nat) : List Nat :=
  (st.keys n).filter fun so ↦ st.inflight so < refs so

def marked (st : State) (n : Nat) (refs : Nat → Nat) : List Nat :=
  Marking.mark st.inside n (st.roots n refs) (st.roots n refs).reverse

/-- The sockets in flight that are not marked. -/
def garbage (st : State) (n : Nat) (refs : Nat → Nat) : List Nat :=
  (st.keys n).filter fun so ↦ 0 < st.inflight so ∧ so ∉ st.marked n refs

end State

end OxideBSD.Local
