import Mathlib

/-!
# TCP connections

`netinet/tcp.rs`, one connection: a segment is sent at a time and kept for retransmission until all
of it is acknowledged, and received only if it starts at the next byte expected.

The tables are locked in sections, and a segment is transmitted between two of them.  A transmission
that has to resolve an address waits, and the network is polled meanwhile: other segments come in, in
the middle of the call.  So each function is cut where it transmits.

* `Segment`, `Conn`: the fields of a segment that are read, and a connection.
* `Frame`: a transmission, and by its constructor what the call does after it.
* `trySend`, `closeSending`, `sendFinAndTransition`, `retransmitOrGiveUp`, `handleForConnection`:
  a call up to its first transmission.
* `Conn.transmitted`: a call from one transmission to the next.
* `send`, `recv`, `shutdown`, `detach`: the calls of the socket layer on a connection.
-/

set_option autoImplicit false

namespace OxideBSD.Tcp

def mss : Nat := 536
def maxRecvBuf : Nat := 65536
def retransmitTicks : Nat := 100
def maxRetransmits : Nat := 5

def EAGAIN : Nat := 11
def EPIPE : Nat := 32
def ECONNRESET : Nat := 104
def ENOTCONN : Nat := 107
def ETIMEDOUT : Nat := 110
def ECONNREFUSED : Nat := 111

/-! ## Segments and connections -/

inductive ConnState
  | synSent
  | synReceived
  | established
  | finWait1
  | finWait2
  | closeWait
  | lastAck
  | closed
  deriving DecidableEq, Repr

structure Flags where
  fin : Bool
  syn : Bool
  rst : Bool
  psh : Bool
  ack : Bool
  deriving DecidableEq, Repr

namespace Flags

/-- No flag. -/
def none : Flags := ⟨false, false, false, false, false⟩

end Flags

structure Segment where
  seq : UInt32
  ack : UInt32
  flags : Flags
  window : UInt16
  data : List UInt8
  deriving DecidableEq, Repr

/-- The local address and port, and the remote ones. -/
structure Key where
  localIp : UInt32
  localPort : UInt16
  remoteIp : UInt32
  remotePort : UInt16
  deriving DecidableEq, Repr

structure Conn where
  state : ConnState
  key : Key
  sendNext : UInt32
  sendUnacked : UInt32
  recvNext : UInt32
  sendBuf : List UInt8
  recvBuf : List UInt8
  /-- The last segment sent that still needs an acknowledgement. -/
  unackedSegment : Option Segment
  retransmitDeadline : Option Nat
  retransmitCount : Nat
  /-- `shutdown(SHUT_RD)`. -/
  rdShut : Bool
  /-- A FIN waits for data: the state to move to once it has been sent. -/
  finPending : Option ConnState
  deriving DecidableEq, Repr

/-- A transmission, and what its call does once it is over. -/
inductive Frame
  /-- The call ends with it. -/
  | plain (seg : Segment)
  /-- The acknowledgement of `process_established`, which then calls `try_send`. -/
  | answer (seg : Segment)
  /-- Data taken off the send buffer. -/
  | chunk (seg : Segment)
  | fin (seg : Segment)
  /-- The SYN of `connect`, or the SYN and ACK of `handle_new_syn`. -/
  | syn (seg : Segment) (connect : Bool)
  deriving DecidableEq, Repr

/-- Where a call gets to: the next transmission, or the connection is torn down, for a reason that is
left for the socket or not. -/
inductive Next
  | goOn (c : Conn) (frame : Option Frame)
  | down (error : Option Nat)
  deriving DecidableEq, Repr

def windowFor (recvBufLen : Nat) : UInt16 := UInt16.ofNat (min (maxRecvBuf - recvBufLen) 65535)

namespace Conn

/-- A segment of the connection. -/
def segment (c : Conn) (seq ack : UInt32) (flags : Flags) (data : List UInt8) : Segment :=
  ⟨seq, ack, flags, windowFor c.recvBuf.length, data⟩

/-- The segment is kept until it is acknowledged (`send_and_track`). -/
def track (c : Conn) (seg : Segment) (now : Nat) : Conn :=
  { c with unackedSegment := some seg, retransmitDeadline := some (now + retransmitTicks) }

/-! ## Sending -/

/-- `send_fin_and_transition`. -/
def sendFinAndTransition (c : Conn) (next : ConnState) : Conn × Option Frame :=
  ({ c with state := next },
    some (.fin (c.segment c.sendNext c.recvNext { Flags.none with fin := true, ack := true } [])))

/-- `try_send`. -/
def trySend (c : Conn) : Conn × Option Frame :=
  if c.unackedSegment.isSome ∨ ¬ (c.state = .established ∨ c.state = .closeWait) then (c, none)
  else if c.sendBuf = [] then
    match c.finPending with
    | none => (c, none)
    | some next => { c with finPending := none }.sendFinAndTransition next
  else
    ({ c with sendBuf := c.sendBuf.drop mss },
      some (.chunk (c.segment c.sendNext c.recvNext { Flags.none with psh := true, ack := true }
        (c.sendBuf.take mss))))

/-- `close_sending`. -/
def closeSending (c : Conn) (next : ConnState) : Conn × Option Frame :=
  if c.sendBuf = [] ∧ c.unackedSegment = none then c.sendFinAndTransition next
  else ({ c with finPending := some next }, none)

/-- The call that transmitted `frame` goes on; `ok` says whether it was sent. -/
def transmitted (c : Conn) (ok : Bool) (now : Nat) : Frame → Next
  | .plain _ => .goOn c none
  | .answer _ => .goOn c.trySend.1 c.trySend.2
  | .chunk seg =>
    if ok then
      .goOn { c.track seg now with sendNext := seg.seq + UInt32.ofNat seg.data.length } none
    else .goOn { c with sendBuf := seg.data ++ c.sendBuf } none
  | .fin seg =>
    let c := if ok then c.track seg now else c
    .goOn { c with sendNext := seg.seq + 1 } none
  | .syn seg connect =>
    if ok then .goOn (c.track seg now) none
    else if connect then .down none
    else .goOn c none

/-- `retransmit_or_give_up`. -/
def retransmitOrGiveUp (c : Conn) (now : Nat) : Next :=
  let c := { c with retransmitCount := c.retransmitCount + 1 }
  if maxRetransmits < c.retransmitCount then .down (some ETIMEDOUT)
  else
    .goOn { c with retransmitDeadline := some (now + retransmitTicks) }
      (c.unackedSegment.map Frame.plain)

/-! ## Receiving -/

/-- All that was sent is acknowledged. -/
def acked (c : Conn) : Conn :=
  { c with sendUnacked := c.sendNext, unackedSegment := none, retransmitDeadline := none }

/-- `handle_syn_sent`. -/
def handleSynSent (c : Conn) (seg : Segment) : Conn × Option Frame :=
  if ¬ seg.flags.syn ∨ ¬ seg.flags.ack ∨ seg.ack ≠ c.sendNext then (c, none)
  else
    let c := { c.acked with recvNext := seg.seq + 1, state := .established }
    (c, some (.plain (c.segment c.sendNext c.recvNext { Flags.none with ack := true } [])))

/-- `handle_syn_received`. -/
def handleSynReceived (c : Conn) (seg : Segment) : Conn :=
  if ¬ seg.flags.ack ∨ seg.ack ≠ c.sendNext then c
  else { c.acked with state := .established }

/-- An acknowledgement is taken only if it acknowledges all that was sent. -/
def takeAck (c : Conn) (seg : Segment) : Conn :=
  if seg.flags.ack ∧ seg.ack ≠ c.sendUnacked ∧ seg.ack = c.sendNext then
    { c.acked with
      retransmitCount := 0
      state := if c.state = .finWait1 then .finWait2 else c.state }
  else c

/-- Data is taken only if it is the next, and as much as there is room for. -/
def takeData (c : Conn) (seg : Segment) : Conn :=
  if seg.data ≠ [] ∧ seg.seq = c.recvNext then
    let take := min seg.data.length (maxRecvBuf - c.recvBuf.length)
    { c with
      recvBuf := c.recvBuf ++ seg.data.take take
      recvNext := c.recvNext + UInt32.ofNat take }
  else c

/-- The segment has a FIN, which is the next to be received. -/
def finSeen (c : Conn) (seg : Segment) : Bool :=
  seg.flags.fin ∧ seg.seq + UInt32.ofNat seg.data.length = c.recvNext

/-- The state after the peer's FIN. -/
def finState : ConnState → ConnState
  | .established => .closeWait
  | .finWait1 | .finWait2 => .closed
  | other => other

def takeFin (c : Conn) (seg : Segment) : Conn :=
  if c.finSeen seg then { c with recvNext := c.recvNext + 1, state := finState c.state } else c

/-- `process_established`. -/
def processEstablished (c : Conn) (seg : Segment) : Conn × Option Frame :=
  let c := (c.takeAck seg).takeData seg
  let fin := c.finSeen seg
  let c := c.takeFin seg
  if seg.data ≠ [] ∨ fin then
    (c, some (.answer (c.segment c.sendNext c.recvNext { Flags.none with ack := true } [])))
  else c.trySend

/-- `handle_for_connection`. -/
def handleForConnection (c : Conn) (seg : Segment) : Next :=
  if seg.flags.rst then
    .down (some (if c.state = .synSent then ECONNREFUSED else ECONNRESET))
  else
    match c.state with
    | .synSent => .goOn (c.handleSynSent seg).1 (c.handleSynSent seg).2
    | .synReceived => .goOn (c.handleSynReceived seg) none
    | .established | .finWait1 | .finWait2 | .closeWait =>
      .goOn (c.processEstablished seg).1 (c.processEstablished seg).2
    | .lastAck => if seg.flags.ack then .down none else .goOn c none
    | .closed => .goOn c none

/-! ## The calls of the socket layer -/

/-- The connection of `connect`, and its SYN. -/
def connect (key : Key) (isn : UInt32) : Conn × Frame :=
  let c : Conn := ⟨.synSent, key, isn + 1, isn, 0, [], [], none, none, 0, false, none⟩
  (c, .syn (c.segment isn 0 { Flags.none with syn := true } []) true)

/-- The connection of `handle_new_syn`, and its SYN and ACK. -/
def handleNewSyn (key : Key) (isn theirSeq : UInt32) : Conn × Frame :=
  let c : Conn :=
    ⟨.synReceived, key, isn + 1, isn, theirSeq + 1, [], [], none, none, 0, false, none⟩
  (c, .syn (c.segment isn (theirSeq + 1) { Flags.none with syn := true, ack := true } []) false)

/-- `send`, which accepts all of `data`. -/
def send (c : Conn) (data : List UInt8) : Except Nat (Conn × Option Frame) :=
  if c.finPending.isSome then .error EPIPE
  else
    match c.state with
    | .established | .closeWait => .ok { c with sendBuf := c.sendBuf ++ data }.trySend
    | .synSent | .synReceived => .error ENOTCONN
    | _ => .error EPIPE

/-- `recv`, with a buffer of `len` bytes. -/
def recv (c : Conn) (len : Nat) (peek : Bool) : Except Nat (List UInt8 × Conn) :=
  if c.rdShut then .ok ([], c)
  else
    let n := min c.recvBuf.length len
    if 0 < n then
      .ok (c.recvBuf.take n, if peek then c else { c with recvBuf := c.recvBuf.drop n })
    else if c.state = .closeWait ∨ c.state = .finWait2 ∨ c.state = .closed then .ok ([], c)
    else .error EAGAIN

/-- `shutdown`; `how` is 0 for `SHUT_RD`, 1 for `SHUT_WR` and 2 for `SHUT_RDWR`. -/
def shutdown (c : Conn) (how : Int) : Conn × Option Frame :=
  let c := if how ≠ 1 then { c with rdShut := true } else c
  if how ≠ 0 then
    match c.state with
    | .established => c.closeSending .finWait1
    | .closeWait => c.closeSending .lastAck
    | _ => (c, none)
  else (c, none)

/-- `detach`, of a connection. -/
def detach (c : Conn) : Next :=
  match c.state with
  | .established => .goOn (c.closeSending .finWait1).1 (c.closeSending .finWait1).2
  | .closeWait => .goOn (c.closeSending .lastAck).1 (c.closeSending .lastAck).2
  | _ => .down none

end Conn

end OxideBSD.Tcp
