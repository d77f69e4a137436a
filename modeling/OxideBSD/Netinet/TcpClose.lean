import OxideBSD.Lib.Machine
import OxideBSD.Netinet.Tcp

/-!
# How a TCP connection ends

One connection, from its SYN on, with any segments coming in and any calls of its socket; the calls
that wait in the middle of a transmission are on a stack.  For the record: whether the peer's FIN has
been received, the number of the FIN handed to the network and whether it has been acknowledged, why
the connection is gone, and what it was then.

A connection that is torn down takes its receive buffer with it.  The socket stays: a reset or a
timeout leaves an error in `errors`, which the next call of the socket reports, once, and `recv` on a
socket without a connection and without an error returns nothing, as at the end of the stream.

* `Exact`: `recv` returns nothing just if all has been read and the peer has finished.
* `exact_iff`: in which states that is so.  **It is not so** in `finWait2`, which `recv` takes for the
  end although only this side has finished, and once the last acknowledgement has removed a
  connection with data unread (`halfClosed_not_exact`); in `lastAck` `recv` waits although the peer
  has finished.
-/

set_option autoImplicit false

namespace OxideBSD.Tcp

/-! ## The machine -/

/-- Why a connection is gone. -/
inductive Removal
  | normal
  | reset
  | timeout
  /-- It was never established. -/
  | abandoned
  deriving DecidableEq, Repr

/-- A socket and its connection. -/
structure St where
  conn : Option Conn
  /-- The socket's entry in `errors`. -/
  error : Option Nat
  /-- The transmissions under way, the innermost call's first. -/
  stack : List Frame
  /-- The socket is closed. -/
  detached : Bool
  /-- For the record: the peer's FIN has been received in sequence. -/
  peerFin : Bool
  /-- For the record: the number of the FIN handed to the network. -/
  finSeq : Option UInt32
  /-- For the record: it has been acknowledged. -/
  finAcked : Bool
  /-- For the record: why the connection is gone, and what it was. -/
  removed : Option Removal
  gone : Option Conn
  deriving DecidableEq, Repr

inductive Event
  | segment (seg : Segment)
  /-- The deadline for an acknowledgement passes. -/
  | tick (now : Nat)
  /-- The innermost transmission is over. -/
  | sent (ok : Bool) (now : Nat)
  | send (data : List UInt8)
  | recv (len : Nat) (peek : Bool)
  | shutdown (how : Int)
  /-- `take_error` (`SO_ERROR`), and `connect_result` of a connection that is gone. -/
  | takeError
  | close

namespace Conn

/-- The segment has the peer's FIN, in sequence, and the connection can receive it. -/
def receivesFin (c : Conn) (seg : Segment) : Bool :=
  ¬ seg.flags.rst ∧
    (c.state = .established ∨ c.state = .finWait1 ∨ c.state = .finWait2 ∨ c.state = .closeWait) ∧
    ((c.takeAck seg).takeData seg).finSeen seg

/-- The segment acknowledges the FIN number `fin`, which has been sent. -/
def acksFin (c : Conn) (fin : Option UInt32) (seg : Segment) : Bool :=
  ¬ seg.flags.rst ∧ seg.flags.ack ∧ fin = some (seg.ack - 1) ∧ seg.ack = c.sendNext

end Conn

namespace St

/-- A connection with its first segment under way. -/
def start (open' : Conn × Frame) : St :=
  ⟨some open'.1, none, [open'.2], false, false, none, false, none, none⟩

/-- The number of the FIN handed to the network, if it is transmitted now. -/
def finOf (fin : Option UInt32) : Option Frame → Option UInt32
  | some (.fin seg) => some seg.seq
  | _ => fin

/-- Where a call has got to. -/
def goOn (s : St) (why : Removal) : Next → St
  | .goOn c frame =>
    { s with
      conn := some c
      stack := frame.toList ++ s.stack
      finSeq := finOf s.finSeq frame }
  | .down error =>
    { s with conn := none, error := error.or s.error, removed := some why, gone := s.conn }

/-- The segment `seg` comes in. -/
def receive (s : St) (c : Conn) (seg : Segment) : St :=
  { s with
    peerFin := s.peerFin || c.receivesFin seg
    finAcked := s.finAcked || c.acksFin s.finSeq seg }.goOn
    (if seg.flags.rst then .reset else .normal) (c.handleForConnection seg)

/-- The socket is closed: its error goes too. -/
def close (s : St) (c : Conn) : St :=
  { s with detached := true, error := none }.goOn
    (if c.state = ConnState.synSent ∨ c.state = ConnState.synReceived then .abandoned else .normal)
    c.detach

/-- A step of the connection, if there is one, and of the socket without one. -/
def on (s gone : St) (f : Conn → St) : St :=
  match s.conn with
  | none => gone
  | some c => f c

/-- A call of the socket layer: only one is under way, and none once the socket is closed. -/
def call (s s' : St) : Option St := if s.stack ≠ [] ∨ s.detached then none else some s'

/-- `recv` of the socket.  Without a connection it is the error that is left, once, and then
nothing. -/
def recv (s : St) (len : Nat) (peek : Bool) : Except Nat (List UInt8) × St :=
  match s.conn with
  | none => (s.error.elim (.ok []) .error, { s with error := none })
  | some c =>
    match c.recv len peek with
    | .error e => (.error e, s)
    | .ok (data, c) => (.ok data, s.goOn .normal (.goOn c none))

def step (s : St) : Event → Option St
  | .segment seg => some (s.on s fun c ↦ s.receive c seg)
  | .tick now => some (s.on s fun c ↦
      if c.retransmitDeadline.any (· ≤ now) then s.goOn .timeout (c.retransmitOrGiveUp now) else s)
  | .sent ok now =>
    match s.stack with
    | [] => none
    | frame :: stack =>
      let s := { s with stack := stack }
      some (s.on s fun c ↦ s.goOn .abandoned (c.transmitted ok now frame))
  | .send data => s.call (s.on { s with error := none } fun c ↦
      match c.send data with
      | .error _ => s
      | .ok (c, frame) => s.goOn .normal (.goOn c frame))
  | .recv len peek => s.call (s.recv len peek).2
  | .shutdown how => s.call (s.on s fun c ↦
      s.goOn .normal (.goOn (c.shutdown how).1 (c.shutdown how).2))
  | .takeError => s.call { s with error := none }
  | .close => s.call (s.on { s with detached := true, error := none } s.close)

/-- What has been received and not read, the connection gone or not. -/
def unread (s : St) : List UInt8 := (s.conn.or s.gone).elim [] Conn.recvBuf

/-- This side has shut down reading. -/
def rdShut (s : St) : Bool := (s.conn.or s.gone).any Conn.rdShut

end St

/-- A connection that this side opens, or the peer. -/
inductive Starts : St → Prop
  | connect (key : Key) (isn : UInt32) : Starts (.start (Conn.connect key isn))
  | newSyn (key : Key) (isn theirSeq : UInt32) :
    Starts (.start (Conn.handleNewSyn key isn theirSeq))

/-! ## The end of the stream -/

/-- The peer has finished and all it sent has been read, or this side reads no more. -/
def St.AtEnd (s : St) : Prop := s.unread = [] ∧ s.peerFin = true ∨ s.rdShut = true

/-- **The end of the stream**: `recv` returns nothing just if there is nothing more to come, and then
it does not wait. -/
def Exact (s : St) : Prop :=
  ∀ len peek, 0 < len →
    ((s.recv len peek).1 = .ok [] ↔ s.AtEnd) ∧
    (s.peerFin = true → (s.recv len peek).1 ≠ .error EAGAIN)

/-- The condition: on the state of a connection, and once it is gone, that there is an error left to
report just if there is more to come. -/
def Sure (s : St) : Prop :=
  match s.conn with
  | none => s.error.isSome ↔ ¬ s.AtEnd
  | some c => c.rdShut = true ∨ c.recvBuf ≠ [] ∨
    match c.state with
    | .lastAck => False
    | .finWait1 => s.peerFin = false
    | .finWait2 => s.peerFin = true
    | _ => True

/-- Whether the peer has finished, where the state says so. -/
def ConnState.peerFin : ConnState → Option Bool
  | .synSent | .synReceived | .established => some false
  | .closeWait | .lastAck | .closed => some true
  | .finWait1 | .finWait2 => none

/-- The connection knows whether the peer has finished, as far as its state says so. -/
structure Conn.Knows (c : Conn) (peerFin : Bool) : Prop where
  state : ∀ b, c.state.peerFin = some b → peerFin = b
  pending : ∀ next, c.finPending = some next →
    next = .finWait1 ∨ next = .lastAck ∧ peerFin = true

section Knows

variable {c : Conn} {p : Bool}

theorem Conn.Knows.congr {c' : Conn} (h : c.Knows p) (hstate : c'.state = c.state)
    (hpending : c'.finPending = c.finPending) : c'.Knows p :=
  ⟨hstate ▸ h.state, hpending ▸ h.pending⟩

theorem knows_sendFin (h : c.Knows p) {next : ConnState}
    (hnext : next = .finWait1 ∨ next = .lastAck ∧ p = true) :
    (c.sendFinAndTransition next).1.Knows p := by
  refine ⟨fun b hb ↦ ?_, h.pending⟩
  rcases hnext with rfl | ⟨rfl, rfl⟩
  · cases hb
  · cases hb
    rfl

theorem knows_trySend (h : c.Knows p) : c.trySend.1.Knows p := by
  rw [Conn.trySend]
  split_ifs
  · exact h
  · split
    · exact h
    next next hnext =>
      have hnone : { c with finPending := none }.Knows p := ⟨h.state, nofun⟩
      exact knows_sendFin hnone (h.pending next hnext)
  · exact h.congr rfl rfl

theorem knows_closeSending (h : c.Knows p) {next : ConnState}
    (hnext : next = .finWait1 ∨ next = .lastAck ∧ p = true) :
    (c.closeSending next).1.Knows p := by
  rw [Conn.closeSending]
  split_ifs
  · exact knows_sendFin h hnext
  · refine ⟨h.state, fun next' hnext' ↦ ?_⟩
    cases hnext'
    exact hnext

theorem takeAck_state (c : Conn) (seg : Segment) : (c.takeAck seg).finPending = c.finPending ∧
    ((c.takeAck seg).state = c.state ∨
      c.state = .finWait1 ∧ (c.takeAck seg).state = .finWait2) := by
  rw [Conn.takeAck]
  split_ifs with hack hfin
  · exact ⟨rfl, .inr ⟨hfin, rfl⟩⟩
  · exact ⟨rfl, .inl rfl⟩
  · exact ⟨rfl, .inl rfl⟩

theorem takeData_state (c : Conn) (seg : Segment) :
    (c.takeData seg).finPending = c.finPending ∧ (c.takeData seg).state = c.state := by
  rw [Conn.takeData]
  split_ifs
  · exact ⟨rfl, rfl⟩
  · exact ⟨rfl, rfl⟩

theorem knows_takeAck (h : c.Knows p) (seg : Segment) : (c.takeAck seg).Knows p := by
  obtain ⟨hpending, hstate | ⟨-, hstate⟩⟩ := takeAck_state c seg
  · exact h.congr hstate hpending
  · refine ⟨fun b hb ↦ ?_, hpending ▸ h.pending⟩
    rw [hstate] at hb
    cases hb

theorem knows_takeData (h : c.Knows p) (seg : Segment) : (c.takeData seg).Knows p :=
  h.congr (takeData_state c seg).2 (takeData_state c seg).1

theorem knows_takeFin (h : c.Knows p) (seg : Segment)
    (hstate : c.state = .established ∨ c.state = .finWait1 ∨ c.state = .finWait2 ∨
      c.state = .closeWait) : (c.takeFin seg).Knows (p || c.finSeen seg) := by
  rw [Conn.takeFin]
  by_cases hfin : c.finSeen seg = true
  · rw [hfin, Bool.or_true]
    refine ⟨fun b hb ↦ ?_, fun next hnext ↦ (h.pending next hnext).imp_right (.imp_right fun _ ↦ rfl)⟩
    rcases hstate with hstate | hstate | hstate | hstate <;>
      · rw [hstate] at hb
        exact Option.some.inj hb
  · rw [Bool.eq_false_of_not_eq_true hfin, Bool.or_false]
    exact h

theorem knows_processEstablished (h : c.Knows p) {seg : Segment}
    (hstate : c.state = .established ∨ c.state = .finWait1 ∨ c.state = .finWait2 ∨
      c.state = .closeWait) :
    (c.processEstablished seg).1.Knows
      (p || ((c.takeAck seg).takeData seg).finSeen seg) := by
  have hstate' : ((c.takeAck seg).takeData seg).state = .established ∨
      ((c.takeAck seg).takeData seg).state = .finWait1 ∨
      ((c.takeAck seg).takeData seg).state = .finWait2 ∨
      ((c.takeAck seg).takeData seg).state = .closeWait := by
    rw [(takeData_state _ seg).2]
    rcases (takeAck_state c seg).2 with hsame | ⟨-, hfin⟩
    · rwa [hsame]
    · exact .inr (.inr (.inl hfin))
  have hfin := knows_takeFin (knows_takeData (knows_takeAck h seg) seg) seg hstate'
  rw [Conn.processEstablished]
  split_ifs
  · exact hfin
  · exact knows_trySend hfin

/-- What holds of the connection, if it is still there; if not, the error left is not the one of a
call that would wait. -/
def Next.All (next : Next) (P : Conn → Prop) : Prop :=
  match next with
  | .goOn c _ => P c
  | .down error => error ≠ some EAGAIN

theorem knows_handle (h : c.Knows p) (seg : Segment) :
    (c.handleForConnection seg).All fun c' ↦ c'.Knows (p || c.receivesFin seg) := by
  rw [Conn.handleForConnection]
  by_cases hrst : seg.flags.rst = true
  · rw [if_pos hrst]
    show some _ ≠ some EAGAIN
    split_ifs <;> decide
  rw [if_neg hrst, Conn.receivesFin]
  cases hstate : c.state with
  | synSent =>
    simp only [reduceCtorEq, or_self, false_and, and_false, decide_false, Bool.or_false]
    rw [Conn.handleSynSent]
    split_ifs
    · exact h
    · exact ⟨fun b hb ↦ h.state b (by rw [hstate]; exact hb), h.pending⟩
  | synReceived =>
    simp only [reduceCtorEq, or_self, false_and, and_false, decide_false, Bool.or_false]
    rw [Conn.handleSynReceived]
    split_ifs
    · exact h
    · exact ⟨fun b hb ↦ h.state b (by rw [hstate]; exact hb), h.pending⟩
  | established | finWait1 | finWait2 | closeWait =>
    simp only [hrst, reduceCtorEq, or_true, or_false, true_and, not_false_eq_true,
      Bool.decide_eq_true]
    exact knows_processEstablished h (by simp [hstate])
  | lastAck =>
    simp only [reduceCtorEq, or_self, false_and, and_false, decide_false, Bool.or_false]
    split_ifs
    · exact nofun
    · exact h
  | closed =>
    simp only [reduceCtorEq, or_self, false_and, and_false, decide_false, Bool.or_false]
    exact h

theorem knows_transmitted (h : c.Knows p) (ok : Bool) (now : Nat) (frame : Frame) :
    (c.transmitted ok now frame).All fun c' ↦ c'.Knows p := by
  cases frame with
  | plain seg => exact h
  | answer seg => exact knows_trySend h
  | chunk seg => cases ok <;> exact h.congr rfl rfl
  | fin seg => cases ok <;> exact h.congr rfl rfl
  | syn seg connect =>
    cases ok with
    | true => exact h.congr rfl rfl
    | false =>
      cases connect with
      | true => exact nofun
      | false => exact h

theorem knows_retransmit (h : c.Knows p) (now : Nat) :
    (c.retransmitOrGiveUp now).All fun c' ↦ c'.Knows p := by
  rw [Conn.retransmitOrGiveUp]
  split_ifs
  · show some ETIMEDOUT ≠ some EAGAIN
    decide
  · exact h.congr rfl rfl

theorem send_spec {data : List UInt8} {r : Conn × Option Frame} (h : c.send data = .ok r) :
    (c.state = .established ∨ c.state = .closeWait) ∧ c.finPending = none ∧
      r = { c with sendBuf := c.sendBuf ++ data }.trySend := by
  rw [Conn.send] at h
  split_ifs at h with hpending
  have hnone := Option.not_isSome_iff_eq_none.1 hpending
  split at h
  next hstate => exact ⟨.inl hstate, hnone, (Except.ok.inj h).symm⟩
  next hstate => exact ⟨.inr hstate, hnone, (Except.ok.inj h).symm⟩
  all_goals cases h

theorem knows_send (h : c.Knows p) {data : List UInt8} {r : Conn × Option Frame}
    (hsend : c.send data = .ok r) : r.1.Knows p := by
  obtain ⟨-, -, rfl⟩ := send_spec hsend
  have hbuf : { c with sendBuf := c.sendBuf ++ data }.Knows p := h.congr rfl rfl
  exact knows_trySend hbuf

theorem knows_recv (h : c.Knows p) {len : Nat} {peek : Bool} {data : List UInt8} {c' : Conn}
    (hrecv : c.recv len peek = .ok (data, c')) : c'.Knows p := by
  simp only [Conn.recv] at hrecv
  split_ifs at hrecv <;> cases hrecv
  · exact h
  · exact h
  · exact h.congr rfl rfl
  · exact h

theorem knows_shutdown (h : c.Knows p) (how : Int) : (c.shutdown how).1.Knows p := by
  rw [Conn.shutdown]
  have hrd : (if how ≠ 1 then { c with rdShut := true } else c).Knows p := by
    split_ifs
    · exact h.congr rfl rfl
    · exact h
  generalize (if how ≠ 1 then { c with rdShut := true } else c) = c' at hrd
  split_ifs
  · split
    · exact knows_closeSending hrd (.inl rfl)
    next hstate => exact knows_closeSending hrd (.inr ⟨rfl, hrd.state true (by rw [hstate]; rfl)⟩)
    · exact hrd
  · exact hrd

theorem knows_detach (h : c.Knows p) : c.detach.All fun c' ↦ c'.Knows p := by
  rw [Conn.detach]
  split
  · exact knows_closeSending h (.inl rfl)
  next hstate => exact knows_closeSending h (.inr ⟨rfl, h.state true (by rw [hstate]; rfl)⟩)
  · exact nofun

end Knows

/-! ### Every run -/

/-- The invariant. -/
structure St.Knows (s : St) : Prop where
  conn : ∀ c, s.conn = some c → c.Knows s.peerFin
  error : s.error ≠ some EAGAIN

section Run

variable {s s' gone : St} {c : Conn}

theorem St.Knows.goOn {next : Next} (hs : s.error ≠ some EAGAIN)
    (h : next.All fun c ↦ c.Knows s.peerFin) (why : Removal) : (s.goOn why next).Knows := by
  cases next with
  | goOn c frame =>
    refine ⟨?_, hs⟩
    rintro c' ⟨⟩
    exact h
  | down error =>
    constructor
    · rintro c' ⟨⟩
    · cases error with
      | none => exact hs
      | some e => exact h

theorem St.Knows.put {frame : Option Frame} (hs : s.error ≠ some EAGAIN) (h : c.Knows s.peerFin) :
    (s.goOn .normal (.goOn c frame)).Knows := by
  refine ⟨?_, hs⟩
  rintro c' ⟨⟩
  exact h

theorem St.Knows.quiet (h : s.Knows) : { s with error := none }.Knows := ⟨h.conn, nofun⟩

theorem St.Knows.on {f : Conn → St} (h : s.Knows) (hgone : gone.Knows)
    (hf : ∀ c, s.conn = some c → c.Knows s.peerFin → (f c).Knows) : (s.on gone f).Knows := by
  rw [St.on]
  split
  · exact hgone
  next c hc => exact hf c hc (h.conn c hc)

/-- A call of the socket layer is made while no other one is under way. -/
theorem of_call {t : St} (h : s.call t = some s') :
    s.stack = [] ∧ s.detached = false ∧ s' = t := by
  rw [St.call] at h
  split_ifs at h with hbusy
  rw [not_or, not_not] at hbusy
  exact ⟨hbusy.1, Bool.eq_false_of_not_eq_true hbusy.2, (Option.some.inj h).symm⟩

/-- What `recv` does to the socket. -/
theorem recv_snd (s : St) (len : Nat) (peek : Bool) : (s.recv len peek).2 =
    s.on { s with error := none } fun c ↦
      match c.recv len peek with
      | .error _ => s
      | .ok (_, c) => s.goOn .normal (.goOn c none) := by
  rw [St.recv, St.on]
  split
  · rfl
  · split <;> rfl

theorem step_knows {e : Event} (h : s.Knows) (hstep : s.step e = some s') : s'.Knows := by
  cases e with
  | segment seg =>
    cases hstep
    refine h.on h fun c _ hc ↦ ?_
    refine .goOn ?_ (knows_handle hc seg) _
    exact h.error
  | tick now =>
    cases hstep
    refine h.on h fun c _ hc ↦ ?_
    split_ifs
    · exact .goOn h.error (knows_retransmit hc now) _
    · exact h
  | sent ok now =>
    simp only [St.step] at hstep
    split at hstep
    · cases hstep
    next frame stack _ =>
      cases hstep
      have hpop : { s with stack := stack }.Knows := ⟨h.conn, h.error⟩
      exact hpop.on hpop fun c _ hc ↦ .goOn hpop.error (knows_transmitted hc ok now frame) _
  | send data =>
    obtain ⟨-, -, rfl⟩ := of_call hstep
    refine h.on h.quiet fun c _ hc ↦ ?_
    split
    · exact h
    next hsend => exact .put h.error (knows_send hc hsend)
  | recv len peek =>
    obtain ⟨-, -, rfl⟩ := of_call hstep
    rw [recv_snd]
    refine h.on h.quiet fun c _ hc ↦ ?_
    split
    · exact h
    next hrecv => exact .put h.error (knows_recv hc hrecv)
  | shutdown how =>
    obtain ⟨-, -, rfl⟩ := of_call hstep
    exact h.on h fun c _ hc ↦ .put h.error (knows_shutdown hc how)
  | takeError =>
    obtain ⟨-, -, rfl⟩ := of_call hstep
    exact h.quiet
  | close =>
    obtain ⟨-, -, rfl⟩ := of_call hstep
    have hclosed : { s with detached := true, error := none }.Knows := ⟨h.conn, nofun⟩
    refine h.on hclosed fun c _ hc ↦ ?_
    exact .goOn hclosed.error (knows_detach hc) _

theorem knows_start (h : Starts s) : s.Knows := by
  cases h with
  | connect key isn =>
    refine ⟨?_, nofun⟩
    rintro c ⟨⟩
    exact ⟨fun b hb ↦ Option.some.inj hb, nofun⟩
  | newSyn key isn theirSeq =>
    refine ⟨?_, nofun⟩
    rintro c ⟨⟩
    exact ⟨fun b hb ↦ Option.some.inj hb, nofun⟩

theorem recv_fst (hc : s.conn = some c) (len : Nat) (peek : Bool) :
    (s.recv len peek).1 = (c.recv len peek).map Prod.fst := by
  rw [St.recv, hc]
  dsimp only
  cases c.recv len peek <;> rfl

theorem atEnd_iff (hc : s.conn = some c) :
    s.AtEnd ↔ c.recvBuf = [] ∧ s.peerFin = true ∨ c.rdShut = true := by
  rw [St.AtEnd, St.unread, St.rdShut, hc]
  rfl

/-- What `recv` says when there is nothing to read. -/
theorem exact_of_nil (hc : s.conn = some c) (hrd : c.rdShut = false) (hbuf : c.recvBuf = []) :
    Exact s ↔
      (c.state = .closeWait ∨ c.state = .finWait2 ∨ c.state = .closed ↔ s.peerFin = true) := by
  have hrecv (len : Nat) (peek : Bool) : (s.recv len peek).1 =
      if c.state = .closeWait ∨ c.state = .finWait2 ∨ c.state = .closed then .ok []
      else .error EAGAIN := by
    have hnil : c.recv len peek =
        if c.state = .closeWait ∨ c.state = .finWait2 ∨ c.state = .closed then .ok ([], c)
        else .error EAGAIN := by
      simp [Conn.recv, hrd, hbuf]
    rw [recv_fst hc, hnil]
    split_ifs <;> rfl
  have hend : s.AtEnd ↔ s.peerFin = true := by
    rw [atEnd_iff hc]
    simp [hrd, hbuf]
  constructor
  · intro h
    have hone := (h 1 false Nat.one_pos).1
    rw [hrecv, hend] at hone
    rw [← hone]
    split_ifs with hstate
    · simp [hstate]
    · simp [hstate]
  · intro hiff len peek _
    rw [hrecv, hend, ← hiff]
    split_ifs with hstate
    · simp [hstate]
    · simp [hstate]

theorem exact_of_data (hc : s.conn = some c) (hrd : c.rdShut = false) (hbuf : c.recvBuf ≠ []) :
    Exact s := by
  intro len peek hlen
  have hn : 0 < min c.recvBuf.length len := Nat.lt_min.2 ⟨List.length_pos_iff.2 hbuf, hlen⟩
  have hne := Nat.pos_iff_ne_zero.1 hlen
  rw [recv_fst hc, atEnd_iff hc, Conn.recv]
  simp [hrd, hbuf, hn, hne, Except.map]

theorem exact_of_rdShut (hc : s.conn = some c) (hrd : c.rdShut = true) : Exact s := by
  intro len peek _
  rw [recv_fst hc, atEnd_iff hc]
  simp [Conn.recv, hrd, Except.map]

/-- Once the connection is gone, the error that is left decides. -/
theorem exact_of_gone (hc : s.conn = none) (herror : s.error ≠ some EAGAIN) :
    Exact s ↔ (s.error.isSome ↔ ¬ s.AtEnd) := by
  have hrecv (len : Nat) (peek : Bool) : (s.recv len peek).1 = s.error.elim (.ok []) .error := by
    rw [St.recv, hc]
  constructor
  · intro h
    have hone := (h 1 false Nat.one_pos).1
    rw [hrecv] at hone
    rw [← hone]
    cases s.error <;> simp
  · intro hiff len peek _
    rw [hrecv]
    cases he : s.error with
    | none => simpa [he] using hiff
    | some e =>
      rw [he] at herror
      have hmore : ¬ s.AtEnd := by simpa [he] using hiff
      simpa [hmore] using fun _ heq ↦ herror (congrArg some heq)

/-- **When the end of the stream is told exactly**: in every state that a socket's connection and,
once it is gone, the socket reaches. -/
theorem exact_iff {s₀ : St} {es : List Event} (hstart : Starts s₀)
    (hrun : Machine.run St.step s₀ es = some s) : Exact s ↔ Sure s := by
  have hknows := Machine.run_keeps (fun _ _ _ ↦ step_knows) (knows_start hstart) hrun
  rw [Sure]
  cases hc : s.conn with
  | none => exact exact_of_gone hc hknows.error
  | some c =>
    dsimp only
    by_cases hrd : c.rdShut = true
    · exact ⟨fun _ ↦ .inl hrd, fun _ ↦ exact_of_rdShut hc hrd⟩
    have hrd' := Bool.eq_false_of_not_eq_true hrd
    by_cases hbuf : c.recvBuf = []
    swap
    · exact ⟨fun _ ↦ .inr (.inl hbuf), fun _ ↦ exact_of_data hc hrd' hbuf⟩
    rw [exact_of_nil hc hrd' hbuf]
    have hstate := (hknows.conn c hc).state
    cases hs : c.state <;> simp [hs, ConnState.peerFin, hrd', hbuf] at hstate ⊢ <;> simp [← hstate]

end Run

/-! ### Two runs -/

/-- A segment with the flag ACK, and maybe FIN. -/
def reply (seq ack : UInt32) (fin : Bool) : Segment :=
  ⟨seq, ack, { Flags.none with fin := fin, ack := true }, 0, []⟩

/-- The segment that answers the SYN of a connection with initial number 0. -/
def synAck : Segment := ⟨100, 1, { Flags.none with syn := true, ack := true }, 0, []⟩

/-- A connection is made. -/
def opened : List Event := [.sent true 0, .segment synAck, .sent true 0]

/-- It sends a FIN, which is acknowledged. -/
def halfClosed : List Event :=
  opened ++ [.shutdown 1, .sent true 0, .segment (reply 101 2 false)]

def someKey : Key := ⟨0x0a00020f, 49152, 0x0a000202, 80⟩

/-- The peer sends a byte and its FIN, this side a FIN that is acknowledged, and nothing is read. -/
def unreadAtEnd : List Event :=
  opened ++ [.segment { reply 101 1 true with data := [7] }, .sent true 0, .shutdown 1, .sent true 0,
    .segment (reply 103 2 false)]

/-- **This side has finished, not the peer**, and `recv` returns nothing; and a connection is removed
with a byte unread, and `recv` returns nothing then, either. -/
theorem halfClosed_not_exact :
    (∃ s, Machine.run St.step (.start (Conn.connect someKey 0)) halfClosed = some s ∧
      s.conn.isSome ∧ s.peerFin = false ∧ ¬ Exact s) ∧
    ∃ s, Machine.run St.step (.start (Conn.connect someKey 0)) unreadAtEnd = some s ∧
      s.conn = none ∧ s.unread = [7] ∧ ¬ Exact s := by
  constructor
  · refine Machine.exists_run_of (fun s ↦ s.peerFin = false ∧
      s.conn.any (fun c ↦ c.state = .finWait2 ∧ c.rdShut = false ∧ c.recvBuf = []) = true)
      (by decide +kernel) fun s _ ⟨hfin, hany⟩ ↦ ?_
    obtain ⟨c, hc, hall⟩ := (Option.any_eq_true _ _).1 hany
    obtain ⟨hstate, hrd, hbuf⟩ := of_decide_eq_true hall
    refine ⟨by rw [hc]; rfl, hfin, fun h ↦ ?_⟩
    rw [exact_of_nil hc hrd hbuf, hfin] at h
    exact absurd (h.1 (.inr (.inl hstate))) Bool.false_ne_true
  · refine Machine.exists_run_of
      (fun s ↦ s.conn = none ∧ s.unread = [7] ∧ s.rdShut = false ∧ s.error = none)
      (by decide +kernel) fun s _ ⟨hc, hunread, hrd, herror⟩ ↦ ⟨hc, hunread, fun h ↦ ?_⟩
    rw [exact_of_gone hc (by rw [herror]; nofun)] at h
    simp [herror, St.AtEnd, hunread, hrd] at h

/-- The peer has finished, and this side has not. -/
def peerClosed : List Event := opened ++ [.segment (reply 101 1 true)]

theorem exact_iff_peerClosed : ∃ s c,
    Machine.run St.step (.start (Conn.connect someKey 0)) peerClosed = some s ∧
    s.conn = some c ∧ s.peerFin = true ∧ Exact s := by
  obtain ⟨s, hrun, hfin, hstate⟩ : ∃ s,
      Machine.run St.step (.start (Conn.connect someKey 0)) peerClosed = some s ∧
        s.peerFin = true ∧ s.conn.map Conn.state = some .closeWait :=
    Machine.exists_run _ (by decide +kernel)
  obtain ⟨c, hc, hstate⟩ := Option.map_eq_some_iff.1 hstate
  refine ⟨s, c, hrun, hc, hfin, (exact_iff (.connect someKey 0) hrun).2 ?_⟩
  rw [Sure, hc]
  dsimp only
  rw [hstate]
  exact .inr (.inr trivial)

end OxideBSD.Tcp
