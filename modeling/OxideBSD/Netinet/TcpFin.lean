import OxideBSD.Netinet.TcpClose

/-!
# The FINs of a TCP connection

The state of a connection against the record of its two FINs (`Netinet.TcpClose`).

* `rfcState`: the state of RFC 793 for what has become of the FINs.
* `Closing`: the connection is in that state, and is removed in the normal way only once both sides
  have finished and the FIN of this side is acknowledged.
* `Orderly`: nothing comes in while a transmission waits, the FIN of the peer comes while none of this
  side is held back and never before the acknowledgement of one, only an acknowledgement of the FIN
  comes in `lastAck`, and a socket whose FIN has been sent is not closed before the exchange is over.
* `run_closing`: the former holds in every run of the latter kind.
* `crossed_not_closing`: **two FINs that cross** close the connection at once.
-/

set_option autoImplicit false

namespace OxideBSD.Tcp

open Option

/-- The state for a FIN that has been sent or not, and acknowledged or not, and the peer's that has
been received or not. -/
def rfcState (sent acked received : Bool) : ConnState :=
  match sent, acked, received with
  | false, _, false => .established
  | false, _, true => .closeWait
  | true, false, false => .finWait1
  | true, true, false => .finWait2
  | true, false, true => .lastAck
  | true, true, true => .closed

/-- **The close handshake.** -/
structure Closing (s : St) : Prop where
  state : ∀ c, s.conn = some c → c.state ≠ .synSent → c.state ≠ .synReceived →
    c.state = rfcState s.finSeq.isSome s.finAcked s.peerFin
  removed : s.removed = some .normal → s.finSeq.isSome ∧ s.finAcked = true ∧ s.peerFin = true

/-- The condition. -/
def Orderly (s : St) : Event → Prop
  | .segment seg => s.stack = [] ∧ ∀ c ∈ s.conn,
    (c.receivesFin seg = true → c.finPending = none ∧
      (c.state = .finWait1 → seg.flags.ack = true ∧ seg.ack = c.sendNext)) ∧
    (c.state = .lastAck → seg.flags.ack = true → seg.ack = c.sendNext)
  | .tick _ => s.stack = []
  | .close => ∀ c ∈ s.conn, c.state ≠ .finWait1 ∧ c.state ≠ .finWait2 ∧ c.state ≠ .lastAck
  | _ => True

instance (s : St) (e : Event) : Decidable (Orderly s e) := by
  cases e <;> unfold Orderly <;> infer_instance

/-! ## The invariant -/

/-- The numbers while nothing or only an acknowledgement is transmitted. -/
structure Ready (c : Conn) (fin : Option UInt32) (acked : Bool) : Prop where
  idle : fin = none → c.unackedSegment = none → c.state = .established ∨ c.state = .closeWait →
    c.sendUnacked = c.sendNext
  sent : ∀ n, fin = some n → c.sendNext = n + 1 ∧ (acked = false → c.sendUnacked = n)

/-- The numbers, by what is transmitted. -/
def Numbers (c : Conn) (fin : Option UInt32) (acked : Bool) : List Frame → Prop
  | [] | [.plain _] | [.answer _] | [.syn _ _] => Ready c fin acked
  | [.chunk _] => Ready c fin acked ∧ fin = none
  | [.fin seg] => fin = some seg.seq ∧ c.sendUnacked = seg.seq ∧ acked = false
  | _ => False

/-- A connection whose FIN is number `fin`, and acknowledged or not, and the peer's is received or
not. -/
structure Fits (c : Conn) (stack : List Frame) (fin : Option UInt32) (acked received : Bool) :
    Prop where
  state : (c.state = .synSent ∨ c.state = .synReceived) ∧ fin = none ∧ received = false ∧
      c.finPending = none ∨
    c.state = rfcState fin.isSome acked received
  unsent : fin = none → acked = false
  pending : fin = none → ∀ next, c.finPending = some next →
    next = if received then .lastAck else .finWait1
  numbers : Numbers c fin acked stack

def Next.Fits (why : Removal) (fin : Option UInt32) (acked received : Bool) : Next → Prop
  | .goOn c frame => Tcp.Fits c frame.toList (St.finOf fin frame) acked received
  | .down _ => why = .normal → fin.isSome ∧ acked = true ∧ received = true

section Fits

variable {c : Conn} {fin : Option UInt32} {acked received : Bool} {stack : List Frame}

theorem Fits.open (h : Fits c stack fin acked received)
    (hstate : c.state = .established ∨ c.state = .closeWait) :
    fin = none ∧ acked = false ∧ c.state = rfcState false false received := by
  have hrfc := h.state.resolve_left fun hsyn ↦ by
    rcases hsyn.1 with hsyn | hsyn <;> simp [hsyn] at hstate
  have hnone : fin = none := by
    cases fin with
    | none => rfl
    | some n =>
      rw [hrfc] at hstate
      cases acked <;> cases received <;> simp [rfcState] at hstate
  subst hnone
  have hacked := h.unsent rfl
  subst hacked
  exact ⟨rfl, rfl, hrfc⟩

/-- A FIN is sent where all data has been acknowledged. -/
theorem Fits.sendFin (h : Fits c [] fin acked received)
    (hstate : c.state = .established ∨ c.state = .closeWait) (hunacked : c.unackedSegment = none)
    {next : ConnState} (hnext : next = if received then .lastAck else .finWait1) :
    Fits (c.sendFinAndTransition next).1 (c.sendFinAndTransition next).2.toList
      (St.finOf fin (c.sendFinAndTransition next).2) acked received := by
  obtain ⟨rfl, rfl, hrfc⟩ := h.open hstate
  refine ⟨.inr ?_, nofun, nofun, rfl, h.numbers.idle rfl hunacked hstate, rfl⟩
  rw [hnext]
  cases received <;> rfl

theorem Fits.trySend (h : Fits c [] fin acked received) :
    Fits c.trySend.1 c.trySend.2.toList (St.finOf fin c.trySend.2) acked received := by
  rw [Conn.trySend]
  by_cases hbusy : c.unackedSegment.isSome = true ∨
      ¬ (c.state = .established ∨ c.state = .closeWait)
  · rw [if_pos hbusy]
    exact h
  rw [if_neg hbusy]
  rw [not_or, not_not] at hbusy
  have hunacked := not_isSome_iff_eq_none.1 hbusy.1
  obtain ⟨rfl, rfl, hrfc⟩ := h.open hbusy.2
  split_ifs
  · split
    · exact h
    next next hnext =>
      have hnone : Fits { c with finPending := none } [] none false received :=
        ⟨.inr hrfc, h.unsent, by simp, h.numbers.idle, by simp⟩
      exact hnone.sendFin hbusy.2 hunacked (h.pending rfl next hnext)
  · exact ⟨.inr hrfc, h.unsent, h.pending, ⟨⟨h.numbers.idle, by rintro _ ⟨⟩⟩, rfl⟩⟩

theorem Fits.closeSending (h : Fits c [] fin acked received)
    (hstate : c.state = .established ∨ c.state = .closeWait)
    {next : ConnState} (hnext : next = if received then .lastAck else .finWait1) :
    Fits (c.closeSending next).1 (c.closeSending next).2.toList
      (St.finOf fin (c.closeSending next).2) acked received := by
  rw [Conn.closeSending]
  split_ifs with hidle
  · exact h.sendFin hstate hidle.2 hnext
  · obtain ⟨rfl, rfl, hrfc⟩ := h.open hstate
    refine ⟨.inr hrfc, h.unsent, fun _ next' hnext' ↦ ?_, h.numbers.idle, by rintro _ ⟨⟩⟩
    cases hnext'
    exact hnext

/-! ### Segments -/

/-- The connection can receive data. -/
def Conn.Synchronised (c : Conn) : Prop :=
  c.state = .established ∨ c.state = .finWait1 ∨ c.state = .finWait2 ∨ c.state = .closeWait

theorem Fits.rfc (h : Fits c stack fin acked received) (hstate : c.Synchronised) :
    c.state = rfcState fin.isSome acked received := by
  refine h.state.resolve_left fun hsyn ↦ ?_
  rcases hsyn.1 with hsyn | hsyn <;> simp [Conn.Synchronised, hsyn] at hstate

/-- An acknowledgement of the FIN is one the connection takes, and only that. -/
theorem Fits.acksFin_iff {n : UInt32} (h : Fits c [] (some n) acked received) {seg : Segment}
    (hrst : seg.flags.rst = false) :
    c.acksFin (some n) seg = true ↔ seg.flags.ack = true ∧ seg.ack = c.sendNext := by
  have hnext := (h.numbers.sent n rfl).1
  simp only [Conn.acksFin, hrst, Bool.false_eq_true, not_false_eq_true, true_and, decide_eq_true_eq]
  refine and_congr_right fun _ ↦ and_iff_right_of_imp fun hack ↦ ?_
  rw [hack, hnext]
  simp

theorem Fits.takeAck (h : Fits c [] fin acked received) {seg : Segment}
    (hrst : seg.flags.rst = false) (hstate : c.Synchronised) :
    Fits (c.takeAck seg) [] fin (acked || c.acksFin fin seg) received := by
  have hrfc := h.rfc hstate
  cases fin with
  | none =>
    have hnever : c.acksFin none seg = false := by simp [Conn.acksFin]
    have hwait : c.state ≠ .finWait1 := by
      rw [hrfc]
      cases received <;> simp [rfcState]
    rw [hnever, Bool.or_false, Conn.takeAck]
    split_ifs
    · exact ⟨.inr hrfc, h.unsent, h.pending, fun _ _ _ ↦ rfl, by simp⟩
    · exact h
  | some n =>
    obtain ⟨hnext, hunacked⟩ := h.numbers.sent n rfl
    have hiff := h.acksFin_iff hrst
    rw [Conn.takeAck]
    by_cases hack : seg.flags.ack = true ∧ seg.ack ≠ c.sendUnacked ∧ seg.ack = c.sendNext
    · rw [if_pos hack, hiff.2 ⟨hack.1, hack.2.2⟩, Bool.or_true]
      refine ⟨.inr ?_, by simp, by simp, by simp, fun m hm ↦ ⟨hnext.trans ?_, by simp⟩⟩
      · dsimp only
        rw [Conn.Synchronised, hrfc] at hstate
        rw [hrfc]
        cases acked <;> cases received <;> simp [rfcState] at hstate ⊢
      · rw [some.inj hm]
    · rw [if_neg hack]
      have hacked : (acked || c.acksFin (some n) seg) = acked := by
        cases acked with
        | true => rfl
        | false =>
          -- the acknowledgement would be taken, since the FIN is not yet acknowledged
          refine Bool.eq_false_of_not_eq_true fun htrue ↦ hack ?_
          obtain ⟨hflag, hnum⟩ := hiff.1 htrue
          refine ⟨hflag, ?_, hnum⟩
          rw [hnum, hnext, hunacked rfl]
          exact fun heq ↦ absurd (add_eq_left.1 heq) (by decide)
      rw [hacked]
      exact h

theorem Fits.takeData (h : Fits c [] fin acked received) (seg : Segment) :
    Fits (c.takeData seg) [] fin acked received := by
  rw [Conn.takeData]
  split_ifs
  · exact ⟨h.state, h.unsent, h.pending, h.numbers.idle, h.numbers.sent⟩
  · exact h

theorem Fits.takeFin (h : Fits c [] fin acked received) (seg : Segment) (hstate : c.Synchronised)
    (hfin : c.finSeen seg = true → c.finPending = none ∧ c.state ≠ .finWait1) :
    Fits (c.takeFin seg) [] fin acked (received || c.finSeen seg) := by
  rw [Conn.takeFin]
  by_cases hseen : c.finSeen seg = true
  swap
  · rw [Bool.eq_false_of_not_eq_true hseen, Bool.or_false]
    exact h
  obtain ⟨hpending, hwait⟩ := hfin hseen
  have hrfc := h.rfc hstate
  rw [if_pos hseen, hseen]
  refine ⟨.inr ?_, h.unsent, fun _ next hnext ↦ ?_, fun hnone hunacked hopen ↦ ?_, h.numbers.sent⟩
  · dsimp only
    rw [hrfc] at hwait ⊢
    cases fin <;> cases acked <;> cases received <;> simp [rfcState, Conn.finState] at hwait ⊢
  · rw [hpending] at hnext
    cases hnext
  · refine h.numbers.idle hnone hunacked ?_
    subst hnone
    rw [hrfc]
    cases received <;> simp [rfcState]

theorem synchronised_takeAck (hstate : c.Synchronised) (seg : Segment) :
    (c.takeAck seg).Synchronised := by
  rw [Conn.Synchronised] at hstate ⊢
  rcases (takeAck_state c seg).2 with hsame | ⟨-, hfin⟩
  · rwa [hsame]
  · exact .inr (.inr (.inl hfin))

/-- The FIN of this side is acknowledged with the peer's at the latest. -/
theorem Fits.takeAck_ne (h : Fits c [] fin acked received) {seg : Segment}
    (hstate : c.Synchronised)
    (hfin : c.state = .finWait1 → seg.flags.ack = true ∧ seg.ack = c.sendNext) :
    (c.takeAck seg).state ≠ .finWait1 := by
  by_cases hwait : c.state = .finWait1
  · obtain ⟨hflag, hack⟩ := hfin hwait
    have hrfc := h.rfc hstate
    have hsent : ∃ n, fin = some n ∧ acked = false := by
      rw [hwait] at hrfc
      cases fin <;> cases acked <;> cases received <;> simp [rfcState] at hrfc ⊢
    obtain ⟨n, rfl, rfl⟩ := hsent
    obtain ⟨hnext, hunacked⟩ := h.numbers.sent n rfl
    have hne : seg.ack ≠ c.sendUnacked := by
      rw [hack, hnext, hunacked rfl]
      exact fun heq ↦ absurd (add_eq_left.1 heq) (by decide)
    rw [Conn.takeAck, if_pos ⟨hflag, hne, hack⟩, if_pos hwait]
    simp
  · rcases (takeAck_state c seg).2 with hsame | ⟨hfw, -⟩
    · rwa [hsame]
    · exact absurd hfw hwait

theorem Fits.processEstablished (h : Fits c [] fin acked received) {seg : Segment}
    (hrst : seg.flags.rst = false) (hstate : c.Synchronised)
    (hfin : ((c.takeAck seg).takeData seg).finSeen seg = true → c.finPending = none ∧
      (c.state = .finWait1 → seg.flags.ack = true ∧ seg.ack = c.sendNext)) :
    Fits (c.processEstablished seg).1 (c.processEstablished seg).2.toList
      (St.finOf fin (c.processEstablished seg).2) (acked || c.acksFin fin seg)
      (received || ((c.takeAck seg).takeData seg).finSeen seg) := by
  have hdata := (h.takeAck hrst hstate).takeData seg
  obtain ⟨hpending, hsame⟩ := takeData_state (c.takeAck seg) seg
  have hsync : ((c.takeAck seg).takeData seg).Synchronised := by
    rw [Conn.Synchronised, hsame]
    exact synchronised_takeAck hstate seg
  have htaken := hdata.takeFin seg hsync fun hseen ↦ by
    obtain ⟨hnone, hwait⟩ := hfin hseen
    rw [hpending, (takeAck_state c seg).1, hsame]
    exact ⟨hnone, h.takeAck_ne hstate hwait⟩
  rw [Conn.processEstablished]
  split_ifs
  · exact ⟨htaken.state, htaken.unsent, htaken.pending, htaken.numbers⟩
  · exact htaken.trySend

theorem receivesFin_of_not {seg : Segment} (hstate : ¬ c.Synchronised) :
    (received || c.receivesFin seg) = received := by
  rw [Conn.receivesFin, decide_eq_false fun hall ↦ hstate hall.2.1, Bool.or_false]

/-- Before the connection is established. -/
theorem Fits.early (h : Fits c [] fin acked received)
    (hstate : c.state = .synSent ∨ c.state = .synReceived) (seg : Segment) :
    fin = none ∧ acked = false ∧ received = false ∧ c.finPending = none ∧
      (received || c.receivesFin seg) = received ∧ (acked || c.acksFin fin seg) = acked := by
  have hearly := h.state.resolve_right fun hrfc ↦ by
    rw [hrfc] at hstate
    cases fin <;> cases acked <;> cases received <;> simp [rfcState] at hstate
  obtain ⟨-, rfl, rfl, hpending⟩ := hearly
  refine ⟨rfl, h.unsent rfl, rfl, hpending, receivesFin_of_not ?_, by simp [Conn.acksFin]⟩
  rcases hstate with hstate | hstate <;> simp [Conn.Synchronised, hstate]

theorem Fits.lastAck (h : Fits c [] fin acked received) (hstate : c.state = .lastAck) :
    (∃ n, fin = some n) ∧ acked = false ∧ received = true := by
  have hrfc := h.state.resolve_left fun hsyn ↦ by simp [hstate] at hsyn
  rw [hstate] at hrfc
  cases fin <;> cases acked <;> cases received <;> simp [rfcState] at hrfc ⊢

theorem Fits.closed (h : Fits c [] fin acked received) (hstate : c.state = .closed) :
    acked = true ∧ received = true := by
  have hrfc := h.state.resolve_left fun hsyn ↦ by simp [hstate] at hsyn
  rw [hstate] at hrfc
  cases fin <;> cases acked <;> cases received <;> simp [rfcState] at hrfc ⊢

/-- **A segment** of an orderly run. -/
theorem Fits.handle (h : Fits c [] fin acked received) {seg : Segment}
    (hfin : c.receivesFin seg = true → c.finPending = none ∧
      (c.state = .finWait1 → seg.flags.ack = true ∧ seg.ack = c.sendNext))
    (hlast : c.state = .lastAck → seg.flags.ack = true → seg.ack = c.sendNext) :
    (c.handleForConnection seg).Fits (if seg.flags.rst then .reset else .normal) fin
      (acked || c.acksFin fin seg) (received || c.receivesFin seg) := by
  rw [Conn.handleForConnection]
  by_cases hrst : seg.flags.rst = true
  · rw [if_pos hrst, if_pos hrst]
    rintro ⟨⟩
  have hrst' := Bool.eq_false_of_not_eq_true hrst
  rw [if_neg hrst, if_neg hrst]
  cases hstate : c.state with
  | synSent =>
    obtain ⟨rfl, rfl, rfl, hpending, hrec, hack⟩ := h.early (.inl hstate) seg
    dsimp only
    rw [hrec, hack, Conn.handleSynSent]
    split_ifs
    · exact h
    · refine ⟨.inr rfl, fun _ ↦ rfl, fun _ next hnext ↦ ?_, fun _ _ _ ↦ rfl, by rintro _ ⟨⟩⟩
      exact absurd (hpending.symm.trans hnext) (by simp)
  | synReceived =>
    obtain ⟨rfl, rfl, rfl, hpending, hrec, hack⟩ := h.early (.inr hstate) seg
    dsimp only
    rw [hrec, hack, Conn.handleSynReceived]
    split_ifs
    · exact h
    · refine ⟨.inr rfl, fun _ ↦ rfl, fun _ next hnext ↦ ?_, fun _ _ _ ↦ rfl, by rintro _ ⟨⟩⟩
      exact absurd (hpending.symm.trans hnext) (by simp)
  | established | finWait1 | finWait2 | closeWait =>
    have hsync : c.Synchronised := by simp [Conn.Synchronised, hstate]
    have hrec : c.receivesFin seg = ((c.takeAck seg).takeData seg).finSeen seg := by
      simp [Conn.receivesFin, hrst', hstate]
    rw [hrec] at hfin ⊢
    exact h.processEstablished hrst' hsync hfin
  | lastAck =>
    obtain ⟨⟨n, rfl⟩, rfl, rfl⟩ := h.lastAck hstate
    split_ifs with hflag
    · refine fun _ ↦ ⟨rfl, ?_, rfl⟩
      exact (h.acksFin_iff hrst').2 ⟨hflag, hlast hstate hflag⟩
    · have hack : c.acksFin (some n) seg = false := by simp [Conn.acksFin, hflag]
      rw [hack]
      exact h
  | closed =>
    obtain ⟨rfl, rfl⟩ := h.closed hstate
    exact h

/-! ### The other steps -/

theorem Fits.transmitted {frame : Frame} (h : Fits c [frame] fin acked received) (ok : Bool)
    (now : Nat) : (c.transmitted ok now frame).Fits .abandoned fin acked received := by
  cases frame with
  | plain seg => exact ⟨h.state, h.unsent, h.pending, h.numbers⟩
  | answer seg =>
    have hready : Fits c [] fin acked received := ⟨h.state, h.unsent, h.pending, h.numbers⟩
    exact hready.trySend
  | chunk seg =>
    obtain ⟨hready, rfl⟩ := h.numbers
    cases ok with
    | true => exact ⟨h.state, h.unsent, h.pending, nofun, nofun⟩
    | false => exact ⟨h.state, h.unsent, h.pending, hready.idle, nofun⟩
  | fin seg =>
    obtain ⟨rfl, hunacked, rfl⟩ := h.numbers
    cases ok <;>
      · refine ⟨h.state, h.unsent, h.pending, nofun, fun n hn ↦ ?_⟩
        cases hn
        exact ⟨rfl, fun _ ↦ hunacked⟩
  | syn seg connect =>
    have hready : Ready c fin acked := h.numbers
    cases ok with
    | true => exact ⟨h.state, h.unsent, h.pending, nofun, hready.sent⟩
    | false =>
      cases connect with
      | true => exact nofun
      | false => exact ⟨h.state, h.unsent, h.pending, hready⟩

theorem Fits.retransmit (h : Fits c [] fin acked received) (now : Nat) :
    (c.retransmitOrGiveUp now).Fits .timeout fin acked received := by
  rw [Conn.retransmitOrGiveUp]
  split_ifs
  · rintro ⟨⟩
  · cases hseg : c.unackedSegment with
    | none =>
      exact ⟨h.state, h.unsent, h.pending, fun hfin _ ↦ h.numbers.idle hfin hseg, h.numbers.sent⟩
    | some seg => exact ⟨h.state, h.unsent, h.pending, by simp, h.numbers.sent⟩

theorem Fits.send (h : Fits c [] fin acked received) {data : List UInt8}
    {r : Conn × Option Frame} (hsend : c.send data = .ok r) :
    Fits r.1 r.2.toList (St.finOf fin r.2) acked received := by
  obtain ⟨-, -, rfl⟩ := send_spec hsend
  have hbuf : Fits { c with sendBuf := c.sendBuf ++ data } [] fin acked received :=
    ⟨h.state, h.unsent, h.pending, h.numbers.idle, h.numbers.sent⟩
  exact hbuf.trySend

theorem Fits.recv (h : Fits c [] fin acked received) {len : Nat} {peek : Bool}
    {data : List UInt8} {c' : Conn} (hrecv : c.recv len peek = .ok (data, c')) :
    Fits c' [] fin acked received := by
  simp only [Conn.recv] at hrecv
  split_ifs at hrecv <;> cases hrecv
  · exact h
  · exact h
  · exact ⟨h.state, h.unsent, h.pending, h.numbers.idle, h.numbers.sent⟩
  · exact h

/-- The state to close from says which one to move to. -/
theorem Fits.next (h : Fits c [] fin acked received) {next : ConnState}
    (hstate : c.state = .established ∧ next = .finWait1 ∨
      c.state = .closeWait ∧ next = .lastAck) :
    (c.state = .established ∨ c.state = .closeWait) ∧
      next = if received then .lastAck else .finWait1 := by
  have hopen : c.state = .established ∨ c.state = .closeWait := hstate.imp And.left And.left
  obtain ⟨rfl, rfl, hrfc⟩ := h.open hopen
  refine ⟨hopen, ?_⟩
  rw [hrfc] at hstate
  cases received <;> simpa [rfcState] using hstate

theorem Fits.shutdown (h : Fits c [] fin acked received) (how : Int) :
    Fits (c.shutdown how).1 (c.shutdown how).2.toList (St.finOf fin (c.shutdown how).2) acked
      received := by
  rw [Conn.shutdown]
  have hrd : Fits (if how ≠ 1 then { c with rdShut := true } else c) [] fin acked received := by
    split_ifs
    · exact ⟨h.state, h.unsent, h.pending, h.numbers.idle, h.numbers.sent⟩
    · exact h
  generalize (if how ≠ 1 then { c with rdShut := true } else c) = c' at hrd
  split_ifs
  · split
    next hstate =>
      obtain ⟨hopen, hnext⟩ := hrd.next (.inl ⟨hstate, rfl⟩)
      exact hrd.closeSending hopen hnext
    next hstate =>
      obtain ⟨hopen, hnext⟩ := hrd.next (.inr ⟨hstate, rfl⟩)
      exact hrd.closeSending hopen hnext
    · exact hrd
  · exact hrd

theorem Fits.detach (h : Fits c [] fin acked received)
    (hstate : c.state ≠ .finWait1 ∧ c.state ≠ .finWait2 ∧ c.state ≠ .lastAck) :
    c.detach.Fits (if c.state = .synSent ∨ c.state = .synReceived then .abandoned else .normal)
      fin acked received := by
  rw [Conn.detach]
  cases hs : c.state with
  | established =>
    obtain ⟨hopen, hnext⟩ := h.next (.inl ⟨hs, rfl⟩)
    exact h.closeSending hopen hnext
  | closeWait =>
    obtain ⟨hopen, hnext⟩ := h.next (.inr ⟨hs, rfl⟩)
    exact h.closeSending hopen hnext
  | synSent | synReceived => rintro ⟨⟩
  | finWait1 | finWait2 | lastAck => simp [hs] at hstate
  | closed =>
    intro _
    have hrfc := h.state.resolve_left fun hearly ↦ by simp [hs] at hearly
    rw [hs] at hrfc
    cases fin <;> cases acked <;> cases received <;> simp [rfcState] at hrfc ⊢

end Fits

/-! ## Every orderly run -/

/-- The invariant. -/
structure Inv (s : St) : Prop where
  conn : ∀ c, s.conn = some c → Fits c s.stack s.finSeq s.finAcked s.peerFin
  removed : s.removed = some .normal → s.finSeq.isSome ∧ s.finAcked = true ∧ s.peerFin = true
  gone : s.conn.isSome → s.removed = none
  /-- One transmission is under way at most. -/
  stack : s.stack.length ≤ 1

section Run

variable {s s' : St} {c : Conn}

theorem Inv.goOn {next : Next} {why : Removal} (hstack : s.stack = []) (hremoved : s.removed = none)
    (h : next.Fits why s.finSeq s.finAcked s.peerFin) : Inv (s.goOn why next) := by
  cases next with
  | goOn c frame =>
    refine ⟨?_, fun hnormal ↦ ?_, fun _ ↦ hremoved, ?_⟩
    · rintro c' ⟨⟩
      simp only [St.goOn, hstack, List.append_nil]
      exact h
    · exact absurd (hremoved.symm.trans hnormal) nofun
    · simp only [St.goOn, hstack]
      cases frame <;> simp
  | down error =>
    refine ⟨fun c hc ↦ ?_, fun hnormal ↦ h (some.inj hnormal), fun hsome ↦ ?_, ?_⟩
    · cases hc
    · cases hsome
    · simp [St.goOn, hstack]

/-- The error of the socket plays no part. -/
theorem Inv.quiet (h : Inv s) : Inv { s with error := none } := ⟨h.conn, h.removed, h.gone, h.stack⟩

theorem Inv.on {gone : St} {f : Conn → St} (h : Inv s) (hgone : Inv gone)
    (hf : ∀ c, s.conn = some c → s.removed = none → Inv (f c)) : Inv (s.on gone f) := by
  rw [St.on]
  split
  · exact hgone
  next c hc => exact hf c hc (h.gone (by rw [hc]; rfl))

theorem step_inv {e : Event} (h : Inv s) (horderly : Orderly s e) (hstep : s.step e = some s') :
    Inv s' := by
  cases e with
  | segment seg =>
    cases hstep
    obtain ⟨hstack, hconn⟩ := horderly
    refine h.on h fun c hc hremoved ↦ ?_
    obtain ⟨hfin, hlast⟩ := hconn c hc
    refine .goOn hstack hremoved ?_
    exact (hstack ▸ h.conn c hc : Fits c [] _ _ _).handle hfin hlast
  | tick now =>
    cases hstep
    refine h.on h fun c hc hremoved ↦ ?_
    split_ifs
    · exact .goOn horderly hremoved ((horderly ▸ h.conn c hc : Fits c [] _ _ _).retransmit now)
    · exact h
  | sent ok now =>
    simp only [St.step] at hstep
    split at hstep
    · cases hstep
    next frame stack hstack =>
      cases hstep
      have hnil : stack = [] := by
        have hlength := h.stack
        rw [hstack] at hlength
        simpa using hlength
      subst hnil
      rw [St.on]
      split
      next hnone =>
        refine ⟨fun c hc ↦ absurd (hnone.symm.trans hc) (by simp), h.removed, h.gone, Nat.zero_le _⟩
      next c hc =>
        have hremoved : s.removed = none := h.gone (by rw [hc]; rfl)
        have hfits : Fits c [frame] s.finSeq s.finAcked s.peerFin := hstack ▸ h.conn c hc
        exact .goOn rfl hremoved (hfits.transmitted ok now)
  | send data =>
    obtain ⟨hstack, -, rfl⟩ := of_call hstep
    refine h.on h.quiet fun c hc hremoved ↦ ?_
    split
    · exact h
    next hsend => exact .goOn hstack hremoved ((hstack ▸ h.conn c hc : Fits c [] _ _ _).send hsend)
  | recv len peek =>
    obtain ⟨hstack, -, rfl⟩ := of_call hstep
    rw [recv_snd]
    refine h.on h.quiet fun c hc hremoved ↦ ?_
    split
    · exact h
    next hrecv => exact .goOn hstack hremoved ((hstack ▸ h.conn c hc : Fits c [] _ _ _).recv hrecv)
  | shutdown how =>
    obtain ⟨hstack, -, rfl⟩ := of_call hstep
    exact h.on h fun c hc hremoved ↦
      .goOn hstack hremoved ((hstack ▸ h.conn c hc : Fits c [] _ _ _).shutdown how)
  | takeError =>
    obtain ⟨-, -, rfl⟩ := of_call hstep
    exact h.quiet
  | close =>
    obtain ⟨hstack, -, rfl⟩ := of_call hstep
    refine h.on ⟨h.conn, h.removed, h.gone, h.stack⟩ fun c hc hremoved ↦ ?_
    exact .goOn hstack hremoved
      ((hstack ▸ h.conn c hc : Fits c [] _ _ _).detach (horderly c hc))

theorem inv_start (h : Starts s) : Inv s := by
  cases h with
  | connect key isn =>
    refine ⟨?_, nofun, fun _ ↦ rfl, Nat.le_refl 1⟩
    rintro c ⟨⟩
    exact ⟨.inl ⟨.inl rfl, rfl, rfl, rfl⟩, fun _ ↦ rfl, nofun, nofun, nofun⟩
  | newSyn key isn theirSeq =>
    refine ⟨?_, nofun, fun _ ↦ rfl, Nat.le_refl 1⟩
    rintro c ⟨⟩
    exact ⟨.inl ⟨.inr rfl, rfl, rfl, rfl⟩, fun _ ↦ rfl, nofun, nofun, nofun⟩

/-- **The close handshake**, in every orderly run. -/
theorem run_closing {s₀ : St} {es : List Event} (hstart : Starts s₀)
    (hrun : Machine.run St.step s₀ es = some s) (horderly : Machine.Meets St.step Orderly s₀ es) :
    Closing s := by
  have hinv : Inv s := Machine.run_inv (fun _ _ _ ho h ↦ step_inv h ho) (inv_start hstart)
    horderly hrun
  refine ⟨fun c hc hsent hreceived ↦ ?_, hinv.removed⟩
  exact (hinv.conn c hc).state.resolve_left fun hearly ↦ hearly.1.elim hsent hreceived

end Run

/-- Data is sent, and the socket closed before it is acknowledged; the peer then closes too. -/
def closedWithData : List Event :=
  opened ++ [.send [7], .sent true 0, .close, .segment (reply 101 2 false), .sent true 0,
    .segment (reply 101 3 false), .segment (reply 101 3 true), .sent true 0]

theorem run_closing_closedWithData : ∃ s,
    Machine.run St.step (.start (Conn.connect someKey 0)) closedWithData = some s ∧
    s.conn.map Conn.state = some .closed ∧ Closing s :=
  Machine.exists_run_and (by decide +kernel) fun _ hrun ↦ run_closing (.connect someKey 0) hrun (by decide +kernel)

/-- Both sides close at the same time. -/
def crossed : List Event := opened ++ [.close, .sent true 0, .segment (reply 101 1 true)]

/-- The connection is `closed`, and the FIN of this side is not acknowledged. -/
theorem crossed_not_closing : ∃ s,
    Machine.run St.step (.start (Conn.connect someKey 0)) crossed = some s ∧ ¬ Closing s := by
  refine Machine.exists_run_of (fun s ↦ s.finAcked = false ∧ s.conn.map Conn.state = some .closed)
    (by decide +kernel) fun s _ ⟨hacked, hstate⟩ ↦ ?_
  obtain ⟨c, hc, hstate⟩ := map_eq_some_iff.1 hstate
  intro h
  have hrfc := h.state c hc (by simp [hstate]) (by simp [hstate])
  rw [hstate, hacked] at hrfc
  cases hsent : s.finSeq.isSome <;> cases hfin : s.peerFin <;> simp [hsent, hfin, rfcState] at hrfc

end OxideBSD.Tcp
