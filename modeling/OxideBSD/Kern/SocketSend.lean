import OxideBSD.Kern.Uio
import OxideBSD.Lib.Machine

/-!
# Sending on a socket

`send` of `sys/kern/uipc_socket.rs` and its two callers, `so_write` behind the file layer's
`transfer`, and `sendmsg`.  Progress is kept at three levels: the protocol takes some prefix of what
it is offered; `send` offers the rest of a chunk again until all of it is taken or it has to give up;
the caller copies in one chunk after the other.

A call is a machine: its events are the answers it gets from the protocol and from `wait`, so a list
of answers is one pattern of blocking, signals, timeouts and errors.

* `Reports r queue` is what is expected of a call that ends with `r`, having queued `queue`.
* `sentWrite_good`: an error that ends a later chunk of a `write` is turned into a count by
  `transfer`, for `so_write` gives back what was not taken.
* `sendmsg` has no such layer above it, and its own loop forgets `ERESTART`.  `run_reports`: a `write`
  always reports what was queued, and a `sendmsg` does **if and only if no wait that starts a later
  chunk is restarted**.
-/

set_option autoImplicit false

namespace OxideBSD.Socket

open Kern List Machine

/-! ## Constants -/

def EMSGSIZE : Nat := 90
def EOPNOTSUPP : Nat := 95

def sockStream : Nat := 1
def sockSeqpacket : Nat := 5

def msgOob : UInt64 := 0x1
def msgDontwait : UInt64 := 0x40
def msgEor : UInt64 := 0x80
def msgNosignal : UInt64 := 0x4000
def sendFlags : UInt64 := msgDontwait ||| msgEor ||| msgNosignal ||| msgOob

/-- The most `sendmsg` copies in at once. -/
def maxBuf : Nat := 1024 * 1024

/-- The most `write` copies in at once. -/
def socketIoChunk : Nat := 64 * 1024

/-! ## One call -/

/-- What the calls need of a socket: its type, and its send timeout in milliseconds. -/
structure Handle where
  ty : Nat
  sndtimeo : Nat
  deriving DecidableEq, Repr

/-- What a call meets: the protocol takes the first `n` bytes of what it is offered, or fails; when
the call would block, the descriptor is nonblocking, or `wait` ends. -/
inductive Answer
  | takes (n : Nat)
  | fails (e : Nat)
  | nonblock
  /-- The socket's state has changed. -/
  | woken
  | signal
  /-- The deadline has passed. -/
  | expires
  deriving DecidableEq, Repr

/-- `wait`. -/
def wait (h : Handle) : Answer → Option (Except Nat Unit)
  | .woken => some (.ok ())
  | .signal => some (.error (if 0 < h.sndtimeo then EINTR else ERESTART))
  | .expires => if 0 < h.sndtimeo then some (.error EAGAIN) else none
  | _ => none

/-- A call in the middle of a `send`. -/
structure Call where
  uio : Uio
  /-- The bytes sent with the chunks before. -/
  total : Nat
  chunk : List UInt8
  /-- The bytes of this chunk that are sent. -/
  sent : Nat
  /-- The call would block. -/
  asleep : Bool
  /-- How many chunks were copied in. -/
  copies : Nat
  /-- For the record: the bytes the protocol has taken from this call. -/
  queue : List UInt8

inductive St
  | busy (c : Call)
  | done (r : Except Nat Nat) (queue : List UInt8)

/-- The system call, and for a `write` the length of its transfer. -/
inductive Kind
  | write (len : Nat)
  | sendmsg
  deriving DecidableEq, Repr

/-- What `send` returns when it gives up because of `e`. -/
def giveUp (c : Call) (e : Nat) : Except Nat Nat := if 0 < c.sent then .ok c.sent else .error e

/-- The next chunk. -/
def Call.begin (c : Call) (chunk : List UInt8) (uio : Uio) : St :=
  .busy { c with uio := uio, chunk := chunk, sent := 0, asleep := false, copies := c.copies + 1 }

/-- The head of `sendmsg`'s loop; the caller's memory is `mem i` when chunk `i` is copied in. -/
def nextMsg (mem : Nat → Memory) (c : Call) : St :=
  match c.uio.uiomoveIn (mem c.copies) (min maxBuf c.uio.resid) with
  | (.error e, _) => .done (.error e) c.queue
  | (.ok chunk, uio) => c.begin chunk uio

/-- What `sendmsg` does with the result of `send`. -/
def sentMsg (mem : Nat → Memory) (c : Call) : Except Nat Nat → St
  | .ok n =>
    if n < c.chunk.length ∨ c.uio.resid = 0 then .done (.ok (c.total + n)) c.queue
    else nextMsg mem { c with total := c.total + n }
  | .error e =>
    if 0 < c.total ∧ (e = EINTR ∨ e = EAGAIN) then .done (.ok c.total) c.queue
    else .done (.error e) c.queue

/-- How `transfer` ends, the operation having ended with `r` and left `uio`. -/
def transferred (len : Nat) (uio : Uio) (r : Except Nat Nat) : Except Nat Nat :=
  match r with
  | .ok n => .ok n
  | .error e =>
    if 0 < len - uio.resid ∧ (e = EINTR ∨ e = ERESTART ∨ e = EAGAIN) then .ok (len - uio.resid)
    else .error e

/-- The head of `so_write`'s loop. -/
def nextWrite (mem : Nat → Memory) (len : Nat) (c : Call) : St :=
  if c.uio.resid = 0 then .done (transferred len c.uio (.ok c.total)) c.queue
  else
    match c.uio.uiomoveIn (mem c.copies) (min socketIoChunk c.uio.resid) with
    | (.error e, uio) => .done (transferred len uio (.error e)) c.queue
    | (.ok chunk, uio) => c.begin chunk uio

/-- What `so_write` does with the result of `send`: what was not taken goes back. -/
def sentWrite (mem : Nat → Memory) (len : Nat) (c : Call) : Except Nat Nat → St
  | .ok n =>
    if n < c.chunk.length then
      .done (transferred len (c.uio.rewind (c.chunk.length - n)) (.ok (c.total + n))) c.queue
    else nextWrite mem len { c with total := c.total + n }
  | .error e => .done (transferred len (c.uio.rewind c.chunk.length) (.error e)) c.queue

/-- `send` has returned. -/
def sent (kind : Kind) (mem : Nat → Memory) (c : Call) (r : Except Nat Nat) : St :=
  match kind with
  | .write len => sentWrite mem len c r
  | .sendmsg => sentMsg mem c r

/-- The protocol would block. -/
def block (kind : Kind) (flags : UInt64) (mem : Nat → Memory) (c : Call) : St :=
  if flags &&& msgDontwait ≠ 0 then sent kind mem c (giveUp c EAGAIN)
  else .busy { c with asleep := true }

/-- The protocol takes the next `n` bytes of the chunk. -/
def Call.take (c : Call) (n : Nat) : Call :=
  { c with sent := c.sent + n, queue := c.queue ++ (c.chunk.drop c.sent).take n }

/-- The first half of a turn of `send`'s loop: the protocol is asked. -/
def ask (kind : Kind) (h : Handle) (flags : UInt64) (mem : Nat → Memory) (c : Call) :
    Answer → Option St
  | .takes n =>
    if c.chunk.length - c.sent < n then none
    else
      let c := c.take n
      if c.sent = c.chunk.length ∨ h.ty ≠ sockStream then some (sent kind mem c (.ok c.sent))
      else some (block kind flags mem c)
  | .fails e =>
    if e = EAGAIN then some (block kind flags mem c) else some (sent kind mem c (giveUp c e))
  | _ => none

/-- The second half: the call waits, unless the descriptor is nonblocking. -/
def sleep (kind : Kind) (h : Handle) (mem : Nat → Memory) (c : Call) (a : Answer) : Option St :=
  if a = .nonblock then some (sent kind mem c (giveUp c EAGAIN))
  else
    match wait h a with
    | none => none
    | some (.ok _) => some (.busy { c with asleep := false })
    | some (.error e) => some (sent kind mem c (giveUp c e))

/-- The loop of `send`, one answer at a time. -/
def step (kind : Kind) (h : Handle) (flags : UInt64) (mem : Nat → Memory) : St → Answer → Option St
  | .done _ _, _ => none
  | .busy c, a => if c.asleep then sleep kind h mem c a else ask kind h flags mem c a

/-- The checks of `send`. -/
def refused (h : Handle) (flags : UInt64) : Bool :=
  flags &&& ~~~sendFlags ≠ 0 ∨ flags &&& msgOob ≠ 0 ∨
    (flags &&& msgEor ≠ 0 ∧ h.ty ≠ sockSeqpacket)

/-- A call that has copied nothing in. -/
def Call.new (uio : Uio) : Call := ⟨uio, 0, [], 0, false, 0, []⟩

/-- `sendmsg`, its header read, up to the first call of the protocol. -/
def startMsg (h : Handle) (flags : UInt64) (mem : Nat → Memory) (iov : List IoSeg) : St :=
  if h.ty ≠ sockStream ∧ maxBuf < (iov.map IoSeg.len).sum then .done (.error EMSGSIZE) []
  else
    match Uio.new iov .user 0 with
    | .error e => .done (.error e) []
    | .ok uio =>
      match nextMsg mem (.new uio) with
      | .done r queue => .done r queue
      -- the flags are the same for every chunk
      | .busy c => if refused h flags then sentMsg mem c (.error EOPNOTSUPP) else .busy c

/-- `write`: `transfer` and `so_write` up to the first call of the protocol. -/
def startWrite (mem : Nat → Memory) (iov : List IoSeg) : St :=
  match Uio.new iov .user 0 with
  | .error e => .done (.error e) []
  | .ok uio => if uio.resid = 0 then .done (.ok 0) [] else nextWrite mem uio.resid (.new uio)

/-! ## What is expected -/

/-- A call that ends with `r`, having queued `queue`: a count is the number of bytes queued, and an
error after which the call is made again means that no byte was. -/
def Reports (r : Except Nat Nat) (queue : List UInt8) : Prop :=
  match r with
  | .ok n => n = queue.length
  | .error e => queue = [] ∨ e ∉ [ERESTART, EAGAIN, EINTR]

/-- The condition on `sendmsg`: while nothing of a later chunk is sent, no signal restarts the call,
and the protocol does not fail with `ERESTART` itself. -/
def Uncut (h : Handle) : St → Answer → Prop
  | .done _ _, _ => True
  | .busy c, a => c.sent = 0 → 0 < c.total →
    a ≠ .fails ERESTART ∧ (a = .signal → 0 < h.sndtimeo)

/-- In the middle of a call. -/
structure Call.Inv (c : Call) : Prop where
  wf : c.uio.WF
  queued : c.total + c.sent = c.queue.length
  sent_le : c.sent ≤ c.chunk.length

/-- In the middle of a `write`: what the transfer has moved on by is what was copied in. -/
structure Call.Moved (c : Call) (len : Nat) : Prop where
  moved : c.total + c.chunk.length + c.uio.resid = len
  pos : c.uio.pos + c.uio.resid = len

/-- What `send` may return. -/
inductive Returned (c : Call) : Except Nat Nat → Prop
  | ok : Returned c (.ok c.sent)
  | error (e : Nat) (h : c.sent = 0) : Returned c (.error e)

section Steps

variable {h : Handle} {flags : UInt64} {mem : Nat → Memory} {c : Call} {len : Nat}
  {r : Except Nat Nat} {queue : List UInt8} {a : Answer} {s s' : St} {kind : Kind} {uio : Uio}

theorem returned_giveUp (c : Call) (e : Nat) : Returned c (giveUp c e) := by
  rw [giveUp]
  split_ifs with hsent
  · exact .ok
  · exact .error e (by omega)

/-- A state of a call that goes well. -/
def Good (kind : Kind) : St → Prop
  | .busy c => c.Inv ∧ ∀ len, kind = .write len → c.Moved len
  | .done r queue => Reports r queue

/-- A chunk is copied in, or the copy faults. -/
theorem copyIn {u : Uio} (hu : u.WF) (m : Memory) (k : Nat) (hk : k ≤ u.resid) :
    ∃ uio : Uio, uio.pos + uio.resid = u.pos + u.resid ∧
      (u.uiomoveIn m k = (.error EFAULT, uio) ∨
        ∃ chunk : List UInt8, u.uiomoveIn m k = (.ok chunk, uio) ∧ uio.WF ∧
          chunk.length + uio.resid = u.resid) := by
  have hpos := Uio.uiomoveIn_pos m k hu hk
  have hspec := Uio.uiomoveIn_spec m k hu hk
  generalize u.uiomoveIn m k = r at hpos hspec
  cases hspec with
  | @ok u' hclear hadv =>
    refine ⟨u', hpos, .inr ⟨_, rfl, hadv.wf, ?_⟩⟩
    rw [Nat.add_comm]
    exact hadv.resid
  | @fault u' k hclear hk hpassed hadv => exact ⟨u', hpos, .inl rfl⟩

/-- A fault is not an error after which the call is made again. -/
theorem reports_fault (queue : List UInt8) : Reports (.error EFAULT) queue :=
  .inr (by decide)

theorem begin_good {chunk : List UInt8} (hu : uio.WF) (hq : c.total = c.queue.length)
    (hm : ∀ len, kind = .write len →
      c.total + chunk.length + uio.resid = len ∧ uio.pos + uio.resid = len) :
    Good kind (c.begin chunk uio) :=
  ⟨⟨hu, hq, Nat.zero_le _⟩, fun len hlen ↦ ⟨(hm len hlen).1, (hm len hlen).2⟩⟩

theorem nextMsg_of_copy {chunk : List UInt8}
    (h : c.uio.uiomoveIn (mem c.copies) (min maxBuf c.uio.resid) = (.ok chunk, uio)) :
    nextMsg mem c = c.begin chunk uio := by
  rw [nextMsg, h]

theorem nextMsg_good (hu : c.uio.WF) (hq : c.total = c.queue.length) :
    Good .sendmsg (nextMsg mem c) := by
  obtain ⟨uio, -, hcopy | ⟨chunk, hcopy, hwf, -⟩⟩ :=
    copyIn hu (mem c.copies) (min maxBuf c.uio.resid) (Nat.min_le_right _ _)
  · rw [nextMsg, hcopy]
    exact reports_fault c.queue
  · rw [nextMsg_of_copy hcopy]
    exact begin_good hwf hq nofun

theorem sentMsg_good (hc : c.Inv) (hr : Returned c r)
    (hcut : ∀ e, r = .error e → 0 < c.total → e ≠ ERESTART) : Good .sendmsg (sentMsg mem c r) := by
  have hqueued := hc.queued
  cases hr with
  | ok =>
    rw [sentMsg]
    split_ifs
    · exact hqueued
    · exact nextMsg_good hc.wf hqueued
  | error e hsent =>
    rw [hsent] at hqueued
    rw [sentMsg]
    split_ifs with hback
    · exact hqueued
    · -- without a byte queued any error will do
      rcases Nat.eq_zero_or_pos c.total with hzero | hpos
      · exact .inl (length_eq_zero_iff.1 (hqueued.symm.trans hzero))
      · refine .inr ?_
        simp only [mem_cons]
        tauto

/-- What a transfer has moved on by is reported instead of an error. -/
theorem transferred_reports {e : Nat} (h : len - uio.resid = queue.length) :
    Reports (transferred len uio (.error e)) queue := by
  rw [transferred]
  split_ifs with hback
  · exact h
  · rcases Nat.eq_zero_or_pos (len - uio.resid) with hzero | hpos
    · exact .inl (length_eq_zero_iff.1 (h.symm.trans hzero))
    · refine .inr ?_
      simp only [mem_cons]
      tauto

theorem nextWrite_good (hu : c.uio.WF) (hq : c.total = c.queue.length)
    (hmoved : c.total + c.uio.resid = len) (hpos : c.uio.pos + c.uio.resid = len) :
    Good (.write len) (nextWrite mem len c) := by
  rw [nextWrite]
  split_ifs
  · exact hq
  · obtain ⟨uio, hpos', hcopy | ⟨chunk, hcopy, hwf, hlength⟩⟩ :=
      copyIn hu (mem c.copies) (min socketIoChunk c.uio.resid) (Nat.min_le_right _ _)
    · rw [hcopy]
      have hother : ¬ (EFAULT = EINTR ∨ EFAULT = ERESTART ∨ EFAULT = EAGAIN) := by decide
      have hfault : transferred len uio (.error EFAULT) = .error EFAULT :=
        if_neg fun hback ↦ hother hback.2
      show Reports (transferred len uio (.error EFAULT)) c.queue
      rw [hfault]
      exact reports_fault c.queue
    · rw [hcopy]
      refine begin_good hwf hq fun len' hlen ↦ ?_
      cases hlen
      omega

theorem sentWrite_good (hc : c.Inv) (hm : c.Moved len) (hr : Returned c r) :
    Good (.write len) (sentWrite mem len c r) := by
  have hqueued := hc.queued
  have hmoved := hm.moved
  have hpos := hm.pos
  cases hr with
  | ok =>
    rw [sentWrite]
    have hle := hc.sent_le
    split_ifs with hpart
    · exact hqueued
    · exact nextWrite_good hc.wf hqueued (by dsimp only; omega) hpos
  | error e hsent =>
    refine transferred_reports ?_
    rw [Uio.rewind_resid (by omega)]
    omega

/-- `send` has returned. -/
theorem sent_good (hc : Good kind (.busy c)) (hr : Returned c r)
    (hcut : ∀ e, r = .error e → kind = .sendmsg → 0 < c.total → e ≠ ERESTART) :
    Good kind (sent kind mem c r) := by
  cases kind with
  | write len => exact sentWrite_good hc.1 (hc.2 len rfl) hr
  | sendmsg => exact sentMsg_good hc.1 hr fun e he ↦ hcut e he rfl

theorem block_good (hc : Good kind (.busy c)) : Good kind (block kind flags mem c) := by
  rw [block]
  split_ifs
  · refine sent_good hc (returned_giveUp c EAGAIN) fun e he _ _ ↦ ?_
    rw [giveUp] at he
    split_ifs at he
    cases he
    decide
  · exact ⟨⟨hc.1.wf, hc.1.queued, hc.1.sent_le⟩, fun len hlen ↦
      ⟨(hc.2 len hlen).moved, (hc.2 len hlen).pos⟩⟩

/-- The error `send` gives up with. -/
theorem giveUp_error {e e' : Nat} (h : giveUp c e = .error e') : c.sent = 0 ∧ e = e' := by
  rw [giveUp] at h
  split_ifs at h with hsent
  exact ⟨by omega, Except.error.inj h⟩

/-- The errors that end a wait, or the protocol's call, with the answer `a`. -/
def Errs (h : Handle) (a : Answer) (e : Nat) : Prop :=
  a = .fails e ∨ e = EAGAIN ∨ a = .signal ∧ e = if 0 < h.sndtimeo then EINTR else ERESTART

/-- What an answer does to a call in the middle of a `send`. -/
theorem step_cases (hstep : step kind h flags mem (.busy c) a = some s') :
    (∃ n ≤ c.chunk.length - c.sent, s' = sent kind mem (c.take n) (.ok (c.take n).sent) ∨
        s' = block kind flags mem (c.take n)) ∨
      s' = block kind flags mem c ∨ s' = .busy { c with asleep := false } ∨
      ∃ e, Errs h a e ∧ s' = sent kind mem c (giveUp c e) := by
  by_cases hasleep : c.asleep = true
  · rw [step, if_pos hasleep] at hstep
    cases a with
    | nonblock =>
      cases hstep
      exact .inr (.inr (.inr ⟨EAGAIN, .inr (.inl rfl), rfl⟩))
    | woken =>
      cases hstep
      exact .inr (.inr (.inl rfl))
    | signal =>
      cases hstep
      exact .inr (.inr (.inr ⟨_, .inr (.inr ⟨rfl, rfl⟩), rfl⟩))
    | expires =>
      simp only [sleep, wait, reduceCtorEq, if_false] at hstep
      split_ifs at hstep
      cases hstep
      exact .inr (.inr (.inr ⟨EAGAIN, .inr (.inl rfl), rfl⟩))
    | takes n => cases hstep
    | fails e => cases hstep
  · rw [step, if_neg hasleep] at hstep
    cases a with
    | takes n =>
      simp only [ask] at hstep
      split_ifs at hstep with hmore hall
      · cases hstep
        exact .inl ⟨n, not_lt.1 hmore, .inl rfl⟩
      · cases hstep
        exact .inl ⟨n, not_lt.1 hmore, .inr rfl⟩
    | fails e =>
      simp only [ask] at hstep
      split_ifs at hstep
      · cases hstep
        exact .inr (.inl rfl)
      · cases hstep
        exact .inr (.inr (.inr ⟨e, .inl rfl, rfl⟩))
    | _ => cases hstep

theorem take_good (hc : Good kind (.busy c)) {n : Nat} (hn : n ≤ c.chunk.length - c.sent) :
    Good kind (.busy (c.take n)) := by
  have hqueued := hc.1.queued
  have hle := hc.1.sent_le
  refine ⟨⟨hc.1.wf, ?_, ?_⟩, fun len hlen ↦ ⟨(hc.2 len hlen).moved, (hc.2 len hlen).pos⟩⟩
  · simp only [Call.take, length_append, length_take, length_drop]
    omega
  · simp only [Call.take]
    omega

/-- **One answer** keeps a call going well, for `sendmsg` under the condition. -/
theorem step_good (hs : Good kind s)
    (hcut : kind = .sendmsg → Uncut h s a) (hstep : step kind h flags mem s a = some s') :
    Good kind s' := by
  cases s with
  | done r queue => cases hstep
  | busy c =>
    rcases step_cases hstep with ⟨n, hn, rfl | rfl⟩ | rfl | rfl | ⟨e, herrs, rfl⟩
    · exact sent_good (take_good hs hn) .ok nofun
    · exact block_good (take_good hs hn)
    · exact block_good hs
    · exact ⟨⟨hs.1.wf, hs.1.queued, hs.1.sent_le⟩, fun len hlen ↦
        ⟨(hs.2 len hlen).moved, (hs.2 len hlen).pos⟩⟩
    · refine sent_good hs (returned_giveUp c e) fun e' he hkind htotal ↦ ?_
      obtain ⟨hsent, rfl⟩ := giveUp_error he
      obtain ⟨hfails, hsignal⟩ := hcut hkind hsent htotal
      rintro rfl
      rcases herrs with rfl | hagain | ⟨rfl, hrestart⟩
      · exact hfails rfl
      · exact absurd hagain (by decide)
      · rw [if_pos (hsignal rfl)] at hrestart
        exact absurd hrestart (by decide)

/-- A `sendmsg` whose condition is not met ends with `ERESTART` and bytes queued. -/
theorem step_of_not_uncut (hs : Good .sendmsg s) (hcut : ¬ Uncut h s a)
    (hstep : step .sendmsg h flags mem s a = some s') :
    ∃ queue, s' = .done (.error ERESTART) queue ∧ ¬ Reports (.error ERESTART) queue := by
  cases s with
  | done r queue => exact absurd trivial hcut
  | busy c =>
    simp only [Uncut, Classical.not_imp] at hcut
    obtain ⟨hsent, htotal, hcut⟩ := hcut
    have hqueued := hs.1.queued
    have hends : sent .sendmsg mem c (giveUp c ERESTART) = .done (.error ERESTART) c.queue := by
      have hother : ¬ (ERESTART = EINTR ∨ ERESTART = EAGAIN) := by decide
      rw [giveUp, if_neg (by omega)]
      exact if_neg fun hback ↦ hother hback.2
    have hnot : ¬ Reports (.error ERESTART) c.queue := by
      rintro (hnil | hmem)
      · rw [hnil, length_nil] at hqueued
        omega
      · exact hmem mem_cons_self
    refine ⟨c.queue, ?_, hnot⟩
    rw [← hends]
    by_cases hasleep : c.asleep = true
    · rw [step, if_pos hasleep] at hstep
      cases a with
      | signal =>
        simp only [ne_eq, reduceCtorEq, not_false_eq_true, forall_const, true_and] at hcut
        simp only [sleep, wait, if_neg hcut] at hstep
        cases hstep
        rfl
      | fails e => cases hstep
      | _ => simp at hcut
    · rw [step, if_neg hasleep] at hstep
      cases a with
      | fails e =>
        simp only [reduceCtorEq, false_implies, and_true, not_not, Answer.fails.injEq] at hcut
        subst hcut
        cases hstep
        rfl
      | signal => cases hstep
      | _ => simp at hcut

/-- A `sendmsg` that reports what was queued was not cut. -/
theorem meets_of_reports {answers : List Answer} (hs : Good .sendmsg s)
    (hrun : Machine.run (step .sendmsg h flags mem) s answers = some (.done r queue))
    (hreports : Reports r queue) :
    Machine.Meets (step .sendmsg h flags mem) (Uncut h) s answers := by
  induction answers generalizing s with
  | nil => trivial
  | cons a answers ih =>
    obtain ⟨t, hstep, hrun⟩ := run_cons.1 hrun
    rw [Meets, hstep]
    by_cases hcut : Uncut h s a
    · exact ⟨hcut, ih (step_good hs (fun _ ↦ hcut) hstep) hrun⟩
    · -- the call would have ended here
      obtain ⟨queue', rfl, hnot⟩ := step_of_not_uncut hs hcut hstep
      cases answers with
      | nil =>
        cases hrun
        exact absurd hreports hnot
      | cons b answers =>
        obtain ⟨t, hstep, -⟩ := run_cons.1 hrun
        cases hstep

theorem startWrite_good (mem : Nat → Memory) (iov : List IoSeg) :
    Good (.write (iov.map IoSeg.len).sum) (startWrite mem iov) := by
  rw [startWrite]
  split
  · exact .inl rfl
  next uio hnew =>
    have hresid : uio.resid = (iov.map IoSeg.len).sum := by
      rw [Uio.new] at hnew
      split_ifs at hnew
      cases hnew
      rfl
    split_ifs
    · rfl
    · rw [← hresid]
      refine nextWrite_good (Uio.new_wf hnew) rfl (Nat.zero_add _) ?_
      show uio.pos + uio.resid = uio.resid
      rw [Uio.new_pos hnew, Nat.zero_add]

theorem startMsg_good (h : Handle) (flags : UInt64) (mem : Nat → Memory) (iov : List IoSeg) :
    Good .sendmsg (startMsg h flags mem iov) := by
  by_cases hbig : h.ty ≠ sockStream ∧ maxBuf < (iov.map IoSeg.len).sum
  · rw [startMsg, if_pos hbig]
    exact .inl rfl
  · rw [startMsg, if_neg hbig]
    split
    · exact .inl rfl
    next uio hnew =>
      have hgood : Good .sendmsg (nextMsg mem (.new uio)) := nextMsg_good (Uio.new_wf hnew) rfl
      obtain ⟨uio', -, hcopy | ⟨chunk, hcopy, -⟩⟩ :=
        copyIn (Uio.new_wf hnew) (mem 0) (min maxBuf uio.resid) (Nat.min_le_right _ _)
      · have hnext : nextMsg mem (.new uio) = .done (.error EFAULT) [] := by
          rw [nextMsg, Call.new, hcopy]
        rw [hnext] at hgood ⊢
        exact hgood
      · have hnext : nextMsg mem (.new uio) = (Call.new uio).begin chunk uio' :=
          nextMsg_of_copy hcopy
        rw [hnext] at hgood ⊢
        split_ifs
        · exact sentMsg_good hgood.1 (.error _ rfl) fun e _ htotal ↦ absurd htotal (Nat.lt_irrefl 0)
        · exact hgood

/-- **Sends report what was queued.**  A `write` always does; a `sendmsg` does if and only if, while
nothing of a later chunk is sent, neither a signal nor the protocol restarts the call. -/
theorem run_reports (_hty : h.ty = sockStream) (flags : UInt64) (mem : Nat → Memory)
    (iov : List IoSeg) (answers : List Answer) :
    (Machine.run (step (.write (iov.map IoSeg.len).sum) h msgNosignal mem) (startWrite mem iov)
        answers = some (.done r queue) → Reports r queue) ∧
      (Machine.run (step .sendmsg h flags mem) (startMsg h flags mem iov) answers
          = some (.done r queue) →
        (Reports r queue ↔
          Machine.Meets (step .sendmsg h flags mem) (Uncut h) (startMsg h flags mem iov) answers)) := by
  refine ⟨fun hrun ↦ ?_, fun hrun ↦ ⟨fun hreports ↦ ?_, fun hmeets ↦ ?_⟩⟩
  · exact run_keeps (I := Good (.write (iov.map IoSeg.len).sum))
      (fun s a s' hs hstep ↦ step_good hs nofun hstep) (startWrite_good mem iov) hrun
  · exact meets_of_reports (startMsg_good h flags mem iov) hrun hreports
  · exact run_inv (I := Good .sendmsg)
      (fun s a s' hcut hs hstep ↦ step_good hs (fun _ ↦ hcut) hstep)
      (startMsg_good h flags mem iov) hmeets hrun

end Steps

/-! ## Two calls -/

/-- Memory that can be read everywhere. -/
def zeros : Memory := ⟨fun _ ↦ true, fun _ ↦ true, fun _ ↦ 0⟩

/-- Two bytes are sent, of which the protocol takes one before a signal comes. -/
theorem run_reports_interrupted :
    (∃ queue, Machine.run (step (.write 2) ⟨sockStream, 0⟩ msgNosignal fun _ ↦ zeros)
        (startWrite (fun _ ↦ zeros) [⟨0x1000, 2⟩]) [.takes 1, .signal]
          = some (.done (.ok 1) queue) ∧ Reports (.ok 1) queue) ∧
      ∃ queue, Machine.run (step .sendmsg ⟨sockStream, 0⟩ 0 fun _ ↦ zeros)
        (startMsg ⟨sockStream, 0⟩ 0 (fun _ ↦ zeros) [⟨0x1000, 2⟩]) [.takes 1, .signal]
          = some (.done (.ok 1) queue) ∧
        Machine.Meets (step .sendmsg ⟨sockStream, 0⟩ 0 fun _ ↦ zeros) (Uncut ⟨sockStream, 0⟩)
          (startMsg ⟨sockStream, 0⟩ 0 (fun _ ↦ zeros) [⟨0x1000, 2⟩]) [.takes 1, .signal] := by
  have hwrite : run (step (.write 2) ⟨sockStream, 0⟩ msgNosignal fun _ ↦ zeros)
      (startWrite (fun _ ↦ zeros) [⟨0x1000, 2⟩]) [.takes 1, .signal]
        = some (.done (.ok 1) [0]) := rfl
  have hmsg : run (step .sendmsg ⟨sockStream, 0⟩ 0 fun _ ↦ zeros)
      (startMsg ⟨sockStream, 0⟩ 0 (fun _ ↦ zeros) [⟨0x1000, 2⟩]) [.takes 1, .signal]
        = some (.done (.ok 1) [0]) := rfl
  refine ⟨⟨[0], hwrite, ?_⟩, [0], hmsg, ((run_reports rfl 0 _ _ _).2 hmsg).1 rfl⟩
  exact (run_reports rfl 0 _ [⟨0x1000, 2⟩] _).1 hwrite

section Restarted

variable {u : Uio} {c : Call}

theorem copyIn_of_clear (hu : u.WF) {m : Memory} {k : Nat} (hk : k ≤ u.resid)
    (hclear : u.Clear m.readable k) : ∃ chunk uio, u.uiomoveIn m k = (.ok chunk, uio) ∧
      chunk.length = k ∧ u.Advances uio k := by
  have hspec := Uio.uiomoveIn_spec m k hu hk
  have hlength := Uio.length_bytes m hu hk
  generalize u.uiomoveIn m k = r at hspec
  cases hspec with
  | @ok u' _ hadv => exact ⟨_, u', rfl, hlength, hlength ▸ hadv⟩
  | fault hfault => exact absurd (hlength.symm ▸ hclear) hfault

/-- One byte more than the first chunk holds. -/
def long : Uio := ⟨[⟨0x1000, maxBuf + 1⟩], 0, 0, maxBuf + 1, 0, .user⟩

theorem long_new : Uio.new [⟨0x1000, maxBuf + 1⟩] .user 0 = .ok long := by
  rfl

theorem long_clear : long.Clear zeros.readable (maxBuf + 1) := by
  intro a ha
  have hmem := mem_of_mem_take ha
  simp only [Uio.rest, long, drop_zero, flatMap_cons, flatMap_nil, append_nil,
    addrs, mem_map, mem_range] at hmem
  obtain ⟨i, hi, rfl⟩ := hmem
  simp only [maxBuf] at hi
  exact .inr ⟨by simp only [vmMinUser]; omega, by simp only [vmMaxUser]; omega, rfl⟩

theorem startMsg_of_new {h : Handle} {flags : UInt64} {mem : Nat → Memory} {iov : List IoSeg}
    {uio : Uio} (hty : h.ty = sockStream) (hnew : Uio.new iov .user 0 = .ok uio)
    (hnext : nextMsg mem (.new uio) = .busy c) (hflags : refused h flags = false) :
    startMsg h flags mem iov = .busy c := by
  rw [startMsg, if_neg fun hbig ↦ hbig.1 hty, hnew]
  simp only [hnext, hflags, Bool.false_eq_true, if_false]

/-- The protocol takes a whole chunk that is not the last one. -/
theorem step_whole (h : Handle) (flags : UInt64) (mem : Nat → Memory) {chunk : List UInt8}
    {uio : Uio} (hasleep : c.asleep = false) (hsent : c.sent = 0) (hresid : c.uio.resid ≠ 0)
    (hcopy : c.uio.uiomoveIn (mem c.copies) (min maxBuf c.uio.resid) = (.ok chunk, uio)) :
    step .sendmsg h flags mem (.busy c) (.takes c.chunk.length) = some (.busy ⟨uio,
      c.total + c.chunk.length, chunk, 0, false, c.copies + 1, c.queue ++ c.chunk⟩) := by
  have hall : (c.take c.chunk.length).sent = c.chunk.length := by
    rw [Call.take, hsent, Nat.zero_add]
  have hqueue : (c.take c.chunk.length).queue = c.queue ++ c.chunk := by
    rw [Call.take, hsent, drop_zero, take_length]
  rw [step, hasleep, if_neg Bool.false_ne_true, ask, if_neg (by omega)]
  rw [if_pos (.inl hall), sent, sentMsg, if_neg (by rw [hall]; exact not_or.2 ⟨lt_irrefl _, hresid⟩)]
  have hnext := nextMsg_of_copy (c := { c.take c.chunk.length with
    total := c.total + (c.take c.chunk.length).sent }) hcopy
  refine congrArg some (hnext.trans ?_)
  rw [Call.begin, hall, hqueue]
  rfl

/-- The next chunk has to wait, and a signal comes. -/
theorem run_cut {mem : Nat → Memory} (hasleep : c.asleep = false) (hsent : c.sent = 0) :
    Machine.run (step .sendmsg ⟨sockStream, 0⟩ 0 mem) (.busy c) [.fails EAGAIN, .signal]
      = some (.done (.error ERESTART) c.queue) := by
  have hblock : step .sendmsg ⟨sockStream, 0⟩ 0 mem (.busy c) (.fails EAGAIN)
      = some (.busy { c with asleep := true }) := by
    rw [step, hasleep, if_neg Bool.false_ne_true, ask, if_pos rfl, block, if_neg (by decide)]
  have hother : ¬ (ERESTART = EINTR ∨ ERESTART = EAGAIN) := by decide
  have hsignal : step .sendmsg ⟨sockStream, 0⟩ 0 mem (.busy { c with asleep := true }) .signal
      = some (.done (.error ERESTART) c.queue) := by
    have hgive : giveUp { c with asleep := true } ERESTART = .error ERESTART :=
      if_neg (by dsimp only; omega)
    rw [step, if_pos rfl, sleep, if_neg nofun]
    simp only [wait, lt_self_iff_false, if_false]
    rw [hgive, sent, sentMsg, if_neg fun hback ↦ hother hback.2]
  exact run_cons.2 ⟨_, hblock, run_cons.2 ⟨_, hsignal, rfl⟩⟩

/-- **A `sendmsg` of more than a chunk**: the first chunk goes out, the second one waits, and a
signal comes.  The call is restarted although it has sent the first chunk. -/
theorem restarted_not_reports : ∃ queue,
    Machine.run (step .sendmsg ⟨sockStream, 0⟩ 0 fun _ ↦ zeros)
      (startMsg ⟨sockStream, 0⟩ 0 (fun _ ↦ zeros) [⟨0x1000, maxBuf + 1⟩])
      [.takes maxBuf, .fails EAGAIN, .signal] = some (.done (.error ERESTART) queue) ∧
      queue.length = maxBuf ∧ ¬ Reports (.error ERESTART) queue := by
  have hwf : long.WF := Uio.new_wf long_new
  have hle : maxBuf ≤ long.resid := Nat.le_succ maxBuf
  obtain ⟨chunk, uio, hcopy, hlength, hadv⟩ :=
    copyIn_of_clear hwf hle (long_clear.mono (Nat.le_succ maxBuf))
  have hresid : uio.resid = 1 := by
    have hsum : uio.resid + maxBuf = maxBuf + 1 := hadv.resid
    omega
  have hclear : uio.Clear zeros.readable 1 := (hadv.clear_iff.1 long_clear).2
  obtain ⟨chunk', uio', hcopy', hlength', -⟩ := copyIn_of_clear hadv.wf hresid.ge hclear
  have hstart : startMsg ⟨sockStream, 0⟩ 0 (fun _ ↦ zeros) [⟨0x1000, maxBuf + 1⟩]
      = .busy ⟨uio, 0, chunk, 0, false, 1, []⟩ :=
    startMsg_of_new rfl long_new (nextMsg_of_copy hcopy) (by decide)
  have hmin : min maxBuf uio.resid = 1 := by rw [hresid]; rfl
  rw [← hmin] at hcopy'
  have hwhole := step_whole ⟨sockStream, 0⟩ 0 (fun _ ↦ zeros)
    (c := ⟨uio, 0, chunk, 0, false, 1, []⟩) rfl rfl (hresid ▸ Nat.one_ne_zero) hcopy'
  rw [hlength] at hwhole
  refine ⟨chunk, ?_, hlength, ?_⟩
  · rw [hstart]
    exact run_cons.2 ⟨_, hwhole, run_cut rfl rfl⟩
  · rintro (hnil | hmem)
    · rw [hnil, length_nil] at hlength
      omega
    · exact hmem mem_cons_self

end Restarted

end OxideBSD.Socket
