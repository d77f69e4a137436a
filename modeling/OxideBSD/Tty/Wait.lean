import OxideBSD.Tty.Input

/-!
# Who waits for a terminal

The calls of `sys/tty/mod.rs` and `sys/tty/pty.rs` that wait: reads and writes of a terminal, and of
the master of a pseudo-terminal.  They wait for two reasons only, `WaitingForTty` and
`WaitingForTtyOutput`, and whoever adds data, makes room or ends a connection wakes the waiters of a
reason.

* `read`, `write`, `masterRead` and `masterWrite` are one round of the loop of a call: it returns
  (`Outcome.done`) or it waits.  A process that was woken goes through the next round.
* `step` is what else happens: input, settings, flushes, flow control, hang-ups, closes, ticks of
  the clock and signals that end a wait.  What input echoes is up to the event.
* `Inert` is why a waiter waits.  `Gentle` is what one input byte does to those reasons.
* `run_inert`: nobody waits whose call could go on, in a run in which settings are not changed and
  queues not flushed under a waiter that this would let go on, and no write is swallowed by output
  processing.
* `reader_stranded`: a reader that waits while the terminal becomes canonical is left alone with the
  bytes it could read.
-/

set_option autoImplicit false

namespace OxideBSD.Terminal.Waits

open Option

def outqMax : Nat := 8192
def timerHz : Nat := 100

/-! ## Output processing -/

/-- One byte of `cook`: what is written for it, and the column after it. -/
def cookByte (t : Termios) (column : Nat) (b : UInt8) : List UInt8 × Nat :=
  if b = newline then
    if t.output ONLCR then ([carriageReturn, newline], 0)
    else ([newline], if t.output ONLRET then 0 else column)
  else if b = carriageReturn then
    if t.output ONOCR && column = 0 then ([], column)
    else if t.output OCRNL then ([newline], if t.output ONLRET then 0 else column)
    else ([carriageReturn], 0)
  else if b = 9 then
    let n := 8 - column % 8
    (if t.oflag &&& TABDLY = TAB3 then List.replicate n 32 else [9], column + n)
  else if b = 8 then ([b], column - 1)
  else if 0x20 ≤ b && b ≤ 0x7e then ([b], column + 1)
  else if 0xc2 ≤ b && b ≤ 0xf4 && t.input IUTF8 then ([b], column + 1)
  else ([b], column)

def cookAll (t : Termios) : List UInt8 → Nat → List UInt8 × Nat
  | [], column => ([], column)
  | b :: rest, column =>
    let x := cookByte t column b
    let y := cookAll t rest x.2
    (x.1 ++ y.1, y.2)

/-- `cook` -/
def cook (t : Termios) (bytes : List UInt8) (column : Nat) : List UInt8 × Nat :=
  if t.output OPOST then cookAll t bytes column else (bytes, column)

/-- Output processing does not swallow the bytes, whatever the column. -/
def prints (t : Termios) (bytes : List UInt8) : Bool :=
  !(t.output OPOST && t.output ONOCR) || bytes.any (· ≠ carriageReturn)

/-! ## The terminal, its pair and its waiters -/

structure Pair where
  masterOpen : Bool
  slaveOpened : Bool
  out : List UInt8
  packet : Bool
  status : UInt8

/-- The signals of job control. -/
inductive JobSignal
  | ttin
  | ttou
  deriving DecidableEq

/-- A caller, with the signals it ignores or blocks, and whether a signal is pending that ends a
wait. -/
structure IoContext where
  pid : Nat
  pgid : Nat
  sid : Nat
  nonblock : Bool
  spared : JobSignal → Bool
  interrupted : Bool

inductive Call
  | read (n : Nat)
  | write (bytes : List UInt8)
  | masterRead (n : Nat)
  | masterWrite (bytes : List UInt8)
  deriving DecidableEq

/-- The call waits with the reason `WaitingForTty`. -/
def Call.waitsForTty : Call → Bool
  | .read _ | .masterRead _ => true
  | .write _ | .masterWrite _ => false

structure Waiter where
  cx : IoContext
  call : Call
  deadline : Option Nat

/-- `pair` is `none` for the terminal of a device, and `now` is `ticks()`. -/
structure St where
  tty : Tty
  session : Option Nat
  revoked : List Nat
  column : Nat
  lastInput : Nat
  opens : Nat
  pair : Option Pair
  now : Nat
  waiting : List Waiter

/-- A round of a call returns, or waits. -/
inductive Outcome
  | done (s : St)
  | wait (deadline : Option Nat)

def Outcome.waits : Outcome → Bool
  | .done _ => false
  | .wait _ => true

inductive JobControl
  | allowed
  | signaled
  | refused
  deriving DecidableEq

namespace St

variable (s : St)

def wake (readers writers : Bool) : St :=
  { s with waiting := s.waiting.filter fun w ↦ !(if w.call.waitsForTty then readers else writers) }

/-! ## The driver -/

def output (cooked : List UInt8) : St :=
  match s.pair with
  | none => s
  | some p =>
    if p.masterOpen then
      ({ s with pair := some { p with out := p.out ++ cooked } } : St).wake true false
    else s

def room : Bool :=
  match s.pair with
  | none => true
  | some p => !p.masterOpen || p.out.length < outqMax

def hungUp : Bool := s.pair.any (!·.masterOpen)

def lastClose : St := if s.pair.isSome then s.wake true true else s

def drained : St := if s.pair.isSome then s.wake false true else s

def status (bits : UInt8) : St :=
  match s.pair with
  | none => s
  | some p =>
    let s := { s with pair := some { p with
      out := if bits &&& TIOCPKT_FLUSHWRITE ≠ 0 then [] else p.out
      status := if p.packet then p.status ||| bits else p.status } }
    if p.packet then s.wake true false else s

/-- `slave_closed` -/
def slaveClosed : Bool := s.pair.any (·.slaveOpened) && s.opens = 0

def perform (fx : Effects) (echo : List UInt8) : St :=
  let s := if echo = [] then s else s.output echo
  let s := if fx.pkt = 0 then s else s.status fx.pkt
  s.wake fx.wakeReaders fx.wakeWriters

/-! ## Input -/

/-- The loops of `input`, which ends at a signal, and of `input_all`. -/
def inputs (batch : Bool) : List UInt8 → Tty × Effects → Tty × Effects
  | [], x => x
  | b :: rest, x =>
    let y := x.1.input b x.2
    if batch && y.2.signal.isSome then y else inputs batch rest y

def feed (batch : Bool) (bytes echo : List UInt8) (column : Nat) : St :=
  let x := inputs batch bytes (s.tty, .none)
  ({ s with
    tty := x.1
    column := column
    lastInput := if bytes = [] then s.lastInput else s.now } : St).perform x.2 echo

/-! ## The calls -/

def jobControl (cx : IoContext) (sig : JobSignal) : JobControl :=
  if s.session ≠ some cx.sid ∨ s.tty.pgrp = none ∨ s.tty.pgrp = some cx.pgid then .allowed
  else if cx.spared sig then if sig = .ttin then .refused else .allowed
  else .signaled

def block (cx : IoContext) (deadline : Option Nat) : Outcome :=
  if cx.nonblock || cx.interrupted then .done s else .wait deadline

def ticksOf (tenths : Nat) : Nat := tenths * timerHz / 10

/-- `Ok(t.take(buf))`, and what `read` does after it. -/
def taken (n : Nat) : Outcome :=
  let x := s.tty.take n
  let s := { s with tty := x.2 }
  .done (if x.1 = [] then s else s.drained)

/-- What a read does about the input. -/
inductive Ask
  | take
  | nothing
  | wait (deadline : Option Nat)

/-- The computation of a read's deadline, with its read timer; `timedOut` says that the last wait
ended at its deadline. -/
def ask (n : Nat) (timer : Option Nat) (timedOut : Bool) : Ask :=
  let vmin := (s.tty.termios.cc VMIN).toNat
  let vtime := (s.tty.termios.cc VTIME).toNat
  let avail := s.tty.readable.getD 0
  if s.tty.termios.canonical then if s.tty.readable.isSome then .take else .wait none
  else if vmin = 0 ∧ vtime = 0 then .take
  else if vmin = 0 then
    if 0 < avail then .take
    else if timer.isSome && timedOut then .nothing
    else .wait (some (timer.getD (s.now + ticksOf vtime)))
  else if min vmin n ≤ avail then .take
  else if 0 < vtime ∧ 0 < avail then
    let due := s.lastInput + ticksOf vtime
    if due ≤ s.now then .take else .wait (some due)
  else .wait none

/-- A round of `read_inner`. -/
def read (cx : IoContext) (n : Nat) (timer : Option Nat) (timedOut : Bool) : Outcome :=
  if n = 0 then .done s
  else if s.jobControl cx .ttin ≠ .allowed then .done s
  else if cx.sid ∈ s.revoked then .done s
  else match s.ask n timer timedOut with
    | .take => s.taken n
    | .nothing => .done s
    | .wait deadline => if s.hungUp then .done s else s.block cx deadline

def write (cx : IoContext) (bytes : List UInt8) : Outcome :=
  if s.tty.termios.localFlag TOSTOP ∧ s.jobControl cx .ttou = .signaled then .done s
  else if s.hungUp then .done s
  else if cx.sid ∈ s.revoked then .done s
  else
    let x := if !s.tty.stopped && s.room then cook s.tty.termios bytes s.column else ([], s.column)
    let s := { s with column := x.2 }
    if x.1 ≠ [] ∨ bytes = [] then .done (s.output x.1) else s.block cx none

def masterRead (cx : IoContext) (n : Nat) : Outcome :=
  match s.pair with
  | none => .done s
  | some p =>
    if n = 0 then .done s
    else if p.packet ∧ p.status ≠ 0 then
      .done (({ s with pair := some { p with status := 0 } } : St).wake false true)
    else if p.out ≠ [] then
      let k := n - p.packet.toNat
      .done (({ s with pair := some { p with out := p.out.drop k } } : St).wake false true)
    else if s.slaveClosed then .done s
    else s.block cx none

def masterWrite (cx : IoContext) (bytes echo : List UInt8) (column : Nat) : Outcome :=
  if s.pair.isNone ∨ s.slaveClosed ∨ bytes = [] then .done s
  else if 0 < s.tty.inputRoom then
    .done (s.feed false (bytes.take (min s.tty.inputRoom bytes.length)) echo column)
  else s.block cx none

end St

/-- What is not said by the call itself: the local variables of a read's loop, and what a master's
write echoes. -/
structure Round where
  timer : Option Nat
  timedOut : Bool
  echo : List UInt8
  column : Nat

def St.call (s : St) (cx : IoContext) (r : Round) : Call → Outcome
  | .read n => s.read cx n r.timer r.timedOut
  | .write bytes => s.write cx bytes
  | .masterRead n => s.masterRead cx n
  | .masterWrite bytes => s.masterWrite cx bytes r.echo r.column

/-- The call of a waiter, run again. -/
def St.again (s : St) (w : Waiter) : Outcome := s.call w.cx ⟨none, false, [], s.column⟩ w.call

/-! ## The machine -/

inductive Event
  | call (cx : IoContext) (c : Call) (r : Round)
  | input (bytes echo : List UInt8) (column : Nat)
  | setTermios (cx : IoContext) (new : Termios) (flush : Bool)
  | flush (which : Nat)
  | flow (action : Nat)
  | sessionLeaderExited (sid : Nat)
  | packet (on : Bool)
  | openSlave (fdRoom : Bool)
  | closeSlave
  | masterClose
  | tick
  | interrupt (pid : Nat)

namespace St

variable (s : St)

/-- The session is revoked, as in `hang_up` and `session_leader_exited`. -/
def revoke (sids : List Nat) : St :=
  ({ s with
    tty := { s.tty.flushInput with pgrp := none }
    session := none
    revoked := s.revoked ++ sids } : St).wake true true

def flush (which : Nat) : St :=
  let bits := if which = 0 then TIOCPKT_FLUSHREAD else if which = 1 then TIOCPKT_FLUSHWRITE
    else TIOCPKT_FLUSHREAD ||| TIOCPKT_FLUSHWRITE
  (if which = 1 then s else { s with tty := s.tty.flushInput }).status bits

def flow (action : Nat) : St :=
  if action = 0 then
    ({ s with tty := { s.tty with stopped := true } } : St).status TIOCPKT_STOP
  else if action = 1 then
    (({ s with tty := { s.tty with stopped := false } } : St).wake false true).status TIOCPKT_START
  else
    let c := s.tty.termios.cc (if action = 2 then VSTOP else VSTART)
    if c = 0 then s else s.output [c]

def expireTimers : St :=
  { s with
    now := s.now + 1
    waiting := s.waiting.filter fun w ↦ w.deadline.all (s.now + 1 < ·) }

end St

def step (s : St) : Event → Option St
  | .call cx c r =>
    if s.waiting.any (·.cx.pid = cx.pid) then none
    else match s.call cx r c with
      | .done s => some s
      | .wait deadline => some { s with waiting := ⟨cx, c, deadline⟩ :: s.waiting }
  | .input bytes echo column =>
    if s.pair.isSome then none else some (s.feed true bytes echo column)
  | .setTermios cx new flush =>
    if s.jobControl cx .ttou = .signaled then some s
    else
      let x := s.tty.setTermios new flush
      some (({ s with tty := x.1 } : St).perform x.2 [])
  | .flush which => if 2 < which then some s else some (s.flush which)
  | .flow action => if 3 < action then some s else some (s.flow action)
  | .sessionLeaderExited sid => if s.session = some sid then some (s.revoke [sid]) else some s
  | .packet on => some { s with pair := s.pair.map fun p ↦ { p with packet := on, status := 0 } }
  | .openSlave fdRoom =>
    if s.pair.any (·.masterOpen) then
      some { s with
        pair := s.pair.map fun p ↦ { p with slaveOpened := true }
        opens := if fdRoom then s.opens + 1 else s.opens }
    else some s
  | .closeSlave =>
    let s := { s with opens := s.opens - 1 }
    some (if s.opens = 0 then s.lastClose else s)
  | .masterClose =>
    if s.pair.any (·.masterOpen) then
      some (({ s with pair := s.pair.map fun p ↦ { p with masterOpen := false, out := [] } } :
        St).revoke s.session.toList)
    else none
  | .tick => some s.expireTimers
  | .interrupt pid => some { s with waiting := s.waiting.filter fun w ↦ w.cx.pid ≠ pid }

/-- A terminal nobody waits for. -/
def fresh (t : Termios) (session pgrp : Option Nat) (pair : Option Pair) : St :=
  ⟨⟨t, pgrp, [], [], [], false, false⟩, session, [], 0, 0, 0, pair, 0, []⟩

/-! ## Why a waiter waits -/

/-- There is nothing a read of `n` bytes may take, and a timer between bytes will wake it. -/
def Unready (s : St) (n : Nat) (deadline : Option Nat) : Prop :=
  let vmin := (s.tty.termios.cc VMIN).toNat
  let vtime := (s.tty.termios.cc VTIME).toNat
  (s.tty.termios.canonical = true → s.tty.readable = none) ∧
    (s.tty.termios.canonical = false → (vmin = 0 → vtime ≠ 0) ∧
      s.tty.ready.length < max 1 (min vmin n) ∧
      (vmin ≠ 0 → vtime ≠ 0 → s.tty.ready ≠ [] →
        ∃ d, deadline = some d ∧ s.now < d ∧ d ≤ s.lastInput + St.ticksOf vtime))

/-- Why a call waits. -/
def Held (s : St) (cx : IoContext) (deadline : Option Nat) : Call → Prop
  | .read n => n ≠ 0 ∧ s.jobControl cx .ttin = .allowed ∧ cx.sid ∉ s.revoked ∧ s.hungUp = false ∧
      Unready s n deadline
  | .write bytes => bytes ≠ [] ∧
      (s.tty.termios.localFlag TOSTOP = true → s.jobControl cx .ttou = .allowed) ∧
      cx.sid ∉ s.revoked ∧ s.hungUp = false ∧ (s.tty.stopped = true ∨ s.room = false) ∧
      prints s.tty.termios bytes = true
  | .masterRead n => n ≠ 0 ∧ s.slaveClosed = false ∧
      ∃ p, s.pair = some p ∧ (p.packet = true → p.status = 0) ∧ p.out = []
  | .masterWrite bytes => bytes ≠ [] ∧ s.slaveClosed = false ∧ s.pair.isSome ∧
      s.tty.inputRoom = 0

def Inert (s : St) (w : Waiter) : Prop :=
  w.cx.nonblock = false ∧ w.cx.interrupted = false ∧ Held s w.cx w.deadline w.call

/-- Whoever waits and is not about to be woken has a reason to. -/
structure Calm (s : St) (readers writers : Bool) : Prop where
  last : s.lastInput ≤ s.now
  inert : ∀ w ∈ s.waiting, (if w.call.waitsForTty then readers else writers) = false → Inert s w

variable {s s' : St} {cx : IoContext} {w : Waiter} {t : Tty} {readers writers : Bool}
  {x y z : Tty × Effects} {bytes echo : List UInt8} {readers' writers' timedOut : Bool}
  {n column : Nat} {deadline timer : Option Nat}

theorem Calm.wake (h : Calm s (readers || readers') (writers || writers')) :
    Calm (s.wake readers writers) readers' writers' := by
  refine ⟨h.last, fun w hw hnot ↦ ?_⟩
  obtain ⟨hw, hkeep⟩ := List.mem_filter.1 hw
  refine h.inert w hw ?_
  split at hnot <;> simp_all

/-- A change of the state that keeps the reasons of those who are not woken. -/
theorem Calm.mono (h : Calm s readers' writers')
    (hlast : s.lastInput ≤ s.now → s'.lastInput ≤ s'.now)
    (hwaiting : ∀ w ∈ s'.waiting, w ∈ s.waiting)
    (hkeep : ∀ w ∈ s'.waiting, (if w.call.waitsForTty then readers else writers) = false →
      (if w.call.waitsForTty then readers' else writers') = false ∧
        (Inert s w → Held s' w.cx w.deadline w.call)) : Calm s' readers writers := by
  refine ⟨hlast h.last, fun w hw hnot ↦ ?_⟩
  obtain ⟨hnot', hheld⟩ := hkeep w hw hnot
  have hin := h.inert w (hwaiting w hw) hnot'
  exact ⟨hin.1, hin.2.1, hheld hin⟩

theorem Calm.weaken (h : Calm s readers writers) (hreaders : readers = true → readers' = true)
    (hwriters : writers = true → writers' = true) : Calm s readers' writers' := by
  refine ⟨h.last, fun w hw hnot ↦ h.inert w hw ?_⟩
  split at hnot <;> simp_all

/-- The pair has news for its readers, or has more output: who is not woken still waits. -/
theorem Calm.setPair (h : Calm s readers writers) {p p' : Pair} (hp : s.pair = some p)
    (hmaster : p'.masterOpen = p.masterOpen) (hslave : p'.slaveOpened = p.slaveOpened)
    (hread : readers = false → (p.packet = true → p.status = 0) → p.out = [] →
      (p'.packet = true → p'.status = 0) ∧ p'.out = [])
    (hout : writers = false → p.out.length ≤ p'.out.length ∨
      ∀ w ∈ s.waiting, ∀ bytes, w.call = .write bytes → s.tty.stopped = true) :
    Calm { s with pair := some p' } readers writers := by
  refine h.mono id (fun _ ↦ id) fun ⟨cx, c, d⟩ hw hnot ↦ ⟨hnot, ?_⟩
  rintro ⟨-, -, hheld⟩
  cases c with
  | read n =>
    obtain ⟨hne, hjob, hrev, hhung, hun⟩ := hheld
    exact ⟨hne, hjob, hrev, by simpa [St.hungUp, hp, hmaster] using hhung, hun⟩
  | write bytes =>
    obtain ⟨hne, hjob, hrev, hhung, hstop, hprints⟩ := hheld
    refine ⟨hne, hjob, hrev, by simpa [St.hungUp, hp, hmaster] using hhung, ?_, hprints⟩
    obtain hlen | hstopped := hout hnot
    · refine hstop.imp_right fun hroom ↦ ?_
      simp only [St.room] at hroom ⊢
      grind
    · exact .inl (hstopped _ hw bytes rfl)
  | masterRead n =>
    obtain ⟨hne, hclosed, q, hq, hstatus, hnil⟩ := hheld
    obtain rfl : p = q := some.inj (hp.symm.trans hq)
    exact ⟨hne, by simpa [St.slaveClosed, hp, hslave] using hclosed, p', rfl,
      hread hnot hstatus hnil⟩
  | masterWrite bytes =>
    obtain ⟨hne, hclosed, hpair, hroom⟩ := hheld
    exact ⟨hne, by simpa [St.slaveClosed, hp, hslave] using hclosed, rfl, hroom⟩

theorem Calm.output (h : Calm s readers writers) (cooked : List UInt8) :
    Calm (s.output cooked) readers writers := by
  rw [St.output]
  split
  · exact h
  · rename_i p hp
    split
    · refine Calm.wake ((h.weaken (fun _ ↦ rfl) id).setPair hp rfl rfl nofun fun _ ↦ .inl ?_)
      simp
    · exact h

theorem Calm.status (h : Calm s readers writers) {bits : UInt8}
    (hbits : bits &&& TIOCPKT_FLUSHWRITE = 0 ∨
      ∀ w ∈ s.waiting, ∀ bytes, w.call = .write bytes → s.tty.stopped = true) :
    Calm (s.status bits) readers writers := by
  rw [St.status]
  split
  · exact h
  · rename_i p hp
    have hout : ∀ p' : Pair, p'.out = (if bits &&& TIOCPKT_FLUSHWRITE ≠ 0 then [] else p.out) →
        p.out.length ≤ p'.out.length ∨
          ∀ w ∈ s.waiting, ∀ bytes, w.call = .write bytes → s.tty.stopped = true :=
      fun p' hp' ↦ hbits.imp_left fun h0 ↦ by simp [hp', h0]
    dsimp only
    split
    · exact Calm.wake ((h.weaken (fun _ ↦ rfl) id).setPair hp rfl rfl nofun fun _ ↦ hout _ rfl)
    · rename_i hpacket
      refine h.setPair hp rfl rfl (fun _ _ hnil ↦ ⟨fun hp ↦ absurd hp hpacket, ?_⟩)
        fun _ ↦ hout _ rfl
      simp [hnil]

theorem Calm.perform {fx : Effects} (h : Calm s fx.wakeReaders fx.wakeWriters)
    (hpkt : fx.pkt &&& TIOCPKT_FLUSHWRITE = 0) (echo : List UInt8) :
    Calm (s.perform fx echo) false false := by
  refine Calm.wake ?_
  rw [Bool.or_false, Bool.or_false]
  have hecho : Calm (if echo = [] then s else s.output echo) fx.wakeReaders fx.wakeWriters := by
    split
    · exact h
    · exact h.output echo
  split
  · exact hecho
  · exact hecho.status (.inl hpkt)

/-! ## Input -/

/-- What one input byte does to the reasons to wait. -/
structure Gentle (x y : Tty × Effects) : Prop where
  termios : y.1.termios = x.1.termios
  pgrp : y.1.pgrp = x.1.pgrp
  readers : y.2.wakeReaders = false → x.2.wakeReaders = false ∧
    (y.1.ready = x.1.ready ∧ y.1.lines = x.1.lines ∨ y.1.ready = [] ∧ y.1.lines = [])
  writers : y.2.wakeWriters = false → x.2.wakeWriters = false ∧
    (x.1.stopped = true → y.1.stopped = true)
  pkt : x.2.pkt &&& TIOCPKT_FLUSHWRITE = 0 → y.2.pkt &&& TIOCPKT_FLUSHWRITE = 0

namespace Gentle

theorem refl (x : Tty × Effects) : Gentle x x :=
  ⟨rfl, rfl, fun h ↦ ⟨h, .inl ⟨rfl, rfl⟩⟩, fun h ↦ ⟨h, id⟩, id⟩

theorem trans (hxy : Gentle x y) (hyz : Gentle y z) : Gentle x z := by
  refine ⟨hyz.termios.trans hxy.termios, hyz.pgrp.trans hxy.pgrp, fun h ↦ ?_, fun h ↦ ?_,
    hyz.pkt ∘ hxy.pkt⟩
  · obtain ⟨hy, hready⟩ := hyz.readers h
    obtain ⟨hx, hready'⟩ := hxy.readers hy
    exact ⟨hx, by grind⟩
  · obtain ⟨hy, hstop⟩ := hyz.writers h
    obtain ⟨hx, hstop'⟩ := hxy.writers hy
    exact ⟨hx, hstop ∘ hstop'⟩

end Gentle

theorem gentle_store (t : Tty) (b : UInt8) (fx : Effects) : Gentle (t, fx) (t.store b fx) := by
  rw [Tty.store]
  split_ifs
  · exact .refl _
  · dsimp only
    split
    · exact ⟨rfl, rfl, by rintro ⟨⟩, fun h ↦ ⟨h, id⟩, id⟩
    · exact ⟨rfl, rfl, fun h ↦ ⟨h, .inl ⟨rfl, rfl⟩⟩, fun h ↦ ⟨h, id⟩, id⟩
  · exact .refl _
  · exact ⟨rfl, rfl, by simp, fun h ↦ ⟨h, id⟩, id⟩

/-- A change of the line being edited. -/
theorem gentle_line (t : Tty) (canon : List UInt8) (literal : Bool) (fx : Effects) :
    Gentle (t, fx) ({ t with canon := canon, literal := literal }, fx) :=
  ⟨rfl, rfl, fun h ↦ ⟨h, .inl ⟨rfl, rfl⟩⟩, fun h ↦ ⟨h, id⟩, id⟩

theorem gentle_edit (t : Tty) (b : UInt8) (fx : Effects) : Gentle (t, fx) (t.edit b fx) := by
  rw [Tty.edit]
  split_ifs
  all_goals first
    | exact gentle_line ..
    | exact gentle_store ..
    | exact ⟨rfl, rfl, by rintro ⟨⟩, fun h ↦ ⟨h, id⟩, id⟩

theorem gentle_cook (t : Tty) (b : UInt8) (fx : Effects) : Gentle (t, fx) (t.cook b fx) := by
  rw [Tty.cook]
  split
  · exact .refl _
  · split
    · split_ifs
      · exact ⟨rfl, rfl, fun h ↦ ⟨h, .inl ⟨rfl, rfl⟩⟩, fun h ↦ ⟨h, id⟩, id⟩
      · exact ⟨rfl, rfl, fun h ↦ ⟨h, .inr ⟨rfl, rfl⟩⟩, fun h ↦ ⟨h, id⟩, id⟩
    · exact gentle_edit ..

theorem or_and_eq_zero {a b m : UInt8} (ha : a &&& m = 0) (hb : b &&& m = 0) :
    (a ||| b) &&& m = 0 := by
  rw [← UInt8.toNat_inj, UInt8.toNat_and] at ha hb ⊢
  rw [UInt8.toNat_or, Nat.and_or_distrib_right, ha, hb]
  rfl

/-- Output starts, and its writers are woken. -/
theorem gentle_start (t : Tty) (fx : Effects) : Gentle (t, fx) ({ t with stopped := false },
    { fx with wakeWriters := true, pkt := fx.pkt ||| TIOCPKT_START }) :=
  ⟨rfl, rfl, fun h ↦ ⟨h, .inl ⟨rfl, rfl⟩⟩, nofun, fun h ↦ or_and_eq_zero h (by decide)⟩

theorem gentle_input (t : Tty) (b : UInt8) (fx : Effects) : Gentle (t, fx) (t.input b fx) := by
  rw [Tty.input]
  split
  · exact (gentle_line t t.canon false fx).trans (gentle_store ..)
  · generalize (if t.termios.input ISTRIP = true then b &&& 127 else b) = b
    dsimp only
    split_ifs
    · exact ⟨rfl, rfl, fun h ↦ ⟨h, .inl ⟨rfl, rfl⟩⟩, fun h ↦ ⟨h, fun _ ↦ rfl⟩,
        fun h ↦ or_and_eq_zero h (by decide)⟩
    · exact gentle_start t fx
    · exact (gentle_start t fx).trans (gentle_cook ..)
    · exact gentle_cook ..
    · exact gentle_cook ..

theorem gentle_inputs (batch : Bool) (bytes : List UInt8) (x : Tty × Effects) :
    Gentle x (St.inputs batch bytes x) := by
  induction bytes generalizing x with
  | nil => exact .refl x
  | cons b bytes ih =>
    rw [St.inputs]
    split
    · exact gentle_input ..
    · exact (gentle_input ..).trans (ih _)

theorem allowed_congr {sig : JobSignal} (h : s.jobControl cx sig = .allowed)
    (hsession : s'.session = s.session) (hpgrp : s'.tty.pgrp = s.tty.pgrp) :
    s'.jobControl cx sig = .allowed := by
  rwa [St.jobControl, hsession, hpgrp]

theorem Unready.mono (h : Unready s n deadline) (htermios : s'.tty.termios = s.tty.termios)
    (hnow : s'.now = s.now) (hlast : s.lastInput ≤ s'.lastInput)
    (hlines : s.tty.termios.canonical = true → s.tty.readable = none → s'.tty.readable = none)
    (hready : s.tty.termios.canonical = false → s'.tty.ready.length ≤ s.tty.ready.length) :
    Unready s' n deadline := by
  rw [Unready, htermios, hnow]
  refine ⟨fun hc ↦ hlines hc (h.1 hc), fun hc ↦ ?_⟩
  obtain ⟨hzero, hfew, htimer⟩ := h.2 hc
  have hle := hready hc
  refine ⟨hzero, hle.trans_lt hfew, fun hmin htime hne ↦ ?_⟩
  have hne' : s.tty.ready ≠ [] := by
    rw [← List.length_pos_iff] at hne ⊢
    omega
  obtain ⟨d, hd, hlt, hdue⟩ := htimer hmin htime hne'
  exact ⟨d, hd, hlt, hdue.trans (Nat.add_le_add_right hlast _)⟩

theorem Calm.feed (h : Calm s false false)
    (hroom : s.pair.isSome = true → 0 < s.tty.inputRoom) (batch : Bool) (bytes echo : List UInt8)
    (column : Nat) : Calm (s.feed batch bytes echo column) false false := by
  have hg := gentle_inputs batch bytes (s.tty, .none)
  refine Calm.perform ?_ (hg.pkt (show (0 : UInt8) &&& TIOCPKT_FLUSHWRITE = 0 by decide)) echo
  have hlast := h.last
  refine h.mono (fun _ ↦ by dsimp only; split <;> omega) (fun _ ↦ id)
    fun ⟨cx, c, d⟩ _ hnot ↦ ⟨?_, ?_⟩
  · split <;> rfl
  · rintro ⟨-, -, hheld⟩
    cases c with
    | read n =>
      obtain ⟨hne, hjob, hrev, hhung, hun⟩ := hheld
      refine ⟨hne, allowed_congr hjob rfl hg.pgrp, hrev, hhung,
        hun.mono hg.termios rfl ?_ (fun hc hnone ↦ ?_) fun _ ↦ ?_⟩
      · dsimp only
        split <;> omega
      · obtain ⟨-, ⟨hr, hl⟩ | ⟨hr, hl⟩⟩ := hg.readers hnot
        · simpa [Tty.readable, hg.termios, hr, hl] using hnone
        · simp [Tty.readable, hr, hl]
      · obtain ⟨-, ⟨hr, hl⟩ | ⟨hr, hl⟩⟩ := hg.readers hnot <;> simp [hr]
    | write bytes =>
      obtain ⟨hne, hjob, hrev, hhung, hstop, hprints⟩ := hheld
      refine ⟨hne, fun hto ↦ ?_, hrev, hhung, hstop.imp_left (hg.writers hnot).2, ?_⟩
      · exact allowed_congr (hjob (hg.termios ▸ hto)) rfl hg.pgrp
      · dsimp only
        rwa [hg.termios]
    | masterRead n => exact hheld
    | masterWrite bytes =>
      have hzero : s.tty.inputRoom = 0 := hheld.2.2.2
      exact absurd (hroom hheld.2.2.1) (by omega)

/-! ## The calls -/

theorem take_eq (t : Tty) (n : Nat) : ∃ k lines, (t.take n).1 = t.ready.take k ∧
    (t.take n).2 = { t with ready := t.ready.drop k, lines := lines } := by
  rw [Tty.take]
  split
  · split
    · exact ⟨0, t.lines, rfl, rfl⟩
    · exact ⟨_, _, rfl, rfl⟩
  · exact ⟨_, _, rfl, rfl⟩

theorem Calm.taken (h : Calm s false false)
    (hsome : s.tty.termios.canonical = true →
    s.tty.readable.isSome = true) (hs : s.taken n = .done s') : Calm s' false false := by
  obtain ⟨k, lines, hbytes, htty⟩ := take_eq s.tty n
  rw [St.taken, hbytes, htty] at hs
  obtain rfl := Outcome.done.inj hs
  have hcalm : Calm
      ({ s with tty := { s.tty with ready := s.tty.ready.drop k, lines := lines } } : St)
      false (s.pair.isSome && s.tty.ready.take k ≠ []) := by
    refine h.mono id (fun _ ↦ id) fun ⟨cx, c, d⟩ _ hnot ↦ ⟨by split <;> rfl, ?_⟩
    rintro ⟨-, -, hheld⟩
    cases c with
    | read n =>
      obtain ⟨hne, hjob, hrev, hhung, hun⟩ := hheld
      refine ⟨hne, hjob, hrev, hhung, hun.mono rfl rfl le_rfl (fun hc hnone ↦ ?_) fun _ ↦ ?_⟩
      · have := hsome hc
        simp [hnone] at this
      · simp
    | write bytes => exact hheld
    | masterRead n => exact hheld
    | masterWrite bytes =>
      obtain ⟨hne, hclosed, hpair, hroom⟩ := hheld
      refine ⟨hne, hclosed, hpair, ?_⟩
      have hnil : s.tty.ready.take k = [] := by
        by_contra hne
        simp [Call.waitsForTty, hpair, hne] at hnot
      have hsame : s.tty.ready.drop k = s.tty.ready := by
        obtain hk | hk := List.take_eq_nil_iff.1 hnil <;> simp [hk]
      simpa [Tty.inputRoom, hsame] using hroom
  split
  · rename_i hnil
    simpa [hnil] using hcalm
  · rename_i hne
    rw [St.drained]
    split
    · rename_i hpair
      refine Calm.wake ?_
      simpa [hne, show s.pair.isSome = true from hpair] using hcalm
    · rename_i hpair
      simpa [show s.pair.isSome = false by simpa using hpair] using hcalm

theorem isSome_of_ask (hask : s.ask n timer timedOut = .take)
    (hc : s.tty.termios.canonical = true) : s.tty.readable.isSome = true := by
  rw [St.ask, if_pos hc] at hask
  by_contra hno
  rw [if_neg hno] at hask
  cases hask

theorem getD_readable (hc : s.tty.termios.canonical = false) :
    s.tty.readable.getD 0 = s.tty.ready.length := by
  rw [Tty.readable, if_neg (by simp [hc])]
  split <;> simp_all

theorem unready_of_ask (hn : n ≠ 0) (hask : s.ask n timer timedOut = .wait deadline) :
    Unready s n deadline := by
  refine ⟨fun hc ↦ ?_, fun hc ↦ ?_⟩
  · rw [St.ask, if_pos hc] at hask
    by_contra hsome
    rw [if_pos (isSome_iff_ne_none.2 hsome)] at hask
    cases hask
  · have havail := getD_readable hc
    rw [St.ask] at hask
    grind

theorem ask_of_unready (hn : n ≠ 0) (h : Unready s n deadline) :
    ∃ d, s.ask n none false = .wait d := by
  cases hc : s.tty.termios.canonical with
  | true =>
    rw [St.ask, if_pos hc, h.1 hc]
    exact ⟨none, rfl⟩
  | false =>
    have havail := getD_readable hc
    have hun := h.2 hc
    rw [St.ask, if_neg (by simp [hc])]
    have hready : 0 < s.tty.ready.length → s.tty.ready ≠ [] := List.length_pos_iff.1
    dsimp only
    split_ifs <;> grind

theorem Calm.read (h : Calm s false false) (hs : s.read cx n timer timedOut = .done s') :
    Calm s' false false := by
  have hsame : Outcome.done s = .done s' → Calm s' false false := fun hs ↦ Outcome.done.inj hs ▸ h
  rw [St.read] at hs
  repeat' split at hs
  · exact hsame hs
  · exact hsame hs
  · exact hsame hs
  · exact h.taken (isSome_of_ask ‹_›) hs
  · exact hsame hs
  · exact hsame hs
  · exact hsame (of_ite_right hs nofun).2

theorem block_eq_wait {d d' : Option Nat} (h : s.block cx d = .wait d') :
    cx.nonblock = false ∧ cx.interrupted = false ∧ d = d' := by
  rw [St.block] at h
  split at h
  · cases h
  · exact ⟨by simp_all, by simp_all, Outcome.wait.inj h⟩

theorem block_of_inert (hin : cx.nonblock = false ∧ cx.interrupted = false) (s : St)
    (d : Option Nat) : s.block cx d = .wait d := by
  rw [St.block, hin.1, hin.2]
  rfl

theorem inert_read (hs : s.read cx n timer timedOut = .wait deadline) :
    Inert s ⟨cx, .read n, deadline⟩ := by
  rw [St.read] at hs
  repeat' split at hs
  all_goals try cases hs
  rename_i hn hjob hrev _ d hask hhung
  obtain ⟨hnb, hint, rfl⟩ := block_eq_wait hs
  exact ⟨hnb, hint, hn, not_not.1 hjob, hrev, by simpa using hhung, unready_of_ask hn hask⟩

theorem cookByte_ne_nil {t : Termios} {b : UInt8}
    (h : (t.output ONOCR && decide (b = carriageReturn)) = false) :
    (cookByte t column b).1 ≠ [] := by
  rw [cookByte]
  split_ifs <;> simp_all
  omega

/-- Output processing writes something for bytes that it does not swallow. -/
theorem cook_ne_nil {t : Termios} (h : prints t bytes = true) (hne : bytes ≠ []) :
    (cook t bytes column).1 ≠ [] := by
  rw [cook]
  split
  · rename_i hpost
    induction bytes generalizing column with
    | nil => exact absurd rfl hne
    | cons b bytes ih =>
      rw [cookAll]
      by_cases hb : (t.output ONOCR && decide (b = carriageReturn)) = true
      · have hrest : prints t bytes = true := by
          simp [prints] at h hb ⊢
          exact h.imp_right fun h ↦ h.resolve_left (not_not.2 hb.2)
        have hne' : bytes ≠ [] := by
          rintro rfl
          simp_all [prints]
        simp [ih hrest hne']
      · simp [cookByte_ne_nil (by simpa using hb)]
  · exact hne

theorem allowed_of_ne_signaled (h : s.jobControl cx .ttou ≠ .signaled) :
    s.jobControl cx .ttou = .allowed := by
  rw [St.jobControl] at h ⊢
  split_ifs at h ⊢ <;> simp_all

theorem inert_write (hprints : bytes = [] ∨ prints s.tty.termios bytes = true)
    (hs : s.write cx bytes = .wait deadline) : Inert s ⟨cx, .write bytes, deadline⟩ := by
  rw [St.write] at hs
  by_cases hjob : s.tty.termios.localFlag TOSTOP ∧ s.jobControl cx .ttou = .signaled
  · simp [hjob] at hs
  by_cases hhung : s.hungUp = true
  · simp [hhung, hjob] at hs
  by_cases hrev : cx.sid ∈ s.revoked
  · simp [hrev] at hs
  rw [if_neg hjob, if_neg hhung, if_neg hrev] at hs
  have hne : bytes ≠ [] := by
    rintro rfl
    simp at hs
  have hpr := hprints.resolve_left hne
  have hgo : ¬ (!s.tty.stopped && s.room) = true := by
    intro hgo
    rw [if_pos hgo, if_pos (.inl (cook_ne_nil hpr hne))] at hs
    cases hs
  rw [if_neg hgo, if_neg (by simpa using hne)] at hs
  obtain ⟨hnb, hint, -⟩ := block_eq_wait hs
  exact ⟨hnb, hint, hne, fun hto ↦ allowed_of_ne_signaled fun hsig ↦ hjob ⟨hto, hsig⟩, hrev,
    by simpa using hhung, by simpa [or_iff_not_imp_left] using hgo, hpr⟩

theorem Calm.write (h : Calm s false false) (hs : s.write cx bytes = .done s') :
    Calm s' false false := by
  have hsame : Outcome.done s = .done s' → Calm s' false false := fun hs ↦ Outcome.done.inj hs ▸ h
  rw [St.write] at hs
  split at hs
  · exact hsame hs
  · split at hs
    · exact hsame hs
    · split at hs
      · exact hsame hs
      · dsimp only at hs
        generalize (if (!s.tty.stopped && s.room) = true then cook s.tty.termios bytes s.column
          else ([], s.column)) = x at hs
        have hcolumn : Calm { s with column := x.2 } false false := ⟨h.last, h.inert⟩
        split at hs
        · exact Outcome.done.inj hs ▸ hcolumn.output x.1
        · exact Outcome.done.inj (of_ite_right hs nofun).2 ▸ hcolumn

/-- A master reads: its readers had nothing to read before, and the writers are woken. -/
theorem Calm.masterRead (h : Calm s false false) (hs : s.masterRead cx n = .done s') :
    Calm s' false false := by
  have hsame : Outcome.done s = .done s' → Calm s' false false := fun hs ↦ Outcome.done.inj hs ▸ h
  have hread : ∀ {p p' : Pair}, s.pair = some p → p'.masterOpen = p.masterOpen →
      p'.slaveOpened = p.slaveOpened → (p.packet = true ∧ p.status ≠ 0 ∨ p.out ≠ []) →
      Calm (({ s with pair := some p' } : St).wake false true) false false := by
    intro p p' hp hmaster hslave hnews
    refine Calm.wake ((h.weaken id nofun).setPair hp hmaster hslave (fun _ hstatus hnil ↦ ?_) nofun)
    obtain ⟨hpacket, hne⟩ | hne := hnews
    · exact absurd (hstatus hpacket) hne
    · exact absurd hnil hne
  rw [St.masterRead] at hs
  split at hs
  · exact hsame hs
  · rename_i p hp
    repeat' split at hs
    · exact hsame hs
    · exact Outcome.done.inj hs ▸ hread hp rfl rfl (.inl ‹_›)
    · exact Outcome.done.inj hs ▸ hread hp rfl rfl (.inr ‹_›)
    · exact hsame hs
    · exact hsame (of_ite_right hs nofun).2

theorem inert_masterRead (hs : s.masterRead cx n = .wait deadline) :
    Inert s ⟨cx, .masterRead n, deadline⟩ := by
  rw [St.masterRead] at hs
  split at hs
  · cases hs
  · rename_i p hp
    repeat' split at hs
    all_goals try cases hs
    rename_i hn hstatus hout hclosed
    obtain ⟨hnb, hint, rfl⟩ := block_eq_wait hs
    exact ⟨hnb, hint, hn, by simpa using hclosed, p, hp, by simpa using hstatus, not_not.1 hout⟩

theorem Calm.masterWrite (h : Calm s false false)
    (hs : s.masterWrite cx bytes echo column = .done s') : Calm s' false false := by
  rw [St.masterWrite] at hs
  split at hs
  · exact Outcome.done.inj hs ▸ h
  · split at hs
    · exact Outcome.done.inj hs ▸ h.feed (fun _ ↦ ‹_›) _ _ _ _
    · exact Outcome.done.inj (of_ite_right hs nofun).2 ▸ h

theorem inert_masterWrite (hs : s.masterWrite cx bytes echo column = .wait deadline) :
    Inert s ⟨cx, .masterWrite bytes, deadline⟩ := by
  rw [St.masterWrite] at hs
  repeat' split at hs
  · cases hs
  · cases hs
  · rename_i hno hroom
    obtain ⟨hpair, hclosed, hne⟩ := by simpa only [not_or] using hno
    obtain ⟨hnb, hint, rfl⟩ := block_eq_wait hs
    exact ⟨hnb, hint, hne, by simpa using hclosed, by simpa [isSome_iff_ne_none] using hpair,
      by simpa using hroom⟩

/-- A waiter's call would wait again. -/
theorem waits_again (h : Inert s w) : (s.again w).waits = true := by
  obtain ⟨cx, c, d⟩ := w
  obtain ⟨hnb, hint, hheld⟩ := h
  have hblock : ∀ (s : St) d, s.block cx d = .wait d := block_of_inert ⟨hnb, hint⟩
  cases c with
  | read n =>
    obtain ⟨hn, hjob, hrev, hhung, hun⟩ := hheld
    obtain ⟨d', hask⟩ := ask_of_unready hn hun
    simp_all [St.again, St.call, St.read, Outcome.waits]
  | write bytes =>
    obtain ⟨hne, hjob, hrev, hhung, hstop, -⟩ := hheld
    have hjob' : ¬ (s.tty.termios.localFlag TOSTOP = true ∧ s.jobControl cx .ttou = .signaled) :=
      fun ⟨hto, hsig⟩ ↦ by simp [hjob hto] at hsig
    have hgo : ¬ (!s.tty.stopped && s.room) = true := by
      obtain hstop | hroom := hstop <;> simp_all
    show (s.write cx bytes).waits = true
    rw [St.write, if_neg hjob', if_neg (by simp [hhung]), if_neg hrev, if_neg hgo,
      if_neg (by simpa using hne), hblock]
    rfl
  | masterRead n =>
    obtain ⟨hn, hclosed, p, hp, hstatus, hout⟩ := hheld
    have hstatus' : ¬ (p.packet = true ∧ p.status ≠ 0) := fun ⟨hpacket, hne⟩ ↦ hne (hstatus hpacket)
    show (s.masterRead cx n).waits = true
    simp only [St.masterRead, hp]
    rw [if_neg hn, if_neg hstatus', if_neg (by simp [hout]), if_neg (by simp [hclosed]), hblock]
    rfl
  | masterWrite bytes =>
    obtain ⟨hne, hclosed, hpair, hroom⟩ := hheld
    show (s.masterWrite cx bytes [] s.column).waits = true
    rw [St.masterWrite, if_neg (by simp [hclosed, hne, ne_none_iff_isSome.2 hpair]),
      if_neg (by omega), hblock]
    rfl

/-! ## Settings, flushes and the rest -/

/-- New settings do not let a waiter go on that they do not wake. -/
def settingsSpare (s : St) (new : Termios) (flush : Bool) (w : Waiter) : Bool :=
  match w.call with
  | .read _ => s.tty.termios.canonical || !new.canonical &&
      new.cc VMIN = s.tty.termios.cc VMIN && new.cc VTIME = s.tty.termios.cc VTIME
  | .write bytes => prints new bytes &&
      (!new.localFlag TOSTOP || s.jobControl w.cx .ttou = .allowed)
  | .masterRead _ => true
  | .masterWrite _ => !flush

/-- A flush does not make room for a waiter. -/
def flushSpares (s : St) (which : Nat) (w : Waiter) : Bool :=
  match w.call with
  | .write _ => which = 0 || s.tty.stopped
  | .masterWrite _ => which = 1
  | .read _ | .masterRead _ => true

def Call.onMaster : Call → Bool
  | .masterRead _ | .masterWrite _ => true
  | .read _ | .write _ => false

/-- Settings are not changed and queues not flushed under a waiter that this would let go on, no
open fails for want of a descriptor under a master's waiter, and output processing does not swallow
a write. -/
def Proper (s : St) : Event → Prop
  | .call _ (.write bytes) _ => bytes = [] ∨ prints s.tty.termios bytes = true
  | .setTermios _ new flush => ∀ w ∈ s.waiting, settingsSpare s new flush w = true
  | .flush which => ∀ w ∈ s.waiting, flushSpares s which w = true
  | .openSlave fdRoom => fdRoom = true ∨ ∀ w ∈ s.waiting, w.call.onMaster = false
  | _ => True

instance (s : St) (ev : Event) : Decidable (Proper s ev) := by
  unfold Proper
  split <;> infer_instance

/-- What new settings do to the reasons to wait. -/
theorem setTermios_facts (t : Tty) (new : Termios) (flush : Bool) :
    (t.setTermios new flush).1.termios = new ∧ (t.setTermios new flush).1.pgrp = t.pgrp ∧
    (t.setTermios new flush).2.pkt &&& TIOCPKT_FLUSHWRITE = 0 ∧
    ((t.setTermios new flush).2.wakeReaders = false →
      (t.termios.canonical = true → new.canonical = true) ∧
      ((t.setTermios new flush).1.ready = t.ready ∧ (t.setTermios new flush).1.lines = t.lines ∨
        (t.setTermios new flush).1.ready = [] ∧ (t.setTermios new flush).1.lines = [])) ∧
    ((t.setTermios new flush).2.wakeWriters = false → t.stopped = true →
      (t.setTermios new flush).1.stopped = true) ∧
    (flush = false → (t.setTermios new flush).1.inputRoom = t.inputRoom) := by
  rw [Tty.setTermios]
  refine ⟨?_, ?_, ?_, ?_, ?_, ?_⟩
  · split_ifs <;> rfl
  · split_ifs <;> rfl
  · dsimp only
    split_ifs <;> decide
  · intro hwake
    rw [if_neg (by simpa using hwake)]
    refine ⟨fun hc ↦ by simpa [hc] using hwake, ?_⟩
    cases flush with
    | true => exact .inr ⟨rfl, rfl⟩
    | false => exact .inl ⟨rfl, rfl⟩
  · intro hwake hstop
    split_ifs at hwake ⊢ <;> simp_all [Tty.flushInput]
  · rintro rfl
    simp only [Bool.false_eq_true, if_false]
    split_ifs <;> simp [Tty.inputRoom]

theorem Calm.setTermios (h : Calm s false false) {new : Termios} {flush : Bool}
    (hp : ∀ w ∈ s.waiting, settingsSpare s new flush w = true) :
    Calm (({ s with tty := (s.tty.setTermios new flush).1 } : St).perform
      (s.tty.setTermios new flush).2 []) false false := by
  obtain ⟨hnew, hpgrp, hpkt, hread, hwrite, hroom⟩ := setTermios_facts s.tty new flush
  refine Calm.perform ?_ hpkt []
  refine h.mono id (fun _ ↦ id) fun ⟨cx, c, d⟩ hw hnot ↦ ⟨by split <;> rfl, ?_⟩
  have hspare := hp _ hw
  rintro ⟨-, -, hheld⟩
  cases c with
  | read n =>
    obtain ⟨hne, hjob, hrev, hhung, hun⟩ := hheld
    refine ⟨hne, allowed_congr hjob rfl hpgrp, hrev, hhung, ?_⟩
    obtain ⟨hcan, hqueue⟩ := hread hnot
    by_cases hc : s.tty.termios.canonical = true
    · refine ⟨fun _ ↦ ?_, fun hno ↦ ?_⟩
      · have hnone := hun.1 hc
        obtain ⟨hr, hl⟩ | ⟨hr, hl⟩ := hqueue <;> simp_all [Tty.readable]
      · simp [hnew, hcan hc] at hno
    · simp only [settingsSpare, hc, Bool.false_or, Bool.and_eq_true, Bool.not_eq_true',
        decide_eq_true_eq] at hspare
      obtain ⟨⟨hraw, hmin⟩, htime⟩ := hspare
      obtain ⟨hzero, hfew, htimer⟩ := hun.2 (by simpa using hc)
      rw [Unready, hnew, hmin, htime]
      refine ⟨fun hno ↦ by simp [hraw] at hno, fun _ ↦ ⟨hzero, ?_⟩⟩
      obtain ⟨hr, hl⟩ | ⟨hr, hl⟩ := hqueue
      · simp only [hr]
        exact ⟨hfew, htimer⟩
      · simp only [hr, List.length_nil, ne_eq, not_true_eq_false, false_imp_iff, implies_true,
          and_true]
        omega
  | write bytes =>
    obtain ⟨hne, hjob, hrev, hhung, hstop, hprints⟩ := hheld
    simp only [settingsSpare, Bool.and_eq_true, Bool.or_eq_true,
      decide_eq_true_eq] at hspare
    refine ⟨hne, fun hto ↦ ?_, hrev, hhung, hstop.imp_left (hwrite hnot), ?_⟩
    · rw [hnew] at hto
      exact allowed_congr (hspare.2.resolve_left (by simp [hto])) rfl hpgrp
    · dsimp only
      rw [hnew]
      exact hspare.1
  | masterRead n => exact hheld
  | masterWrite bytes =>
    obtain ⟨hne, hclosed, hpair, hzero⟩ := hheld
    refine ⟨hne, hclosed, hpair, ?_⟩
    rw [hroom (by simpa [settingsSpare] using hspare)]
    exact hzero

/-- Input is flushed. -/
theorem Calm.flushInput (h : Calm s false false)
    (hp : ∀ w ∈ s.waiting, ∀ bytes, w.call ≠ .masterWrite bytes) :
    Calm { s with tty := s.tty.flushInput } false false := by
  refine h.mono id (fun _ ↦ id) fun ⟨cx, c, d⟩ hw hnot ↦ ⟨hnot, ?_⟩
  rintro ⟨-, -, hheld⟩
  cases c with
  | read n =>
    obtain ⟨hne, hjob, hrev, hhung, hun⟩ := hheld
    refine ⟨hne, hjob, hrev, hhung, hun.mono rfl rfl le_rfl (fun _ _ ↦ ?_) fun _ ↦ Nat.zero_le _⟩
    simp [Tty.readable, Tty.flushInput]
  | write bytes | masterRead n => exact hheld
  | masterWrite bytes => exact absurd rfl (hp _ hw bytes)

theorem Calm.flush (h : Calm s false false) {which : Nat}
    (hp : ∀ w ∈ s.waiting, flushSpares s which w = true) :
    Calm (s.flush which) false false := by
  have hwrite : which ≠ 0 →
      ∀ w ∈ s.waiting, ∀ bytes, w.call = .write bytes → s.tty.stopped = true := by
    intro hne w hw bytes hcall
    have := hp w hw
    simpa [flushSpares, hcall, hne] using this
  have hmaster : which ≠ 1 → ∀ w ∈ s.waiting, ∀ bytes, w.call ≠ .masterWrite bytes := by
    intro hne w hw bytes hcall
    have := hp w hw
    simp [flushSpares, hcall, hne] at this
  rw [St.flush]
  by_cases h1 : which = 1
  · subst h1
    exact h.status (.inr (hwrite (by decide)))
  · rw [if_neg h1]
    refine (h.flushInput (hmaster h1)).status ?_
    by_cases h0 : which = 0
    · subst h0
      exact .inl (by decide)
    · exact .inr (hwrite h0)

theorem Calm.flow (h : Calm s false false) (action : Nat) : Calm (s.flow action) false false := by
  rw [St.flow]
  split
  · refine Calm.status ?_ (.inl (by decide))
    refine h.mono id (fun _ ↦ id) fun ⟨cx, c, d⟩ _ hnot ↦ ⟨hnot, ?_⟩
    rintro ⟨-, -, hheld⟩
    cases c with
    | write bytes =>
      obtain ⟨hne, hjob, hrev, hhung, -, hprints⟩ := hheld
      exact ⟨hne, hjob, hrev, hhung, .inl rfl, hprints⟩
    | read n | masterRead n | masterWrite bytes => exact hheld
  · split
    · refine Calm.status ?_ (.inl (by decide))
      refine Calm.wake (h.mono id (fun _ ↦ id) fun ⟨cx, c, d⟩ _ hnot ↦ ⟨by split <;> rfl, ?_⟩)
      rintro ⟨-, -, hheld⟩
      cases c with
      | read n | masterRead n => exact hheld
      | write bytes | masterWrite bytes => cases hnot
    · dsimp only
      generalize s.tty.termios.cc (if action = 2 then VSTOP else VSTART) = c
      split
      · exact h
      · exact h.output [c]

/-- Nobody is left to wait. -/
theorem calm_wake (hlast : s.lastInput ≤ s.now) : Calm (s.wake true true) false false :=
  Calm.wake ⟨hlast, fun w _ hnot ↦ by split at hnot <;> cases hnot⟩

theorem Calm.openSlave (h : Calm s false false) {fdRoom : Bool}
    (hp : fdRoom = true ∨ ∀ w ∈ s.waiting, w.call.onMaster = false) :
    Calm { s with
      pair := s.pair.map fun p ↦ { p with slaveOpened := true }
      opens := if fdRoom then s.opens + 1 else s.opens } false false := by
  refine h.mono id (fun _ ↦ id) fun ⟨cx, c, d⟩ hw hnot ↦ ⟨hnot, ?_⟩
  rintro ⟨-, -, hheld⟩
  cases c with
  | read n =>
    obtain ⟨hne, hjob, hrev, hhung, hun⟩ := hheld
    exact ⟨hne, hjob, hrev, by simpa [St.hungUp, any_map] using hhung, hun⟩
  | write bytes =>
    obtain ⟨hne, hjob, hrev, hhung, hstop, hprints⟩ := hheld
    refine ⟨hne, hjob, hrev, by simpa [St.hungUp, any_map] using hhung, ?_, hprints⟩
    cases hpair : s.pair <;> simpa [St.room, hpair] using hstop
  | masterRead n =>
    obtain ⟨hne, -, p, hpair, hstatus, hnil⟩ := hheld
    obtain rfl := hp.resolve_right fun hno ↦ nomatch hno _ hw
    exact ⟨hne, by simp [St.slaveClosed], { p with slaveOpened := true }, by simp [hpair], hstatus,
      hnil⟩
  | masterWrite bytes =>
    obtain ⟨hne, -, hpair, hroom⟩ := hheld
    obtain rfl := hp.resolve_right fun hno ↦ nomatch hno _ hw
    exact ⟨hne, by simp [St.slaveClosed], by simpa using hpair, hroom⟩

theorem Calm.packet (h : Calm s false false) (on : Bool) : Calm
    { s with pair := s.pair.map fun p ↦ { p with packet := on, status := 0 } } false false := by
  cases hp : s.pair with
  | none =>
    have hsame : ({ s with pair := none } : St) = s := by rw [← hp]
    rwa [map_none, hsame]
  | some p => exact h.setPair hp rfl rfl (fun _ _ hnil ↦ ⟨fun _ ↦ rfl, hnil⟩) fun _ ↦ .inl le_rfl

theorem Calm.closeSlave (h : Calm s false false) : Calm
    (if s.opens - 1 = 0 then ({ s with opens := s.opens - 1 } : St).lastClose
      else { s with opens := s.opens - 1 }) false false := by
  have hpair : s.opens - 1 ≠ 0 ∨ s.pair = none →
      Calm { s with opens := s.opens - 1 } false false := by
    intro hopen
    refine h.mono id (fun _ ↦ id) fun ⟨cx, c, d⟩ hw hnot ↦ ⟨hnot, ?_⟩
    rintro ⟨-, -, hheld⟩
    have hclosed : ({ s with opens := s.opens - 1 } : St).slaveClosed = false := by
      obtain hopen | hnone := hopen <;> simp [St.slaveClosed, *]
    cases c with
    | read n | write bytes => exact hheld
    | masterRead n => exact ⟨hheld.1, hclosed, hheld.2.2⟩
    | masterWrite bytes => exact ⟨hheld.1, hclosed, hheld.2.2⟩
  split
  · rw [St.lastClose]
    split
    · exact calm_wake h.last
    · rename_i hsome
      exact hpair (.inr (not_isSome_iff_eq_none.1 hsome))
  · exact hpair (.inl ‹_›)

/-- Time passes: whose timer between bytes is due is woken. -/
theorem Calm.expireTimers (h : Calm s false false) : Calm s.expireTimers false false := by
  refine h.mono (fun hlast ↦ hlast.trans (Nat.le_succ _)) (fun w hw ↦ (List.mem_filter.1 hw).1)
    fun ⟨cx, c, d⟩ hw hnot ↦ ⟨hnot, ?_⟩
  have hlate := (List.mem_filter.1 hw).2
  rintro ⟨-, -, hheld⟩
  cases c with
  | read n =>
    obtain ⟨hne, hjob, hrev, hhung, hun⟩ := hheld
    refine ⟨hne, hjob, hrev, hhung, hun.1, fun hc ↦ ?_⟩
    obtain ⟨hzero, hfew, htimer⟩ := hun.2 hc
    refine ⟨hzero, hfew, fun hmin htime hready ↦ ?_⟩
    obtain ⟨d', hd, -, hdue⟩ := htimer hmin htime hready
    obtain rfl : d = some d' := hd
    exact ⟨d', rfl, of_decide_eq_true hlate, hdue⟩
  | write bytes | masterRead n | masterWrite bytes => exact hheld

/-! ## Every run -/

theorem Calm.call (h : Calm s false false) {c : Call} {r : Round}
    (hs : s.call cx r c = .done s') : Calm s' false false := by
  cases c with
  | read n => exact h.read hs
  | write bytes => exact h.write hs
  | masterRead n => exact h.masterRead hs
  | masterWrite bytes => exact h.masterWrite hs

theorem inert_call {c : Call} {r : Round} (hp : Proper s (.call cx c r))
    (hs : s.call cx r c = .wait deadline) : Inert s ⟨cx, c, deadline⟩ := by
  cases c with
  | read n => exact inert_read hs
  | write bytes => exact inert_write hp hs
  | masterRead n => exact inert_masterRead hs
  | masterWrite bytes => exact inert_masterWrite hs

theorem step_inv {ev : Event} (h : Calm s false false) (hp : Proper s ev)
    (hs : step s ev = some s') : Calm s' false false := by
  cases ev with
  | call cx c r =>
    obtain ⟨-, hs⟩ := of_ite_left hs nofun
    split at hs
    · obtain rfl := some.inj hs
      exact h.call ‹_›
    · rename_i deadline hwait
      have hin := inert_call hp hwait
      obtain rfl := some.inj hs
      refine ⟨h.last, fun w hw hnot ↦ ?_⟩
      obtain rfl | hw := List.mem_cons.1 hw
      · exact hin
      · exact h.inert w hw hnot
  | input bytes echo column =>
    rw [step] at hs
    split at hs
    · cases hs
    · obtain rfl := some.inj hs
      exact h.feed (fun hsome ↦ absurd hsome ‹_›) _ _ _ _
  | setTermios cx new flush =>
    rw [step] at hs
    split at hs <;> obtain rfl := some.inj hs
    · exact h
    · exact h.setTermios hp
  | flush which =>
    rw [step] at hs
    split at hs <;> obtain rfl := some.inj hs
    · exact h
    · exact h.flush hp
  | flow action =>
    rw [step] at hs
    split at hs <;> obtain rfl := some.inj hs
    · exact h
    · exact h.flow action
  | sessionLeaderExited sid =>
    rw [step] at hs
    split at hs <;> obtain rfl := some.inj hs
    · exact calm_wake h.last
    · exact h
  | packet on =>
    obtain rfl := some.inj hs
    exact h.packet on
  | openSlave fdRoom =>
    rw [step] at hs
    split at hs <;> obtain rfl := some.inj hs
    · exact h.openSlave hp
    · exact h
  | closeSlave =>
    obtain rfl := some.inj hs
    exact h.closeSlave
  | masterClose =>
    cases (of_ite_right hs nofun).2
    exact calm_wake h.last
  | tick =>
    obtain rfl := some.inj hs
    exact h.expireTimers
  | interrupt pid =>
    obtain rfl := some.inj hs
    exact ⟨h.last, fun w hw ↦ h.inert w (List.mem_filter.1 hw).1⟩

/-- **No terminal waiter is stranded** in a run whose steps are all proper: the call of whoever
waits, run again, would wait. -/
theorem run_inert {t : Termios} {session pgrp : Option Nat} {pair : Option Pair} {es : List Event}
    (hmeets : Machine.Meets step Proper (fresh t session pgrp pair) es)
    (hrun : Machine.run step (fresh t session pgrp pair) es = some s) :
    ∀ w ∈ s.waiting, (s.again w).waits = true := by
  have hcalm : Calm s false false := Machine.run_inv (I := fun s ↦ Calm s false false)
    (fun _ _ _ hp h ↦ step_inv h hp) ⟨le_rfl, fun w hw ↦ absurd hw List.not_mem_nil⟩ hmeets hrun
  exact fun w hw ↦ waits_again (hcalm.inert w hw (by split <;> rfl))

/-- A process whose session the terminal does not control. -/
def caller (pid : Nat) : IoContext := ⟨pid, pid, pid, false, fun _ ↦ false, false⟩

/-- The first round of a call, with no echo. -/
def noRound : Round := ⟨none, false, [], 0⟩

/-- Settings without canonical mode in which a read waits for `vmin` bytes. -/
def rawTermios (vmin : UInt8) : Termios :=
  { defaultTermios with
    lflag := 0
    cc := fun c ↦ if c = VMIN then vmin else if c = VTIME then 0 else defaultTermios.cc c }

/-- A reader waits for three bytes and gets two, a writer waits for output to start again, and a
reader of the master for output. -/
def shared : List Event :=
  [.openSlave true, .call (caller 1) (.read 3) noRound,
   .call (caller 2) (.masterWrite [97, 98]) noRound, .call (caller 1) (.read 3) noRound, .flow 0,
   .call (caller 3) (.write [99]) noRound,
   .call (caller 4) (.masterRead 8) noRound]

/-- A terminal in which reads wait for three bytes, with the master open. -/
def threeBytes : St := fresh (rawTermios 3) none none (some ⟨true, false, [], false, 0⟩)

theorem run_inert_shared : ∃ s, Machine.run step threeBytes shared = some s ∧
      s.waiting.length = 3 ∧ ∀ w ∈ s.waiting, (s.again w).waits = true :=
  Machine.exists_run_and (by decide +kernel) fun _ hrun ↦ run_inert (by decide +kernel) hrun

/-- A reader waits for three bytes and gets two; then the terminal becomes canonical. -/
def cooked : List Event :=
  [.openSlave true, .call (caller 1) (.read 3) noRound,
   .call (caller 2) (.masterWrite [97, 98]) noRound, .call (caller 1) (.read 3) noRound,
   .setTermios (caller 5) defaultTermios false]

/-- **A reader is stranded** with two bytes it could read. -/
theorem reader_stranded : ∃ s, Machine.run step threeBytes cooked = some s ∧
      ∃ w ∈ s.waiting, (s.again w).waits = false :=
  Machine.exists_run _ (by decide +kernel)

end OxideBSD.Terminal.Waits
