import OxideBSD.Kern.LocalRights
import OxideBSD.Lib.Machine

/-!
# A local stream socket as a stream of bytes

One direction of a connection: sends of the peer deliver into the queue of a socket of type stream,
and receives read from it.  Any number of calls of both kinds are under way at a time, and each goes
on in turns: a send until all has been taken, a receive with `MSG_WAITALL` until its buffer is full.
`deliver` merges messages or keeps them apart, by the identity of the sender and by control data; a
receive runs across messages up to the next one with control data.

The machine keeps a record: the bytes each turn of a send has put in the queue, the control data with
the number of the byte it was sent with, the bytes received, and every turn of a receive.

* `InOrder`: the bytes received are those sent, in order, and `queued` counts the others.
* `Marked`: control data is received with the first byte it was sent with.
* `NoFalseEof`: a receive that returns no bytes and no control data is at the end of the stream.
* `run_stream`: the first holds of every run.  The others do in every run in which each send has data,
  each receive that takes data has room for a byte, and for the descriptors of the message it finds,
  and no receive that has got data goes on to a message which its socket adds credentials to.
* `blank_eof`: **a send of nothing reads as the end of the stream**.
-/

set_option autoImplicit false

namespace OxideBSD.Local.Stream

open Kern List Option Machine

/-! ## Sends -/

/-- A call of `send` (`uipc_socket.rs`). -/
structure Send where
  data : List UInt8
  sender : Cred
  control : Option Control
  sent : Nat
  /-- What it returned, if it has. -/
  ended : Option (Except Nat Nat)

namespace Send

/-- A call that has sent something returns that. -/
def giveUp (c : Send) (e : Nat) : Send :=
  { c with ended := some (if 0 < c.sent then .ok c.sent else .error e) }

/-- Control data goes with the first bytes sent, once. -/
def controlNow (c : Send) : Option Control := if c.sent = 0 then c.control else none

/-- A turn of the loop of `send` has sent `n` bytes. -/
def turn (c : Send) (n : Nat) : Send :=
  let c := { c with sent := c.sent + n }
  if c.sent = c.data.length then { c with ended := some (.ok c.sent) } else c

end Send

/-! ## Receives -/

/-- A call of `recv` (`uipc_socket.rs`). -/
structure Call where
  len : Nat
  peek : Bool
  waitall : Bool
  /-- The room for control data. -/
  room : Nat
  data : List UInt8
  control : List UInt8
  ctrunc : Bool
  /-- How it ended, if it has. -/
  ended : Option (Except Nat Unit)
  /-- For the record: the control data built when the call took control data off the queue. -/
  handed : Option (List UInt8)

/-- The bytes of a turn. -/
def dataOf : Except Nat RecvMsg → List UInt8
  | .ok m => m.data
  | .error _ => []

/-- The control data of a turn. -/
def controlOf : Except Nat RecvMsg → List UInt8
  | .ok m => m.control
  | .error _ => []

/-- The bytes a turn takes off the queue. -/
def readOff (peek : Bool) (r : Except Nat RecvMsg) : List UInt8 := if peek then [] else dataOf r

/-- The control data a turn takes off the queue of `u`. -/
def taken (u : Unp) (peek : Bool) : Except Nat RecvMsg → Option Control
  | .ok m => if peek ∨ m.stopped then none else u.queue.head?.bind Msg.control
  | .error _ => none

namespace Call

/-- A call that has got something returns that. -/
def giveUp (c : Call) (e : Nat) : Call :=
  { c with ended := some (if c.data ≠ [] then .ok () else .error e) }

/-- The control data a turn has brought. -/
def keep (c : Call) (m : RecvMsg) : Call :=
  if m.control ≠ [] ∨ m.ctrunc then
    { c with control := m.control, ctrunc := c.ctrunc || m.ctrunc }
  else c

/-- One turn of the loop of `recv`. -/
def turn (c : Call) : Except Nat RecvMsg → Call
  | .ok m =>
    if m.stopped then { c with ended := some (.ok ()) }
    else
      let c := { c.keep m with data := c.data ++ m.data }
      if m.data = [] ∨ ¬ c.waitall ∨ c.data.length = c.len then { c with ended := some (.ok ()) }
      else c
  | .error e => if e = EAGAIN then c else c.giveUp e

/-- A turn, with what is kept for the record. -/
def record (c : Call) (r : Except Nat RecvMsg) (mark : Option Control) : Call :=
  { c.turn r with handed := if mark.isSome then some (controlOf r) else c.handed }

end Call

/-! ## The machine -/

/-- A turn of a receive: the call, where in the stream it started, what it read, and the control data
it took off the queue. -/
structure Turn where
  call : Nat
  pos : Nat
  data : List UInt8
  mark : Option Control

structure St where
  unp : Unp
  sends : List Send
  calls : List Call
  /-- For the record: the bytes put in the queue, each time by the call with this number. -/
  pushes : List (Nat × List UInt8)
  /-- For the record: the control data sent, with the number of the byte it was sent with. -/
  marks : List (Nat × Control)
  /-- For the record: the bytes received. -/
  got : List UInt8
  turns : List Turn

inductive Event
  /-- A holder of the peer calls `send`. -/
  | send (data : List UInt8) (sender : Cred) (control : Option Control)
  | push (i cap : Nat)
  /-- The call would block and does not, its wait ends, or there is nobody to send to. -/
  | sendGiveUp (i e : Nat)
  /-- The peer closes, or shuts down its sending side. -/
  | hangup (reset : Bool)
  | setopt (passcred : Bool) (localCreds : LocalCreds)
  /-- A holder of the socket calls `recv`. -/
  | recv (len : Nat) (peek waitall : Bool) (room : Nat)
  | turn (i : Nat) (fdRoom : Nat) (fds : Nat → UInt32)
  | giveUp (i e : Nat)

namespace St

/-- A connected socket. -/
def init : St := ⟨{ Unp.new .stream with connected := true }, [], [], [], [], [], []⟩

/-- The bytes sent. -/
def sent (s : St) : List UInt8 := s.pushes.flatMap Prod.snd

/-- A turn of the send `c`, number `i`, puts `n` bytes in the queue, and the socket becomes `u`. -/
def deliver (s : St) (i : Nat) (c : Send) (n : Nat) (u : Unp) : St :=
  { s with
    unp := u
    sends := s.sends.set i (c.turn n)
    pushes := s.pushes ++ [(i, (c.data.drop c.sent).take n)]
    marks := s.marks ++ (c.controlNow.map (s.sent.length, ·)).toList }

/-- One turn of the send `c`, number `i`. -/
def push (s : St) (i : Nat) (c : Send) (cap : Nat) : St :=
  match s.unp.deliver .stream (c.data.drop c.sent) none cap c.sender c.controlNow with
  | .error _ => s
  | .ok (n, u) => s.deliver i c n u

/-- The turn of the receive `c`, number `i`, ends with `r`, and the socket becomes `u`. -/
def receive (s : St) (i : Nat) (c : Call) (r : Except Nat RecvMsg) (u : Unp) : St :=
  { s with
    unp := u
    calls := s.calls.set i (c.record r (taken s.unp c.peek r))
    got := s.got ++ readOff c.peek r
    turns := s.turns ++ [⟨i, s.got.length, dataOf r, taken s.unp c.peek r⟩] }

/-- A step of the call number `i`, if it has not ended. -/
def going {α : Type} (calls : List α) (ended : α → Bool) (i : Nat) (f : α → St) : Option St :=
  match calls[i]? with
  | none => none
  | some c => if ended c then none else some (f c)

/-- What the turn asks for. -/
def recvMsg (s : St) (c : Call) (fdRoom : Nat) (fds : Nat → UInt32) : Recv :=
  s.unp.recvMsg .stream (c.len - c.data.length) c.peek ⟨c.room, c.data ≠ []⟩ fdRoom fds

def step (s : St) : Event → Option St
  | .send data sender control =>
    some { s with sends := s.sends ++ [⟨data, sender, control, 0, none⟩] }
  | .push i cap => going s.sends (·.ended.isSome) i fun c ↦ s.push i c cap
  | .sendGiveUp i e =>
    going s.sends (·.ended.isSome) i fun c ↦ { s with sends := s.sends.set i (c.giveUp e) }
  | .hangup reset =>
    some { s with unp := { s.unp with
      eof := true
      peerGone := true
      reset := s.unp.reset || reset } }
  | .setopt passcred localCreds =>
    some { s with unp := { s.unp with passcred := passcred, localCreds := localCreds } }
  | .recv len peek waitall room =>
    some { s with
      calls := s.calls ++ [⟨len, peek, waitall && !peek, room, [], [], false, none, none⟩] }
  | .turn i fdRoom fds =>
    going s.calls (·.ended.isSome) i fun c ↦
      s.receive i c (s.recvMsg c fdRoom fds).result (s.recvMsg c fdRoom fds).unp
  | .giveUp i e =>
    going s.calls (·.ended.isSome) i fun c ↦ { s with calls := s.calls.set i (c.giveUp e) }

end St

/-! ## What is expected -/

/-- The bytes in the queue that have not been read. -/
def unread (u : Unp) : List UInt8 := u.queue.flatMap Msg.unread

/-- The bytes of the call number `i`. -/
def ofCall (log : List (Nat × List UInt8)) (i : Nat) : List UInt8 :=
  log.flatMap fun x ↦ if x.1 = i then x.2 else []

/-- The bytes in the record of each call are `bytes` of that call. -/
def Logged {α : Type} (log : List (Nat × List UInt8)) (calls : List α) (bytes : α → List UInt8) :
    Prop :=
  ∀ i, ofCall log i = (calls[i]?.map bytes).getD []

/-- **The bytes received are those sent**, in order: those the calls of `send` have reported, and
those the calls of `recv` have got.  Every turn of a receive has read on from where it started. -/
structure InOrder (s : St) : Prop where
  bytes : s.got ++ unread s.unp = s.sent
  queued : s.unp.queued = (unread s.unp).length
  turns : ∀ t ∈ s.turns, t.data <+: s.sent.drop t.pos
  sends : Logged s.pushes s.sends fun c ↦ c.data.take c.sent
  reported : ∀ c ∈ s.sends, ∀ n, c.ended = some (.ok n) → n = c.sent
  calls : Logged (s.turns.map fun t ↦ (t.call, t.data)) s.calls Call.data

/-- Control data received, with the number of the first byte of the turn. -/
def Turn.delivery (t : Turn) : Option (Nat × Control) := t.mark.map (t.pos, ·)

/-- **Control data is received with the first byte it was sent with**: in order, none of it skipped,
with at least that byte, and the call returns it. -/
structure Marked (s : St) : Prop where
  order : s.turns.filterMap Turn.delivery <+: s.marks
  skipped : ∀ x ∈ s.marks, x.1 < s.got.length → x ∈ s.turns.filterMap Turn.delivery
  byte : ∀ t ∈ s.turns, t.mark.isSome → t.data ≠ []
  returned : ∀ c ∈ s.calls, ∀ control, c.handed = some control → c.control = control

/-- **No data means the end.** -/
def NoFalseEof (s : St) : Prop :=
  ∀ c ∈ s.calls, c.ended = some (.ok ()) → 0 < c.len → c.data = [] → c.control = [] →
    s.unp.eof = true

/-- The condition. -/
def Plain (s : St) : Event → Prop
  | .send data _ _ => data ≠ []
  | .recv len peek _ _ => peek = true ∨ 0 < len
  | .turn i fdRoom _ => ∀ c ∈ s.calls[i]?, c.peek = false →
    (∀ m ∈ s.unp.queue.head?, m.rights.length ≤ fdRoom) ∧
      (c.data ≠ [] → s.unp.passcred = false ∧ s.unp.localCreds = .off)
  | _ => True

instance (s : St) (e : Event) : Decidable (Plain s e) := by
  cases e <;> unfold Plain <;> infer_instance

/-! ## The queue -/

/-- The control data in a queue whose first byte is number `p`. -/
def marksFrom : Nat → List Msg → List (Nat × Control)
  | _, [] => []
  | p, m :: queue => (m.control.map (p, ·)).toList ++ marksFrom (p + m.left) queue

section Queue

variable {p : Nat} {queue queue' : List Msg} {data : List UInt8} {m : Msg} {u u' : Unp}
  {len room fdRoom : Nat} {peek : Bool} {fds : Nat → UInt32}

theorem marksFrom_append (p : Nat) (queue queue' : List Msg) :
    marksFrom p (queue ++ queue')
      = marksFrom p queue ++ marksFrom (p + (queue.flatMap Msg.unread).length) queue' := by
  induction queue generalizing p with
  | nil => rfl
  | cons m queue ih =>
    rw [cons_append, marksFrom, marksFrom, ih, append_assoc, flatMap_cons,
      length_append, length_unread, Nat.add_assoc]

theorem le_of_mem_marksFrom {x : Nat × Control} (h : x ∈ marksFrom p queue) : p ≤ x.1 := by
  induction queue generalizing p with
  | nil => cases h
  | cons m queue ih =>
    rcases mem_append.1 h with h | h
    · obtain ⟨c, -, rfl⟩ := map_eq_some_iff.1 (mem_toList.1 h)
      exact Nat.le_refl p
    · exact (Nat.le_add_right p m.left).trans (ih h)

/-- A message that has been read in part. -/
theorem unread_read (m : Msg) (k : Nat) :
    m.unread.take k ++ Msg.unread { m with off := m.off + k } = m.unread := by
  rw [Msg.unread, Msg.unread, ← drop_drop, take_append_drop]

/-- Bytes that are read are no longer in the queue. -/
theorem reads_unread (h : Reads queue data queue') :
    data ++ queue'.flatMap Msg.unread = queue.flatMap Msg.unread := by
  induction h with
  | stop => rfl
  | part hcontrol hk =>
    rw [flatMap_cons, flatMap_cons, ← append_assoc, unread_read]
  | whole hcontrol _ ih => rw [flatMap_cons, append_assoc, ih]

/-- No control data is passed over. -/
theorem reads_marks (h : Reads queue data queue') (p : Nat) :
    marksFrom (p + data.length) queue' = marksFrom p queue := by
  induction h generalizing p with
  | stop => rfl
  | @part m queue k hcontrol hk =>
    have hlength := length_unread m
    rw [marksFrom, marksFrom, left_read, length_take, hlength, Nat.min_eq_left hk.le,
      Nat.add_assoc, Nat.add_sub_cancel' hk.le]
    simp [hcontrol]
  | @whole m queue queue' data hcontrol _ ih =>
    rw [marksFrom, hcontrol, length_append, length_unread, ← Nat.add_assoc, ih]
    rfl

/-- No message is read beyond its end. -/
def OffLe (queue : List Msg) : Prop := ∀ m ∈ queue, m.off ≤ m.data.length

/-- No message is blank. -/
def Full (queue : List Msg) : Prop := ∀ m ∈ queue, 0 < m.left

theorem OffLe.clear (h : OffLe (m :: queue)) : OffLe ({ m with control := none } :: queue) :=
  forall_mem_cons.2 (forall_mem_cons.1 h)

theorem Full.clear (h : Full (m :: queue)) : Full ({ m with control := none } :: queue) :=
  forall_mem_cons.2 (forall_mem_cons.1 h)

theorem reads_offLe (h : Reads queue data queue') (hoff : OffLe queue) : OffLe queue' := by
  induction h with
  | stop => exact hoff
  | @part m queue k hcontrol hk =>
    refine forall_mem_cons.2 ⟨?_, (forall_mem_cons.1 hoff).2⟩
    simp only [Msg.left] at hk ⊢
    omega
  | whole hcontrol _ ih => exact ih (forall_mem_cons.1 hoff).2

theorem reads_full (h : Reads queue data queue') (hfull : Full queue) : Full queue' := by
  induction h with
  | stop => exact hfull
  | @part m queue k hcontrol hk =>
    refine forall_mem_cons.2 ⟨?_, (forall_mem_cons.1 hfull).2⟩
    rw [left_read]
    omega
  | whole hcontrol _ ih => exact ih (forall_mem_cons.1 hfull).2

/-! ### Sends -/

/-- The bytes `bytes` are put at the end of a queue, behind the control data `control`. -/
structure Appends (queue queue' : List Msg) (bytes : List UInt8) (control : Option Control) :
    Prop where
  unread : queue'.flatMap Msg.unread = queue.flatMap Msg.unread ++ bytes
  offLe : OffLe queue'
  marks : ∀ p, marksFrom p queue' = marksFrom p queue
    ++ (control.map (p + (queue.flatMap Msg.unread).length, ·)).toList
  full : bytes ≠ [] → Full queue → Full queue'

/-- As a message of its own. -/
theorem appends_push (hoff : OffLe queue) (bytes : List UInt8) (sender : Cred)
    (control : Option Control) :
    Appends queue (queue ++ [⟨bytes, 0, none, sender, control⟩]) bytes control := by
  refine ⟨by simp [Msg.unread], ?_, fun p ↦ ?_, fun hbytes hfull ↦ ?_⟩
  · exact forall_mem_append.2 ⟨hoff, forall_mem_singleton.2 (Nat.zero_le _)⟩
  · rw [marksFrom_append]
    simp [marksFrom]
  · refine forall_mem_append.2 ⟨hfull, forall_mem_singleton.2 ?_⟩
    exact length_pos_iff.2 hbytes

/-- In the last message. -/
theorem appends_merge {last : Msg} (hoff : OffLe (queue ++ [last])) (bytes : List UInt8) :
    Appends (queue ++ [last]) (queue ++ [{ last with data := last.data ++ bytes }]) bytes none := by
  obtain ⟨hinit, hlast⟩ := forall_mem_append.1 hoff
  rw [forall_mem_singleton] at hlast
  refine ⟨?_, ?_, fun p ↦ ?_, fun hbytes hfull ↦ ?_⟩
  · simp [Msg.unread, drop_append_of_le_length hlast]
  · refine forall_mem_append.2 ⟨hinit, forall_mem_singleton.2 ?_⟩
    simp only [length_append]
    omega
  · rw [marksFrom_append, marksFrom_append]
    simp [marksFrom]
  · obtain ⟨hfull, hleft⟩ := forall_mem_append.1 hfull
    rw [forall_mem_singleton] at hleft
    refine forall_mem_append.2 ⟨hfull, forall_mem_singleton.2 ?_⟩
    simp only [Msg.left, length_append] at hleft ⊢
    omega

/-- How a send ends that is not refused. -/
theorem deliver_spec {cap n : Nat} {sender : Cred} {control : Option Control}
    (h : u.deliver .stream data none cap sender control = .ok (n, u')) (hoff : OffLe u.queue) :
    Appends u.queue u'.queue (data.take n) control ∧ n ≤ data.length ∧
      (data ≠ [] → data.take n ≠ []) ∧
      u'.queued = u.queued + (data.take n).length ∧
      u' = { u with queue := u'.queue, queued := u'.queued } := by
  simp only [Unp.deliver] at h
  split_ifs at h with hagain
  cases h
  have hlength : (data.take (min data.length (cap - u.queued))).length
      = min data.length (cap - u.queued) := by
    rw [length_take]
    omega
  refine ⟨?_, Nat.min_le_left _ _, fun hdata hnil ↦ hagain ⟨?_, hdata⟩, by rw [hlength], rfl⟩
  · dsimp only
    split
    next last hlast =>
      split_ifs
      · have hqueue := dropLast_append_getLast? last hlast
        have hmerge := appends_merge (hqueue.symm ▸ hoff) (data.take (min data.length (cap - u.queued)))
        rwa [hqueue] at hmerge
      · exact appends_push hoff _ sender none
    · exact appends_push hoff _ sender _
  · rw [← hlength, hnil]
    rfl

/-! ### Receives -/

/-- How a turn of a receive ends. -/
inductive Ends (u : Unp) (len : Nat) (peek : Bool) (ctl : RecvCtl) (fdRoom : Nat) :
    Except Nat RecvMsg → Unp → Prop
  /-- There is no message. -/
  | empty (hqueue : u.queue = []) : Ends u len peek ctl fdRoom (u.recvNone .stream) u
  /-- A call that has got data stops at control data. -/
  | stops (hcont : ctl.continuing = true) : Ends u len peek ctl fdRoom (.ok (.bytes [] [] false true)) u
  /-- The rights of the message do not fit. -/
  | refuses {m : Msg} {queue : List Msg} {u' : Unp} (hpeek : peek = false)
      (hroom : fdRoom < m.rights.length) (hqueue : u.queue = m :: queue)
      (hqueue' : u'.queue = { m with control := none } :: queue) (hqueued : u'.queued = u.queued)
      (hshut : u'.eof = u.eof ∧ u'.rdShut = u.rdShut) : Ends u len peek ctl fdRoom (.error EMSGSIZE) u'
  | peeks {m : Msg} {queue : List Msg} {data control : List UInt8} {ctrunc : Bool}
      {u' : Unp} (hpeek : peek = true) (hqueue : u.queue = m :: queue) (hbytes : data <+: unread u)
      (hqueue' : u'.queue = u.queue) (hqueued : u'.queued = u.queued) (hshut : u'.eof = u.eof ∧ u'.rdShut = u.rdShut)
      (hdata : 0 < len → 0 < m.left → data ≠ []) (hle : data.length ≤ len) :
      Ends u len peek ctl fdRoom (.ok (.bytes data control ctrunc false)) u'
  | takes {m : Msg} {queue : List Msg} {data control : List UInt8} {ctrunc : Bool} {u' : Unp}
      (hpeek : peek = false) (hqueue : u.queue = m :: queue)
      (hmark : ctl.continuing = true → m.control = none)
      (hreads : Reads ({ m with control := none } :: queue) data u'.queue)
      (hqueued : u'.queued = u.queued - data.length) (hshut : u'.eof = u.eof ∧ u'.rdShut = u.rdShut)
      (hdata : 0 < len → 0 < m.left → data ≠ []) (hle : data.length ≤ len)
      (hplain : m.control = none → u.passcred = false → u.localCreds = .off →
        control = [] ∧ ctrunc = false) :
      Ends u len peek ctl fdRoom (.ok (.bytes data control ctrunc false)) u'

theorem length_takeMore_le (room : Nat) (queue : List Msg) : (takeMore room queue).length ≤ room := by
  induction queue generalizing room with
  | nil => exact Nat.zero_le _
  | cons next queue ih =>
    rw [takeMore]
    split_ifs
    · exact Nat.zero_le _
    · have hrest := ih (room - min next.left room)
      simp only [length_append, length_take]
      omega

/-- What `readStream` reads, whether it is taken off the queue or not. -/
theorem readStream_fst (m : Msg) (queue : List Msg) (len : Nat) (peek : Bool) :
    (Unp.readStream m queue len peek).1
      = m.unread.take (min m.left len) ++ takeMore (len - min m.left len) queue := by
  cases peek <;> rfl

theorem length_readStream_le (m : Msg) (queue : List Msg) (len : Nat) (peek : Bool) :
    (Unp.readStream m queue len peek).1.length ≤ len := by
  have hmore := length_takeMore_le (len - min m.left len) queue
  rw [readStream_fst, length_append, length_take]
  omega

theorem readStream_ne_nil (hlen : 0 < len) (hleft : 0 < m.left) (queue : List Msg) (peek : Bool) :
    (Unp.readStream m queue len peek).1 ≠ [] := by
  intro hnil
  have hzero := congrArg length hnil
  rw [readStream_fst, length_append, length_take, length_unread, length_nil] at hzero
  omega

theorem externalize_refused (h : (externalize u m room peek fdRoom fds).refused = true) :
    fdRoom < (if peek then [] else m.rights).length := by
  revert h
  refine iteInduction (motive := fun h : Handed ↦ h.refused = true → _) (fun _ ↦ nofun) fun _ ↦
    iteInduction (motive := fun h : Handed ↦ h.refused = true → _) (fun hroom _ ↦ ?_) fun _ ↦ nofun
  exact hroom.trans_le (Nat.min_le_left _ _)

/-- Rights are refused only where they do not fit. -/
theorem control_refused (h : (u.control m room peek fdRoom fds).refused = true) :
    peek = false ∧ fdRoom < m.rights.length := by
  rw [Unp.control] at h
  split_ifs at h
  have hroom := externalize_refused h
  cases peek with
  | true => exact absurd hroom (Nat.not_lt_zero fdRoom)
  | false => exact ⟨rfl, hroom⟩

theorem control_plain (hm : m.control = none) (hpass : u.passcred = false)
    (hcreds : u.localCreds = .off) :
    (u.control m room peek fdRoom fds).control = [] ∧
      (u.control m room peek fdRoom fds).ctrunc = false := by
  simp [Unp.control, hm, hpass, hcreds]

theorem recvMsg_ends (u : Unp) (len : Nat) (peek : Bool) (ctl : RecvCtl) (fdRoom : Nat)
    (fds : Nat → UInt32) :
    Ends u len peek ctl fdRoom (u.recvMsg .stream len peek ctl fdRoom fds).result
      (u.recvMsg .stream len peek ctl fdRoom fds).unp := by
  rw [Unp.recvMsg]
  split
  next hqueue => exact .empty hqueue
  next m queue hqueue =>
    by_cases hstop : (SockType.stream = .stream ∧ ctl.continuing = true ∧ m.control.isSome = true)
    · rw [if_pos hstop]
      exact .stops hstop.2.1
    rw [if_neg hstop]
    by_cases hrefused : (u.control m ctl.room peek fdRoom fds).refused = true
    · rw [if_pos hrefused]
      obtain ⟨hpeek, hroom⟩ := control_refused hrefused
      exact .refuses hpeek hroom hqueue rfl rfl ⟨rfl, rfl⟩
    rw [if_neg hrefused]
    cases peek with
    | true =>
      have hreads := reads_readStream (m := { m with control := none }) rfl queue len
      have hunread := reads_unread hreads
      refine .peeks rfl hqueue ?_ hqueue.symm rfl ⟨rfl, rfl⟩
        (fun hlen hleft ↦ readStream_ne_nil hlen hleft queue true) (length_readStream_le m queue len _)
      rw [unread, hqueue]
      exact ⟨_, hunread⟩
    | false =>
      refine .takes rfl hqueue (fun hcont ↦ ?_) (reads_readStream rfl queue len) rfl ⟨rfl, rfl⟩
        (fun hlen hleft ↦ readStream_ne_nil hlen hleft queue false)
        (length_readStream_le _ queue len _) control_plain
      · simpa [hcont] using hstop

theorem dataOf_recvNone (u : Unp) : dataOf (u.recvNone .stream) = [] := by
  rw [Unp.recvNone]
  split_ifs <;> rfl

/-- The bytes of a turn are the next ones. -/
theorem ends_bytes {ctl : RecvCtl} {r : Except Nat RecvMsg} (h : Ends u len peek ctl fdRoom r u')
    (hoff : OffLe u.queue) :
    OffLe u'.queue ∧ dataOf r <+: unread u ∧ readOff peek r ++ unread u' = unread u ∧
      u'.queued = u.queued - (readOff peek r).length := by
  cases h with
  | empty hqueue => simp [readOff, dataOf_recvNone, hoff]
  | stops hcont => simp [readOff, dataOf, RecvMsg.bytes, hoff]
  | refuses hpeek hroom hqueue hqueue' hqueued hshut =>
    rw [hqueue] at hoff
    have hunread : unread u' = unread u := by rw [unread, unread, hqueue, hqueue']; rfl
    simp only [readOff, dataOf, ite_self, nil_prefix]
    exact ⟨hqueue'.symm ▸ hoff.clear, trivial, hunread, hqueued⟩
  | peeks hpeek hqueue hbytes hqueue' hqueued hshut hdata hle =>
    simp only [readOff, hpeek, if_true, nil_append]
    exact ⟨hqueue'.symm ▸ hoff, hbytes, by rw [unread, unread, hqueue'], hqueued⟩
  | takes hpeek hqueue hmark hreads hqueued hshut hdata hle hplain =>
    simp only [hpeek]
    rw [hqueue] at hoff
    have hunread := reads_unread hreads
    refine ⟨reads_offLe hreads hoff.clear, ?_, ?_, hqueued⟩
    · rw [unread, hqueue]
      exact ⟨_, hunread⟩
    · rw [unread, unread, hqueue]
      exact hunread

/-- A turn that stops has no data. -/
theorem ends_stopped {ctl : RecvCtl} {m : RecvMsg} (h : Ends u len peek ctl fdRoom (.ok m) u')
    (hstopped : m.stopped = true) : m.data = [] := by
  generalize hr : Except.ok m = r at h
  cases h with
  | empty hqueue => exact (congrArg dataOf hr).trans (dataOf_recvNone u)
  | stops hcont => exact congrArg dataOf hr
  | refuses => cases hr
  | peeks => cases hr; cases hstopped
  | takes => cases hr; cases hstopped

end Queue

/-! ## The record -/

section Record

variable {α : Type} {log : List (Nat × List UInt8)} {calls : List α} {bytes : α → List UInt8}
  {c : α}

theorem ofCall_append (log : List (Nat × List UInt8)) (i j : Nat) (data : List UInt8) :
    ofCall (log ++ [(i, data)]) j = ofCall log j ++ if i = j then data else [] := by
  simp [ofCall]

/-- A new call has no bytes. -/
theorem Logged.push (h : Logged log calls bytes) (hc : bytes c = []) :
    Logged log (calls ++ [c]) bytes := by
  intro i
  rw [h i]
  rcases lt_trichotomy i calls.length with hi | rfl | hi
  · rw [getElem?_append_left hi]
  · simp [hc]
  · rw [getElem?_eq_none hi.le, getElem?_eq_none (by simpa using Nat.succ_le_of_lt hi)]

theorem Logged.set (h : Logged log calls bytes) {i : Nat} {c' : α} (hc : calls[i]? = some c)
    (hbytes : bytes c' = bytes c) : Logged log (calls.set i c') bytes := by
  intro j
  rw [h j, getElem?_set]
  split_ifs with hij hi
  · rw [← hij, hc, map_some, map_some, hbytes]
  · exact absurd (List.getElem?_eq_some_iff.1 hc).1 hi
  · rfl

/-- The call number `i` gets more. -/
theorem Logged.more (h : Logged log calls bytes) {i : Nat} {c' : α} {data : List UInt8}
    (hc : calls[i]? = some c) (hbytes : bytes c' = bytes c ++ data) :
    Logged (log ++ [(i, data)]) (calls.set i c') bytes := by
  intro j
  rw [ofCall_append, h j, getElem?_set]
  split_ifs with hij hi
  · rw [← hij, hc, map_some, map_some, getD_some, getD_some, hbytes]
  · exact absurd (List.getElem?_eq_some_iff.1 hc).1 hi
  · rw [append_nil]

end Record

/-! ## Every run -/

/-- The invariant of every run. -/
structure Sound (s : St) : Prop where
  off : OffLe s.unp.queue
  order : InOrder s

section Order

variable {s s' : St} {i : Nat}

theorem turn_data {c : Call} {r : Except Nat RecvMsg} {mark : Option Control}
    (h : ∀ m, r = .ok m → m.stopped = true → m.data = []) :
    (c.record r mark).data = c.data ++ dataOf r := by
  rw [Call.record]
  cases r with
  | error e =>
    simp only [Call.turn, dataOf, append_nil]
    split_ifs <;> rfl
  | ok m =>
    simp only [Call.turn, dataOf]
    split_ifs with hstopped
    · rw [h m rfl hstopped, append_nil]
    · rfl
    · rfl

theorem Sound.receive {c : Call} {len fdRoom : Nat} {ctl : RecvCtl} {r : Except Nat RecvMsg}
    {u : Unp} (h : Sound s) (hc : s.calls[i]? = some c)
    (hends : Ends s.unp len c.peek ctl fdRoom r u) : Sound (s.receive i c r u) := by
  obtain ⟨hoff, ⟨hbytes, hqueued, hturns, hsends, hreported, hcalls⟩⟩ := h
  obtain ⟨hoff', hdata, hread, hqueued'⟩ := ends_bytes hends hoff
  refine ⟨hoff', ?_, ?_, ?_, hsends, hreported, ?_⟩
  · rw [← hread, ← append_assoc] at hbytes
    exact hbytes
  · rw [← hread, length_append] at hqueued
    rw [St.receive, hqueued', hqueued, Nat.add_sub_cancel_left]
  · refine forall_mem_append.2 ⟨hturns, forall_mem_singleton.2 ?_⟩
    have hsent : s.sent.drop s.got.length = unread s.unp := by rw [← hbytes, drop_left]
    exact hsent.symm ▸ hdata
  · rw [St.receive, map_append]
    refine hcalls.more hc (turn_data fun m hm hstopped ↦ ?_)
    exact ends_stopped (hm ▸ hends) hstopped

theorem sent_deliver (s : St) (i : Nat) (c : Send) (n : Nat) (u : Unp) :
    (s.deliver i c n u).sent = s.sent ++ (c.data.drop c.sent).take n := by
  rw [St.sent, St.deliver, flatMap_append, flatMap_singleton]
  rfl

theorem turn_sent (c : Send) (n : Nat) :
    (c.turn n).data = c.data ∧ (c.turn n).sent = c.sent + n := by
  rw [Send.turn]
  split_ifs <;> exact ⟨rfl, rfl⟩

theorem Sound.push {c : Send} (h : Sound s) (hc : s.sends[i]? = some c) (hended : c.ended = none)
    (cap : Nat) : Sound (s.push i c cap) := by
  rw [St.push]
  split
  · exact h
  next n u hdeliver =>
    obtain ⟨hoff, ⟨hbytes, hqueued, hturns, hsends, hreported, hcalls⟩⟩ := h
    obtain ⟨happends, -, -, hqueued', -⟩ := deliver_spec hdeliver hoff
    have hunread : unread u = unread s.unp ++ (c.data.drop c.sent).take n := happends.unread
    refine ⟨happends.offLe, ?_, ?_, fun t ht ↦ ?_, ?_, fun c' hc' k hk ↦ ?_, hcalls⟩
    · rw [sent_deliver, ← hbytes, append_assoc, ← hunread]
      rfl
    · rw [St.deliver, hqueued', hqueued, hunread, length_append]
    · rw [sent_deliver, drop_append]
      exact (hturns t ht).trans (prefix_append _ _)
    · refine hsends.more hc ?_
      rw [(turn_sent c n).1, (turn_sent c n).2, take_add]
    · rcases mem_or_eq_of_mem_set hc' with hmem | rfl
      · exact hreported c' hmem k hk
      · rw [(turn_sent c n).2]
        simp only [Send.turn] at hk
        split_ifs at hk
        · cases hk
          rfl
        · exact absurd (hended.symm.trans hk) nofun

theorem sent_giveUp {c : Send} {e n : Nat} (h : (c.giveUp e).ended = some (.ok n)) :
    n = c.sent := by
  simp only [Send.giveUp] at h
  split_ifs at h <;> cases h
  rfl

theorem of_going {α β : Type} {calls : List α} {ended : α → Option β} {f : α → St}
    (h : St.going calls (fun c ↦ (ended c).isSome) i f = some s') :
    ∃ c, calls[i]? = some c ∧ ended c = none ∧ f c = s' := by
  rw [St.going] at h
  split at h
  · cases h
  next c hc =>
    split_ifs at h with hended
    cases h
    exact ⟨c, hc, not_isSome_iff_eq_none.1 hended, rfl⟩

theorem step_sound {e : Event} (h : Sound s) (hstep : s.step e = some s') : Sound s' := by
  obtain ⟨hoff, ⟨hbytes, hqueued, hturns, hsends, hreported, hcalls⟩⟩ := id h
  cases e with
  | send data sender control =>
    cases hstep
    refine ⟨hoff, hbytes, hqueued, hturns, hsends.push rfl, ?_, hcalls⟩
    exact forall_mem_append.2 ⟨hreported, forall_mem_singleton.2 nofun⟩
  | push i cap =>
    obtain ⟨c, hc, hended, rfl⟩ := of_going hstep
    exact h.push hc hended cap
  | sendGiveUp i e =>
    obtain ⟨c, hc, hended, rfl⟩ := of_going hstep
    refine ⟨hoff, hbytes, hqueued, hturns, hsends.set hc rfl, fun c' hc' n hn ↦ ?_, hcalls⟩
    rcases mem_or_eq_of_mem_set hc' with hmem | rfl
    · exact hreported c' hmem n hn
    · exact sent_giveUp hn
  | hangup reset =>
    cases hstep
    exact ⟨hoff, hbytes, hqueued, hturns, hsends, hreported, hcalls⟩
  | setopt passcred localCreds =>
    cases hstep
    exact ⟨hoff, hbytes, hqueued, hturns, hsends, hreported, hcalls⟩
  | recv len peek waitall room =>
    cases hstep
    exact ⟨hoff, hbytes, hqueued, hturns, hsends, hreported, hcalls.push rfl⟩
  | turn i fdRoom fds =>
    obtain ⟨c, hc, hended, rfl⟩ := of_going hstep
    exact h.receive hc (recvMsg_ends _ _ _ _ fdRoom fds)
  | giveUp i e =>
    obtain ⟨c, hc, hended, rfl⟩ := of_going hstep
    exact ⟨hoff, hbytes, hqueued, hturns, hsends, hreported, hcalls.set hc rfl⟩

theorem sound_init : Sound .init := by
  refine ⟨nofun, rfl, rfl, nofun, fun i ↦ ?_, nofun, fun i ↦ ?_⟩
  all_goals rfl

end Order

/-! ## Every plain run -/

/-- What is kept of a receive, where the socket is at the end of the stream if `eof`. -/
structure Call.Fine (c : Call) (eof : Bool) : Prop where
  returned : ∀ control, c.handed = some control → c.control = control
  handed : c.handed.isSome → c.data ≠ [] ∧ c.peek = false
  fresh : c.ended = none → c.data = [] → c.control = []
  room : c.ended = none → 0 < c.len → c.data.length < c.len
  pos : c.peek = true ∨ 0 < c.len
  atEnd : c.ended = some (.ok ()) → 0 < c.len → c.data = [] → c.control = [] → eof = true

/-- The invariant of every plain run. -/
structure Proper (s : St) : Prop where
  full : Full s.unp.queue
  rdShut : s.unp.rdShut = false
  sends : ∀ c ∈ s.sends, c.ended = none → c.sent < c.data.length
  marks : s.turns.filterMap Turn.delivery ++ marksFrom s.got.length s.unp.queue = s.marks
  byte : ∀ t ∈ s.turns, t.mark.isSome → t.data ≠ []
  calls : ∀ c ∈ s.calls, c.Fine s.unp.eof

section Marks

variable {s s' : St} {i : Nat} {c : Call} {eof : Bool} {data control : List UInt8} {ctrunc : Bool}
  {mark : Option Control}

theorem keep_eq (c : Call) (m : RecvMsg) :
    c.keep m = { c with
      control := if m.control ≠ [] ∨ m.ctrunc = true then m.control else c.control
      ctrunc := if m.control ≠ [] ∨ m.ctrunc = true then c.ctrunc || m.ctrunc else c.ctrunc } := by
  rw [Call.keep]
  split_ifs <;> rfl

theorem turn_bytes (c : Call) (data control : List UInt8) (ctrunc : Bool) :
    c.turn (.ok (.bytes data control ctrunc false)) = { c with
      data := c.data ++ data
      control := if control ≠ [] ∨ ctrunc = true then control else c.control
      ctrunc := if control ≠ [] ∨ ctrunc = true then c.ctrunc || ctrunc else c.ctrunc
      ended := if data = [] ∨ ¬ c.waitall = true ∨ (c.data ++ data).length = c.len then some (.ok ())
        else c.ended } := by
  simp only [Call.turn, keep_eq, RecvMsg.bytes, Bool.false_eq_true, if_false]
  split_ifs <;> rfl

/-- A turn that goes on or ends with the bytes `data`. -/
theorem Call.Fine.advance (h : c.Fine eof) (hended : c.ended = none)
    (hend : 0 < c.len → c.data = [] → data = [] → eof = true)
    (hle : data.length ≤ c.len - c.data.length)
    (hmark : mark.isSome → c.data = [] ∧ data ≠ [] ∧ c.peek = false)
    (hplain : c.handed.isSome → control = [] ∧ ctrunc = false) :
    (c.record (.ok (.bytes data control ctrunc false)) mark).Fine eof := by
  obtain ⟨hreturned, hhanded, hfresh, hroom, hpos, hatEnd⟩ := h
  rw [Call.record, turn_bytes]
  refine ⟨fun b hb ↦ ?_, fun hsome ↦ ?_, fun hgo hnil ↦ ?_, fun hgo hlen ↦ ?_, hpos,
    fun _ hlen hnil hcontrol ↦ ?_⟩
  · dsimp only at hb ⊢
    split_ifs at hb with hmarked
    · cases hb
      split_ifs with hkeep
      · rfl
      · rw [hfresh hended (hmark hmarked).1]
        exact (Classical.not_not.1 (not_or.1 hkeep).1).symm
    · obtain ⟨hcontrol, hctrunc⟩ := hplain (isSome_of_eq_some hb)
      rw [if_neg (by simp [hcontrol, hctrunc])]
      exact hreturned b hb
  · dsimp only at hsome ⊢
    split_ifs at hsome with hmarked
    · obtain ⟨-, hdata, hpeek⟩ := hmark hmarked
      exact ⟨append_ne_nil_of_right_ne_nil _ hdata, hpeek⟩
    · obtain ⟨hdata, hpeek⟩ := hhanded hsome
      exact ⟨append_ne_nil_of_left_ne_nil hdata _, hpeek⟩
  · dsimp only at hgo hnil
    obtain ⟨-, rfl⟩ := append_eq_nil_iff.1 hnil
    cases hgo
  · dsimp only at hgo hlen ⊢
    split_ifs at hgo with hstop
    have hlt := hroom hended hlen
    have hne := (not_or.1 (not_or.1 hstop).2).2
    rw [length_append] at hne ⊢
    omega
  · obtain ⟨hnil, hdata⟩ := append_eq_nil_iff.1 hnil
    exact hend hlen hnil hdata

theorem Call.Fine.giveUp (h : c.Fine eof) (e : Nat) : (c.giveUp e).Fine eof := by
  refine ⟨h.returned, h.handed, nofun, nofun, h.pos, fun hok _ hnil _ ↦ ?_⟩
  simp only [Call.giveUp] at hok hnil
  rw [if_neg (not_not_intro hnil)] at hok
  cases hok

theorem record_error (c : Call) (e : Nat) :
    c.record (.error e) none = if e = EAGAIN then c else c.giveUp e := by
  rw [Call.record, Call.turn]
  by_cases he : e = EAGAIN
  · simp only [if_pos he]
    rfl
  · simp only [if_neg he]
    rfl

/-- What a receive from an empty queue comes to. -/
theorem recvNone_cases {u : Unp} (hrd : u.rdShut = false) :
    (∃ e, u.recvNone .stream = .error e) ∨
      u.recvNone .stream = .ok (.bytes [] [] false false) ∧ u.eof = true := by
  rw [Unp.recvNone]
  split_ifs with hreset heof hconn
  · exact .inl ⟨_, rfl⟩
  · rw [hrd] at heof
    exact .inr ⟨rfl, heof⟩
  · exact .inl ⟨_, rfl⟩
  · exact .inl ⟨_, rfl⟩

section Turn

variable {u u' : Unp} {len fdRoom : Nat} {peek : Bool} {ctl : RecvCtl} {r : Except Nat RecvMsg}

theorem taken_nil (hqueue : u.queue = []) : taken u peek r = none := by
  cases r <;> simp [taken, hqueue]

/-- A plain turn passes over no control data, and takes it with a byte. -/
theorem ends_plain (h : Ends u len peek ctl fdRoom r u') (hfull : Full u.queue)
    (hlen : peek = false → 0 < len)
    (hrights : peek = false → ∀ m ∈ u.queue.head?, m.rights.length ≤ fdRoom) :
    Full u'.queue ∧ (u'.eof = u.eof ∧ u'.rdShut = u.rdShut) ∧
      (∀ p, ((taken u peek r).map (p, ·)).toList ++ marksFrom (p + (readOff peek r).length) u'.queue
        = marksFrom p u.queue) ∧
      ((taken u peek r).isSome → dataOf r ≠ []) := by
  cases h with
  | empty hqueue => simp [taken_nil hqueue, readOff, dataOf_recvNone, hfull]
  | stops hcont => simp [taken, readOff, dataOf, RecvMsg.bytes, hfull]
  | refuses hpeek hroom hqueue hqueue' hqueued hshut =>
    exact absurd (hrights hpeek _ (by simp [hqueue])) (Nat.not_le.2 hroom)
  | peeks hpeek hqueue hbytes hqueue' hqueued hshut hdata hle =>
    simp [taken, readOff, hpeek, hqueue', hfull, hshut]
  | @takes m queue data control ctrunc u' hpeek hqueue hmark hreads hqueued hshut hdata hle hplain =>
    rw [hqueue] at hfull
    have htaken : taken u peek (.ok (.bytes data control ctrunc false)) = m.control := by
      simp [taken, hpeek, hqueue, RecvMsg.bytes]
    have hread : readOff peek (.ok (.bytes data control ctrunc false)) = data := by
      simp [readOff, hpeek, dataOf, RecvMsg.bytes]
    refine ⟨reads_full hreads hfull.clear, hshut, fun p ↦ ?_, fun _ ↦ ?_⟩
    · rw [htaken, hread, reads_marks hreads, hqueue]
      rfl
    · exact hdata (hlen hpeek) (hfull m mem_cons_self)

/-- A plain turn, on the side of the call. -/
theorem Call.Fine.record (h : c.Fine u.eof) (hended : c.ended = none)
    (hends : Ends u (c.len - c.data.length) c.peek ⟨c.room, c.data ≠ []⟩ fdRoom r u')
    (hfull : Full u.queue) (hrd : u.rdShut = false)
    (hcreds : c.peek = false → c.data ≠ [] → u.passcred = false ∧ u.localCreds = .off) :
    (c.record r (taken u c.peek r)).Fine u.eof := by
  have herror (e : Nat) : (c.record (.error e) none).Fine u.eof := by
    rw [record_error]
    split_ifs
    · exact h
    · exact h.giveUp e
  cases hends with
  | empty hqueue =>
    rw [taken_nil hqueue]
    rcases recvNone_cases hrd with ⟨e, he⟩ | ⟨hok, heof⟩
    · rw [he]
      exact herror e
    · rw [hok]
      exact h.advance hended (fun _ _ _ ↦ heof) (Nat.zero_le _) nofun fun _ ↦ ⟨rfl, rfl⟩
  | stops hcont =>
    have hdata : c.data ≠ [] := of_decide_eq_true hcont
    refine ⟨?_, ?_, nofun, nofun, h.pos, fun _ _ hnil ↦ absurd hnil hdata⟩
    · simpa [Call.record, Call.turn, taken, RecvMsg.bytes] using h.returned
    · simpa [Call.record, Call.turn, taken, RecvMsg.bytes] using h.handed
  | refuses hpeek hroom hqueue hqueue' hqueued hshut => exact herror _
  | @peeks m queue data control ctrunc u' hpeek hqueue hbytes hqueue' hqueued hshut hdata hle =>
    have htaken : taken u c.peek (.ok (.bytes data control ctrunc false)) = none := by
      simp [taken, hpeek]
    rw [htaken]
    refine h.advance hended (fun hlen hnil hdata' ↦ ?_) hle nofun fun hhanded ↦ ?_
    · have hleft := hfull m (hqueue.symm ▸ mem_cons_self)
      exact absurd hdata' (hdata (by rw [hnil]; exact hlen) hleft)
    · exact absurd ((h.handed hhanded).2.symm.trans hpeek) Bool.false_ne_true
  | @takes m queue data control ctrunc u' hpeek hqueue hmark hreads hqueued hshut hdata hle hplain =>
    have htaken : taken u c.peek (.ok (.bytes data control ctrunc false)) = m.control := by
      simp [taken, hpeek, hqueue, RecvMsg.bytes]
    have hlen : 0 < c.len := h.pos.resolve_left (by simp [hpeek])
    have hne : data ≠ [] := by
      refine hdata (Nat.sub_pos_of_lt (h.room hended hlen)) (hfull m ?_)
      rw [hqueue]
      exact mem_cons_self
    rw [htaken]
    refine h.advance hended (fun _ _ hnil ↦ absurd hnil hne) hle (fun hsome ↦ ?_) fun hhanded ↦ ?_
    · refine ⟨?_, hne, hpeek⟩
      by_contra hdata'
      rw [hmark (decide_eq_true hdata')] at hsome
      cases hsome
    · have hdata' := (h.handed hhanded).1
      obtain ⟨hpass, hcreds⟩ := hcreds hpeek hdata'
      exact hplain (hmark (decide_eq_true hdata')) hpass hcreds

end Turn

theorem Call.Fine.mono (h : c.Fine eof) : c.Fine true :=
  ⟨h.returned, h.handed, h.fresh, h.room, h.pos, fun _ _ _ _ ↦ rfl⟩

theorem Proper.receive {fdRoom : Nat} {r : Except Nat RecvMsg} {u : Unp} (h : Proper s)
    (hc : s.calls[i]? = some c) (hended : c.ended = none)
    (hends : Ends s.unp (c.len - c.data.length) c.peek ⟨c.room, c.data ≠ []⟩ fdRoom r u)
    (hplain : c.peek = false → (∀ m ∈ s.unp.queue.head?, m.rights.length ≤ fdRoom) ∧
      (c.data ≠ [] → s.unp.passcred = false ∧ s.unp.localCreds = .off)) :
    Proper (s.receive i c r u) := by
  have hfine := h.calls c (mem_of_getElem? hc)
  have hlen : c.peek = false → 0 < c.len - c.data.length := by
    intro hpeek
    have hlt := hfine.room hended (hfine.pos.resolve_left (by simp [hpeek]))
    omega
  obtain ⟨hfull, ⟨heof, hrd⟩, hmarks, hbyte⟩ :=
    ends_plain hends h.full hlen fun hpeek ↦ (hplain hpeek).1
  refine ⟨hfull, hrd.trans h.rdShut, h.sends, ?_, ?_, fun c' hc' ↦ ?_⟩
  · rw [St.receive]
    rw [filterMap_append, append_assoc, length_append, ← h.marks,
      ← hmarks s.got.length]
    rfl
  · exact forall_mem_append.2 ⟨h.byte, forall_mem_singleton.2 hbyte⟩
  · rw [St.receive] at hc' ⊢
    rw [heof]
    rcases mem_or_eq_of_mem_set hc' with hmem | rfl
    · exact h.calls c' hmem
    · exact hfine.record hended hends h.full h.rdShut fun hpeek ↦ (hplain hpeek).2

theorem Proper.push {c : Send} (h : Proper s) (hs : Sound s) (hc : s.sends[i]? = some c)
    (hended : c.ended = none) (cap : Nat) : Proper (s.push i c cap) := by
  rw [St.push]
  split
  · exact h
  next n u hdeliver =>
    obtain ⟨happends, hn, hne, -, hu⟩ := deliver_spec hdeliver hs.off
    have hlt := h.sends c (mem_of_getElem? hc) hended
    rw [length_drop] at hn
    have hrest : c.data.drop c.sent ≠ [] := by
      rw [Ne, drop_eq_nil_iff]
      omega
    refine ⟨happends.full (hne hrest) h.full, ?_, fun c' hc' hgo ↦ ?_, ?_, h.byte, ?_⟩
    · rw [hu]
      exact h.rdShut
    · rcases mem_or_eq_of_mem_set hc' with hmem | rfl
      · exact h.sends c' hmem hgo
      · rw [(turn_sent c n).1, (turn_sent c n).2]
        simp only [Send.turn] at hgo
        split_ifs at hgo with hall
        omega
    · rw [St.deliver]
      rw [happends.marks, ← append_assoc, h.marks, ← length_append, ← hs.order.bytes]
      rfl
    · rw [hu]
      exact h.calls

theorem step_proper {e : Event} (h : Proper s) (hs : Sound s) (hplain : Plain s e)
    (hstep : s.step e = some s') : Proper s' := by
  obtain ⟨hfull, hrd, hsends, hmarks, hbyte, hcalls⟩ := id h
  cases e with
  | send data sender control =>
    cases hstep
    refine ⟨hfull, hrd, ?_, hmarks, hbyte, hcalls⟩
    refine forall_mem_append.2 ⟨hsends, forall_mem_singleton.2 fun _ ↦ ?_⟩
    exact length_pos_iff.2 hplain
  | push i cap =>
    obtain ⟨c, hc, hended, rfl⟩ := of_going hstep
    exact h.push hs hc hended cap
  | sendGiveUp i e =>
    obtain ⟨c, hc, hended, rfl⟩ := of_going hstep
    refine ⟨hfull, hrd, fun c' hc' hgo ↦ ?_, hmarks, hbyte, hcalls⟩
    rcases mem_or_eq_of_mem_set hc' with hmem | rfl
    · exact hsends c' hmem hgo
    · cases hgo
  | hangup reset =>
    cases hstep
    exact ⟨hfull, hrd, hsends, hmarks, hbyte, fun c hc ↦ (hcalls c hc).mono⟩
  | setopt passcred localCreds =>
    cases hstep
    exact ⟨hfull, hrd, hsends, hmarks, hbyte, hcalls⟩
  | recv len peek waitall room =>
    cases hstep
    refine ⟨hfull, hrd, hsends, hmarks, hbyte, ?_⟩
    refine forall_mem_append.2 ⟨hcalls, forall_mem_singleton.2 ?_⟩
    exact ⟨nofun, nofun, fun _ _ ↦ rfl, fun _ hlen ↦ hlen, hplain, nofun⟩
  | turn i fdRoom fds =>
    obtain ⟨c, hc, hended, rfl⟩ := of_going hstep
    exact h.receive hc hended (recvMsg_ends _ _ _ _ fdRoom fds) (hplain c hc)
  | giveUp i e =>
    obtain ⟨c, hc, hended, rfl⟩ := of_going hstep
    refine ⟨hfull, hrd, hsends, hmarks, hbyte, fun c' hc' ↦ ?_⟩
    rcases mem_or_eq_of_mem_set hc' with hmem | rfl
    · exact hcalls c' hmem
    · exact (hcalls c (mem_of_getElem? hc)).giveUp e

theorem proper_init : Proper .init := ⟨nofun, rfl, nofun, rfl, nofun, nofun⟩

theorem Proper.marked (h : Proper s) : Marked s := by
  refine ⟨⟨_, h.marks⟩, fun x hx hlt ↦ ?_, h.byte, fun c hc ↦ (h.calls c hc).returned⟩
  rw [← h.marks] at hx
  rcases mem_append.1 hx with hx | hx
  · exact hx
  · exact absurd (le_of_mem_marksFrom hx) (Nat.not_le.2 hlt)

end Marks

/-- **A local stream socket is a stream of bytes**, in every run; it keeps control data in its place
and returns nothing only at the end, in every run that is plain. -/
theorem run_stream {es : List Event} {s : St} (hrun : Machine.run St.step .init es = some s) :
    InOrder s ∧ (Machine.Meets St.step Plain .init es → Marked s ∧ NoFalseEof s) := by
  have hsound : Sound s := run_keeps (fun _ _ _ ↦ step_sound) sound_init hrun
  refine ⟨hsound.order, fun hplain ↦ ?_⟩
  have hproper := run_inv (I := fun s ↦ Sound s ∧ Proper s)
    (fun s e s' hp h hstep ↦ ⟨step_sound h.1 hstep, step_proper h.2 h.1 hp hstep⟩)
    ⟨sound_init, proper_init⟩ hplain hrun
  exact ⟨hproper.2.marked, fun c hc ↦ (hproper.2.calls c hc).atEnd⟩

/-- Two bytes, then three with a descriptor, for which the queue has no room at first; they are read
with `MSG_WAITALL`. -/
def sendTwice : List Event :=
  let me : Cred := ⟨1, 5, 5, 0, 0, 1, List.replicate 16 0⟩
  [.send [1, 2] me none, .push 0 4, .send [3, 4, 5] me (some ⟨[⟨2, 0⟩], false, none⟩), .push 1 4,
    .recv 8 false true 64, .turn 0 1 fun _ ↦ 7, .push 1 4, .turn 0 1 fun _ ↦ 7,
    .recv 8 false false 64, .turn 1 1 fun _ ↦ 7]

theorem run_stream_sendTwice : ∃ s, Machine.run St.step .init sendTwice = some s ∧
    s.calls.map Call.data = [[1, 2], [3, 4, 5]] ∧ s.marks.map Prod.fst = [2] ∧
    InOrder s ∧ Marked s ∧ NoFalseEof s := by
  refine exists_run_of (fun s ↦ s.calls.map Call.data = [[1, 2], [3, 4, 5]] ∧
    s.marks.map Prod.fst = [2]) (by decide +kernel)
    fun s hrun ⟨hcalls, hmarks⟩ ↦ ?_
  obtain ⟨horder, hplain⟩ := run_stream hrun
  exact ⟨hcalls, hmarks, horder, hplain (by decide +kernel)⟩

/-- A send of no data puts a message in an empty queue. -/
def sendNothing : List Event :=
  [.send [] ⟨1, 5, 5, 0, 0, 1, List.replicate 16 0⟩ none, .push 0 64, .recv 1 false false 0,
    .turn 0 0 fun _ ↦ 0]

/-- The receive returns no bytes, with the peer still connected and sending. -/
theorem blank_eof : ∃ s, Machine.run St.step .init sendNothing = some s ∧ ¬ NoFalseEof s := by
  refine exists_run_of (fun s ↦ (∃ c ∈ s.calls, c.ended = some (.ok ()) ∧ 0 < c.len ∧
    c.data = [] ∧ c.control = []) ∧ s.unp.eof = false) (by decide +kernel)
    fun s _ ⟨⟨c, hc, hended, hlen, hdata, hcontrol⟩, heof⟩ ↦ ?_
  intro h
  rw [h c hc hended hlen hdata hcontrol] at heof
  cases heof

end OxideBSD.Local.Stream
