import OxideBSD.Fs.SysvIpc
import OxideBSD.Lib.Machine
import OxideBSD.Lib.Waiters

/-!
# System V message queues

`sys/fs/sysv_msg.rs`: `msgget`, `msgsnd`, `msgrcv`, `msgctl`.  As for the semaphores, the code of one
process from one `schedule()` to the next is one event of the machine below, and what the rest of the
kernel does to a process asleep in `msgsnd` or `msgrcv` is that it sleeps there no more.

* `Wanted`, `Chosen`: which messages a `msgrcv` may take, and which of them it is to take; `Chosen` is
  the rule of the manual, `findMatchingIndex` the code, and `findMatchingIndex_chosen` and
  `findMatchingIndex_none` say that they agree.  The code negates `msgtyp`, and the kernel stops when
  that overflows: there is no message type for the most negative one.
* `St.sendTurn`, `St.recvTurn`: one turn of the loops of `do_msgsnd` and `do_msgrcv`;
  `St.msgctl`; `St.step`: the machine.

Beside the queues the machine keeps what was put into each queue and taken from it, and each message
carries its number: they say nothing the code could see.
-/

set_option autoImplicit false

namespace OxideBSD.Msg

open Function Ipc List

abbrev Pid := Nat

def ipcNowait : Nat := 0o4000
def msgNoerror : Nat := 0o10000
def msgExcept : Nat := 0o20000
def sysvMsgDefaultQbytes : Nat := 16384
def sysvMsgmax : Nat := 8192
def maxSysvMsgQueues : Nat := 32
def i64Min : Int := -9223372036854775808

/-- A message.  `no` is not in the source: it says how many were put into the queue before it. -/
structure SysvMessage where
  mtype : Int
  data : List UInt8
  no : Nat
  deriving DecidableEq, Repr

structure MsgQueue where
  perm : Perm
  qbytes : Nat
  stime : Int
  rtime : Int
  ctime : Int
  lspid : Pid
  lrpid : Pid
  messages : List SysvMessage
  deriving DecidableEq, Repr

/-- The bytes of some messages. -/
def bytes (messages : List SysvMessage) : Nat := (messages.map fun m ↦ m.data.length).sum

def MsgQueue.cbytes (q : MsgQueue) : Nat := bytes q.messages

/-! ## Which message -/

/-- A message that a `msgrcv` with this `msgtyp` may take. -/
def Wanted (msgtyp : Int) (except : Bool) (m : SysvMessage) : Prop :=
  if msgtyp = 0 then True
  else if 0 < msgtyp then (if except then m.mtype ≠ msgtyp else m.mtype = msgtyp)
  else m.mtype ≤ -msgtyp

instance (msgtyp : Int) (except : Bool) (m : SysvMessage) : Decidable (Wanted msgtyp except m) :=
  inferInstanceAs (Decidable (ite _ _ _))

/-- The message that is to be taken: the first that is wanted, or for a negative `msgtyp` the first of
the lowest type of those. -/
structure Chosen (messages : List SysvMessage) (msgtyp : Int) (except : Bool) (i : Nat)
    (m : SysvMessage) : Prop where
  here : messages[i]? = some m
  wanted : Wanted msgtyp except m
  lowest : msgtyp < 0 → ∀ m' ∈ messages, m.mtype ≤ m'.mtype
  first : ∀ j m', j < i → messages[j]? = some m' → Wanted msgtyp except m' →
    msgtyp < 0 ∧ m.mtype < m'.mtype

/-- A message of the type, or with `MSG_EXCEPT` of any other. -/
def ofType (msgtyp : Int) (except : Bool) (m : SysvMessage) : Bool :=
  if except then m.mtype ≠ msgtyp else m.mtype = msgtyp

/-- `find_matching_index`; the outer `none` is the overflow. -/
def findMatchingIndex (messages : List SysvMessage) (msgtyp : Int) (except : Bool) :
    Option (Option Nat) :=
  if msgtyp = 0 then if messages.isEmpty then some none else some (some 0)
  else if 0 < msgtyp then some (messages.findIdx? (ofType msgtyp except))
  else if msgtyp = i64Min then none
  else
    some (((messages.filter fun m ↦ decide (m.mtype ≤ -msgtyp)).map SysvMessage.mtype).min?.bind
      fun minType ↦ messages.findIdx? fun m ↦ decide (m.mtype = minType))

theorem wanted_zero {except : Bool} {m : SysvMessage} : Wanted 0 except m := by
  simp [Wanted]

theorem wanted_pos {msgtyp : Int} {except : Bool} {m : SysvMessage} (h : 0 < msgtyp) :
    Wanted msgtyp except m ↔ ofType msgtyp except m = true := by
  cases except <;> simp [Wanted, ofType, h, h.ne']

theorem wanted_neg {msgtyp : Int} {except : Bool} {m : SysvMessage} (h : msgtyp < 0) :
    Wanted msgtyp except m ↔ m.mtype ≤ -msgtyp := by
  simp [Wanted, h.ne, not_lt.2 h.le]

/-- What `findIdx?` finds is the first. -/
theorem findIdx?_first {p : SysvMessage → Bool} {messages : List SysvMessage} {i : Nat}
    (h : messages.findIdx? p = some i) :
    ∃ m, messages[i]? = some m ∧ p m = true ∧
      ∀ j m', j < i → messages[j]? = some m' → p m' = false := by
  obtain ⟨hi, hp, hfirst⟩ := findIdx?_eq_some_iff_getElem.1 h
  refine ⟨messages[i], getElem?_eq_getElem hi, hp, fun j m' hj hm' ↦ ?_⟩
  obtain ⟨hlt, rfl⟩ := List.getElem?_eq_some_iff.1 hm'
  simpa using hfirst j hj

theorem findMatchingIndex_chosen {messages : List SysvMessage} {msgtyp : Int} {except : Bool} {i : Nat}
    (h : findMatchingIndex messages msgtyp except = some (some i)) :
    ∃ m, Chosen messages msgtyp except i m := by
  unfold findMatchingIndex at h
  split_ifs at h with hzero hempty hpos hmin
  · cases h
  · -- any message: the first
    cases h
    subst hzero
    cases messages with
    | nil => exact (hempty rfl).elim
    | cons m messages => exact ⟨m, rfl, wanted_zero, fun h ↦ by omega, fun j _ hj ↦ by omega⟩
  · rw [Option.some.injEq] at h
    obtain ⟨m, hm, hp, hfirst⟩ := findIdx?_first h
    refine ⟨m, hm, (wanted_pos hpos).2 hp, fun h ↦ by omega, fun j m' hj hm' hw ↦ ?_⟩
    have := (wanted_pos hpos).1 hw
    rw [hfirst j m' hj hm'] at this
    cases this
  · have hneg : msgtyp < 0 := by omega
    rw [Option.some.injEq] at h
    obtain ⟨minType, hfound, h⟩ := Option.bind_eq_some_iff.1 h
    obtain ⟨hmem, hle⟩ := min?_eq_some_iff.1 hfound
    obtain ⟨m₀, hm₀, hmin₀⟩ := mem_map.1 hmem
    have hlimit := of_decide_eq_true (mem_filter.1 hm₀).2
    obtain ⟨m, hm, hp, hfirst⟩ := findIdx?_first h
    have htype := of_decide_eq_true hp
    have hlowest : ∀ m' ∈ messages, m.mtype ≤ m'.mtype := by
      intro m' hm'
      by_cases hl : m'.mtype ≤ -msgtyp
      · rw [htype]
        exact hle _ (mem_map.2 ⟨m', mem_filter.2 ⟨hm', decide_eq_true hl⟩, rfl⟩)
      · omega
    refine ⟨m, hm, (wanted_neg hneg).2 (by omega), fun _ ↦ hlowest, fun j m' hj hm' _ ↦ ⟨hneg, ?_⟩⟩
    have hne := of_decide_eq_false (hfirst j m' hj hm')
    have := hlowest m' (mem_of_getElem? hm')
    omega

theorem findMatchingIndex_none {messages : List SysvMessage} {msgtyp : Int} {except : Bool}
    (h : findMatchingIndex messages msgtyp except = some none) :
    ∀ m ∈ messages, ¬ Wanted msgtyp except m := by
  unfold findMatchingIndex at h
  split_ifs at h with hzero hempty hpos hmin
  · rw [isEmpty_iff.1 hempty]
    simp
  · cases h
  · rw [Option.some.injEq, findIdx?_eq_none_iff] at h
    intro m hm hw
    have := (wanted_pos hpos).1 hw
    rw [h m hm] at this
    cases this
  · have hneg : msgtyp < 0 := by omega
    rw [Option.some.injEq] at h
    intro m hm hw
    have hmem : m ∈ messages.filter fun m ↦ decide (m.mtype ≤ -msgtyp) :=
      mem_filter.2 ⟨hm, decide_eq_true ((wanted_neg hneg).1 hw)⟩
    cases hfound : ((messages.filter fun m ↦ decide (m.mtype ≤ -msgtyp)).map
        SysvMessage.mtype).min? with
    | none =>
      rw [min?_eq_none_iff, map_eq_nil_iff] at hfound
      rw [hfound] at hmem
      cases hmem
    | some minType =>
      -- the lowest type is that of a message
      obtain ⟨m₀, hm₀, hmin₀⟩ := mem_map.1 (min?_eq_some_iff.1 hfound).1
      rw [hfound, Option.bind_some, findIdx?_eq_none_iff] at h
      have := h m₀ (mem_filter.1 hm₀).1
      rw [hmin₀, decide_eq_true rfl] at this
      cases this

/-! ## The calls -/

/-- A `msgsnd`, its arguments read. -/
structure SendCall where
  cred : Cred
  msqid : Int
  mtype : Int
  data : List UInt8
  flag : Nat
  deriving DecidableEq, Repr

/-- A `msgrcv`. -/
structure RecvCall where
  cred : Cred
  msqid : Int
  len : Nat
  msgtyp : Int
  flag : Nat
  deriving DecidableEq, Repr

def RecvCall.except (c : RecvCall) : Bool := c.flag &&& msgExcept != 0

inductive Call
  | send (c : SendCall)
  | recv (c : RecvCall)
  deriving DecidableEq, Repr

/-- What a process asleep in a call waits for: `WaitingForSysvMsgSend` or `WaitingForSysvMsgRecv`, and
the queue. -/
inductive Key
  | send (msqid : Int)
  | recv (msqid : Int)
  deriving DecidableEq, Repr

/-- The queues, who sleeps, who is in a call, and what went into each queue and out of it. -/
structure St where
  queues : Ids MsgQueue
  asleep : Pid → Option Key
  calls : Pid → Option Call
  sent : Int → List SysvMessage
  got : Int → List SysvMessage

def St.init : St where
  queues := .empty
  asleep _ := none
  calls _ := none
  sent _ := []
  got _ := []

def wakeBlockedSenders (msqid : Int) : (Pid → Option Key) → Pid → Option Key :=
  Waiters.wake fun k ↦ k == .send msqid

def wakeBlockedReceivers (msqid : Int) : (Pid → Option Key) → Pid → Option Key :=
  Waiters.wake fun k ↦ k == .recv msqid

/-- `do_msgsnd` up to the loop: `mtype` and `text` are what user memory holds, `none` if it cannot be
read. -/
def msgsndCall (cred : Cred) (msqid : Int) (mtype : Option Int) (len : Nat)
    (text : Option (Nat → UInt8)) (flag : Nat) : Except Errno SendCall :=
  match mtype, text with
  | none, _ => .error .EFAULT
  | some mtype, text =>
    if mtype < 1 then .error .EINVAL
    else if sysvMsgmax < len then .error .EINVAL
    else match text with
      | none => .error .EFAULT
      | some text => .ok ⟨cred, msqid, mtype, (List.range len).map text, flag⟩

/-- One turn of the loop of `do_msgsnd`: what the call returns, `none` if it goes to sleep. -/
def St.sendTurn (s : St) (caller : Pid) (c : SendCall) (now : Int) :
    Option (Except Errno Nat) × St :=
  match s.queues.objs c.msqid with
  | none => (some (.error .EIDRM), s)
  | some q =>
    if !checkAccess q.perm c.cred true then (some (.error .EACCES), s)
    else if q.qbytes < c.data.length then (some (.error .EINVAL), s)
    else if q.cbytes + c.data.length ≤ q.qbytes then
      let m : SysvMessage := ⟨c.mtype, c.data, (s.sent c.msqid).length⟩
      (some (.ok 0),
        { s with
          queues := s.queues.put c.msqid
            { q with messages := q.messages ++ [m], lspid := caller, stime := now }
          sent := update s.sent c.msqid (s.sent c.msqid ++ [m])
          asleep := wakeBlockedReceivers c.msqid s.asleep })
    else if c.flag &&& ipcNowait ≠ 0 then (some (.error .EAGAIN), s)
    else (none, { s with asleep := update s.asleep caller (some (.send c.msqid)) })

/-- One turn of the loop of `do_msgrcv`.  `fault` says that the message cannot be copied out: it is
off the queue by then. -/
def St.recvTurn (s : St) (caller : Pid) (c : RecvCall) (fault : Bool) (now : Int) :
    Option (Option (Except Errno Nat) × St) :=
  match s.queues.objs c.msqid with
  | none => some (some (.error .EIDRM), s)
  | some q =>
    if !checkAccess q.perm c.cred false then some (some (.error .EACCES), s)
    else (findMatchingIndex q.messages c.msgtyp c.except).map fun found ↦
      match found.bind fun i ↦ (q.messages[i]?).map fun m ↦ (i, m) with
      | some (i, m) =>
        if c.len < m.data.length ∧ c.flag &&& msgNoerror = 0 then (some (.error .E2BIG), s)
        else
          (some (if fault then .error .EFAULT else .ok (min m.data.length c.len)),
            { s with
              queues := s.queues.put c.msqid
                { q with messages := q.messages.eraseIdx i, lrpid := caller, rtime := now }
              got := update s.got c.msqid (s.got c.msqid ++ [m])
              asleep := wakeBlockedSenders c.msqid s.asleep })
      | none =>
        if c.flag &&& ipcNowait ≠ 0 then (some (.error .ENOMSG), s)
        else (none, { s with asleep := update s.asleep caller (some (.recv c.msqid)) })

/-- A turn of a call, and whether the caller is still in it after that. -/
def St.enter (s : St) (caller : Pid) (c : Call) (fault : Bool) (now : Int) : Option St :=
  let turn := match c with
    | .send c => some (s.sendTurn caller c now)
    | .recv c => s.recvTurn caller c fault now
  turn.map fun rs ↦
    { rs.2 with calls := update rs.2.calls caller (if rs.1.isNone then some c else none) }

/-! ## `msgctl` -/

/-- The commands: what is read from user memory is `none` if it cannot be, and `fault` says that a
result cannot be written there. -/
inductive Cmd
  | ipcStat (fault : Bool)
  | ipcSet (raw : Option (Nat × Nat × Nat × Nat))
  | ipcRmid
  | other
  deriving DecidableEq, Repr

/-- `struct msqid_ds`. -/
structure MsqidDs where
  perm : Perm
  stime : Int
  rtime : Int
  ctime : Int
  cbytes : Nat
  qnum : Nat
  qbytes : Nat
  lspid : Pid
  lrpid : Pid
  deriving DecidableEq, Repr

def msqidDs (q : MsgQueue) : MsqidDs where
  perm := q.perm
  stime := q.stime
  rtime := q.rtime
  ctime := q.ctime
  cbytes := q.cbytes
  qnum := q.messages.length
  qbytes := q.qbytes
  lspid := q.lspid
  lrpid := q.lrpid

/-- What a command does, and the `msqid_ds` that `IPC_STAT` writes. -/
def St.msgctl (s : St) (c : Cred) (msqid : Int) (cmd : Cmd) (now : Int) :
    Except Errno (Option MsqidDs × St) :=
  match cmd, s.queues.objs msqid with
  | .other, _ => .error .EINVAL
  | _, none => .error .EIDRM
  | .ipcStat fault, some q =>
    if !checkAccess q.perm c false then .error .EACCES
    else if fault then .error .EFAULT
    else .ok (some (msqidDs q), s)
  | .ipcSet raw, some q =>
    if !isOwnerOrCreator q.perm c then .error .EACCES
    else match raw with
      | none => .error .EFAULT
      | some (uid, gid, mode, qbytes) =>
        let perm := { q.perm with uid := uid, gid := gid, mode := mode &&& 0o777 }
        .ok (none,
          { s with queues := s.queues.put msqid { q with perm, qbytes, ctime := now } })
  | .ipcRmid, some q =>
    if !isOwnerOrCreator q.perm c then .error .EACCES
    else .ok (none,
      { s with
        queues := s.queues.remove msqid q.perm.key
        asleep := wakeBlockedReceivers msqid (wakeBlockedSenders msqid s.asleep) })

/-! ## The machine -/

/-- What can happen.  `resume` is a caller that runs again, `leave` a process or thread that ends,
`rouse` whatever else takes a process out of its sleep. -/
inductive Event
  | msgget (cred : Cred) (key : Int) (flag : Nat) (now : Int)
  | msgsnd (pid : Pid) (cred : Cred) (msqid : Int) (mtype : Option Int) (len : Nat)
      (text : Option (Nat → UInt8)) (flag : Nat) (now : Int)
  | msgrcv (pid : Pid) (c : RecvCall) (fault : Bool) (now : Int)
  | resume (pid : Pid) (fault : Bool) (now : Int)
  | msgctl (pid : Pid) (cred : Cred) (msqid : Int) (cmd : Cmd) (now : Int)
  | leave (pid : Pid)
  | rouse (pid : Pid)

/-- `do_msgget`. -/
def msgget (queues : Ids MsgQueue) (c : Cred) (key : Int) (flag : Nat) (now : Int) :
    Option (Except Errno Int × Ids MsgQueue) :=
  let fresh : MsgQueue :=
    { perm := ⟨key, c.uid, c.gid, c.uid, c.gid, flag &&& 0o777⟩
      qbytes := sysvMsgDefaultQbytes
      stime := 0
      rtime := 0
      ctime := now
      lspid := 0
      lrpid := 0
      messages := [] }
  queues.getOrCreate MsgQueue.perm (fun _ ↦ false) false maxSysvMsgQueues fresh c key flag

/-- The call whose loop an event runs a turn of. -/
def turnOf (s : St) : Event → Option (Pid × Call)
  | .msgsnd pid cred msqid mtype len text flag _ =>
    match msgsndCall cred msqid mtype len text flag with
    | .ok c => some (pid, .send c)
    | .error _ => none
  | .msgrcv pid c _ _ => some (pid, .recv c)
  | .resume pid _ _ => (s.calls pid).map fun c ↦ (pid, c)
  | _ => none

def St.step (s : St) : Event → Option St
  | .msgget c key flag now =>
    (msgget s.queues c key flag now).map fun r ↦ { s with queues := r.2 }
  | .msgsnd pid cred msqid mtype len text flag now =>
    if s.asleep pid = none ∧ s.calls pid = none then
      match msgsndCall cred msqid mtype len text flag with
      | .error _ => some s
      | .ok c => s.enter pid (.send c) false now
    else none
  | .msgrcv pid c fault now =>
    if s.asleep pid = none ∧ s.calls pid = none then s.enter pid (.recv c) fault now else none
  | .resume pid fault now =>
    if s.asleep pid = none then (s.calls pid).bind fun c ↦ s.enter pid c fault now else none
  | .msgctl pid c msqid cmd now =>
    if s.asleep pid = none ∧ s.calls pid = none then
      match s.msgctl c msqid cmd now with
      | .error _ => some s
      | .ok (_, s') => some s'
    else none
  | .leave pid =>
    some { s with
      asleep := update s.asleep pid none
      calls := update s.calls pid none }
  | .rouse pid => some { s with asleep := update s.asleep pid none }

end OxideBSD.Msg
