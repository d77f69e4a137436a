import OxideBSD.Fs.SysvIpc
import OxideBSD.Lib.Machine
import OxideBSD.Lib.Waiters

/-!
# System V semaphores

`sys/fs/sysv_sem.rs`: `semget`, `semop`, `semtimedop`, `semctl`, and the undo of a process that exits.
The kernel is not preempted, so the code of one process from one `schedule()` to the next is one event
of the machine below: one turn of the loop of `do_semop_impl`, one `semctl`, one exit.  What the rest
of the kernel does to a process asleep in `semop` (a signal, a stop, the end of its timeout) is that it
sleeps there no more.

What the array of a `semop` means is said first, apart from the code: `Enabled` and `performAll`, one
operation after the other.  The code works on a scratch copy of the values (`simulate`), and
`simulate_applied` and `simulate_blocks` say that it computes that meaning.

* `Enabled ops v`, `performAll ops v`: the array can be performed on the values `v`, and what it makes
  of them.
* `Stuck num ops x`: the array cannot be performed as long as semaphore `num` has the value `x`,
  whatever the others are.
* `St.turn`, `St.exit`, `St.semctl`, `semget`: the calls; `St.step`: the machine.
-/

set_option autoImplicit false

namespace OxideBSD.Sem

open Function Ipc

abbrev Pid := Nat

def semUndo : Nat := 0o1000
def ipcNowait : Nat := 0o4000
def semvmx : Int := 32767
def maxSemsPerSet : Nat := 4096
def maxSysvSemSets : Nat := 32
def maxSemopsPerCall : Nat := 32
def timerHz : Nat := 100
def u64Max : Nat := 18446744073709551615

/-- `struct sembuf`. -/
structure Sembuf where
  semNum : Nat
  semOp : Int
  semFlg : Nat
  deriving DecidableEq, Repr

/-! ## What an array of operations means -/

namespace Sembuf

/-- The operation can go on if its semaphore has the value `x`. -/
def Proceeds (op : Sembuf) (x : Int) : Prop :=
  (op.semOp < 0 → 0 ≤ x + op.semOp) ∧ (op.semOp = 0 → x = 0)

instance (op : Sembuf) (x : Int) : Decidable (op.Proceeds x) := inferInstanceAs (Decidable (_ ∧ _))

/-- The values after the operation. -/
def perform (op : Sembuf) (v : Nat → Int) : Nat → Int :=
  update v op.semNum (v op.semNum + op.semOp)

end Sembuf

/-- Every operation of the array can go on when its turn comes. -/
def Enabled : List Sembuf → (Nat → Int) → Prop
  | [], _ => True
  | op :: ops, v => op.Proceeds (v op.semNum) ∧ Enabled ops (op.perform v)

instance decidableEnabled : ∀ ops v, Decidable (Enabled ops v)
  | [], _ => isTrue trivial
  | op :: ops, v =>
    let _ := decidableEnabled ops (op.perform v)
    inferInstanceAs (Decidable (_ ∧ _))

/-- The values after the whole array. -/
def performAll : List Sembuf → (Nat → Int) → Nat → Int
  | [], v => v
  | op :: ops, v => performAll ops (op.perform v)

/-- What the array adds to semaphore `i` in all. -/
def total (ops : List Sembuf) (i : Nat) : Int :=
  ((ops.filter fun op ↦ op.semNum = i).map Sembuf.semOp).sum

/-- The array cannot be performed while semaphore `num` has the value `x`. -/
def Stuck (num : Nat) : List Sembuf → Int → Prop
  | [], _ => False
  | op :: ops, x =>
    if op.semNum = num then ¬ op.Proceeds x ∨ Stuck num ops (x + op.semOp) else Stuck num ops x

theorem perform_apply (op : Sembuf) (v : Nat → Int) (i : Nat) :
    op.perform v i = if i = op.semNum then v i + op.semOp else v i := by
  unfold Sembuf.perform
  by_cases h : i = op.semNum
  · subst h
    simp
  · simp [h]

variable {ops : List Sembuf} {l : List Int}

theorem Stuck.not_enabled {num : Nat} {v : Nat → Int} (h : Stuck num ops (v num)) :
    ¬ Enabled ops v := by
  induction ops generalizing v with
  | nil => exact h.elim
  | cons op ops ih =>
    rintro ⟨hgo, hrest⟩
    refine ih ?_ hrest
    rw [perform_apply]
    unfold Stuck at h
    split at h
    · rename_i hnum
      subst hnum
      rw [if_pos rfl]
      exact h.resolve_left fun hnot ↦ hnot hgo
    · rename_i hnum
      rw [if_neg (Ne.symm hnum)]
      exact h

theorem performAll_eq (ops : List Sembuf) (v : Nat → Int) (i : Nat) :
    performAll ops v i = v i + total ops i := by
  induction ops generalizing v with
  | nil => simp [performAll, total]
  | cons op ops ih =>
    rw [performAll, ih, perform_apply, total, total]
    by_cases h : op.semNum = i
    · simp [h, add_assoc]
    · simp [h, Ne.symm h]

theorem performAll_of_not_mem {i : Nat} (h : i ∉ ops.map Sembuf.semNum) (v : Nat → Int) :
    performAll ops v i = v i := by
  have hempty : ops.filter (fun op ↦ op.semNum = i) = [] := by
    rw [List.filter_eq_nil_iff]
    intro op hop heq
    exact h (List.mem_map.2 ⟨op, hop, of_decide_eq_true heq⟩)
  rw [performAll_eq, total, hempty, List.map_nil, List.sum_nil, add_zero]

/-- Operations that can go on never take a value below zero. -/
theorem performAll_nonneg {v : Nat → Int} (hgo : Enabled ops v) (hv : ∀ i, 0 ≤ v i) (i : Nat) :
    0 ≤ performAll ops v i := by
  induction ops generalizing v with
  | nil => exact hv i
  | cons op ops ih =>
    refine ih hgo.2 fun j ↦ ?_
    rw [perform_apply]
    have hj := hv j
    split
    · rename_i heq
      have := hgo.1.1
      rw [← heq] at this
      omega
    · exact hj

/-! ## The scratch copy -/

structure Semaphore where
  val : Int
  sempid : Pid
  deriving DecidableEq, Repr

structure SemSet where
  perm : Perm
  otime : Int
  ctime : Int
  semas : List Semaphore
  deriving DecidableEq, Repr

/-- The value of a semaphore of the set. -/
def SemSet.val (set : SemSet) (i : Nat) : Int := (set.semas.map Semaphore.val).getD i 0

/-- How the simulation of an array ends. -/
inductive Simulated
  | applied (scratch : List Int)
  | blocks (op : Sembuf)

/-- The array on a scratch copy of the values, up to the first operation that would block. -/
def simulate : List Sembuf → List Int → Option Simulated
  | [], scratch => some (.applied scratch)
  | op :: ops, scratch =>
    let v := scratch.getD op.semNum 0
    if 0 < op.semOp then
      (checkedI32 (v + op.semOp)).bind fun v' ↦ simulate ops (scratch.set op.semNum v')
    else if op.semOp < 0 then
      (checkedI32 (v + op.semOp)).bind fun v' ↦
        if v' < 0 then some (.blocks op) else simulate ops (scratch.set op.semNum v')
    else if v = 0 then simulate ops scratch
    else some (.blocks op)

/-- An operation of the simulation: it blocks, or the rest goes on from the values after it. -/
theorem simulate_cons {op : Sembuf} {r : Simulated} (hop : op.semNum < l.length)
    (h : simulate (op :: ops) l = some r) :
    (r = .blocks op ∧ ¬ op.Proceeds (l.getD op.semNum 0)) ∨
    (op.Proceeds (l.getD op.semNum 0) ∧ ∃ l', l'.length = l.length ∧
      (fun i ↦ l'.getD i 0) = op.perform (fun i ↦ l.getD i 0) ∧ simulate ops l' = some r) := by
  have hset : ∀ v', v' = l.getD op.semNum 0 + op.semOp →
      (fun i ↦ (l.set op.semNum v').getD i 0) = op.perform (fun i ↦ l.getD i 0) := by
    rintro v' rfl
    funext i
    rw [perform_apply]
    by_cases hi : i = op.semNum
    · subst hi
      simp [hop]
    · simp [hi, List.getElem?_set_ne (Ne.symm hi)]
  simp only [simulate] at h
  split_ifs at h with hpos hneg hv
  · obtain ⟨v', hv', h⟩ := Option.bind_eq_some_iff.1 h
    refine .inr ⟨⟨fun h ↦ by omega, fun h ↦ by omega⟩, _, List.length_set, ?_, h⟩
    exact hset v' (checkedI32_eq_some hv')
  · obtain ⟨v', hv', h⟩ := Option.bind_eq_some_iff.1 h
    have hval := checkedI32_eq_some hv'
    split_ifs at h with hlow
    · cases h
      refine .inl ⟨rfl, fun hgo ↦ ?_⟩
      have := hgo.1 hneg
      omega
    · exact .inr ⟨⟨fun _ ↦ by omega, fun h ↦ by omega⟩, _, List.length_set, hset v' hval, h⟩
  · refine .inr ⟨⟨fun h ↦ by omega, fun _ ↦ hv⟩, l, rfl, ?_, h⟩
    funext i
    rw [perform_apply]
    have hzero : op.semOp = 0 := by omega
    simp [hzero]
  · cases h
    exact .inl ⟨rfl, fun hgo ↦ hv (hgo.2 (by omega))⟩

/-- The simulation goes through: the array is enabled, and the scratch values are those after it. -/
theorem simulate_applied {l' : List Int} (hops : ∀ op ∈ ops, op.semNum < l.length)
    (h : simulate ops l = some (.applied l')) :
    Enabled ops (fun i ↦ l.getD i 0) ∧
      (fun i ↦ l'.getD i 0) = performAll ops fun i ↦ l.getD i 0 := by
  induction ops generalizing l with
  | nil =>
    cases h
    exact ⟨trivial, rfl⟩
  | cons op ops ih =>
    rcases simulate_cons (hops op List.mem_cons_self) h with ⟨hr, -⟩ | ⟨hgo, l₁, hlen, hl₁, h⟩
    · cases hr
    · have hrest := ih (fun op' hop' ↦ hlen ▸ hops op' (List.mem_cons_of_mem _ hop')) h
      rw [hl₁] at hrest
      exact ⟨⟨hgo, hrest.1⟩, hrest.2⟩

/-- The simulation stops at an operation: the array is stuck on the semaphore of that operation. -/
theorem simulate_blocks {op : Sembuf} (hops : ∀ op ∈ ops, op.semNum < l.length)
    (h : simulate ops l = some (.blocks op)) : Stuck op.semNum ops (l.getD op.semNum 0) := by
  induction ops generalizing l with
  | nil => cases h
  | cons op' ops ih =>
    unfold Stuck
    rcases simulate_cons (hops op' List.mem_cons_self) h with ⟨hr, hnot⟩ | ⟨-, l₁, hlen, hl₁, h⟩
    · cases hr
      rw [if_pos rfl]
      exact .inl hnot
    · have hrest := ih (fun op' hop' ↦ hlen ▸ hops op' (List.mem_cons_of_mem _ hop')) h
      rw [show l₁.getD op.semNum 0 = op'.perform (fun i ↦ l.getD i 0) op.semNum from
        congrFun hl₁ op.semNum, perform_apply] at hrest
      split
      · rename_i hnum
        rw [if_pos hnum.symm] at hrest
        exact .inr hrest
      · rename_i hnum
        rw [if_neg (Ne.symm hnum)] at hrest
        exact hrest

/-! ## The calls -/

/-- What a process asleep in `semop` waits for: the payload of `WaitingForSemOp`. -/
structure Key where
  semid : Int
  num : Nat
  zero : Bool
  deadline : Nat
  deriving DecidableEq, Repr

/-- A `semop` or `semtimedop`, its arguments read. -/
structure Call where
  cred : Cred
  semid : Int
  ops : List Sembuf
  deadline : Nat
  deriving DecidableEq, Repr

/-- One adjustment a process has to undo. -/
structure Undo where
  semid : Int
  num : Nat
  adj : Int
  deriving DecidableEq, Repr

/-- The sets, what each process has to undo, who sleeps in `semop`, and who is in one. -/
structure St where
  sets : Ids SemSet
  undo : Pid → List Undo
  asleep : Pid → Option Key
  calls : Pid → Option Call

def St.init : St where
  sets := .empty
  undo _ := []
  asleep _ := none
  calls _ := none

/-- The processes asleep after `wake_blocked_semop`. -/
def wakeBlockedSemop (semid : Int) (touched : List Nat) : (Pid → Option Key) → Pid → Option Key :=
  Waiters.wake fun k ↦ k.semid == semid && touched.contains k.num

def wakeBlockedSemopAll (semid : Int) : (Pid → Option Key) → Pid → Option Key :=
  Waiters.wake fun k ↦ k.semid == semid

/-- One more adjustment: added to the entry there is for the semaphore, or a new one. -/
def recordUndo (semid : Int) (num : Nat) (semOp : Int) : List Undo → Option (List Undo)
  | [] => some [⟨semid, num, -semOp⟩]
  | u :: us =>
    if u.semid = semid ∧ u.num = num then
      (checkedI32 (u.adj - semOp)).map fun adj ↦ { u with adj } :: us
    else (recordUndo semid num semOp us).map (u :: ·)

def recordUndos (semid : Int) : List Sembuf → List Undo → Option (List Undo)
  | [], us => some us
  | op :: ops, us =>
    if op.semFlg &&& semUndo ≠ 0 ∧ op.semOp ≠ 0 then
      (recordUndo semid op.semNum op.semOp us).bind (recordUndos semid ops)
    else recordUndos semid ops us

/-- The semaphores the array changes. -/
def touched (ops : List Sembuf) : List Nat :=
  (ops.filter fun op ↦ op.semOp ≠ 0).map Sembuf.semNum

/-- The scratch values of the semaphores the array names become theirs. -/
def commit (scratch : List Int) (caller : Pid) (ops : List Sembuf) (semas : List Semaphore) :
    List Semaphore :=
  ops.foldl (fun semas op ↦ semas.set op.semNum ⟨scratch.getD op.semNum 0, caller⟩) semas

/-- One turn of the loop of `do_semop_impl`: what the call returns, `none` if it goes to sleep. -/
def St.turn (s : St) (caller : Pid) (c : Call) (ticks : Nat) (now : Int) :
    Option (Option (Except Errno Nat) × St) :=
  match s.sets.objs c.semid with
  | none => some (some (.error .EIDRM), s)
  | some set =>
    if !checkAccess set.perm c.cred (c.ops.any fun op ↦ op.semOp ≠ 0) then
      some (some (.error .EACCES), s)
    else if c.ops.any fun op ↦ set.semas.length ≤ op.semNum then some (some (.error .EFBIG), s)
    else (simulate c.ops (set.semas.map Semaphore.val)).bind fun
      | .blocks op =>
        if op.semFlg &&& ipcNowait ≠ 0 then some (some (.error .EAGAIN), s)
        else if c.deadline ≤ ticks then some (some (.error .ETIMEDOUT), s)
        else
          let key := ⟨c.semid, op.semNum, op.semOp == 0, c.deadline⟩
          some (none, { s with asleep := update s.asleep caller (some key) })
      | .applied scratch =>
        (recordUndos c.semid c.ops (s.undo caller)).map fun undo ↦
          (some (.ok 0),
            { s with
              sets := s.sets.put c.semid
                { set with semas := commit scratch caller c.ops set.semas, otime := now }
              undo := update s.undo caller undo
              asleep := wakeBlockedSemop c.semid (touched c.ops) s.asleep })

/-- A turn, and whether the caller is still in the call after it. -/
def St.enter (s : St) (caller : Pid) (c : Call) (ticks : Nat) (now : Int) : Option St :=
  (s.turn caller c ticks now).map fun rs ↦
    { rs.2 with calls := update rs.2.calls caller (if rs.1.isNone then some c else none) }

/-- The elements of an array in user memory, one by one up to the first error. -/
def readAll {α : Type} (f : Nat → Except Errno α) : List Nat → Except Errno (List α)
  | [] => .ok []
  | i :: is => match f i with
    | .error e => .error e
    | .ok a => (readAll f is).map (a :: ·)

/-- The array at `sops_ptr`, `none` where the memory cannot be read. -/
def readSembufs (sops : Nat → Option Sembuf) (nsops : Nat) : Except Errno (List Sembuf) :=
  if nsops = 0 ∨ maxSemopsPerCall < nsops then .error .EINVAL
  else readAll (fun i ↦ (sops i).elim (.error .EFAULT) .ok) (List.range nsops)

/-- The `timeout` argument: `semop`'s, a null pointer, a bad one, or a time. -/
inductive Timeout
  | forever
  | fault
  | after (sec nsec : Int)
  deriving DecidableEq, Repr

def resolveRelativeDeadline (ts : Timeout) (ticks : Nat) : Option (Except Errno Nat) :=
  match ts with
  | .forever => some (.ok u64Max)
  | .fault => some (.error .EFAULT)
  | .after sec nsec =>
    if sec < 0 ∨ nsec < 0 ∨ 1000000000 ≤ nsec then some (.error .EINVAL)
    else
      let deadline := ticks + sec.toNat * timerHz + (nsec.toNat * timerHz + 999999999) / 1000000000
      if deadline ≤ u64Max then some (.ok deadline) else none

/-- `do_semop` and `do_semtimedop` up to the loop. -/
def semopCall (cred : Cred) (semid : Int) (sops : Nat → Option Sembuf) (nsops : Nat) (ts : Timeout)
    (ticks : Nat) : Option (Except Errno Call) :=
  match readSembufs sops nsops with
  | .error e => some (.error e)
  | .ok ops =>
    (resolveRelativeDeadline ts ticks).map fun r ↦ r.map fun deadline ↦ ⟨cred, semid, ops, deadline⟩

/-! ## The undo of a process that exits -/

def SemSet.set (set : SemSet) (num : Nat) (sem : Semaphore) : SemSet :=
  { set with semas := set.semas.set num sem }

def clampVal (v : Int) : Int := max 0 (min v semvmx)

/-- Every adjustment, added back to the semaphore if it is still there, and the semaphores touched. -/
def applyUndo : List Undo → Ids SemSet → Option (Ids SemSet × List (Int × Nat))
  | [], sets => some (sets, [])
  | u :: us, sets =>
    match (sets.objs u.semid).bind fun set ↦ (set.semas[u.num]?).map fun sem ↦ (set, sem) with
    | none => applyUndo us sets
    | some (set, sem) =>
      (checkedI32 (sem.val + u.adj)).bind fun v ↦
        (applyUndo us (sets.put u.semid (set.set u.num { sem with val := clampVal v }))).map
          fun r ↦ (r.1, (u.semid, u.num) :: r.2)

/-- `apply_undo_for_exit`, and the process is gone.  The source wakes set by set. -/
def St.exit (s : St) (pid : Pid) : Option St :=
  (applyUndo (s.undo pid) s.sets).map fun r ↦
    { sets := r.1
      undo := update s.undo pid []
      asleep := update
        (Waiters.wake (fun k ↦ r.2.contains (k.semid, k.num)) s.asleep) pid none
      calls := update s.calls pid none }

/-! ## `semctl` -/

/-- The commands with their arguments: what is read from user memory is `none` if it cannot be, and
`fault` says that a result cannot be written there. -/
inductive Cmd
  | ipcStat (fault : Bool)
  | ipcSet (raw : Option (Nat × Nat × Nat))
  | ipcRmid
  | getVal (num : Nat)
  | setVal (num : Nat) (arg : Nat)
  | getAll (fault : Bool)
  | setAll (arg : Nat → Option Nat)
  | getPid (num : Nat)
  | getNcnt (num : Nat) (table : List Pid)
  | getZcnt (num : Nat) (table : List Pid)
  | other

/-- What a command returns or writes to user memory. -/
inductive Reply
  | ret (v : Nat)
  | ds (perm : Perm) (otime ctime : Int) (nsems : Nat)
  | words (vals : List Nat)
  deriving DecidableEq, Repr

def asI32 (v : Nat) : Int := Int.bmod v 4294967296
def asU16 (v : Int) : Nat := (v % 65536).toNat
def asU64 (v : Int) : Nat := (v % 18446744073709551616).toNat

/-- The processes of the table that wait for the semaphore, to grow or to become zero. -/
def countSemopWaiters (asleep : Pid → Option Key) (semid : Int) (num : Nat) (zero : Bool)
    (table : List Pid) : Nat :=
  table.countP fun pid ↦
    (asleep pid).any fun k ↦ k.semid == semid && k.num == num && k.zero == zero

/-- The values for `SETALL`, read and checked one by one. -/
def readVals (arg : Nat → Option Nat) (n : Nat) : Except Errno (List Int) :=
  let readVal i := match arg i with
    | none => .error .EFAULT
    | some v => if asU16 v ≤ semvmx then .ok (asU16 v : Int) else .error .ERANGE
  readAll readVal (List.range n)

def St.semctl (s : St) (caller : Pid) (c : Cred) (semid : Int) (cmd : Cmd) (now : Int) :
    Except Errno (Reply × St) :=
  match cmd, s.sets.objs semid with
  | .other, _ => .error .EINVAL
  | _, none => .error .EIDRM
  | .ipcStat fault, some set =>
    if !checkAccess set.perm c false then .error .EACCES
    else if fault then .error .EFAULT
    else .ok (.ds set.perm set.otime set.ctime (asU16 set.semas.length), s)
  | .ipcSet raw, some set =>
    if !isOwnerOrCreator set.perm c then .error .EACCES
    else match raw with
      | none => .error .EFAULT
      | some (uid, gid, mode) =>
        let perm := { set.perm with uid := uid, gid := gid, mode := mode &&& 0o777 }
        .ok (.ret 0, { s with sets := s.sets.put semid { set with perm := perm, ctime := now } })
  | .ipcRmid, some set =>
    if !isOwnerOrCreator set.perm c then .error .EACCES
    else .ok (.ret 0,
      { s with
        sets := s.sets.remove semid set.perm.key
        asleep := wakeBlockedSemopAll semid s.asleep })
  | .getVal num, some set =>
    if !checkAccess set.perm c false then .error .EACCES
    else match set.semas[num]? with
      | none => .error .EFBIG
      | some sem => .ok (.ret (asU64 sem.val), s)
  | .setVal num arg, some set =>
    if !checkAccess set.perm c true then .error .EACCES
    else if set.semas.length ≤ num then .error .EFBIG
    else if asI32 arg < 0 ∨ semvmx < asI32 arg then .error .ERANGE
    else .ok (.ret 0,
      { s with
        sets := s.sets.put semid { set.set num ⟨asI32 arg, caller⟩ with ctime := now }
        asleep := wakeBlockedSemop semid [asU16 num] s.asleep })
  | .getAll fault, some set =>
    if !checkAccess set.perm c false then .error .EACCES
    else if fault then .error .EFAULT
    else .ok (.words (set.semas.map fun sem ↦ asU16 sem.val), s)
  | .setAll arg, some set =>
    if !checkAccess set.perm c true then .error .EACCES
    else (readVals arg set.semas.length).map fun vals ↦
      (.ret 0,
        { s with
          sets := s.sets.put semid
            { set with semas := vals.map fun v ↦ ⟨v, caller⟩, ctime := now }
          asleep := wakeBlockedSemop semid (List.range set.semas.length) s.asleep })
  | .getPid num, some set => match set.semas[num]? with
    | none => .error .EFBIG
    | some sem => .ok (.ret sem.sempid, s)
  | .getNcnt num table, some set =>
    if set.semas.length ≤ num then .error .EFBIG
    else .ok (.ret (countSemopWaiters s.asleep semid num false table), s)
  | .getZcnt num table, some set =>
    if set.semas.length ≤ num then .error .EFBIG
    else .ok (.ret (countSemopWaiters s.asleep semid num true table), s)

/-! ## The machine -/

/-- What can happen.  `resume` is the caller of a `semop` that runs again, `exit` the end of a process
whose undo is applied, `die` that of a thread whose process goes on, `rouse` whatever else takes a
process out of its sleep in `semop`. -/
inductive Event
  | semget (cred : Cred) (key nsems : Int) (flag : Nat) (now : Int)
  | semop (pid : Pid) (cred : Cred) (semid : Int) (sops : Nat → Option Sembuf) (nsops : Nat)
      (ts : Timeout) (ticks : Nat) (now : Int)
  | resume (pid : Pid) (ticks : Nat) (now : Int)
  | semctl (pid : Pid) (cred : Cred) (semid : Int) (cmd : Cmd) (now : Int)
  | exit (pid : Pid)
  | die (pid : Pid)
  | rouse (pid : Pid)

/-- `do_semget`. -/
def semget (sets : Ids SemSet) (c : Cred) (key nsems : Int) (flag : Nat) (now : Int) :
    Option (Except Errno Int × Ids SemSet) :=
  let fresh : SemSet :=
    { perm := ⟨key, c.uid, c.gid, c.uid, c.gid, flag &&& 0o777⟩
      otime := 0
      ctime := now
      semas := List.replicate nsems.toNat ⟨0, 0⟩ }
  sets.getOrCreate SemSet.perm (fun set ↦ nsems != 0 && nsems != set.semas.length)
    (nsems ≤ 0 || maxSemsPerSet < nsems) maxSysvSemSets fresh c key flag

def St.step (s : St) : Event → Option St
  | .semget c key nsems flag now =>
    (semget s.sets c key nsems flag now).map fun r ↦ { s with sets := r.2 }
  | .semop pid c semid sops nsops ts ticks now =>
    if s.asleep pid = none ∧ s.calls pid = none then
      (semopCall c semid sops nsops ts ticks).bind fun
        | .error _ => some s
        | .ok call => s.enter pid call ticks now
    else none
  | .resume pid ticks now =>
    if s.asleep pid = none then (s.calls pid).bind fun call ↦ s.enter pid call ticks now else none
  | .semctl pid c semid cmd now =>
    if s.asleep pid = none ∧ s.calls pid = none then
      match s.semctl pid c semid cmd now with
      | .error _ => some s
      | .ok (_, s') => some s'
    else none
  | .exit pid => s.exit pid
  | .die pid =>
    some { s with
      asleep := update s.asleep pid none
      calls := update s.calls pid none }
  | .rouse pid => some { s with asleep := update s.asleep pid none }

/-- The call whose loop an event runs a turn of. -/
def turnOf (s : St) : Event → Option (Pid × Call)
  | .semop pid c semid sops nsops ts ticks _ => match semopCall c semid sops nsops ts ticks with
    | some (.ok call) => some (pid, call)
    | _ => none
  | .resume pid _ _ => (s.calls pid).map fun call ↦ (pid, call)
  | _ => none

end OxideBSD.Sem
