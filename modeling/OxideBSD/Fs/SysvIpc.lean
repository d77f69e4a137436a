import Mathlib

/-!
# What the System V IPC calls share

`sys/fs/sysv_ipc.rs`, and the parts of `sysv_sem.rs` and `sysv_msg.rs` that are the same in both: an
object (a semaphore set, a message queue) has an id and may have a key, `semget` and `msgget` find an
object by its key or make one, and the owner, the group and the mode of an object say who may use it.

* `checkAccess`, `isOwnerOrCreator`: who may.
* `Ids α`: the objects by id, the ids by key, and the next id.  Ids count up and are never used twice:
  the counter is an `i32` and the kernel stops when it would overflow (it is built with overflow
  checks), which is a `none` here as in every model of this directory.
* `Ids.getOrCreate`: `semget` and `msgget`.
-/

set_option autoImplicit false

namespace OxideBSD.Ipc

open Function

inductive Errno
  | ENOENT
  | EINTR
  | E2BIG
  | EBADF
  | EAGAIN
  | ENOMEM
  | EACCES
  | EFAULT
  | EBUSY
  | EEXIST
  | EINVAL
  | ENFILE
  | EMFILE
  | EFBIG
  | ERANGE
  | ENAMETOOLONG
  | ENOMSG
  | EIDRM
  | EMSGSIZE
  | ETIMEDOUT
  deriving DecidableEq, Repr

/-- An `i32` that arithmetic gave, `none` if it overflowed. -/
def checkedI32 (v : Int) : Option Int :=
  if -2147483648 ≤ v ∧ v ≤ 2147483647 then some v else none

theorem checkedI32_eq_some {v v' : Int} (h : checkedI32 v = some v') : v' = v := by
  unfold checkedI32 at h
  split at h
  · cases h
    rfl
  · cases h

/-! ## Permissions -/

/-- The part of `struct ipc_perm` an object keeps. -/
structure Perm where
  key : Int
  uid : Nat
  gid : Nat
  cuid : Nat
  cgid : Nat
  mode : Nat
  deriving DecidableEq, Repr

/-- The caller's effective ids. -/
structure Cred where
  uid : Nat
  gid : Nat
  deriving DecidableEq, Repr

def checkAccess (p : Perm) (c : Cred) (wantWrite : Bool) : Bool :=
  if c.uid = 0 then true
  else
    let bit := if wantWrite then 0o2 else 0o4
    let shift := if c.uid = p.uid then 6 else if c.gid = p.gid then 3 else 0
    (p.mode >>> shift) &&& bit != 0

def isOwnerOrCreator (p : Perm) (c : Cred) : Bool :=
  c.uid == 0 || c.uid == p.uid || c.uid == p.cuid

/-! ## Objects by id -/

def ipcPrivate : Int := 0
def ipcCreat : Nat := 0o1000
def ipcExcl : Nat := 0o2000

/-- The objects by id, how many there are, the ids by key, and the next id. -/
structure Ids (α : Type) where
  next : Int
  objs : Int → Option α
  len : Nat
  keys : Int → Option Int

namespace Ids

variable {α : Type} {t t' : Ids α}

def empty : Ids α where
  next := 1
  objs _ := none
  len := 0
  keys _ := none

/-- An object that is there changes. -/
def put (t : Ids α) (id : Int) (a : α) : Ids α :=
  { t with objs := update t.objs id (some a) }

/-- A new object, under the next id. -/
def create (t : Ids α) (key : Int) (a : α) : Option (Except Errno Int × Ids α) :=
  (checkedI32 (t.next + 1)).map fun next ↦
    (.ok t.next,
      { next
        objs := update t.objs t.next (some a)
        len := if (t.objs t.next).isSome then t.len else t.len + 1
        keys := if key ≠ ipcPrivate then update t.keys key (some t.next) else t.keys })

/-- `IPC_RMID`: the object goes, and its key with it. -/
def remove (t : Ids α) (id key : Int) : Ids α :=
  { t with
    objs := update t.objs id none
    len := t.len - 1
    keys := if key ≠ ipcPrivate then update t.keys key none else t.keys }

/-- A key that has an object.  A key whose object is gone stops the kernel. -/
def found (t : Ids α) (perm : α → Perm) (misfit : α → Bool) (c : Cred) (flag : Nat) (id : Int) :
    Option (Except Errno Int) :=
  if flag &&& ipcCreat != 0 && flag &&& ipcExcl != 0 then some (.error .EEXIST)
  else (t.objs id).map fun a ↦
    if misfit a then .error .EINVAL
    else if !checkAccess (perm a) c false then .error .EACCES
    else .ok id

/-- `do_semget` and `do_msgget`.  `misfit` is the check of an object found by its key, `bad` that of
the arguments for a new one, `fresh` the new object. -/
def getOrCreate (t : Ids α) (perm : α → Perm) (misfit : α → Bool) (bad : Bool) (max : Nat) (fresh : α)
    (c : Cred) (key : Int) (flag : Nat) : Option (Except Errno Int × Ids α) :=
  match if key ≠ ipcPrivate then t.keys key else none with
  | some id => (t.found perm misfit c flag id).map fun r ↦ (r, t)
  | none =>
    if key ≠ ipcPrivate ∧ flag &&& ipcCreat = 0 then some (.error .ENOENT, t)
    else if bad then some (.error .EINVAL, t)
    else if max ≤ t.len then some (.error .EAGAIN, t)
    else t.create key fresh

@[simp] theorem put_next (t : Ids α) (id : Int) (a : α) : (t.put id a).next = t.next := rfl

@[simp] theorem put_objs (t : Ids α) (id : Int) (a : α) :
    (t.put id a).objs = update t.objs id (some a) := rfl

@[simp] theorem remove_objs (t : Ids α) (id key : Int) :
    (t.remove id key).objs = update t.objs id none := rfl

/-- Every object has an id that was given out. -/
def Bounded (t : Ids α) : Prop := ∀ id a, t.objs id = some a → id < t.next

theorem bounded_empty : (empty : Ids α).Bounded := nofun

theorem Bounded.put (h : t.Bounded) {id : Int} {a b : α} (hid : t.objs id = some a) :
    (t.put id b).Bounded := by
  intro id' a' h'
  by_cases heq : id' = id
  · subst heq
    exact h id' a hid
  · rw [put_objs, update_of_ne heq] at h'
    exact h id' a' h'

theorem Bounded.remove (h : t.Bounded) (id key : Int) : (t.remove id key).Bounded := by
  intro id' a h'
  by_cases heq : id' = id
  · subst heq
    simp at h'
  · rw [remove_objs, update_of_ne heq] at h'
    exact h id' a h'

/-- What `getOrCreate` can do to the objects: nothing, or a new one under an id of its own. -/
inductive Gets (t : Ids α) (bad : Bool) (fresh : α) : Ids α → Prop
  | same : Gets t bad fresh t
  | new (t' : Ids α) (hgood : bad = false) (hnext : t'.next = t.next + 1)
      (hobjs : t'.objs = update t.objs t.next (some fresh)) : Gets t bad fresh t'

theorem create_gets {key : Int} {a : α} {r : Except Errno Int} {bad : Bool} (hgood : ¬ bad = true)
    (h : t.create key a = some (r, t')) : Gets t bad a t' := by
  obtain ⟨next, hnext, heq⟩ := Option.map_eq_some_iff.1 h
  cases heq
  exact .new _ (Bool.eq_false_iff.2 hgood) (checkedI32_eq_some hnext) rfl

theorem getOrCreate_gets {perm : α → Perm} {misfit : α → Bool} {bad : Bool} {max : Nat} {fresh : α}
    {c : Cred} {key : Int} {flag : Nat} {r : Except Errno Int}
    (h : t.getOrCreate perm misfit bad max fresh c key flag = some (r, t')) :
    Gets t bad fresh t' := by
  unfold getOrCreate at h
  split at h
  · obtain ⟨r', -, heq⟩ := Option.map_eq_some_iff.1 h
    cases heq
    exact .same
  · split_ifs at h with hkey hbad
    · cases h
      exact .same
    · cases h
      exact .same
    · cases h
      exact .same
    · exact create_gets hbad h

theorem Gets.bounded {bad : Bool} {fresh : α} (h : Gets t bad fresh t') (ht : t.Bounded) : t'.Bounded := by
  cases h with
  | same => exact ht
  | new _ _ hnext hobjs =>
    intro id a hid
    by_cases heq : id = t.next
    · omega
    · rw [hobjs, update_of_ne heq] at hid
      have := ht id a hid
      omega

end Ids

end OxideBSD.Ipc
