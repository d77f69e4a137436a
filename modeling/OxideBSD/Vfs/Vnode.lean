import OxideBSD.Lib.AgeQueue
import OxideBSD.Lib.Machine

/-!
# The life of a vnode

`sys/kern/vfs_subr.rs`: a vnode is kept by two counts, waits on the free list when both are zero, is
found again through the hash, and is freed once it is doomed and nothing keeps it.  `vrele` of the last
use calls the file system's `inactive`, which may call all of this again, for the same vnode too.

The table is a machine whose events are calls.  `vrele` ends where `inactive` is called, with the vnode
on the stack of running `inactive`s (`VnodeTable.inactive`), and goes on with the event `ret`; what
happens in between is what `inactive` does.  An event can happen only if the caller has what the
function asks of it: a reference of its own to give back, or some hold on the vnode it names.

A `reclaim` is taken to call nothing: what nullfs's does to the vnode below commutes with the rest of
`vgone` and stands in a run as events of its own.  The number of a vnode is never used again, so
`freed` counts how often its memory was freed.

* `Sound` is what holds between the calls; `Inv` is what they preserve, `Inv.settle` its heart.
* `run_sound`: the table stays sound as long as no `inactive` drops the last use of its own vnode.
* `doubleFree_not_sound`: one that does frees the vnode, and the `vrele` it is called from frees it again.
-/

set_option autoImplicit false

namespace OxideBSD.Vfs

open Function List AList

/-- What decides over a vnode's life. -/
structure Vnode where
  usecount : Nat
  holdcnt : Nat
  /-- `VI_DOOMED`. -/
  doomed : Bool
  /-- `VI_ININACT`. -/
  inInact : Bool
  /-- `none` for `dead_mount`. -/
  mount : Option Nat
  fileid : Nat
  /-- Whether its operations have an `inactive`. -/
  hasInactive : Bool
  deriving Inhabited

/-- The vnodes, by number, and the tables they are in. -/
structure VnodeTable where
  vnode : Nat → Vnode
  /-- The number of the next vnode. -/
  next : Nat
  hash : AList fun _ : Option Nat × Nat ↦ Nat
  free : AgeQueue Nat
  /-- What `vrele_deferred` queued, the last first. -/
  deferred : List Nat
  /-- Whether the page cache has an entry that nobody uses: it holds the vnode until `vnode_gone`. -/
  idle : Nat → Bool
  /-- How often the memory was freed. -/
  freed : Nat → Nat
  /-- The vnodes whose `inactive` is running, the innermost call first. -/
  inactive : List Nat
  numvnodes : Nat
  maxvnodes : Nat

namespace VnodeTable

/-- No vnodes yet. -/
def init (maxvnodes : Nat) : VnodeTable where
  vnode _ := ⟨0, 0, false, false, none, 0, false⟩
  next := 0
  hash := ∅
  free := .empty
  deferred := []
  idle _ := false
  freed _ := 0
  inactive := []
  numvnodes := 0
  maxvnodes

variable (s : VnodeTable)

def modify (v : Nat) (f : Vnode → Vnode) : VnodeTable :=
  { s with vnode := update s.vnode v (f (s.vnode v)) }

/-- The key of a vnode in the hash. -/
def key (v : Nat) : Option Nat × Nat := ((s.vnode v).mount, (s.vnode v).fileid)

/-! ## Counts -/

def freeVnode (v : Nat) : VnodeTable :=
  { s with freed := update s.freed v (s.freed v + 1), numvnodes := s.numvnodes - 1 }

/-- Where a vnode goes that nothing keeps. -/
def freeOrPush (v : Nat) : VnodeTable :=
  if (s.vnode v).doomed then s.freeVnode v else { s with free := s.free.push v }

def vref (v : Nat) : VnodeTable :=
  let s := s.modify v fun x ↦ { x with usecount := x.usecount + 1 }
  if (s.vnode v).usecount = 1 ∧ (s.vnode v).holdcnt = 0 then { s with free := s.free.remove v } else s

/-- The end of `vrele`, after `inactive`. -/
def vreleEnd (v : Nat) : VnodeTable :=
  if 0 < (s.vnode v).usecount then s
  else if (s.vnode v).holdcnt = 0 then s.freeOrPush v
  else s

/-- `vrele` up to where it calls `inactive`, or all of it when it does not. -/
def vrele (v : Nat) : VnodeTable :=
  let s := s.modify v fun x ↦ { x with usecount := x.usecount - 1 }
  if 0 < (s.vnode v).usecount then s
  else if ¬ (s.vnode v).doomed ∧ (s.vnode v).hasInactive then
    { s.modify v fun x ↦ { x with inInact := true } with inactive := v :: s.inactive }
  else s.vreleEnd v

/-- `inactive` of `v` returns to the `vrele` that called it. -/
def vreleResume (v : Nat) (rest : List Nat) : VnodeTable :=
  ({ s.modify v fun x ↦ { x with inInact := false } with inactive := rest } : VnodeTable).vreleEnd v

def vreleDeferred (v : Nat) : VnodeTable :=
  if 1 < (s.vnode v).usecount then s.modify v fun x ↦ { x with usecount := x.usecount - 1 }
  else { s with deferred := v :: s.deferred }

def vhold (v : Nat) : VnodeTable :=
  let s := s.modify v fun x ↦ { x with holdcnt := x.holdcnt + 1 }
  if (s.vnode v).holdcnt = 1 ∧ (s.vnode v).usecount = 0 then { s with free := s.free.remove v } else s

def vdrop (v : Nat) : VnodeTable :=
  let s := s.modify v fun x ↦ { x with holdcnt := x.holdcnt - 1 }
  if (s.vnode v).holdcnt = 0 ∧ (s.vnode v).usecount = 0 ∧ ¬ (s.vnode v).inInact then s.freeOrPush v
  else s

/-! ## Doom -/

/-- The page cache's `vnode_gone`. -/
def vnodeGone (v : Nat) : VnodeTable :=
  if s.idle v then ({ s with idle := update s.idle v false } : VnodeTable).vdrop v else s

/-- `vgone` up to the page cache: doomed, out of the hash, off its mount. -/
def disassociate (v : Nat) : VnodeTable :=
  let hash := if s.hash.lookup (s.key v) = some v then s.hash.erase (s.key v) else s.hash
  { s.modify v fun x ↦ { x with doomed := true, mount := none } with hash }

def vgone (v : Nat) : VnodeTable :=
  if (s.vnode v).doomed then s else (s.disassociate v).vnodeGone v

def recycleOne : VnodeTable :=
  match s.free.popOldest with
  | none => s
  | some (v, free) => (({ s with free } : VnodeTable).vgone v).freeVnode v

def vrecycle (mp fileid : Nat) : VnodeTable :=
  match s.hash.lookup (some mp, fileid) with
  | none => s
  | some v =>
    if s.free.contains v then
      (({ s with free := s.free.remove v } : VnodeTable).vgone v).freeVnode v
    else s.vgone v

def vflush (mp : Nat) : VnodeTable :=
  let mine := s.free.values.filter fun v ↦ (s.vnode v).mount = some mp
  mine.foldl (fun s v ↦ (s.vgone v).freeVnode v) { s with free := mine.foldl AgeQueue.remove s.free }

/-- The hashed vnodes of a mount. -/
def hashed (mp : Nat) : List Nat :=
  (s.hash.entries.filter fun e ↦ e.1.1 = some mp).map fun e ↦ e.2

def vgoneAll (mp : Nat) : VnodeTable := (s.hashed mp).foldl vgone s

def releaseCached (mp : Nat) : VnodeTable :=
  ((s.hashed mp).filter fun v ↦ (s.vnode v).usecount = 0 ∧ 0 < (s.vnode v).holdcnt).foldl vnodeGone s

/-! ## New vnodes and the hash -/

/-- A new vnode with one use. -/
def alloc (mp fileid : Nat) (hasInactive : Bool) : VnodeTable :=
  { s with
    vnode := update s.vnode s.next ⟨1, 0, false, false, some mp, fileid, hasInactive⟩
    next := s.next + 1
    numvnodes := s.numvnodes + 1 }

/-- `memory` is whether there is memory for the file system's data. -/
def getnewvnode (mp fileid : Nat) (hasInactive memory : Bool) : VnodeTable :=
  let s := if s.numvnodes ≥ s.maxvnodes then s.recycleOne else s
  if memory then s.alloc mp fileid hasInactive else s

def hashGet (mp fileid : Nat) : VnodeTable :=
  match s.hash.lookup (some mp, fileid) with
  | none => s
  | some v => s.vref v

def hashInsert (v : Nat) : VnodeTable := { s with hash := s.hash.insert (s.key v) v }

def hashRehash (v fileid : Nat) : VnodeTable :=
  let s := { s.modify v fun x ↦ { x with fileid } with hash := s.hash.erase (s.key v) }
  s.hashInsert v

/-! ## Events -/

inductive Event
  | getnewvnode (mp fileid : Nat) (hasInactive memory : Bool)
  | hashGet (mp fileid : Nat)
  | hashInsert (v : Nat)
  | hashRehash (v fileid : Nat)
  | vref (v : Nat)
  | vrele (v : Nat)
  | vreleDeferred (v : Nat)
  /-- One turn of `drain_deferred`. -/
  | drain
  | vhold (v : Nat)
  | vdrop (v : Nat)
  /-- A hold is from now on that of a page cache entry nobody uses. -/
  | cacheIdle (v : Nat)
  /-- The page cache entry is used, or about to be evicted. -/
  | cacheUse (v : Nat)
  | vrecycle (mp fileid : Nat)
  | vgone (v : Nat)
  | vflush (mp : Nat)
  /-- A forced unmount. -/
  | vgoneAll (mp : Nat)
  | releaseCached (mp : Nat)
  /-- The innermost `inactive` returns. -/
  | ret
  deriving DecidableEq

/-- There is a use reference outside the deferred queue. -/
def Referenced (v : Nat) : Prop := s.deferred.count v < (s.vnode v).usecount

/-- There is a hold besides that of an idle page cache entry. -/
def HeldByCaller (v : Nat) : Prop := (if s.idle v then 1 else 0) < (s.vnode v).holdcnt

/-- A caller has the vnode some way: by a reference or a hold, or because it is its `inactive`. -/
def Has (v : Nat) : Prop := s.Referenced v ∨ s.HeldByCaller v ∨ v ∈ s.inactive

instance (v : Nat) : Decidable (s.Referenced v) := inferInstanceAs (Decidable (_ < _))
instance (v : Nat) : Decidable (s.HeldByCaller v) := inferInstanceAs (Decidable (_ < _))
instance (v : Nat) : Decidable (s.Has v) := inferInstanceAs (Decidable (_ ∨ _))

/-- `none` when the caller has no business to make the call. -/
def step : Event → Option VnodeTable
  | .getnewvnode mp fileid hasInactive memory => some (s.getnewvnode mp fileid hasInactive memory)
  | .hashGet mp fileid => some (s.hashGet mp fileid)
  | .hashInsert v =>
    if s.Referenced v ∧ ¬ (s.vnode v).doomed then some (s.hashInsert v) else none
  | .hashRehash v fileid =>
    if s.Referenced v ∧ ¬ (s.vnode v).doomed then some (s.hashRehash v fileid) else none
  | .vref v => if s.Has v then some (s.vref v) else none
  | .vrele v => if s.Referenced v then some (s.vrele v) else none
  | .vreleDeferred v => if s.Referenced v then some (s.vreleDeferred v) else none
  | .drain =>
    match s.deferred with
    | [] => none
    | v :: deferred => some (({ s with deferred } : VnodeTable).vrele v)
  | .vhold v => if s.Has v then some (s.vhold v) else none
  | .vdrop v => if s.HeldByCaller v then some (s.vdrop v) else none
  | .cacheIdle v =>
    if ¬ s.idle v ∧ s.HeldByCaller v then
      some { s with idle := update s.idle v true }
    else none
  | .cacheUse v =>
    if s.idle v then some { s with idle := update s.idle v false } else none
  | .vrecycle mp fileid => some (s.vrecycle mp fileid)
  | .vgone v => if s.Has v then some (s.vgone v) else none
  | .vflush mp => some (s.vflush mp)
  -- both of its callers have flushed the mount
  | .vgoneAll mp => some ((s.vflush mp).vgoneAll mp)
  | .releaseCached mp => some (s.releaseCached mp)
  | .ret =>
    match s.inactive with
    | [] => none
    | v :: rest => some (s.vreleResume v rest)

/-! ## What holds between the calls -/

/-- Something keeps the vnode: a use, a hold, or the `vrele` that waits for its `inactive`. -/
def Kept (v : Nat) : Prop :=
  0 < (s.vnode v).usecount ∨ 0 < (s.vnode v).holdcnt ∨ v ∈ s.inactive

/-- A vnode whose file may be asked for again, with nothing that keeps it. -/
def Waits (v : Nat) : Prop := v < s.next ∧ (s.vnode v).doomed = false ∧ ¬ s.Kept v

/-- A doomed vnode with nothing that keeps it. -/
def Dead (v : Nat) : Prop := v < s.next ∧ (s.vnode v).doomed = true ∧ ¬ s.Kept v

instance (v : Nat) : Decidable (s.Kept v) := inferInstanceAs (Decidable (_ ∨ _))
instance (v : Nat) : Decidable (s.Waits v) := inferInstanceAs (Decidable (_ ∧ _))
instance (v : Nat) : Decidable (s.Dead v) := inferInstanceAs (Decidable (_ ∧ _))

/-- **The free list holds exactly the vnodes that wait, each once; memory is freed exactly once, when
the vnode is doomed and nothing keeps it, and then no table has the vnode.** -/
structure Sound : Prop where
  free : ∀ v, s.free.values.count v = if s.Waits v then 1 else 0
  freed : ∀ v, s.freed v = if s.Dead v then 1 else 0
  gone : ∀ v, s.freed v ≠ 0 → (∀ k, s.hash.lookup k ≠ some v) ∧ v ∉ s.free.values ∧ v ∉ s.deferred

/-- What the calls preserve, except for the vnodes `L` that a call has in its hands: they are on no list
and not freed. -/
structure Inv (L : List Nat) : Prop where
  queue : s.free.WF
  free : ∀ v, v ∉ L → (s.free.contains v = true ↔ s.Waits v)
  freed : ∀ v, v ∉ L → s.freed v = if s.Dead v then 1 else 0
  loose : ∀ v ∈ L, s.free.contains v = false ∧ s.freed v = 0
  hash : ∀ k v, s.hash.lookup k = some v → v < s.next ∧ (s.vnode v).doomed = false ∧ k = s.key v
  deferred : ∀ v, s.deferred.count v ≤ (s.vnode v).usecount
  idle : ∀ v, s.idle v = true → 0 < (s.vnode v).holdcnt
  nodup : s.inactive.Nodup
  inInact : ∀ v, (s.vnode v).inInact = true ↔ v ∈ s.inactive
  /-- A number that is not given out yet. -/
  fresh : ∀ v, s.next ≤ v → ¬ s.Kept v

variable {s} {v u : Nat} {L : List Nat}

theorem init_inv (maxvnodes : Nat) : (init maxvnodes).Inv [] where
  queue := AgeQueue.empty_wf
  free v _ := by simp [init, Waits, AgeQueue.empty, AgeQueue.contains]
  freed v _ := by simp [init, Dead]
  loose v hv := absurd hv not_mem_nil
  hash k v hk := by simp [init] at hk
  deferred v := by simp [init]
  idle v hv := by simp [init] at hv
  nodup := nodup_nil
  inInact v := by simp [init]
  fresh v _ := by simp [init, Kept]

theorem not_dead (h : (s.vnode v).doomed = false) : ¬ s.Dead v :=
  fun hdead ↦ Bool.noConfusion (h.symm.trans hdead.2.1)

section Modify

variable {f : Vnode → Vnode}

@[simp] theorem vnode_modify_self : (s.modify v f).vnode v = f (s.vnode v) := by
  simp [modify]

theorem vnode_modify_of_ne (h : u ≠ v) : (s.modify v f).vnode u = s.vnode u := by
  simp [modify, h]

theorem vnode_disassociate_self :
    (s.disassociate v).vnode v = { s.vnode v with doomed := true, mount := none } :=
  update_self v _ s.vnode

theorem vnode_disassociate_of_ne (h : u ≠ v) : (s.disassociate v).vnode u = s.vnode u :=
  update_of_ne h _ s.vnode

end Modify

namespace Inv

theorem lt_next (h : s.Inv L) (hv : s.Kept v) : v < s.next :=
  Nat.lt_of_not_le fun hle ↦ h.fresh v hle hv

theorem not_contains (h : s.Inv L) (hv : s.Kept v) : s.free.contains v = false := by
  by_cases hL : v ∈ L
  · exact (h.loose v hL).1
  · rw [Bool.eq_false_iff]
    exact fun hc ↦ ((h.free v hL).1 hc).2.2 hv

theorem not_freed (h : s.Inv L) (hv : ¬ s.Dead v) : s.freed v = 0 := by
  by_cases hL : v ∈ L
  · exact (h.loose v hL).2
  · rw [h.freed v hL, if_neg hv]

/-- A vnode that something keeps can be taken in hand … -/
theorem loosen (h : s.Inv L) (hv : s.Kept v) : s.Inv (v :: L) :=
  { h with
    free := fun u hu ↦ h.free u fun hL ↦ hu (mem_cons_of_mem v hL)
    freed := fun u hu ↦ h.freed u fun hL ↦ hu (mem_cons_of_mem v hL)
    loose := by
      intro u hu
      rcases mem_cons.1 hu with rfl | hu
      · exact ⟨h.not_contains hv, h.not_freed fun hdead ↦ hdead.2.2 hv⟩
      · exact h.loose u hu }

/-- … and left when something keeps it. -/
theorem leave (h : s.Inv (v :: L)) (hv : s.Kept v) : s.Inv L where
  queue := h.queue
  free u hu := by
    rcases eq_or_ne u v with rfl | huv
    · rw [(h.loose u mem_cons_self).1]
      exact ⟨fun hc ↦ Bool.noConfusion hc, fun hw ↦ absurd hv hw.2.2⟩
    · exact h.free u (not_mem_cons_of_ne_of_not_mem huv hu)
  freed u hu := by
    rcases eq_or_ne u v with rfl | huv
    · rw [(h.loose u mem_cons_self).2, if_neg fun hd ↦ hd.2.2 hv]
    · exact h.freed u (not_mem_cons_of_ne_of_not_mem huv hu)
  loose u hu := h.loose u (mem_cons_of_mem v hu)
  hash := h.hash
  deferred := h.deferred
  idle := h.idle
  nodup := h.nodup
  inInact := h.inInact
  fresh := h.fresh

/-- A vnode in hand may be written, and its `inactive` be called or return, as long as the tables that
have the vnode stay right about it. -/
theorem write {x : Vnode} {stack : List Nat} (h : s.Inv L) (hL : v ∈ L) (hlt : v < s.next)
    (hhash : ∀ k, s.hash.lookup k = some v → x.doomed = false ∧ k = (x.mount, x.fileid))
    (hdeferred : s.deferred.count v ≤ x.usecount) (hidle : s.idle v = true → 0 < x.holdcnt)
    (hnodup : stack.Nodup) (hstack : ∀ u, u ≠ v → (u ∈ stack ↔ u ∈ s.inactive))
    (hinact : x.inInact = true ↔ v ∈ stack) :
    ({ s with vnode := update s.vnode v x, inactive := stack } : VnodeTable).Inv L := by
  let t : VnodeTable := { s with vnode := update s.vnode v x, inactive := stack }
  have hother : ∀ u, u ≠ v → t.vnode u = s.vnode u := fun u hu ↦ update_of_ne hu _ _
  have hself : t.vnode v = x := update_self _ _ _
  have hkept : ∀ u, u ≠ v → (t.Kept u ↔ s.Kept u) := by
    intro u hu
    rw [Kept, Kept, hother u hu, hstack u hu]
  have hne : ∀ {u}, u ∉ L → u ≠ v := fun hu heq ↦ hu (heq ▸ hL)
  show t.Inv L
  refine ⟨h.queue, fun u hu ↦ ?_, fun u hu ↦ ?_, h.loose, fun k u hk ↦ ?_, fun u ↦ ?_, fun u hu ↦ ?_,
    hnodup, fun u ↦ ?_, fun u hu ↦ ?_⟩
  · rw [Waits, hkept u (hne hu), hother u (hne hu)]
    exact h.free u hu
  · simp only [Dead, hkept u (hne hu), hother u (hne hu)]
    exact h.freed u hu
  · rcases eq_or_ne u v with rfl | huv
    · rw [key, hself]
      exact ⟨hlt, hhash k hk⟩
    · rw [key, hother u huv]
      exact h.hash k u hk
  · rcases eq_or_ne u v with rfl | huv
    · rw [hself]
      exact hdeferred
    · rw [hother u huv]
      exact h.deferred u
  · rcases eq_or_ne u v with rfl | huv
    · rw [hself]
      exact hidle hu
    · rw [hother u huv]
      exact h.idle u hu
  · rcases eq_or_ne u v with rfl | huv
    · rw [hself]
      exact hinact
    · rw [hother u huv, h.inInact]
      exact (hstack u huv).symm
  · have huv : u ≠ v := fun heq ↦ Nat.not_le_of_lt hlt (heq ▸ hu)
    rw [hkept u huv]
    exact h.fresh u hu

/-- Only a count of the vnode is written. -/
theorem modifyCounts {f : Vnode → Vnode} (h : s.Inv (v :: L)) (hlt : v < s.next)
    (hf : f (s.vnode v) = { s.vnode v with
      usecount := (f (s.vnode v)).usecount, holdcnt := (f (s.vnode v)).holdcnt })
    (hdeferred : s.deferred.count v ≤ (f (s.vnode v)).usecount)
    (hidle : s.idle v = true → 0 < (f (s.vnode v)).holdcnt) : (s.modify v f).Inv (v :: L) := by
  refine h.write mem_cons_self hlt (fun k hk ↦ ?_) hdeferred hidle h.nodup (fun _ _ ↦ Iff.rfl) ?_
  · rw [hf]
    exact (h.hash k v hk).2
  · rw [hf]
    exact h.inInact v

/-- **A vnode in hand that nothing keeps is freed, or put on the free list.** -/
theorem freeOrPush (h : s.Inv (v :: L)) (hv : v ∉ L) (hlt : v < s.next) (hkept : ¬ s.Kept v) :
    (s.freeOrPush v).Inv L := by
  have hloose := h.loose v mem_cons_self
  have hcons : ∀ {u}, u ≠ v → u ∉ L → u ∉ v :: L := not_mem_cons_of_ne_of_not_mem
  unfold VnodeTable.freeOrPush
  split
  · next hdoomed =>
    refine { h with free := fun u hu ↦ ?_, freed := fun u hu ↦ ?_, loose := fun u hu ↦ ?_ }
    · rcases eq_or_ne u v with rfl | huv
      · refine ⟨fun hc ↦ absurd (hloose.1.symm.trans hc) Bool.noConfusion, fun hw ↦ ?_⟩
        exact absurd (hw.2.1.symm.trans hdoomed) Bool.noConfusion
      · exact h.free u (hcons huv hu)
    · rcases eq_or_ne u v with rfl | huv
      · have hdead : (s.freeVnode u).Dead u := ⟨hlt, hdoomed, hkept⟩
        rw [if_pos hdead, freeVnode]
        simp [hloose.2]
      · refine Eq.trans ?_ (h.freed u (hcons huv hu))
        simp [freeVnode, huv]
    · have huv : u ≠ v := fun heq ↦ hv (heq ▸ hu)
      refine ⟨(h.loose u (mem_cons_of_mem v hu)).1, ?_⟩
      refine Eq.trans ?_ (h.loose u (mem_cons_of_mem v hu)).2
      simp [freeVnode, huv]
  · next hdoomed =>
    rw [Bool.not_eq_true] at hdoomed
    refine
      { h with
        queue := h.queue.push hloose.1
        free := fun u hu ↦ ?_
        freed := fun u hu ↦ ?_
        loose := fun u hu ↦ ?_ }
    · rw [AgeQueue.contains_push]
      rcases eq_or_ne u v with rfl | huv
      · exact ⟨fun _ ↦ ⟨hlt, hdoomed, hkept⟩, fun _ ↦ Or.inl rfl⟩
      · rw [or_iff_right huv]
        exact h.free u (hcons huv hu)
    · rcases eq_or_ne u v with rfl | huv
      · exact hloose.2.trans (if_neg (not_dead hdoomed)).symm
      · exact h.freed u (hcons huv hu)
    · have huv : u ≠ v := fun heq ↦ hv (heq ▸ hu)
      have hu := h.loose u (mem_cons_of_mem v hu)
      refine ⟨?_, hu.2⟩
      rw [Bool.eq_false_iff]
      intro hc
      rcases AgeQueue.contains_push.1 hc with heq | hc
      · exact huv heq
      · exact absurd (hu.1.symm.trans hc) Bool.noConfusion

/-- A vnode is taken off the free list. -/
theorem remove (h : s.Inv L) (hv : ¬ s.Dead v) :
    ({ s with free := s.free.remove v } : VnodeTable).Inv (v :: L) := by
  refine
    { h with
      queue := h.queue.remove
      free := fun u hu ↦ ?_
      freed := fun u hu ↦ ?_
      loose := fun u hu ↦ ?_ }
  · rw [mem_cons, not_or] at hu
    rw [AgeQueue.contains_remove, and_iff_right hu.1]
    exact h.free u hu.2
  · rw [mem_cons, not_or] at hu
    exact h.freed u hu.2
  · rw [← Bool.not_eq_true, AgeQueue.contains_remove]
    rcases mem_cons.1 hu with rfl | hu
    · exact ⟨fun hc ↦ hc.1 rfl, h.not_freed hv⟩
    · have hu := h.loose u hu
      exact ⟨fun hc ↦ absurd (hu.1.symm.trans hc.2) Bool.noConfusion, hu.2⟩

/-! ### Counts -/

/-- A count of a vnode goes up, and the vnode off the free list unless something keeps it anyway. -/
theorem raise {f : Vnode → Vnode} {c : Prop} [Decidable c] (h : s.Inv []) (hlt : v < s.next)
    (hv : ¬ s.Dead v) (hf : f (s.vnode v) = { s.vnode v with
      usecount := (f (s.vnode v)).usecount, holdcnt := (f (s.vnode v)).holdcnt })
    (huse : (s.vnode v).usecount ≤ (f (s.vnode v)).usecount)
    (hhold : (s.vnode v).holdcnt ≤ (f (s.vnode v)).holdcnt)
    (hup : 0 < (f (s.vnode v)).usecount ∨ 0 < (f (s.vnode v)).holdcnt) (hc : ¬ c → s.Kept v) :
    (if c then { s.modify v f with free := s.free.remove v } else s.modify v f).Inv [] := by
  have hkept : (s.modify v f).Kept v := by
    rw [Kept, vnode_modify_self]
    exact hup.imp_right Or.inl
  have hdeferred := Nat.le_trans (h.deferred v) huse
  have hidle : s.idle v = true → 0 < (f (s.vnode v)).holdcnt :=
    fun hi ↦ Nat.lt_of_lt_of_le (h.idle v hi) hhold
  split
  · exact leave ((h.remove hv).modifyCounts hlt hf hdeferred hidle) hkept
  · next hnot => exact ((h.loosen (hc hnot)).modifyCounts hlt hf hdeferred hidle).leave hkept

theorem vref (h : s.Inv []) (hlt : v < s.next) (hv : ¬ s.Dead v) : (s.vref v).Inv [] := by
  refine h.raise hlt hv rfl (Nat.le_succ _) (Nat.le_refl _) (Or.inl (Nat.succ_pos _)) ?_
  intro hkeep
  rw [vnode_modify_self, not_and_or] at hkeep
  rcases hkeep with huse | hhold
  · exact Or.inl (Nat.pos_of_ne_zero fun h0 ↦ huse (congrArg Nat.succ h0))
  · exact Or.inr (Or.inl (Nat.pos_of_ne_zero hhold))

theorem vhold (h : s.Inv []) (hlt : v < s.next) (hv : ¬ s.Dead v) : (s.vhold v).Inv [] := by
  refine h.raise hlt hv rfl (Nat.le_refl _) (Nat.le_succ _) (Or.inr (Nat.succ_pos _)) ?_
  intro hkeep
  rw [vnode_modify_self, not_and_or] at hkeep
  rcases hkeep with hhold | huse
  · exact Or.inr (Or.inl (Nat.pos_of_ne_zero fun h0 ↦ hhold (congrArg Nat.succ h0)))
  · exact Or.inl (Nat.pos_of_ne_zero huse)

/-- `inactive` of a vnode in hand is called, or returns. -/
theorem setInactive {b : Bool} {stack : List Nat} (h : s.Inv (v :: L)) (hlt : v < s.next)
    (hnodup : stack.Nodup) (hstack : ∀ u, u ≠ v → (u ∈ stack ↔ u ∈ s.inactive))
    (hb : b = true ↔ v ∈ stack) :
    ({ s.modify v fun x ↦ { x with inInact := b } with inactive := stack } : VnodeTable).Inv
      (v :: L) := by
  exact h.write mem_cons_self hlt (fun k hk ↦ (h.hash k v hk).2) (h.deferred v) (h.idle v) hnodup
    hstack hb

/-- The end of `vrele`, of a vnode whose `inactive` is not running. -/
theorem vreleEnd (h : s.Inv [v]) (hlt : v < s.next) (hv : v ∉ s.inactive) : (s.vreleEnd v).Inv [] := by
  unfold VnodeTable.vreleEnd
  split
  · next huse => exact h.leave (Or.inl huse)
  · next huse =>
    split
    · next hhold =>
      refine h.freeOrPush not_mem_nil hlt ?_
      rintro (hu | hh | hin)
      · exact huse hu
      · exact Nat.ne_of_gt hh hhold
      · exact hv hin
    · next hhold => exact h.leave (Or.inr (Or.inl (Nat.pos_of_ne_zero hhold)))

/-- `vrele` of a reference that is not in the deferred queue. -/
theorem vrele (h : s.Inv []) (href : s.Referenced v)
    (hlast : v ∈ s.inactive → (s.vnode v).usecount ≠ 1) : (s.vrele v).Inv [] := by
  have hpos : 0 < (s.vnode v).usecount := Nat.zero_lt_of_lt href
  have hkept : s.Kept v := Or.inl hpos
  have hlt := h.lt_next hkept
  have h₁ : (s.modify v fun x ↦ { x with usecount := x.usecount - 1 }).Inv [v] :=
    (h.loosen hkept).modifyCounts hlt rfl (Nat.le_pred_of_lt href) (h.idle v)
  unfold VnodeTable.vrele
  dsimp only
  rw [vnode_modify_self]
  split
  · next huse =>
    refine h₁.leave (Or.inl ?_)
    rw [vnode_modify_self]
    exact huse
  · next huse =>
    have hin : v ∉ s.inactive := by
      intro hin
      have hne := hlast hin
      dsimp only at huse
      omega
    split
    · refine (h₁.setInactive hlt (nodup_cons.2 ⟨hin, h.nodup⟩) (fun u hu ↦ ?_) ?_).leave ?_
      · exact mem_cons.trans (or_iff_right hu)
      · exact ⟨fun _ ↦ mem_cons_self, fun _ ↦ rfl⟩
      · exact Or.inr (Or.inr mem_cons_self)
    · exact h₁.vreleEnd hlt hin

/-- `inactive` returns. -/
theorem vreleResume {rest : List Nat} (h : s.Inv []) (hstack : s.inactive = v :: rest) :
    (s.vreleResume v rest).Inv [] := by
  have hkept : s.Kept v := Or.inr (Or.inr (hstack ▸ mem_cons_self))
  have hlt := h.lt_next hkept
  have hnodup := nodup_cons.1 (hstack ▸ h.nodup)
  refine vreleEnd ((h.loosen hkept).setInactive hlt hnodup.2 (fun u hu ↦ ?_) ?_) hlt hnodup.1
  · rw [hstack]
    exact (mem_cons.trans (or_iff_right hu)).symm
  · exact ⟨fun hf ↦ Bool.noConfusion hf, fun hin ↦ absurd hin hnodup.1⟩

theorem vreleDeferred (h : s.Inv []) (href : s.Referenced v) : (s.vreleDeferred v).Inv [] := by
  have hpos : 0 < (s.vnode v).usecount := Nat.zero_lt_of_lt href
  have hkept : s.Kept v := Or.inl hpos
  unfold VnodeTable.vreleDeferred
  split
  · next hmore =>
    refine ((h.loosen hkept).modifyCounts (h.lt_next hkept) rfl (Nat.le_pred_of_lt href)
      (h.idle v)).leave (Or.inl ?_)
    rw [vnode_modify_self]
    exact Nat.sub_pos_of_lt hmore
  · refine { h with deferred := fun u ↦ ?_ }
    rcases eq_or_ne u v with rfl | huv
    · rw [count_cons_self]
      exact href
    · rw [count_cons_of_ne huv.symm]
      exact h.deferred u

theorem vdrop (h : s.Inv []) (hhold : 0 < (s.vnode v).holdcnt)
    (hidle : s.idle v = true → 1 < (s.vnode v).holdcnt) : (s.vdrop v).Inv [] := by
  have hkept : s.Kept v := Or.inr (Or.inl hhold)
  have hlt := h.lt_next hkept
  have h₁ : (s.modify v fun x ↦ { x with holdcnt := x.holdcnt - 1 }).Inv [v] :=
    (h.loosen hkept).modifyCounts hlt rfl (h.deferred v) fun hi ↦ Nat.sub_pos_of_lt (hidle hi)
  unfold VnodeTable.vdrop
  dsimp only
  split
  · next hzero =>
    refine h₁.freeOrPush not_mem_nil hlt ?_
    rintro (hu | hh | hin)
    · exact Nat.ne_of_gt hu hzero.2.1
    · exact Nat.ne_of_gt hh hzero.1
    · exact hzero.2.2 ((h₁.inInact v).2 hin)
  · next hzero =>
    refine h₁.leave ?_
    by_contra hnot
    rw [Kept, not_or, not_or, Nat.pos_iff_ne_zero, not_not, Nat.pos_iff_ne_zero, not_not] at hnot
    exact hzero ⟨hnot.2.1, hnot.1, fun hin ↦ hnot.2.2 ((h₁.inInact v).1 hin)⟩

/-- The page cache lets go of a vnode. -/
theorem vnodeGone (h : s.Inv []) : (s.vnodeGone v).Inv [] := by
  unfold VnodeTable.vnodeGone
  split
  · next hidle =>
    have h₁ : ({ s with idle := update s.idle v false } : VnodeTable).Inv [] := by
      refine { h with idle := fun u hu ↦ ?_ }
      rcases eq_or_ne u v with rfl | huv
      · simp at hu
      · exact h.idle u (by simpa [huv] using hu)
    exact h₁.vdrop (h.idle v hidle) fun hi ↦ by simp at hi
  · exact h

/-! ### Doom -/

theorem disassociate (h : s.Inv (v :: L)) (hlt : v < s.next) : (s.disassociate v).Inv (v :: L) := by
  let hash := if s.hash.lookup (s.key v) = some v then s.hash.erase (s.key v) else s.hash
  have hsub : ∀ k u, hash.lookup k = some u → s.hash.lookup k = some u ∧ u ≠ v := by
    intro k u hk
    have hk' : s.hash.lookup k = some u ∧ (k = s.key v → s.hash.lookup (s.key v) ≠ some v) := by
      by_cases hmine : s.hash.lookup (s.key v) = some v
      · rw [show hash = s.hash.erase (s.key v) from if_pos hmine] at hk
        have hne : k ≠ s.key v := by
          rintro rfl
          rw [lookup_erase] at hk
          cases hk
        rw [lookup_erase_ne hne] at hk
        exact ⟨hk, fun heq ↦ absurd heq hne⟩
      · rw [show hash = s.hash from if_neg hmine] at hk
        exact ⟨hk, fun _ ↦ hmine⟩
    refine ⟨hk'.1, ?_⟩
    rintro rfl
    have hkey := (h.hash k u hk'.1).2.2
    exact hk'.2 hkey (hkey ▸ hk'.1)
  have h₁ : ({ s with hash } : VnodeTable).Inv (v :: L) :=
    { h with hash := fun k u hk ↦ h.hash k u (hsub k u hk).1 }
  exact h₁.write mem_cons_self hlt (fun k hk ↦ absurd rfl (hsub k v hk).2) (h.deferred v)
    (h.idle v) h.nodup (fun _ _ ↦ Iff.rfl) (h.inInact v)

/-- `vgone` of a vnode that something keeps. -/
theorem vgone (h : s.Inv []) (hkept : (s.vnode v).doomed = false → s.Kept v) : (s.vgone v).Inv [] := by
  unfold VnodeTable.vgone
  split
  · exact h
  · next hdoomed =>
    have hkept := hkept (Bool.eq_false_iff.2 hdoomed)
    have h₁ := (h.loosen hkept).disassociate (h.lt_next hkept)
    refine (h₁.leave ?_).vnodeGone
    rw [Kept, vnode_disassociate_self]
    exact hkept

theorem vgone_eq (h : s.Inv L) (hwaits : s.Waits v) : s.vgone v = s.disassociate v := by
  have hidle : (s.disassociate v).idle v = false := by
    rw [Bool.eq_false_iff]
    exact fun hi ↦ hwaits.2.2 (Or.inr (Or.inl (h.idle v hi)))
  unfold VnodeTable.vgone VnodeTable.vnodeGone
  rw [if_neg (Bool.eq_false_iff.1 hwaits.2.1), if_neg (Bool.eq_false_iff.1 hidle)]

/-- A vnode taken off the free list is doomed and freed. -/
theorem vgoneFree (h : s.Inv (v :: L)) (hv : v ∉ L) (hwaits : s.Waits v) :
    ((s.vgone v).freeVnode v).Inv L := by
  have hfree : (s.disassociate v).freeOrPush v = (s.disassociate v).freeVnode v := by
    rw [VnodeTable.freeOrPush, vnode_disassociate_self]
    rfl
  rw [h.vgone_eq hwaits, ← hfree]
  refine (h.disassociate hwaits.1).freeOrPush hv hwaits.1 ?_
  rw [Kept, vnode_disassociate_self]
  exact hwaits.2.2

theorem recycleOne (h : s.Inv []) : s.recycleOne.Inv [] := by
  unfold VnodeTable.recycleOne
  split
  · exact h
  · next v free hpop =>
    obtain ⟨hcontains, rfl⟩ := h.queue.popOldest_eq_some hpop
    have hwaits := (h.free v not_mem_nil).1 hcontains
    exact (h.remove (not_dead hwaits.2.1)).vgoneFree not_mem_nil hwaits

theorem vrecycle {mp fileid : Nat} (h : s.Inv []) : (s.vrecycle mp fileid).Inv [] := by
  unfold VnodeTable.vrecycle
  split
  · exact h
  · next v hv =>
    obtain ⟨hlt, hdoomed, -⟩ := h.hash _ v hv
    split
    · next hcontains =>
      have hwaits := (h.free v not_mem_nil).1 hcontains
      exact (h.remove (not_dead hdoomed)).vgoneFree not_mem_nil hwaits
    · next hcontains =>
      refine h.vgone fun _ ↦ ?_
      by_contra hkept
      exact hcontains ((h.free v not_mem_nil).2 ⟨hlt, hdoomed, hkept⟩)

/-- The loop of `vflush`. -/
theorem flush (vs : List Nat) (h : s.Inv vs) (hnodup : vs.Nodup) (hwaits : ∀ v ∈ vs, s.Waits v) :
    (vs.foldl (fun s v ↦ (s.vgone v).freeVnode v) s).Inv [] ∧
      (vs.foldl (fun s v ↦ (s.vgone v).freeVnode v) s).free = s.free ∧
      ∀ u, u ∉ vs → (vs.foldl (fun s v ↦ (s.vgone v).freeVnode v) s).vnode u = s.vnode u := by
  induction vs generalizing s with
  | nil => exact ⟨h, rfl, fun _ _ ↦ rfl⟩
  | cons v vs ih =>
    obtain ⟨hv, hnodup⟩ := nodup_cons.1 hnodup
    have hvwaits := hwaits v mem_cons_self
    have heq : (s.vgone v).freeVnode v = (s.disassociate v).freeVnode v := by
      rw [h.vgone_eq hvwaits]
    have hother : ∀ u, u ≠ v → ((s.vgone v).freeVnode v).vnode u = s.vnode u := by
      intro u hu
      rw [heq]
      exact vnode_disassociate_of_ne hu
    rw [foldl_cons]
    obtain ⟨hinv, hfree, hvnode⟩ := ih (h.vgoneFree hv hvwaits) hnodup (by
      intro u hu
      have hwaits := hwaits u (mem_cons_of_mem v hu)
      have huv : u ≠ v := fun heq ↦ hv (heq ▸ hu)
      rw [Waits, Kept, hother u huv, heq]
      exact hwaits)
    refine ⟨hinv, hfree.trans (by rw [heq]; rfl), fun u hu ↦ ?_⟩
    rw [mem_cons, not_or] at hu
    rw [hvnode u hu.2, hother u hu.1]

/-- `vflush`, and that it leaves no vnode of the mount on the free list. -/
theorem vflush {mp : Nat} (h : s.Inv []) : (s.vflush mp).Inv [] ∧
    ∀ v, (s.vflush mp).free.contains v = true → ((s.vflush mp).vnode v).mount ≠ some mp := by
  let mine := s.free.values.filter fun v ↦ (s.vnode v).mount = some mp
  have hmine : ∀ v ∈ mine, s.Waits v := by
    intro v hv
    exact (h.free v not_mem_nil).1 (h.queue.mem_values.1 (mem_filter.1 hv).1)
  have h₁ : ({ s with free := mine.foldl AgeQueue.remove s.free } : VnodeTable).Inv mine := by
    refine
      { h with
        queue := h.queue.removeAll mine
        free := fun u hu ↦ ?_
        freed := fun u _ ↦ h.freed u not_mem_nil
        loose := fun u hu ↦ ?_ }
    · rw [AgeQueue.contains_removeAll, and_iff_right hu]
      exact h.free u not_mem_nil
    · rw [← Bool.not_eq_true, AgeQueue.contains_removeAll]
      exact ⟨fun hc ↦ hc.1 hu, h.not_freed (not_dead (hmine u hu).2.1)⟩
  obtain ⟨hinv, hfree, hvnode⟩ := h₁.flush mine (h.queue.values_nodup.filter _) hmine
  refine ⟨hinv, fun v hv ↦ ?_⟩
  rw [show (s.vflush mp).free = mine.foldl AgeQueue.remove s.free from hfree,
    AgeQueue.contains_removeAll] at hv
  rw [show (s.vflush mp).vnode v = s.vnode v from hvnode v hv.1]
  intro hmount
  exact hv.1 (mem_filter.2 ⟨h.queue.mem_values.2 hv.2, decide_eq_true hmount⟩)

/-- A loop whose turns keep `P` of the vnodes it is about. -/
theorem foldl {f : VnodeTable → Nat → VnodeTable} {P : VnodeTable → Nat → Prop} (vs : List Nat)
    (hf : ∀ s v, s.Inv [] → P s v → (f s v).Inv [] ∧ ∀ u, P s u → P (f s v) u) (h : s.Inv [])
    (hvs : ∀ v ∈ vs, P s v) : (vs.foldl f s).Inv [] := by
  induction vs generalizing s with
  | nil => exact h
  | cons v vs ih =>
    obtain ⟨h₁, hP⟩ := hf s v h (hvs v mem_cons_self)
    exact ih h₁ fun u hu ↦ hP u (hvs u (mem_cons_of_mem v hu))

theorem releaseCached {mp : Nat} (h : s.Inv []) : (s.releaseCached mp).Inv [] :=
  h.foldl (P := fun _ _ ↦ True) _ (fun _ _ hs _ ↦ ⟨hs.vnodeGone, fun _ _ ↦ trivial⟩) fun _ _ ↦ trivial

end Inv

theorem mem_hashed {mp : Nat} (hv : v ∈ s.hashed mp) : ∃ fileid, s.hash.lookup (some mp, fileid) = some v := by
  obtain ⟨⟨⟨m, fileid⟩, w⟩, he, rfl⟩ := mem_map.1 hv
  rw [mem_filter] at he
  obtain rfl := of_decide_eq_true he.2
  exact ⟨fileid, mem_lookup_iff.2 he.1⟩

theorem freeOrPush_frame : (s.freeOrPush v).next = s.next ∧ (s.freeOrPush v).inactive = s.inactive ∧
    (s.freeOrPush v).vnode = s.vnode := by
  unfold freeOrPush
  split
  · exact ⟨rfl, rfl, rfl⟩
  · exact ⟨rfl, rfl, rfl⟩

theorem vdrop_frame : (s.vdrop v).next = s.next ∧ (s.vdrop v).inactive = s.inactive ∧
    ((s.vdrop v).vnode v).doomed = (s.vnode v).doomed ∧ ∀ u, u ≠ v → (s.vdrop v).vnode u = s.vnode u := by
  let t := s.modify v fun x ↦ { x with holdcnt := x.holdcnt - 1 }
  have ht : (t.vnode v).doomed = (s.vnode v).doomed ∧ ∀ u, u ≠ v → t.vnode u = s.vnode u := by
    refine ⟨?_, fun u hu ↦ vnode_modify_of_ne hu⟩
    rw [vnode_modify_self]
  unfold vdrop
  dsimp only
  split
  · obtain ⟨hnext, hstack, hvnode⟩ := freeOrPush_frame
    exact ⟨hnext, hstack, hvnode ▸ ht⟩
  · exact ⟨rfl, rfl, ht⟩

/-- What `vgone` does to the vnodes. -/
theorem vgone_frame : (s.vgone v).next = s.next ∧ (s.vgone v).inactive = s.inactive ∧
    ((s.vgone v).vnode v).doomed = true ∧ ∀ u, u ≠ v → (s.vgone v).vnode u = s.vnode u := by
  unfold vgone
  split
  · next hdoomed => exact ⟨rfl, rfl, hdoomed, fun _ _ ↦ rfl⟩
  · have hself : ((s.disassociate v).vnode v).doomed = true := by
      rw [vnode_disassociate_self]
    unfold vnodeGone
    split
    · let t : VnodeTable :=
        { s.disassociate v with idle := update (s.disassociate v).idle v false }
      obtain ⟨hnext, hstack, hdoomed, hother⟩ := vdrop_frame
      exact ⟨hnext, hstack, hdoomed.trans hself, fun u hu ↦
        (hother u hu).trans (vnode_disassociate_of_ne hu)⟩
    · exact ⟨rfl, rfl, hself, fun u hu ↦ vnode_disassociate_of_ne hu⟩

namespace Inv

theorem vgoneAll {mp : Nat} (h : s.Inv [])
    (hnone : ∀ v, s.free.contains v = true → (s.vnode v).mount ≠ some mp) : (s.vgoneAll mp).Inv [] := by
  refine h.foldl (P := fun s v ↦ v < s.next ∧ ¬ s.Waits v) _ (fun s v hs hv ↦ ⟨?_, fun u hu ↦ ?_⟩)
    fun v hv ↦ ?_
  · refine hs.vgone fun hdoomed ↦ ?_
    by_contra hkept
    exact hv.2 ⟨hv.1, hdoomed, hkept⟩
  · obtain ⟨hnext, hstack, hdoomed, hother⟩ := vgone_frame (s := s)
    refine ⟨hnext ▸ hu.1, fun hwaits ↦ ?_⟩
    rcases eq_or_ne u v with rfl | huv
    · exact absurd (hwaits.2.1.symm.trans hdoomed) Bool.noConfusion
    · rw [Waits, Kept, hother u huv, hnext, hstack] at hwaits
      exact hu.2 hwaits
  · obtain ⟨fileid, hlookup⟩ := mem_hashed hv
    obtain ⟨hlt, hdoomed, hkey⟩ := h.hash _ v hlookup
    refine ⟨hlt, fun hwaits ↦ ?_⟩
    exact hnone v ((h.free v not_mem_nil).2 hwaits) (congrArg Prod.fst hkey).symm

/-! ### New vnodes and the hash -/

/-- A new vnode: its number is given out, and the vnode written and left with its use. -/
theorem alloc {mp fileid : Nat} {hasInactive : Bool} (h : s.Inv []) :
    (s.alloc mp fileid hasInactive).Inv [] := by
  have hfresh := h.fresh s.next (Nat.le_refl _)
  have hnot : ¬ s.next < s.next := Nat.lt_irrefl _
  have hlt : ∀ u, u ∉ [s.next] → (u < s.next + 1 ↔ u < s.next) := by
    intro u hu
    rw [mem_singleton] at hu
    omega
  have h₁ : ({ s with
      next := s.next + 1, numvnodes := s.numvnodes + 1 } : VnodeTable).Inv [s.next] := by
    refine { h with
      free := fun u hu ↦ ?_
      freed := fun u hu ↦ ?_
      loose := fun u hu ↦ ?_
      hash := fun k u hk ↦ (h.hash k u hk).imp_left Nat.lt_succ_of_lt
      fresh := fun u hu ↦ h.fresh u (Nat.le_of_succ_le hu) }
    · rw [Waits, hlt u hu]
      exact h.free u not_mem_nil
    · simp only [Dead, hlt u hu]
      exact h.freed u not_mem_nil
    · rw [mem_singleton.1 hu, Bool.eq_false_iff]
      exact ⟨fun hc ↦ hnot ((h.free _ not_mem_nil).1 hc).1, h.not_freed fun hd ↦ hnot hd.1⟩
  rw [Kept, not_or, not_or] at hfresh
  refine leave (h₁.write mem_cons_self (Nat.lt_succ_self _)
    (fun k hk ↦ absurd (h.hash k _ hk).1 hnot) ?_ (fun hi ↦ absurd (h.idle _ hi) hfresh.2.1) h.nodup
    (fun _ _ ↦ Iff.rfl) (iff_of_false Bool.noConfusion hfresh.2.2)) (Or.inl ?_)
  · exact Nat.le_trans (h.deferred _) (Nat.le_trans (Nat.le_of_not_lt hfresh.1) (Nat.zero_le _))
  · simp [VnodeTable.alloc]

theorem getnewvnode {mp fileid : Nat} {hasInactive memory : Bool} (h : s.Inv []) :
    (s.getnewvnode mp fileid hasInactive memory).Inv [] := by
  have h₁ : (if s.numvnodes ≥ s.maxvnodes then s.recycleOne else s).Inv [] := by
    split
    · exact h.recycleOne
    · exact h
  unfold VnodeTable.getnewvnode
  dsimp only
  split
  · exact h₁.alloc
  · exact h₁

theorem hashGet {mp fileid : Nat} (h : s.Inv []) : (s.hashGet mp fileid).Inv [] := by
  unfold VnodeTable.hashGet
  split
  · exact h
  · next v hv =>
    obtain ⟨hlt, hdoomed, -⟩ := h.hash _ v hv
    exact h.vref hlt (not_dead hdoomed)

theorem hashInsert (h : s.Inv L) (hlt : v < s.next) (hdoomed : (s.vnode v).doomed = false) :
    (s.hashInsert v).Inv L := by
  refine { h with hash := fun k u hk ↦ ?_ }
  rcases eq_or_ne k (s.key v) with rfl | hne
  · have heq : some v = some u := (lookup_insert s.hash).symm.trans hk
    cases heq
    exact ⟨hlt, hdoomed, rfl⟩
  · exact h.hash k u ((lookup_insert_ne hne).symm.trans hk)

theorem hashRehash {fileid : Nat} (h : s.Inv []) (hkept : s.Kept v)
    (hdoomed : (s.vnode v).doomed = false) : (s.hashRehash v fileid).Inv [] := by
  have hlt := h.lt_next hkept
  have hsub : ∀ k u, (s.hash.erase (s.key v)).lookup k = some u →
      s.hash.lookup k = some u ∧ k ≠ s.key v := by
    intro k u hk
    have hne : k ≠ s.key v := by
      rintro rfl
      rw [lookup_erase] at hk
      cases hk
    exact ⟨(lookup_erase_ne hne).symm.trans hk, hne⟩
  have h₁ : ({ s with hash := s.hash.erase (s.key v) } : VnodeTable).Inv [v] :=
    { h.loosen hkept with hash := fun k u hk ↦ h.hash k u (hsub k u hk).1 }
  have h₂ : ({ s.modify v fun x ↦ { x with fileid } with
      hash := s.hash.erase (s.key v) } : VnodeTable).Inv [v] := by
    refine h₁.write mem_cons_self hlt (fun k hk ↦ ?_) (h.deferred v) (h.idle v) h.nodup
      (fun _ _ ↦ Iff.rfl) (h.inInact v)
    obtain ⟨hk, hne⟩ := hsub k v hk
    exact absurd (h.hash k v hk).2.2 hne
  have hself : (s.modify v fun x ↦ { x with fileid }).vnode v = { s.vnode v with fileid } :=
    vnode_modify_self
  refine (h₂.hashInsert hlt ?_).leave ?_
  · exact (congrArg Vnode.doomed hself).trans hdoomed
  · show (s.modify v fun x ↦ { x with fileid }).Kept v
    rw [Kept, hself]
    exact hkept

end Inv

/-! ## Runs -/

variable (s) in
/-- No `inactive` drops the last use of its own vnode, itself or by draining the deferred queue. -/
def Fits : Event → Prop
  | .vrele v => v ∈ s.inactive → (s.vnode v).usecount ≠ 1
  | .drain => ∀ v ∈ s.deferred.head?, v ∈ s.inactive → (s.vnode v).usecount ≠ 1
  | _ => True

instance : ∀ (s : VnodeTable) (e : Event), Decidable (s.Fits e)
  | s, .vrele v => inferInstanceAs (Decidable (v ∈ s.inactive → (s.vnode v).usecount ≠ 1))
  | s, .drain => inferInstanceAs
      (Decidable (∀ v ∈ s.deferred.head?, v ∈ s.inactive → (s.vnode v).usecount ≠ 1))
  | _, .getnewvnode .. | _, .hashGet .. | _, .hashInsert _ | _, .hashRehash .. | _, .vref _
  | _, .vreleDeferred _ | _, .vhold _ | _, .vdrop _ | _, .cacheIdle _ | _, .cacheUse _
  | _, .vrecycle .. | _, .vgone _ | _, .vflush _ | _, .vgoneAll _ | _, .releaseCached _ | _, .ret =>
    isTrue trivial

theorem Has.kept (h : s.Has v) : s.Kept v := by
  rcases h with href | hhold | hin
  · exact Or.inl (Nat.zero_lt_of_lt href)
  · exact Or.inr (Or.inl (Nat.zero_lt_of_lt hhold))
  · exact Or.inr (Or.inr hin)

theorem Kept.not_dead (h : s.Kept v) : ¬ s.Dead v := fun hdead ↦ hdead.2.2 h

theorem step_inv (s : VnodeTable) (e : Event) (s' : VnodeTable) (hfits : s.Fits e) (h : s.Inv [])
    (hstep : s.step e = some s') : s'.Inv [] := by
  cases e with
  | getnewvnode mp fileid hasInactive memory =>
    cases hstep
    exact h.getnewvnode
  | hashGet mp fileid =>
    cases hstep
    exact h.hashGet
  | hashInsert v =>
    obtain ⟨hc, ⟨⟩⟩ := of_ite_right hstep nofun
    exact h.hashInsert (h.lt_next (Or.inl (Nat.zero_lt_of_lt hc.1))) (Bool.eq_false_iff.2 hc.2)
  | hashRehash v fileid =>
    obtain ⟨hc, ⟨⟩⟩ := of_ite_right hstep nofun
    exact h.hashRehash (Or.inl (Nat.zero_lt_of_lt hc.1)) (Bool.eq_false_iff.2 hc.2)
  | vref v =>
    obtain ⟨hhas, ⟨⟩⟩ := of_ite_right hstep nofun
    exact h.vref (h.lt_next hhas.kept) hhas.kept.not_dead
  | vrele v =>
    obtain ⟨href, ⟨⟩⟩ := of_ite_right hstep nofun
    exact h.vrele href hfits
  | vreleDeferred v =>
    obtain ⟨href, ⟨⟩⟩ := of_ite_right hstep nofun
    exact h.vreleDeferred href
  | drain =>
    dsimp only [step] at hstep
    split at hstep
    · cases hstep
    · next v deferred hq =>
      cases hstep
      have hcount := h.deferred v
      rw [hq, count_cons_self] at hcount
      refine Inv.vrele { h with deferred := fun u ↦ ?_ } hcount ?_
      · refine Nat.le_trans ?_ (h.deferred u)
        rw [hq]
        exact count_le_count_cons
      · exact hfits v (by rw [hq]; rfl)
  | vhold v =>
    obtain ⟨hhas, ⟨⟩⟩ := of_ite_right hstep nofun
    exact h.vhold (h.lt_next hhas.kept) hhas.kept.not_dead
  | vdrop v =>
    obtain ⟨hheld, ⟨⟩⟩ := of_ite_right hstep nofun
    refine h.vdrop (Nat.zero_lt_of_lt hheld) fun hi ↦ ?_
    rw [HeldByCaller, if_pos hi] at hheld
    exact hheld
  | cacheIdle v =>
    obtain ⟨hc, ⟨⟩⟩ := of_ite_right hstep nofun
    refine { h with idle := fun u hu ↦ ?_ }
    rcases eq_or_ne u v with rfl | huv
    · exact Nat.zero_lt_of_lt hc.2
    · exact h.idle u (by simpa [huv] using hu)
  | cacheUse v =>
    cases (of_ite_right hstep nofun).2
    refine { h with idle := fun u hu ↦ ?_ }
    rcases eq_or_ne u v with rfl | huv
    · simp at hu
    · exact h.idle u (by simpa [huv] using hu)
  | vrecycle mp fileid =>
    cases hstep
    exact h.vrecycle
  | vgone v =>
    obtain ⟨hhas, ⟨⟩⟩ := of_ite_right hstep nofun
    exact h.vgone fun _ ↦ hhas.kept
  | vflush mp =>
    cases hstep
    exact h.vflush.1
  | vgoneAll mp =>
    cases hstep
    exact h.vflush.1.vgoneAll h.vflush.2
  | releaseCached mp =>
    cases hstep
    exact h.releaseCached
  | ret =>
    dsimp only [step] at hstep
    split at hstep
    · cases hstep
    · next v rest hstack =>
      cases hstep
      exact h.vreleResume hstack

theorem Inv.sound (h : s.Inv []) : s.Sound where
  free v := by
    rw [h.queue.count_values]
    simp only [h.free v not_mem_nil]
  freed v := h.freed v not_mem_nil
  gone v hv := by
    have hdead : s.Dead v := by
      by_contra hdead
      exact hv (h.not_freed hdead)
    refine ⟨fun k hk ↦ not_dead (h.hash k v hk).2.1 hdead, fun hmem ↦ ?_, fun hmem ↦ ?_⟩
    · exact not_dead ((h.free v not_mem_nil).1 (h.queue.mem_values.1 hmem)).2.1 hdead
    · exact hdead.2.2 (Or.inl (Nat.lt_of_lt_of_le (count_pos_iff.2 hmem) (h.deferred v)))

/-- **The table stays sound** as long as no `inactive` drops the last use of its own vnode. -/
theorem run_sound {es : List Event} {maxvnodes : Nat} {s' : VnodeTable}
    (hfits : Machine.Meets step Fits (init maxvnodes) es)
    (hrun : Machine.run step (init maxvnodes) es = some s') : s'.Sound :=
  (Machine.run_inv step_inv (init_inv maxvnodes) hfits hrun).sound

/-- The life of an unlinked file: its `inactive` frees it, with the page cache holding the vnode, and
the vnode's number in the file system goes to a new one; the table is full. -/
def unlinked : List Event :=
  [.getnewvnode 1 7 true true, .hashInsert 0, .vhold 0, .cacheIdle 0, .vref 0, .vreleDeferred 0,
    .vrele 0, .vrecycle 1 7, .ret, .getnewvnode 1 7 true true, .hashInsert 1, .vrele 1, .ret,
    .getnewvnode 1 8 true true]

theorem run_sound_unlinked : ∃ s', Machine.run step (init 1) unlinked = some s' ∧
    (s'.freed 0 = 1 ∧ s'.freed 1 = 1 ∧ s'.freed 2 = 0) ∧ s'.Sound :=
  Machine.exists_run_and (by decide +kernel) fun _ hrun ↦ run_sound (by decide +kernel) hrun

/-- An `inactive` that takes a reference, frees the file, and drops the reference. -/
def doubleFree : List Event :=
  [.getnewvnode 1 7 true true, .hashInsert 0, .vrele 0, .vref 0, .vrecycle 1 7, .vrele 0, .ret]

theorem doubleFree_not_sound :
    ∃ s', Machine.run step (init 1024) doubleFree = some s' ∧ s'.freed 0 = 2 ∧ ¬ s'.Sound := by
  refine Machine.exists_run_of (fun s' ↦ s'.freed 0 = 2) (by decide +kernel) ?_
  refine fun s' _ hfreed ↦ ⟨hfreed, fun hsound ↦ ?_⟩
  have hone := hsound.freed 0
  rw [hfreed] at hone
  split at hone
  · cases hone
  · cases hone

end VnodeTable
end OxideBSD.Vfs
