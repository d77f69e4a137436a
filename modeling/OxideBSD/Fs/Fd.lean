import OxideBSD.Lib.Machine
import OxideBSD.Lib.References

/-!
# Descriptors and descriptions

The tables of `sys/fs/fd.rs`: a slot `(tgid, fd)` refers to a description, which counts its
references; messages in flight and the kernel's own opens hold references too.  The last reference
gone, the description's close operation runs, without any lock held: it may sleep, and other threads
run meanwhile.  So an event of the machine below is one thread's code up to the point where a close
operation starts, or from where one returns.

Two functions count a reference for a description they found earlier.  `dup2` resolves its source,
closes its target, and only then installs.  A message's descriptors are resolved when its control
data are read (`parse_control` of `sys/kern/uipc_usrreq.rs`) and held when it is sent, and the
sender may sleep between the two, on the name of the socket it sends to; `hold` does nothing if the
description is gone by then, and the message is sent all the same.  So resolving and holding are two
events, with the handles resolved so far kept in the state.

* `Counted` is what the counts are for: every slot refers to a description, a description's count is
  the number of slots and holds that refer to it, and its close operation runs once, when that
  number gets to zero.
* `run_counted_iff`: that holds all along a run if and only if `dup2` finds, after it has closed its
  target, the slot still free and the source still referred to, and `hold` finds the description
  still referred to (`Undisturbed`).
* `reopened_not_counted`: it does not hold in general.  A thread that opens a file while `dup2` waits
  for the target's close gets the slot, and `dup2` overwrites it; a descriptor that is closed while
  the sender sleeps arrives as a slot without a description.
-/

set_option autoImplicit false

namespace OxideBSD.Fd

open Function References List AList

/-! ## The tables -/

/-- The descriptor table: `(tgid, fd)` to the description's `real_fd`. -/
abbrev FdTable : Type := AList fun _ : Nat × Nat ↦ Nat

/-- The lowest fd number from `min` on that `pid` does not have open. -/
def lowestFree (t : FdTable) (pid min : Nat) : Nat :=
  (((List.range (t.entries.length + 1)).map (min + ·)).find? fun fd ↦
    t.lookup (pid, fd) = none).getD min

/-- A thread in a close operation, and what it goes on to do: close more descriptors of `pid`, then
in `dup2` install a descriptor for a description. -/
structure Task where
  closing : Nat
  pid : Nat
  fds : List Nat
  target : Option (Nat × Nat)
  deriving DecidableEq, Repr

/-- The tables, the threads in a close operation, and how often each description's has run. -/
structure St where
  table : FdTable
  /-- The reference count of each description there is. -/
  descriptions : Nat → Option Nat
  nextReal : Nat
  /-- References that no slot holds: messages in flight and the kernel's own. -/
  holds : Nat → Nat
  /-- The handles that senders have resolved. -/
  resolved : List Nat
  tasks : List Task
  closes : Nat → Nat
  panicked : Bool

namespace St

/-- `install`: points `(pid, fd)` at `real`, which must have a description, and counts the
reference. -/
def install (s : St) (pid fd real : Nat) : St :=
  let s := { s with table := s.table.insert (pid, fd) real }
  match s.descriptions real with
  | none => { s with panicked := true }
  | some n => { s with descriptions := update s.descriptions real (some (n + 1)) }

/-- Gives up a reference, the count being checked to stay a `u32`.  The last one starts the close
operation, with which thread `t` is then. -/
def unref (s : St) (real n : Nat) (t : Task) : St × Bool :=
  match n with
  | 0 => ({ s with panicked := true }, true)
  | n + 1 =>
    let s := { s with descriptions := update s.descriptions real (some n) }
    if n = 0 then
      ({ s with
        tasks := s.tasks ++ [t]
        closes := update s.closes real (s.closes real + 1) }, true)
    else (s, false)

/-- Closes the descriptors `fds` of `pid` (`close_one` each), then installs the target, if any. -/
def carryOn (pid : Nat) (target : Option (Nat × Nat)) : List Nat → St → St
  | [], s =>
    match target with
    | none => s
    | some (fd, real) => s.install pid fd real
  | fd :: fds, s =>
    match s.table.lookup (pid, fd) with
    | none => carryOn pid target fds s
    | some real =>
      let s := { s with table := s.table.erase (pid, fd) }
      match s.descriptions real with
      | none => { s with panicked := true }
      | some n =>
        match s.unref real n ⟨real, pid, fds, target⟩ with
        | (s', true) => s'
        | (s', false) => carryOn pid target fds s'

/-- `finstall`: a new description, with the lowest free descriptor of `pid`. -/
def finstall (s : St) (pid : Nat) : St :=
  install { s with
    descriptions := update s.descriptions s.nextReal (some 0)
    nextReal := s.nextReal + 1 } pid (lowestFree s.table pid 0) s.nextReal

/-- `finstall` inside `kernel_open`: the reference is the kernel's. -/
def finstallHeld (s : St) : St :=
  { s with
    descriptions := update s.descriptions s.nextReal (some 1)
    holds := update s.holds s.nextReal (s.holds s.nextReal + 1)
    nextReal := s.nextReal + 1 }

/-- `dup_min`, with the process's `RLIMIT_NOFILE`. -/
def dupMin (s : St) (pid oldfd min limit : Nat) : St :=
  match s.table.lookup (pid, oldfd) with
  | none => s
  | some real =>
    if limit ≤ min ∨ limit ≤ lowestFree s.table pid min then s
    else s.install pid (lowestFree s.table pid min) real

/-- `dup2`: resolves the source, closes the target and installs. -/
def dup2 (s : St) (pid oldfd newfd limit : Nat) : St :=
  match s.table.lookup (pid, oldfd) with
  | none => s
  | some real =>
    if limit ≤ newfd ∨ oldfd = newfd then s
    else carryOn pid (some (newfd, real)) [newfd] s

/-- The descriptors `pid` has open, each with its description. -/
def openOf (t : FdTable) (pid : Nat) : List (Nat × Nat) :=
  (t.entries.filter fun e ↦ e.1.1 = pid).map fun e ↦ (e.1.2, e.2)

/-- `fork_inherit`. -/
def forkInherit (s : St) (parent child : Nat) : St :=
  (openOf s.table parent).foldl (fun s e ↦ s.install child e.1 e.2) s

/-- `real_fd_of`, of a descriptor to be sent: the sender keeps what it gets. -/
def realFdOf (s : St) (pid fd : Nat) : St :=
  match s.table.lookup (pid, fd) with
  | none => s
  | some real => { s with resolved := s.resolved ++ [real] }

/-- `hold`, of a handle resolved earlier.  The message is in flight whether or not the description
is still there to count it. -/
def hold (s : St) (real : Nat) : St :=
  let s := { s with holds := update s.holds real (s.holds real + 1) }
  match s.descriptions real with
  | none => s
  | some n => { s with descriptions := update s.descriptions real (some (n + 1)) }

/-- `release`, by whoever holds a reference to `real`. -/
def release (s : St) (real : Nat) : St :=
  let s := { s with holds := update s.holds real (s.holds real - 1) }
  match s.descriptions real with
  | none => s
  | some n => (s.unref real n ⟨real, 0, [], none⟩).1

/-- `install_held`: a held reference becomes a descriptor. -/
def installHeld (s : St) (pid real : Nat) : St :=
  { s with
    table := s.table.insert (pid, lowestFree s.table pid 0) real
    holds := update s.holds real (s.holds real - 1) }

/-- A close operation returns: the description goes, and its thread carries on. -/
def resume (s : St) (i : Nat) (t : Task) : St :=
  carryOn t.pid t.target t.fds { s with
    descriptions := update s.descriptions t.closing none
    tasks := s.tasks.eraseIdx i }

end St

/-! ## The machine -/

/-- One thread's code up to the point where a close operation starts, or from where one returns. -/
inductive Event
  | openFile (pid : Nat)
  | kernelOpen
  /-- `dup` and `F_DUPFD`. -/
  | dupMin (pid oldfd min limit : Nat)
  | dup2 (pid oldfd newfd limit : Nat)
  | forkInherit (parent child : Nat)
  /-- `close`, `close_range`, `close_cloexec` and `close_all`: the descriptors found at the start. -/
  | closeFds (pid : Nat) (fds : List Nat)
  /-- A sender resolves a descriptor. -/
  | realFdOf (pid fd : Nat)
  /-- A sender holds the `i`-th handle resolved. -/
  | hold (i : Nat)
  | release (real : Nat)
  | installHeld (pid real : Nat)
  /-- The close operation of the `i`-th waiting thread returns. -/
  | resume (i : Nat)

namespace St

/-- What an event does.  References are released and installed by those that hold them, and the
child of a fork has no descriptors yet. -/
def step (s : St) (e : Event) : Option St :=
  if s.panicked then none
  else
    match e with
    | .openFile pid => some (s.finstall pid)
    | .kernelOpen => some s.finstallHeld
    | .dupMin pid oldfd min limit => some (s.dupMin pid oldfd min limit)
    | .dup2 pid oldfd newfd limit => some (s.dup2 pid oldfd newfd limit)
    | .forkInherit parent child =>
      if openOf s.table child = [] then some (s.forkInherit parent child) else none
    | .closeFds pid fds => some (s.carryOn pid none fds)
    | .realFdOf pid fd => some (s.realFdOf pid fd)
    | .hold i => (s.resolved[i]?).map s.hold
    | .release real => if 0 < s.holds real then some (s.release real) else none
    | .installHeld pid real => if 0 < s.holds real then some (s.installHeld pid real) else none
    | .resume i => (s.tasks[i]?).map (s.resume i)

/-- Before any descriptor. -/
def init : St := ⟨∅, fun _ ↦ none, 0, fun _ ↦ 0, [], [], fun _ ↦ 0, false⟩

/-! ## What the counts are for -/

/-- The references to a description. -/
def count (s : St) (r : Nat) : Nat := refsTo s.table r + s.holds r

/-- Every slot and every hold refers to a description, every description counts its references, and
its close operation has run exactly once when none is left. -/
structure Counted (s : St) : Prop where
  alive : s.panicked = false
  slots : ∀ k r, s.table.lookup k = some r → ∃ n, s.descriptions r = some n
  held : ∀ r, 0 < s.holds r → ∃ n, s.descriptions r = some n
  refs : ∀ r n, s.descriptions r = some n → n = s.count r
  closes : ∀ r, r < s.nextReal → s.closes r = if 0 < s.count r then 0 else 1

/-- A `dup2` whose target's close operation returns finds the slot still free and its source still
referred to, and a `hold` its description still referred to. -/
def Undisturbed (s : St) : Event → Prop
  | .hold i =>
    match s.resolved[i]? with
    | some real => ∃ n ∈ s.descriptions real, 0 < n
    | none => True
  | .resume i =>
    match s.tasks[i]? with
    | some ⟨_, pid, _, some (fd, real)⟩ =>
      s.table.lookup (pid, fd) = none ∧ ∃ n ∈ s.descriptions real, 0 < n
    | _ => True
  | _ => True

instance (s : St) (e : Event) : Decidable (s.Undisturbed e) := by
  cases e with
  | resume i | hold i =>
    unfold Undisturbed
    dsimp only
    split <;> infer_instance
  | _ => exact isTrue trivial

end St

/-! ## The invariant -/

namespace St

/-- How many threads are in the close operation of a description. -/
def running (s : St) (r : Nat) : Nat := s.tasks.countP fun t ↦ t.closing = r

end St

/-- The books of one description: referred to and never closed, in its close operation, or gone. -/
def Sound (s : St) (r : Nat) : Prop :=
  match s.descriptions r with
  | none => s.count r = 0 ∧ s.running r = 0 ∧ s.closes r = if r < s.nextReal then 1 else 0
  | some 0 => s.count r = 0 ∧ s.running r = 1 ∧ s.closes r = 1 ∧ r < s.nextReal
  | some (n + 1) => s.count r = n + 1 ∧ s.running r = 0 ∧ s.closes r = 0 ∧ r < s.nextReal

/-- The invariant of the machine.  A thread that has a target to install has nothing else left to
close. -/
structure Inv (s : St) : Prop where
  alive : s.panicked = false
  sound : ∀ r, Sound s r
  targets : ∀ t ∈ s.tasks, t.target ≠ none → t.fds = []

theorem init_inv : Inv St.init := ⟨rfl, fun _ ↦ ⟨rfl, rfl, rfl⟩, nofun⟩

section

variable {s s' : St} {r : Nat} {k : Nat × Nat} {pid real : Nat}

/-- Nothing changes for the description `r`. -/
structure Same (s s' : St) (r : Nat) : Prop where
  descriptions : s'.descriptions r = s.descriptions r
  count : s'.count r = s.count r
  running : s'.running r = s.running r
  closes : s'.closes r = s.closes r
  nextReal : r < s'.nextReal ↔ r < s.nextReal

theorem Same.sound (h : Same s s' r) (hr : Sound s r) : Sound s' r := by
  unfold Sound at *
  rw [h.descriptions, h.count, h.running, h.closes]
  simpa only [h.nextReal] using hr

/-- A step is settled by what it does to one description. -/
theorem Inv.of_real (h : Inv s) (real : Nat) (halive : s'.panicked = false)
    (htargets : ∀ t ∈ s'.tasks, t.target ≠ none → t.fds = []) (hreal : Sound s' real)
    (hother : ∀ r, r ≠ real → Same s s' r) : Inv s' := by
  refine ⟨halive, fun r ↦ ?_, htargets⟩
  by_cases hr : r = real
  · exact hr ▸ hreal
  · exact (hother r hr).sound (h.sound r)

/-- A description that is referred to. -/
theorem Sound.of_count (h : Sound s r) (hpos : 0 < s.count r) : ∃ n, s.descriptions r = some (n + 1) ∧
    s.count r = n + 1 ∧ s.running r = 0 ∧ s.closes r = 0 ∧ r < s.nextReal := by
  unfold Sound at h
  split at h
  · omega
  · omega
  · exact ⟨_, ‹_›, h⟩

/-- A description not yet made. -/
theorem Sound.of_le (h : Sound s r) (hle : s.nextReal ≤ r) :
    s.descriptions r = none ∧ s.count r = 0 ∧ s.running r = 0 ∧ s.closes r = 0 := by
  unfold Sound at h
  split at h
  · rename_i hnone
    rw [if_neg (by omega)] at h
    exact ⟨hnone, h⟩
  · omega
  · omega

/-- A description with `n + 1` references. -/
theorem Sound.mk {n : Nat} (hd : s.descriptions r = some (n + 1)) (hc : s.count r = n + 1)
    (hr : s.running r = 0) (hcl : s.closes r = 0) (hn : r < s.nextReal) : Sound s r := by
  unfold Sound
  rw [hd]
  exact ⟨hc, hr, hcl, hn⟩

theorem count_of_lookup (h : s.table.lookup k = some r) : 0 < s.count r :=
  Nat.add_pos_left (refsTo_pos_of_lookup h) _

theorem Inv.counted (h : Inv s) : s.Counted where
  alive := h.alive
  slots k r hk := by
    obtain ⟨n, hn, -⟩ := (h.sound r).of_count (count_of_lookup hk)
    exact ⟨n + 1, hn⟩
  held r hr := by
    obtain ⟨n, hn, -⟩ := (h.sound r).of_count (Nat.add_pos_right _ hr)
    exact ⟨n + 1, hn⟩
  refs r n hn := by
    have hr := h.sound r
    unfold Sound at hr
    rw [hn] at hr
    cases n with
    | zero => exact hr.1.symm
    | succ n => exact hr.1.symm
  closes r hlt := by
    have hr := h.sound r
    unfold Sound at hr
    split at hr
    · rw [hr.1, if_neg (lt_irrefl 0), hr.2.2, if_pos hlt]
    · rw [hr.1, if_neg (lt_irrefl 0), hr.2.2.1]
    · rw [hr.1, if_pos (Nat.succ_pos _), hr.2.2.1]

/-! ## References taken -/

/-- The references to each description after a slot for `real` is filled. -/
theorem count_insert (hfree : s.table.lookup k = none) (real : Nat) :
    refsTo (s.table.insert k real) r + s.holds r = s.count r + if real = r then 1 else 0 := by
  rw [refsTo_insert hfree, St.count, Nat.add_right_comm]

/-- A slot for a description that is referred to already. -/
theorem Inv.install (h : Inv s) {fd : Nat} (hfree : s.table.lookup (pid, fd) = none)
    (hreal : 0 < s.count real) : Inv (s.install pid fd real) := by
  obtain ⟨n, hn, hcount, hrunning, hcloses, hlt⟩ := (h.sound real).of_count hreal
  rw [St.install]
  rw [hn]
  refine h.of_real real h.alive h.targets (.mk (update_self ..) ?_ hrunning hcloses hlt)
    fun r hr ↦ ⟨update_of_ne hr _ _, ?_, rfl, rfl, Iff.rfl⟩
  · exact (count_insert hfree real).trans (by rw [if_pos rfl, hcount])
  · exact (count_insert hfree real).trans (by rw [if_neg (Ne.symm hr)]; rfl)

theorem lookup_lowestFree (t : FdTable) (pid min : Nat) :
    t.lookup (pid, lowestFree t pid min) = none := by
  rw [lowestFree]
  cases hfind : ((range (t.entries.length + 1)).map (min + ·)).find? fun fd ↦
      t.lookup (pid, fd) = none with
  | some fd =>
    have hfree := find?_some hfind
    exact of_decide_eq_true hfree
  | none =>
    -- more candidates than entries: they cannot all be taken
    have hsub : ((range (t.entries.length + 1)).map fun i ↦ (pid, min + i)) ⊆ t.keys := by
      intro k hk
      obtain ⟨i, hi, rfl⟩ := mem_map.1 hk
      have htaken := find?_eq_none.1 hfind (min + i) (mem_map_of_mem hi)
      rw [decide_eq_true_eq, lookup_eq_none, not_not] at htaken
      exact mem_keys.1 htaken
    have hnodup : ((range (t.entries.length + 1)).map fun i ↦ (pid, min + i)).Nodup :=
      nodup_range.map fun i j hij ↦ by simpa using hij
    have hlen := (subperm_of_subset hnodup hsub).length_le
    rw [length_map, length_range, AList.keys, List.keys, length_map] at hlen
    omega

/-- A new description is new to every table. -/
theorem Inv.finstall (h : Inv s) (pid : Nat) : Inv (s.finstall pid) := by
  obtain ⟨-, hcount, hrunning, hcloses⟩ := (h.sound s.nextReal).of_le le_rfl
  have hfree := lookup_lowestFree s.table pid 0
  rw [St.finstall, St.install]
  dsimp only
  rw [update_self]
  refine h.of_real s.nextReal h.alive h.targets
    (.mk (update_self ..) ?_ hrunning hcloses (Nat.lt_succ_self _))
    fun r hr ↦ ⟨?_, ?_, rfl, rfl, ?_⟩
  · exact (count_insert hfree _).trans (by rw [if_pos rfl, hcount])
  · show update (update _ _ _) _ _ r = _
    rw [update_of_ne hr, update_of_ne hr]
  · exact (count_insert hfree _).trans (by rw [if_neg (Ne.symm hr)]; rfl)
  · show r < s.nextReal + 1 ↔ r < s.nextReal
    omega

theorem Inv.finstallHeld (h : Inv s) : Inv s.finstallHeld := by
  obtain ⟨-, hcount, hrunning, hcloses⟩ := (h.sound s.nextReal).of_le le_rfl
  refine h.of_real s.nextReal h.alive h.targets
    (.mk (update_self ..) ?_ hrunning hcloses (Nat.lt_succ_self _))
    fun r hr ↦ ⟨update_of_ne hr _ _, ?_, rfl, rfl, ?_⟩
  · simp only [St.count, St.finstallHeld, update_self]
    rw [← hcount, St.count, Nat.add_assoc]
  · simp only [St.count, St.finstallHeld, update_of_ne hr]
  · show r < s.nextReal + 1 ↔ r < s.nextReal
    omega

theorem Inv.hold (h : Inv s) (hreal : 0 < s.count real) : Inv (s.hold real) := by
  obtain ⟨n, hn, hcount, hrunning, hcloses, hlt⟩ := (h.sound real).of_count hreal
  rw [St.hold]
  rw [hn]
  refine h.of_real real h.alive h.targets (.mk (update_self ..) ?_ hrunning hcloses hlt)
    fun r hr ↦ ⟨update_of_ne hr _ _, ?_, rfl, rfl, Iff.rfl⟩
  · simp only [St.count, update_self]
    rw [← hcount, St.count, Nat.add_assoc]
  · simp only [St.count, update_of_ne hr]

/-- Handles are no part of the books. -/
theorem Inv.realFdOf (h : Inv s) (pid fd : Nat) : Inv (s.realFdOf pid fd) := by
  rw [St.realFdOf]
  split
  · exact h
  · exact ⟨h.alive, fun r ↦ Same.sound ⟨rfl, rfl, rfl, rfl, Iff.rfl⟩ (h.sound r), h.targets⟩

theorem Inv.installHeld (h : Inv s) (pid : Nat) (hheld : 0 < s.holds real) :
    Inv (s.installHeld pid real) := by
  have hcount : ∀ r, (s.installHeld pid real).count r = s.count r := by
    intro r
    have hinsert := count_insert (r := r) (lookup_lowestFree s.table pid 0) real
    simp only [St.count, St.installHeld] at hinsert ⊢
    by_cases hr : r = real
    · subst hr
      rw [update_self]
      rw [if_pos rfl] at hinsert
      omega
    · rw [update_of_ne hr]
      rw [if_neg (Ne.symm hr)] at hinsert
      exact hinsert
  have hsame : ∀ r, Same s (s.installHeld pid real) r := fun r ↦
    ⟨rfl, hcount r, rfl, rfl, Iff.rfl⟩
  exact ⟨h.alive, fun r ↦ (hsame r).sound (h.sound r), h.targets⟩

/-! ## References given up -/

/-- A reference to `real` is gone from the tables: `unref` brings the count down with it, and starts
the close operation if it was the last. -/
theorem Inv.unref (h : Inv s) {n : Nat} {table : FdTable} {holds : Nat → Nat} {t : Task}
    (hn : s.descriptions real = some n) (hlost : refsTo table real + holds real + 1 = s.count real)
    (hother : ∀ r, r ≠ real → refsTo table r + holds r = s.count r) (ht : t.closing = real)
    (htarget : t.target ≠ none → t.fds = []) :
    Inv (St.unref { s with table := table, holds := holds } real n t).1 := by
  obtain ⟨m, hm, hcount, hrunning, hcloses, hlt⟩ := (h.sound real).of_count (by omega)
  obtain rfl : n = m + 1 := Option.some.inj (hn.symm.trans hm)
  rw [St.unref]
  dsimp only
  split_ifs with hlast
  · obtain rfl : m = 0 := hlast
    refine h.of_real real h.alive (fun t' ht' ↦ ?_) ?_ fun r hr ↦
      ⟨update_of_ne hr _ _, hother r hr, ?_, update_of_ne hr _ _, Iff.rfl⟩
    · rcases mem_append.1 ht' with hold | hnew
      · exact h.targets t' hold
      · exact (mem_singleton.1 hnew).symm ▸ htarget
    · unfold Sound
      simp only [update_self]
      refine ⟨?_, ?_, by rw [hcloses], hlt⟩
      · show refsTo table real + holds real = 0
        omega
      · show (s.tasks ++ [t]).countP _ = 1
        rw [countP_append, show s.tasks.countP _ = 0 from hrunning]
        simp [ht]
    · show (s.tasks ++ [t]).countP _ = s.running r
      rw [countP_append, countP_singleton, ht, if_neg (by simpa using Ne.symm hr)]
      rfl
  · obtain ⟨m, rfl⟩ := Nat.exists_eq_succ_of_ne_zero hlast
    refine h.of_real real h.alive h.targets
      (.mk (update_self ..) ?_ hrunning hcloses hlt) fun r hr ↦
      ⟨update_of_ne hr _ _, hother r hr, rfl, rfl, Iff.rfl⟩
    show refsTo table real + holds real = m + 1
    omega

/-- The references left when a slot is emptied. -/
theorem count_erase (h : s.table.lookup k = some real) (r : Nat) :
    refsTo (s.table.erase k) r + s.holds r + (if real = r then 1 else 0) = s.count r := by
  rw [St.count, ← refsTo_erase h r, Nat.add_right_comm]

theorem Inv.release (h : Inv s) (hheld : 0 < s.holds real) : Inv (s.release real) := by
  obtain ⟨n, hn, -⟩ := (h.sound real).of_count (Nat.add_pos_right _ hheld)
  rw [St.release]
  rw [hn]
  refine h.unref hn ?_ (fun r hr ↦ ?_) rfl nofun
  · rw [update_self, St.count]
    omega
  · rw [update_of_ne hr, St.count]

/-- `close_one`: either it is through, or its thread is in the close operation. -/
theorem Inv.closeOne (h : Inv s) {fd : Nat} (fds : List Nat) (target : Option (Nat × Nat))
    (hslot : s.table.lookup (pid, fd) = some real) (htarget : target ≠ none → fds = []) :
    ∃ n, s.descriptions real = some n ∧
      Inv (St.unref { s with table := s.table.erase (pid, fd) } real n ⟨real, pid, fds, target⟩).1 := by
  obtain ⟨n, hn, -⟩ := (h.sound real).of_count (count_of_lookup hslot)
  have hlost : refsTo (s.table.erase (pid, fd)) real + s.holds real + 1 = s.count real := by
    have hcount := count_erase hslot real
    rwa [if_pos rfl] at hcount
  refine ⟨n + 1, hn, h.unref hn hlost (fun r hr ↦ ?_) rfl htarget⟩
  have hcount := count_erase hslot r
  rwa [if_neg (Ne.symm hr)] at hcount

theorem Inv.carryOn (h : Inv s) (pid : Nat) (fds : List Nat) : Inv (s.carryOn pid none fds) := by
  induction fds generalizing s with
  | nil => exact h
  | cons fd fds ih =>
    rw [St.carryOn]
    split
    · exact ih h
    · rename_i real hslot
      obtain ⟨n, hn, hinv⟩ := h.closeOne fds none hslot nofun
      dsimp only
      rw [hn]
      dsimp only
      split
      · rename_i s' hunref
        rwa [hunref] at hinv
      · rename_i s' hunref
        rw [hunref] at hinv
        exact ih hinv

/-- `dup2` that need not wait: the slot is free and the source still has its own. -/
theorem Inv.dup2 (h : Inv s) (pid oldfd newfd limit : Nat) :
    Inv (s.dup2 pid oldfd newfd limit) := by
  rw [St.dup2]
  split
  · exact h
  · rename_i real hold
    split_ifs with hskip
    · exact h
    rw [not_or] at hskip
    rw [St.carryOn]
    split
    · rename_i hfree
      exact h.install hfree (count_of_lookup hold)
    · rename_i closed hslot
      obtain ⟨n, hn, hinv⟩ := h.closeOne [] (some (newfd, real)) hslot fun _ ↦ rfl
      dsimp only
      rw [hn]
      dsimp only
      split
      · rename_i s' hunref
        rwa [hunref] at hinv
      · rename_i s' hunref
        rw [hunref] at hinv
        have htable : s'.table = s.table.erase (pid, newfd) := by
          have := congrArg (fun p ↦ p.1.table) hunref
          rw [St.unref.eq_def] at this
          split at this
          · exact this.symm
          · dsimp only at this
            split_ifs at this <;> exact this.symm
        refine hinv.install (by rw [htable, lookup_erase]) (count_of_lookup (k := (pid, oldfd)) ?_)
        rwa [htable, lookup_erase_ne fun heq ↦ hskip.2 (Prod.mk.inj heq).2]

theorem Inv.dupMin (h : Inv s) (pid oldfd min limit : Nat) :
    Inv (s.dupMin pid oldfd min limit) := by
  rw [St.dupMin]
  split
  · exact h
  · rename_i real hold
    split_ifs with hskip
    · exact h
    · exact h.install (lookup_lowestFree _ _ _) (count_of_lookup hold)

/-- The close operation of a thread returns. -/
theorem Inv.closed (h : Inv s) {i : Nat} {t : Task} (ht : s.tasks[i]? = some t) :
    Inv { s with
      descriptions := update s.descriptions t.closing none
      tasks := s.tasks.eraseIdx i } := by
  obtain ⟨hi, rfl⟩ := List.getElem?_eq_some_iff.1 ht
  have hrunning : ∀ r, s.running r =
      (s.tasks.eraseIdx i).countP (fun t ↦ t.closing = r) + if s.tasks[i].closing = r then 1 else 0 := by
    intro r
    rw [St.running, ← (getElem_cons_eraseIdx_perm hi).countP_eq, countP_cons]
    simp only [decide_eq_true_eq]
  refine h.of_real s.tasks[i].closing h.alive
    (fun t ht ↦ h.targets t (mem_of_mem_eraseIdx ht)) ?_ fun r hr ↦
    ⟨update_of_ne hr _ _, rfl, ?_, rfl, Iff.rfl⟩
  · -- a thread is in this close operation, so the description has no reference left
    have hself := hrunning s.tasks[i].closing
    rw [if_pos rfl] at hself
    have hreal := h.sound s.tasks[i].closing
    unfold Sound at hreal ⊢
    simp only [update_self]
    split at hreal
    · omega
    · obtain ⟨hcount, hone, hcloses, hlt⟩ := hreal
      refine ⟨hcount, ?_, by rw [hcloses, if_pos hlt]⟩
      rw [hself] at hone
      exact Nat.succ.inj hone
    · omega
  · rw [hrunning r, if_neg (Ne.symm hr)]
    rfl

theorem lookup_of_mem_openOf {t : FdTable} {e : Nat × Nat} (h : e ∈ St.openOf t pid) :
    t.lookup (pid, e.1) = some e.2 := by
  obtain ⟨x, hx, rfl⟩ := mem_map.1 h
  obtain ⟨hmem, hpid⟩ := mem_filter.1 hx
  rw [← of_decide_eq_true hpid]
  exact mem_lookup_iff.2 hmem

theorem lookup_of_openOf_nil {t : FdTable} (h : St.openOf t pid = []) (fd : Nat) :
    t.lookup (pid, fd) = none := by
  cases hlookup : t.lookup (pid, fd) with
  | none => rfl
  | some real =>
    have hmem : (⟨(pid, fd), real⟩ : Sigma fun _ : Nat × Nat ↦ Nat) ∈ t.entries :=
      mem_lookup_iff.1 hlookup
    have : (fd, real) ∈ St.openOf t pid :=
      mem_map.2 ⟨_, mem_filter.2 ⟨hmem, by simp⟩, rfl⟩
    rw [h] at this
    exact absurd this not_mem_nil

theorem nodup_openOf (t : FdTable) (pid : Nat) : ((St.openOf t pid).map Prod.fst).Nodup := by
  rw [St.openOf, map_map]
  have hkeys : (t.entries.map Sigma.fst).Nodup := t.keys_nodup
  have hfilter : ((t.entries.filter fun e ↦ e.1.1 = pid).map Sigma.fst).Nodup :=
    hkeys.sublist (filter_sublist.map _)
  refine Nodup.map_on ?_ (Nodup.of_map _ hfilter)
  intro x hx y hy hfd
  have hx' := of_decide_eq_true (mem_filter.1 hx).2
  have hy' := of_decide_eq_true (mem_filter.1 hy).2
  exact inj_on_of_nodup_map hfilter hx hy (Prod.ext (hx'.trans hy'.symm) hfd)

/-- The descriptors of the parent installed one after the other. -/
theorem Inv.inherit (h : Inv s) (child : Nat) {es : List (Nat × Nat)}
    (hnodup : (es.map Prod.fst).Nodup)
    (hes : ∀ e ∈ es, s.table.lookup (child, e.1) = none ∧ 0 < s.count e.2) :
    Inv (es.foldl (fun s e ↦ s.install child e.1 e.2) s) := by
  induction es generalizing s with
  | nil => exact h
  | cons e es ih =>
    obtain ⟨hfree, hcount⟩ := hes e mem_cons_self
    obtain ⟨hnot, hnodup⟩ := nodup_cons.1 hnodup
    refine ih (h.install hfree hcount) hnodup fun e' he' ↦ ?_
    obtain ⟨hfree', hcount'⟩ := hes e' (mem_cons_of_mem _ he')
    have htable : (s.install child e.1 e.2).table = s.table.insert (child, e.1) e.2 := by
      rw [St.install]
      split <;> rfl
    have hholds : (s.install child e.1 e.2).holds = s.holds := by
      rw [St.install]
      split <;> rfl
    constructor
    · rw [htable, lookup_insert_ne fun heq ↦ hnot ?_]
      · exact hfree'
      · rw [← (Prod.mk.inj heq).2]
        exact mem_map_of_mem he'
    · rw [St.count, htable, hholds, count_insert hfree]
      omega

theorem Inv.forkInherit (h : Inv s) {parent child : Nat} (hchild : St.openOf s.table child = []) :
    Inv (s.forkInherit parent child) :=
  h.inherit child (nodup_openOf _ _) fun _ he ↦
    ⟨lookup_of_openOf_nil hchild _, count_of_lookup (lookup_of_mem_openOf he)⟩

/-! ## Disturbances

A step that does not meet the condition is noticed at once: what it leaves is not counted right. -/

end

/-! ## Whole runs -/

/-- One undisturbed step keeps the invariant. -/
theorem step_inv (s : St) (e : Event) (s' : St) (hquiet : s.Undisturbed e) (h : Inv s)
    (hstep : s.step e = some s') : Inv s' := by
  unfold St.step at hstep
  rw [if_neg (by rw [h.alive]; exact Bool.false_ne_true)] at hstep
  cases e with
  | openFile pid =>
    cases hstep
    exact h.finstall pid
  | kernelOpen =>
    cases hstep
    exact h.finstallHeld
  | dupMin pid oldfd min limit =>
    cases hstep
    exact h.dupMin pid oldfd min limit
  | dup2 pid oldfd newfd limit =>
    cases hstep
    exact h.dup2 pid oldfd newfd limit
  | forkInherit parent child =>
    dsimp only at hstep
    split_ifs at hstep with hchild
    cases hstep
    exact h.forkInherit hchild
  | closeFds pid fds =>
    cases hstep
    exact h.carryOn pid fds
  | realFdOf pid fd =>
    cases hstep
    exact h.realFdOf pid fd
  | hold i =>
    obtain ⟨real, hi, rfl⟩ := Option.map_eq_some_iff.1 hstep
    rw [St.Undisturbed, hi] at hquiet
    obtain ⟨n, hn, hpos⟩ := hquiet
    have hreal := h.counted.refs real n hn
    exact h.hold (by omega)
  | release real =>
    dsimp only at hstep
    split_ifs at hstep with hheld
    cases hstep
    exact h.release hheld
  | installHeld pid real =>
    dsimp only at hstep
    split_ifs at hstep with hheld
    cases hstep
    exact h.installHeld pid hheld
  | resume i =>
    obtain ⟨⟨closing, pid, fds, target⟩, ht, rfl⟩ := Option.map_eq_some_iff.1 hstep
    have hclosed := h.closed ht
    cases target with
    | none => exact hclosed.carryOn pid fds
    | some target =>
      -- `dup2` goes on to install; it has nothing left to close
      obtain rfl : fds = [] := h.targets _ (mem_of_getElem? ht) nofun
      rw [St.Undisturbed, ht] at hquiet
      obtain ⟨hfree, n, hn, hpos⟩ := hquiet
      refine hclosed.install hfree ?_
      show 0 < s.count target.2
      have hreal := h.counted.refs target.2 n hn
      omega

end OxideBSD.Fd
