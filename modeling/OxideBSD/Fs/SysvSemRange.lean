import OxideBSD.Fs.SysvSemRun

/-!
# The values of semaphores

A semaphore's value is meant to lie in `0 ..= SEMVMX`.  `SETVAL` and `SETALL` refuse a value outside,
and the undo of an exiting process is clamped into the range, but `semop` adds what it is told to add:
nothing in `do_semop_impl` looks at `SEMVMX`.

* `InRange`: the values are in range.  `Reports`: `GETVAL` and `GETALL` say what `semop` tests; past
  65535 `GETALL` would not, for it reports sixteen bits.
* `Fits`: an array that can be performed takes no semaphore it names past `SEMVMX`.
* `step_inRange`, `run_inRange`: as long as that is so, the values are in range and reported as they
  are.  `overfull_not_inRange`: and one array for which it is not is enough.
-/

set_option autoImplicit false

namespace OxideBSD.Sem

open Function Ipc List

/-- Every semaphore's value lies in `0 ..= SEMVMX`. -/
def InRange (sets : Ids SemSet) : Prop :=
  ∀ id set, sets.objs id = some set → ∀ sem ∈ set.semas, 0 ≤ sem.val ∧ sem.val ≤ semvmx

/-- What `GETVAL` and `GETALL` report are the values that `semop` starts from. -/
def Reports (s : St) : Prop :=
  ∀ id set, s.sets.objs id = some set → ∀ pid c now s',
    (∀ num v, s.semctl pid c id (.getVal num) now = .ok (.ret v, s') → (v : Int) = set.val num) ∧
    ∀ vals, s.semctl pid c id (.getAll false) now = .ok (.words vals, s') →
      vals.map Nat.cast = set.semas.map Semaphore.val

/-- The array, if it can be performed, takes no semaphore past `SEMVMX`. -/
def Call.Fits (c : Call) (set : SemSet) : Prop :=
  Enabled c.ops set.val → ∀ op ∈ c.ops, set.val op.semNum + total c.ops op.semNum ≤ semvmx

instance (c : Call) (set : SemSet) : Decidable (c.Fits set) := inferInstanceAs (Decidable (_ → _))

/-- If the event runs a turn of a call, its array fits. -/
def Fits (s : St) (e : Event) : Prop :=
  ∀ pc ∈ turnOf s e, ∀ set ∈ s.sets.objs pc.2.semid, pc.2.Fits set

instance (s : St) (e : Event) : Decidable (Fits s e) :=
  inferInstanceAs (Decidable (∀ pc ∈ turnOf s e, ∀ set ∈ s.sets.objs pc.2.semid, pc.2.Fits set))

/-- A set whose values are in range, said of its values. -/
theorem SemSet.forall_mem_iff (set : SemSet) :
    (∀ sem ∈ set.semas, 0 ≤ sem.val ∧ sem.val ≤ semvmx) ↔
      ∀ i, 0 ≤ set.val i ∧ set.val i ≤ semvmx := by
  constructor
  · intro h i
    rw [SemSet.val_eq]
    cases hi : set.semas[i]? with
    | none => exact ⟨le_refl 0, by decide⟩
    | some sem => exact h sem (mem_of_getElem? hi)
  · intro h sem hsem
    obtain ⟨i, hi⟩ := mem_iff_getElem?.1 hsem
    have := h i
    rw [SemSet.val_eq, hi] at this
    exact this

namespace InRange

variable {t t' : Ids SemSet}

theorem of_update {id : Int} {set : SemSet} (h : InRange t)
    (hobjs : t'.objs = update t.objs id (some set))
    (hset : ∀ sem ∈ set.semas, 0 ≤ sem.val ∧ sem.val ≤ semvmx) : InRange t' := by
  intro id' set' h'
  rw [hobjs] at h'
  by_cases heq : id' = id
  · subst heq
    rw [update_self, Option.some.injEq] at h'
    exact h' ▸ hset
  · rw [update_of_ne heq] at h'
    exact h id' set' h'

theorem remove (h : InRange t) (id key : Int) : InRange (t.remove id key) := by
  intro id' set h'
  by_cases heq : id' = id
  · subst heq
    simp at h'
  · rw [Ids.remove_objs, update_of_ne heq] at h'
    exact h id' set h'

end InRange

/-- One semaphore of a set gets a value in range. -/
theorem forall_mem_set {set : SemSet} {num : Nat} {sem : Semaphore}
    (h : ∀ sem ∈ set.semas, 0 ≤ sem.val ∧ sem.val ≤ semvmx) (hsem : 0 ≤ sem.val ∧ sem.val ≤ semvmx) :
    ∀ sem' ∈ (set.set num sem).semas, 0 ≤ sem'.val ∧ sem'.val ≤ semvmx := by
  intro sem' hmem
  rcases mem_or_eq_of_mem_set hmem with hold | rfl
  · exact h sem' hold
  · exact hsem

variable {s s' : St} {pid : Pid} {now : Int}

theorem Performed.inRange {c : Call} (h : Performed s s' pid c) (hs : InRange s.sets)
    (hfits : ∀ set ∈ s.sets.objs c.semid, c.Fits set) : InRange s'.sets := by
  obtain ⟨old, new, hold, hobjs, hgo, hval, -⟩ := h.set
  have hin := old.forall_mem_iff.1 (hs _ old hold)
  refine hs.of_update hobjs (new.forall_mem_iff.2 fun i ↦ ?_)
  rw [hval]
  refine ⟨performAll_nonneg hgo (fun i ↦ (hin i).1) i, ?_⟩
  by_cases hi : i ∈ c.ops.map Sembuf.semNum
  · obtain ⟨op, hop, rfl⟩ := mem_map.1 hi
    rw [performAll_eq]
    exact hfits old hold hgo op hop
  · rw [performAll_of_not_mem hi]
    exact (hin i).2

theorem clampVal_inRange (v : Int) : 0 ≤ clampVal v ∧ clampVal v ≤ semvmx := by
  unfold clampVal semvmx
  omega

theorem applyUndo_inRange {us : List Undo} {sets sets' : Ids SemSet} {touched : List (Int × Nat)}
    (hs : InRange sets) (h : applyUndo us sets = some (sets', touched)) : InRange sets' := by
  induction us generalizing sets touched with
  | nil =>
    cases h
    exact hs
  | cons u us ih =>
    unfold applyUndo at h
    split at h
    · exact ih hs h
    · rename_i set sem hsem
      obtain ⟨v, -, h⟩ := Option.bind_eq_some_iff.1 h
      obtain ⟨⟨sets₁, touched₁⟩, hrest, heq⟩ := Option.map_eq_some_iff.1 h
      cases heq
      obtain ⟨set', hset', hsem⟩ := Option.bind_eq_some_iff.1 hsem
      obtain ⟨sem', -, heq⟩ := Option.map_eq_some_iff.1 hsem
      cases heq
      exact ih (hs.of_update rfl (forall_mem_set (hs _ set hset') (clampVal_inRange v))) hrest

theorem readAll_forall {α : Type} {f : Nat → Except Errno α} {P : α → Prop}
    (hf : ∀ i a, f i = .ok a → P a) {is : List Nat} {as : List α} (h : readAll f is = .ok as) :
    ∀ a ∈ as, P a := by
  induction is generalizing as with
  | nil =>
    cases h
    simp
  | cons i is ih =>
    obtain ⟨a, as', ha, hrest, rfl⟩ := readAll_cons h
    rw [forall_mem_cons]
    exact ⟨hf i a ha, ih hrest⟩

theorem readVals_inRange {arg : Nat → Option Nat} {n : Nat} {vals : List Int}
    (h : readVals arg n = .ok vals) : ∀ v ∈ vals, 0 ≤ v ∧ v ≤ semvmx := by
  refine readAll_forall (fun i a ha ↦ ?_) h
  split at ha
  · cases ha
  · split_ifs at ha with hle
    cases ha
    exact ⟨Int.natCast_nonneg _, hle⟩

theorem semctl_inRange {c : Cred} {semid : Int} {cmd : Cmd} {r : Reply} (hs : InRange s.sets)
    (h : s.semctl pid c semid cmd now = .ok (r, s')) : InRange s'.sets := by
  unfold St.semctl at h
  split at h
  · cases h
  · cases h
  · split_ifs at h
    cases h
    exact hs
  · rename_i raw set hset
    split_ifs at h
    split at h
    · cases h
    · cases h
      exact hs.of_update rfl (hs _ set hset)
  · split_ifs at h
    cases h
    exact hs.remove _ _
  · split_ifs at h
    split at h <;> cases h
    exact hs
  · rename_i num arg set hset
    split_ifs at h with haccess hnum hrange
    cases h
    exact hs.of_update rfl (forall_mem_set (hs _ set hset) (by dsimp only; omega))
  · split_ifs at h
    cases h
    exact hs
  · rename_i arg set hset
    split_ifs at h
    cases hvals : readVals arg set.semas.length with
    | error e =>
      rw [hvals] at h
      cases h
    | ok vals =>
      rw [hvals] at h
      cases h
      refine hs.of_update rfl fun sem hsem ↦ ?_
      obtain ⟨v, hv, rfl⟩ := mem_map.1 hsem
      exact readVals_inRange hvals v hv
  · split at h <;> cases h
    exact hs
  · split_ifs at h
    cases h
    exact hs
  · split_ifs at h
    cases h
    exact hs

theorem semget_inRange {sets sets' : Ids SemSet} {c : Cred} {key nsems : Int} {flag : Nat}
    {r : Except Errno Int} (hs : InRange sets)
    (h : semget sets c key nsems flag now = some (r, sets')) : InRange sets' := by
  cases Ids.getOrCreate_gets h with
  | same => exact hs
  | new _ _ _ hobjs =>
    refine hs.of_update hobjs fun sem hsem ↦ ?_
    rw [eq_of_mem_replicate hsem]
    decide

theorem enter_inRange {c : Call} {ticks : Nat} (hs : InRange s.sets)
    (hfits : ∀ set ∈ s.sets.objs c.semid, c.Fits set) (h : s.enter pid c ticks now = some s') :
    InRange s'.sets := by
  rcases enter_cases h with h | h | h
  · exact h.inRange hs hfits
  · rw [h.same.1]
    exact hs
  · rw [h.same.1]
    exact hs

theorem step_inRange {e : Event} (hfits : Fits s e) (hs : InRange s.sets) (h : s.step e = some s') :
    InRange s'.sets := by
  cases hturn : turnOf s e with
  | some pc =>
    obtain ⟨pid, c⟩ := pc
    obtain ⟨ticks, now, henter⟩ := step_turn hturn h
    exact enter_inRange hs (hfits (pid, c) hturn) henter
  | none =>
    cases e with
    | semget c key nsems flag now =>
      obtain ⟨⟨r, sets⟩, hget, rfl⟩ := Option.map_eq_some_iff.1 h
      exact semget_inRange hs hget
    | semop pid c semid sops nsops ts ticks now =>
      -- without a turn the arguments were refused
      rw [St.step] at h
      split_ifs at h
      obtain ⟨call, hcall, h⟩ := Option.bind_eq_some_iff.1 h
      cases call with
      | error e =>
        cases h
        exact hs
      | ok call =>
        rw [turnOf, hcall] at hturn
        cases hturn
    | resume pid ticks now =>
      rw [St.step] at h
      split_ifs at h
      obtain ⟨call, hcall, -⟩ := Option.bind_eq_some_iff.1 h
      rw [turnOf, hcall] at hturn
      cases hturn
    | semctl pid c semid cmd now =>
      rw [St.step] at h
      split_ifs at h
      split at h
      · cases h
        exact hs
      · rename_i r t hctl
        cases h
        exact semctl_inRange hs hctl
    | exit pid =>
      obtain ⟨⟨sets, touched⟩, happly, rfl⟩ := Option.map_eq_some_iff.1 h
      exact applyUndo_inRange hs happly
    | die pid =>
      cases h
      exact hs
    | rouse pid =>
      cases h
      exact hs

theorem InRange.reports (hs : InRange s.sets) : Reports s := by
  intro id set hset pid c now s'
  refine ⟨fun num v h ↦ ?_, fun vals h ↦ ?_⟩
  · simp only [St.semctl, hset] at h
    split_ifs at h
    split at h
    · cases h
    · rename_i sem hsem
      cases h
      have := hs id set hset sem (mem_of_getElem? hsem)
      rw [SemSet.val_eq, hsem, Option.map_some, Option.getD_some, asU64]
      unfold semvmx at this
      omega
  · simp only [St.semctl, hset] at h
    split_ifs at h
    cases h
    rw [map_map]
    refine map_congr_left fun sem hsem ↦ ?_
    have := hs id set hset sem hsem
    unfold semvmx at this
    simp only [comp_apply, asU16]
    omega

/-- **Semaphore values stay in range**, and are reported as they are, in every run whose arrays fit. -/
theorem run_inRange {es : List Event} {s : St} (hfits : Machine.Meets St.step Fits St.init es)
    (hrun : Machine.run St.step St.init es = some s) : InRange s.sets ∧ Reports s := by
  have hs : InRange s.sets := Machine.run_inv (I := fun s ↦ InRange s.sets)
    (fun _ _ _ hfits hs ↦ step_inRange hfits hs) (fun _ _ h ↦ (by cases h)) hfits hrun
  exact ⟨hs, hs.reports⟩

/-- A semaphore raised to `SEMVMX`, lowered and raised again with an undo, and the process exits. -/
def fullAndBack : List Event :=
  [.semget ⟨0, 0⟩ 0 1 0o600 0,
   .semctl 1 ⟨0, 0⟩ 1 (.setVal 0 32767) 0,
   .semop 1 ⟨0, 0⟩ 1 (fun i ↦ [⟨0, -1, semUndo⟩][i]?) 1 .forever 0 0,
   .semop 2 ⟨0, 0⟩ 1 (fun i ↦ [⟨0, 1, 0⟩][i]?) 1 .forever 0 0,
   .exit 1]

theorem run_inRange_fullAndBack : ∃ s, Machine.run St.step St.init fullAndBack = some s ∧
    (s.sets.objs 1).map SemSet.semas = some [⟨32767, 2⟩] ∧ (InRange s.sets ∧ Reports s) :=
  Machine.exists_run_and (by decide +kernel) fun _ hrun ↦ run_inRange (by decide +kernel) hrun

/-- A semaphore at `SEMVMX` raised by one, and then twice by 32767. -/
def overfull : List Event :=
  [.semget ⟨0, 0⟩ 0 1 0o600 0,
   .semctl 1 ⟨0, 0⟩ 1 (.setVal 0 32767) 0,
   .semop 1 ⟨0, 0⟩ 1 (fun i ↦ [⟨0, 1, 0⟩][i]?) 1 .forever 0 0,
   .semop 1 ⟨0, 0⟩ 1 (fun i ↦ [⟨0, 32767, 0⟩][i]?) 1 .forever 0 0,
   .semop 1 ⟨0, 0⟩ 1 (fun i ↦ [⟨0, 1, 0⟩][i]?) 1 .forever 0 0]

/-- The value leaves the range, and `GETALL` reports 0 for 65536. -/
theorem overfull_not_inRange : ∃ s, Machine.run St.step St.init overfull = some s ∧
    ¬ InRange s.sets ∧ ¬ Reports s := by
  refine Machine.exists_run_of (fun s ↦ (s.sets.objs 1).map SemSet.semas = some [⟨65536, 1⟩] ∧
    (s.semctl 1 ⟨0, 0⟩ 1 (.getAll false) 0).toOption.map Prod.fst = some (.words [0]))
    (by decide +kernel) fun s _ ⟨hset, hall⟩ ↦ ?_
  obtain ⟨set, hobj, hsemas⟩ := Option.map_eq_some_iff.1 hset
  refine ⟨fun h ↦ ?_, fun h ↦ ?_⟩
  · have hle := (h 1 set hobj ⟨65536, 1⟩ (by rw [hsemas]; exact mem_singleton_self _)).2
    revert hle
    decide
  · cases hctl : s.semctl 1 ⟨0, 0⟩ 1 (.getAll false) 0 with
    | error e =>
      rw [hctl] at hall
      cases hall
    | ok rs =>
      obtain ⟨r, s'⟩ := rs
      rw [hctl] at hall
      cases hall
      have heq := (h 1 set hobj 1 ⟨0, 0⟩ 0 s').2 [0] hctl
      rw [hsemas] at heq
      revert heq
      decide

end OxideBSD.Sem
