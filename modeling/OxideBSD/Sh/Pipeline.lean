import Mathlib

/-!
# The descriptors of a pipeline

`run_multi` of `lib/libsh/src/exec.rs`: the shell makes a pipe between each two commands and forks
them, and each command moves its ends of the pipes to descriptors 0 and 1.  A pipe's ends are the
lowest free numbers, so they may be 0 and 1 themselves.

* `childSetup_wired`: what one command starts with, the shell having its descriptor 0 open.
* `childSetup_zero`: what the second one starts with if not: the read end is descriptor 0 itself,
  `dup2` of it to itself does nothing, and the command closes it.
* `runMulti_wired_iff`: so a pipeline is wired right exactly if descriptor 0 is open in the shell or
  there is no second command.
-/

set_option autoImplicit false

namespace OxideBSD.Sh

open Function List

/-- What a descriptor refers to: a file of the shell's own, or an end of the pipe after a command.
-/
inductive File (α : Type) where
  | own (f : α)
  | readEnd (k : ℕ)
  | writeEnd (k : ℕ)
  deriving DecidableEq

/-- The open descriptors of a process. -/
abbrev Fds (α : Type) := ℕ → Option (File α)

variable {α : Type} {limit n i left : ℕ}

/-- The lowest of the `limit` descriptors that is free. -/
def lowestFree (limit : ℕ) (t : Fds α) : Option ℕ := (range limit).find? fun fd ↦ (t fd).isNone

/-- `sys::pipe`, for the pipe after command `k`. -/
def pipe (limit : ℕ) (t : Fds α) (k : ℕ) : Option ((ℕ × ℕ) × Fds α) := do
  let r ← lowestFree limit t
  let t := update t r (some (.readEnd k))
  let w ← lowestFree limit t
  return ((r, w), update t w (some (.writeEnd k)))

/-- `sys::dup2`. -/
def dup2 (t : Fds α) (src dst : ℕ) : Fds α :=
  if src ≠ dst ∧ (t src).isSome then update t dst (t src) else t

/-- `sys::close`. -/
def close (t : Fds α) (fd : ℕ) : Fds α := update t fd none

/-- What a forked command does to the shell's descriptors before it runs. -/
def childSetup (t : Fds α) (prevRead : Option ℕ) (ends : Option (ℕ × ℕ)) : Fds α :=
  let t := match prevRead with
    | some pr => close (dup2 t pr 0) pr
    | none => t
  match ends with
  | some (r, w) =>
    let t := dup2 (close t r) w 1
    if w ≠ 1 then close t w else t
  | none => t

/-- The loop of `run_multi` with `left` commands to go, the next being number `i`: what each starts
with, and what the shell has in the end.  `none` is a `pipe` that fails. -/
def runLoop (limit : ℕ) : ℕ → ℕ → Fds α → Option ℕ → Option (List (Fds α) × Fds α)
  | 0, _, t, prevRead => some ([], prevRead.elim t (close t))
  | left + 1, i, t, prevRead => do
    let (ends, t) ← if left = 0 then some (none, t)
      else (pipe limit t i).map fun (ends, t) ↦ (some ends, t)
    let child := childSetup t prevRead ends
    let t := prevRead.elim t (close t)
    let t := ends.elim t fun (_, w) ↦ close t w
    let (started, t) ← runLoop limit left (i + 1) t (ends.map (·.1))
    return (child :: started, t)

/-- The descriptors of the shell before it runs a pipeline. -/
def ownFds (t : ℕ → Option α) : Fds α := fun fd ↦ (t fd).map .own

/-- `run_multi` with `n` commands. -/
def runMulti (limit n : ℕ) (t : ℕ → Option α) : Option (List (Fds α) × Fds α) :=
  runLoop limit n 0 (ownFds t) none

/-- What command `i` of `n` should start with. -/
def wired (t : ℕ → Option α) (n i : ℕ) : Fds α := fun fd ↦
  if fd = 0 ∧ 0 < i then some (.readEnd (i - 1))
  else if fd = 1 ∧ i + 1 < n then some (.writeEnd i)
  else ownFds t fd

/-- The shell before command `i`: it has its own descriptors, and the read end of the pipe before
the command as `prevRead`. -/
def Before (t : ℕ → Option α) : ℕ → Option ℕ → Fds α → Prop
  | i, none, s => i = 0 ∧ s = ownFds t
  | i, some pr, s => 0 < i ∧ ownFds t pr = none ∧ s = update (ownFds t) pr (some (.readEnd (i - 1)))

variable {t : ℕ → Option α} {s s' : Fds α} {prevRead : Option ℕ} {r w : ℕ}

theorem pipe_spec (h : pipe limit s i = some ((r, w), s')) : s r = none ∧ s w = none ∧ r ≠ w ∧
    s' = update (update s r (some (.readEnd i))) w (some (.writeEnd i)) := by
  simp only [pipe, Option.bind_eq_bind, Option.bind_eq_some_iff] at h
  obtain ⟨r, hr, w, hw, ⟨rfl, rfl⟩, rfl⟩ := h
  have hr := find?_some hr
  have hw := find?_some hw
  have hne : r ≠ w := by
    rintro rfl
    simp at hw
  rw [update_of_ne hne.symm] at hw
  exact ⟨by simpa using hr, by simpa using hw, hne, rfl⟩

/-- The last command gets the read end, and the shell keeps nothing. -/
theorem childSetup_last (hs : Before t i prevRead s) (h0 : (t 0).isSome) :
    childSetup s prevRead none = wired t (i + 1) i ∧ prevRead.elim s (close s) = ownFds t := by
  cases prevRead with
  | none =>
    obtain ⟨rfl, rfl⟩ := hs
    exact ⟨by funext fd; simp [childSetup, wired], rfl⟩
  | some pr =>
    obtain ⟨hi, hpr, rfl⟩ := hs
    have hpr0 : pr ≠ 0 := by rintro rfl; simp_all [ownFds]
    constructor
    · funext fd
      simp only [childSetup, dup2, close, wired]
      grind
    · simp [close, ← hpr]

/-- A command before the last gets both its ends, and the shell keeps the read end of its pipe. -/
theorem childSetup_wired (hs : Before t i prevRead s) (h0 : (t 0).isSome) (hn : i + 1 < n)
    (hp : pipe limit s i = some ((r, w), s')) :
    childSetup s' prevRead (some (r, w)) = wired t n i ∧
      Before t (i + 1) (some r) (close (prevRead.elim s' (close s')) w) := by
  obtain ⟨hr, hw, hrw, rfl⟩ := pipe_spec hp
  have hown : (ownFds t 0).isSome := by simpa [ownFds] using h0
  cases prevRead with
  | none =>
    obtain ⟨rfl, rfl⟩ := hs
    refine ⟨?_, by omega, hr, ?_⟩
    · funext fd
      simp only [childSetup, dup2, close, wired]
      grind
    · funext fd
      simp only [Option.elim, close]
      grind
  | some pr =>
    obtain ⟨hi, hpr, rfl⟩ := hs
    refine ⟨?_, by omega, by grind, ?_⟩
    · funext fd
      simp only [childSetup, dup2, close, wired, update_apply]
      grind
    · funext fd
      simp only [Option.elim, close]
      grind

/-- The commands that are left are wired, and the shell ends with its own descriptors. -/
theorem runLoop_wired (h0 : (t 0).isSome) {started : List (Fds α)} {final : Fds α}
    (hs : Before t i prevRead s)
    (h : runLoop limit (left + 1) i s prevRead = some (started, final)) :
    started = (range' i (left + 1)).map (wired t (i + left + 1)) ∧ final = ownFds t := by
  induction left generalizing i s prevRead started final with
  | zero =>
    obtain ⟨hchild, hshell⟩ := childSetup_last hs h0
    obtain ⟨rfl, rfl⟩ := h
    exact ⟨by simp [hchild], hshell⟩
  | succ left ih =>
    rw [runLoop, if_neg (by omega)] at h
    simp only [Option.bind_eq_bind, Option.bind_eq_some_iff, Option.map_eq_some_iff,
      Prod.exists] at h
    obtain ⟨_, _, ⟨r, w, s', hp, rfl, rfl⟩, rest, final', hrest, rfl, rfl⟩ := h
    obtain ⟨hchild, hs'⟩ := childSetup_wired (n := i + (left + 1) + 1) hs h0 (by omega) hp
    obtain ⟨rfl, hfinal⟩ := ih hs' hrest
    refine ⟨?_, hfinal⟩
    rw [range'_succ (n := left + 1), map_cons, hchild, show i + 1 + left = i + (left + 1) by omega]

theorem eq_zero_of_lowestFree (h0 : s 0 = none) (h : lowestFree limit s = some r) : r = 0 := by
  cases limit with
  | zero => cases h
  | succ k =>
    rw [lowestFree, range_succ_eq_map, find?_cons, h0] at h
    exact (Option.some.inj h).symm

/-- A command whose end of the pipe before it is descriptor 0 already starts without one. -/
theorem childSetup_zero (s : Fds α) (ends : Option (ℕ × ℕ)) : childSetup s (some 0) ends 0 = none := by
  cases ends with
  | none => simp [childSetup, close]
  | some e =>
    simp only [childSetup, dup2, close, update_apply]
    grind

/-- Every command is set up from some table, with the read end it is given. -/
theorem runLoop_head {started : List (Fds α)} {final : Fds α}
    (h : runLoop limit (left + 1) i s prevRead = some (started, final)) :
    ∃ s' ends rest, started = childSetup s' prevRead ends :: rest := by
  rw [runLoop] at h
  split_ifs at h
  · simp only [Option.bind_eq_bind, Option.bind_some, Option.bind_eq_some_iff, Prod.exists] at h
    obtain ⟨rest, _, -, rfl, rfl⟩ := h
    exact ⟨_, _, rest, rfl⟩
  · simp only [Option.bind_eq_bind, Option.bind_eq_some_iff, Option.map_eq_some_iff, Prod.exists] at h
    obtain ⟨_, _, -, rest, _, -, rfl, rfl⟩ := h
    exact ⟨_, _, rest, rfl⟩

/-- The second of several commands, when descriptor 0 is free in the shell. -/
theorem runMulti_second (h0 : t 0 = none) {started : List (Fds α)} {final : Fds α}
    (h : runMulti limit (left + 2) t = some (started, final)) :
    ∃ second, started[1]? = some second ∧ second 0 = none := by
  rw [runMulti, runLoop, if_neg (by omega)] at h
  simp only [Option.bind_eq_bind, Option.bind_eq_some_iff, Option.map_eq_some_iff,
    Prod.exists] at h
  obtain ⟨_, _, ⟨r, w, s', hp, rfl, rfl⟩, rest, final', hrest, rfl, rfl⟩ := h
  -- the first pipe's read end is the lowest free descriptor
  simp only [pipe, Option.bind_eq_bind, Option.bind_eq_some_iff] at hp
  obtain ⟨_, hr, _, -, ⟨rfl, rfl⟩, -⟩ := hp
  obtain rfl := eq_zero_of_lowestFree (by rw [ownFds, h0]; rfl) hr
  obtain ⟨s', ends, rest, rfl⟩ := runLoop_head hrest
  exact ⟨_, rfl, childSetup_zero s' ends⟩

/-- **Every command of a pipeline starts with the ends that are its own as 0 and 1 and all else as
the shell has it, and the shell keeps no end, if and only if descriptor 0 is open in the shell or
there is at most one command.** -/
theorem runMulti_wired_iff {started : List (Fds α)} {final : Fds α}
    (h : runMulti limit n t = some (started, final)) :
    (started = (range n).map (wired t n) ∧ final = ownFds t) ↔ (t 0).isSome ∨ n ≤ 1 := by
  have hs : Before t 0 none (ownFds t) := ⟨rfl, rfl⟩
  rcases n with _ | _ | left
  · cases h
    simp
  · cases h
    have hone : childSetup (ownFds t) none none = wired t 1 0 := by
      funext fd
      simp [childSetup, wired]
    simp [hone]
  · constructor
    · rintro ⟨rfl, -⟩
      by_contra hcond
      obtain ⟨second, hsecond, hzero⟩ := runMulti_second (by simp_all) h
      -- it should have the read end of the first pipe
      obtain rfl : wired t (left + 2) 1 = second := by simpa using hsecond
      simp [wired] at hzero
    · rintro (h0 | hle)
      · rw [range_eq_range']
        simpa using runLoop_wired h0 hs h
      · omega

/-- A shell that has just the descriptors from `first` to 2. -/
def opened (first : ℕ) : ℕ → Option ℕ := fun fd ↦ if first ≤ fd ∧ fd ≤ 2 then some fd else none

theorem runMulti_wired_three : ∃ p, runMulti 16 3 (opened 0) = some p ∧
    p.1 = (range 3).map (wired (opened 0) 3) ∧ p.2 = ownFds (opened 0) :=
  ⟨_, rfl, (runMulti_wired_iff (rfl : runMulti 16 3 (opened 0) = _)).2 (.inl rfl)⟩

/-- With 0 closed the read end is descriptor 0: the second command closes it after moving it. -/
theorem runMulti_not_wired : ∃ p, runMulti 16 2 (opened 1) = some p ∧
    p.1 ≠ (range 2).map (wired (opened 1) 2) :=
  ⟨_, rfl, fun h ↦ absurd (congrArg (fun l ↦ l[1]?.map (· 0)) h) (by decide)⟩

end OxideBSD.Sh
