import Mathlib

/-!
# The minutes cron runs jobs for

`Clock` of `lib/libcron/src/sched.rs`: cron wakes now and then, says what minute it is, and is told
which minutes to run jobs for.  A job with a `*` for its minute or hour is wild, any other is fixed.

* `advance_near`: what a call does whose minute is near the latest one fully run.
* `reports_near`: from call to call, then, the fixed jobs run for each minute once.
* `fixedMinutes_or_jumpsBack`: what any call does, and `exists_jumpsBack` what follows for any run.
-/

set_option autoImplicit false

namespace OxideBSD.Cron

open Function List

/-- `MAX_JUMP`, in minutes. -/
def maxJump : ℤ := 3 * 60

/-- `Due`: a minute to run jobs for, and which of them. -/
structure Due where
  minute : ℤ
  wild : Bool
  fixed : Bool
  deriving DecidableEq

/-- `Clock`. -/
structure Clock where
  /-- The latest minute every job has been run for. -/
  running : ℤ
  /-- The minute of the last call. -/
  last : ℤ

/-- `a - b` in `i64`.  It wraps around, cron being built with `--release`. -/
def subWrap (a b : ℤ) : ℤ := (a - b).bmod (2 ^ 64)

theorem subWrap_le {a b : ℤ} (h : b ≤ a) (hnear : a - b ≤ maxJump) :
    subWrap a b ≤ maxJump := by
  rw [subWrap, Int.bmod_def]
  split_ifs <;> omega

namespace Clock

/-- `Clock::new`. -/
def new (now : ℤ) : Clock := ⟨now, now⟩

/-- `Clock::advance`: the minutes to run jobs for, and the clock after the call. -/
def advance (c : Clock) (now : ℤ) : List Due × Clock :=
  if now = c.last then
    ([], c)
  else if now > c.running ∧ subWrap now c.running ≤ maxJump then
    ((Int.range (c.running + 1) now).map (fun minute ↦ ⟨minute, false, true⟩) ++
      [⟨now, true, true⟩], ⟨now, now⟩)
  else if now ≤ c.running ∧ subWrap c.running now ≤ maxJump then
    ([⟨now, true, false⟩], ⟨c.running, now⟩)
  else
    ([⟨now, true, true⟩], ⟨now, now⟩)

/-- What each of a run of calls returns. -/
def reports : Clock → List ℤ → List (List Due)
  | _, [] => []
  | c, now :: rest => (c.advance now).1 :: (c.advance now).2.reports rest

/-- The clock after a run of calls. -/
def after (c : Clock) (minutes : List ℤ) : Clock :=
  minutes.foldl (fun c now ↦ (c.advance now).2) c

/-- Each minute is within `maxJump` of the latest one fully run before it. -/
def Near : Clock → List ℤ → Prop
  | _, [] => True
  | c, now :: rest => |now - c.running| ≤ maxJump ∧ (c.advance now).2.Near rest

/-- Call `k` finds the clock more than `maxJump` behind the latest minute fully run. -/
def JumpsBack (c : Clock) (minutes : List ℤ) (k : ℕ) : Prop :=
  ∃ now, minutes[k]? = some now ∧ now + maxJump < (c.after (minutes.take k)).running

end Clock

/-- The minutes fixed jobs run for. -/
def fixedMinutes (due : List Due) : List ℤ := (due.filter (·.fixed)).map (·.minute)

/-- The minutes wild jobs run for. -/
def wildMinutes (due : List Due) : List ℤ := (due.filter (·.wild)).map (·.minute)

@[simp] theorem fixedMinutes_append (ds es : List Due) :
    fixedMinutes (ds ++ es) = fixedMinutes ds ++ fixedMinutes es := by
  simp [fixedMinutes]

@[simp] theorem wildMinutes_append (ds es : List Due) :
    wildMinutes (ds ++ es) = wildMinutes ds ++ wildMinutes es := by
  simp [wildMinutes]

@[simp] theorem fixedMinutes_catch_up (ms : List ℤ) :
    fixedMinutes (ms.map fun minute ↦ ⟨minute, false, true⟩) = ms := by
  simp [fixedMinutes, filter_map, comp_def]

@[simp] theorem wildMinutes_catch_up (ms : List ℤ) :
    wildMinutes (ms.map fun minute ↦ ⟨minute, false, true⟩) = [] := by
  simp [wildMinutes]

theorem range_append {a b d : ℤ} (hab : a ≤ b) (hbd : b ≤ d) :
    Int.range a b ++ Int.range b d = Int.range a d := by
  have hlen : (d - a).toNat = (b - a).toNat + (d - b).toNat := by omega
  rw [Int.range, Int.range, Int.range, hlen, range_add, map_append, map_map]
  congr 1
  apply map_congr_left
  simp only [comp_apply]
  omega

theorem range_succ {a b : ℤ} (hab : a ≤ b) : Int.range a b ++ [b] = Int.range a (b + 1) := by
  rw [← range_append hab (by omega : b ≤ b + 1)]
  simp [Int.range]

namespace Clock

variable {c : Clock} {now : ℤ} {minutes : List ℤ}

/-! ## Minutes near the latest one run -/

/-- A call near the latest minute run takes the clock to it, and runs the fixed jobs of the minutes
it is the first to reach. -/
theorem advance_near (hlast : c.last ≤ c.running) (hnear : |now - c.running| ≤ maxJump) :
    fixedMinutes (c.advance now).1 = Int.range (c.running + 1) (max c.running now + 1) ∧
    wildMinutes (c.advance now).1 = (if now = c.last then [] else [now]) ∧
    (c.advance now).2 = ⟨max c.running now, now⟩ := by
  have hnone : Int.range (c.running + 1) (c.running + 1) = [] := by simp [Int.range]
  have habs := abs_le.1 hnear
  rw [advance]
  by_cases heq : now = c.last
  · rw [if_pos heq, if_pos heq, heq, max_eq_left hlast, hnone]
    exact ⟨rfl, rfl, rfl⟩
  rw [if_neg heq, if_neg heq]
  by_cases hfwd : now > c.running
  · rw [if_pos ⟨hfwd, subWrap_le hfwd.le habs.2⟩, max_eq_right hfwd.le,
      ← range_succ (by omega)]
    rw [fixedMinutes_append, wildMinutes_append, fixedMinutes_catch_up, wildMinutes_catch_up]
    exact ⟨rfl, rfl, rfl⟩
  · have hback : now ≤ c.running := by omega
    rw [if_neg (fun h ↦ hfwd h.1), if_pos ⟨hback, subWrap_le hback (by omega)⟩,
      max_eq_left hback, hnone]
    exact ⟨rfl, rfl, rfl⟩

theorem le_foldl_max (a : ℤ) (ms : List ℤ) : a ≤ ms.foldl max a := by
  induction ms generalizing a with
  | nil => exact le_rfl
  | cons m ms ih => exact (le_max_left a m).trans (ih (max a m))

/-- **Fixed jobs run for consecutive minutes**, wild ones for each minute the clock moves to. -/
theorem reports_near (hlast : c.last ≤ c.running) (hnear : c.Near minutes) :
    fixedMinutes (c.reports minutes).flatten =
      Int.range (c.running + 1) (minutes.foldl max c.running + 1) ∧
    c.last :: wildMinutes (c.reports minutes).flatten = (c.last :: minutes).destutter (· ≠ ·) := by
  induction minutes generalizing c with
  | nil => simp [reports, fixedMinutes, wildMinutes, Int.range]
  | cons now rest ih =>
    obtain ⟨hfixed, hwild, hafter⟩ := advance_near hlast hnear.1
    have hrest := hnear.2
    rw [hafter] at hrest
    obtain ⟨ihfixed, ihwild⟩ := ih (le_max_right c.running now) hrest
    rw [reports, flatten_cons, fixedMinutes_append, wildMinutes_append, hafter, hfixed, hwild,
      ihfixed]
    constructor
    · have hfar := le_foldl_max (max c.running now) rest
      exact range_append (by omega) (Int.add_le_add_right hfar 1)
    · rw [destutter_cons'] at ihwild ⊢
      by_cases heq : now = c.last
      · rw [if_pos heq, nil_append, destutter'_cons_neg _ (by simp [heq]), ← heq, ihwild]
      · rw [if_neg heq, destutter'_cons_pos _ (Ne.symm heq), ← ihwild, singleton_append]

/-! ## Any minutes -/

/-- Any call runs each minute's fixed jobs once, of minutes up to the latest one run, which are all
new to it unless the clock jumped back. -/
theorem fixedMinutes_or_jumpsBack (c : Clock) (now : ℤ) :
    (fixedMinutes (c.advance now).1).Nodup ∧
    (∀ m ∈ fixedMinutes (c.advance now).1, m ≤ (c.advance now).2.running) ∧
    (now + maxJump < c.running ∨ c.running ≤ (c.advance now).2.running ∧
      ∀ m ∈ fixedMinutes (c.advance now).1, c.running < m) := by
  rw [advance]
  by_cases heq : now = c.last
  · simp [if_pos heq, fixedMinutes]
  rw [if_neg heq]
  by_cases hfwd : now > c.running ∧ subWrap now c.running ≤ maxJump
  · rw [if_pos hfwd]
    simp only [fixedMinutes_append, fixedMinutes_catch_up]
    have hrange : Int.range (c.running + 1) now ++ fixedMinutes [⟨now, true, true⟩] =
        Int.range (c.running + 1) (now + 1) := range_succ (by omega)
    rw [hrange]
    refine ⟨nodup_range.map fun a b h ↦ Int.ofNat_inj.1 (by simpa using h), ?_,
      Or.inr ⟨hfwd.1.le, ?_⟩⟩
    · intro m hm
      have := Int.mem_range_iff.1 hm
      omega
    · intro m hm
      have := Int.mem_range_iff.1 hm
      omega
  rw [if_neg hfwd]
  by_cases hback : now ≤ c.running ∧ subWrap c.running now ≤ maxJump
  · simp [if_pos hback, fixedMinutes]
  · rw [if_neg hback]
    refine ⟨by simp [fixedMinutes], by simp [fixedMinutes], ?_⟩
    by_cases hle : now ≤ c.running
    · refine Or.inl (not_le.1 fun hnear ↦ hback ⟨hle, subWrap_le hle ?_⟩)
      omega
    · refine Or.inr ⟨by simp; omega, ?_⟩
      simp [fixedMinutes]
      omega

theorem JumpsBack.cons {k : ℕ} (h : (c.advance now).2.JumpsBack minutes k) :
    c.JumpsBack (now :: minutes) (k + 1) := h

/-- A minute no later than the latest one run has its fixed jobs run after a jump back only. -/
theorem exists_jumpsBack_le {m : ℤ} {j : ℕ} {due : List Due} (hm : m ≤ c.running)
    (hj : (c.reports minutes)[j]? = some due) (hdue : m ∈ fixedMinutes due) :
    ∃ k ≤ j, c.JumpsBack minutes k := by
  induction minutes generalizing c j with
  | nil => simp [reports] at hj
  | cons now rest ih =>
    obtain ⟨_, _, hjump | ⟨hmono, hnew⟩⟩ := fixedMinutes_or_jumpsBack c now
    · exact ⟨0, Nat.zero_le j, now, rfl, hjump⟩
    · match j with
      | 0 =>
        cases hj
        exact absurd hm (not_le.2 (hnew m hdue))
      | j + 1 =>
        obtain ⟨k, hk, hback⟩ := ih (hm.trans hmono) hj
        exact ⟨k + 1, by omega, hback.cons⟩

/-- So a minute's fixed jobs run again after a jump back only. -/
theorem exists_jumpsBack {m : ℤ} {i j : ℕ} {due due' : List Due} (hij : i < j)
    (hi : (c.reports minutes)[i]? = some due) (hdue : m ∈ fixedMinutes due)
    (hj : (c.reports minutes)[j]? = some due') (hdue' : m ∈ fixedMinutes due') :
    ∃ k, i < k ∧ k ≤ j ∧ c.JumpsBack minutes k := by
  induction minutes generalizing c i j with
  | nil => simp [reports] at hi
  | cons now rest ih =>
    obtain ⟨j, rfl⟩ : ∃ j', j = j' + 1 := ⟨j - 1, by omega⟩
    match i with
    | 0 =>
      cases hi
      have hle := (fixedMinutes_or_jumpsBack c now).2.1 m hdue
      obtain ⟨k, hk, hback⟩ := exists_jumpsBack_le hle hj hdue'
      exact ⟨k + 1, by omega, by omega, hback.cons⟩
    | i + 1 =>
      obtain ⟨k, hik, hkj, hback⟩ := ih (by omega) hi hj
      exact ⟨k + 1, by omega, by omega, hback.cons⟩

theorem nodup_of_mem_reports {due : List Due} (h : due ∈ c.reports minutes) :
    (fixedMinutes due).Nodup := by
  induction minutes generalizing c with
  | nil => simp [reports] at h
  | cons now rest ih =>
    rcases mem_cons.1 h with rfl | h
    · exact (fixedMinutes_or_jumpsBack c now).1
    · exact ih h

/-- **The clock from its start on.**  While every minute is near the latest one fully run, fixed
jobs run for the minutes after the start up to the furthest one reached, in order, and wild ones for
each minute the clock moves to.  Whatever the minutes, a minute's fixed jobs run a second time only
after the clock was found more than `maxJump` behind the latest minute fully run. -/
theorem fixed_jobs_run_once (start : ℤ) (minutes : List ℤ) :
    ((new start).Near minutes →
      fixedMinutes ((new start).reports minutes).flatten =
        Int.range (start + 1) (minutes.foldl max start + 1) ∧
      start :: wildMinutes ((new start).reports minutes).flatten =
        (start :: minutes).destutter (· ≠ ·)) ∧
    (∀ due ∈ (new start).reports minutes, (fixedMinutes due).Nodup) ∧
    ∀ (m : ℤ) (i j : ℕ) (due due' : List Due), i < j →
      ((new start).reports minutes)[i]? = some due → m ∈ fixedMinutes due →
      ((new start).reports minutes)[j]? = some due' → m ∈ fixedMinutes due' →
      ∃ k, i < k ∧ k ≤ j ∧ (new start).JumpsBack minutes k := by
  refine ⟨reports_near le_rfl, fun due ↦ nodup_of_mem_reports, ?_⟩
  intro m i j due due' hij hi hdue hj hdue'
  exact exists_jumpsBack hij hi hdue hj hdue'

/-- A step back of one minute, then three minutes forward. -/
theorem fixed_jobs_run_once_after_step_back :
    fixedMinutes ((new 100).reports [101, 100, 103]).flatten = [101, 102, 103] :=
  ((fixed_jobs_run_once 100 [101, 100, 103]).1 ⟨by decide, by decide, by decide, trivial⟩).1

end Clock
end OxideBSD.Cron
