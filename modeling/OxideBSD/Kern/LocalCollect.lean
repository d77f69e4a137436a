import OxideBSD.Kern.LocalGc

/-!
# Rounds of the collector

A call of `gc` on its own, turn by turn: it marks, flushes, and releases what the messages held, and
the closes this causes are done before the next round.

* `Turn s s'` is what one turn does to the tables, and `Phase s` where the call is.
* `Phase.turn`: every turn leads on to the next phase and lowers `potential`, but for a flush that
  finds no right to release.
* `gc_iff`: **the collector does its work if and only if no sockets are `Stuck`**.
-/

set_option autoImplicit false

namespace OxideBSD.Local

open Function List Machine

/-! ## One turn -/

/-- What one turn of `gc` does. -/
inductive Turn (s s' : St) : Prop
  /-- The tables stay as they are. -/
  | stays (hst : s'.st = s.st) (hslots : s'.slots = s.slots) (hnext : s'.next = s.next)
      (hrefs : s'.refs = s.refs) (hleaving : s'.leaving = s.leaving)
      (hclosing : ∀ work ∈ s'.tasks, ∀ real, Work.forget real ∈ work → s.refs real = 0)
  /-- A description loses a reference, and has others. -/
  | drops (x : Nat) (hst : s'.st = s.st) (hslots : s'.slots = s.slots) (hnext : s'.next = s.next)
      (hmore : 1 < s.refs x) (hrefs : ∀ y, s'.refs y = if y = x then s.refs y - 1 else s.refs y)
      (hleaving : ∀ y, toReal s'.leaving y + (if y = x then 1 else 0) = toReal s.leaving y)
      (hclosing : ∀ work ∈ s'.tasks, ∀ real, Work.forget real ∈ work → s.refs real = 0)
  | closes (x : Nat) (h : Closes s s' x)
  | flushes (h : Flushes s s')

section Turns

variable {s s' : St} {X : Set Nat}

theorem Turn.consistent (h : Turn s s') (hs : Consistent s) : Consistent s' := by
  cases h with
  | stays hst hslots hnext hrefs hleaving hclosing =>
    exact hs.same hst hslots hnext hrefs hleaving hclosing
  | drops x hst hslots hnext hmore hrefs hleaving hclosing =>
    have hqueued : s'.queued = s.queued := by rw [St.queued, St.queued, hst, hnext]
    have hpos : ∀ y, 0 < s.refs y → 0 < s'.refs y := fun y hy ↦ by
      rw [hrefs]
      split_ifs with heq
      · subst heq
        omega
      · exact hy
    have hzero : ∀ y, s.refs y = 0 → s'.refs y = 0 := fun y hy ↦ by
      rw [hrefs, hy, ite_self]
    refine ⟨hst ▸ hnext ▸ hs.below, hst ▸ hnext ▸ hs.counts, fun y ↦ ?_, fun so hso ↦ ?_,
      fun l u hu c hc ↦ ?_, hst ▸ hs.once, fun work hw y hy ↦ hzero y (hclosing work hw y hy)⟩
    · have hsum := hs.refs y
      have hleaves := hleaving y
      rw [hrefs, hslots, hqueued]
      split_ifs at hleaves ⊢ <;> omega
    · rw [hst] at hso ⊢
      exact (hs.referred so hso).imp_left (hpos so)
    · rw [hst] at hu ⊢
      obtain ⟨v, hv, hnil, hrefsc⟩ := hs.conn l u hu c hc
      exact ⟨v, hv, hnil, hzero c hrefsc⟩
  | closes x h => exact h.consistent hs
  | flushes h => exact h.consistent hs

theorem Turn.spares (h : Turn s s') (hs : Consistent s) : Spares s s' := by
  cases h with
  | stays hst hslots hnext => exact .same hst hslots hnext
  | drops x hst hslots hnext => exact .same hst hslots hnext
  | closes x h => exact h.spares hs
  | flushes h => exact h.spares hs

theorem Stuck.same (hX : Stuck s X) (hst : s'.st = s.st) (hslots : s'.slots = s.slots)
    (hnext : s'.next = s.next) : Stuck s' X := by
  have hspares : Spares s' s := .same hst.symm hslots.symm hnext.symm
  exact hspares.of_stuck hX

theorem Turn.stuck (h : Turn s s') (hs : Consistent s) (hX : Stuck s X) : Stuck s' X := by
  cases h with
  | stays hst hslots hnext => exact hX.same hst hslots hnext
  | drops x hst hslots hnext => exact hX.same hst hslots hnext
  | closes x h => exact h.stuck hs hX
  | flushes h => exact h.stuck hs hX

end Turns

/-! ## Where the call is -/

/-- Work that comes up inside a round. -/
def Work.Inner : Work → Prop
  | .release _ | .forget _ | .collect => True
  | _ => False

/-- Where a call of `gc` is that nobody else's calls come between. -/
inductive Phase (s : St) : Prop
  | start (htasks : s.tasks = [[.collect]]) (hrunning : s.gcRunning = false)
  /-- What a flush has freed is being released, after which sockets are marked. -/
  | release (work : List Work) (htasks : s.tasks = [work ++ [.mark]])
      (hinner : ∀ w ∈ work, w.Inner) (hrunning : s.gcRunning = true)
  | flush (htasks : s.tasks = [[.flush (s.st.garbage s.next s.refs)]])
      (hgarbage : s.st.garbage s.next s.refs ≠ []) (hrunning : s.gcRunning = true)
  | done (htasks : s.tasks = [[]])

/-- The thread goes on. -/
def goOn : Event := .work 0 (.ok 0) 0

/-- What an item of work may still cost. -/
def Work.weight : Work → Nat
  | .release _ => 5
  | .collect => 3
  | .mark => 2
  | _ => 1

/-- A bound for the turns ahead. -/
def St.potential (s : St) : Nat :=
  10 * s.queued.length + (s.tasks.map fun work ↦ (work.map Work.weight).sum).sum

section Phases

variable {s s' : St} {w : Work} {rest : List Work} {real n : Nat} {r : Right}

theorem step_goOn (h : s.tasks = [w :: rest]) :
    s.step goOn = (s.doWork w (.ok 0) 0).map fun r ↦ { r.1 with tasks := [r.2 ++ rest] } := by
  rw [goOn, St.step, h]
  rfl

theorem potential_of_tasks {work : List Work} (h : s.tasks = [work]) :
    s.potential = 10 * s.queued.length + (work.map Work.weight).sum := by
  simp [St.potential, h]

/-- What a turn of `gc` comes to: a phase with less ahead, or a flush of sockets that are stuck. -/
structure Advances (s s' : St) : Prop where
  turn : Turn s s'
  phase : Phase s'
  lower : s'.potential < s.potential ∨ ∃ X, Stuck s X
  /-- When it returns, all that is in flight can be reached. -/
  returned : s'.tasks = [[]] →
    ∀ so, (s'.st.socks so).isSome → 0 < s'.st.inflight so → s'.Reached so

theorem advance_start (htasks : s.tasks = [[.collect]]) (hrunning : s.gcRunning = false) :
    ∃ s', s.step goOn = some s' ∧ Advances s s' := by
  have hstep : s.step goOn = some { s with gcRunning := true, tasks := [[.mark]] } := by
    rw [step_goOn htasks, St.doWork]
    simp [hrunning]
  refine ⟨_, hstep, .stays rfl rfl rfl rfl ?_ ?_, .release [] rfl (by simp) rfl, .inl ?_, by simp⟩
  · rw [leaving_of_tasks htasks]
    rfl
  · simp
  · rw [potential_of_tasks htasks, potential_of_tasks rfl]
    exact Nat.add_lt_add_left (by decide) _

/-- The other items of the round are still to do. -/
theorem closing_of_rest (hs : Consistent s) (htasks : s.tasks = [w :: rest])
    (h : Work.forget real ∈ rest) : s.refs real = 0 :=
  hs.closing (w :: rest) (by rw [htasks]; exact mem_singleton_self _) real
    (mem_cons_of_mem w h)

theorem advance_collect (hs : Consistent s) (htasks : s.tasks = [.collect :: rest ++ [.mark]])
    (hinner : ∀ w ∈ rest, w.Inner) (hrunning : s.gcRunning = true) :
    ∃ s', s.step goOn = some s' ∧ Advances s s' := by
  have hstep : s.step goOn = some { s with tasks := [rest ++ [.mark]] } := by
    rw [step_goOn htasks, St.doWork]
    simp [hrunning]
  refine ⟨_, hstep, .stays rfl rfl rfl rfl ?_ ?_, .release rest rfl hinner hrunning, .inl ?_, ?_⟩
  · rw [leaving_of_tasks htasks, leaving_of_tasks rfl]
    rfl
  · rintro work hwork real hreal
    rw [mem_singleton.1 hwork] at hreal
    exact closing_of_rest hs htasks hreal
  · rw [potential_of_tasks htasks]
    exact Nat.add_lt_add_left (by simp [Work.weight]) _
  · simp

theorem advance_forget (hs : Consistent s) (htasks : s.tasks = [.forget real :: rest ++ [.mark]])
    (hinner : ∀ w ∈ rest, w.Inner) (hrunning : s.gcRunning = true) :
    ∃ s', s.step goOn = some s' ∧ Advances s s' := by
  have hstep : s.step goOn = some { s with
      descriptions := update s.descriptions real none
      tasks := [rest ++ [.mark]] } := by
    rw [step_goOn htasks]
    rfl
  have hzero : s.refs real = 0 :=
    hs.closing _ (by rw [htasks]; exact mem_singleton_self _) real mem_cons_self
  refine ⟨_, hstep, .stays rfl rfl rfl ?_ ?_ ?_, .release rest rfl hinner hrunning, .inl ?_, ?_⟩
  · funext y
    by_cases hy : y = real
    · subst hy
      rw [hzero]
      simp [St.refs]
    · simp [St.refs, hy]
  · rw [leaving_of_tasks htasks, leaving_of_tasks rfl]
    rfl
  · rintro work hwork y hy
    rw [mem_singleton.1 hwork] at hy
    exact closing_of_rest hs htasks hy
  · rw [potential_of_tasks htasks]
    exact Nat.add_lt_add_left (by simp [Work.weight]) _
  · simp

theorem weight_releases (rights : List Right) :
    ((rights.map Work.release).map Work.weight).sum = 5 * rights.length := by
  rw [map_map, sum_eq_card_nsmul _ 5, length_map]
  · exact Nat.mul_comm _ _
  · simp [Work.weight]

/-- What a close leaves to do. -/
def closeWork (rights : List Right) (collect : Bool) (real : Nat) : List Work :=
  rights.map Work.release ++ (if collect then [Work.collect] else []) ++ [.forget real]

theorem weight_closeWork (rights : List Right) (collect : Bool) (real : Nat) :
    ((closeWork rights collect real).map Work.weight).sum ≤ 5 * rights.length + 4 := by
  rw [closeWork, map_append, map_append, sum_append, sum_append,
    weight_releases]
  cases collect <;> simp [Work.weight]

theorem rightsOf_closeWork (rights : List Right) (collect : Bool) (real : Nat) :
    rightsOf (closeWork rights collect real) = rights := by
  rw [closeWork, append_assoc, rightsOf_append, rightsOf_release]
  cases collect <;> exact append_nil rights

theorem inner_closeWork {rights : List Right} {collect : Bool}
    (h : w ∈ closeWork rights collect real) : w.Inner ∧ ∀ y, w = .forget y → y = real := by
  simp only [closeWork, mem_append, mem_map, mem_singleton] at h
  rcases h with (⟨r, -, rfl⟩ | h) | rfl
  · exact ⟨trivial, nofun⟩
  · cases collect with
    | false => cases h
    | true =>
      rw [if_pos rfl, mem_singleton] at h
      subst h
      exact ⟨trivial, nofun⟩
  · exact ⟨trivial, fun y hy ↦ (Work.forget.inj hy).symm⟩

theorem dropRef_last (hn : s.descriptions real = some n) (hlast : n - 1 = 0) :
    s.dropRef real = ({ s with
      descriptions := update s.descriptions real (some 0)
      st := (s.st.detach real).1 },
      closeWork (s.st.detach real).2.1 (s.st.detach real).2.2 real) := by
  rw [St.dropRef]
  simp only [hn]
  rw [hlast]
  rfl

theorem refs_update {descriptions : Nat → Option Nat} {k y : Nat}
    (h : s'.descriptions = update descriptions real (some k)) :
    s'.refs y = if y = real then k else (descriptions y).getD 0 := by
  rw [St.refs, h]
  split_ifs with hy
  · rw [hy, update_self]
    rfl
  · rw [update_of_ne hy]

/-- The last reference is released. -/
theorem advance_last (hs : Consistent s) (htasks : s.tasks = [.release r :: rest ++ [.mark]])
    (hinner : ∀ w ∈ rest, w.Inner) (hrunning : s.gcRunning = true)
    (hn : s.descriptions r.real = some n) (hlast : n - 1 = 0) :
    ∃ s', s.step goOn = some s' ∧ Advances s s' := by
  have hleaving : s.leaving = r :: rightsOf (rest ++ [.mark]) := leaving_of_tasks htasks
  have hpos : 0 < toReal s.leaving r.real := by
    rw [hleaving]
    exact toReal_pos mem_cons_self
  have hrefs : s.refs r.real = n := by rw [St.refs, hn]; rfl
  have hsum := hs.refs r.real
  have hreleases := releases_detach hs.below r.real
  generalize hwork : closeWork (s.st.detach r.real).2.1 (s.st.detach r.real).2.2 r.real = new
  have hnew : rightsOf new = (s.st.detach r.real).2.1 := by rw [← hwork, rightsOf_closeWork]
  have hinner' : ∀ w ∈ new, w.Inner ∧ ∀ y, w = .forget y → y = r.real := fun w hw ↦
    inner_closeWork (hwork ▸ hw)
  have hstep : s.step goOn = some { s with
      descriptions := update s.descriptions r.real (some 0)
      st := (s.st.detach r.real).1
      released := s.released ++ [r]
      tasks := [(new ++ rest) ++ [.mark]] } := by
    rw [step_goOn htasks, St.doWork, dropRef_last hn hlast, hwork, append_assoc]
    rfl
  refine ⟨_, hstep, .closes r.real ⟨by omega, hpos, rfl, rfl, rfl, fun y ↦ ?_, fun y ↦ ?_, ?_⟩,
    .release (new ++ rest) rfl (fun w hw ↦ ?_) hrunning, .inl ?_, ?_⟩
  · exact refs_update rfl
  · rw [leaving_of_tasks rfl, hleaving, append_assoc, rightsOf_append, hnew, toReal_append]
    have hcons : toReal (r :: rightsOf (rest ++ [.mark])) y
        = toReal (rightsOf (rest ++ [.mark])) y + if y = r.real then 1 else 0 := by
      simp [toReal, countP_cons, eq_comm]
    omega
  · rintro work hw y hy
    rw [mem_singleton.1 hw, append_assoc] at hy
    rcases mem_append.1 hy with hy | hy
    · exact .inl ((hinner' _ hy).2 y rfl)
    · exact .inr (closing_of_rest hs htasks hy)
  · rcases mem_append.1 hw with hw | hw
    · exact (hinner' w hw).1
    · exact hinner w hw
  · have hweight := weight_closeWork (s.st.detach r.real).2.1 (s.st.detach r.real).2.2 r.real
    have hlength := hreleases.length_eq
    rw [hwork] at hweight
    rw [potential_of_tasks htasks, potential_of_tasks rfl]
    simp only [St.queued, map_cons, sum_cons, map_append,
      sum_append, Work.weight] at hlength ⊢
    omega
  · simp

/-- A reference is released that is not the last one. -/
theorem advance_more (hs : Consistent s) (htasks : s.tasks = [.release r :: rest ++ [.mark]])
    (hinner : ∀ w ∈ rest, w.Inner) (hrunning : s.gcRunning = true)
    (hn : s.descriptions r.real = some n) (hmore : n - 1 ≠ 0) :
    ∃ s', s.step goOn = some s' ∧ Advances s s' := by
  have hleaving : s.leaving = r :: rightsOf (rest ++ [.mark]) := leaving_of_tasks htasks
  have hrefs : s.refs r.real = n := by rw [St.refs, hn]; rfl
  have hstep : s.step goOn = some { s with
      descriptions := update s.descriptions r.real (some (n - 1))
      released := s.released ++ [r]
      tasks := [rest ++ [.mark]] } := by
    rw [step_goOn htasks, St.doWork, dropRef_of_left hn hmore]
    rfl
  refine ⟨_, hstep, .drops r.real rfl rfl rfl (by omega) (fun y ↦ ?_) (fun y ↦ ?_) ?_,
    .release rest rfl hinner hrunning, .inl ?_, ?_⟩
  · rw [refs_update rfl]
    split_ifs with hy
    · rw [hy, hrefs]
    · rfl
  · rw [leaving_of_tasks rfl, hleaving]
    simp [toReal, countP_cons, eq_comm]
  · rintro work hw y hy
    rw [mem_singleton.1 hw] at hy
    exact closing_of_rest hs htasks hy
  · rw [potential_of_tasks htasks]
    exact Nat.add_lt_add_left (by simp [Work.weight]) _
  · simp

theorem advance_release (hs : Consistent s) (htasks : s.tasks = [.release r :: rest ++ [.mark]])
    (hinner : ∀ w ∈ rest, w.Inner) (hrunning : s.gcRunning = true) :
    ∃ s', s.step goOn = some s' ∧ Advances s s' := by
  have hpos : 0 < toReal s.leaving r.real := by
    rw [leaving_of_tasks htasks]
    exact toReal_pos mem_cons_self
  have hsum := hs.refs r.real
  cases hn : s.descriptions r.real with
  | none =>
    rw [St.refs, hn, Option.getD_none] at hsum
    omega
  | some n =>
    by_cases hlast : n - 1 = 0
    · exact advance_last hs htasks hinner hrunning hn hlast
    · exact advance_more hs htasks hinner hrunning hn hlast

theorem advance_mark (hs : Consistent s) (htasks : s.tasks = [[.mark]])
    (hrunning : s.gcRunning = true) : ∃ s', s.step goOn = some s' ∧ Advances s s' := by
  have hquiet : s.leaving = [] := leaving_of_tasks htasks
  have hreturns : (s.st.inflightTotal = 0 ∨ s.st.garbage s.next s.refs = []) →
      Advances s { s with gcRunning := false, tasks := [[]] } := by
    intro hnone
    refine ⟨.stays rfl rfl rfl rfl ?_ ?_, .done rfl, .inl ?_, fun _ so hso hinflight ↦ ?_⟩
    · rw [hquiet]
      rfl
    · simp
    · rw [potential_of_tasks htasks, potential_of_tasks rfl]
      exact Nat.add_lt_add_left (by decide) _
    · by_contra hnot
      rcases hnone with htotal | hgarbage
      · have hzero := hs.counts.total
        rw [htotal, eq_comm, Multiset.coe_card, length_eq_zero_iff] at hzero
        have hreal := hs.counts.real so
        rw [hzero] at hreal
        exact hinflight.ne' hreal
      · have hmem := (mem_garbage_iff hs hquiet).2 ⟨hso, hinflight, hnot⟩
        rw [hgarbage] at hmem
        cases hmem
  rw [step_goOn htasks, St.doWork]
  split_ifs with htotal hgarbage
  · exact ⟨_, rfl, hreturns (.inl htotal)⟩
  · exact ⟨_, rfl, hreturns (.inr hgarbage)⟩
  · refine ⟨_, rfl, .stays rfl rfl rfl rfl ?_ ?_, .flush rfl hgarbage hrunning, .inl ?_, ?_⟩
    · rw [hquiet]
      rfl
    · simp
    · rw [potential_of_tasks htasks]
      exact Nat.add_lt_add_left (by simp [Work.weight]) _
    · simp

theorem advance_flush (hs : Consistent s)
    (htasks : s.tasks = [[.flush (s.st.garbage s.next s.refs)]])
    (hne : s.st.garbage s.next s.refs ≠ [])
    (hrunning : s.gcRunning = true) : ∃ s', s.step goOn = some s' ∧ Advances s s' := by
  have hquiet : s.leaving = [] := leaving_of_tasks htasks
  have hreleases := releases_flushAll hs.below (s.st.garbage s.next s.refs)
  generalize hfreed : (s.st.flushAll (s.st.garbage s.next s.refs)).2 = freed at hreleases
  have hstep : s.step goOn = some { s with
      st := (s.st.flushAll (s.st.garbage s.next s.refs)).1
      tasks := [freed.map Work.release ++ [.mark]] } := by
    rw [step_goOn htasks, St.doWork, ← hfreed]
    simp
  refine ⟨_, hstep, .flushes ⟨hquiet, rfl, rfl, rfl, rfl, ?_, ?_⟩,
    .release (freed.map Work.release) rfl (fun w hw ↦ ?_) hrunning, ?_, ?_⟩
  · rw [leaving_of_tasks rfl, rightsOf_append, rightsOf_release, hfreed]
    exact append_nil freed
  · simp
  · obtain ⟨r, -, rfl⟩ := mem_map.1 hw
    trivial
  · by_cases hnil : freed = []
    · exact .inr ⟨_, stuck_of_flushAll_eq_nil hs hquiet hne (hfreed.trans hnil)⟩
    · have hlength := hreleases.length_eq
      have hpos := length_pos_iff.2 hnil
      rw [hfreed] at hlength
      rw [potential_of_tasks htasks, potential_of_tasks rfl, map_append, sum_append,
        weight_releases]
      simp only [St.queued, map_cons, sum_cons,
        Work.weight] at hlength ⊢
      omega
  · simp

/-- **One turn** of a call that has not returned. -/
theorem Phase.turn (hphase : Phase s) (hs : Consistent s) (hbusy : s.tasks ≠ [[]]) :
    ∃ s', s.step goOn = some s' ∧ Advances s s' := by
  cases hphase with
  | start htasks hrunning => exact advance_start htasks hrunning
  | release work htasks hinner hrunning =>
    cases work with
    | nil => exact advance_mark hs htasks hrunning
    | cons w rest =>
      have hrest : ∀ w ∈ rest, w.Inner := fun w hw ↦ hinner w (mem_cons_of_mem _ hw)
      cases w with
      | release r => exact advance_release hs htasks hrest hrunning
      | forget real => exact advance_forget hs htasks hrest hrunning
      | collect => exact advance_collect hs htasks hrest hrunning
      | _ => exact absurd (hinner _ mem_cons_self) id
  | flush htasks hgarbage hrunning => exact advance_flush hs htasks hgarbage hrunning
  | done htasks => exact absurd htasks hbusy

end Phases

/-! ## Whole calls -/

/-- A call of `gc` returns: on its own it leads from `s` to `s'`. -/
def St.Gc (s s' : St) : Prop :=
  ∃ k, Machine.run St.step (s.begin [.collect]) (List.replicate k goOn) = some s' ∧
    s'.tasks = [[]]

/-- What is expected of `gc`: messages are discarded only in queues that cannot be reached, and all
that is in flight afterwards can be. -/
structure Collected (s s' : St) : Prop where
  spared : ∀ so, s.Reached so → (s'.st.socks so).map Unp.queue = (s.st.socks so).map Unp.queue
  reached : ∀ so, (s'.st.socks so).isSome → 0 < s'.st.inflight so → s'.Reached so

section Calls

variable {s s' : St} {X : Set Nat}

/-- With nothing stuck, the call returns. -/
theorem Phase.returns (hphase : Phase s) (hs : Consistent s) (hbusy : s.tasks ≠ [[]])
    (hfree : ∀ X, ¬ Stuck s X) : ∃ k s', Machine.run St.step s (List.replicate k goOn) = some s' ∧
      s'.tasks = [[]] ∧ Spares s s' ∧
      ∀ so, (s'.st.socks so).isSome → 0 < s'.st.inflight so → s'.Reached so := by
  -- on the potential, which every turn lowers
  induction hp : s.potential using Nat.strong_induction_on generalizing s with
  | _ p ih =>
    obtain ⟨t, hstep, hadvances⟩ := hphase.turn hs hbusy
    have hspares := hadvances.turn.spares hs
    have hlower := hadvances.lower.resolve_right fun ⟨X, hX⟩ ↦ hfree X hX
    by_cases hdone : t.tasks = [[]]
    · refine ⟨1, t, ?_, hdone, hspares, hadvances.returned hdone⟩
      exact run_cons.2 ⟨t, hstep, rfl⟩
    · obtain ⟨k, s', hrun, htasks, hspares', hreached⟩ := ih t.potential (hp ▸ hlower)
        hadvances.phase (hadvances.turn.consistent hs) hdone
        (fun X hX ↦ hfree X (hspares.of_stuck hX)) rfl
      refine ⟨k + 1, s', ?_, htasks, hspares.trans hspares', hreached⟩
      exact run_cons.2 ⟨t, hstep, hrun⟩

/-- With sockets stuck, it does not. -/
theorem Phase.not_returns (hphase : Phase s) (hs : Consistent s) (hbusy : s.tasks ≠ [[]])
    (hX : Stuck s X) {k : Nat} (hrun : Machine.run St.step s (List.replicate k goOn) = some s') :
    s'.tasks ≠ [[]] := by
  induction k generalizing s with
  | zero =>
    cases hrun
    exact hbusy
  | succ k ih =>
    obtain ⟨t, hstep, hadvances⟩ := hphase.turn hs hbusy
    obtain ⟨t', hstep', hrun⟩ := run_cons.1 hrun
    rw [hstep] at hstep'
    cases hstep'
    have hconsistent := hadvances.turn.consistent hs
    have hstuck := hadvances.turn.stuck hs hX
    refine ih hadvances.phase hconsistent (fun hdone ↦ ?_) hstuck hrun
    -- what is stuck is in flight and not reached
    obtain ⟨y, hy⟩ := hstuck.nonempty
    obtain ⟨-, -, -, -, c, -, v, hv, hmem⟩ := hstuck.held y hy
    have hinflight : 0 < t.st.inflight y := by
      rw [inflight_eq hconsistent]
      exact hconsistent.held_pos hv hmem
    exact hstuck.unreached y hy (hadvances.returned hdone y (hstuck.isSome y hy) hinflight)

/-- **The collector** returns, having discarded only messages in queues that cannot be reached, and
leaves nothing in flight that cannot be, if and only if no sockets are stuck. -/
theorem gc_iff (hs : Consistent s) (htasks : s.tasks = []) (hrunning : s.gcRunning = false) :
    (∃ s', s.Gc s' ∧ Collected s s') ↔ ¬ ∃ X, Stuck s X := by
  have hbegin : (s.begin [.collect]).tasks = [[.collect]] := by rw [St.begin, htasks]; rfl
  have hconsistent : Consistent (s.begin [.collect]) := by
    refine hs.same rfl rfl rfl rfl ?_ ?_
    · rw [leaving_of_tasks hbegin, St.leaving, htasks]
      rfl
    · simp [hbegin]
  have hphase : Phase (s.begin [.collect]) := .start hbegin hrunning
  have hbusy : (s.begin [.collect]).tasks ≠ [[]] := by simp [hbegin]
  constructor
  · rintro ⟨s', ⟨k, hrun, hdone⟩, -⟩ ⟨X, hX⟩
    exact hphase.not_returns hconsistent hbusy (hX.same rfl rfl rfl) hrun hdone
  · intro hfree
    obtain ⟨k, s', hrun, hdone, hspares, hreached⟩ := hphase.returns hconsistent hbusy
      fun X hX ↦ hfree ⟨X, hX.same rfl rfl rfl⟩
    refine ⟨s', ⟨k, hrun, hdone⟩, fun so hso ↦ ?_, hreached⟩
    have hstays := congrArg (Option.map Prod.fst) (hspares.stays so hso)
    rwa [Option.map_map, Option.map_map] at hstays

end Calls

/-! ## A cycle that is collected -/

/-- A message that carries the socket `so` as the right number `token`. -/
def carries (so token : Nat) : Msg :=
  ⟨[104], 0, none, ⟨1, 0, 0, 0, 0, 1, []⟩, some ⟨[⟨so, token⟩], false, none⟩⟩

/-- Two sockets without descriptors, each in the queue of the other one. -/
def crossed : St where
  st := {
    socks := fun so ↦ [{ Unp.new .stream with queue := [carries 1 0], queued := 1 },
      { Unp.new .stream with queue := [carries 0 1], queued := 1 }][so]?
    abstractNames := fun _ ↦ none
    nodes := fun _ ↦ none
    nextAutobind := 0
    inflight := fun so ↦ if so < 2 then 1 else 0
    inflightByUid := fun uid ↦ if uid = 0 then 2 else 0
    inflightTotal := 2 }
  descriptions := fun so ↦ if so < 2 then some 1 else none
  slots := fun _ ↦ 0
  next := 2
  gcRunning := false
  tasks := []
  taken := [⟨1, 0⟩, ⟨0, 1⟩]
  installed := []
  released := []
  bound := []

theorem crossed_pending {so : Nat} {u : Unp} (h : crossed.st.socks so = some u) :
    so < 2 ∧ u.pending = [] := by
  match so with
  | 0 => cases h; exact ⟨by decide, rfl⟩
  | 1 => cases h; exact ⟨by decide, rfl⟩

theorem crossed_consistent : Consistent crossed := by
  have hflying : crossed.st.flying crossed.next = [(0, ⟨1, 0⟩), (0, ⟨0, 1⟩)] := rfl
  refine ⟨fun so hso ↦ ?_, ⟨fun r ↦ ?_, fun uid ↦ ?_, rfl⟩, fun real ↦ ?_, fun so hso ↦ .inl ?_,
    fun l u hu c hc ↦ ?_, fun l u l' u' c hu hu' hc hc' ↦ ?_, nofun⟩
  · obtain ⟨u, hu⟩ := Option.isSome_iff_exists.1 hso
    exact (crossed_pending hu).1
  · rw [hflying]
    match r with
    | 0 => rfl
    | 1 => rfl
    | _ + 2 => rfl
  · rw [hflying]
    by_cases huid : uid = 0
    · subst huid
      rfl
    · have hne : ¬ 0 = uid := fun h ↦ huid h.symm
      simp [crossed, huid, hne]
  · match real with
    | 0 => rfl
    | 1 => rfl
    | _ + 2 => rfl
  · obtain ⟨u, hu⟩ := Option.isSome_iff_exists.1 hso
    have hlt := (crossed_pending hu).1
    obtain rfl | rfl : so = 0 ∨ so = 1 := by omega
    · decide
    · decide
  · rw [(crossed_pending hu).2] at hc
    cases hc
  · rw [(crossed_pending hu).2] at hc
    cases hc

/-- The two sockets are collected. -/
theorem gc_iff_crossed : ∃ s', crossed.Gc s' ∧ Collected crossed s' := by
  refine (gc_iff crossed_consistent rfl rfl).2 ?_
  rintro ⟨X, hX⟩
  obtain ⟨x, hx⟩ := hX.nonempty
  obtain ⟨l, -, u, hu, c, hc, -⟩ := hX.held x hx
  rw [(crossed_pending hu).2] at hc
  cases hc

/-! ## A listener sent over its own connection -/

/-- The thread `i` is in a round of `gc` that changes nothing. -/
structure Idle (s : St) (i : Nat) : Prop where
  tasks : s.tasks[i]? = some [.mark] ∨ s.tasks[i]? = some [.flush (s.st.garbage s.next s.refs)]
  total : s.st.inflightTotal ≠ 0
  garbage : s.st.garbage s.next s.refs ≠ []
  empty : ∀ so ∈ s.st.garbage s.next s.refs, ∃ u, s.st.socks so = some u ∧ u.queue = [] ∧
    u.queued = 0

section Forever

variable {s : St} {i : Nat}

theorem flushAll_of_empty {st : State} {garbage : List Nat}
    (h : ∀ so ∈ garbage, ∃ u, st.socks so = some u ∧ u.queue = [] ∧ u.queued = 0) :
    st.flushAll garbage = (st, []) := by
  induction garbage with
  | nil => rfl
  | cons so garbage ih =>
    obtain ⟨u, hu, hqueue, hqueued⟩ := h so mem_cons_self
    have hflush : st.flush so = (st, []) := by
      have hset : st.set so { u with queue := [], queued := 0 } = st := by
        rw [← hqueue, ← hqueued, State.set, ← hu, update_eq_self]
      rw [State.flush]
      simp only [hu]
      rw [hset, hqueue]
      rfl
    rw [State.flushAll, hflush]
    rw [ih fun so' hso' ↦ h so' (mem_cons_of_mem so hso')]
    rfl

theorem Idle.step (h : Idle s i) : ∃ s', s.step (.work i (.ok 0) 0) = some s' ∧ Idle s' i := by
  have hlt : ∀ {work}, s.tasks[i]? = some work → i < s.tasks.length := fun hi ↦
    (List.getElem?_eq_some_iff.1 hi).1
  rcases h.tasks with hi | hi
  · refine ⟨{ s with tasks := s.tasks.set i [.flush (s.st.garbage s.next s.refs)] }, ?_,
      .inr ?_, h.total, h.garbage, h.empty⟩
    · rw [St.step, hi]
      simp [St.doWork, h.total, h.garbage]
    · exact getElem?_set_self (hlt hi)
  · refine ⟨{ s with tasks := s.tasks.set i [.mark] }, ?_, .inl ?_, h.total, h.garbage, h.empty⟩
    · rw [St.step, hi]
      simp [St.doWork, flushAll_of_empty h.empty]
    · exact getElem?_set_self (hlt hi)

/-- Round after round, the call does not return. -/
theorem Idle.forever (h : Idle s i) (k : Nat) :
    ∃ s', Machine.run St.step s (List.replicate k (.work i (.ok 0) 0)) = some s' ∧
      s'.tasks[i]? ≠ some [] := by
  induction k generalizing s with
  | zero =>
    refine ⟨s, rfl, fun hi ↦ ?_⟩
    rcases h.tasks with hi' | hi' <;> simp [hi'] at hi
  | succ k ih =>
    obtain ⟨t, hstep, hidle⟩ := h.step
    obtain ⟨s', hrun, hbusy⟩ := ih hidle
    exact ⟨s', run_cons.2 ⟨t, hstep, hrun⟩, hbusy⟩

end Forever

/-- The control data `SCM_RIGHTS` with the descriptor 7. -/
def passSeven : List UInt8 := [20, 0, 0, 0, 0, 0, 0, 0, 1, 0, 0, 0, 1, 0, 0, 0, 7, 0, 0, 0]

/-- A client connects to a listener and sends it the listener, which has not accepted the connection;
then the listener's descriptor is closed, and `gc` is called. -/
def sendListener : List Event :=
  let me : Cred := ⟨1, 0, 0, 0, 0, 1, [0]⟩
  [.socket .stream, .work 0 (.ok 0) 0, .bind 0 [1, 0, 0, 97], .work 1 (.ok 0) 0, .listen 0 5 me,
    .socket .stream, .work 2 (.ok 0) 0, .connect 1 [1, 0, 0, 97] (.ok 0) me, .work 3 (.ok 0) 0,
    .send 1 [104] none (.ok 0) passSeven (fun fd ↦ if fd = 7 then some 0 else none) me 64,
    .work 4 (.ok 0) 64, .close 0, .work 5 (.ok 0) 0]

/-- **A listener in the queue of its own connection** keeps the collector busy forever. -/
theorem sendListener_not_returns : ∃ s, Machine.run St.step .init sendListener = some s ∧
    ∀ k, ∃ s', Machine.run St.step s (List.replicate k (.work 5 (.ok 0) 0)) = some s' ∧
      s'.tasks[5]? ≠ some [] := by
  refine exists_run_of (fun s ↦ s.tasks[5]? = some [.mark] ∧ s.st.inflightTotal ≠ 0 ∧
    s.st.garbage s.next s.refs = [0] ∧
    (s.st.socks 0).map (fun u ↦ (u.queue, u.queued)) = some ([], 0)) (by decide +kernel)
    fun s _ ⟨htasks, htotal, hgarbage, hempty⟩ ↦ ?_
  refine fun k ↦ Idle.forever ⟨.inl htasks, htotal, ?_, fun so hso ↦ ?_⟩ k
  · rw [hgarbage]
    exact cons_ne_nil 0 []
  · rw [hgarbage, mem_singleton] at hso
    obtain ⟨u, hu, hcontent⟩ := Option.map_eq_some_iff.1 hempty
    exact ⟨u, hso ▸ hu, congrArg Prod.fst hcontent, congrArg Prod.snd hcontent⟩

end OxideBSD.Local
