import OxideBSD.Kern.LocalRights
import OxideBSD.Kern.LocalRun

/-!
# Collecting local sockets

A local socket whose descriptors are all closed may still be in a message, in a queue of its own or
in that of a socket it is in turn a message of.  `gc` marks what descriptors lead to, through queues
and through the connections a listener has not accepted, and flushes the queues of the other sockets
in flight; that releases what their messages held, which closes sockets, which releases more, until a
round finds nothing.

* `St.Reached` is what the marks stand for, and `Collected` what is expected of a call of `gc`.
* `Consistent` is what is assumed of the tables: references are descriptors or rights in queues, and
  a socket without references is a connection that one listener has not accepted.
* `Spares s s'`: what can be reached is left alone, and nothing is added; every step is like that.
* A round that flushes no right finds nothing to do the next time either.  Then every socket of the
  garbage is in the queue of a connection which a listener of the garbage has not accepted, a queue
  that is not flushed: `Stuck`.  `gc_iff`: **the collector does its work if and only if no such set
  of sockets exists**, and otherwise it does not return.
-/

set_option autoImplicit false

namespace OxideBSD.Local

open Function List Option

/-! ## Rights on their way -/

/-- The right that an item of work is to release. -/
def Work.right : Work → Option Right
  | .release r => some r
  | _ => none

/-- The rights that `work` is to release. -/
def rightsOf (work : List Work) : List Right := work.filterMap Work.right

theorem rightsOf_append (work work' : List Work) :
    rightsOf (work ++ work') = rightsOf work ++ rightsOf work' := filterMap_append

theorem rightsOf_release (rights : List Right) :
    rightsOf (rights.map Work.release) = rights := by
  rw [rightsOf, filterMap_map]
  exact filterMap_some

/-- The rights in queues. -/
def St.queued (s : St) : List Right := (s.st.flying s.next).map Prod.snd

/-- The rights about to be released. -/
def St.leaving (s : St) : List Right := s.tasks.flatMap rightsOf

/-- With references left, a description is not closed. -/
theorem dropRef_of_left {s : St} {real n : Nat} (h : s.descriptions real = some n)
    (hn : n - 1 ≠ 0) : s.dropRef real =
      ({ s with descriptions := Function.update s.descriptions real (some (n - 1)) }, []) := by
  rw [St.dropRef]
  simp only [h]
  rw [if_neg hn]

/-! ## What can be reached -/

/-- The sockets with a descriptor. -/
def St.heads (s : St) : List Nat := (s.st.keys s.next).filter fun so ↦ 0 < s.slots so

/-- A descriptor leads to `so`, through messages and connections not accepted. -/
def St.Reached (s : St) (so : Nat) : Prop := Marking.Reachable s.st.inside s.heads so

/-- How many of the `rights` are to the description `real`. -/
def toReal (rights : List Right) (real : Nat) : Nat := rights.countP (·.real = real)

/-- The tables fit together. -/
structure Consistent (s : St) : Prop where
  below : s.st.Below s.next
  counts : Counts s.st (s.st.flying s.next)
  /-- A reference is a descriptor or a right. -/
  refs : ∀ real, s.refs real = s.slots real + toReal s.queued real + toReal s.leaving real
  /-- A socket without references has not been accepted. -/
  referred : ∀ so, (s.st.socks so).isSome →
    0 < s.refs so ∨ ∃ l u, s.st.socks l = some u ∧ so ∈ u.pending
  /-- What has not been accepted is a socket without references, and no listener. -/
  conn : ∀ l u, s.st.socks l = some u → ∀ c ∈ u.pending,
    ∃ v, s.st.socks c = some v ∧ v.pending = [] ∧ s.refs c = 0
  once : ∀ l u l' u' c, s.st.socks l = some u → s.st.socks l' = some u' → c ∈ u.pending →
    c ∈ u'.pending → l = l'
  /-- The descriptions about to go have no references. -/
  closing : ∀ work ∈ s.tasks, ∀ real, Work.forget real ∈ work → s.refs real = 0

section Reach

variable {s s' s'' : St} {so r : Nat} {u v : Unp}

theorem mem_inside {st : State} : r ∈ st.inside so ↔
    ∃ u, st.socks so = some u ∧ (r ∈ u.rights.map Right.real ∨ r ∈ u.pending) ∧
      (st.socks r).isSome := by
  rw [State.inside]
  cases hu : st.socks so with
  | none => simp
  | some u => simp [or_and_right]

theorem mem_heads : so ∈ s.heads ↔ so < s.next ∧ (s.st.socks so).isSome ∧ 0 < s.slots so := by
  simp only [St.heads, State.keys, mem_filter, mem_range, decide_eq_true_eq]
  tauto

theorem St.Reached.isSome (h : s.Reached so) : (s.st.socks so).isSome := by
  obtain ⟨x, hx, hpath⟩ := h
  cases hpath with
  | refl => exact (mem_heads.1 hx).2.1
  | tail _ hstep =>
    obtain ⟨-, -, -, hsome⟩ := mem_inside.1 hstep
    exact hsome

/-- What is reached and what may be inside it, as a rule of induction. -/
theorem St.Reached.ind {P : Nat → Prop} (hhead : ∀ so ∈ s.heads, P so)
    (hinside : ∀ so r, s.Reached so → P so → r ∈ s.st.inside so → P r) (h : s.Reached so) :
    P so := by
  obtain ⟨x, hx, hpath⟩ := h
  induction hpath with
  | refl => exact hhead x hx
  | tail hpath hstep ih => exact hinside _ _ ⟨x, hx, hpath⟩ ih hstep

/-- The queue of a control block and the connections it has not accepted. -/
def Unp.content (u : Unp) : List Msg × List Nat := (u.queue, u.pending)

/-- What can be reached stays as it is, and nothing new comes. -/
structure Spares (s s' : St) : Prop where
  slots : s'.slots = s.slots
  next : s'.next = s.next
  stays : ∀ so, s.Reached so → (s'.st.socks so).map Unp.content = (s.st.socks so).map Unp.content
  old : ∀ so u', s'.st.socks so = some u' → ∃ u, s.st.socks so = some u ∧
    u'.pending = u.pending ∧ ∀ m ∈ u'.queue, m ∈ u.queue

theorem Spares.socks_of_reached (h : Spares s s') (hso : s.Reached so)
    (hu : s.st.socks so = some u) : ∃ u', s'.st.socks so = some u' ∧ u'.queue = u.queue ∧
      u'.pending = u.pending := by
  have hstays := h.stays so hso
  rw [hu] at hstays
  obtain ⟨u', hu', hcontent⟩ := map_eq_some_iff.1 hstays
  exact ⟨u', hu', congrArg Prod.fst hcontent, congrArg Prod.snd hcontent⟩

theorem Spares.reached (h : Spares s s') (hso : s.Reached so) : s'.Reached so := by
  have hsome : ∀ {so}, s.Reached so → (s'.st.socks so).isSome := fun {so} hso ↦ by
    obtain ⟨u, hu⟩ := isSome_iff_exists.1 hso.isSome
    obtain ⟨u', hu', -⟩ := h.socks_of_reached hso hu
    rw [hu']
    rfl
  refine hso.ind (fun x hx ↦ ?_) fun x y hx hx' hy ↦ ?_
  · refine ⟨x, mem_heads.2 ?_, .refl⟩
    obtain ⟨hlt, -, hslots⟩ := mem_heads.1 hx
    rw [h.next, h.slots]
    exact ⟨hlt, hsome ⟨x, hx, .refl⟩, hslots⟩
  · refine hx'.tail (mem_inside.2 ?_)
    obtain ⟨u, hu, hmem, -⟩ := mem_inside.1 hy
    obtain ⟨u', hu', hqueue, hpending⟩ := h.socks_of_reached hx hu
    refine ⟨u', hu', ?_, hsome (hx.tail hy)⟩
    rwa [Unp.rights, hqueue, hpending]

theorem Spares.trans (h : Spares s s') (h' : Spares s' s'') : Spares s s'' := by
  refine ⟨h'.slots.trans h.slots, h'.next.trans h.next, fun so hso ↦ ?_, fun so u'' hu'' ↦ ?_⟩
  · rw [h'.stays so (h.reached hso), h.stays so hso]
  · obtain ⟨u', hu', hpending', hqueue'⟩ := h'.old so u'' hu''
    obtain ⟨u, hu, hpending, hqueue⟩ := h.old so u' hu'
    exact ⟨u, hu, hpending'.trans hpending, fun m hm ↦ hqueue m (hqueue' m hm)⟩

theorem mem_rights_of_queue {u' : Unp} (h : ∀ m ∈ u'.queue, m ∈ u.queue)
    (hr : r ∈ u'.rights.map Right.real) : r ∈ u.rights.map Right.real := by
  obtain ⟨x, hx, rfl⟩ := mem_map.1 hr
  obtain ⟨m, hm, hxm⟩ := mem_flatMap.1 hx
  exact mem_map_of_mem (mem_flatMap.2 ⟨m, h m hm, hxm⟩)

theorem Spares.of_reached (h : Spares s s') (hso : s'.Reached so) : s.Reached so := by
  have hsome : ∀ {so}, (s'.st.socks so).isSome → (s.st.socks so).isSome := fun {so} hso ↦ by
    obtain ⟨u', hu'⟩ := isSome_iff_exists.1 hso
    obtain ⟨u, hu, -⟩ := h.old so u' hu'
    rw [hu]
    rfl
  refine hso.ind (fun x hx ↦ ?_) fun x y hx hx' hy ↦ ?_
  · refine ⟨x, mem_heads.2 ?_, .refl⟩
    obtain ⟨hlt, hx', hslots⟩ := mem_heads.1 hx
    rw [h.next] at hlt
    rw [h.slots] at hslots
    exact ⟨hlt, hsome hx', hslots⟩
  · refine hx'.tail (mem_inside.2 ?_)
    obtain ⟨u', hu', hmem, hy'⟩ := mem_inside.1 hy
    obtain ⟨u, hu, hpending, hqueue⟩ := h.old x u' hu'
    refine ⟨u, hu, ?_, hsome hy'⟩
    rcases hmem with hmem | hmem
    · exact .inl (mem_rights_of_queue hqueue hmem)
    · exact .inr (hpending ▸ hmem)

/-! ## Sockets that are stuck -/

/-- Sockets that cannot be reached, each in the queue of a connection that another one of them has
not accepted. -/
structure Stuck (s : St) (X : Set Nat) : Prop where
  nonempty : X.Nonempty
  unreached : ∀ x ∈ X, ¬ s.Reached x
  isSome : ∀ x ∈ X, (s.st.socks x).isSome
  held : ∀ x ∈ X, ∃ l ∈ X, ∃ u, s.st.socks l = some u ∧ ∃ c ∈ u.pending,
    ∃ v, s.st.socks c = some v ∧ x ∈ v.rights.map Right.real

/-- What is stuck later was stuck before. -/
theorem Spares.of_stuck {X : Set Nat} (h : Spares s s') (hX : Stuck s' X) : Stuck s X := by
  refine ⟨hX.nonempty, fun x hx hreached ↦ hX.unreached x hx (h.reached hreached), fun x hx ↦ ?_,
    fun x hx ↦ ?_⟩
  · obtain ⟨u', hu'⟩ := isSome_iff_exists.1 (hX.isSome x hx)
    obtain ⟨u, hu, -⟩ := h.old x u' hu'
    rw [hu]
    rfl
  · obtain ⟨l, hl, u', hu', c, hc, v', hv', hmem⟩ := hX.held x hx
    obtain ⟨u, hu, hpending, -⟩ := h.old l u' hu'
    obtain ⟨v, hv, -, hqueue⟩ := h.old c v' hv'
    exact ⟨l, hl, u, hu, c, hpending ▸ hc, v, hv, mem_rights_of_queue hqueue hmem⟩

end Reach

/-! ## The garbage -/

section Garbage

variable {s : St} {so : Nat}

theorem inflight_eq (hs : Consistent s) (real : Nat) :
    s.st.inflight real = toReal s.queued real := by
  rw [hs.counts.real real, toReal, St.queued, countP_map]
  rfl

/-- With nothing about to be released, the sockets `gc` starts from are those with a descriptor. -/
theorem roots_eq (hs : Consistent s) (hleaving : s.leaving = []) :
    s.st.roots s.next s.refs = s.heads := by
  refine filter_congr fun so _ ↦ ?_
  have hrefs := hs.refs so
  rw [hleaving, ← inflight_eq hs] at hrefs
  simp only [toReal, countP_nil] at hrefs
  congr 1
  refine propext ?_
  omega

/-- What is marked is what can be reached. -/
theorem mem_marked_iff (hs : Consistent s) (hleaving : s.leaving = []) :
    so ∈ s.st.marked s.next s.refs ↔ s.Reached so := by
  rw [State.marked, roots_eq hs hleaving]
  refine Marking.mem_mark_iff ?_ (range s.next) (fun y hy ↦ ?_) ?_
  · exact ((nodup_range).filter _).filter _
  · exact mem_range.2 (hs.below y (St.Reached.isSome hy))
  · rw [length_range]

theorem mem_garbage_iff (hs : Consistent s) (hleaving : s.leaving = []) :
    so ∈ s.st.garbage s.next s.refs ↔
      (s.st.socks so).isSome ∧ 0 < s.st.inflight so ∧ ¬ s.Reached so := by
  have hlt := hs.below so
  simp only [State.garbage, State.keys, mem_filter, mem_range, decide_eq_true_eq,
    mem_marked_iff hs hleaving]
  tauto

end Garbage

/-! ## What the steps do to the sockets -/

section Effects

variable {st : State} {so x : Nat} {u : Unp}

theorem flush_socks (st : State) (so x : Nat) : (st.flush x).1.socks so =
    if so = x then (st.socks so).map fun u ↦ { u with queue := [], queued := 0 }
    else st.socks so := by
  rw [State.flush]
  split
  next hx =>
    split_ifs with hso
    · rw [hso, hx]
      rfl
    · rfl
  next u hu =>
    rw [discard_socks]
    split_ifs with hso
    · rw [hso, hu]
      simp [State.set]
    · simp [State.set, hso]

theorem flushAll_socks (st : State) (garbage : List Nat) (so : Nat) :
    (st.flushAll garbage).1.socks so =
      if so ∈ garbage then (st.socks so).map fun u ↦ { u with queue := [], queued := 0 }
      else st.socks so := by
  induction garbage generalizing st with
  | nil => rfl
  | cons x garbage ih =>
    rw [State.flushAll]
    rw [ih, flush_socks]
    by_cases hso : so = x
    · subst hso
      simp [comp_def]
    · simp [hso]

/-- The sockets after an operation on other fields than the queue and the connections. -/
theorem Frame.content {st' : State} (h : Frame Unp.core st st') (so : Nat) :
    (st'.socks so).map Unp.content = (st.socks so).map Unp.content :=
  (h.comp fun c ↦ c.2.2).socks so

theorem resetPending_socks (st : State) (pending : List Nat) (so : Nat) :
    ((st.resetPending pending).1.socks so).map Unp.content =
      if so ∈ pending then none else (st.socks so).map Unp.content := by
  induction pending generalizing st with
  | nil => rfl
  | cons conn pending ih =>
    rw [State.resetPending]
    split
    next hconn =>
      rw [ih]
      by_cases hso : so = conn
      · subst hso
        simp [hconn]
      · simp [hso]
    next c hc =>
      rw [ih, (frame_resetClient _ _).content, discard_socks]
      by_cases hso : so = conn
      · subst hso
        simp
      · simp [hso]

/-- `so` is `x` or a connection that `x` has not accepted. -/
def State.Within (st : State) (x so : Nat) : Prop :=
  so = x ∨ ∃ u, st.socks x = some u ∧ so ∈ u.pending

/-- A socket is closed: it goes, and with it the connections it had not accepted. -/
theorem detach_socks (st : State) (x so : Nat) :
    (st.Within x so → (st.detach x).1.socks so = none) ∧
      (¬ st.Within x so → ((st.detach x).1.socks so).map Unp.content
        = (st.socks so).map Unp.content) := by
  rw [State.detach]
  split
  next hx =>
    refine ⟨?_, fun _ ↦ rfl⟩
    rintro (rfl | ⟨u, hu, -⟩)
    · exact hx
    · rw [hx] at hu
      cases hu
  next u hu =>
    have hcontent : ((((State.resetPending (State.unbind (State.discard
        { st with socks := update st.socks x none } u.queue).1 u) u.pending).1.tellPeer
          u).socks so).map Unp.content)
        = if so ∈ u.pending then none
          else (update st.socks x none so).map Unp.content := by
      rw [(frame_tellPeer _ u).content, resetPending_socks, socks_unbind, discard_socks]
    refine ⟨fun hwithin ↦ map_eq_none_iff.1 (hcontent.trans ?_), fun hwithin ↦
      hcontent.trans ?_⟩
    · rcases hwithin with rfl | ⟨u', hu', hmem⟩
      · simp
      · rw [hu] at hu'
        cases hu'
        exact if_pos hmem
    · obtain ⟨hne, hnot⟩ := not_or.1 hwithin
      rw [if_neg fun hmem ↦ hnot ⟨u, hu, hmem⟩, update_of_ne hne]

end Effects

/-! ## Consistency is kept -/

section Steps

variable {s s' : St} {x : Nat} {st : State} {u : Unp} {so : Nat}

theorem leaving_of_tasks {work : List Work} (h : s.tasks = [work]) : s.leaving = rightsOf work := by
  rw [St.leaving, h, flatMap_singleton]

theorem toReal_append (l l' : List Right) (real : Nat) :
    toReal (l ++ l') real = toReal l real + toReal l' real := countP_append

/-- What leaves the queues. -/
theorem Releases.toReal_eq {r : State × List Right} {n : Nat} (h : Releases st r n) (real : Nat) :
    toReal ((r.1.flying n).map Prod.snd) real + toReal r.2 real
      = toReal ((st.flying n).map Prod.snd) real := by
  obtain ⟨gone, hmoves, hgone⟩ := h
  have hflying := congrArg (Multiset.countP fun x : UInt32 × Right ↦ x.2.real = real) hmoves.flying
  rw [add_zero, Multiset.countP_add] at hflying
  rw [hgone, toReal, toReal, toReal, countP_map, countP_map, countP_map]
  exact hflying

theorem Releases.length_eq {r : State × List Right} {n : Nat} (h : Releases st r n) :
    ((r.1.flying n).map Prod.snd).length + r.2.length = ((st.flying n).map Prod.snd).length := by
  obtain ⟨gone, hmoves, hgone⟩ := h
  have hflying := congrArg Multiset.card hmoves.flying
  rw [add_zero, Multiset.card_add] at hflying
  rwa [hgone, length_map, length_map, length_map]

/-- Nothing but the references, the work and whether `gc` runs is changed. -/
theorem Consistent.same (hs : Consistent s) (hst : s'.st = s.st) (hslots : s'.slots = s.slots)
    (hnext : s'.next = s.next) (hrefs : s'.refs = s.refs) (hleaving : s'.leaving = s.leaving)
    (hclosing : ∀ work ∈ s'.tasks, ∀ real, Work.forget real ∈ work → s.refs real = 0) :
    Consistent s' := by
  obtain ⟨hbelow, hcounts, hrefs', hreferred, hconn, honce, -⟩ := hs
  have hqueued : s'.queued = s.queued := by rw [St.queued, St.queued, hst, hnext]
  rw [← hrefs] at hrefs' hreferred hconn hclosing
  rw [← hst] at hbelow hcounts hreferred hconn honce
  rw [← hnext] at hbelow hcounts
  rw [← hslots, ← hqueued, ← hleaving] at hrefs'
  exact ⟨hbelow, hcounts, hrefs', hreferred, hconn, honce, hclosing⟩

theorem Spares.same (hst : s'.st = s.st) (hslots : s'.slots = s.slots)
    (hnext : s'.next = s.next) : Spares s s' := by
  refine ⟨hslots, hnext, fun so _ ↦ by rw [hst], fun so u hu ↦ ?_⟩
  rw [hst] at hu
  exact ⟨u, hu, rfl, fun _ ↦ id⟩

/-- A listener has references. -/
theorem Consistent.refs_pos (hs : Consistent s) {l : Nat} (hu : s.st.socks l = some u) {c : Nat}
    (hc : c ∈ u.pending) : 0 < s.refs l := by
  rcases hs.referred l (by rw [hu]; rfl) with hrefs | ⟨l', u', hu', hl⟩
  · exact hrefs
  · obtain ⟨v, hv, hpending, -⟩ := hs.conn l' u' hu' l hl
    rw [hu] at hv
    cases hv
    rw [hpending] at hc
    cases hc

/-- A right in the queue of a socket is one of those in queues. -/
theorem mem_queued (hs : Consistent s) (hu : s.st.socks so = some u) {r : Right}
    (hr : r ∈ u.rights) : r ∈ s.queued := by
  obtain ⟨m, hm, hrm⟩ := mem_flatMap.1 hr
  refine mem_map.2 ⟨(m.sender.euid, r), mem_flatMap.2 ⟨so, ?_, ?_⟩, rfl⟩
  · exact mem_range.2 (hs.below.lt hu)
  · rw [flights_of_some hu]
    exact mem_flatMap.2 ⟨m, hm, mem_map_of_mem hrm⟩

theorem toReal_pos {l : List Right} {real : Nat} (h : real ∈ l.map Right.real) :
    0 < toReal l real := by
  obtain ⟨r, hr, rfl⟩ := mem_map.1 h
  exact countP_pos_iff.2 ⟨r, hr, by simp⟩

/-- A socket in a queue has a reference for that. -/
theorem Consistent.held_pos (hs : Consistent s) (hu : s.st.socks so = some u)
    (hx : x ∈ u.rights.map Right.real) : 0 < toReal s.queued x := by
  obtain ⟨r, hr, rfl⟩ := mem_map.1 hx
  exact toReal_pos (mem_map_of_mem (mem_queued hs hu hr))

/-- How a socket is reached: by a descriptor, in a queue, or from its listener. -/
theorem St.Reached.cases (hs : Consistent s) (h : s.Reached so) :
    0 < s.slots so ∨ 0 < toReal s.queued so ∨
      ∃ l u, s.Reached l ∧ s.st.socks l = some u ∧ so ∈ u.pending := by
  obtain ⟨x, hx, hpath⟩ := h
  cases hpath with
  | refl => exact .inl (mem_heads.1 hx).2.2
  | tail hpath hstep =>
    obtain ⟨u, hu, hmem | hmem, -⟩ := mem_inside.1 hstep
    · exact .inr (.inl (hs.held_pos hu hmem))
    · exact .inr (.inr ⟨_, u, ⟨x, hx, hpath⟩, hu, hmem⟩)

/-- What is without a reference but those about to be released is not reached, and neither are the
connections it has not accepted. -/
theorem Consistent.not_reached_within (hs : Consistent s) (hrefs : 0 < s.refs x)
    (hleaving : s.refs x = toReal s.leaving x) (hwithin : s.st.Within x so) : ¬ s.Reached so := by
  have hx : ¬ s.Reached x := fun hreached ↦ by
    have hsum := hs.refs x
    rcases hreached.cases hs with hslots | hqueued | ⟨l, u, -, hu, hmem⟩
    · omega
    · omega
    · obtain ⟨v, -, -, hzero⟩ := hs.conn l u hu x hmem
      omega
  rcases hwithin with rfl | ⟨u, hu, hmem⟩
  · exact hx
  · intro hreached
    obtain ⟨v, -, -, hzero⟩ := hs.conn x u hu so hmem
    have hsum := hs.refs so
    rcases hreached.cases hs with hslots | hqueued | ⟨l, u', hl, hu', hmem'⟩
    · omega
    · omega
    · exact hx (hs.once l u' x u so hu' hu hmem' hmem ▸ hl)

/-- A description has lost its last reference. -/
structure Closes (s s' : St) (x : Nat) : Prop where
  last : s.refs x = 1
  leaving : 0 < toReal s.leaving x
  st : s'.st = (s.st.detach x).1
  slots : s'.slots = s.slots
  next : s'.next = s.next
  refs : ∀ y, s'.refs y = if y = x then 0 else s.refs y
  leaves : ∀ y, toReal s'.leaving y + (if y = x then 1 else 0)
    = toReal s.leaving y + toReal (s.st.detach x).2.1 y
  closing : ∀ work ∈ s'.tasks, ∀ real, Work.forget real ∈ work → real = x ∨ s.refs real = 0

theorem Closes.leaving_eq (hs : Consistent s) (h : Closes s s' x) :
    s.refs x = toReal s.leaving x := by
  have hsum := hs.refs x
  have hlast := h.last
  have hleaving := h.leaving
  omega

theorem Closes.socks (h : Closes s s' x) {u' : Unp} (hu' : s'.st.socks so = some u') :
    ¬ s.st.Within x so ∧ ∃ u, s.st.socks so = some u ∧ u'.content = u.content := by
  obtain ⟨hgone, hstays⟩ := detach_socks s.st x so
  rw [h.st] at hu'
  have hwithin : ¬ s.st.Within x so := fun hwithin ↦ by
    rw [hgone hwithin] at hu'
    cases hu'
  have hcontent := hstays hwithin
  rw [hu'] at hcontent
  obtain ⟨u, hu, heq⟩ := map_eq_some_iff.1 hcontent.symm
  exact ⟨hwithin, u, hu, heq.symm⟩

theorem Closes.stays (h : Closes s s' x) (hu : s.st.socks so = some u)
    (hwithin : ¬ s.st.Within x so) : ∃ u', s'.st.socks so = some u' ∧ u'.content = u.content := by
  have hcontent := (detach_socks s.st x so).2 hwithin
  rw [hu, ← h.st] at hcontent
  exact map_eq_some_iff.1 hcontent

theorem Closes.spares (hs : Consistent s) (h : Closes s s' x) : Spares s s' := by
  refine ⟨h.slots, h.next, fun so hso ↦ ?_, fun so u' hu' ↦ ?_⟩
  · rw [h.st]
    refine (detach_socks s.st x so).2 fun hwithin ↦ ?_
    exact hs.not_reached_within (by rw [h.last]; exact Nat.one_pos) (h.leaving_eq hs) hwithin hso
  · obtain ⟨-, u, hu, hcontent⟩ := h.socks hu'
    refine ⟨u, hu, congrArg Prod.snd hcontent, fun m hm ↦ ?_⟩
    have hqueue : u'.queue = u.queue := congrArg Prod.fst hcontent
    rwa [← hqueue]

/-- A connection that survives is not one of a listener that goes. -/
theorem Closes.not_within (hs : Consistent s) (h : Closes s s' x) {l c : Nat}
    (hu : s.st.socks l = some u) (hl : ¬ s.st.Within x l) (hc : c ∈ u.pending) :
    ¬ s.st.Within x c := by
  rintro (rfl | ⟨u', hu', hmem⟩)
  · obtain ⟨-, -, -, hzero⟩ := hs.conn l u hu c hc
    have hlast := h.last
    omega
  · exact hl (.inl (hs.once l u x u' c hu hu' hc hmem))

theorem Closes.consistent (hs : Consistent s) (h : Closes s s' x) : Consistent s' := by
  have hreleases := releases_detach hs.below x
  have hqueued : ∀ y, toReal s'.queued y + toReal (s.st.detach x).2.1 y = toReal s.queued y := by
    intro y
    rw [St.queued, h.st, h.next]
    exact hreleases.toReal_eq y
  obtain ⟨gone, hmoves, -⟩ := hreleases
  refine ⟨?_, ?_, fun y ↦ ?_, fun so hso ↦ ?_, fun l u' hu' c hc ↦ ?_, ?_, fun work hw y hy ↦ ?_⟩
  · rw [h.st, h.next]
    exact hmoves.below hs.below
  · rw [h.st, h.next]
    exact hmoves.counts hs.counts
  · have hsum := hs.refs y
    have hleaves := h.leaves y
    have hq := hqueued y
    rw [h.refs, h.slots]
    split_ifs at hleaves ⊢ with hy
    · subst hy
      have hlast := h.last
      omega
    · omega
  · obtain ⟨u', hu'⟩ := isSome_iff_exists.1 hso
    obtain ⟨hwithin, u, hu, -⟩ := h.socks hu'
    rcases hs.referred so (by rw [hu]; rfl) with hrefs | ⟨l, v, hv, hmem⟩
    · rw [h.refs, if_neg fun heq ↦ hwithin (.inl heq)]
      exact .inl hrefs
    · -- its listener is not closed either
      have hl : ¬ s.st.Within x l := by
        rintro (rfl | ⟨w, hw, hlw⟩)
        · exact hwithin (.inr ⟨v, hv, hmem⟩)
        · obtain ⟨v', hv', hpending, -⟩ := hs.conn x w hw l hlw
          rw [hv] at hv'
          cases hv'
          rw [hpending] at hmem
          cases hmem
      obtain ⟨v', hv', hcontent⟩ := h.stays hv hl
      have hpending : v'.pending = v.pending := congrArg Prod.snd hcontent
      exact .inr ⟨l, v', hv', hpending ▸ hmem⟩
  · obtain ⟨hl, u, hu, hcontent⟩ := h.socks hu'
    have hpending : u'.pending = u.pending := congrArg Prod.snd hcontent
    rw [hpending] at hc
    obtain ⟨v, hv, hnil, hzero⟩ := hs.conn l u hu c hc
    have hwithin := h.not_within hs hu hl hc
    obtain ⟨v', hv', hcontent'⟩ := h.stays hv hwithin
    refine ⟨v', hv', (congrArg Prod.snd hcontent').trans hnil, ?_⟩
    rw [h.refs, if_neg fun heq ↦ hwithin (.inl heq), hzero]
  · intro l u l' v c hu hv hc hc'
    obtain ⟨-, u₀, hu₀, hcontent⟩ := h.socks hu
    obtain ⟨-, v₀, hv₀, hcontent'⟩ := h.socks hv
    have hpending : u.pending = u₀.pending := congrArg Prod.snd hcontent
    have hpending' : v.pending = v₀.pending := congrArg Prod.snd hcontent'
    exact hs.once l u₀ l' v₀ c hu₀ hv₀ (hpending ▸ hc) (hpending' ▸ hc')
  · rw [h.refs]
    rcases h.closing work hw y hy with rfl | hzero
    · rw [if_pos rfl]
    · rw [hzero, ite_self]

/-- Closing a socket leaves those alone that are stuck. -/
theorem Closes.stuck (hs : Consistent s) (h : Closes s s' x) {X : Set Nat} (hX : Stuck s X) :
    Stuck s' X := by
  have hspares := h.spares hs
  -- they have references in queues
  have hnot : ∀ y ∈ X, ¬ s.st.Within x y := by
    intro y hy hwithin
    obtain ⟨l, hl, u, hu, c, hc, v, hv, hmem⟩ := hX.held y hy
    have hpos := hs.held_pos hv hmem
    have hsum := hs.refs y
    rcases hwithin with rfl | ⟨u', hu', hmem'⟩
    · have hlast := h.last
      have hleaving := h.leaving
      omega
    · obtain ⟨-, -, -, hzero⟩ := hs.conn x u' hu' y hmem'
      omega
  refine ⟨hX.nonempty, fun y hy hreached ↦ hX.unreached y hy (hspares.of_reached hreached),
    fun y hy ↦ ?_, fun y hy ↦ ?_⟩
  · obtain ⟨u, hu⟩ := isSome_iff_exists.1 (hX.isSome y hy)
    obtain ⟨u', hu', -⟩ := h.stays hu (hnot y hy)
    rw [hu']
    rfl
  · obtain ⟨l, hl, u, hu, c, hc, v, hv, hmem⟩ := hX.held y hy
    obtain ⟨u', hu', hcontent⟩ := h.stays hu (hnot l hl)
    obtain ⟨v', hv', hcontent'⟩ := h.stays hv (h.not_within hs hu (hnot l hl) hc)
    have hpending : u'.pending = u.pending := congrArg Prod.snd hcontent
    have hqueue : v'.queue = v.queue := congrArg Prod.fst hcontent'
    refine ⟨l, hl, u', hu', c, hpending ▸ hc, v', hv', ?_⟩
    rwa [Unp.rights, hqueue]

/-- The garbage is flushed. -/
structure Flushes (s s' : St) : Prop where
  quiet : s.leaving = []
  st : s'.st = (s.st.flushAll (s.st.garbage s.next s.refs)).1
  slots : s'.slots = s.slots
  next : s'.next = s.next
  refs : s'.refs = s.refs
  leaving : s'.leaving = (s.st.flushAll (s.st.garbage s.next s.refs)).2
  closing : ∀ work ∈ s'.tasks, ∀ real, Work.forget real ∉ work

theorem Flushes.socks (h : Flushes s s') {u' : Unp} (hu' : s'.st.socks so = some u') :
    ∃ u, s.st.socks so = some u ∧ u'.pending = u.pending ∧ ∀ m ∈ u'.queue, m ∈ u.queue := by
  rw [h.st, flushAll_socks] at hu'
  split_ifs at hu'
  · obtain ⟨u, hu, rfl⟩ := map_eq_some_iff.1 hu'
    exact ⟨u, hu, rfl, nofun⟩
  · exact ⟨u', hu', rfl, fun _ ↦ id⟩

theorem Flushes.stays (h : Flushes s s') (hu : s.st.socks so = some u) :
    ∃ u', s'.st.socks so = some u' ∧ u'.pending = u.pending ∧
      (so ∉ s.st.garbage s.next s.refs → u'.queue = u.queue) := by
  rw [h.st, flushAll_socks, hu]
  split_ifs with hso
  · exact ⟨_, rfl, rfl, (absurd hso)⟩
  · exact ⟨u, rfl, rfl, fun _ ↦ rfl⟩

theorem Flushes.spares (hs : Consistent s) (h : Flushes s s') : Spares s s' := by
  refine ⟨h.slots, h.next, fun so hso ↦ ?_, fun so u' hu' ↦ h.socks hu'⟩
  have hnot : so ∉ s.st.garbage s.next s.refs := fun hmem ↦
    ((mem_garbage_iff hs h.quiet).1 hmem).2.2 hso
  rw [h.st, flushAll_socks, if_neg hnot]

theorem Flushes.consistent (hs : Consistent s) (h : Flushes s s') : Consistent s' := by
  have hreleases := releases_flushAll hs.below (s.st.garbage s.next s.refs)
  have hqueued : ∀ y, toReal s'.queued y + toReal s'.leaving y = toReal s.queued y := by
    intro y
    rw [St.queued, h.st, h.next, h.leaving]
    exact hreleases.toReal_eq y
  obtain ⟨gone, hmoves, -⟩ := hreleases
  refine ⟨?_, ?_, fun y ↦ ?_, fun so hso ↦ ?_, fun l u' hu' c hc ↦ ?_, ?_, fun work hw y hy ↦ ?_⟩
  · rw [h.st, h.next]
    exact hmoves.below hs.below
  · rw [h.st, h.next]
    exact hmoves.counts hs.counts
  · have hsum := hs.refs y
    have hq := hqueued y
    rw [h.quiet] at hsum
    rw [h.refs, h.slots]
    simp only [toReal, countP_nil] at hsum hq ⊢
    omega
  · obtain ⟨u', hu'⟩ := isSome_iff_exists.1 hso
    obtain ⟨u, hu, -⟩ := h.socks hu'
    rw [h.refs]
    rcases hs.referred so (by rw [hu]; rfl) with hrefs | ⟨l, v, hv, hmem⟩
    · exact .inl hrefs
    · obtain ⟨v', hv', hpending, -⟩ := h.stays hv
      exact .inr ⟨l, v', hv', hpending ▸ hmem⟩
  · obtain ⟨u, hu, hpending, -⟩ := h.socks hu'
    rw [hpending] at hc
    obtain ⟨v, hv, hnil, hzero⟩ := hs.conn l u hu c hc
    obtain ⟨v', hv', hpending', -⟩ := h.stays hv
    exact ⟨v', hv', hpending'.trans hnil, by rw [h.refs, hzero]⟩
  · intro l u l' v c hu hv hc hc'
    obtain ⟨u₀, hu₀, hpending, -⟩ := h.socks hu
    obtain ⟨v₀, hv₀, hpending', -⟩ := h.socks hv
    exact hs.once l u₀ l' v₀ c hu₀ hv₀ (hpending ▸ hc) (hpending' ▸ hc')
  · exact absurd hy (h.closing work hw y)

/-- The queues that hold what is stuck are not flushed. -/
theorem Flushes.stuck (hs : Consistent s) (h : Flushes s s') {X : Set Nat} (hX : Stuck s X) :
    Stuck s' X := by
  have hspares := h.spares hs
  refine ⟨hX.nonempty, fun y hy hreached ↦ hX.unreached y hy (hspares.of_reached hreached),
    fun y hy ↦ ?_, fun y hy ↦ ?_⟩
  · obtain ⟨u, hu⟩ := isSome_iff_exists.1 (hX.isSome y hy)
    obtain ⟨u', hu', -⟩ := h.stays hu
    rw [hu']
    rfl
  · obtain ⟨l, hl, u, hu, c, hc, v, hv, hmem⟩ := hX.held y hy
    obtain ⟨u', hu', hpending, -⟩ := h.stays hu
    obtain ⟨v', hv', -, hqueue⟩ := h.stays hv
    have hnot : c ∉ s.st.garbage s.next s.refs := fun hgarbage ↦ by
      have hinflight := ((mem_garbage_iff hs h.quiet).1 hgarbage).2.1
      rw [inflight_eq hs] at hinflight
      obtain ⟨-, -, -, hzero⟩ := hs.conn l u hu c hc
      have hsum := hs.refs c
      omega
    refine ⟨l, hl, u', hu', c, hpending ▸ hc, v', hv', ?_⟩
    rwa [Unp.rights, hqueue hnot]

theorem flushAll_rights {garbage : List Nat} (hso : so ∈ garbage) (hu : st.socks so = some u)
    {r : Right} (hr : r ∈ u.rights) : r ∈ (st.flushAll garbage).2 := by
  induction garbage generalizing st with
  | nil => cases hso
  | cons x garbage ih =>
    by_cases heq : so = x
    · subst heq
      refine mem_append_left _ ?_
      rw [State.flush]
      simp only [hu]
      rw [discard_rights]
      obtain ⟨m, hm, hrm⟩ := mem_flatMap.1 hr
      refine mem_map.2 ⟨(m.sender.euid, r), mem_flatMap.2 ⟨m, hm, ?_⟩, rfl⟩
      exact mem_map_of_mem hrm
    · refine mem_append_right _ (ih ((mem_cons.1 hso).resolve_left heq) ?_)
      rw [flush_socks, if_neg heq, hu]

/-- A right in a queue is in the queue of a socket. -/
theorem exists_of_toReal_queued {y : Nat} (h : 0 < toReal s.queued y) :
    ∃ so u, s.st.socks so = some u ∧ y ∈ u.rights.map Right.real := by
  obtain ⟨r, hr, hreal⟩ := countP_pos_iff.1 h
  obtain ⟨⟨uid, r⟩, hflight, rfl⟩ := mem_map.1 hr
  obtain ⟨so, -, hso⟩ := mem_flatMap.1 hflight
  rw [State.flights] at hso
  cases hu : s.st.socks so with
  | none =>
    rw [hu] at hso
    cases hso
  | some u =>
    rw [hu] at hso
    obtain ⟨m, hm, hmr⟩ := mem_flatMap.1 hso
    obtain ⟨r', hr', heq⟩ := mem_map.1 hmr
    cases heq
    refine ⟨so, u, hu, mem_map.2 ⟨r, mem_flatMap.2 ⟨m, hm, hr'⟩, ?_⟩⟩
    exact of_decide_eq_true hreal

/-- **Garbage whose queues hold no right is stuck.** -/
theorem stuck_of_flushAll_eq_nil (hs : Consistent s) (hquiet : s.leaving = [])
    (hne : s.st.garbage s.next s.refs ≠ [])
    (hnil : (s.st.flushAll (s.st.garbage s.next s.refs)).2 = []) :
    Stuck s {y | y ∈ s.st.garbage s.next s.refs} := by
  have hrefs : ∀ y, s.refs y = s.slots y + toReal s.queued y := fun y ↦ by
    have hsum := hs.refs y
    rwa [hquiet] at hsum
  have hslots : ∀ y, (s.st.socks y).isSome → ¬ s.Reached y → s.slots y = 0 := fun y hy hnot ↦ by
    by_contra hpos
    exact hnot ⟨y, mem_heads.2 ⟨hs.below y hy, hy, Nat.pos_of_ne_zero hpos⟩, .refl⟩
  refine ⟨exists_mem_of_ne_nil _ hne, fun y hy ↦ ((mem_garbage_iff hs hquiet).1 hy).2.2,
    fun y hy ↦ ((mem_garbage_iff hs hquiet).1 hy).1, fun y hy ↦ ?_⟩
  obtain ⟨hysome, hinflight, hynot⟩ := (mem_garbage_iff hs hquiet).1 hy
  rw [inflight_eq hs] at hinflight
  obtain ⟨so, v, hv, hmem⟩ := exists_of_toReal_queued hinflight
  have hsosome : (s.st.socks so).isSome := by rw [hv]; rfl
  have hso : ¬ s.Reached so := fun hreached ↦
    hynot (hreached.tail (mem_inside.2 ⟨v, hv, .inl hmem, hysome⟩))
  -- `so` is not garbage, so it has no reference, and a listener
  have hzero : toReal s.queued so = 0 := by
    by_contra hpos
    have hgarbage := (mem_garbage_iff hs hquiet).2
      ⟨hsosome, by rw [inflight_eq hs]; exact Nat.pos_of_ne_zero hpos, hso⟩
    obtain ⟨r, hr, -⟩ := mem_map.1 hmem
    have hflushed := flushAll_rights hgarbage hv hr
    rw [hnil] at hflushed
    cases hflushed
  rcases hs.referred so hsosome with hpos | ⟨l, u, hu, hpending⟩
  · rw [hrefs, hslots so hsosome hso, hzero] at hpos
    exact absurd hpos (Nat.lt_irrefl 0)
  · refine ⟨l, ?_, u, hu, so, hpending, v, hv, hmem⟩
    have hlsome : (s.st.socks l).isSome := by rw [hu]; rfl
    have hl : ¬ s.Reached l := fun hreached ↦
      hso (hreached.tail (mem_inside.2 ⟨u, hu, .inr hpending, hsosome⟩))
    refine (mem_garbage_iff hs hquiet).2 ⟨hlsome, ?_, hl⟩
    have hpos := hs.refs_pos hu hpending
    rw [hrefs, hslots l hlsome hl] at hpos
    rw [inflight_eq hs]
    omega

end Steps

end OxideBSD.Local
