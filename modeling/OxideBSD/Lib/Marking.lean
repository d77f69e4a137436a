import Mathlib

/-!
# Marking what can be reached

The mark phase of a collector: nodes are taken off a worklist, and the successors that have no mark
get one and go onto the list.  A node is put on the list when it gets its mark, hence once, and a
walk over a graph with `n` nodes ends within `n` rounds.

* `mark next fuel marked work` is the loop, `visit` what it does with the successors of one node.
* `Middle next roots marked work` holds in the middle of it; `Middle.step` is one round.
* `mem_mark_iff`: with a round for each node, exactly what can be reached from the roots is marked.
-/

set_option autoImplicit false

namespace OxideBSD.Marking

open List

variable {α : Type*} [DecidableEq α]

/-- The nodes of `rs` without a mark get one, and go onto the worklist. -/
def visit : List α → List α → List α → List α × List α
  | [], marked, work => (marked, work)
  | r :: rs, marked, work =>
    if r ∈ marked then visit rs marked work else visit rs (r :: marked) (r :: work)

/-- The loop over the worklist. -/
def mark (next : α → List α) : Nat → List α → List α → List α
  | 0, marked, _ => marked
  | _ + 1, marked, [] => marked
  | fuel + 1, marked, x :: work =>
    let r := visit (next x) marked work
    mark next fuel r.1 r.2

/-- `y` can be reached from one of the `roots`. -/
def Reachable (next : α → List α) (roots : List α) (y : α) : Prop :=
  ∃ x ∈ roots, Relation.ReflTransGen (fun x y ↦ y ∈ next x) x y

/-- The middle of the loop: what is marked can be reached, includes the roots and the worklist, and
is closed but for the successors of the worklist. -/
structure Middle (next : α → List α) (roots marked work : List α) : Prop where
  roots_marked : ∀ x ∈ roots, x ∈ marked
  work_marked : ∀ x ∈ work, x ∈ marked
  reachable : ∀ x ∈ marked, Reachable next roots x
  closed : ∀ x ∈ marked, x ∉ work → ∀ y ∈ next x, y ∈ marked
  marked_nodup : marked.Nodup
  work_nodup : work.Nodup

variable {next : α → List α} {roots marked work rs : List α} {x y : α} {fuel : Nat}

omit [DecidableEq α] in
theorem Reachable.tail (h : Reachable next roots x) (hy : y ∈ next x) : Reachable next roots y := by
  obtain ⟨r, hr, hrx⟩ := h
  exact ⟨r, hr, hrx.tail hy⟩

/-- What `visit` does: the new nodes are those of `rs` without a mark, once each. -/
theorem visit_eq (rs marked work : List α) : ∃ new : List α,
    visit rs marked work = (new ++ marked, new ++ work) ∧ new.Nodup ∧ (∀ y ∈ new, y ∈ rs) ∧
      (∀ y ∈ new, y ∉ marked) ∧ ∀ y ∈ rs, y ∈ new ++ marked := by
  induction rs generalizing marked work with
  | nil => exact ⟨[], rfl, nodup_nil, by simp, by simp, by simp⟩
  | cons r rs ih =>
    rw [visit]
    split_ifs with hr
    · obtain ⟨new, heq, hnodup, hmem, hnot, hall⟩ := ih marked work
      refine ⟨new, heq, hnodup, fun y hy ↦ mem_cons_of_mem r (hmem y hy), hnot, ?_⟩
      rintro y (_ | ⟨_, hy⟩)
      · exact mem_append_right new hr
      · exact hall y hy
    · obtain ⟨new, heq, hnodup, hmem, hnot, hall⟩ := ih (r :: marked) (r :: work)
      refine ⟨new ++ [r], by simpa using heq, ?_, fun y hy ↦ ?_, fun y hy ↦ ?_, fun y hy ↦ ?_⟩
      · refine nodup_append.2 ⟨hnodup, nodup_singleton r, ?_⟩
        rintro y hy z hz rfl
        exact hnot y hy (mem_cons.2 (Or.inl (mem_singleton.1 hz)))
      · rcases mem_append.1 hy with hy | hy
        · exact mem_cons_of_mem r (hmem y hy)
        · exact mem_cons.2 (Or.inl (mem_singleton.1 hy))
      · rcases mem_append.1 hy with hy | hy
        · exact fun hy' ↦ hnot y hy (mem_cons_of_mem r hy')
        · rwa [mem_singleton.1 hy]
      · rcases mem_cons.1 hy with rfl | hy
        · simp
        · have hmem' := hall y hy
          simp only [mem_append, mem_cons] at hmem' ⊢
          tauto

/-- **One round.** -/
theorem Middle.step (h : Middle next roots marked (x :: work)) :
    Middle next roots (visit (next x) marked work).1 (visit (next x) marked work).2 := by
  obtain ⟨new, heq, hnodup, hmem, hnot, hall⟩ := visit_eq (next x) marked work
  rw [heq]
  have hx : x ∈ marked := h.work_marked x mem_cons_self
  refine ⟨fun y hy ↦ mem_append_right _ (h.roots_marked y hy), fun y hy ↦ ?_, fun y hy ↦ ?_,
    fun y hy hwork z hz ↦ ?_, ?_, ?_⟩
  · rcases mem_append.1 hy with hy | hy
    · exact mem_append_left _ hy
    · exact mem_append_right _ (h.work_marked y (mem_cons_of_mem x hy))
  · rcases mem_append.1 hy with hy | hy
    · exact (h.reachable x hx).tail (hmem y hy)
    · exact h.reachable y hy
  · have hy' : y ∈ marked := by
      rcases mem_append.1 hy with hy | hy
      · exact absurd (mem_append_left _ hy) hwork
      · exact hy
    by_cases hyx : y = x
    · exact hall z (hyx ▸ hz)
    · refine mem_append_right _ (h.closed y hy' ?_ z hz)
      rintro (_ | ⟨_, hmem⟩)
      · exact hyx rfl
      · exact hwork (mem_append_right _ hmem)
  · exact nodup_append.2 ⟨hnodup, h.marked_nodup, fun y hy z hz hyz ↦ hnot y hy (hyz ▸ hz)⟩
  · refine nodup_append.2 ⟨hnodup, h.work_nodup.of_cons, fun y hy z hz hyz ↦ ?_⟩
    exact hnot y hy (hyz ▸ h.work_marked z (mem_cons_of_mem x hz))

omit [DecidableEq α] in
/-- With nothing left on the worklist everything that can be reached is marked. -/
theorem Middle.mem_iff (h : Middle next roots marked []) : y ∈ marked ↔ Reachable next roots y := by
  refine ⟨h.reachable y, ?_⟩
  rintro ⟨x, hx, hxy⟩
  induction hxy with
  | refl => exact h.roots_marked x hx
  | tail _ hyz ih => exact h.closed _ ih not_mem_nil _ hyz

/-- Every node on the worklist and every node without a mark has a round ahead of it. -/
theorem Middle.mem_mark_iff (h : Middle next roots marked work) {nodes : List α}
    (hnodes : ∀ y, Reachable next roots y → y ∈ nodes)
    (hfuel : nodes.length + work.length ≤ fuel + marked.length) :
    y ∈ mark next fuel marked work ↔ Reachable next roots y := by
  have hmarked : marked.length ≤ nodes.length :=
    (h.marked_nodup.subperm fun y hy ↦ hnodes y (h.reachable y hy)).length_le
  induction fuel generalizing marked work with
  | zero =>
    obtain rfl : work = [] := length_eq_zero_iff.1 (by omega)
    exact h.mem_iff
  | succ fuel ih =>
    cases work with
    | nil => exact h.mem_iff
    | cons x work =>
      have hstep := h.step
      obtain ⟨new, heq, -⟩ := visit_eq (next x) marked work
      rw [heq] at hstep
      rw [mark, heq]
      refine ih hstep ?_ ?_
      · simp only [length_append, length_cons] at hfuel ⊢
        omega
      · exact (hstep.marked_nodup.subperm fun y hy ↦ hnodes y (hstep.reachable y hy)).length_le

/-- **Exactly what can be reached is marked**, from any list of roots without repetitions. -/
theorem mem_mark_iff (hroots : roots.Nodup) (nodes : List α)
    (hnodes : ∀ y, Reachable next roots y → y ∈ nodes) (hfuel : nodes.length ≤ fuel) :
    y ∈ mark next fuel roots roots.reverse ↔ Reachable next roots y := by
  have h : Middle next roots roots roots.reverse := by
    refine ⟨fun _ hx ↦ hx, fun x hx ↦ mem_reverse.1 hx, fun x hx ↦ ⟨x, hx, .refl⟩, ?_, hroots,
      nodup_reverse.2 hroots⟩
    exact fun x hx hwork ↦ absurd (mem_reverse.2 hx) hwork
  refine h.mem_mark_iff hnodes ?_
  rw [length_reverse]
  omega

end OxideBSD.Marking
