import OxideBSD.Kern.Uio
import OxideBSD.Lib.Machine

/-!
# The accounts of a transfer

A transfer of `sys/kern/subr_uio.rs` through any sequence of its calls: `limit_resid`, `uiomove` of
which no copy faults, `skip` and `rewind`.  An index past the segments and a subtraction below zero
is `none`; `walkLoop` is the loop that `move_raw` and `skip` share, and `moveRaw_of_uiomove` says
that it is the loop of `Uio.moveRaw`.

* `Moved u u' k`: `u'` is `u` moved on by `k` bytes.  `rewind` goes back (`rewind_moved`).
* `walkLoop_of_within`, `walkLoop_of_not_within`: how a walk ends.  It takes a whole piece of a
  segment whatever `resid` says, so it goes right only if it is asked for no more than `resid`, or
  if `resid` ends with a segment (`Within`).
* `run_accounts_iff`: after any calls, the next call does what it should exactly then.
-/

set_option autoImplicit false

namespace OxideBSD.Kern.Uio

open List Option

/-! ## The calls -/

/-- Shortens the transfer to at most `max` more bytes. -/
def limitResid (u : Uio) (max : ℕ) : Uio := { u with resid := min u.resid max }

/-- The loop of `move_raw`, when no copy faults, and of `skip`: the addresses moved over and the
transfer afterwards. -/
def walkLoop : ℕ → ℕ → Uio → Option (List ℕ × Uio)
  | 0, _, _ => none
  | fuel + 1, left, u =>
    if left = 0 ∨ u.resid = 0 then some ([], u)
    else do
      let s ← u.iov[u.idx]?
      if s.len < u.segOff then none
      else if s.len - u.segOff = 0 then
        walkLoop fuel left { u with idx := u.idx + 1, segOff := 0 }
      else
        let n := min (s.len - u.segOff) left
        if u.resid < n then none
        else
          let r ← walkLoop fuel (left - n) (u.passed n)
          some (addrs ((s.base + u.segOff) % 2 ^ 64) n ++ r.1, r.2)

/-- `uiomove` of up to `len` bytes. -/
def uiomove (u : Uio) (len : ℕ) : Option (List ℕ × Uio) :=
  walkLoop (u.iov.length - u.idx + len + 1) len u

/-- Counts up to `n` bytes as moved. -/
def skip (u : Uio) (n : ℕ) : Option Uio :=
  (walkLoop (u.iov.length - u.idx + n + 1) n u).map Prod.snd

theorem moveLoop_of_walkLoop (mapped : ℕ → Bool) {fuel len : ℕ} {u u' : Uio} {as : List ℕ}
    (h : walkLoop (fuel + 1) len u = some (as, u'))
    (hclear : ∀ a ∈ as, Accessible mapped u.seg a) :
    moveLoop mapped fuel len u = (as, false, u') := by
  induction fuel generalizing len u as with
  | zero =>
    rw [walkLoop] at h
    split_ifs at h with hstop
    · cases h
      rfl
    · obtain ⟨s, -, h⟩ := bind_eq_some_iff.1 h
      dsimp only at h
      split_ifs at h <;> cases h
  | succ fuel ih =>
    rw [walkLoop] at h
    rw [moveLoop]
    split_ifs at h ⊢ with hstop
    · cases h
      rfl
    · obtain ⟨s, hs, h⟩ := bind_eq_some_iff.1 h
      have hseg : u.iov.getD u.idx ⟨0, 0⟩ = s := by
        rw [getD_eq_getElem?_getD, hs, getD_some]
      dsimp only at h ⊢
      rw [hseg]
      split_ifs at h with hoff hdone hshort
      · rw [if_pos hdone]
        exact ih h hclear
      · obtain ⟨r, hr, heq⟩ := bind_eq_some_iff.1 h
        cases heq
        rw [if_neg hdone, if_pos, ih hr fun a ha ↦ hclear a (mem_append_right _ ha)]
        rw [copyOk_iff (Nat.mod_lt _ (by norm_num)) (by omega)]
        exact fun a ha ↦ hclear a (mem_append_left _ ha)

/-- The walk of a move without a fault is `move_raw`'s. -/
theorem moveRaw_of_uiomove (mapped : ℕ → Bool) {u u' : Uio} {len : ℕ} {as : List ℕ}
    (h : u.uiomove len = some (as, u')) (hclear : ∀ a ∈ as, Accessible mapped u.seg a) :
    u.moveRaw mapped len = (as, false, u') :=
  moveLoop_of_walkLoop mapped h hclear

/-! ## Where a transfer is -/

/-- The bytes of the first `j` segments. -/
def through (u : Uio) (j : ℕ) : ℕ := ((u.iov.take j).map IoSeg.len).sum

/-- The addresses of all segments, in order. -/
def whole (u : Uio) : List ℕ := u.iov.flatMap fun s ↦ addrs s.base s.len

/-- What holds of every transfer. -/
structure Inv (u : Uio) : Prop where
  idx_le : u.idx ≤ u.iov.length
  wf : u.WF

/-- `u'` is `u` moved on by `k` bytes. -/
structure Moved (u u' : Uio) (k : ℕ) : Prop where
  iov : u'.iov = u.iov
  pos : u'.pos = u.pos + k
  resid : u'.resid + k = u.resid
  offset : u'.offset = u.offset + .ofNat k
  inv : u'.Inv

variable {u u' u'' : Uio} {k l len n fuel : ℕ}

theorem length_whole (u : Uio) : u.whole.length = u.through u.iov.length := by
  rw [whole, length_flatMap, through, take_length]
  simp only [length_addrs]

theorem whole_drop_through (u : Uio) (j : ℕ) :
    u.whole.drop (u.through j) = (u.iov.drop j).flatMap fun s ↦ addrs s.base s.len := by
  have hsplit : u.whole = (u.iov.take j).flatMap (fun s ↦ addrs s.base s.len)
      ++ (u.iov.drop j).flatMap fun s ↦ addrs s.base s.len := by
    rw [whole, ← flatMap_append, take_append_drop]
  have hlen : u.through j = ((u.iov.take j).flatMap fun s ↦ addrs s.base s.len).length := by
    rw [length_flatMap, through]
    simp only [length_addrs]
  rw [hsplit, hlen, drop_left]

/-- What is ahead depends on how far the transfer has come only. -/
theorem rest_eq_drop (u : Uio) : u.rest = u.whole.drop u.pos := by
  rw [rest, ← whole_drop_through, drop_drop]
  rfl

theorem Moved.whole (h : u.Moved u' k) : u'.whole = u.whole := by
  rw [Uio.whole, h.iov, Uio.whole]

theorem Moved.rest (h : u.Moved u' k) : u'.rest = u.rest.drop k := by
  rw [rest_eq_drop, rest_eq_drop, h.whole, h.pos, drop_drop]

theorem Moved.refl (h : u.Inv) : u.Moved u 0 := ⟨rfl, rfl, rfl, (UInt64.add_zero _).symm, h⟩

theorem Moved.trans (h : u.Moved u' k) (h' : u'.Moved u'' l) : u.Moved u'' (k + l) where
  iov := h'.iov.trans h.iov
  pos := by rw [h'.pos, h.pos, Nat.add_assoc]
  resid := by rw [← h.resid, ← h'.resid, Nat.add_assoc, Nat.add_comm k]
  offset := by rw [h'.offset, h.offset, UInt64.ofNat_add, UInt64.add_assoc]
  inv := h'.inv

theorem through_mono (u : Uio) {i j : ℕ} (h : i ≤ j) : u.through i ≤ u.through j := by
  rw [through, through, ← Nat.add_sub_cancel' h, take_add, map_append, sum_append]
  exact Nat.le_add_right _ _

theorem through_succ {s : IoSeg} {j : ℕ} (hs : u.iov[j]? = some s) :
    u.through (j + 1) = u.through j + s.len := by
  obtain ⟨hlt, rfl⟩ := List.getElem?_eq_some_iff.1 hs
  rw [through, take_succ_eq_append_getElem hlt, map_append, through]
  simp

/-- There is a segment to go on with. -/
theorem Inv.segment (h : u.Inv) (hresid : u.resid ≠ 0) :
    ∃ s, u.iov[u.idx]? = some s ∧ u.iov.getD u.idx ⟨0, 0⟩ = s ∧ u.segOff ≤ s.len := by
  have hlt : u.idx < u.iov.length := by
    by_contra hge
    have hle := h.wf.resid_le
    rw [rest, drop_eq_nil_of_le (Nat.not_lt.1 hge)] at hle
    simp at hle
    exact hresid hle
  have hseg := h.wf.segOff_le
  rw [getD_eq_getElem _ _ hlt] at hseg
  exact ⟨_, getElem?_eq_getElem hlt, getD_eq_getElem _ _ hlt, hseg⟩

/-! ## A walk -/

/-- The walk stops where `resid` says, for all it is asked for: it is asked for no more, there is
nothing more, or the last byte is the last of a segment. -/
def Within (u : Uio) (len : ℕ) : Prop :=
  len ≤ u.resid ∨ u.resid = 0 ∨ ∃ j ∈ List.range (u.iov.length + 1), u.through j = u.pos + u.resid

instance (u : Uio) (len : ℕ) : Decidable (u.Within len) :=
  inferInstanceAs (Decidable (_ ∨ _ ∨ _))

section Round

variable {s : IoSeg}

/-- On to the next segment. -/
theorem Moved.next (h : u.Inv) (hs : u.iov[u.idx]? = some s) (hdone : s.len - u.segOff = 0) :
    u.Moved { u with idx := u.idx + 1, segOff := 0 } 0 := by
  have hlt := (List.getElem?_eq_some_iff.1 hs).1
  have hseg : u.iov.getD u.idx ⟨0, 0⟩ = s := by
    rw [getD_eq_getElem?_getD, hs, getD_some]
  have hoff := h.wf.segOff_le
  have hadv := Advances.next h.wf (by rwa [hseg])
  rw [hseg] at hoff
  exact ⟨rfl, pos_next (by rw [hseg]; omega), rfl, hadv.offset, hlt, hadv.wf⟩

/-- A piece of `n` bytes of the segment. -/
theorem Moved.piece (h : u.Inv) (hs : u.iov[u.idx]? = some s) (hn : n ≤ s.len - u.segOff)
    (hresid : n ≤ u.resid) : u.Moved (u.passed n) n ∧
      addrs ((s.base + u.segOff) % 2 ^ 64) n = u.rest.take n := by
  have hseg : u.iov.getD u.idx ⟨0, 0⟩ = s := by
    rw [getD_eq_getElem?_getD, hs, getD_some]
  obtain ⟨hadv, htake⟩ := Advances.piece h.wf (by rwa [hseg]) hresid
  rw [htake, hseg]
  exact ⟨⟨rfl, (Nat.add_assoc ..).symm, hadv.resid, hadv.offset, h.idx_le, hadv.wf⟩, rfl⟩

/-- A move of nothing changes nothing about where the transfer has to stop. -/
theorem Moved.within_zero (h : u.Moved u' 0) : u'.Within len ↔ u.Within len := by
  have hresid : u'.resid = u.resid := h.resid
  have hpos : u'.pos = u.pos := h.pos
  rw [Within, Within, hresid, hpos]
  simp only [through, h.iov]

theorem within_piece (hs : u.iov[u.idx]? = some s) (hoff : u.segOff ≤ s.len)
    (hpos : 0 < min (s.len - u.segOff) len) (hresid : min (s.len - u.segOff) len ≤ u.resid) :
    (u.passed (min (s.len - u.segOff) len)).Within (len - min (s.len - u.segOff) len) ↔
      u.Within len := by
  have hlt := (List.getElem?_eq_some_iff.1 hs).1
  have hend : u.through (u.idx + 1) = u.pos + (s.len - u.segOff) := by
    rw [through_succ hs, pos, through]
    omega
  generalize hn : min (s.len - u.segOff) len = n at hpos hresid
  have hsum : (u.passed n).pos + (u.passed n).resid = u.pos + u.resid := by
    simp only [passed, pos]
    omega
  rw [Within, hsum]
  change (len - n ≤ u.resid - n ∨ u.resid - n = 0 ∨ _) ↔ _
  constructor
  · rintro (hle | hzero | hj)
    · exact Or.inl (by omega)
    · -- the piece is the last: all that was asked for, or the rest of the segment
      by_cases hall : len ≤ u.resid
      · exact Or.inl hall
      · refine Or.inr (Or.inr ⟨u.idx + 1, mem_range.2 (by omega), ?_⟩)
        omega
    · exact Or.inr (Or.inr hj)
  · rintro (hle | hzero | hj)
    · exact Or.inl (by omega)
    · omega
    · exact Or.inr (Or.inr hj)

/-- A piece that is longer than `resid` ends inside a segment. -/
theorem not_within_of_lt (hs : u.iov[u.idx]? = some s) (hoff : u.segOff ≤ s.len)
    (hresid : u.resid ≠ 0) (hlt : u.resid < min (s.len - u.segOff) len) : ¬ u.Within len := by
  have hend : u.through (u.idx + 1) = u.pos + (s.len - u.segOff) := by
    rw [through_succ hs, pos, through]
    omega
  have hstart : u.through u.idx ≤ u.pos := Nat.le_add_right _ _
  rintro (hle | hzero | ⟨j, -, hj⟩)
  · omega
  · exact hresid hzero
  · rcases Nat.lt_or_ge u.idx j with hj' | hj'
    · have hmono : u.through (u.idx + 1) ≤ u.through j := u.through_mono hj'
      omega
    · have := u.through_mono hj'
      omega

end Round

theorem walkLoop_of_within (h : u.Inv) (hfuel : u.iov.length - u.idx + len < fuel)
    (hin : u.Within len) : ∃ u', walkLoop fuel len u = some (u.rest.take (min len u.resid), u') ∧
      u.Moved u' (min len u.resid) := by
  induction fuel generalizing len u with
  | zero => omega
  | succ fuel ih =>
    rw [walkLoop]
    split_ifs with hstop
    · have hmin : min len u.resid = 0 := by omega
      rw [hmin]
      exact ⟨u, rfl, .refl h⟩
    rw [not_or] at hstop
    obtain ⟨s, hs, -, hoff⟩ := h.segment hstop.2
    have hlt := (List.getElem?_eq_some_iff.1 hs).1
    rw [hs]
    dsimp only [bind_eq_bind, bind_some]
    rw [if_neg (by omega)]
    split_ifs with hdone hshort
    · have hnext := Moved.next h hs hdone
      obtain ⟨u', hwalk, hmoved⟩ := ih hnext.inv (by dsimp only; omega)
        (hnext.within_zero.2 hin)
      rw [hnext.rest] at hwalk
      have hall := hnext.trans hmoved
      rw [Nat.zero_add] at hall
      exact ⟨u', hwalk, hall⟩
    · exact absurd hin (not_within_of_lt hs hoff hstop.2 hshort)
    · obtain ⟨hpiece, haddrs⟩ := Moved.piece h hs (Nat.min_le_left _ len) (Nat.not_lt.1 hshort)
      have hin' := (within_piece hs hoff (by omega) (Nat.not_lt.1 hshort)).2 hin
      generalize hn : min (s.len - u.segOff) len = n at hshort hpiece haddrs hin'
      have hresid : (u.passed n).resid = u.resid - n := rfl
      obtain ⟨u', hwalk, hmoved⟩ := ih hpiece.inv (by dsimp only [passed]; omega) hin'
      have hsum : n + min (len - n) (u.passed n).resid = min len u.resid := by omega
      rw [hwalk]
      refine ⟨u', ?_, hsum ▸ hpiece.trans hmoved⟩
      dsimp only [bind_some]
      rw [haddrs, hpiece.rest, ← take_add, hsum]

theorem walkLoop_of_not_within (h : u.Inv) (hin : ¬ u.Within len) : walkLoop fuel len u = none := by
  induction fuel generalizing len u with
  | zero => rfl
  | succ fuel ih =>
    rw [walkLoop]
    split_ifs with hstop
    · rw [Within] at hin
      omega
    rw [not_or] at hstop
    obtain ⟨s, hs, -, hoff⟩ := h.segment hstop.2
    rw [hs]
    dsimp only [bind_eq_bind, bind_some]
    rw [if_neg (by omega)]
    split_ifs with hdone hshort
    · have hnext := Moved.next h hs hdone
      exact ih hnext.inv fun hnext' ↦ hin (hnext.within_zero.1 hnext')
    · rfl
    · obtain ⟨hpiece, -⟩ := Moved.piece h hs (Nat.min_le_left _ len) (Nat.not_lt.1 hshort)
      rw [ih hpiece.inv fun hin' ↦ hin ((within_piece hs hoff (by omega)
        (Nat.not_lt.1 hshort)).1 hin'), bind_none]

/-! ## Going back -/

theorem Inv.pos_le (h : u.Inv) : u.pos ≤ u.whole.length := by
  have hoff := h.wf.segOff_le
  rw [length_whole, pos]
  rcases Nat.lt_or_ge u.idx u.iov.length with hlt | hge
  · have hmono : u.through (u.idx + 1) ≤ u.through u.iov.length := u.through_mono hlt
    rw [getD_eq_getElem _ _ hlt] at hoff
    rw [through_succ (getElem?_eq_getElem hlt)] at hmono
    exact (Nat.add_le_add_left hoff _).trans hmono
  · rw [getD_eq_default _ _ hge] at hoff
    rw [Nat.le_zero.1 hoff]
    exact u.through_mono h.idx_le

/-- Back to the end of the segment before. -/
theorem moved_back (h : u.Inv) (hstart : u.segOff = 0) (hfirst : u.idx ≠ 0) :
    Moved { u with idx := u.idx - 1, segOff := (u.iov.getD (u.idx - 1) ⟨0, 0⟩).len } u 0 ∧
      Inv { u with idx := u.idx - 1, segOff := (u.iov.getD (u.idx - 1) ⟨0, 0⟩).len } := by
  have hidx := h.idx_le
  have hlt : u.idx - 1 < u.iov.length := by omega
  have hpos : u.pos = pos { u with
      idx := u.idx - 1, segOff := (u.iov.getD (u.idx - 1) ⟨0, 0⟩).len } := by
    have hsucc := through_succ (getElem?_eq_getElem hlt)
    rw [Nat.sub_add_cancel (by omega), ← getD_eq_getElem _ ⟨0, 0⟩ hlt] at hsucc
    rw [pos, hstart]
    exact hsucc
  refine ⟨⟨rfl, hpos, rfl, (UInt64.add_zero _).symm, h⟩, hlt.le, le_rfl, ?_⟩
  rw [rest_eq_drop, ← hpos]
  exact (rest_eq_drop u) ▸ h.wf.resid_le

/-- Back by `k` bytes of the segment. -/
theorem moved_unpassed (h : u.Inv) (hk : k ≤ u.segOff) :
    Moved { u with segOff := u.segOff - k, resid := u.resid + k, offset := u.offset - .ofNat k }
      u k ∧
    Inv { u with segOff := u.segOff - k, resid := u.resid + k, offset := u.offset - .ofNat k } := by
  have hpos : u.pos = pos { u with
      segOff := u.segOff - k, resid := u.resid + k, offset := u.offset - .ofNat k } + k := by
    simp only [pos]
    omega
  refine ⟨⟨rfl, hpos, rfl, (UInt64.sub_add_cancel _ _).symm, h⟩, h.idx_le,
    (Nat.sub_le _ _).trans h.wf.segOff_le, ?_⟩
  have hresid := h.wf.resid_le
  have hle := h.pos_le
  rw [rest_eq_drop, length_drop] at hresid ⊢
  change u.resid + k ≤ u.whole.length - _
  omega

theorem Moved.back {v r : Uio} (h : r.Moved v (min n v.pos)) (hback : v.Moved u k) :
    r.Moved u (min (n + k) u.pos) := by
  rw [hback.pos, Nat.add_min_add_right]
  exact h.trans hback

theorem rewindLoop_moved (h : u.Inv) (hfuel : u.idx + n ≤ fuel) :
    (rewindLoop fuel n u).Moved u (min n u.pos) ∧ (rewindLoop fuel n u).Inv := by
  induction fuel generalizing n u with
  | zero =>
    obtain rfl : n = 0 := by omega
    exact ⟨.refl h, h⟩
  | succ fuel ih =>
    rw [rewindLoop]
    split_ifs with hzero hstart hfirst
    · rw [hzero]
      exact ⟨.refl h, h⟩
    · have hpos : u.pos = 0 := by simp [pos, hstart, hfirst]
      rw [hpos, Nat.min_zero]
      exact ⟨.refl h, h⟩
    · obtain ⟨hback, hinv⟩ := moved_back h hstart hfirst
      obtain ⟨hmoved, hinv'⟩ := ih (n := n) hinv (by dsimp only; omega)
      exact ⟨hmoved.back hback, hinv'⟩
    · obtain ⟨hback, hinv⟩ := moved_unpassed h (Nat.min_le_left u.segOff n)
      obtain ⟨hmoved, hinv'⟩ := ih (n := n - min u.segOff n) hinv (by dsimp only; omega)
      have hall := hmoved.back hback
      rw [Nat.sub_add_cancel (Nat.min_le_right _ _)] at hall
      exact ⟨hall, hinv'⟩

/-- `rewind` goes back by as much as it is asked for, at most to the start. -/
theorem rewind_moved (h : u.Inv) (n : ℕ) :
    (u.rewind n).Moved u (min n u.pos) ∧ (u.rewind n).Inv :=
  rewindLoop_moved h le_rfl

/-! ## Any sequence of calls -/

/-- The calls. -/
inductive Op
  | limitResid (max : ℕ)
  | uiomove (len : ℕ)
  | skip (n : ℕ)
  | rewind (n : ℕ)
  deriving DecidableEq

def step (u : Uio) : Op → Option Uio
  | .limitResid max => some (u.limitResid max)
  | .uiomove len => (u.uiomove len).map Prod.snd
  | .skip n => u.skip n
  | .rewind n => some (u.rewind n)

theorem limitResid_inv (h : u.Inv) (max : ℕ) : (u.limitResid max).Inv :=
  ⟨h.idx_le, h.wf.segOff_le, (Nat.min_le_left _ _).trans h.wf.resid_le⟩

theorem new_inv {iov : List IoSeg} {seg : UioSeg} {offset : UInt64}
    (h : Uio.new iov seg offset = .ok u) : u.Inv := by
  refine ⟨?_, new_wf h⟩
  cases (of_ite_right h nofun).2
  exact Nat.zero_le _

/-- A walk that does not go wrong. -/
theorem walkLoop_inv (h : u.Inv) (hfuel : u.iov.length - u.idx + len < fuel)
    (hwalk : (walkLoop fuel len u).map Prod.snd = some u') : u'.Inv := by
  by_cases hin : u.Within len
  · obtain ⟨v, hv, hmoved⟩ := walkLoop_of_within h hfuel hin
    rw [hv] at hwalk
    cases hwalk
    exact hmoved.inv
  · rw [walkLoop_of_not_within h hin] at hwalk
    cases hwalk

theorem step_inv (u : Uio) (op : Op) (u' : Uio) (h : u.Inv) (hstep : u.step op = some u') :
    u'.Inv := by
  cases op with
  | limitResid max =>
    cases hstep
    exact limitResid_inv h max
  | uiomove len => exact walkLoop_inv h (Nat.lt_succ_self _) hstep
  | skip n => exact walkLoop_inv h (Nat.lt_succ_self _) hstep
  | rewind n =>
    cases hstep
    exact (rewind_moved h n).2

/-- The same place of the same segments, with as much to move. -/
structure Same (u v : Uio) : Prop where
  iov : u.iov = v.iov
  pos : u.pos = v.pos
  resid : u.resid = v.resid
  offset : u.offset = v.offset

/-- The call may be made: a walk stops where it should. -/
def Op.Allowed (u : Uio) : Op → Prop
  | .uiomove len => u.Within len
  | .skip n => u.Within n
  | _ => True

/-- What the call should do.  A move is of `min(len, resid)` bytes, the next ones of the segments,
and can be taken back to any point on its way. -/
def Op.Right (u : Uio) : Op → Prop
  | .limitResid max => (u.limitResid max).resid ≤ (u.limitResid max).rest.length
  | .uiomove len => ∃ u', u.uiomove len = some (u.rest.take (min len u.resid), u') ∧
    u.Moved u' (min len u.resid) ∧ ∀ k ≤ min len u.resid, ∃ as u'',
      u.uiomove (min len u.resid - k) = some (as, u'') ∧ (u'.rewind k).Same u''
  | .skip n => ∃ u', u.skip n = some u' ∧ u.Moved u' (min n u.resid)
  | .rewind n => (u.rewind n).Moved u (min n u.pos)

/-- Going back leads where a shorter move would have. -/
theorem rewind_same {m : ℕ} (h : u.Moved u' m) (hk : k ≤ m) (h' : u.Moved u'' (m - k)) :
    (u'.rewind k).Same u'' := by
  have hback := (rewind_moved h.inv k).1
  rw [Nat.min_eq_left (by rw [h.pos]; omega)] at hback
  have hpos := hback.pos
  have hresid := hback.resid
  refine ⟨hback.iov.symm.trans (h.iov.trans h'.iov.symm), ?_, ?_, ?_⟩
  · rw [h.pos] at hpos
    rw [h'.pos]
    omega
  · have := h.resid
    have := h'.resid
    omega
  · have hoffset := hback.offset
    rw [h.offset, ← Nat.sub_add_cancel hk, UInt64.ofNat_add, ← UInt64.add_assoc] at hoffset
    rw [h'.offset]
    exact ((UInt64.add_left_inj _).1 hoffset).symm

theorem right_iff_allowed (h : u.Inv) (op : Op) : op.Right u ↔ op.Allowed u := by
  cases op with
  | limitResid max => exact iff_true_intro (limitResid_inv h max).wf.resid_le
  | uiomove len =>
    constructor
    · rintro ⟨u', hmove, -⟩
      by_contra hin
      rw [uiomove, walkLoop_of_not_within h hin] at hmove
      cases hmove
    · intro hin
      obtain ⟨u', hmove, hmoved⟩ := walkLoop_of_within h (Nat.lt_succ_self _) hin
      refine ⟨u', hmove, hmoved, fun k hk ↦ ?_⟩
      obtain ⟨u'', hshort, hmoved'⟩ := walkLoop_of_within h (Nat.lt_succ_self _)
        (Or.inl (by omega : min len u.resid - k ≤ u.resid))
      rw [Nat.min_eq_left (by omega)] at hmoved'
      exact ⟨_, u'', hshort, rewind_same hmoved hk hmoved'⟩
  | skip n =>
    constructor
    · rintro ⟨u', hskip, -⟩
      by_contra hin
      rw [skip, walkLoop_of_not_within h hin] at hskip
      cases hskip
    · intro hin
      obtain ⟨u', hmove, hmoved⟩ := walkLoop_of_within h (Nat.lt_succ_self _) hin
      exact ⟨u', by rw [skip, hmove, map_some], hmoved⟩
  | rewind n => exact iff_true_intro (rewind_moved h n).1

/-- **The accounts of a transfer.**  After any calls, no more is to be moved than the segments hold,
and the next call does what it should exactly if it stops where `resid` says. -/
theorem run_accounts_iff {iov : List IoSeg} {seg : UioSeg} {offset : UInt64} {u₀ : Uio}
    {ops : List Op} (hnew : Uio.new iov seg offset = .ok u₀)
    (hrun : Machine.run step u₀ ops = some u) :
    u.resid ≤ u.rest.length ∧ ∀ op : Op, op.Right u ↔ op.Allowed u := by
  have hinv : u.Inv := Machine.run_keeps step_inv (new_inv hnew) hrun
  exact ⟨hinv.wf.resid_le, right_iff_allowed hinv⟩

/-- Two buffers, of which six bytes are to be moved, after a move of five and a step back of two. -/
theorem run_accounts_iff_shortened :
    Uio.new [⟨0x1000, 4⟩, ⟨0x2000, 8⟩] .user 0
      = .ok ⟨[⟨0x1000, 4⟩, ⟨0x2000, 8⟩], 0, 0, 12, 0, .user⟩ ∧
    Machine.run step ⟨[⟨0x1000, 4⟩, ⟨0x2000, 8⟩], 0, 0, 12, 0, .user⟩
        [.limitResid 6, .uiomove 5, .rewind 2]
      = some ⟨[⟨0x1000, 4⟩, ⟨0x2000, 8⟩], 0, 3, 3, 3, .user⟩ ∧
    3 ≤ (Uio.mk [⟨0x1000, 4⟩, ⟨0x2000, 8⟩] 0 3 3 3 .user).rest.length ∧
    ∀ op : Op, op.Right ⟨[⟨0x1000, 4⟩, ⟨0x2000, 8⟩], 0, 3, 3, 3, .user⟩ ↔
      op.Allowed ⟨[⟨0x1000, 4⟩, ⟨0x2000, 8⟩], 0, 3, 3, 3, .user⟩ := by
  have hnew : new [⟨0x1000, 4⟩, ⟨0x2000, 8⟩] .user 0
      = .ok ⟨[⟨0x1000, 4⟩, ⟨0x2000, 8⟩], 0, 0, 12, 0, .user⟩ := rfl
  have hrun : Machine.run step ⟨[⟨0x1000, 4⟩, ⟨0x2000, 8⟩], 0, 0, 12, 0, .user⟩
        [.limitResid 6, .uiomove 5, .rewind 2]
      = some ⟨[⟨0x1000, 4⟩, ⟨0x2000, 8⟩], 0, 3, 3, 3, .user⟩ := by decide +kernel
  exact ⟨hnew, hrun, run_accounts_iff hnew hrun⟩

/-- A write of ten bytes cut to three by `limit_resid`: a `uiomove` of a buffer of ten takes a piece
of ten, seven more than there are to move. -/
theorem uiomove_past_limit : ∃ u₀ u, Uio.new [⟨0x1000, 10⟩] .user 0 = .ok u₀ ∧
    Machine.run step u₀ [.limitResid 3] = some u ∧ u.resid = 3 ∧ u.uiomove 10 = none ∧
    ¬ (Op.uiomove 10).Right u := by
  refine ⟨_, _, rfl, rfl, rfl, rfl, ?_⟩
  rintro ⟨u', hmove, -⟩
  cases hmove

end OxideBSD.Kern.Uio
