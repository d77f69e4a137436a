import OxideBSD.Memory.AddressSpace

/-!
# Copy-on-write accounting

How many private leaves map a frame is what `refs` counts, less one, and who may write a frame is
settled by it.

* `Sound` is the invariant: the counts are right, every frame of the machine is in exactly one
  place (free, another owner's, or mapped privately), and a leaf that may be written has its frame
  to itself.
* One lemma for each thing that can happen to an entry: `Sound.relabel`, `Sound.other`,
  `Sound.drop`, `Sound.fresh`, `Sound.share`.  Every path of the source is built of these.
* **`run_cow_accounting`** puts them together for whole runs.
-/

set_option autoImplicit false

namespace OxideBSD.AddressSpace

open Function References List Option AList

variable {t : Tables} {k k' : Key} {l l' m : Leaf} {e : Entry} {f : Frame} {refs : Frame → Nat}
  {free others : List Frame} {n : Nat} {X : Nat → Prop} {s s' : St}

/-! ## Private leaves -/

/-- `k` is a private leaf. -/
def Own (t : Tables) (k : Key) (l : Leaf) : Prop :=
  t.lookup k = some (.leaf l) ∧ l.shared = false

/-- The number of private leaves, present or `PROT_NONE`, that map the frame. -/
def leaves (t : Tables) (f : Frame) : Nat := tally t (Entry.maps f)

/-- No other private leaf maps the frame of `k`. -/
def Sole (t : Tables) (k : Key) (f : Frame) : Prop := ∀ k' l', Own t k' l' → l'.frame = f → k' = k

theorem own_insert :
    Own (t.insert k e) k' l ↔ if k' = k then e = .leaf l ∧ l.shared = false else Own t k' l := by
  unfold Own
  split
  case isTrue h => rw [h, lookup_insert, some.injEq]
  case isFalse h => rw [lookup_insert_ne h]

theorem own_erase : Own (t.erase k) k' l ↔ k' ≠ k ∧ Own t k' l := by
  unfold Own
  by_cases h : k' = k
  · rw [h]
    simp
  · simp [h]

theorem Own.unique (h : Own t k l) (h' : Own t k l') : l = l' := by
  have := h.1.symm.trans h'.1
  simpa using this

/-- How much the entry at `k` counts for the frame. -/
def countAt (t : Tables) (k : Key) (f : Frame) : Nat :=
  if (t.lookup k).any (Entry.maps f) then 1 else 0

theorem leaves_erase (t : Tables) (k : Key) (f : Frame) :
    leaves (t.erase k) f + countAt t k f = leaves t f := by
  unfold leaves countAt
  cases h : t.lookup k with
  | none => simp [tally_erase_of_none h]
  | some v => simpa using tally_erase h (Entry.maps f)

theorem leaves_insert (t : Tables) (k : Key) (e : Entry) (f : Frame) :
    leaves (t.insert k e) f + countAt t k f = leaves t f + if e.maps f then 1 else 0 := by
  have h := leaves_erase t k f
  have hput := tally_put t k e (Entry.maps f)
  unfold leaves at *
  omega

theorem countAt_of_own (h : Own t k l) (f : Frame) :
    countAt t k f = if l.frame = f then 1 else 0 := by
  simp [countAt, h.1, Entry.maps, h.2]

theorem countAt_of_not_own (h : ∀ l, ¬ Own t k l) (f : Frame) : countAt t k f = 0 := by
  unfold countAt
  cases hk : t.lookup k with
  | none => rfl
  | some e =>
    cases e with
    | file _ _ => rfl
    | leaf l =>
      have hl : l.shared = true := by
        by_contra hl
        exact h l ⟨hk, by simpa using hl⟩
      simp [Entry.maps, hl]

theorem leaves_pos_of_own (h : Own t k l) : 0 < leaves t l.frame := by
  have := leaves_erase t k l.frame
  rw [countAt_of_own h, if_pos rfl] at this
  omega

theorem sole_of_leaves (h : Own t k l) (hone : leaves t l.frame = 1) : Sole t k l.frame := by
  intro k' l' h' hf
  by_contra hne
  have herase := leaves_erase t k l.frame
  rw [countAt_of_own h, if_pos rfl] at herase
  have hpos := leaves_pos_of_own (own_erase.2 ⟨hne, h'⟩)
  rw [hf] at hpos
  omega

/-! ## The invariant -/

/-- The leaf must have its frame to itself: it may be written, or it is the scratch page, which is
shared only while fork copies it.  `X` are the address spaces fork is copying. -/
def Alone (X : Nat → Prop) (k : Key) (l : Leaf) : Prop :=
  l.writable = true ∨ (l.cow = true ∧ l.protNone = false ∧ k.2 = faultScratch ∧ ¬ X k.1)

/-- Only private pages are copy-on-write, and the page cache's pages are shared. -/
def Leaf.Tame (l : Leaf) : Prop :=
  (l.cow = true → l.shared = false) ∧ (l.cached = true → l.shared = true)

/-- The accounting of the tables `t` on a machine with `n` frames. -/
structure Sound (X : Nat → Prop) (n : Nat) (t : Tables) (refs : Frame → Nat)
    (free others : List Frame) : Prop where
  refs_eq : ∀ f, refs f = leaves t f - 1
  home : ∀ f, free.count f + others.count f + min (leaves t f) 1 = if f < n then 1 else 0
  sole : ∀ k l, Own t k l → Alone X k l → Sole t k l.frame
  tame : ∀ k l, t.lookup k = some (.leaf l) → l.Tame

namespace Sound

/-- A private page keeps its frame and changes its flags. -/
theorem relabel (h : Sound X n t refs free others) (hown : Own t k l) (hframe : m.frame = l.frame)
    (hshared : m.shared = false) (hcached : m.cached = l.cached)
    (hsole : Alone X k m → Sole t k l.frame) :
    Sound X n (t.insert k (.leaf m)) refs free others := by
  have hleaves : ∀ f, leaves (t.insert k (.leaf m)) f = leaves t f := by
    intro f
    have := leaves_insert t k (.leaf m) f
    rw [countAt_of_own hown] at this
    simp only [Entry.maps, hshared, hframe, Bool.not_false, Bool.true_and, beq_iff_eq] at this
    omega
  have hback : ∀ k' x, Own (t.insert k (.leaf m)) k' x → ∃ y, Own t k' y ∧ y.frame = x.frame := by
    intro k' x hx
    rw [own_insert] at hx
    split at hx
    case isTrue hk =>
      cases hx.1
      exact ⟨l, hk ▸ hown, hframe.symm⟩
    case isFalse => exact ⟨x, hx, rfl⟩
  refine ⟨fun f ↦ by rw [hleaves, h.refs_eq], fun f ↦ by rw [hleaves, h.home], ?_, ?_⟩
  · intro k' x hx hflags j y hy hf
    obtain ⟨y', hy', hyf⟩ := hback j y hy
    rw [own_insert] at hx
    split at hx
    case isTrue hk =>
      subst hk
      cases hx.1
      exact hsole hflags j y' hy' (by rw [hyf, hf, hframe])
    case isFalse => exact h.sole k' x hx hflags j y' hy' (by rw [hyf, hf])
  · intro k' x hx
    by_cases hk : k' = k
    · subst hk
      rw [lookup_insert] at hx
      cases hx
      refine ⟨fun _ ↦ hshared, fun hc ↦ ?_⟩
      have := (h.tame k' l hown.1).2 (hcached ▸ hc)
      simp [hown.2] at this
    · rw [lookup_insert_ne hk] at hx
      exact h.tame k' x hx

/-- Tables with the same private leaves elsewhere and none at `k`. -/
theorem replace (h : Sound X n t refs free others) {t' : Tables} (hnot : ∀ l, ¬ Own t k l)
    (hleaves : ∀ f, leaves t' f = leaves t f)
    (hlook : ∀ k', k' ≠ k → t'.lookup k' = t.lookup k') (hnot' : ∀ l, ¬ Own t' k l)
    (htame : ∀ l, t'.lookup k = some (.leaf l) → l.Tame) : Sound X n t' refs free others := by
  have hown : ∀ k' x, Own t' k' x ↔ Own t k' x := by
    intro k' x
    by_cases hk : k' = k
    · subst hk
      exact iff_of_false (hnot' x) (hnot x)
    · unfold Own
      rw [hlook k' hk]
  refine ⟨fun f ↦ by rw [hleaves, h.refs_eq], fun f ↦ by rw [hleaves, h.home], ?_, ?_⟩
  · intro k' x hx hflags j y hy hf
    exact h.sole k' x ((hown k' x).1 hx) hflags j y ((hown j y).1 hy) hf
  · intro k' x hx
    by_cases hk : k' = k
    · subst hk
      exact htame x hx
    · rw [hlook k' hk] at hx
      exact h.tame k' x hx

/-- An entry without a private frame of its own takes the place of another such, or of none. -/
theorem other (h : Sound X n t refs free others) (hnot : ∀ l, ¬ Own t k l)
    (he : ∀ l, e = .leaf l → l.shared = true ∧ l.cow = false) :
    Sound X n (t.insert k e) refs free others := by
  have hmaps : ∀ f, e.maps f = false := by
    intro f
    cases e with
    | file _ _ => rfl
    | leaf l => simp [Entry.maps, (he l rfl).1]
  refine h.replace hnot (fun f ↦ ?_) (fun k' hk ↦ lookup_insert_ne hk) (fun l hl ↦ ?_)
    fun l hl ↦ ?_
  · have := leaves_insert t k e f
    rw [countAt_of_not_own hnot, hmaps f] at this
    simpa using this
  · rw [own_insert, if_pos rfl] at hl
    simp [(he l hl.1).1] at hl
  · rw [lookup_insert] at hl
    obtain ⟨hshared, hcow⟩ := he l (some.inj hl)
    exact ⟨fun hc ↦ by simp [hcow] at hc, fun _ ↦ hshared⟩

/-- An entry without a private frame goes. -/
theorem forget (h : Sound X n t refs free others) (hnot : ∀ l, ¬ Own t k l) :
    Sound X n (t.erase k) refs free others := by
  refine h.replace hnot (fun f ↦ ?_) (fun k' hk ↦ lookup_erase_ne hk) (fun l hl ↦ ?_)
    fun l hl ↦ ?_
  · have := leaves_erase t k f
    rw [countAt_of_not_own hnot] at this
    simpa using this
  · exact (own_erase.1 hl).1 rfl
  · rw [lookup_erase] at hl
    cases hl

/-- A private page goes: what is left of the tables, less one leaf of its frame. -/
theorem erase (h : Sound X n t refs free others) {refs' : Frame → Nat} {free' : List Frame}
    (hrefs : ∀ f, refs' f = leaves (t.erase k) f - 1)
    (hhome : ∀ f, free'.count f + others.count f + min (leaves (t.erase k) f) 1 =
      free.count f + others.count f + min (leaves t f) 1) :
    Sound X n (t.erase k) refs' free' others := by
  refine ⟨hrefs, fun f ↦ by rw [hhome, h.home], ?_, ?_⟩
  · intro k' x hx hflags j y hy hf
    exact h.sole k' x (own_erase.1 hx).2 hflags j y (own_erase.1 hy).2 hf
  · intro k' x hx
    by_cases hk : k' = k
    · rw [hk, lookup_erase] at hx
      cases hx
    · rw [lookup_erase_ne hk] at hx
      exact h.tame k' x hx

theorem leaves_erase_own (hown : Own t k l) (f : Frame) :
    leaves (t.erase k) f + (if l.frame = f then 1 else 0) = leaves t f := by
  rw [← countAt_of_own hown]
  exact leaves_erase t k f

/-- The last leaf of a frame goes, and the frame goes back to the allocator. -/
theorem dropLast (h : Sound X n t refs free others) (hown : Own t k l) (hzero : refs l.frame = 0) :
    Sound X n (t.erase k) refs (l.frame :: free) others := by
  have hone : leaves t l.frame = 1 := by
    have := leaves_pos_of_own hown
    have := h.refs_eq l.frame
    omega
  refine h.erase (fun f ↦ ?_) fun f ↦ ?_
  · have hleaves := leaves_erase_own hown f
    have hrefs := h.refs_eq f
    by_cases hf : l.frame = f
    · subst hf
      omega
    · rw [if_neg hf] at hleaves
      omega
  · have hleaves := leaves_erase_own hown f
    rw [count_cons]
    by_cases hf : l.frame = f
    · subst hf
      simp only [beq_self_eq_true] at hleaves ⊢
      omega
    · simp only [if_neg hf, beq_eq_false_iff_ne.2 hf] at hleaves ⊢
      simp only [Bool.false_eq_true, if_false]
      omega

/-- One of the leaves that share a frame goes. -/
theorem dropShared (h : Sound X n t refs free others) (hown : Own t k l)
    (hpos : refs l.frame ≠ 0) :
    Sound X n (t.erase k) (update refs l.frame (refs l.frame - 1)) free others := by
  have hrefs := h.refs_eq l.frame
  refine h.erase (fun f ↦ ?_) fun f ↦ ?_
  · have hleaves := leaves_erase_own hown f
    rw [update_apply]
    by_cases hf : f = l.frame
    · subst hf
      rw [if_pos rfl] at hleaves ⊢
      omega
    · rw [if_neg hf, h.refs_eq f]
      rw [if_neg (Ne.symm hf)] at hleaves
      omega
  · have hleaves := leaves_erase_own hown f
    by_cases hf : l.frame = f
    · subst hf
      rw [if_pos rfl] at hleaves
      omega
    · rw [if_neg hf] at hleaves
      omega

/-- A frame just allocated holds no private page yet. -/
theorem leaves_of_free (h : Sound X n t refs free others) (hf : f ∈ free) : leaves t f = 0 := by
  have hhome := h.home f
  have hcount := count_pos_iff.2 hf
  split at hhome <;> omega

theorem not_own_of_free (h : Sound X n t refs free others) (hf : f ∈ free) (hown : Own t k l) :
    l.frame ≠ f := by
  intro hl
  have := leaves_pos_of_own hown
  rw [hl, h.leaves_of_free hf] at this
  exact Nat.lt_irrefl 0 this

/-- A frame just allocated becomes a private page. -/
theorem fresh (h : Sound X n t refs free others) (hnot : ∀ l, ¬ Own t k l) (hf : f ∈ free)
    (hframe : l.frame = f) (hshared : l.shared = false) (hcached : l.cached = false) :
    Sound X n (t.insert k (.leaf l)) refs (free.erase f) others := by
  have hleaves : ∀ g, leaves (t.insert k (.leaf l)) g = leaves t g + if f = g then 1 else 0 := by
    intro g
    have := leaves_insert t k (.leaf l) g
    rw [countAt_of_not_own hnot] at this
    simpa [Entry.maps, hshared, hframe] using this
  have hzero := h.leaves_of_free hf
  refine ⟨fun g ↦ ?_, fun g ↦ ?_, ?_, ?_⟩
  · rw [hleaves, h.refs_eq]
    split
    case isTrue hg => rw [← hg, hzero]
    case isFalse => rfl
  · have hhome := h.home g
    have hcount := count_pos_iff.2 hf
    rw [hleaves, count_erase]
    by_cases hg : f = g
    · subst hg
      simp only [if_true, beq_self_eq_true]
      omega
    · simp only [if_neg hg, beq_eq_false_iff_ne.2 hg, Bool.false_eq_true, if_false]
      omega
  · intro k' x hx hflags j y hy hj
    rw [own_insert] at hx hy
    split at hx
    case isTrue hk =>
      split at hy
      case isTrue hjk => rw [hjk, hk]
      case isFalse =>
        cases hx.1
        exact absurd (hj.trans hframe) (h.not_own_of_free hf hy)
    case isFalse =>
      split at hy
      case isTrue =>
        cases hy.1
        exact absurd (hj.symm.trans hframe) (h.not_own_of_free hf hx)
      case isFalse => exact h.sole k' x hx hflags j y hy hj
  · intro k' x hx
    by_cases hk : k' = k
    · rw [hk, lookup_insert] at hx
      cases hx
      exact ⟨fun _ ↦ hshared, fun hc ↦ by simp [hcached] at hc⟩
    · rw [lookup_insert_ne hk] at hx
      exact h.tame k' x hx

/-- Another leaf for the frame of a private page that nobody may write. -/
theorem share (h : Sound X n t refs free others) (hown : Own t k l) (hnot : ∀ l, ¬ Own t k' l)
    (halone : ¬ Alone X k l) (halone' : ¬ Alone X k' l) :
    Sound X n (t.insert k' (.leaf l)) (update refs l.frame (refs l.frame + 1)) free others := by
  have hleaves : ∀ g,
      leaves (t.insert k' (.leaf l)) g = leaves t g + if l.frame = g then 1 else 0 := by
    intro g
    have := leaves_insert t k' (.leaf l) g
    rw [countAt_of_not_own hnot] at this
    simpa [Entry.maps, hown.2] using this
  have hpos := leaves_pos_of_own hown
  refine ⟨fun g ↦ ?_, fun g ↦ ?_, ?_, ?_⟩
  · rw [hleaves, update_apply]
    by_cases hg : g = l.frame
    · subst hg
      rw [if_pos rfl, if_pos rfl, h.refs_eq]
      omega
    · rw [if_neg hg, if_neg (Ne.symm hg), h.refs_eq, Nat.add_zero]
  · rw [hleaves, ← h.home g]
    by_cases hg : l.frame = g
    · subst hg
      omega
    · rw [if_neg hg, Nat.add_zero]
  · intro j x hx hflags i y hy hi
    rw [own_insert] at hx hy
    split at hx
    case isTrue hj =>
      cases hx.1
      subst hj
      exact absurd hflags halone'
    case isFalse hj =>
      split at hy
      case isFalse => exact h.sole j x hx hflags i y hy hi
      case isTrue =>
        -- Its frame is that of `k`, which then is `j` itself.
        cases hy.1
        have hkj := h.sole j x hx hflags k l hown hi
        subst hkj
        cases hown.unique hx
        exact absurd hflags halone
  · intro j x hx
    by_cases hj : j = k'
    · rw [hj, lookup_insert] at hx
      cases hx
      exact h.tame k l hown.1
    · rw [lookup_insert_ne hj] at hx
      exact h.tame j x hx

/-- Frames move between the allocator and the other owners. -/
theorem move (h : Sound X n t refs free others) {free' others' : List Frame}
    (hcount : ∀ f, free'.count f + others'.count f = free.count f + others.count f) :
    Sound X n t refs free' others' :=
  ⟨h.refs_eq, fun f ↦ by rw [hcount, h.home], h.sole, h.tame⟩

theorem mono (h : Sound X n t refs free others) {Y : Nat → Prop} (hXY : ∀ sp, X sp → Y sp) :
    Sound Y n t refs free others :=
  ⟨h.refs_eq, h.home, fun k l hown halone ↦ h.sole k l hown
    (halone.imp_right fun ⟨hcow, hpresent, hk, hY⟩ ↦ ⟨hcow, hpresent, hk, fun hX ↦ hY (hXY _ hX)⟩),
    h.tame⟩

theorem sole_of_refs (h : Sound X n t refs free others) (hown : Own t k l)
    (hzero : refs l.frame = 0) : Sole t k l.frame := by
  refine sole_of_leaves hown ?_
  have := leaves_pos_of_own hown
  have := h.refs_eq l.frame
  omega

end Sound

/-! ## The paths that drop, fill and protect pages -/

/-- The accounting of a state. -/
def Good (X : Nat → Prop) (n : Nat) (s : St) : Prop :=
  Sound X n s.tables s.refs s.free (s.lost ++ (s.held ++ s.cache))

theorem not_own_of_lookup (h : t.lookup k = none) (l : Leaf) : ¬ Own t k l := by
  simp [Own, h]

theorem not_own_of_shared (h : t.lookup k = some (.leaf l)) (hl : l.shared = true) (l' : Leaf) :
    ¬ Own t k l' := by
  rintro ⟨hk, hl'⟩
  cases h.symm.trans hk
  simp [hl] at hl'

theorem not_own_of_file {id page : Nat} (h : t.lookup k = some (.file id page)) (l : Leaf) :
    ¬ Own t k l := by
  simp [Own, h]

theorem tables_releaseFrame (s : St) (f : Frame) : (releaseFrame s f).tables = s.tables := by
  unfold releaseFrame
  split <;> rfl

theorem lookup_dropEntry (s : St) (k k' : Key) :
    (dropEntry s k).tables.lookup k' = if k' = k then none else s.tables.lookup k' := by
  have hraw : (s.tables.erase k).lookup k' = if k' = k then none else s.tables.lookup k' := by
    split
    case isTrue h => rw [h, lookup_erase]
    case isFalse h => rw [lookup_erase_ne h]
  unfold dropEntry
  split
  · split
    · exact hraw
    · simp only [tables_releaseFrame]
      exact hraw
  · exact hraw
  case h_3 hk =>
    split
    case isTrue h => rw [h, hk]
    case isFalse => rfl

theorem good_dropEntry (h : Good X n s) (k : Key) : Good X n (dropEntry s k) := by
  unfold dropEntry
  split
  case h_1 l hk =>
    by_cases hl : l.shared = true
    · rw [if_pos hl]
      exact Sound.forget h (not_own_of_shared hk hl)
    · rw [if_neg hl]
      have hown : Own s.tables k l := ⟨hk, by simpa using hl⟩
      unfold releaseFrame release
      by_cases hzero : s.refs l.frame = 0
      · simp only [if_pos hzero]
        exact Sound.dropLast h hown hzero
      · simp only [if_neg hzero]
        exact Sound.dropShared h hown hzero
  case h_2 hk => exact Sound.forget h (not_own_of_file hk)
  case h_3 => exact h

theorem good_dropAll (sp : Nat) (vas : List Nat) (h : Good X n s) :
    Good X n (vas.foldl (fun s va ↦ dropEntry s (sp, va)) s) := by
  induction vas generalizing s with
  | nil => exact h
  | cons va vas ih => exact ih (good_dropEntry h _)

theorem lookup_dropAll (sp : Nat) (vas : List Nat) (s : St) (k : Key) :
    (vas.foldl (fun s va ↦ dropEntry s (sp, va)) s).tables.lookup k =
      if k.1 = sp ∧ k.2 ∈ vas then none else s.tables.lookup k := by
  induction vas generalizing s with
  | nil => simp
  | cons va vas ih =>
    rw [foldl_cons, ih, lookup_dropEntry]
    grind

theorem mem_pagesOf {sp va : Nat} : va ∈ pagesOf s sp ↔ (s.tables.lookup (sp, va)).isSome := by
  rw [pagesOf, Perm.mem_iff (perm_insertionSort _ _), AList.lookup_isSome, AList.mem_keys]
  simp only [List.mem_map, mem_filter]
  grind

theorem good_freeTable (h : Good X n s) (sp : Nat) : Good X n (freeTable s sp) :=
  good_dropAll sp _ h

theorem lookup_freeTable (s : St) (sp : Nat) (k : Key) :
    (freeTable s sp).tables.lookup k = if k.1 = sp then none else s.tables.lookup k := by
  rw [freeTable, lookup_dropAll]
  by_cases hk : k.1 = sp
  · by_cases hmem : k.2 ∈ pagesOf s sp
    · rw [if_pos ⟨hk, hmem⟩, if_pos hk]
    · rw [if_neg fun hk' ↦ hmem hk'.2, if_pos hk]
      rw [mem_pagesOf, ← hk] at hmem
      simpa using hmem
  · rw [if_neg fun hk' ↦ hk hk'.1, if_neg hk]

theorem good_munmap (h : Good X n s) (sp : Nat) (vas : List Nat) : Good X n (munmap s sp vas) := by
  unfold munmap
  split
  · exact h
  · exact good_dropAll sp vas h

/-! ### Faults and mappings -/

theorem allocate_eq_some {got : Option Frame} (h : allocate s got = some (f, s')) :
    f ∈ s.free ∧ s' = { s with free := s.free.erase f } := by
  unfold allocate at h
  split at h
  · obtain ⟨hf, ⟨⟩⟩ := of_ite_right h nofun
    exact ⟨hf, rfl⟩
  · cases h

theorem insert_erase_self (t : Tables) (k : Key) (e : Entry) :
    (t.erase k).insert k e = t.insert k e := by
  refine AList.ext ?_
  rw [entries_insert]
  exact congrArg _ (kerase_of_notMem_keys (notMem_keys_kerase k t.nodupKeys))

/-- A private page that shares its frame gets a frame of its own. -/
theorem Sound.copy (h : Sound X n t refs free others) (hown : Own t k l) (hpos : refs l.frame ≠ 0)
    (hf : f ∈ free) (hframe : m.frame = f) (hshared : m.shared = false)
    (hcached : m.cached = false) :
    Sound X n (t.insert k (.leaf m)) (update refs l.frame (refs l.frame - 1)) (free.erase f)
      others := by
  have := (h.dropShared hown hpos).fresh (fun x hx ↦ (own_erase.1 hx).1 rfl) hf hframe hshared
    hcached
  rwa [insert_erase_self] at this

theorem Sound.cached_of_own (h : Sound X n t refs free others) (hown : Own t k l) :
    l.cached = false := by
  have := (h.tame k l hown.1).2
  rw [hown.2] at this
  simpa using this

theorem good_tryResolveCow (h : Good X n s) (k : Key) (got : Option Frame) :
    Good X n (tryResolveCow s k got) := by
  unfold tryResolveCow
  split
  case h_1 l hk =>
    by_cases hcow : (l.protNone || !l.cow) = true
    · rw [if_pos hcow]
      exact h
    · rw [if_neg hcow]
      have hown : Own s.tables k l := ⟨hk, (h.tame k l hk).1 (by simp_all)⟩
      by_cases hsole : s.refs l.frame = 0
      · rw [if_pos (by simpa [soleOwner] using hsole)]
        exact Sound.relabel h hown rfl hown.2 rfl fun _ ↦ h.sole_of_refs hown hsole
      · rw [if_neg (by simpa [soleOwner] using hsole)]
        split
        · exact h
        case h_2 new s' halloc =>
          obtain ⟨hnew, rfl⟩ := allocate_eq_some halloc
          simp only [releaseFrame, release, if_neg hsole]
          have hcached := h.cached_of_own hown
          exact Sound.copy h hown hsole hnew rfl hown.2 hcached
  case h_2 => exact h

/-- The frame goes to another owner. -/
theorem Sound.lose (h : Sound X n t refs free others) (hf : f ∈ free) :
    Sound X n t refs (free.erase f) (f :: others) := by
  refine h.move fun g ↦ ?_
  have hpos := count_pos_iff.2 hf
  rw [count_erase, count_cons]
  by_cases hg : f = g
  · subst hg
    simp only [beq_self_eq_true, if_true]
    omega
  · simp only [beq_eq_false_iff_ne.2 hg, Bool.false_eq_true, if_false]
    omega

theorem good_mapFresh (h : Good X n s) (k : Key) (writable : Bool) (got : Option Frame)
    (tables : Bool) (d : Nat) : Good X n (mapFresh s k writable got tables d).1 := by
  unfold mapFresh
  split
  · exact h
  case h_2 f s' halloc =>
    obtain ⟨hf, rfl⟩ := allocate_eq_some halloc
    split
    case isTrue hslot =>
      have hnone : s.tables.lookup k = none := by
        simp only [Bool.and_eq_true, isNone_iff_eq_none] at hslot
        exact hslot.2
      exact Sound.fresh h (not_own_of_lookup hnone) hf rfl rfl rfl
    case isFalse => exact Sound.lose h hf

theorem good_touch (h : Good X n s) (k : Key) (writable : Bool) (got : Option Frame)
    (tables : Bool) : Good X n (touch s k writable got tables) := by
  unfold touch
  split
  · exact h
  · exact good_mapFresh h k writable got tables 0

theorem good_fillFile (h : Good X n s) (k : Key) (id page : Nat) (f : Frame) :
    Good X n (fillFile s k id page f) := by
  unfold fillFile
  split
  case isTrue hk =>
    refine Sound.other h (not_own_of_file hk) fun l hl ↦ ?_
    cases hl
    exact ⟨rfl, rfl⟩
  case isFalse => exact h

theorem good_mapPage (h : Good X n s) (k : Key) (writable tables : Bool) (b : Backing) :
    Good X n (mapPage s k writable tables b).1 := by
  have hnone : (tables && (s.tables.lookup k).isNone) = true → s.tables.lookup k = none := by
    simp
  cases b with
  | own got d => exact good_mapFresh h k writable got tables d
  | _ =>
    rw [mapPage]
    split
    case isTrue hslot =>
      refine Sound.other h (not_own_of_lookup (hnone hslot)) fun l hl ↦ ?_
      cases hl
      exact ⟨rfl, rfl⟩
    case isFalse => exact h

theorem good_mapPages (sp : Nat) (writable : Bool) (pages : List (Nat × Bool × Backing))
    (h : Good X n s) : Good X n (mapPages sp writable s pages).1 := by
  induction pages generalizing s with
  | nil => exact h
  | cons p pages ih =>
    obtain ⟨va, tables, b⟩ := p
    have hpage := good_mapPage h (sp, va) writable tables b
    rw [mapPages]
    split
    case h_1 hp =>
      rw [hp] at hpage
      exact ih hpage
    case h_2 hp =>
      rw [hp] at hpage
      exact hpage

theorem good_mmapAnon (h : Good X n s) (sp : Nat) (writable : Bool)
    (pages : List (Nat × Bool × Option Frame)) : Good X n (mmapAnon s sp writable pages) := by
  unfold mmapAnon
  have hpages := good_mapPages sp writable
    (pages.map fun p ↦ (p.1, p.2.1, Backing.own p.2.2 0)) h
  split
  · exact h
  · split
    case h_1 hp =>
      rw [hp] at hpages
      exact hpages
    case h_2 hp =>
      rw [hp] at hpages
      exact good_munmap hpages sp _

/-! ### Protection -/

theorem good_mprotectPage (h : Good X n s) (hk : k.2 ≠ faultScratch) (accessible writable : Bool)
    (got : Option Frame) : Good X n (mprotectPage s k accessible writable got).1 := by
  unfold mprotectPage
  split
  case h_2 => exact h
  case h_1 l hlook =>
    have htame := h.tame k l hlook
    -- A leaf that stays shared changes nothing that is counted.
    have hshared : ∀ l' : Leaf, l.shared = true → l'.shared = true → l'.cow = l.cow →
        Good X n { s with tables := s.tables.insert k (.leaf l') } := by
      intro l' hl hl' hcow
      refine Sound.other h (not_own_of_shared hlook hl) fun x hx ↦ ?_
      cases hx
      refine ⟨hl', ?_⟩
      have := htame.1
      rw [hl] at this
      rw [hcow]
      simpa using this
    by_cases hl : l.shared = true
    · split
      · exact hshared _ hl hl rfl
      · dsimp only
        split
        · split
          · exact hshared _ hl hl rfl
          case h_2 copy s' halloc =>
            obtain ⟨hcopy, rfl⟩ := allocate_eq_some halloc
            exact Sound.fresh h (not_own_of_shared hlook hl) hcopy rfl rfl rfl
        · exact hshared _ hl hl rfl
    · have hown : Own s.tables k l := ⟨hlook, by simpa using hl⟩
      have hcached := h.cached_of_own hown
      split
      · exact Sound.relabel h hown rfl hown.2 rfl fun halone ↦ h.sole k l hown
          (.inl (halone.resolve_right fun hs ↦ hk hs.2.2.1))
      · dsimp only
        rw [if_neg (by simp [hcached]), if_neg hl]
        refine Sound.relabel h hown rfl hown.2 rfl fun halone ↦ h.sole_of_refs hown ?_
        have := halone.resolve_right fun hs ↦ hk hs.2.2.1
        simp only [Bool.and_eq_true, soleOwner, beq_iff_eq] at this
        exact this.2

theorem good_mprotectLoop (sp : Nat) (accessible writable : Bool)
    (pages : List (Nat × Option Frame)) (hpages : ∀ p ∈ pages, p.1 ≠ faultScratch)
    (h : Good X n s) : Good X n (mprotectLoop sp accessible writable s pages) := by
  induction pages generalizing s with
  | nil => exact h
  | cons p pages ih =>
    obtain ⟨va, got⟩ := p
    have hpage := good_mprotectPage h (k := (sp, va)) (hpages _ mem_cons_self) accessible
      writable got
    rw [mprotectLoop]
    split
    case h_1 hp =>
      rw [hp] at hpage
      exact ih (fun p hp ↦ hpages p (mem_cons_of_mem _ hp)) hpage
    case h_2 hp =>
      rw [hp] at hpage
      exact hpage

theorem good_mprotect (h : Good X n s) (sp : Nat) (accessible writable : Bool)
    (pages : List (Nat × Option Frame)) : Good X n (mprotect s sp accessible writable pages) := by
  unfold mprotect
  split
  case isTrue => exact h
  case isFalse hnone =>
    refine good_mprotectLoop sp accessible writable pages (fun p hp hva ↦ hnone ?_) h
    exact any_eq_true.2 ⟨p, hp, by simp [kernelPage, hva]⟩

/-! ## Fork

While fork copies, only the parent's and the child's scratch pages may share a frame that a leaf
of theirs could write.  That the copy is complete, or is undone, ends this. -/

variable {parent child va room : Nat} {vas : List Nat} {got : Option Frame}

theorem Sound.narrow (h : Sound X n t refs free others)
    (hX : ∀ sp l, X sp → Own t (sp, faultScratch) l → l.cow = true → l.protNone = false →
      Sole t (sp, faultScratch) l.frame) : Sound (fun _ ↦ False) n t refs free others := by
  refine ⟨h.refs_eq, h.home, fun k l hown halone ↦ ?_, h.tame⟩
  obtain ⟨sp, va⟩ := k
  rcases halone with halone | ⟨hcow, hpresent, hk, -⟩
  · exact h.sole _ l hown (.inl halone)
  · cases hk
    by_cases hsp : X sp
    · exact hX sp l hsp hown hcow hpresent
    · exact h.sole _ l hown (.inr ⟨hcow, hpresent, rfl, hsp⟩)

/-- Fork has copied the pages of `parent` that are not in `rest`. -/
structure Copying (t : Tables) (parent child : Nat) (rest : List Nat) : Prop where
  twin : ∀ l, Own t (parent, faultScratch) l →
    l.writable = true ∨ (l.cow = true ∧ l.protNone = false) →
    ∀ k x, Own t k x → x.frame = l.frame → k = (parent, faultScratch) ∨ k = (child, faultScratch)
  done : ∀ va, va ∉ rest → t.lookup (child, va) = t.lookup (parent, va)
  todo : ∀ va ∈ rest, t.lookup (child, va) = none

theorem Copying.start (h : Good (fun _ ↦ False) n s) (hempty : pagesOf s child = []) :
    Copying s.tables parent child (pagesOf s parent) := by
  have hnone : ∀ va, s.tables.lookup (child, va) = none := by
    intro va
    have : va ∉ pagesOf s child := by simp [hempty]
    rw [mem_pagesOf] at this
    simpa using this
  refine ⟨fun l hown hflags k x hx hf ↦ .inl (h.sole _ l hown ?_ k x hx hf), fun va hva ↦ ?_,
    fun va _ ↦ hnone va⟩
  · exact hflags.imp_right fun ⟨hcow, hpresent⟩ ↦ ⟨hcow, hpresent, rfl, not_false⟩
  · rw [mem_pagesOf, Bool.not_eq_true, isSome_eq_false_iff, isNone_iff_eq_none] at hva
    rw [hnone va, hva]

@[simp] theorem Leaf.cowFlags_frame (l : Leaf) : l.cowFlags.frame = l.frame := by
  unfold cowFlags
  split <;> rfl

@[simp] theorem Leaf.cowFlags_shared (l : Leaf) : l.cowFlags.shared = l.shared := by
  unfold cowFlags
  split <;> rfl

@[simp] theorem Leaf.cowFlags_cached (l : Leaf) : l.cowFlags.cached = l.cached := by
  unfold cowFlags
  split <;> rfl

@[simp] theorem Leaf.cowFlags_protNone (l : Leaf) : l.cowFlags.protNone = l.protNone := by
  unfold cowFlags
  split <;> rfl

@[simp] theorem Leaf.cowFlags_writable (l : Leaf) : l.cowFlags.writable = false := by
  unfold cowFlags
  split
  · rfl
  · simp_all

@[simp] theorem Leaf.cowFlags_cow (l : Leaf) : l.cowFlags.cow = (l.cow || l.writable) := by
  unfold cowFlags
  split <;> simp_all

/-- The child gets an entry that is not a private page. -/
theorem Copying.alias (h : Copying s.tables parent child (va :: vas)) (hva : va ∉ vas)
    (hne : parent ≠ child) (hlook : s.tables.lookup (parent, va) = some e)
    (he : ∀ l, e = .leaf l → l.shared = true) :
    Copying (s.tables.insert (child, va) e) parent child vas := by
  have hown : ∀ k x, Own (s.tables.insert (child, va) e) k x → Own s.tables k x := by
    intro k x hx
    rw [own_insert] at hx
    split at hx
    · simp [he x hx.1] at hx
    · exact hx
  refine ⟨fun l hl hflags k x hx hf ↦ h.twin l (hown _ _ hl) hflags k x (hown _ _ hx) hf,
    fun w hw ↦ ?_, fun w hw ↦ ?_⟩
  · rw [lookup_insert_ne (a := (parent, w)) fun hk ↦ hne (congrArg Prod.fst hk)]
    by_cases hwv : w = va
    · rw [hwv, lookup_insert, hlook]
    · rw [lookup_insert_ne fun hk ↦ hwv (congrArg Prod.snd hk)]
      exact h.done w (by simp [hwv, hw])
  · have hwv : w ≠ va := fun hwv ↦ hva (hwv ▸ hw)
    rw [lookup_insert_ne fun hk ↦ hwv (congrArg Prod.snd hk)]
    exact h.todo w (mem_cons_of_mem _ hw)

/-- Parent and child share a private page. -/
theorem Copying.shared (h : Copying s.tables parent child (va :: vas)) (hva : va ∉ vas)
    (hne : parent ≠ child) (hown : Own s.tables (parent, va) l) :
    Copying ((s.tables.insert (parent, va) (.leaf l.cowFlags)).insert (child, va)
      (.leaf l.cowFlags)) parent child vas := by
  have hkeys : (parent, va) ≠ (child, va) := fun hk ↦ hne (congrArg Prod.fst hk)
  refine ⟨fun l₀ hl₀ hflags k x hx hf ↦ ?_, fun w hw ↦ ?_, fun w hw ↦ ?_⟩
  · -- The leaf `l₁` of the scratch page before, and the leaf `y` at `k` or at the page shared.
    obtain ⟨l₁, hl₁, hframe, hflags₁⟩ : ∃ l₁, Own s.tables (parent, faultScratch) l₁ ∧
        l₁.frame = l₀.frame ∧ (l₁.writable = true ∨ (l₁.cow = true ∧ l₁.protNone = false)) := by
      rw [own_insert, if_neg fun hk ↦ hne (congrArg Prod.fst hk), own_insert] at hl₀
      split at hl₀
      case isTrue hk =>
        cases hl₀.1
        refine ⟨l, hk ▸ hown, by simp, ?_⟩
        simp only [Leaf.cowFlags_writable, Leaf.cowFlags_cow, Leaf.cowFlags_protNone] at hflags
        grind
      case isFalse => exact ⟨l₀, hl₀, rfl, hflags⟩
    have hold := (h.twin l₁ hl₁ hflags₁)
    rw [own_insert] at hx
    split at hx
    case isTrue hk =>
      cases hx.1
      have := hold _ l hown (by rw [← Leaf.cowFlags_frame, hf, hframe])
      rcases this with this | this
      · cases this
        exact .inr hk
      · exact absurd (congrArg Prod.fst this) hne
    case isFalse =>
      rw [own_insert] at hx
      split at hx
      case isTrue hk =>
        cases hx.1
        exact hk ▸ hold _ l hown (by rw [← Leaf.cowFlags_frame, hf, hframe])
      case isFalse => exact hold k x hx (hf.trans hframe.symm)
  · by_cases hwv : w = va
    · rw [hwv, lookup_insert, lookup_insert_ne hkeys, lookup_insert]
    · have hw' : ∀ p q, ((p, w) : Key) ≠ (q, va) := fun p q hk ↦ hwv (congrArg Prod.snd hk)
      rw [lookup_insert_ne (hw' _ _), lookup_insert_ne (hw' _ _),
        lookup_insert_ne (hw' _ _), lookup_insert_ne (hw' _ _)]
      exact h.done w (by simp [hwv, hw])
  · have hwv : w ≠ va := fun hwv ↦ hva (hwv ▸ hw)
    have hw' : ∀ p q, ((p, w) : Key) ≠ (q, va) := fun p q hk ↦ hwv (congrArg Prod.snd hk)
    rw [lookup_insert_ne (hw' _ _), lookup_insert_ne (hw' _ _)]
    exact h.todo w (mem_cons_of_mem _ hw)

theorem good_copyEntry (h : Good X n s) (hparent : X parent) (hchild : X child)
    (hne : parent ≠ child) (hcopying : Copying s.tables parent child (va :: vas)) (hva : va ∉ vas)
    (hcopy : copyEntry s parent child va = some s') :
    Good X n s' ∧ Copying s'.tables parent child vas := by
  have hnone := hcopying.todo va mem_cons_self
  have hfree : ∀ l, ¬ Own s.tables (child, va) l := not_own_of_lookup hnone
  unfold copyEntry at hcopy
  split at hcopy
  case h_1 l hlook =>
    by_cases hl : l.shared = true
    · rw [if_pos hl] at hcopy
      cases hcopy
      refine ⟨Sound.other h hfree fun x hx ↦ ?_, hcopying.alias hva hne hlook fun x hx ↦ ?_⟩
      · cases hx
        refine ⟨hl, ?_⟩
        have := (h.tame _ _ hlook).1
        rw [hl] at this
        simpa using this
      · cases hx
        exact hl
    · rw [if_neg hl] at hcopy
      obtain ⟨refs, hshare, rfl⟩ := map_eq_some_iff.1 hcopy
      have hown : Own s.tables (parent, va) l := ⟨hlook, by simpa using hl⟩
      refine ⟨?_, hcopying.shared hva hne hown⟩
      have halone : ∀ sp, X sp → ¬ Alone X (sp, va) l.cowFlags := by
        rintro sp hX (hw | ⟨-, -, -, hX'⟩)
        · simp at hw
        · exact hX' hX
      have hrelabel := Sound.relabel h hown (by simp) (by simp [hown.2])
        (by simp) fun ha ↦ absurd ha (halone parent hparent)
      have hown' : Own (s.tables.insert (parent, va) (.leaf l.cowFlags)) (parent, va)
          l.cowFlags := by
        rw [own_insert, if_pos rfl]
        exact ⟨rfl, by simp [hown.2]⟩
      have hkeys : (child, va) ≠ (parent, va) := fun hk ↦ hne (congrArg Prod.fst hk).symm
      have hfree' : ∀ x, ¬ Own (s.tables.insert (parent, va) (.leaf l.cowFlags)) (child, va) x := by
        intro x hx
        rw [own_insert, if_neg hkeys] at hx
        exact hfree x hx
      cases (of_ite_right hshare nofun).2
      have := hrelabel.share hown' hfree' (halone parent hparent) (halone child hchild)
      rw [Leaf.cowFlags_frame] at this
      exact this
  case h_2 hlook =>
    cases hcopy
    refine ⟨Sound.other h hfree fun x hx ↦ ?_, hcopying.alias hva hne hlook fun x hx ↦ ?_⟩ <;>
      cases hx
  case h_3 hlook =>
    cases hcopy
    refine ⟨h, hcopying.twin, fun w hw ↦ ?_, fun w hw ↦ hcopying.todo w (mem_cons_of_mem _ hw)⟩
    by_cases hwv : w = va
    · rw [hwv, hnone, hlook]
    · exact hcopying.done w (by simp [hwv, hw])

theorem good_copyTable (hparent : X parent) (hchild : X child) (hne : parent ≠ child)
    (h : Good X n s) (hvas : vas.Nodup) (hcopying : Copying s.tables parent child vas) {ok : Bool}
    (hcopy : copyTable parent child s vas room = (s', ok)) :
    Good X n s' ∧ ∃ rest, Copying s'.tables parent child rest ∧ (ok = true → rest = []) := by
  induction vas generalizing s room with
  | nil =>
    cases room <;> cases hcopy <;> exact ⟨h, [], hcopying, fun _ ↦ rfl⟩
  | cons va vas ih =>
    obtain ⟨hva, hvas⟩ := nodup_cons.1 hvas
    cases room with
    | zero =>
      cases hcopy
      exact ⟨h, _, hcopying, nofun⟩
    | succ room =>
      rw [copyTable] at hcopy
      split at hcopy
      case h_1 hentry =>
        obtain ⟨hgood, hnext⟩ := good_copyEntry h hparent hchild hne hcopying hva hentry
        exact ih hgood hvas hnext hcopy
      case h_2 =>
        cases hcopy
        exact ⟨h, _, hcopying, nofun⟩

/-- A copy that fails is undone, and the parent's scratch page is its own again. -/
theorem good_undo (h : Good X n s) (hX : ∀ sp, X sp → sp = parent ∨ sp = child) {rest : List Nat}
    (hcopying : Copying s.tables parent child rest) :
    Good (fun _ ↦ False) n (freeTable s child) := by
  have hback : ∀ k x, Own (freeTable s child).tables k x → k.1 ≠ child ∧ Own s.tables k x := by
    intro k x hx
    unfold Own at hx ⊢
    rw [lookup_freeTable] at hx
    by_cases hk : k.1 = child
    · simp [hk] at hx
    · rw [if_neg hk] at hx
      exact ⟨hk, hx⟩
  refine (good_freeTable h child).narrow fun sp l hsp hown hcow hpresent k x hx hf ↦ ?_
  obtain ⟨hne, hown⟩ := hback _ _ hown
  obtain ⟨hne', hx⟩ := hback _ _ hx
  rcases hX sp hsp with rfl | rfl
  · exact (hcopying.twin l hown (.inr ⟨hcow, hpresent⟩) k x hx hf).resolve_right fun hk ↦
      hne' (congrArg Prod.fst hk)
  · exact absurd rfl hne

/-- The scratch page, once copied, is unshared. -/
theorem good_unshare (h : Good X n s) (hX : ∀ sp, X sp → sp = parent ∨ sp = child)
    (hne : parent ≠ child) (hcopying : Copying s.tables parent child [])
    (hunshare : unshare s parent child got = some s') : Good (fun _ ↦ False) n s' := by
  have hsame := hcopying.done faultScratch (by simp)
  -- Without a copy, the parent's scratch page is not copy-on-write, and so the child's is not.
  have hstay : (∀ l, s.tables.lookup (parent, faultScratch) = some (.leaf l) →
      l.cow = true → l.protNone = false → False) → Good (fun _ ↦ False) n s := by
    intro hnot
    refine h.narrow fun sp l hsp hown hcow hpresent ↦ (hnot l ?_ hcow hpresent).elim
    rcases hX sp hsp with rfl | rfl
    · exact hown.1
    · rw [← hsame]
      exact hown.1
  unfold unshare at hunshare
  split at hunshare
  case h_2 hother =>
    cases hunshare
    exact hstay fun l hl _ _ ↦ hother l hl
  case h_1 l hlook =>
    by_cases hflags : (l.protNone || !l.cow) = true
    · rw [if_pos hflags] at hunshare
      cases hunshare
      refine hstay fun l' hl' hcow hpresent ↦ ?_
      cases hlook.symm.trans hl'
      simp [hcow, hpresent] at hflags
    · rw [if_neg hflags] at hunshare
      obtain ⟨⟨copy, s₁⟩, halloc, rfl⟩ := map_eq_some_iff.1 hunshare
      obtain ⟨hcopy, rfl⟩ := allocate_eq_some halloc
      have hflags : l.protNone = false ∧ l.cow = true := by simpa using hflags
      have hown : Own s.tables (parent, faultScratch) l := ⟨hlook, (h.tame _ l hlook).1 hflags.2⟩
      have hchild : Own s.tables (child, faultScratch) l := ⟨hsame.trans hlook, hown.2⟩
      have hkeys : (parent, faultScratch) ≠ (child, faultScratch) :=
        fun hk ↦ hne (congrArg Prod.fst hk)
      have hpos : s.refs l.frame ≠ 0 := by
        intro hzero
        exact hkeys (h.sole_of_refs hchild hzero _ l hown rfl)
      have hcached := h.cached_of_own hown
      have hcopied := Sound.copy h hchild hpos hcopy
        (m := { l with cow := false, writable := true, frame := copy }) rfl hown.2 hcached
      have hparent := (own_insert (e := .leaf { l with
        cow := false, writable := true, frame := copy })).2 (by rwa [if_neg hkeys])
      have hrelabel := hcopied.relabel hparent (m := { l with cow := false, writable := true })
        rfl hown.2 rfl fun _ k x hx hf ↦ ?_
      · simp only [release, if_neg hpos]
        refine Sound.narrow hrelabel fun sp x hsp hx hcow _ ↦ ?_
        rw [own_insert, own_insert] at hx
        rcases hX sp hsp with rfl | rfl
        · rw [if_pos rfl] at hx
          cases hx.1
          cases hcow
        · rw [if_neg hkeys.symm, if_pos rfl] at hx
          cases hx.1
          cases hcow
      · rw [own_insert] at hx
        split at hx
        · cases hx.1
          exact absurd hf.symm (h.not_own_of_free hcopy hown)
        case isFalse hk =>
          exact (hcopying.twin l hown (.inr ⟨hflags.2, hflags.1⟩) k x hx hf).resolve_right hk

theorem nodup_pagesOf (s : St) (sp : Nat) : (pagesOf s sp).Nodup := by
  rw [pagesOf, (perm_insertionSort _ _).nodup_iff]
  refine (s.tables.keys_nodup.filter _).map_on fun a ha b hb hab ↦ ?_
  simp only [mem_filter, decide_eq_true_eq] at ha hb
  exact Prod.ext (ha.2.trans hb.2.symm) hab

theorem good_fork (h : Good (fun _ ↦ False) n s) (hempty : pagesOf s child = [])
    (hne : parent ≠ child) : Good (fun _ ↦ False) n (fork s parent child room got) := by
  let X : Nat → Prop := fun sp ↦ sp = parent ∨ sp = child
  have hstart : Good X n s := Sound.mono h fun _ hfalse ↦ hfalse.elim
  unfold fork
  split
  case h_1 s' hcopy =>
    obtain ⟨hgood, rest, hcopying, -⟩ := good_copyTable (.inl rfl) (.inr rfl) hne hstart
      (nodup_pagesOf s parent) (Copying.start h hempty) hcopy
    exact good_undo hgood (fun _ hX ↦ hX) hcopying
  case h_2 s' hcopy =>
    obtain ⟨hgood, rest, hcopying, hrest⟩ := good_copyTable (.inl rfl) (.inr rfl) hne hstart
      (nodup_pagesOf s parent) (Copying.start h hempty) hcopy
    split
    case h_1 hunshare =>
      have := good_unshare hgood (fun _ hX ↦ hX) hne (hrest rfl ▸ hcopying) hunshare
      exact this
    case h_2 => exact good_undo hgood (fun _ hX ↦ hX) hcopying

/-! ## Runs -/

/-- No private page, or, with `present`, none but a `PROT_NONE` one, is at `k`. -/
def noPrivate (s : St) (present : Bool) (k : Key) : Bool :=
  match s.tables.lookup k with
  | some (.leaf l) => l.shared || (present && l.protNone)
  | _ => true

/-- The condition on the state before an event.  `shmdt` unmaps what is at the segment's addresses,
which another mapping may have replaced, and a mapping filled on demand overwrites the slots of its
range: neither may meet a private page. -/
def Proper (s : St) : Event → Prop
  | .shmdt sp vas => ∀ va ∈ vas, noPrivate s true (sp, va) = true
  | .mapFile sp pages => ∀ p ∈ pages, noPrivate s false (sp, p.1) = true
  | _ => True

instance (s : St) (e : Event) : Decidable (Proper s e) := by
  cases e <;> unfold Proper <;> infer_instance

theorem good_shmdtPage (h : Good X n s) (hk : noPrivate s true k = true) :
    Good X n (shmdtPage s k) := by
  unfold noPrivate at hk
  unfold shmdtPage
  split
  case h_2 => exact h
  case h_1 l hlook =>
    split
    case isTrue => exact h
    case isFalse hpresent => exact Sound.forget h (not_own_of_shared hlook (by simp_all))

theorem noPrivate_shmdtPage {present : Bool} (hk' : noPrivate s present k' = true) :
    noPrivate (shmdtPage s k) present k' = true := by
  unfold shmdtPage
  split
  case h_2 => exact hk'
  case h_1 =>
    split
    · exact hk'
    · unfold noPrivate
      by_cases hk : k' = k
      · rw [hk, lookup_erase]
      · rw [lookup_erase_ne hk]
        exact hk'

theorem good_shmdt (sp : Nat) (vas : List Nat) (hproper : Proper s (.shmdt sp vas))
    (h : Good X n s) : Good X n (shmdt s sp vas) := by
  induction vas generalizing s with
  | nil => exact h
  | cons va vas ih =>
    refine ih (fun w hw ↦ ?_) (good_shmdtPage h (hproper va mem_cons_self))
    exact noPrivate_shmdtPage (hproper w (mem_cons_of_mem _ hw))

theorem not_own_of_noPrivate (h : noPrivate s false k = true) (l : Leaf) :
    ¬ Own s.tables k l := by
  rintro ⟨hk, hl⟩
  simp [noPrivate, hk, hl] at h

theorem good_mapFile (sp : Nat) (pages : List (Nat × Nat × Nat))
    (hproper : Proper s (.mapFile sp pages)) (h : Good X n s) : Good X n (mapFile s sp pages) := by
  induction pages generalizing s with
  | nil => exact h
  | cons p pages ih =>
    refine ih (fun q hq ↦ ?_) (Sound.other h (not_own_of_noPrivate (hproper p mem_cons_self))
      fun l hl ↦ nomatch hl)
    have hslot := hproper q (mem_cons_of_mem _ hq)
    unfold noPrivate at hslot ⊢
    by_cases hk : (sp, q.1) = (sp, p.1)
    · rw [hk, lookup_insert]
    · rw [lookup_insert_ne hk]
      exact hslot

theorem good_store (h : Good X n s) (k : Key) (d : Nat) : Good X n (store s k d) := by
  unfold store
  split
  · split <;> exact h
  · exact h

theorem good_teardown (h : Good X n s) (sp : Nat) : Good X n (teardown s sp) := by
  unfold teardown
  split
  · exact h
  · exact good_freeTable h sp

theorem good_take {d : Nat} {cache : Bool} (h : Good X n s)
    (htake : step s (.take f cache d) = some s') : Good X n s' := by
  obtain ⟨⟨f, s₁⟩, halloc, rfl⟩ := map_eq_some_iff.1 htake
  obtain ⟨hf, rfl⟩ := allocate_eq_some halloc
  cases cache <;> exact (Sound.lose h hf).move fun g ↦ by simp [count_cons]; omega

theorem good_give (h : Good X n s) (hgive : step s (.give f) = some s') : Good X n s' := by
  have hcount : ∀ (as : List Frame) g, f ∈ as →
      (as.erase f).count g + (if f = g then 1 else 0) = as.count g := by
    intro as g hmem
    have := count_pos_iff.2 hmem
    rw [count_erase]
    by_cases hg : f = g
    · subst hg
      simp only [beq_self_eq_true, if_true]
      omega
    · simp [hg]
  rw [step] at hgive
  split_ifs at hgive with hheld hcache
  all_goals
    cases hgive
    refine Sound.move h fun g ↦ ?_
    have := hcount _ g ‹_›
    simp only [count_cons, count_append, beq_iff_eq]
    omega

/-- What every event does to the accounting. -/
theorem good_step (e : Event) (hproper : Proper s e) (h : Good (fun _ ↦ False) n s)
    (hstep : step s e = some s') : Good (fun _ ↦ False) n s' := by
  have hact : ∀ t, (if s.handles e.space ≠ 0 then some (act s e) else none) = some t →
      Good (fun _ ↦ False) n (act s e) → Good (fun _ ↦ False) n t := by
    intro t ht hgood
    cases (of_ite_right ht nofun).2
    exact hgood
  cases e with
  | take f cache d => exact good_take h hstep
  | give f => exact good_give h hstep
  | new sp =>
    cases (of_ite_right hstep nofun).2
    exact h
  | fork parent child room got =>
    simp only [step, ite_none_right_eq_some, some.injEq, unused, Bool.and_eq_true,
      beq_iff_eq, List.isEmpty_iff] at hstep
    obtain ⟨⟨hparent, hchild, hempty⟩, rfl⟩ := hstep
    exact good_fork h hempty fun hne ↦ hparent (hne ▸ hchild)
  | mapPages sp writable pages =>
    cases (of_ite_right hstep nofun).2
    exact good_mapPages sp writable pages h
  | fillFile k id page f =>
    cases (of_ite_right hstep nofun).2
    exact good_fillFile h k id page f
  | share sp => exact hact s' hstep h
  | teardown sp => exact hact s' hstep (good_teardown h sp)
  | cow k got => exact hact s' hstep (good_tryResolveCow h k got)
  | touch k writable got tables => exact hact s' hstep (good_touch h k writable got tables)
  | mmapAnon sp shared writable pages => exact hact s' hstep (good_mmapAnon h sp writable pages)
  | mapFile sp pages => exact hact s' hstep (good_mapFile sp pages hproper h)
  | munmap sp vas => exact hact s' hstep (good_munmap h sp vas)
  | mprotect sp accessible writable pages =>
    exact hact s' hstep (good_mprotect h sp accessible writable pages)
  | shmdt sp vas => exact hact s' hstep (good_shmdt sp vas hproper h)
  | store k d => exact hact s' hstep (good_store h k d)

theorem good_boot (n : Nat) : Good (fun _ ↦ False) n (boot n) := by
  have hleaves : ∀ f, leaves (boot n).tables f = 0 := fun f ↦ rfl
  refine ⟨fun f ↦ by rw [hleaves]; rfl, fun f ↦ ?_, fun k l hown ↦ ?_, fun k l hk ↦ ?_⟩
  · rw [hleaves]
    by_cases hf : f < n
    · simp [boot]
    · simp [boot]
  · exact absurd hown.1 (by simp [boot])
  · simp [boot] at hk

variable {es : List Event}

/-- **Copy-on-write accounting.**  In every state that a run meeting the condition reaches, the
count of a frame that private leaves map is one less than their number, a frame of the machine is
with the allocator exactly when no private leaf maps it and nobody else owns it, and then once, and
no other private leaf has the frame of one that is `WRITABLE`. -/
theorem run_cow_accounting (hmeets : Machine.Meets step Proper (boot n) es)
    (hrun : Machine.run step (boot n) es = some s) :
    (∀ f, 0 < leaves s.tables f → s.refs f + 1 = leaves s.tables f) ∧
    (∀ f < n, s.free.count f =
      if leaves s.tables f = 0 ∧ f ∉ s.held ∧ f ∉ s.cache ∧ f ∉ s.lost then 1 else 0) ∧
    ∀ k l, Own s.tables k l → l.writable = true →
      ∀ k' l', Own s.tables k' l' → l'.frame = l.frame → k' = k := by
  have h : Good (fun _ ↦ False) n s := Machine.run_inv
    (fun _ e _ hproper h hstep ↦ good_step e hproper h hstep) (good_boot n) hmeets hrun
  refine ⟨fun f hf ↦ ?_, fun f hf ↦ ?_, fun k l hown hw ↦ h.sole k l hown (.inl hw)⟩
  · have := h.refs_eq f
    omega
  · have hhome := h.home f
    rw [if_pos hf, count_append, count_append] at hhome
    simp only [← count_eq_zero]
    split <;> omega

/-- A process maps a page, writes it, forks and writes it again: the two have a frame each. -/
theorem run_cow_accounting_forked : ∃ s,
    Machine.run step (boot 4) [.new 0, .touch (0, 5) true (some 1) true, .store (0, 5) 7,
      .fork 0 1 9 none, .cow (0, 5) (some 2), .store (0, 5) 8] = some s ∧
    (s.refs 1 + 1 = 1 ∧ s.refs 2 + 1 = 1 ∧ s.mem 1 = 7 ∧ s.mem 2 = 8) ∧
    ((∀ f, 0 < leaves s.tables f → s.refs f + 1 = leaves s.tables f) ∧
      (∀ f < 4, s.free.count f =
        if leaves s.tables f = 0 ∧ f ∉ s.held ∧ f ∉ s.cache ∧ f ∉ s.lost then 1 else 0) ∧
      ∀ k l, Own s.tables k l → l.writable = true →
        ∀ k' l', Own s.tables k' l' → l'.frame = l.frame → k' = k) :=
  Machine.exists_run_and (by decide +kernel) fun _ hrun ↦ run_cow_accounting (by decide +kernel) hrun

/-- A segment is attached at page 5, a private mapping replaces the page there, and `shmdt` unmaps
it: its frame 2 is mapped by nobody, owned by nobody and never goes back. -/
theorem shmdt_loses_frame : ∃ s,
    Machine.run step (boot 4) [.new 0, .take 1 false 0,
      .mapPages 0 true [(5, true, .shared 1 true)], .munmap 0 [5],
      .touch (0, 5) true (some 2) true, .shmdt 0 [5]] = some s ∧
    leaves s.tables 2 = 0 ∧ 2 ∉ s.held ∧ 2 ∉ s.cache ∧ 2 ∉ s.lost ∧ s.free.count 2 = 0 :=
  Machine.exists_run _ (by decide +kernel)

end OxideBSD.AddressSpace
