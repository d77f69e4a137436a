import OxideBSD.Lib.Machine

/-!
# The page cache

`sys/memory/pagecache.rs`: an entry is a file as it was when the entry was made, with a frame for
each page that was read.  Address spaces record the entries they use.  A fill looks at the entry,
allocates a frame, waits for the file system's lock, reads and publishes the frame, and everything
else may happen in between.

* What a file holds is a matter of its version, which every announced change advances: a block that
  an entry knows holds the entry's page as long as the file has the version the entry was made for,
  and anything after that (`Data`).
* `step` has the fills in three parts, `changed` with the fills it makes itself, `vnode_gone`, the
  lookups of entries, uses taken, copied by fork and released, evictions and reclaims.  Which entry
  is evicted, which id a new entry gets and which frame is allocated is up to the event.
* `Sound` holds in every run that meets `Proper` (`run_pagecache`): published and returned frames
  hold the page of their file as it was while the entry was current, they are not freed, and the use
  counts are right.
* `gone_file_read`: a fill that waits while its file's vnode goes reads what the blocks hold then.
-/

set_option autoImplicit false

namespace OxideBSD.PageCache

open Function List Option

/-! ## The cache -/

/-- What a frame holds: a page of a file in one of its versions, or something else. -/
inductive Data
  | page (file version page : Nat)
  | other (n : Nat)
  deriving DecidableEq

/-- `made` is the version the file had when the entry was made, and `blocks` says that there is a
block map. -/
structure Entry where
  contentId : Nat
  size : Nat
  frames : Nat → Option Nat
  blocks : Bool
  stale : Bool
  uses : Nat
  cached : Bool
  made : Nat

def Entry.pages (e : Entry) : Nat := (e.size + 4095) / 4096

def Entry.holds (e : Entry) (x : Nat) : Bool := (List.range e.pages).any fun p ↦ e.frames p = some x

/-- The pages that `changed` fills. -/
def Entry.unfilled (e : Entry) : List Nat :=
  if e.uses = 0 ∨ !e.blocks then [] else (List.range e.pages).filter fun p ↦ e.frames p = none

/-- Where a fill gets its page: a block, a hole, or the file system. -/
inductive Source
  | device
  | hole
  | file
  deriving DecidableEq

/-- A fill that is not over, by `filler` for an address space; `read` is how its read went. -/
structure Filling where
  filler : Nat
  space : Nat
  id : Nat
  page : Nat
  contentId : Nat
  made : Nat
  source : Source
  frame : Nat
  read : Option Bool

/-- A `changed` that is not over: the pages it is yet to fill, and what the file will be then. -/
structure Change where
  file : Nat
  id : Nat
  todo : List Nat
  complete : Bool
  size : Nat
  blocks : Bool

/-- What a fill returned. -/
structure Returned where
  file : Nat
  version : Nat
  page : Nat
  data : Data
  deriving DecidableEq

/-- The cache, the address spaces' lists, the frames, the files and the fills.  `free` are the
frames of the allocator. -/
structure St where
  entries : Nat → Option Entry
  byContent : Nat → Option Nat
  pending : Nat → Bool
  uses : List (Nat × Nat)
  free : Nat → Bool
  mem : Nat → Data
  version : Nat → Nat
  size : Nat → Nat
  blocks : Nat → Bool
  fills : List Filling
  change : Option Change
  returned : List Returned

namespace St

variable (s : St)

def setEntry (id : Nat) (e : Option Entry) : St := { s with entries := update s.entries id e }

/-- The content id no longer finds `id`. -/
def unlist (id f : Nat) : St :=
  { s with byContent := fun g ↦ if g = f ∧ s.byContent g = some id then none else s.byContent g }

def remove (id : Nat) (e : Entry) : St := (s.setEntry id none).unlist id e.contentId

def retire (id : Nat) : St :=
  match s.entries id with
  | none => s
  | some e =>
    let s := if e.cached then s.unlist id e.contentId else s
    if e.uses = 0 then
      let s := s.remove id e
      { s with pending := fun x ↦ s.pending x || e.holds x }
    else s.setEntry id (some { e with cached := false })

/-- The entry that `entry_for` finds. -/
def current (f size : Nat) : Option Nat :=
  (s.byContent f).filter fun id ↦ (s.entries id).any fun e ↦ e.size = size

/-- `entry_for` where it makes an entry, with an id nothing has. -/
def make (f size id : Nat) : Option St :=
  let s := (s.byContent f).elim s s.retire
  if s.entries id = none then
    let s := s.setEntry id (some ⟨f, size, fun _ ↦ none, s.blocks f, false, 0, true, s.version f⟩)
    some { s with byContent := update s.byContent f (some id) }
  else none

def addUse (a id : Nat) : St :=
  if (a, id) ∈ s.uses then s
  else
    let s := { s with uses := (a, id) :: s.uses }
    match s.entries id with
    | none => s
    | some e => s.setEntry id (some { e with uses := e.uses + 1 })

/-- `fork_uses`, for a new address space `b`. -/
def forkUses (a b : Nat) : St :=
  (s.uses.filter (·.1 = a)).foldl (fun s u ↦ s.addUse b u.2) s

/-- One id of the loop of `release_all`. -/
def release (id : Nat) : St :=
  match s.entries id with
  | none => s
  | some e =>
    let s := s.setEntry id (some { e with uses := e.uses - 1 })
    if e.uses - 1 = 0 ∧ !e.cached then s.retire id else s

def releaseAll (a : Nat) : St :=
  (s.uses.filter (·.1 = a)).foldl (fun s u ↦ s.release u.2)
    { s with uses := s.uses.filter (·.1 ≠ a) }

/-! ## Fills -/

/-- What is read for a page from a source now. -/
def readPage (src : Source) (f made p other : Nat) : Data :=
  match src with
  | .hole => .page f made p
  | .device => if s.version f = made then .page f made p else .other other
  | .file => .page f (s.version f) p

def give (f made p x : Nat) : St := { s with returned := ⟨f, made, p, s.mem x⟩ :: s.returned }

/-- The first part of `fill`, with a frame `x` allocated if it is needed. -/
def beginFill (k a id p x : Nat) (hole : Bool) : Option St :=
  match s.entries id with
  | none => some s
  | some e =>
    if e.pages ≤ p then some s
    else match e.frames p with
      | some y => some (s.give e.contentId e.made p y)
      | none =>
        if e.stale then some s
        else if s.free x then
          let src := if e.blocks then if hole then .hole else .device else .file
          some { s with
            free := update s.free x false
            mem := update s.mem x (.other 0)
            fills := ⟨k, a, id, p, e.contentId, e.made, src, x, none⟩ :: s.fills }
        else none

/-- The end of `fill`; a page beyond the entry's frames is a panic. -/
def publish (fl : Filling) (ok : Bool) : Option St :=
  let s := { s with fills := s.fills.filter (·.filler ≠ fl.filler) }
  let drop := { s with pending := update s.pending fl.frame true }
  match s.entries fl.id with
  | none => some drop
  | some e =>
    if e.pages ≤ fl.page then none
    else match e.frames fl.page with
      | some y => some (drop.give fl.contentId fl.made fl.page y)
      | none =>
        if ok then
          let s := s.setEntry fl.id
            (some { e with frames := update e.frames fl.page (some fl.frame) })
          some (s.give fl.contentId fl.made fl.page fl.frame)
        else some drop

/-! ## Changes -/

def makeStale (id : Nat) : St :=
  match s.entries id with
  | none => s
  | some e => s.setEntry id (some { e with stale := true, blocks := false })

/-- The file has changed. -/
def bump (f size : Nat) (blocks : Bool) : St :=
  { s with
    version := update s.version f (s.version f + 1)
    size := update s.size f size
    blocks := update s.blocks f blocks }

/-- The end of `changed`, and the change. -/
def endChange (c : Change) : St :=
  let s := { s with change := none }
  ((if c.complete then s else s.makeStale c.id).retire c.id).bump c.file c.size c.blocks

def beginChange (f size : Nat) (blocks : Bool) : St :=
  match s.byContent f with
  | none => s.bump f size blocks
  | some id =>
    let todo := ((s.entries id).map Entry.unfilled).getD []
    let c : Change := ⟨f, id, todo, true, size, blocks⟩
    -- nothing is filled, so nothing else happens in between
    if todo = [] then s.endChange c else { s with change := some c }

/-- A fill that `changed` makes, with a frame `x`; `ok` says that it has memory and is read. -/
def changeFill (c : Change) (p x : Nat) (rest : List Nat) (ok : Bool) (other : Nat) : Option St :=
  let failed := { s with change := some { c with todo := rest, complete := false } }
  let s := { s with change := some { c with todo := rest } }
  match s.entries c.id with
  | none => some failed
  | some e =>
    if e.pages ≤ p then some failed
    else if (e.frames p).isSome then some s
    else if e.stale ∨ !ok then some failed
    else if s.free x then
      let s := { s with
        free := update s.free x false
        mem := update s.mem x (s.readPage .device e.contentId e.made p other) }
      some (s.setEntry c.id (some { e with frames := update e.frames p (some x) }))
    else none

def vnodeGone (f : Nat) : St :=
  let s' := match s.byContent f with
    | none => s
    | some id =>
      (if (s.entries id).any (fun e : Entry ↦ e.uses ≠ 0) then s.makeStale id else s).retire id
  s'.bump f (s.size f) (s.blocks f)

end St

/-! ## The machine -/

inductive Event
  | entryFor (f size id : Nat)
  | use (a id : Nat)
  | fork (a b : Nat)
  | release (a : Nat)
  | beginFill (k a id p x : Nat) (hole : Bool)
  | readFill (k : Nat) (ok : Bool) (other : Nat)
  | endFill (k : Nat)
  | beginChange (f size : Nat) (blocks : Bool)
  | changeFill (x : Nat) (ok : Bool) (other : Nat)
  | endChange
  | vnodeGone (f : Nat)
  | evict (id : Nat)
  | reclaim (id : Nat)
  | freePending

/-- What the file system's lock is needed for waits for a change to be over. -/
def step (s : St) : Event → Option St
  | .entryFor f size id =>
    if size = 0 ∨ (s.current f size).isSome then some s
    else if s.change.isSome then none else s.make f size id
  | .use a id => some (s.addUse a id)
  | .fork a b => if s.uses.any (·.1 = b) then none else some (s.forkUses a b)
  | .release a => some (s.releaseAll a)
  | .beginFill k a id p x hole =>
    if s.fills.any (·.filler = k) then none else s.beginFill k a id p x hole
  | .readFill k ok other =>
    match s.fills.find? (·.filler = k) with
    | none => none
    | some fl =>
      if fl.read.isSome ∨ fl.source ≠ .hole ∧ s.change.isSome then none
      else some { s with
        mem := update s.mem fl.frame (s.readPage fl.source fl.contentId fl.made fl.page other)
        fills := { fl with read := some (ok || fl.source = .hole) } ::
          s.fills.filter (·.filler ≠ k) }
  | .endFill k =>
    (s.fills.find? (·.filler = k)).bind fun fl ↦ fl.read.bind fun ok ↦ s.publish fl ok
  | .beginChange f size blocks =>
    if s.change.isSome then none else some (s.beginChange f size blocks)
  | .changeFill x ok other =>
    s.change.bind fun c ↦ match c.todo with
      | [] => none
      | p :: rest => s.changeFill c p x rest ok other
  | .endChange => s.change.bind fun c ↦ if c.todo = [] then some (s.endChange c) else none
  | .vnodeGone f => if s.change.isSome then none else some (s.vnodeGone f)
  | .evict id =>
    if (s.entries id).any (fun e : Entry ↦ e.uses = 0) then some (s.retire id) else none
  | .reclaim id =>
    (s.entries id).bind fun e ↦ if e.uses = 0 then
      let s := s.remove id e
      some { s with free := fun x ↦ s.free x || e.holds x }
    else none
  | .freePending =>
    some { s with pending := fun _ ↦ false, free := fun x ↦ s.free x || s.pending x }

/-- Nothing is cached, and the allocator has the frames below `n`. -/
def boot (size : Nat → Nat) (blocks : Nat → Bool) (n : Nat) : St :=
  ⟨fun _ ↦ none, fun _ ↦ none, fun _ ↦ false, [], fun x ↦ x < n, fun _ ↦ .other 0, fun _ ↦ 0, size,
    blocks, [], none, []⟩

/-! ## What holds in every state -/

/-- Who has a frame. -/
inductive Holder
  | slot (id page : Nat)
  | fill (k : Nat)
  deriving DecidableEq

def Held (s : St) : Holder → Nat → Prop
  | .slot id p, x => ∃ e, s.entries id = some e ∧ e.frames p = some x
  | .fill k, x => ∃ fl ∈ s.fills, fl.filler = k ∧ fl.frame = x

/-- A fill that has yet to read reads the right thing, or its frame will not be published; one that
has read has the right thing, or its frame will not be published. -/
structure FillOk (entries : Nat → Option Entry) (uses : List (Nat × Nat)) (mem : Nat → Data)
    (fl : Filling) (e : Entry) : Prop where
  entry : entries fl.id = some e
  file : e.contentId = fl.contentId
  made : e.made = fl.made
  page : fl.page < e.pages
  used : (fl.space, fl.id) ∈ uses
  unread : fl.read = none → fl.source ≠ .hole → e.cached = true ∨ e.frames fl.page ≠ none
  data : fl.read = some true →
    mem fl.frame = .page fl.contentId fl.made fl.page ∨ e.frames fl.page ≠ none

/-- The entry is of the file that changes, and the pages not to be filled are filled. -/
structure ChangeOk (entries : Nat → Option Entry) (byContent : Nat → Option Nat) (c : Change) :
    Prop where
  file : ∀ e, entries c.id = some e → e.contentId = c.file
  named : ∀ id, byContent c.file = some id → id = c.id
  filled : c.complete = true →
    ∀ e, entries c.id = some e → ∀ p < e.pages, e.frames p = none → p ∈ c.todo

structure Sound (s : St) : Prop where
  named : ∀ f id, s.byContent f = some id →
    ∃ e, s.entries id = some e ∧ e.contentId = f ∧ e.cached = true
  current : ∀ id e, s.entries id = some e → e.cached = true →
    s.byContent e.contentId = some id ∧ s.version e.contentId = e.made ∧
      e.size = s.size e.contentId
  retired : ∀ id e, s.entries id = some e → e.cached = false →
    e.stale = true ∨ ∀ p < e.pages, e.frames p ≠ none
  slot : ∀ id e p x, s.entries id = some e → e.frames p = some x →
    p < e.pages ∧ s.mem x = .page e.contentId e.made p
  held : ∀ h x, Held s h x → s.free x = false ∧ s.pending x = false
  own : ∀ h h' x, Held s h x → Held s h' x → h = h'
  apart : ∀ x, s.pending x = true → s.free x = false
  fills : ∀ fl ∈ s.fills, ∃ e, FillOk s.entries s.uses s.mem fl e
  fillers : ∀ fl ∈ s.fills, ∀ fl' ∈ s.fills, fl.filler = fl'.filler → fl = fl'
  uses : ∀ id e, s.entries id = some e → e.uses = s.uses.countP (·.2 = id)
  used : ∀ u ∈ s.uses, s.entries u.2 ≠ none
  nodup : s.uses.Nodup
  change : ∀ c, s.change = some c → ChangeOk s.entries s.byContent c
  returned : ∀ r ∈ s.returned, r.data = .page r.file r.version r.page

/-- No fill of the entry is yet to read. -/
def NoReader (s : St) (id : Nat) : Prop :=
  ∀ fl ∈ s.fills, fl.id = id → fl.read = none → fl.source = .hole

/-- The size an entry is made with is still the file's; a use is of an entry; an address space fills
only from the entries it uses, and goes only when none of its fills is left; a vnode goes, and a
change ends without all pages, only when no fill of the entry is yet to read; and a file without
blocks changes only when all pages of an entry in use are filled. -/
def Proper (s : St) : Event → Prop
  | .entryFor f size _ => size = s.size f
  | .use _ id => s.entries id ≠ none
  | .release a => ∀ fl ∈ s.fills, fl.space ≠ a
  | .beginFill _ a id _ _ _ => (a, id) ∈ s.uses
  | .beginChange f _ _ => ∀ id ∈ s.byContent f, ∀ e ∈ s.entries id,
      e.uses ≠ 0 → e.blocks = false → ∀ p ∈ List.range e.pages, e.frames p ≠ none
  | .endChange => ∀ c ∈ s.change, c.complete = true ∨ NoReader s c.id
  | .vnodeGone f => ∀ id ∈ s.byContent f, NoReader s id
  | _ => True

instance (s : St) (id : Nat) : Decidable (NoReader s id) :=
  inferInstanceAs (Decidable (∀ fl ∈ s.fills, _))

instance (s : St) (ev : Event) : Decidable (Proper s ev) := by
  unfold Proper
  split <;> infer_instance

variable {s s' : St} {id f a : Nat} {e : Entry} {x p : Nat} {fl : Filling}

/-! ## Entries that go -/

theorem holds_iff : e.holds x = true ↔ ∃ p < e.pages, e.frames p = some x := by
  simp [Entry.holds]

theorem Sound.held_of_holds (h : Sound s) (he : s.entries id = some e) (hx : e.holds x = true) :
    s.free x = false ∧ s.pending x = false := by
  obtain ⟨p, -, hp⟩ := holds_iff.1 hx
  exact h.held (.slot id p) x ⟨e, he, hp⟩

/-- An entry that nobody uses leaves the cache; its frames are no longer its own. -/
theorem Sound.remove (h : Sound s) (he : s.entries id = some e) (hu : e.uses = 0)
    {pending free : Nat → Bool}
    (hpending : ∀ x, pending x = true → s.pending x = true ∨ e.holds x = true)
    (hfree : ∀ x, free x = true → s.free x = true ∨ e.holds x = true)
    (hapart : ∀ x, pending x = true → free x = false) :
    Sound { s.remove id e with pending := pending, free := free } := by
  have hnone : ∀ b, (b, id) ∉ s.uses := by
    intro b hb
    have hcount := h.uses id e he
    rw [hu] at hcount
    exact absurd hb (by simpa using (countP_eq_zero.1 hcount.symm (b, id)))
  have hentry : ∀ i, (s.remove id e).entries i = if i = id then none else s.entries i :=
    fun i ↦ update_apply ..
  have hname : ∀ g, (s.remove id e).byContent g =
      if g = e.contentId ∧ s.byContent g = some id then none else s.byContent g := fun _ ↦ rfl
  have hheld : ∀ k x, Held { s.remove id e with pending := pending, free := free } k x →
      Held s k x ∧ ∀ p, k ≠ .slot id p := by
    rintro (⟨i, p⟩ | k) x hk
    · obtain ⟨e', he', hx⟩ := hk
      have hne : i ≠ id := by
        rintro rfl
        simp [hentry] at he'
      exact ⟨⟨e', by simpa [hentry, hne] using he', hx⟩, fun q hq ↦ hne (Holder.slot.inj hq).1⟩
    · exact ⟨hk, nofun⟩
  have hlost : ∀ k x, Held s k x → e.holds x = true → ∃ p, k = .slot id p := by
    intro k x hk hx
    obtain ⟨p, -, hp⟩ := holds_iff.1 hx
    exact ⟨p, h.own _ _ x hk ⟨e, he, hp⟩⟩
  refine ⟨?_, ?_, ?_, ?_, ?_, ?_, hapart, ?_, h.fillers, ?_, ?_, h.nodup, ?_, h.returned⟩
  · intro g i hi
    obtain ⟨e', he', hf, hc⟩ := h.named g i (by grind)
    exact ⟨e', by grind, hf, hc⟩
  · intro i e' he' hc
    obtain ⟨hnamed, hcurrent⟩ := h.current i e' (by grind) hc
    exact ⟨by grind, hcurrent⟩
  · exact fun i e' he' ↦ h.retired i e' (by grind)
  · exact fun i e' p x he' ↦ h.slot i e' p x (by grind)
  · intro k x hk
    obtain ⟨hk, hno⟩ := hheld k x hk
    have := h.held k x hk
    grind
  · exact fun k k' x hk hk' ↦ h.own k k' x (hheld k x hk).1 (hheld k' x hk').1
  · intro fl hfl
    obtain ⟨e', hok⟩ := h.fills fl hfl
    have hne : fl.id ≠ id := fun hid ↦ hnone fl.space (hid ▸ hok.used)
    exact ⟨e', { hok with entry := by rw [hentry, if_neg hne]; exact hok.entry }⟩
  · exact fun i e' he' ↦ h.uses i e' (by grind)
  · intro u hu
    have := h.used u hu
    have hne : u.2 ≠ id := fun hid ↦ hnone u.1 (hid ▸ hu)
    rwa [hentry, if_neg hne]
  · intro c hc
    obtain ⟨hfile, hnamed, hfilled⟩ := h.change c hc
    exact ⟨fun e' he' ↦ hfile e' (by grind), fun i hi ↦ hnamed i (by grind),
      fun hcomplete e' he' ↦ hfilled hcomplete e' (by grind)⟩

/-- An entry changes, but not its file and its size; its frames stay, or a page gets one that is
nobody's and holds it. -/
theorem Sound.replace (h : Sound s) (he : s.entries id = some e) (e' : Entry)
    (byContent : Nat → Option Nat) (uses : List (Nat × Nat))
    (hsame : e'.contentId = e.contentId ∧ e'.size = e.size ∧ e'.made = e.made)
    (hframes : e'.frames = e.frames ∨ ∃ p x, e'.frames = update e.frames p (some x) ∧
      (p < e.pages ∧ s.mem x = .page e.contentId e.made p) ∧
      (s.free x = false ∧ s.pending x = false) ∧ ∀ k, ¬ Held s k x)
    (hname : ∀ g, byContent g =
      if e'.cached = false ∧ g = e.contentId ∧ s.byContent g = some id then none else s.byContent g)
    (hcached : e'.cached = true → e.cached = true)
    (hretired : e'.cached = false → e'.stale = true ∨ ∀ p < e.pages, e.frames p ≠ none)
    (hreader : e.cached = true → e'.cached = false →
      NoReader s id ∨ ∀ p < e.pages, e.frames p ≠ none)
    (huses : e'.uses = uses.countP (·.2 = id) ∧
      ∀ i ≠ id, uses.countP (·.2 = i) = s.uses.countP (·.2 = i))
    (hused : ∀ u ∈ uses, s.entries u.2 ≠ none) (hnodup : uses.Nodup)
    (hspaces : ∀ fl ∈ s.fills, (fl.space, fl.id) ∈ uses) :
    Sound { s.setEntry id (some e') with byContent := byContent, uses := uses } := by
  have hentry : ∀ i, (s.setEntry id (some e')).entries i =
      if i = id then some e' else s.entries i :=
    fun i ↦ update_apply ..
  obtain ⟨hid, hsize, hmade⟩ := hsame
  have hpages : e'.pages = e.pages := by rw [Entry.pages, hsize, Entry.pages]
  have hkept : ∀ q, e.frames q ≠ none → e'.frames q ≠ none := by
    intro q hq
    obtain hframes | ⟨p, x, hframes, -⟩ := hframes
    · rwa [hframes]
    · rw [hframes, update_apply]
      split <;> simp_all
  -- The frame a page has got, if one has.
  obtain ⟨p, hadded⟩ : ∃ p, ∀ q y, e'.frames q = some y → e.frames q = some y ∨ q = p ∧
      (q < e.pages ∧ s.mem y = .page e.contentId e.made q) ∧
      (s.free y = false ∧ s.pending y = false) ∧ ∀ k, ¬ Held s k y := by
    obtain hframes | ⟨p, x, hframes, hslot, hfree, hno⟩ := hframes
    · exact ⟨0, fun q y hy ↦ .inl (hframes ▸ hy)⟩
    · refine ⟨p, fun q y hy ↦ ?_⟩
      rw [hframes, update_apply] at hy
      split at hy
      · subst q
        cases hy
        exact .inr ⟨rfl, hslot, hfree, hno⟩
      · exact .inl hy
  have hheld : ∀ k y,
      Held { s.setEntry id (some e') with byContent := byContent, uses := uses } k y →
      Held s k y ∨ k = .slot id p ∧ (s.free y = false ∧ s.pending y = false) ∧
        ∀ k, ¬ Held s k y := by
    rintro (⟨i, q⟩ | k) y hk
    · obtain ⟨e'', he'', hy⟩ := hk
      by_cases hi : i = id
      · obtain rfl : e' = e'' := by grind
        obtain hy | ⟨rfl, -, hnew⟩ := hadded q y hy
        · exact .inl ⟨e, hi ▸ he, hy⟩
        · exact .inr ⟨by rw [hi], hnew⟩
      · exact .inl ⟨e'', by grind, hy⟩
    · exact .inl hk
  refine ⟨?_, ?_, ?_, ?_, ?_, ?_, h.apart, ?_, h.fillers, ?_, ?_, hnodup, ?_, h.returned⟩
  · intro g i hi
    obtain ⟨e'', he'', hf, hc⟩ := h.named g i (by grind)
    by_cases hi' : i = id
    · exact ⟨e', by grind, by grind, by grind⟩
    · exact ⟨e'', by grind, hf, hc⟩
  · intro i e'' he'' hc
    by_cases hi : i = id
    · obtain ⟨hnamed, hcurrent⟩ := h.current id e he (hcached (by grind))
      obtain rfl : e' = e'' := by grind
      exact ⟨by grind, by rw [hid, hmade, hsize]; exact hcurrent⟩
    · obtain ⟨hnamed, hcurrent⟩ := h.current i e'' (by grind) hc
      exact ⟨by grind, hcurrent⟩
  · intro i e'' he'' hc
    by_cases hi : i = id
    · obtain rfl : e' = e'' := by grind
      rw [hpages]
      exact (hretired hc).imp_right fun hfull q hq ↦ hkept q (hfull q hq)
    · exact h.retired i e'' (by grind) hc
  · intro i e'' q y he'' hy
    by_cases hi : i = id
    · obtain rfl : e' = e'' := by grind
      rw [hpages, hid, hmade]
      exact (hadded q y hy).elim (h.slot id e q y he) fun hnew ↦ hnew.2.1
    · exact h.slot i e'' q y (by grind) hy
  · exact fun k y hk ↦ (hheld k y hk).elim (h.held k y) fun hnew ↦ hnew.2.1
  · intro k k' y hk hk'
    obtain hk | ⟨rfl, -, hno⟩ := hheld k y hk <;> obtain hk' | ⟨rfl, -, hno'⟩ := hheld k' y hk'
    · exact h.own k k' y hk hk'
    · exact absurd hk (hno' k)
    · exact absurd hk' (hno k')
    · rfl
  · intro fl hfl
    obtain ⟨e'', hok⟩ := h.fills fl hfl
    by_cases hi : fl.id = id
    · obtain rfl : e = e'' := some.inj (he.symm.trans (hi ▸ hok.entry))
      refine ⟨e', by rw [hentry, if_pos hi], by rw [hid, hok.file], by rw [hmade, hok.made],
        by rw [hpages]; exact hok.page, hspaces fl hfl, fun hread hsrc ↦ ?_,
        fun hread ↦ (hok.data hread).imp_right (hkept _)⟩
      by_cases hc : e'.cached = true
      · exact .inl hc
      · refine .inr (hkept _ ((hok.unread hread hsrc).elim (fun hcur ↦ ?_) fun hfull ↦ hfull))
        obtain hno | hfull := hreader hcur (by simpa using hc)
        · exact absurd (hno fl hfl hi hread) hsrc
        · exact hfull fl.page hok.page
    · refine ⟨e'', { hok with entry := ?_, used := hspaces fl hfl }⟩
      rw [hentry, if_neg hi]
      exact hok.entry
  · intro i e'' he''
    by_cases hi : i = id
    · obtain rfl : e' = e'' := by grind
      rw [hi]
      exact huses.1
    · rw [h.uses i e'' (by grind)]
      exact (huses.2 i hi).symm
  · intro u hu
    grind
  · intro c hc
    obtain ⟨hfile, hnamed, hfilled⟩ := h.change c hc
    refine ⟨fun e'' he'' ↦ ?_, fun i hi ↦ hnamed i (by grind),
      fun hcomplete e'' he'' p hp hnone ↦ ?_⟩
    · by_cases hi : c.id = id
      · grind
      · exact hfile e'' (by grind)
    · by_cases hi : c.id = id
      · obtain rfl : e' = e'' := by grind
        refine hfilled hcomplete e (by grind) p (hpages ▸ hp) ?_
        exact by_contra fun hne ↦ hkept p hne hnone
      · exact hfilled hcomplete e'' (by grind) p hp hnone

theorem unlist_remove : (s.unlist id e.contentId).remove id e = s.remove id e := by
  simp only [St.remove, St.unlist, St.setEntry]
  grind

/-- An entry is retired that is unused, or of which no page is read any more. -/
theorem Sound.retire (h : Sound s)
    (hreader : ∀ e, s.entries id = some e → e.uses ≠ 0 → NoReader s id ∨
      ∀ p < e.pages, e.frames p ≠ none)
    (hstale : ∀ e, s.entries id = some e → e.uses ≠ 0 → e.stale = true ∨
      ∀ p < e.pages, e.frames p ≠ none) : Sound (s.retire id) := by
  rw [St.retire]
  split
  · exact h
  · rename_i e he
    dsimp only
    split
    · rename_i hu
      have hremove : (if e.cached then s.unlist id e.contentId else s).remove id e =
          s.remove id e := by
        split
        · exact unlist_remove
        · rfl
      rw [hremove]
      refine h.remove he hu (fun x hx ↦ Bool.or_eq_true_iff.1 hx) (fun x hx ↦ .inl hx) fun x hx ↦ ?_
      obtain hx | hx := Bool.or_eq_true_iff.1 hx
      · exact h.apart x hx
      · exact (h.held_of_holds he hx).1
    · rename_i hu
      have hname : ∀ g, (if e.cached then s.unlist id e.contentId else s).byContent g =
          if g = e.contentId ∧ s.byContent g = some id then none else s.byContent g := by
        intro g
        split
        · rfl
        · rename_i hc
          have hno : s.byContent g ≠ some id := by
            intro hg
            obtain ⟨e', he', -, hc'⟩ := h.named g id hg
            exact hc (some.inj (he'.symm.trans he) ▸ hc')
          rw [if_neg fun hg ↦ hno hg.2]
      have hrest : (if e.cached then s.unlist id e.contentId else s) =
          { s with byContent := (if e.cached then s.unlist id e.contentId else s).byContent } := by
        split <;> rfl
      rw [hrest]
      have huses := h.uses id e he
      refine h.replace he { e with cached := false } _ s.uses ⟨rfl, rfl, rfl⟩ (.inl rfl) ?_ nofun
        (fun _ ↦ hstale e he hu) (fun _ _ ↦ hreader e he hu) ⟨huses, fun _ _ ↦ rfl⟩ h.used
        h.nodup ?_
      · exact fun g ↦ (hname g).trans (by simp)
      · exact fun fl hfl ↦ (h.fills fl hfl).elim fun _ hok ↦ hok.used

theorem Sound.retireUnused (h : Sound s) (hunused : ∀ e, s.entries id = some e → e.uses = 0) :
    Sound (s.retire id) :=
  h.retire (fun e he hu ↦ absurd (hunused e he) hu) fun e he hu ↦ absurd (hunused e he) hu

theorem Sound.byContent_eq (h : Sound s) (he : s.entries id = some e) (g : Nat) :
    s.byContent g = if e.cached = false ∧ g = e.contentId ∧ s.byContent g = some id then none
      else s.byContent g := by
  split
  · rename_i hg
    obtain ⟨e', he', -, hc⟩ := h.named g id hg.2.2
    obtain rfl : e = e' := some.inj (he.symm.trans he')
    exact absurd hc (by simp [hg.1])
  · rfl

theorem Sound.spaces (h : Sound s) : ∀ fl ∈ s.fills, (fl.space, fl.id) ∈ s.uses :=
  fun fl hfl ↦ (h.fills fl hfl).elim fun _ hok ↦ hok.used

theorem Sound.makeStale (h : Sound s) (id : Nat) : Sound (s.makeStale id) := by
  rw [St.makeStale]
  split
  · exact h
  · rename_i e he
    have hname := h.byContent_eq he
    exact h.replace he { e with stale := true, blocks := false } s.byContent s.uses
      ⟨rfl, rfl, rfl⟩ (.inl rfl) hname (fun hc ↦ hc)
      (fun _ ↦ .inl rfl)
      (fun hc hc' ↦ by simp_all) ⟨h.uses id e he, fun _ _ ↦ rfl⟩ h.used h.nodup h.spaces

theorem Sound.addUse (h : Sound s) (hid : s.entries id ≠ none) (a : Nat) :
    Sound (s.addUse a id) := by
  rw [St.addUse]
  split
  · exact h
  · rename_i hnew
    obtain ⟨e, he⟩ := ne_none_iff_exists'.1 hid
    simp only [he]
    have hname := h.byContent_eq he
    refine h.replace he { e with uses := e.uses + 1 } s.byContent ((a, id) :: s.uses)
      ⟨rfl, rfl, rfl⟩ (.inl rfl) hname (fun hc ↦ hc)
      (h.retired id e he) (fun hc hc' ↦ by simp_all) ⟨?_, ?_⟩ ?_
      (nodup_cons.2 ⟨hnew, h.nodup⟩) fun fl hfl ↦ mem_cons_of_mem _ (h.spaces fl hfl)
    · simp [h.uses id e he]
    · intro i hi
      rw [countP_cons_of_neg (by simpa using Ne.symm hi)]
    · rintro u (_ | ⟨_, hu⟩)
      · exact hid
      · exact h.used u hu

theorem entries_addUse_ne_none (a i : Nat) (h : s.entries i ≠ none) :
    (s.addUse a id).entries i ≠ none := by
  rw [St.addUse]
  split
  · exact h
  · dsimp only
    split
    · exact h
    · simp only [St.setEntry, update_apply]
      split <;> simp_all

theorem Sound.forkUses (h : Sound s) (a b : Nat) : Sound (s.forkUses a b) := by
  rw [St.forkUses]
  have hused : ∀ u ∈ s.uses.filter (·.1 = a), s.entries u.2 ≠ none :=
    fun u hu ↦ h.used u (mem_filter.1 hu).1
  generalize s.uses.filter (·.1 = a) = l at hused
  induction l generalizing s with
  | nil => exact h
  | cons u l ih =>
    refine ih (h.addUse (hused u mem_cons_self) b) fun v hv ↦ ?_
    exact entries_addUse_ne_none b v.2 (hused v (mem_cons_of_mem _ hv))

theorem retire_uses (uses : List (Nat × Nat)) :
    ({ s with uses := uses } : St).retire id = { s.retire id with uses := uses } := by
  rw [St.retire, St.retire]
  cases he : s.entries id with
  | none => rfl
  | some e =>
    dsimp only
    split_ifs <;> rfl

/-- One id of an address space that goes. -/
theorem Sound.release {u : Nat × Nat} {uses : List (Nat × Nat)}
    (h : Sound { s with uses := u :: uses })
    (hspaces : ∀ fl ∈ s.fills, (fl.space, fl.id) ≠ u) :
    Sound { s.release u.2 with uses := uses } := by
  obtain ⟨e, he⟩ := ne_none_iff_exists'.1 (h.used u mem_cons_self)
  have he' : s.entries u.2 = some e := he
  have hcount : e.uses = uses.countP (·.2 = u.2) + 1 := by
    rw [h.uses u.2 e he]
    simp
  have hname := h.byContent_eq he
  obtain ⟨s₁, hs₁⟩ : ∃ s₁ : St, s₁ =
      { s.setEntry u.2 (some { e with uses := e.uses - 1 }) with uses := uses } := ⟨_, rfl⟩
  have hsound : Sound s₁ := by
    rw [hs₁]
    refine h.replace he { e with uses := e.uses - 1 } s.byContent uses ⟨rfl, rfl, rfl⟩ (.inl rfl) hname
      (fun hc ↦ hc) (h.retired u.2 e he) (fun hc hc' ↦ by simp_all)
      ⟨by simp [hcount], fun i hi ↦ ?_⟩ (fun v hv ↦ h.used v (mem_cons_of_mem _ hv))
      (nodup_cons.1 h.nodup).2 fun fl hfl ↦ ?_
    · rw [countP_cons_of_neg (by simpa using Ne.symm hi)]
    · exact (mem_cons.1 (h.spaces fl hfl)).resolve_left (hspaces fl hfl)
  rw [St.release, he']
  dsimp only
  split
  · rename_i hlast
    rw [← retire_uses, ← hs₁]
    refine hsound.retireUnused fun e' he' ↦ ?_
    simp only [hs₁, St.setEntry, update_self] at he'
    cases he'
    exact hlast.1
  · rwa [← hs₁]

theorem release_frame (s : St) (id : Nat) :
    (s.release id).uses = s.uses ∧ (s.release id).fills = s.fills := by
  have hretire : ∀ s : St, (s.retire id).uses = s.uses ∧ (s.retire id).fills = s.fills := by
    intro s
    rw [St.retire]
    split
    · exact ⟨rfl, rfl⟩
    · dsimp only
      split_ifs <;> exact ⟨rfl, rfl⟩
  rw [St.release]
  split
  · exact ⟨rfl, rfl⟩
  · dsimp only
    split
    · exact hretire _
    · exact ⟨rfl, rfl⟩

theorem Sound.perm (h : Sound s) {uses : List (Nat × Nat)} (hperm : s.uses.Perm uses) :
    Sound { s with uses := uses } := by
  refine { h with
    fills := fun fl hfl ↦ ?_
    uses := fun id e he ↦ (h.uses id e he).trans (hperm.countP_eq _)
    used := fun u hu ↦ h.used u (hperm.mem_iff.2 hu)
    nodup := hperm.nodup_iff.1 h.nodup }
  obtain ⟨e, hok⟩ := h.fills fl hfl
  exact ⟨e, { hok with used := hperm.mem_iff.1 hok.used }⟩

/-- An address space goes that no fill is for. -/
theorem Sound.releaseAll (h : Sound s) (hfills : ∀ fl ∈ s.fills, fl.space ≠ a) :
    Sound (s.releaseAll a) := by
  have hfold : ∀ (l uses : List (Nat × Nat)) (s : St), Sound { s with uses := l ++ uses } →
      (∀ u ∈ l, ∀ fl ∈ s.fills, (fl.space, fl.id) ≠ u) →
      Sound { l.foldl (fun s u ↦ s.release u.2) s with uses := uses } := by
    intro l
    induction l with
    | nil => exact fun uses s h _ ↦ h
    | cons u l ih =>
      intro uses s h hno
      refine ih uses (s.release u.2) (h.release (hno u mem_cons_self)) fun v hv fl hfl ↦ ?_
      rw [(release_frame s u.2).2] at hfl
      exact hno v (mem_cons_of_mem _ hv) fl hfl
  have huses : ∀ (l : List (Nat × Nat)) (s : St),
      (l.foldl (fun s u ↦ s.release u.2) s).uses = s.uses := by
    intro l
    induction l with
    | nil => exact fun s ↦ rfl
    | cons u l ih => exact fun s ↦ (ih _).trans (release_frame s u.2).1
  have hperm : s.uses.Perm (s.uses.filter (·.1 = a) ++ s.uses.filter (·.1 ≠ a)) := by
    have := filter_append_perm (fun u : Nat × Nat ↦ decide (u.1 = a)) s.uses
    simpa using this.symm
  have hall := hfold (s.uses.filter (·.1 = a)) (s.uses.filter (·.1 ≠ a))
    { s with uses := s.uses.filter (·.1 ≠ a) } (h.perm hperm) fun u hu fl hfl hfu ↦ by
      have := (mem_filter.1 hu).2
      exact hfills fl hfl (by simpa [← hfu] using this)
  have hsame : (s.releaseAll a).uses = s.uses.filter (·.1 ≠ a) := huses _ _
  have hall' : Sound { s.releaseAll a with uses := s.uses.filter (·.1 ≠ a) } := hall
  rwa [← hsame] at hall'

/-! ## Fills -/

theorem Sound.give (h : Sound s) {made : Nat} (hx : s.mem x = .page f made p) :
    Sound (s.give f made p x) := by
  refine { h with returned := fun r hr ↦ ?_ }
  obtain rfl | hr := mem_cons.1 hr
  · exact hx
  · exact h.returned r hr

/-- A frame that nobody has may hold anything. -/
theorem Sound.write (h : Sound s) (hno : ∀ k, ¬ Held s k x) (d : Data) :
    Sound { s with mem := update s.mem x d } := by
  have hmem : ∀ k y, Held s k y → update s.mem x d y = s.mem y :=
    fun k y hk ↦ update_of_ne (by rintro rfl; exact hno k hk) ..
  refine { h with slot := fun id e p y he hy ↦ ?_, fills := fun fl hfl ↦ ?_ }
  · dsimp only
    rw [hmem (.slot id p) y ⟨e, he, hy⟩]
    exact h.slot id e p y he hy
  · obtain ⟨e, hok⟩ := h.fills fl hfl
    refine ⟨e, { hok with data := ?_ }⟩
    dsimp only
    rw [hmem (.fill fl.filler) _ ⟨fl, hfl, rfl, rfl⟩]
    exact hok.data

/-- A frame is taken from the allocator: nobody has it. -/
theorem Sound.alloc (h : Sound s) (hx : s.free x = true) :
    (∀ k, ¬ Held s k x) ∧ s.pending x = false ∧ Sound { s with free := update s.free x false } := by
  have hno : ∀ k, ¬ Held s k x := fun k hk ↦ by
    have := (h.held k x hk).1
    simp_all
  have hpending : s.pending x = false := by
    by_contra hp
    have := h.apart x (by simpa using hp)
    simp_all
  have hfree : ∀ y, s.free y = false → update s.free x false y = false := by
    intro y hy
    rw [update_apply]
    split <;> simp_all
  exact ⟨hno, hpending, { h with
    held := fun k y hk ↦ ⟨hfree y (h.held k y hk).1, (h.held k y hk).2⟩
    apart := fun y hy ↦ hfree y (h.apart y hy) }⟩

/-- A fill begins with a frame that is nobody's. -/
theorem Sound.addFill (h : Sound s) (hnew : ∀ fl' ∈ s.fills, fl'.filler ≠ fl.filler)
    (hframe : s.free fl.frame = false ∧ s.pending fl.frame = false) (hno : ∀ k, ¬ Held s k fl.frame)
    (hok : ∃ e, FillOk s.entries s.uses s.mem fl e) : Sound { s with fills := fl :: s.fills } := by
  have hheld : ∀ k x, Held { s with fills := fl :: s.fills } k x →
      Held s k x ∨ k = .fill fl.filler ∧ x = fl.frame := by
    rintro (⟨i, p⟩ | k) x hk
    · exact .inl hk
    · obtain ⟨fl', hfl', rfl, rfl⟩ := hk
      obtain rfl | hfl' := mem_cons.1 hfl'
      · exact .inr ⟨rfl, rfl⟩
      · exact .inl ⟨fl', hfl', rfl, rfl⟩
  refine { h with
    held := fun k x hk ↦ ?_, own := fun k k' x hk hk' ↦ ?_, fills := fun fl' hfl' ↦ ?_
    fillers := fun fl' hfl' fl'' hfl'' heq ↦ ?_ }
  · obtain hk | ⟨-, rfl⟩ := hheld k x hk
    · exact h.held k x hk
    · exact hframe
  · obtain hk | ⟨rfl, rfl⟩ := hheld k x hk <;> obtain hk' | ⟨rfl, hx⟩ := hheld k' _ hk'
    · exact h.own k k' x hk hk'
    · exact absurd (hx ▸ hk) (hno k)
    · exact absurd hk' (hno k')
    · rfl
  · obtain rfl | hfl' := mem_cons.1 hfl'
    · exact hok
    · exact h.fills fl' hfl'
  · obtain rfl | hold := mem_cons.1 hfl' <;> obtain rfl | hold' := mem_cons.1 hfl''
    · rfl
    · exact absurd heq.symm (hnew fl'' hold')
    · exact absurd heq (hnew fl' hold)
    · exact h.fillers fl' hold fl'' hold' heq

/-- An entry of which pages are still read is current. -/
theorem Sound.cached (h : Sound s) (he : s.entries id = some e) (hp : p < e.pages)
    (hnone : e.frames p = none) (hstale : ¬ e.stale = true) : e.cached = true := by
  by_contra hc
  obtain hs | hfull := h.retired id e he (by simpa using hc)
  · exact hstale hs
  · exact hfull p hp hnone

theorem Sound.beginFill (h : Sound s) {k : Nat} {hole : Bool} (hk : ∀ fl ∈ s.fills, fl.filler ≠ k)
    (hused : (a, id) ∈ s.uses) (hs : s.beginFill k a id p x hole = some s') : Sound s' := by
  rw [St.beginFill] at hs
  split at hs
  · exact some.inj hs ▸ h
  · rename_i e he
    split at hs
    · exact some.inj hs ▸ h
    · rename_i hp
      split at hs
      · rename_i y hy
        exact some.inj hs ▸ h.give (h.slot id e p y he hy).2
      · split at hs
        · exact some.inj hs ▸ h
        · rename_i hnone hstale
          obtain ⟨hx, ⟨⟩⟩ := of_ite_right hs (some_ne_none _).symm
          obtain ⟨hno, hpending, hsound⟩ := h.alloc hx
          have hcached := h.cached he (Nat.lt_of_not_le hp) hnone hstale
          refine (hsound.write hno (.other 0)).addFill hk ⟨update_self .., hpending⟩ hno
            ⟨e, he, rfl, rfl, Nat.lt_of_not_le hp, hused, fun _ _ ↦ .inl hcached, ?_⟩
          rintro ⟨⟩

theorem mem_of_find {k : Nat} (hfind : s.fills.find? (·.filler = k) = some fl) :
    fl ∈ s.fills ∧ fl.filler = k :=
  ⟨mem_of_find?_eq_some hfind, by simpa using find?_some hfind⟩

/-- A fill is over, and its frame is nobody's. -/
theorem Sound.dropFill (h : Sound s) (k : Nat) :
    Sound { s with fills := s.fills.filter (·.filler ≠ k) } := by
  have hsub : ∀ fl, fl ∈ s.fills.filter (·.filler ≠ k) → fl ∈ s.fills :=
    fun fl hfl ↦ (mem_filter.1 hfl).1
  have hheld : ∀ k' x, Held { s with fills := s.fills.filter (·.filler ≠ k) } k' x →
      Held s k' x := by
    rintro (⟨i, p⟩ | k') x hk
    · exact hk
    · obtain ⟨fl, hfl, hrest⟩ := hk
      exact ⟨fl, hsub fl hfl, hrest⟩
  exact { h with
    held := fun k x hk ↦ h.held k x (hheld k x hk)
    own := fun k k' x hk hk' ↦ h.own k k' x (hheld k x hk) (hheld k' x hk')
    fills := fun fl hfl ↦ h.fills fl (hsub fl hfl)
    fillers := fun fl hfl fl' hfl' ↦ h.fillers fl (hsub fl hfl) fl' (hsub fl' hfl') }

/-- What is left when a fill is over has not got its frame. -/
theorem Sound.not_held (h : Sound s) (hfl : fl ∈ s.fills) (k : Holder) :
    ¬ Held { s with fills := s.fills.filter (·.filler ≠ fl.filler) } k fl.frame := by
  have hfill : Held s (.fill fl.filler) fl.frame := ⟨fl, hfl, rfl, rfl⟩
  rintro hk
  cases k with
  | slot id p => exact nomatch h.own _ _ _ (show Held s (.slot id p) fl.frame from hk) hfill
  | fill k =>
    obtain ⟨fl', hfl', hk', hx⟩ := hk
    obtain ⟨hfl', hne⟩ := mem_filter.1 hfl'
    have hsame : Holder.fill fl'.filler = .fill fl.filler :=
      h.own _ _ fl.frame ⟨fl', hfl', rfl, hx⟩ hfill
    simp [Holder.fill.inj hsame] at hne

/-- The frame of nobody is on its way to the allocator. -/
theorem Sound.toPending (h : Sound s) (hfree : s.free x = false) (hno : ∀ k, ¬ Held s k x) :
    Sound { s with pending := update s.pending x true } := by
  refine { h with held := fun k y hk ↦ ?_, apart := fun y hy ↦ ?_ }
  · have hne : y ≠ x := fun hyx ↦ hno k (hyx ▸ hk)
    dsimp only
    rw [update_of_ne hne]
    exact h.held k y hk
  · simp only [update_apply] at hy
    split at hy
    · simp_all
    · exact h.apart y hy

/-- A page gets a frame that is nobody's and holds it. -/
theorem Sound.fillPage (h : Sound s) (he : s.entries id = some e) (hp : p < e.pages)
    (hframe : s.free x = false ∧ s.pending x = false) (hno : ∀ k, ¬ Held s k x)
    (hx : s.mem x = .page e.contentId e.made p) :
    Sound (s.setEntry id (some { e with frames := update e.frames p (some x) })) := by
  have hname := h.byContent_eq he
  exact h.replace he _ s.byContent s.uses ⟨rfl, rfl, rfl⟩
    (.inr ⟨p, x, rfl, ⟨hp, hx⟩, hframe, hno⟩) hname (fun hc ↦ hc) (h.retired id e he)
    (fun hc hc' ↦ by simp_all) ⟨h.uses id e he, fun _ _ ↦ rfl⟩ h.used h.nodup h.spaces

theorem Sound.publish (h : Sound s) {ok : Bool} (hfl : fl ∈ s.fills) (hread : fl.read = some ok)
    (hs : s.publish fl ok = some s') : Sound s' := by
  obtain ⟨e, hok⟩ := h.fills fl hfl
  have hdrop := h.dropFill fl.filler
  have hno := h.not_held hfl
  have hframe := h.held (.fill fl.filler) fl.frame ⟨fl, hfl, rfl, rfl⟩
  have hpending := hdrop.toPending hframe.1 hno
  have he := hok.entry
  simp only [St.publish, he] at hs
  rw [if_neg (Nat.not_le.2 hok.page)] at hs
  split at hs
  · rename_i y hy
    have hslot := (h.slot fl.id e fl.page y he hy).2
    rw [hok.file, hok.made] at hslot
    exact some.inj hs ▸ hpending.give hslot
  · rename_i hnone
    split at hs
    · rename_i hgood
      have hmem : s.mem fl.frame = .page fl.contentId fl.made fl.page :=
        (hok.data (by rw [hread, hgood])).resolve_right (by simp [hnone])
      rw [← some.inj hs]
      refine (hdrop.fillPage he hok.page hframe hno ?_).give hmem
      rw [hok.file, hok.made]
      exact hmem
    · exact some.inj hs ▸ hpending

/-- A fill reads, if it is still to be published, what its entry's file holds. -/
theorem Sound.readFill (h : Sound s) (hfl : fl ∈ s.fills) (hread : fl.read = none) (ok : Bool)
    (other : Nat) : Sound { s with
      mem := update s.mem fl.frame (s.readPage fl.source fl.contentId fl.made fl.page other)
      fills := { fl with read := some ok } :: s.fills.filter (·.filler ≠ fl.filler) } := by
  obtain ⟨e, hok⟩ := h.fills fl hfl
  have hframe := h.held (.fill fl.filler) fl.frame ⟨fl, hfl, rfl, rfl⟩
  have hno := h.not_held hfl
  have hdata : s.readPage fl.source fl.contentId fl.made fl.page other =
      .page fl.contentId fl.made fl.page ∨ e.frames fl.page ≠ none := by
    by_cases hhole : fl.source = .hole
    · rw [hhole]
      exact .inl rfl
    · refine (hok.unread hread hhole).imp_left fun hc ↦ ?_
      have hversion := (h.current fl.id e hok.entry hc).2.1
      rw [hok.file, hok.made] at hversion
      cases hsrc : fl.source with
      | device => rw [St.readPage, if_pos hversion]
      | hole => rfl
      | file => rw [St.readPage, hversion]
  refine ((h.dropFill fl.filler).write hno _).addFill ?_ hframe hno
    ⟨e, hok.entry, hok.file, hok.made, hok.page, hok.used, nofun, fun _ ↦ ?_⟩
  · intro fl' hfl'
    simpa using (mem_filter.1 hfl').2
  · dsimp only
    rw [update_self]
    exact hdata

/-! ## Changes -/

theorem Sound.setChange (h : Sound s) {c : Option Change}
    (hc : ∀ c', c = some c' → ChangeOk s.entries s.byContent c') : Sound { s with change := c } :=
  { h with change := hc }

/-- A file changes that has no entry. -/
theorem Sound.bump (h : Sound s) (hf : s.byContent f = none) (size : Nat) (blocks : Bool) :
    Sound (s.bump f size blocks) := by
  refine { h with current := fun id e he hc ↦ ?_ }
  obtain ⟨hname, hversion, hsize⟩ := h.current id e he hc
  have hne : e.contentId ≠ f := by
    rintro rfl
    simp [hf] at hname
  exact ⟨hname, (update_of_ne hne ..).trans hversion, hsize.trans (update_of_ne hne ..).symm⟩

/-- A retired entry is not found by its content id. -/
theorem byContent_retire (hs : Sound (s.retire id))
    (hf : ∀ i, s.byContent f = some i → i = id) : (s.retire id).byContent f = none := by
  have hsub : ∀ i, (s.retire id).byContent f = some i → s.byContent f = some i := by
    intro i
    rw [St.retire]
    split
    · exact fun hi ↦ hi
    · dsimp only
      split_ifs <;> simp only [St.remove, St.setEntry, St.unlist] <;> grind
  have hgone : ∀ e, (s.retire id).entries id = some e → e.cached = false := by
    intro e he
    rw [St.retire] at he
    split at he
    · simp_all
    · dsimp only at he
      split_ifs at he <;> simp [St.remove, St.setEntry, St.unlist] at he <;> grind
  by_contra hne
  obtain ⟨i, hi⟩ := ne_none_iff_exists'.1 hne
  obtain ⟨e, he, -, hc⟩ := hs.named f i hi
  rw [hf i (hsub i hi)] at he
  simp [hgone e he] at hc

/-- An entry is retired whose other pages will never be read. -/
theorem Sound.retireStale (h : Sound s) (hno : NoReader s id)
    (hf : ∀ i, s.byContent f = some i → i = id) :
    Sound ((s.makeStale id).retire id) ∧ ((s.makeStale id).retire id).byContent f = none := by
  have hstale := h.makeStale id
  have hfields : ∀ e, (s.makeStale id).entries id = some e → e.stale = true := by
    intro e he
    rw [St.makeStale] at he
    split at he
    · simp_all
    · simp only [St.setEntry, update_self] at he
      cases he
      rfl
  have hframe : (s.makeStale id).fills = s.fills ∧ (s.makeStale id).byContent = s.byContent := by
    rw [St.makeStale]
    split <;> exact ⟨rfl, rfl⟩
  have hretire : Sound ((s.makeStale id).retire id) :=
    hstale.retire (fun _ _ _ ↦ .inl (by rw [NoReader, hframe.1]; exact hno))
      fun e he _ ↦ .inl (hfields e he)
  exact ⟨hretire, byContent_retire hretire (by rw [hframe.2]; exact hf)⟩

theorem Sound.endChange (h : Sound s) {c : Change}
    (hname : ∀ i, s.byContent c.file = some i → i = c.id)
    (hfull : c.complete = true →
      ∀ e, s.entries c.id = some e → e.uses ≠ 0 → ∀ p < e.pages, e.frames p ≠ none)
    (hreader : c.complete = false → NoReader s c.id) : Sound (s.endChange c) := by
  have hnone : Sound { s with change := none } := h.setChange nofun
  rw [St.endChange]
  split
  · rename_i hcomplete
    have hretire : Sound (({ s with change := none } : St).retire c.id) :=
      hnone.retire (fun e he hu ↦ .inr (hfull hcomplete e he hu))
        fun e he hu ↦ .inr (hfull hcomplete e he hu)
    exact hretire.bump (byContent_retire hretire hname) _ _
  · rename_i hcomplete
    obtain ⟨hretire, hname⟩ := hnone.retireStale (hreader (by simpa using hcomplete)) hname
    exact hretire.bump hname _ _

theorem Sound.beginChange (h : Sound s) {size : Nat} {blocks : Bool}
    (hp : ∀ id ∈ s.byContent f, ∀ e ∈ s.entries id,
      e.uses ≠ 0 → e.blocks = false → ∀ p ∈ List.range e.pages, e.frames p ≠ none) :
    Sound (s.beginChange f size blocks) := by
  rw [St.beginChange]
  split
  · exact h.bump ‹_› _ _
  · rename_i id hid
    obtain ⟨e, he, hf, hc⟩ := h.named f id hid
    have hsame : ∀ e', s.entries id = some e' → e = e' :=
      fun e' he' ↦ some.inj (he.symm.trans he')
    have hname : ∀ i, s.byContent f = some i → i = id :=
      fun i hi ↦ some.inj (hi.symm.trans hid)
    simp only [he, map_some, getD_some]
    split
    · rename_i htodo
      refine h.endChange hname (fun _ e' he' hu p hpage hnone ↦ ?_) nofun
      obtain rfl := hsame e' he'
      by_cases hb : e.blocks = true
      · rw [Entry.unfilled, if_neg (by simp [hu, hb])] at htodo
        exact absurd (mem_filter.2 ⟨mem_range.2 hpage, by simp [hnone]⟩)
          (htodo ▸ not_mem_nil)
      · exact hp id hid e he hu (by simpa using hb) p (mem_range.2 hpage) hnone
    · rename_i htodo
      refine h.setChange fun c hc ↦ ?_
      obtain rfl := some.inj hc
      refine ⟨fun e' he' ↦ hsame e' he' ▸ hf, hname, fun _ e' he' p hpage hnone ↦ ?_⟩
      obtain rfl := hsame e' he'
      rw [Entry.unfilled] at htodo
      split at htodo
      · exact absurd rfl htodo
      · show p ∈ e.unfilled
        rw [Entry.unfilled, if_neg ‹_›]
        exact mem_filter.2 ⟨mem_range.2 hpage, by simp [hnone]⟩

theorem Sound.changeFill (h : Sound s) {c : Change} {other : Nat} {rest : List Nat} {ok : Bool}
    (hc : s.change = some c) (htodo : c.todo = p :: rest)
    (hs : s.changeFill c p x rest ok other = some s') : Sound s' := by
  obtain ⟨hfile, hname, hfilled⟩ := h.change c hc
  have hfailed : Sound { s with change := some { c with todo := rest, complete := false } } := by
    refine h.setChange fun c' hc' ↦ ?_
    obtain rfl := some.inj hc'
    exact ⟨hfile, hname, nofun⟩
  rw [St.changeFill] at hs
  split at hs
  · exact some.inj hs ▸ hfailed
  · rename_i e he
    have hdone : ∀ frames : Nat → Option Nat, (∀ q, e.frames q ≠ none → frames q ≠ none) →
        frames p ≠ none → c.complete = true → ∀ q < e.pages, frames q = none → q ∈ rest := by
      intro frames hmono hp hcomplete q hq hnone
      have hmem := hfilled hcomplete e he q hq (by_contra fun hne ↦ hmono q hne hnone)
      rw [htodo] at hmem
      exact (mem_cons.1 hmem).resolve_left fun hqp ↦ hp (hqp ▸ hnone)
    split at hs
    · exact some.inj hs ▸ hfailed
    · rename_i hp
      split at hs
      · rename_i hsome
        obtain rfl := some.inj hs
        refine h.setChange fun c' hc' ↦ ?_
        obtain rfl := some.inj hc'
        refine ⟨hfile, hname, fun hcomplete e' he' ↦ ?_⟩
        obtain rfl : e = e' := some.inj (he.symm.trans he')
        exact hdone e.frames (fun _ hq ↦ hq) (isSome_iff_ne_none.1 hsome) hcomplete
      · rename_i hnone
        split at hs
        · exact some.inj hs ▸ hfailed
        · rename_i hstale
          obtain ⟨hx, ⟨⟩⟩ := of_ite_right hs nofun
          obtain ⟨hno, hpending, hsound⟩ := h.alloc hx
          have hcached := h.cached he (Nat.lt_of_not_le hp) (by simpa using hnone)
            fun hs ↦ hstale (.inl hs)
          have hdata : s.readPage .device e.contentId e.made p other =
              .page e.contentId e.made p := by
            rw [St.readPage, if_pos (h.current c.id e he hcached).2.1]
          have hwrite := hsound.write hno (s.readPage .device e.contentId e.made p other)
          have hpage := hwrite.fillPage he (Nat.lt_of_not_le hp)
            ⟨update_self .., hpending⟩ hno ((update_self ..).trans hdata)
          refine hpage.setChange fun c' hc' ↦ ?_
          obtain rfl := some.inj hc'
          have hentry : ∀ e', update s.entries c.id
              (some { e with frames := update e.frames p (some x) }) c.id = some e' →
              { e with frames := update e.frames p (some x) } = e' := by
            intro e' he'
            rw [update_self] at he'
            exact some.inj he'
          refine ⟨fun e' he' ↦ hentry e' he' ▸ hfile e he, hname, fun hcomplete e' he' ↦ ?_⟩
          rw [← hentry e' he']
          refine hdone (update e.frames p (some x)) (fun q hq ↦ ?_) (by simp) hcomplete
          rw [update_apply]
          split <;> simp_all

theorem Sound.vnodeGone (h : Sound s) (hp : ∀ id ∈ s.byContent f, NoReader s id) :
    Sound (s.vnodeGone f) := by
  rw [St.vnodeGone]
  split
  · exact h.bump ‹_› _ _
  · rename_i id hid
    have hname : ∀ i, s.byContent f = some i → i = id :=
      fun i hi ↦ some.inj (hi.symm.trans hid)
    split
    · obtain ⟨hretire, hnone⟩ := h.retireStale (hp id hid) hname
      exact hretire.bump hnone _ _
    · rename_i hunused
      have hretire := h.retireUnused fun e he ↦ by
        rw [he] at hunused
        simpa using hunused
      exact hretire.bump (byContent_retire hretire hname) _ _

/-! ## New entries -/

theorem Sound.make (h : Sound s) {size : Nat} (hsize : size = s.size f)
    (hcurrent : s.current f size = none) (hchange : s.change = none)
    (hs : s.make f size id = some s') : Sound s' := by
  have hf : s.byContent f = none := by
    by_contra hne
    obtain ⟨i, hi⟩ := ne_none_iff_exists'.1 hne
    obtain ⟨e, he, hf, hc⟩ := h.named f i hi
    have := (h.current i e he hc).2.2
    simp [St.current, hi, he, this, hf, hsize] at hcurrent
  simp only [St.make, hf, elim_none] at hs
  obtain ⟨hid, ⟨⟩⟩ := of_ite_right hs nofun
  obtain ⟨e, he⟩ : ∃ e : Entry,
    e = ⟨f, size, fun _ ↦ none, s.blocks f, false, 0, true, s.version f⟩ := ⟨_, rfl⟩
  rw [← he]
  show Sound { s.setEntry id (some e) with byContent := update s.byContent f (some id) }
  have hentry : ∀ i, (s.setEntry id (some e)).entries i =
      if i = id then some e else s.entries i :=
    fun i ↦ update_apply ..
  have hno : ∀ u ∈ s.uses, u.2 ≠ id := fun u hu hu' ↦ h.used u hu (hu' ▸ hid)
  have hheld : ∀ k x,
      Held { s.setEntry id (some e) with byContent := update s.byContent f (some id) } k x →
      Held s k x := by
    rintro (⟨i, p⟩ | k) x hk
    · obtain ⟨e', he', hx⟩ := hk
      by_cases hi : i = id
      · grind
      · exact ⟨e', by grind, hx⟩
    · exact hk
  refine ⟨?_, ?_, ?_, ?_, fun k x hk ↦ h.held k x (hheld k x hk),
    fun k k' x hk hk' ↦ h.own k k' x (hheld k x hk) (hheld k' x hk'), h.apart, ?_, h.fillers,
    ?_, ?_, h.nodup, fun c hc ↦ ?_, h.returned⟩
  · intro g i hi
    by_cases hg : g = f
    · exact ⟨e, by grind, by grind, by grind⟩
    · obtain ⟨e', he', hf', hc⟩ := h.named g i (by grind)
      exact ⟨e', by grind, hf', hc⟩
  · intro i e' he' hc
    by_cases hi : i = id
    · obtain rfl : e = e' := by grind
      refine ⟨by grind, ?_, ?_⟩ <;> simp [he, St.setEntry, hsize]
    · obtain ⟨hnamed, hcur⟩ := h.current i e' (by grind) hc
      exact ⟨by grind, hcur⟩
  · intro i e' he' hc
    by_cases hi : i = id
    · grind
    · exact h.retired i e' (by grind) hc
  · intro i e' p x he' hx
    by_cases hi : i = id
    · grind
    · exact h.slot i e' p x (by grind) hx
  · intro fl hfl
    obtain ⟨e', hok⟩ := h.fills fl hfl
    have hne : fl.id ≠ id := hno _ hok.used
    exact ⟨e', { hok with entry := by rw [hentry, if_neg hne]; exact hok.entry }⟩
  · intro i e' he'
    by_cases hi : i = id
    · obtain rfl : e = e' := by grind
      rw [hi, he]
      exact (countP_eq_zero.2 fun u hu ↦ by simpa using hno u hu).symm
    · exact h.uses i e' (by grind)
  · intro u hu
    have := h.used u hu
    grind
  · exact absurd (hchange.symm.trans hc) nofun

/-! ## Every run -/

theorem step_inv {ev : Event} (h : Sound s) (hp : Proper s ev) (hs : step s ev = some s') :
    Sound s' := by
  cases ev with
  | entryFor f size id =>
    rw [step] at hs
    split at hs
    · exact some.inj hs ▸ h
    · rename_i hmiss
      obtain ⟨hchange, hs⟩ := of_ite_left hs nofun
      exact h.make hp (by simpa using fun hc ↦ hmiss (.inr hc)) (by simpa using hchange) hs
  | use a id => exact some.inj hs ▸ h.addUse hp a
  | fork a b =>
    exact some.inj (of_ite_left hs nofun).2 ▸ h.forkUses a b
  | release a => exact some.inj hs ▸ h.releaseAll hp
  | beginFill k a id p x hole =>
    obtain ⟨hk, hs⟩ := of_ite_left hs nofun
    exact h.beginFill (by simpa using hk) hp hs
  | readFill k ok other =>
    rw [step] at hs
    split at hs
    · cases hs
    · rename_i fl hfind
      obtain ⟨hfl, rfl⟩ := mem_of_find hfind
      obtain ⟨hno, hs⟩ := of_ite_left hs nofun
      exact some.inj hs ▸ h.readFill hfl (by simpa using fun hr ↦ hno (.inl hr)) _ other
  | endFill k =>
    rw [step, bind_eq_some_iff] at hs
    obtain ⟨fl, hfind, hs⟩ := hs
    obtain ⟨ok, hread, hs⟩ := bind_eq_some_iff.1 hs
    exact h.publish (mem_of_find hfind).1 hread hs
  | beginChange f size blocks =>
    exact some.inj (of_ite_left hs nofun).2 ▸ h.beginChange hp
  | changeFill x ok other =>
    rw [step, bind_eq_some_iff] at hs
    obtain ⟨c, hc, hs⟩ := hs
    split at hs
    · cases hs
    · exact h.changeFill hc ‹_› hs
  | endChange =>
    rw [step, bind_eq_some_iff] at hs
    obtain ⟨c, hc, hs⟩ := hs
    obtain ⟨-, hname, hfilled⟩ := h.change c hc
    obtain ⟨htodo, hs⟩ := of_ite_right hs nofun
    refine some.inj hs ▸ h.endChange hname (fun hcomplete e he _ p hpage hnone ↦ ?_)
      fun hno ↦ (hp c hc).resolve_left (by simp [hno])
    exact absurd (hfilled hcomplete e he p hpage hnone) (htodo ▸ not_mem_nil)
  | vnodeGone f =>
    exact some.inj (of_ite_left hs nofun).2 ▸ h.vnodeGone hp
  | evict id =>
    obtain ⟨hunused, hs⟩ := of_ite_right hs nofun
    exact some.inj hs ▸ h.retireUnused fun e he ↦ by simp_all
  | reclaim id =>
    rw [step, bind_eq_some_iff] at hs
    obtain ⟨e, he, hs⟩ := hs
    obtain ⟨hu, ⟨⟩⟩ := of_ite_right hs nofun
    refine h.remove he hu (fun x hx ↦ .inl hx) (fun x hx ↦ Bool.or_eq_true_iff.1 hx) fun x hx ↦ ?_
    have hfree := h.apart x hx
    have hholds : e.holds x = false := by
      by_contra hholds
      have := (h.held_of_holds he (by simpa using hholds)).2
      simp_all [St.remove, St.setEntry, St.unlist]
    show (s.free x || e.holds x) = false
    rw [hfree, hholds]
    rfl
  | freePending =>
    obtain rfl := some.inj hs
    refine { h with held := fun k x hk ↦ ⟨?_, rfl⟩, apart := nofun }
    obtain ⟨hfree, hpending⟩ := h.held k x hk
    show (s.free x || s.pending x) = false
    rw [hfree, hpending]
    rfl

theorem boot_inv (size : Nat → Nat) (blocks : Nat → Bool) (n : Nat) :
    Sound (boot size blocks n) := by
  have hno : ∀ k x, ¬ Held (boot size blocks n) k x := by
    rintro (⟨i, p⟩ | k) x hk
    · obtain ⟨e, he, -⟩ := hk
      cases he
    · obtain ⟨fl, hfl, -⟩ := hk
      cases hfl
  exact ⟨nofun, nofun, nofun, nofun, fun k x hk ↦ absurd hk (hno k x),
    fun k k' x hk ↦ absurd hk (hno k x), nofun, nofun, nofun, nofun, nofun, nodup_nil, nofun,
    nofun⟩

/-- A file of two pages is mapped, and changed while a fill waits for its second page; the address
space forks, and the first one goes. -/
def mapped : List Event :=
  [.entryFor 1 5000 0, .use 7 0, .beginFill 3 7 0 0 0 false, .readFill 3 true 0, .endFill 3,
   .beginFill 3 7 0 1 1 false, .beginChange 1 4096 true, .changeFill 2 true 0, .endChange,
   .readFill 3 true 99, .endFill 3, .fork 7 8, .release 7, .freePending, .entryFor 1 4096 1]

/-- A fill waits for its page while its file's vnode goes. -/
def revoked : List Event :=
  [.entryFor 1 5000 0, .use 7 0, .beginFill 3 7 0 0 0 false, .vnodeGone 1, .readFill 3 true 99,
   .endFill 3]

end OxideBSD.PageCache
