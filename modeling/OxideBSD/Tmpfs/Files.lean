import OxideBSD.Kern.Uio
import OxideBSD.Lib.Machine

/-!
# Files of tmpfs

The data of regular files in `sys/modules/tmpfs/src/lib.rs`: `take_page`, `give_page`, `Pages`,
`resize`, `tmpfs_read`, `tmpfs_write` and `tmpfs_allocate`.  A file is a table of pages, some of them
holes, reached directly or through index pages; a mount counts the pages its files hold.

* `Pages` is the table.  `entry i` is the address slot of page `i`, in the node or in an index page,
  and `index` says which index pages there are.
* `Work` is what one call works on; `getOrMake`, `truncate`, `write`, `read`, `resize` and `allocate`
  are the code, with the transfers of `OxideBSD.Kern.Uio`.
* `step` is the machine, with what each file should hold beside it: the last byte that a counted part
  of a write put there since it was cut off, or zero.
* `Sound` is that reads return this, that the mount's count is right and within its size, and that no
  file holds a page past its end.
* `run_files`: it holds in every state of a run in which no write meets a bad address, but for its
  first byte within the file, and no allocation past the end runs out of pages (`Proper`).
* `torn_write_kept`: it does not in general; what a failing copy has moved stays in the page.
-/

set_option autoImplicit false

namespace OxideBSD.Tmpfs

open Function Kern Finset

def EFBIG : Nat := 27
def ENOSPC : Nat := 28

/-! ## Pages -/

abbrev Page := Nat → UInt8

structure TmpMount where
  pages : Nat
  maxPages : Nat
  maxfilesize : Nat
  deriving DecidableEq, Repr

/-- `slots` is the length of the vector of index pages. -/
structure Pages where
  entry : Nat → Option Page
  index : Nat → Bool
  slots : Nat

structure File where
  size : Nat
  data : Pages

/-- The index page of page `i`, one of those past `NDIRECT`. -/
def slotOf (i : Nat) : Nat := (i - 8) / 512

namespace Pages

variable (p : Pages)

def empty : Pages := ⟨fun _ ↦ none, fun _ ↦ false, 0⟩

def get (i : Nat) : Option Page :=
  if i < 8 ∨ slotOf i < p.slots ∧ p.index (slotOf i) then p.entry i else none

/-- The byte at `o`; a hole reads as zeros. -/
def content (o : Nat) : UInt8 := (p.get (o / 4096)).elim 0 fun page ↦ page (o % 4096)

/-- `while self.index.last() == Some(&0)` -/
def popped (index : Nat → Bool) : Nat → Nat
  | 0 => 0
  | n + 1 => if index n then n + 1 else popped index n

/-- What `truncate` leaves. -/
def cut (first : Nat) : Pages :=
  let index := fun slot ↦ p.index slot && decide (slot * 512 < first - 8)
  ⟨fun i ↦ if i < first then p.entry i else none, index, popped index p.slots⟩

/-- How many pages `truncate` gives back. -/
def freed (first : Nat) : Nat :=
  #{i ∈ range (8 + 512 * p.slots) | (p.get i).isSome ∧ first ≤ i} +
    #{slot ∈ range p.slots | p.index slot ∧ first - 8 ≤ slot * 512}

/-- The bytes `bytes` at `off`, within one page. -/
def poke (off : Nat) (bytes : List UInt8) : Pages :=
  { p with entry := update p.entry (off / 4096) ((p.entry (off / 4096)).map fun page b ↦
      if off % 4096 ≤ b ∧ b < off % 4096 + bytes.length then bytes.getD (b - off % 4096) 0 else page b) }

/-- The rest of the page that `size` is in is cleared. -/
def clearTail (size : Nat) : Pages :=
  if size % 4096 = 0 then p
  else { p with entry := update p.entry (size / 4096) ((p.entry (size / 4096)).map fun page b ↦
    if size % 4096 ≤ b then 0 else page b) }

end Pages

/-! ## One call -/

/-- What a call works on; `spare` is how many pages the kernel can give it. -/
structure Work where
  m : TmpMount
  spare : Nat
  file : File

namespace Work

variable (x : Work)

/-- `take_page` -/
def takePage : Option Work :=
  if x.m.maxPages ≤ x.m.pages ∨ x.spare = 0 then none
  else some { x with m.pages := x.m.pages + 1, spare := x.spare - 1 }

def fill (i : Nat) : Bool × Work :=
  match x.takePage with
  | none => (false, x)
  | some x => (true, { x with file.data.entry := update x.file.data.entry i (some fun _ ↦ 0) })

/-- `get_or_make`; `room` if the vector of index pages can grow.  It is one answer for a whole call,
where the source asks `try_reserve` at each growth. -/
def getOrMake (room : Bool) (i : Nat) : Bool × Work :=
  if (x.file.data.get i).isSome then (true, x)
  else if i < 8 then x.fill i
  else if x.file.data.slots ≤ slotOf i ∧ !room then (false, x)
  else
    let x := { x with file.data.slots := max x.file.data.slots (slotOf i + 1) }
    if x.file.data.index (slotOf i) then x.fill i
    else match x.takePage with
      | none => (false, x)
      | some x =>
        { x with file.data.index := update x.file.data.index (slotOf i) true }.fill i

/-- `truncate` -/
def truncate (first : Nat) : Work :=
  { x with m.pages := x.m.pages - x.file.data.freed first, file.data := x.file.data.cut first }

/-- `resize` -/
def resize (size : Nat) : Except Nat Unit × Work :=
  if x.m.maxfilesize < size then (.error EFBIG, x)
  else if size < x.file.size then
    let x := x.truncate ((size + 4095) / 4096)
    (.ok (), { x with file := ⟨size, x.file.data.clearTail size⟩ })
  else (.ok (), { x with file.size := size })

def allocLoop (room : Bool) : List Nat → Work → Bool × Work
  | [], x => (true, x)
  | i :: is, x =>
    let r := x.getOrMake room i
    if r.1 then allocLoop room is r.2 else (false, r.2)

/-- The pages of the bytes from `offset` to `last`. -/
def pagesOf (offset last : Nat) : List Nat :=
  List.range' (offset / 4096) ((last + 4095) / 4096 - offset / 4096)

/-- `tmpfs_allocate` -/
def allocate (room : Bool) (offset len : Nat) : Except Nat Unit × Work :=
  if x.m.maxfilesize < offset + len then (.error EFBIG, x)
  else
    let r := allocLoop room (pagesOf offset (offset + len)) x
    if r.1 then (.ok (), { r.2 with file.size := max r.2.file.size (offset + len) })
    else (.error ENOSPC, r.2)

end Work

/-- What the copy at `u` that fails has copied before: of a range within the user's, the part before
the first bad address. -/
def torn (mem : Memory) (left : Nat) (u : Uio) : List Nat :=
  let seg := u.iov.getD u.idx ⟨0, 0⟩
  let n := min (seg.len - u.segOff) left
  let addr := (seg.base + u.segOff) % 2 ^ 64
  if vmMinUser ≤ addr ∧ addr + n ≤ vmMaxUser then (addrs addr n).takeWhile mem.readable else []

/-- What `uiomove` has put into the kernel's buffer when it returns. -/
def copyin (mem : Memory) (len : Nat) (u : Uio) : List UInt8 × Bool × Uio :=
  let r := u.moveRaw mem.readable len
  if r.2.1 then ((r.1 ++ torn mem (len - r.1.length) r.2.2).map mem.byte, r.2)
  else (r.1.map mem.byte, r.2)

/-- The loop of `tmpfs_write`: the bytes counted, the error, and the file. -/
def writeLoop (mem : Memory) (room : Bool) (limit : Nat) :
    Nat → Nat → Uio → Work → List UInt8 × Nat × Work
  | 0, _, _, x => ([], 0, x)
  | fuel + 1, off, u, x =>
    if limit ≤ off then ([], 0, x)
    else
      let made := x.getOrMake room (off / 4096)
      if !made.1 then ([], ENOSPC, made.2)
      else
        let r := copyin mem (min (4096 - off % 4096) (limit - off)) u
        let x := { made.2 with file.data := made.2.file.data.poke off r.1 }
        if r.2.1 then ([], EFAULT, x)
        else if r.1 = [] then ([], 0, x)
        else
          let rest := writeLoop mem room limit fuel (off + r.1.length) r.2.2
            { x with file.size := max x.file.size (off + r.1.length) }
          (r.1 ++ rest.1, rest.2)

/-- `tmpfs_write`: what it returns, and the bytes it counted with their offset. -/
def write (mem : Memory) (append room : Bool) (u : Uio) (x : Work) :
    Except Nat Nat × (Nat × List UInt8) × Work :=
  let off := if append then x.file.size else u.offset.toNat
  if u.resid = 0 then (.ok 0, (off, []), x)
  else if x.m.maxfilesize ≤ off then (.error EFBIG, (off, []), x)
  else
    let limit := min x.m.maxfilesize (off + u.resid)
    let r := writeLoop mem room limit (limit - off) off u x
    (if r.1 = [] ∧ r.2.1 ≠ 0 then .error r.2.1 else .ok r.1.length, (off, r.1), r.2.2)

/-- The loop of `tmpfs_read`: the bytes moved out, and the error. -/
def readLoop (mem : Memory) (f : File) : Nat → Nat → Uio → List UInt8 × Nat
  | 0, _, _ => ([], 0)
  | fuel + 1, off, u =>
    if u.resid = 0 ∨ f.size ≤ off then ([], 0)
    else
      let len := min (min u.resid (4096 - off % 4096)) (f.size - off)
      let data := match f.data.get (off / 4096) with
        | some page => (List.range len).map fun i ↦ page (off % 4096 + i)
        | none => List.replicate (min len 512) 0
      match u.uiomoveOut mem data with
      | (.error e, _) => ([], e)
      | (.ok bytes, u) =>
        if bytes = [] then ([], 0)
        else
          let rest := readLoop mem f fuel (off + bytes.length) u
          (bytes ++ rest.1, rest.2)

/-- `tmpfs_read`: the bytes it moved to the caller, or the error. -/
def read (mem : Memory) (u : Uio) (f : File) : Except Nat (List UInt8) :=
  let r := readLoop mem f (u.resid) u.offset.toNat u
  if r.1 = [] ∧ r.2 ≠ 0 then .error r.2 else .ok r.1

/-! ## The machine -/

/-- `want` is what each file should hold. -/
structure St where
  m : TmpMount
  nfiles : Nat
  files : Nat → File
  want : Nat → Nat → UInt8

inductive Event
  | read (f : Nat) (mem : Memory) (iov : List IoSeg) (seg : UioSeg) (offset : UInt64)
  | write (f : Nat) (mem : Memory) (iov : List IoSeg) (seg : UioSeg) (offset : UInt64) (append : Bool)
      (spare : Nat) (room : Bool)
  | resize (f size : Nat)
  | allocate (f offset len spare : Nat) (room : Bool)

namespace St

variable (s : St)

def work (f spare : Nat) : Work := ⟨s.m, spare, s.files f⟩

/-- A call on `f` has left `x`. -/
def put (f : Nat) (x : Work) (want : Nat → UInt8) : St :=
  { s with m := x.m, files := update s.files f x.file, want := update s.want f want }

end St

/-- `bytes` have been written at `off`. -/
def written (want : Nat → UInt8) (off : Nat) (bytes : List UInt8) : Nat → UInt8 := fun o ↦
  if off ≤ o ∧ o < off + bytes.length then bytes.getD (o - off) 0 else want o

def step (s : St) : Event → Option St
  | .read f _ _ _ _ => if f < s.nfiles then some s else none
  | .write f mem iov seg offset append spare room =>
    if f < s.nfiles then
      match Uio.new iov seg offset with
      | .error _ => some s
      | .ok u =>
        let r := write mem append room u (s.work f spare)
        some (s.put f r.2.2 (written (s.want f) r.2.1.1 r.2.1.2))
    else none
  | .resize f size =>
    if f < s.nfiles then
      let r := (s.work f 0).resize size
      some (s.put f r.2 fun o ↦ if r.1.isOk ∧ size ≤ o then 0 else s.want f o)
    else none
  | .allocate f offset len spare room =>
    if f < s.nfiles then some (s.put f ((s.work f spare).allocate room offset len).2 (s.want f))
    else none

/-- A mount with `n` empty files. -/
def mounted (n maxPages maxfilesize : Nat) : St :=
  ⟨⟨0, maxPages, maxfilesize⟩, n, fun _ ↦ ⟨0, .empty⟩, fun _ _ ↦ 0⟩

/-! ## What files are for -/

/-- The pages a file holds, with its index pages. -/
def Pages.count (p : Pages) : Nat :=
  #{i ∈ range (8 + 512 * p.slots) | (p.get i).isSome} + #{slot ∈ range p.slots | p.index slot}

/-- What a read at `off` is to return, if the caller's memory is good: the bytes up to the end. -/
def Reads (f : File) (want : Nat → UInt8) : Prop :=
  ∀ mem iov seg offset u, Uio.new iov seg offset = .ok u → ∃ k ≤ min u.resid (f.size - offset.toNat),
    (∀ bytes, read mem u f = .ok bytes → bytes = (List.range k).map fun i ↦ want (offset.toNat + i)) ∧
    (u.Clear mem.writable (min u.resid (f.size - offset.toNat)) →
      read mem u f = .ok ((List.range (min u.resid (f.size - offset.toNat))).map fun i ↦
        want (offset.toNat + i)))

structure Sound (s : St) : Prop where
  reads : ∀ f < s.nfiles, Reads (s.files f) (s.want f)
  pages : s.m.pages = ∑ f ∈ range s.nfiles, (s.files f).data.count
  limit : s.m.pages ≤ s.m.maxPages
  ends : ∀ f < s.nfiles, ∀ i, ((s.files f).data.get i).isSome → i * 4096 < (s.files f).size

/-! ## The condition -/

/-- No write meets a bad address, but for its first byte in a page within the file, and there are
pages for an allocation past the end. -/
def Proper (s : St) : Event → Prop
  | .write f mem iov seg offset append _ _ => ∀ u, Uio.new iov seg offset = .ok u →
    let off := if append then (s.files f).size else offset.toNat
    u.Clear mem.readable (min (s.m.maxfilesize - off) u.resid) ∨
      ¬ u.Clear mem.readable 1 ∧ off / 4096 * 4096 < (s.files f).size
  | .allocate f offset len spare room => offset + len ≤ (s.files f).size ∨
    room = true ∧ s.m.pages + 2 * (Work.pagesOf offset (offset + len)).length ≤ s.m.maxPages ∧
      2 * (Work.pagesOf offset (offset + len)).length ≤ spare
  | _ => True

instance (s : St) (ev : Event) : Decidable (Proper s ev) :=
  match ev with
  | .read .. | .resize .. => isTrue trivial
  | .allocate .. => inferInstanceAs (Decidable (_ ∨ _))
  | .write f mem iov seg offset append spare room =>
    match h : Uio.new iov seg offset with
    | .error e => isTrue fun u hu ↦ by rw [h] at hu; cases hu
    | .ok u => decidable_of_iff
        (u.Clear mem.readable (min (s.m.maxfilesize -
            if append then (s.files f).size else offset.toNat) u.resid) ∨ ¬ u.Clear mem.readable 1 ∧
          (if append then (s.files f).size else offset.toNat) / 4096 * 4096 < (s.files f).size)
        ⟨fun hok u' hu' ↦ by rw [h] at hu'; cases hu'; exact hok, fun hok ↦ hok u h⟩

variable {p p' : Pages} {x x' : Work} {f : File} {want : Nat → UInt8} {i n first off : Nat}
  {room : Bool} {bytes : List UInt8} {mem : Memory} {u : Uio} {s s' : St}

/-! ## Counting pages -/

theorem card_filter_succ {P Q : Nat → Prop} [DecidablePred P] [DecidablePred Q] (hi : i < n)
    (hP : ¬ P i) (hQ : ∀ j < n, (Q j ↔ P j ∨ j = i)) :
    #{j ∈ range n | Q j} = #{j ∈ range n | P j} + 1 := by
  rw [← card_insert_of_notMem (a := i) (by simp [hP])]
  congr 1
  grind

theorem card_filter_extend {P Q : Nat → Prop} [DecidablePred P] [DecidablePred Q] {m : Nat}
    (hnm : n ≤ m) (hQ : ∀ j < m, (Q j ↔ j < n ∧ P j)) :
    #{j ∈ range m | Q j} = #{j ∈ range n | P j} := by
  congr 1
  grind

theorem card_filter_split {P Q R : Nat → Prop} [DecidablePred P] [DecidablePred Q] [DecidablePred R]
    (hP : ∀ j < n, (P j ↔ Q j ∨ R j)) (hQR : ∀ j < n, Q j → ¬ R j) :
    #{j ∈ range n | P j} = #{j ∈ range n | Q j} + #{j ∈ range n | R j} := by
  rw [← card_union_of_disjoint]
  · congr 1
    grind
  · rw [disjoint_left]
    grind

/-- Every page is reached, and the index pages are in the vector. -/
structure Pages.WF (p : Pages) : Prop where
  reach : ∀ i, (p.entry i).isSome = true → i < 8 ∨ slotOf i < p.slots ∧ p.index (slotOf i) = true
  slots : ∀ slot, p.index slot = true → slot < p.slots

theorem Pages.WF.get (h : p.WF) (i : Nat) : p.get i = p.entry i := by
  unfold Pages.get
  split
  · rfl
  · have := h.reach i
    cases hi : p.entry i <;> grind

theorem Pages.WF.lt (h : p.WF) (hi : (p.entry i).isSome = true) : i < 8 + 512 * p.slots := by
  have := h.reach i hi
  unfold slotOf at this
  omega

theorem Pages.WF.count (h : p.WF) (hn : p.slots ≤ n) :
    p.count = #{i ∈ range (8 + 512 * n) | (p.entry i).isSome = true} +
      #{slot ∈ range n | p.index slot = true} := by
  unfold Pages.count
  congr 1
  · refine (card_filter_extend (by omega) fun j _ ↦ ?_).symm
    rw [h.get]
    exact ⟨fun hj ↦ ⟨h.lt hj, hj⟩, And.right⟩
  · exact (card_filter_extend hn fun j _ ↦ ⟨fun hj ↦ ⟨h.slots j hj, hj⟩, And.right⟩).symm

/-- `x'` holds as many pages more than `x` as it has taken, and no more than it may. -/
structure Balanced (x x' : Work) : Prop where
  pages : x'.m.pages + x.file.data.count = x.m.pages + x'.file.data.count
  limit : x.m.pages ≤ x.m.maxPages → x'.m.pages ≤ x'.m.maxPages
  maxPages : x'.m.maxPages = x.m.maxPages
  maxfilesize : x'.m.maxfilesize = x.m.maxfilesize

theorem Balanced.trans {x'' : Work} (h : Balanced x x') (h' : Balanced x' x'') : Balanced x x'' := by
  obtain ⟨h1, h2, h3, h4⟩ := h
  obtain ⟨h5, h6, h7, h8⟩ := h'
  constructor <;> grind

/-- What `get_or_make` does: it may add page `i`, and index pages. -/
structure Made (x x' : Work) (i : Nat) (made : Bool) : Prop where
  wf : x'.file.data.WF
  balanced : Balanced x x'
  size : x'.file.size = x.file.size
  other : ∀ j, j ≠ i → x'.file.data.entry j = x.file.data.entry j
  self : x'.file.data.entry i = x.file.data.entry i ∨
    x.file.data.entry i = none ∧ x'.file.data.entry i = some fun _ ↦ 0
  made : (x'.file.data.entry i).isSome = made

theorem takePage_eq (h : x.takePage = some x') :
    x.m.pages < x.m.maxPages ∧ x' = { x with m.pages := x.m.pages + 1, spare := x.spare - 1 } := by
  unfold Work.takePage at h
  grind

theorem made_fill (h : x.file.data.WF) (hi : x.file.data.entry i = none)
    (hreach : i < 8 ∨ slotOf i < x.file.data.slots ∧ x.file.data.index (slotOf i) = true) :
    Made x (x.fill i).2 i (x.fill i).1 := by
  unfold Work.fill
  split
  · exact ⟨h, ⟨rfl, id, rfl, rfl⟩, rfl, fun _ _ ↦ rfl, .inl rfl, by rw [hi]; rfl⟩
  · rename_i x₁ hx₁
    obtain ⟨hlt, rfl⟩ := takePage_eq hx₁
    have hwf : (Pages.mk (update x.file.data.entry i (.some fun _ ↦ 0)) x.file.data.index
        x.file.data.slots).WF := by
      refine ⟨fun j hj ↦ ?_, h.slots⟩
      by_cases hji : j = i
      · exact hji ▸ hreach
      · exact h.reach j (by simpa [hji] using hj)
    refine ⟨hwf, ⟨?_, fun _ ↦ hlt, rfl, rfl⟩, rfl, fun j hj ↦ update_of_ne hj ..,
      .inr ⟨hi, update_self ..⟩, ?_⟩
    · have hcount := card_filter_succ (i := i) (n := 8 + 512 * x.file.data.slots)
        (P := fun j ↦ (x.file.data.entry j).isSome = true)
        (Q := fun j ↦ (update x.file.data.entry i (.some fun _ ↦ 0) j).isSome = true)
        (by unfold slotOf at hreach; omega) (by simp [hi]) (fun j _ ↦ by
          grind)
      rw [h.count le_rfl, hwf.count le_rfl]
      dsimp only
      omega
    · simp

/-- A change of the table of index pages, before page `i` is filled. -/
theorem Made.after_index {x₁ : Work} {made : Bool} (h : Made x₁ x' i made)
    (hentry : x₁.file.data.entry = x.file.data.entry) (hsize : x₁.file.size = x.file.size)
    (hb : Balanced x x₁) : Made x x' i made := by
  obtain ⟨h1, h2, h3, h4, h5, h6⟩ := h
  rw [hentry] at h4 h5
  exact ⟨h1, hb.trans h2, h3.trans hsize, h4, h5, h6⟩

theorem getOrMake_made (h : x.file.data.WF) (room : Bool) (i : Nat) :
    Made x (x.getOrMake room i).2 i (x.getOrMake room i).1 := by
  have hsame : ∀ made, (x.file.data.entry i).isSome = made → Made x x i made := fun made hmade ↦
    ⟨h, ⟨rfl, id, rfl, rfl⟩, rfl, fun _ _ ↦ rfl, .inl rfl, hmade⟩
  unfold Work.getOrMake
  rw [h.get]
  split
  · exact hsame _ ‹_›
  · rename_i hnone
    have hi : x.file.data.entry i = none := by simpa using hnone
    split
    · exact made_fill h hi (.inl ‹_›)
    · split
      · exact hsame _ (by rw [hi]; rfl)
      · -- the vector is long enough
        generalize hx₁ : ({ x with
          file.data.slots := max x.file.data.slots (slotOf i + 1) } : Work) = x₁
        have hwf₁ : x₁.file.data.WF := by
          subst hx₁
          refine ⟨fun j hj ↦ (h.reach j hj).imp_right fun hr ↦ ⟨?_, hr.2⟩, fun slot hs ↦ ?_⟩
          · exact lt_max_of_lt_left hr.1
          · exact lt_max_of_lt_left (h.slots slot hs)
        have hentry : x₁.file.data.entry = x.file.data.entry := by rw [← hx₁]
        have hslots : slotOf i < x₁.file.data.slots := by
          rw [← hx₁]
          exact lt_max_of_lt_right (Nat.lt_succ_self _)
        have hb : Balanced x x₁ := by
          refine ⟨?_, ?_, ?_, ?_⟩
          · rw [hwf₁.count le_rfl, h.count (n := x₁.file.data.slots) (by rw [← hx₁]; exact le_max_left ..)]
            rw [← hx₁]
          all_goals rw [← hx₁]
          exact id
        have hsize : x₁.file.size = x.file.size := by rw [← hx₁]
        dsimp only
        split
        · exact (made_fill hwf₁ (hentry ▸ hi) (.inr ⟨hslots, ‹_›⟩)).after_index hentry hsize hb
        · rename_i hindex
          split
          · exact ⟨hwf₁, hb, hsize, fun _ _ ↦ by rw [hentry], .inl (by rw [hentry]), by rw [hentry, hi]; rfl⟩
          · rename_i x₂ hx₂
            obtain ⟨hlt, rfl⟩ := takePage_eq hx₂
            have hwf₂ : (Pages.mk x₁.file.data.entry
                (update x₁.file.data.index (slotOf i) true) x₁.file.data.slots).WF := by
              refine ⟨fun j hj ↦ (hwf₁.reach j hj).imp_right fun hr ↦ ⟨hr.1, ?_⟩, fun slot hs ↦ ?_⟩
              · simp only [update_apply, hr.2, ite_self]
              · simp only [update_apply] at hs
                split at hs
                · exact ‹slot = _› ▸ hslots
                · exact hwf₁.slots slot hs
            refine (made_fill (x := { x₁ with
                m.pages := x₁.m.pages + 1
                spare := x₁.spare - 1
                file.data.index := update x₁.file.data.index (slotOf i) true })
              hwf₂ (hentry ▸ hi) (.inr ⟨hslots, update_self ..⟩)).after_index hentry hsize
              (hb.trans ⟨?_, fun _ ↦ hlt, rfl, rfl⟩)
            have hcount := card_filter_succ
              (P := fun slot ↦ x₁.file.data.index slot = true)
              (Q := fun slot ↦ update x₁.file.data.index (slotOf i) true slot = true)
              hslots hindex (fun j _ ↦ by
                grind)
            rw [hwf₁.count le_rfl, hwf₂.count le_rfl]
            dsimp only
            omega

theorem popped_le (index : Nat → Bool) (n : Nat) : Pages.popped index n ≤ n := by
  induction n with
  | zero => exact le_rfl
  | succ n ih =>
    rw [Pages.popped]
    split
    · exact le_rfl
    · exact ih.trans (Nat.le_succ n)

theorem lt_popped {index : Nat → Bool} {slot : Nat} (hn : slot < n) (hslot : index slot = true) :
    slot < Pages.popped index n := by
  induction n with
  | zero => exact absurd hn (Nat.not_lt_zero _)
  | succ n ih =>
    rw [Pages.popped]
    split
    · exact hn
    · refine ih (Nat.lt_of_le_of_ne (Nat.le_of_lt_succ hn) ?_)
      rintro rfl
      exact absurd hslot ‹_›

theorem cut_wf (h : p.WF) (first : Nat) : (p.cut first).WF := by
  have hindex : ∀ slot, (p.cut first).index slot = true → slot < (p.cut first).slots := by
    intro slot hs
    have hp := (Bool.and_eq_true_iff.1 hs).1
    exact lt_popped (h.slots slot hp) hs
  refine ⟨fun i hi ↦ ?_, hindex⟩
  have hlt : i < first := by
    by_contra hge
    simp [Pages.cut, hge] at hi
  have hreach := h.reach i (by simpa [Pages.cut, hlt] using hi)
  by_cases h8 : i < 8
  · exact .inl h8
  · have hs : (p.cut first).index (slotOf i) = true := by
      simp only [Pages.cut, (hreach.resolve_left h8).2, Bool.true_and, decide_eq_true_eq]
      unfold slotOf
      omega
    exact .inr ⟨hindex _ hs, hs⟩

theorem balanced_truncate (h : x.file.data.WF) (first : Nat)
    (hpages : x.file.data.count ≤ x.m.pages) : Balanced x (x.truncate first) := by
  have hcut := cut_wf h first
  have hslots : (x.file.data.cut first).slots ≤ x.file.data.slots := popped_le ..
  have hdata : #{i ∈ range (8 + 512 * x.file.data.slots) | (x.file.data.entry i).isSome = true} =
      #{i ∈ range (8 + 512 * x.file.data.slots) | ((x.file.data.cut first).entry i).isSome = true} +
      #{i ∈ range (8 + 512 * x.file.data.slots) | (x.file.data.entry i).isSome = true ∧ first ≤ i} := by
    refine card_filter_split (fun j _ ↦ ?_) fun j _ ↦ ?_
    · simp only [Pages.cut]
      grind
    · simp only [Pages.cut]
      grind
  have hindex : #{slot ∈ range x.file.data.slots | x.file.data.index slot = true} =
      #{slot ∈ range x.file.data.slots | (x.file.data.cut first).index slot = true} +
      #{slot ∈ range x.file.data.slots | x.file.data.index slot = true ∧ first - 8 ≤ slot * 512} := by
    refine card_filter_split (fun j _ ↦ ?_) fun j _ ↦ ?_
    · simp only [Pages.cut]
      grind
    · simp only [Pages.cut, Bool.and_eq_true, decide_eq_true_eq]
      omega
  have hfreed : x.file.data.count = (x.file.data.cut first).count + x.file.data.freed first := by
    unfold Pages.freed
    simp only [h.get]
    rw [h.count le_rfl, hcut.count hslots]
    omega
  refine ⟨?_, fun hle ↦ (Nat.sub_le ..).trans hle, rfl, rfl⟩
  simp only [Work.truncate]
  omega

/-! ## Contents -/

theorem Pages.WF.content (h : p.WF) (o : Nat) :
    p.content o = (p.entry (o / 4096)).elim 0 fun page ↦ page (o % 4096) := by
  rw [Pages.content, h.get]

theorem Made.content {made : Bool} (h : Made x x' i made) (hwf : x.file.data.WF) (o : Nat) :
    x'.file.data.content o = x.file.data.content o := by
  rw [h.wf.content, hwf.content]
  by_cases ho : o / 4096 = i
  · rw [ho]
    obtain hself | ⟨hnone, hzero⟩ := h.self
    · rw [hself]
    · rw [hnone, hzero]
      rfl
  · rw [h.other _ ho]

/-- A change to the bytes of page `i`. -/
theorem wf_update (h : p.WF) (g : Page → Page) (i : Nat) :
    ({ p with entry := update p.entry i ((p.entry i).map g) } : Pages).WF := by
  refine ⟨fun j hj ↦ h.reach j ?_, h.slots⟩
  by_cases hji : j = i
  · subst hji
    simpa using hj
  · simpa [hji] using hj

theorem count_update (h : p.WF) (g : Page → Page) (i : Nat) :
    ({ p with entry := update p.entry i ((p.entry i).map g) } : Pages).count = p.count := by
  rw [(wf_update h g i).count le_rfl, h.count le_rfl]
  congr 3
  funext j
  by_cases hji : j = i
  · subst hji
    simp
  · simp [hji]

theorem content_poke (h : p.WF) (hpage : (p.entry (off / 4096)).isSome = true)
    (hlen : off % 4096 + bytes.length ≤ 4096) (o : Nat) :
    (p.poke off bytes).content o = written p.content off bytes o := by
  obtain ⟨page, hpage⟩ := Option.isSome_iff_exists.1 hpage
  rw [written, h.content, Pages.poke, (wf_update h _ _).content]
  by_cases ho : o / 4096 = off / 4096
  · rw [ho, hpage]
    simp only [update_self, Option.map_some, Option.elim_some]
    have hiff : (off % 4096 ≤ o % 4096 ∧ o % 4096 < off % 4096 + bytes.length) ↔
        (off ≤ o ∧ o < off + bytes.length) := by omega
    simp only [hiff]
    split
    · congr 1
      omega
    · rfl
  · rw [if_neg (by omega)]
    dsimp only
    rw [update_of_ne ho]

theorem content_resize (h : p.WF) (size o : Nat) :
    ((p.cut ((size + 4095) / 4096)).clearTail size).content o = if size ≤ o then 0 else p.content o := by
  have hcut := cut_wf h ((size + 4095) / 4096)
  have hsame : (p.cut ((size + 4095) / 4096)).content o =
      if (size + 4095) / 4096 ≤ o / 4096 then 0 else p.content o := by
    rw [hcut.content, h.content, Pages.cut]
    by_cases ho : o / 4096 < (size + 4095) / 4096
    · simp [ho]
    · simp [ho]
  unfold Pages.clearTail
  split
  · rw [hsame]
    congr 1
    rw [eq_iff_iff]
    omega
  · rw [(wf_update hcut _ _).content]
    by_cases ho : o / 4096 = size / 4096
    · have hlt : size / 4096 < (size + 4095) / 4096 := by omega
      rw [h.content, ho]
      have hiff : size % 4096 ≤ o % 4096 ↔ size ≤ o := by omega
      dsimp only
      rw [Pages.cut]
      cases hp : p.entry (size / 4096) with
      | none => simp [hp]
      | some page => simp [hp, hiff, hlt]
    · dsimp only
      rw [update_of_ne ho, ← hcut.content, hsame]
      congr 1
      rw [eq_iff_iff]
      omega

/-- A file that holds what it should, up to its end. -/
structure FileOk (f : File) (want : Nat → UInt8) : Prop where
  wf : f.data.WF
  content : ∀ o, f.data.content o = want o
  zero : ∀ o, f.size ≤ o → want o = 0
  ends : ∀ i, (f.data.entry i).isSome = true → i * 4096 < f.size

theorem FileOk.resize (h : FileOk x.file want) (hpages : x.file.data.count ≤ x.m.pages) (size : Nat) :
    FileOk (x.resize size).2.file
      (fun o ↦ if (x.resize size).1.isOk ∧ size ≤ o then 0 else want o) ∧
    Balanced x (x.resize size).2 := by
  unfold Work.resize
  split
  · exact ⟨by simpa [Except.toBool] using h, rfl, id, rfl, rfl⟩
  · split
    · have hwf := cut_wf h.wf ((size + 4095) / 4096)
      have hb := balanced_truncate h.wf ((size + 4095) / 4096) hpages
      have hclear : ((x.file.data.cut ((size + 4095) / 4096)).clearTail size).WF ∧
          ((x.file.data.cut ((size + 4095) / 4096)).clearTail size).count =
            (x.file.data.cut ((size + 4095) / 4096)).count ∧
          ∀ i, (((x.file.data.cut ((size + 4095) / 4096)).clearTail size).entry i).isSome =
            ((x.file.data.cut ((size + 4095) / 4096)).entry i).isSome := by
        unfold Pages.clearTail
        split
        · exact ⟨hwf, rfl, fun _ ↦ rfl⟩
        · refine ⟨wf_update hwf _ _, count_update hwf _ _, fun i ↦ ?_⟩
          simp only [update_apply]
          split
          · subst i
            simp
          · rfl
      refine ⟨⟨hclear.1, fun o ↦ ?_, fun o ho ↦ ?_, fun i hi ↦ ?_⟩, ?_⟩
      · simp only [Work.truncate, content_resize h.wf, h.content, Except.toBool,
          true_and]
      · simp only [Except.toBool, true_and]
        exact if_pos ho
      · rw [Work.truncate, hclear.2.2] at hi
        simp only [Pages.cut] at hi
        split at hi
        · dsimp only
          omega
        · cases hi
      · refine ⟨?_, hb.limit, hb.maxPages, hb.maxfilesize⟩
        have hcount := hb.pages
        simp only [Work.truncate] at hcount ⊢
        rw [hclear.2.1]
        exact hcount
    · rename_i hge
      refine ⟨⟨h.wf, fun o ↦ ?_, fun o ho ↦ ?_, fun i hi ↦ (h.ends i hi).trans_le (not_lt.1 hge)⟩,
        rfl, id, rfl, rfl⟩
      · rw [h.content]
        split
        · exact h.zero o (by omega)
        · rfl
      · exact if_pos ⟨rfl, ho⟩

/-- A page is made within the file. -/
theorem FileOk.made {made : Bool} (h : FileOk x.file want) (hm : Made x x' i made)
    (hi : (x'.file.data.entry i).isSome = true → (x.file.data.entry i).isSome = true ∨
      i * 4096 < x.file.size) : FileOk x'.file want where
  wf := hm.wf
  content o := (hm.content h.wf o).trans (h.content o)
  zero o ho := h.zero o (hm.size ▸ ho)
  ends j hj := by
    rw [hm.size]
    by_cases hji : j = i
    · subst hji
      exact (hi hj).elim (h.ends j) id
    · exact h.ends j (hm.other j hji ▸ hj)

theorem FileOk.poke (h : FileOk f want) (off : Nat) {q : Pages} (hwf : q.WF)
    (hcontent : ∀ o, q.content o = f.data.content o)
    (hentry : ∀ j, j ≠ off / 4096 → q.entry j = f.data.entry j)
    (hpage : (q.entry (off / 4096)).isSome = true) (hlen : off % 4096 + bytes.length ≤ 4096)
    (hpos : bytes ≠ []) :
    FileOk ⟨max f.size (off + bytes.length), q.poke off bytes⟩ (written want off bytes) where
  wf := wf_update hwf _ _
  content o := by
    rw [content_poke hwf hpage hlen, written, written, hcontent, h.content]
  zero o ho := by
    rw [written, if_neg (by grind)]
    exact h.zero o ((le_max_left ..).trans ho)
  ends j hj := by
    have := List.length_pos_iff.2 hpos
    by_cases hj' : j = off / 4096
    · grind
    · simp only [Pages.poke, update_of_ne hj'] at hj
      rw [hentry j hj'] at hj
      exact (h.ends j hj).trans_le (le_max_left ..)

@[simp] theorem written_nil (want : Nat → UInt8) (off : Nat) : written want off [] = want := by
  funext o
  rw [written, if_neg (by simp)]

theorem written_append (want : Nat → UInt8) (off : Nat) (l l' : List UInt8) :
    written (written want off l) (off + l.length) l' = written want off (l ++ l') := by
  funext o
  simp only [written]
  grind

theorem copyin_ok {len : Nat} (h : u.WF) (hlen : len ≤ u.resid) (hclear : u.Clear mem.readable len) :
    ∃ u', copyin mem len u = (u.bytes mem len, false, u') ∧ u.Advances u' len := by
  have hmoves := Uio.moveRaw_moves mem.readable h hlen
  unfold copyin
  revert hmoves
  generalize u.moveRaw mem.readable len = r
  intro hmoves
  cases hmoves with
  | all _ hadv => exact ⟨_, rfl, hadv⟩
  | fault hnot => exact (hnot hclear).elim

theorem writeLoop_ok {limit fuel : Nat} (h : FileOk x.file want) (hu : u.WF)
    (hresid : limit - off ≤ u.resid) (hclear : u.Clear mem.readable (limit - off)) :
    FileOk (writeLoop mem room limit fuel off u x).2.2.file
      (written want off (writeLoop mem room limit fuel off u x).1) ∧
    Balanced x (writeLoop mem room limit fuel off u x).2.2 := by
  induction fuel generalizing off u x want with
  | zero => exact ⟨by simpa [writeLoop] using h, rfl, id, rfl, rfl⟩
  | succ fuel ih =>
    have hmade := getOrMake_made h.wf room (off / 4096)
    rw [writeLoop]
    split
    · exact ⟨by simpa using h, rfl, id, rfl, rfl⟩
    · rename_i hlt
      dsimp only
      split
      · rename_i hfail
        rw [written_nil]
        refine ⟨h.made hmade fun hi ↦ ?_, hmade.balanced⟩
        rw [hmade.made] at hi
        simp [hi] at hfail
      · rename_i hok
        have hok : (x.getOrMake room (off / 4096)).1 = true := by simpa using hok
        have hlen : min (4096 - off % 4096) (limit - off) ≤ limit - off := Nat.min_le_right ..
        generalize hl : min (4096 - off % 4096) (limit - off) = len at hlen ⊢
        obtain ⟨u', hcopy, hadv⟩ := copyin_ok hu (hlen.trans hresid) (hclear.mono hlen)
        have hbytes := Uio.length_bytes mem hu (hlen.trans hresid)
        have hne : u.bytes mem len ≠ [] := by
          intro hnone
          rw [hnone, List.length_nil] at hbytes
          omega
        simp only [hcopy, hne]
        have hfile := h.poke off hmade.wf (hmade.content h.wf) hmade.other
          (hmade.made.trans hok) (by omega) hne
        have hsplit : u.Clear mem.readable len ∧ u'.Clear mem.readable (limit - (off + len)) := by
          rw [← hadv.clear_iff]
          exact hclear.mono (by omega)
        have hrest := hadv.resid
        obtain ⟨hok', hb⟩ := ih
          (x := { (x.getOrMake room (off / 4096)).2 with
            file := ⟨max (x.getOrMake room (off / 4096)).2.file.size (off + (u.bytes mem len).length),
              (x.getOrMake room (off / 4096)).2.file.data.poke off (u.bytes mem len)⟩ })
          (by rw [hmade.size]; exact hfile) hadv.wf
          (show limit - (off + (u.bytes mem len).length) ≤ u'.resid by rw [hbytes]; omega)
          (by rw [hbytes]; exact hsplit.2)
        rw [written_append] at hok'
        refine ⟨hok', hmade.balanced.trans (.trans ?_ hb)⟩
        exact ⟨by rw [Pages.poke, count_update hmade.wf], id, rfl, rfl⟩

/-- A copy whose first address is bad leaves nothing behind. -/
theorem torn_bad (h : u.WF) (left : Nat) (hbad : ¬ u.Clear mem.readable 1) :
    torn mem left u = [] := by
  unfold torn
  dsimp only
  split
  · rename_i hin
    cases hn : min ((u.iov.getD u.idx ⟨0, 0⟩).len - u.segOff) left with
    | zero => rfl
    | succ n =>
      have haddr : u.rest.take 1 = addrs ((u.iov.getD u.idx ⟨0, 0⟩).base + u.segOff) 1 := by
        rw [Uio.rest_eq u h.segOff_le, List.take_append_of_le_length (by rw [length_addrs]; omega),
          addrs_take _ (by omega)]
      simp only [Uio.Clear, haddr, addrs, List.range_one, List.map_singleton,
        List.mem_singleton, forall_eq, Accessible, not_or, not_and] at hbad
      have hunmapped := hbad.2 hin.1 (by omega)
      rw [addrs, List.range_succ_eq_map, List.map_cons, List.takeWhile_cons_of_neg]
      simpa using hunmapped
  · rfl

theorem copyin_bad {len : Nat} (h : u.WF) (hlen : len ≤ u.resid) (hpos : 0 < len)
    (hbad : ¬ u.Clear mem.readable 1) : ∃ u', copyin mem len u = ([], true, u') := by
  have hmoves := Uio.moveRaw_moves mem.readable h hlen
  unfold copyin
  revert hmoves
  generalize u.moveRaw mem.readable len = r
  intro hmoves
  cases hmoves with
  | all hclear => exact (hbad (hclear.mono hpos)).elim
  | @fault u' k _ _ hpassed hadv =>
    obtain rfl : k = 0 := by
      by_contra hk
      exact hbad (hpassed.mono (by omega))
    have htorn := torn_bad hadv.wf len fun hclear ↦
      hbad (hadv.clear_iff.2 ⟨hpassed, hclear⟩)
    exact ⟨u', by simp [htorn]⟩

theorem FileOk.write (room : Bool) {append : Bool} (h : FileOk x.file want) (hu : u.WF)
    (hproper : u.Clear mem.readable (min (x.m.maxfilesize -
        if append then x.file.size else u.offset.toNat) u.resid) ∨ ¬ u.Clear mem.readable 1 ∧
      (if append then x.file.size else u.offset.toNat) / 4096 * 4096 < x.file.size) :
    FileOk (write mem append room u x).2.2.file
      (written want (write mem append room u x).2.1.1 (write mem append room u x).2.1.2) ∧
    Balanced x (write mem append room u x).2.2 := by
  unfold Tmpfs.write
  dsimp only
  generalize (if append = true then x.file.size else u.offset.toNat) = off at hproper ⊢
  split_ifs with hresid hbig
  · exact ⟨by simpa using h, rfl, id, rfl, rfl⟩
  · exact ⟨by simpa using h, rfl, id, rfl, rfl⟩
  all_goals
    have hN : min x.m.maxfilesize (off + u.resid) - off = min (x.m.maxfilesize - off) u.resid := by
      omega
    obtain hclear | ⟨hbad, hin⟩ := hproper
    · exact writeLoop_ok h hu (by omega) (hN ▸ hclear)
    · -- the first turn of the loop ends the call
      obtain ⟨fuel, hfuel⟩ := Nat.exists_eq_succ_of_ne_zero
        (show min x.m.maxfilesize (off + u.resid) - off ≠ 0 by omega)
      have hmade := getOrMake_made h.wf room (off / 4096)
      have hfile := h.made hmade fun _ ↦ .inr hin
      rw [hfuel, writeLoop, if_neg (by omega)]
      dsimp only
      obtain ⟨u', hcopy⟩ := copyin_bad hu (show min (4096 - off % 4096)
        (min x.m.maxfilesize (off + u.resid) - off) ≤ u.resid by omega) (by omega) hbad
      split
      · exact ⟨by simpa using hfile, hmade.balanced⟩
      · rename_i hok
        simp only [hcopy, if_true, written_nil]
        refine ⟨⟨wf_update hmade.wf _ _, fun o ↦ ?_, hfile.zero, fun j hj ↦ hfile.ends j ?_⟩,
          hmade.balanced.trans ⟨by rw [Pages.poke, count_update hmade.wf], id, rfl, rfl⟩⟩
        · rw [content_poke hmade.wf (hmade.made.trans (by simpa using hok))
            (by rw [List.length_nil]; omega), written_nil, hfile.content]
        · simp only [Pages.poke, update_apply] at hj
          split at hj
          · subst j
            simpa using hj
          · exact hj

theorem allocLoop_made (room : Bool) (is : List Nat) (h : x.file.data.WF) :
    (Work.allocLoop room is x).2.file.data.WF ∧ Balanced x (Work.allocLoop room is x).2 ∧
      (Work.allocLoop room is x).2.file.size = x.file.size ∧
      (∀ o, (Work.allocLoop room is x).2.file.data.content o = x.file.data.content o) ∧
      ∀ j, ((Work.allocLoop room is x).2.file.data.entry j).isSome = true →
        (x.file.data.entry j).isSome = true ∨ j ∈ is := by
  induction is generalizing x with
  | nil => exact ⟨h, ⟨rfl, id, rfl, rfl⟩, rfl, fun _ ↦ rfl, fun _ ↦ .inl⟩
  | cons i is ih =>
    have hmade := getOrMake_made h room i
    have hentry : ∀ j, ((x.getOrMake room i).2.file.data.entry j).isSome = true →
        (x.file.data.entry j).isSome = true ∨ j ∈ i :: is := fun j hj ↦ by
      by_cases hji : j = i
      · exact .inr (hji ▸ List.mem_cons_self)
      · exact .inl (hmade.other j hji ▸ hj)
    rw [Work.allocLoop]
    split
    · obtain ⟨hwf, hb, hsize, hcontent, hj⟩ := ih hmade.wf
      refine ⟨hwf, hmade.balanced.trans hb, hsize.trans hmade.size,
        fun o ↦ (hcontent o).trans (hmade.content h o), fun j hj' ↦ ?_⟩
      exact (hj j hj').elim (hentry j) fun hmem ↦ .inr (List.mem_cons_of_mem i hmem)
    · exact ⟨hmade.wf, hmade.balanced, hmade.size, hmade.content h, hentry⟩

theorem getOrMake_room (i : Nat) (hpages : x.m.pages + 2 ≤ x.m.maxPages)
    (hspare : 2 ≤ x.spare) : (x.getOrMake true i).1 = true ∧
      (x.getOrMake true i).2.m.pages ≤ x.m.pages + 2 ∧ x.spare ≤ (x.getOrMake true i).2.spare + 2 ∧
      (x.getOrMake true i).2.m.maxPages = x.m.maxPages := by
  have htake : ¬ (x.m.maxPages ≤ x.m.pages ∨ x.spare = 0) := by omega
  have htake' : ¬ (x.m.maxPages ≤ x.m.pages + 1 ∨ x.spare - 1 = 0) := by omega
  simp only [Work.getOrMake, Work.fill, Work.takePage, if_neg htake, Bool.not_true,
    Bool.false_eq_true, and_false, if_false]
  split_ifs <;> refine ⟨?_, ?_, ?_, ?_⟩ <;> first | rfl | assumption | (dsimp only; omega)

theorem allocLoop_room {is : List Nat} (h : x.file.data.WF)
    (hpages : x.m.pages + 2 * is.length ≤ x.m.maxPages) (hspare : 2 * is.length ≤ x.spare) :
    (Work.allocLoop true is x).1 = true := by
  induction is generalizing x with
  | nil => rfl
  | cons i is ih =>
    rw [List.length_cons] at hpages hspare
    obtain ⟨hok, hp, hs, hmax⟩ := getOrMake_room (x := x) i (by omega) (by omega)
    rw [Work.allocLoop, if_pos hok]
    exact ih (getOrMake_made h true i).wf (by omega) (by omega)

theorem lt_of_mem_pagesOf {last : Nat} (h : i ∈ Work.pagesOf off last) : i * 4096 < last := by
  rw [Work.pagesOf, List.mem_range'_1] at h
  omega

theorem FileOk.allocate {len : Nat} (h : FileOk x.file want)
    (hproper : off + len ≤ x.file.size ∨ room = true ∧
      x.m.pages + 2 * (Work.pagesOf off (off + len)).length ≤ x.m.maxPages ∧
        2 * (Work.pagesOf off (off + len)).length ≤ x.spare) :
    FileOk (x.allocate room off len).2.file want ∧ Balanced x (x.allocate room off len).2 := by
  obtain ⟨hwf, hb, hsize, hcontent, hentry⟩ :=
    allocLoop_made room (Work.pagesOf off (off + len)) h.wf
  rw [Work.allocate]
  dsimp only
  split_ifs with hbig hok
  · exact ⟨h, rfl, id, rfl, rfl⟩
  · refine ⟨⟨hwf, fun o ↦ (hcontent o).trans (h.content o), fun o ho ↦ h.zero o ?_, fun j hj ↦ ?_⟩,
      hb.pages, hb.limit, hb.maxPages, hb.maxfilesize⟩
    · dsimp only at ho
      omega
    · dsimp only
      obtain hold | hmem := hentry j hj
      · have := h.ends j hold
        omega
      · have := lt_of_mem_pagesOf hmem
        omega
  · obtain hin | ⟨rfl, hpages, hspare⟩ := hproper
    · refine ⟨⟨hwf, fun o ↦ (hcontent o).trans (h.content o), fun o ho ↦ h.zero o (hsize ▸ ho),
        fun j hj ↦ ?_⟩, hb⟩
      rw [hsize]
      exact (hentry j hj).elim (h.ends j) fun hmem ↦ (lt_of_mem_pagesOf hmem).trans_le hin
    · exact absurd (allocLoop_room h.wf hpages hspare) hok

/-! ## Reading -/

theorem readLoop_reads {fuel : Nat} (hu : u.WF)
    (hfuel : min u.resid (f.size - off) ≤ fuel) : ∃ k ≤ min u.resid (f.size - off),
      (readLoop mem f fuel off u).1 = (List.range k).map (fun i ↦ f.data.content (off + i)) ∧
      (u.Clear mem.writable (min u.resid (f.size - off)) →
        k = min u.resid (f.size - off) ∧ (readLoop mem f fuel off u).2 = 0) := by
  induction fuel generalizing off u with
  | zero => exact ⟨0, Nat.zero_le _, rfl, fun _ ↦ ⟨by omega, rfl⟩⟩
  | succ fuel ih =>
    rw [readLoop]
    split_ifs with hend
    · exact ⟨0, Nat.zero_le _, rfl, fun _ ↦ ⟨by omega, rfl⟩⟩
    dsimp only
    obtain ⟨len, hpos, hlen, hdata⟩ : ∃ len, 0 < len ∧ len ≤ min u.resid (f.size - off) ∧
        (match f.data.get (off / 4096) with
          | some page => (List.range (min (min u.resid (4096 - off % 4096)) (f.size - off))).map
              fun i ↦ page (off % 4096 + i)
          | none => List.replicate
              (min (min (min u.resid (4096 - off % 4096)) (f.size - off)) 512) 0) =
          (List.range len).map fun i ↦ f.data.content (off + i) := by
      -- a chunk stays within its page
      have hpage : ∀ i < min (min u.resid (4096 - off % 4096)) (f.size - off),
          (off + i) / 4096 = off / 4096 ∧ (off + i) % 4096 = off % 4096 + i := by omega
      split
      · rename_i page hget
        refine ⟨_, by omega, by omega, List.map_congr_left fun i hi ↦ ?_⟩
        obtain ⟨hdiv, hmod⟩ := hpage i (mem_range.1 hi)
        simp [Pages.content, hdiv, hmod, hget]
      · rename_i hget
        refine ⟨min (min (min u.resid (4096 - off % 4096)) (f.size - off)) 512, by omega, by omega,
          ?_⟩
        rw [eq_comm, List.eq_replicate_iff]
        refine ⟨by simp, fun b hb ↦ ?_⟩
        obtain ⟨i, hi, rfl⟩ := List.mem_map.1 hb
        obtain ⟨hdiv, -⟩ := hpage i (by have := mem_range.1 hi; omega)
        simp [Pages.content, hdiv, hget]
    rw [hdata]
    have hends := Uio.uiomoveOut_spec mem ((List.range len).map fun i ↦ f.data.content (off + i)) hu
      (by simp; omega)
    revert hends
    generalize u.uiomoveOut mem _ = r
    intro hends
    cases hends with
    | fault hclear =>
      refine ⟨0, Nat.zero_le _, rfl, fun hall ↦ (hclear (hall.mono ?_)).elim⟩
      simpa using hlen
    | @ok u' hclear hadv =>
      simp only [List.length_map, List.length_range] at hclear hadv ⊢
      have hresid := hadv.resid
      obtain ⟨k, hk, hread, hfull⟩ := ih hadv.wf
        (show min u'.resid (f.size - (off + len)) ≤ fuel by omega)
      rw [if_neg (by simp; omega)]
      refine ⟨len + k, by omega, ?_, fun hall ↦ ?_⟩
      · simp [hread, List.range_add, Nat.add_assoc]
      · rw [show min u.resid (f.size - off) = len + min u'.resid (f.size - (off + len)) by omega,
          hadv.clear_iff] at hall
        obtain ⟨rfl, he⟩ := hfull hall.2
        exact ⟨by omega, he⟩

theorem FileOk.reads (h : FileOk f want) : Reads f want := by
  intro mem iov seg offset u hnew
  have hu := Uio.new_wf hnew
  have hoff := Uio.new_offset hnew
  obtain ⟨k, hk, hread, hfull⟩ := @readLoop_reads f offset.toNat mem u u.resid hu (by omega)
  simp only [h.content] at hread
  refine ⟨k, hk, fun bytes hok ↦ ?_, fun hclear ↦ ?_⟩
  · rw [read, hoff] at hok
    split at hok
    · cases hok
    · rw [← Except.ok.inj hok, hread]
  · obtain ⟨rfl, he⟩ := hfull hclear
    rw [read, hoff]
    simp [he, hread]

/-! ## Every run -/

structure Inv (s : St) : Prop where
  files : ∀ f < s.nfiles, FileOk (s.files f) (s.want f)
  pages : s.m.pages = ∑ f ∈ range s.nfiles, (s.files f).data.count
  limit : s.m.pages ≤ s.m.maxPages

theorem Inv.sound (h : Inv s) : Sound s where
  reads f hf := (h.files f hf).reads
  pages := h.pages
  limit := h.limit
  ends f hf i hi := (h.files f hf).ends i ((h.files f hf).wf.get i ▸ hi)

/-- Only the file of the call changes, and the mount counts the pages it got or gave back. -/
theorem Inv.put {f : Nat} {w : Nat → UInt8} (h : Inv s) (hf : f < s.nfiles) (hm : x.m = s.m)
    (hx : x.file = s.files f) (hfile : FileOk x'.file w) (hb : Balanced x x') :
    Inv (s.put f x' w) := by
  obtain ⟨hpages, hlimit, -, -⟩ := hb
  rw [hm, hx] at hpages
  rw [hm] at hlimit
  refine ⟨fun g hg ↦ ?_, ?_, hlimit h.limit⟩
  · simp only [St.put, update_apply]
    split_ifs with hgf
    · exact hfile
    · exact h.files g hg
  · have hsum := h.pages
    have hmem := mem_range.2 hf
    have hrest : ∑ g ∈ (range s.nfiles).erase f,
        (update s.files f x'.file g).data.count =
        ∑ g ∈ (range s.nfiles).erase f, (s.files g).data.count :=
      sum_congr rfl fun g hg ↦ by rw [update_of_ne (ne_of_mem_erase hg)]
    rw [← add_sum_erase _ _ hmem] at hsum
    simp only [St.put]
    rw [← add_sum_erase _ _ hmem, update_self]
    omega

theorem Inv.count_le {f : Nat} (h : Inv s) (hf : f < s.nfiles) :
    (s.files f).data.count ≤ s.m.pages := by
  rw [h.pages]
  exact single_le_sum (f := fun f ↦ (s.files f).data.count) (fun _ _ ↦ Nat.zero_le _)
    (mem_range.2 hf)

theorem step_inv {ev : Event} (h : Inv s) (hp : Proper s ev) (hs : step s ev = some s') : Inv s' := by
  cases ev with
  | read f =>
    cases (of_ite_right hs nofun).2
    exact h
  | write f mem iov seg offset append spare room =>
    obtain ⟨hf, hs⟩ := of_ite_right hs nofun
    split at hs
    · cases hs
      exact h
    · rename_i u hnew
      cases hs
      have hproper := hp u hnew
      rw [← Uio.new_offset hnew] at hproper
      obtain ⟨hfile, hb⟩ := FileOk.write room (x := s.work f spare) (h.files f hf)
        (Uio.new_wf hnew) hproper
      exact h.put hf rfl rfl hfile hb
  | resize f size =>
    obtain ⟨hf, ⟨⟩⟩ := of_ite_right hs nofun
    obtain ⟨hfile, hb⟩ := FileOk.resize (x := s.work f 0) (h.files f hf) (h.count_le hf) size
    exact h.put hf rfl rfl hfile hb
  | allocate f offset len spare room =>
    obtain ⟨hf, ⟨⟩⟩ := of_ite_right hs nofun
    obtain ⟨hfile, hb⟩ := FileOk.allocate (x := s.work f spare) (h.files f hf) hp
    exact h.put hf rfl rfl hfile hb

theorem mounted_inv (n maxPages maxfilesize : Nat) : Inv (mounted n maxPages maxfilesize) where
  files _ _ := ⟨⟨by simp [mounted, Pages.empty], by simp [mounted, Pages.empty]⟩,
    by simp [mounted, Pages.empty, Pages.content, Pages.get], fun _ _ ↦ rfl,
    by simp [mounted, Pages.empty]⟩
  pages := by simp [mounted, Pages.empty, Pages.count, Pages.get]
  limit := Nat.zero_le _

/-- **Files over whole runs**: where no write meets a bad address but for its first byte in a page
within the file, and an allocation past the end has pages for it, a read returns what was last
written with zeros in the gaps, the mount counts the pages its files hold and never passes its
limit, and no page lies past the end of its file. -/
theorem run_files {n maxPages maxfilesize : Nat} {es : List Event}
    (hmeets : Machine.Meets step Proper (mounted n maxPages maxfilesize) es)
    (hrun : Machine.run step (mounted n maxPages maxfilesize) es = some s) : Sound s :=
  (Machine.run_inv (fun _ _ _ hp h ↦ step_inv h hp) (mounted_inv n maxPages maxfilesize) hmeets hrun).sound

/-- Memory in which one page of ones can be read. -/
def onePage : Memory := ⟨fun a ↦ a / 4096 = 1, fun a ↦ a / 4096 = 1, fun _ ↦ 1⟩

/-- A file is written at its end, cut short and grown again; a write from a bad address fails. -/
def grown : List Event :=
  [.write 0 onePage [⟨0x1000, 2⟩, ⟨0x1ffe, 2⟩] .user 4094 true 9 true, .resize 0 3, .resize 0 4,
   .write 0 onePage [⟨0x2000, 1⟩] .user 1 false 9 true, .allocate 0 8 3 9 true]

theorem run_files_grown : ∃ s, Machine.run step (mounted 1 4 5000) grown = some s ∧
    (s.m.pages = 1 ∧ (List.range 5).map (s.files 0).data.content = [1, 1, 1, 0, 0]) ∧ Sound s :=
  Machine.exists_run_and (by decide +kernel) fun _ hrun ↦ run_files (by decide +kernel) hrun

/-- A write of two segments fails at the second, and the empty file is grown. -/
def tornWrite : List Event :=
  [.write 0 onePage [⟨0x1000, 1⟩, ⟨0x2000, 1⟩] .user 0 false 9 true, .resize 0 1]

/-- **The bytes of a failed write are read when the file grows.** -/
theorem torn_write_kept : ∃ s, Machine.run step (mounted 1 4 5000) tornWrite = some s ∧
    ¬ Sound s := by
  refine Machine.exists_run_of (fun s ↦ s.nfiles = 1 ∧ s.want 0 0 = 0 ∧
    (Tmpfs.read onePage ⟨[⟨0x1000, 1⟩], 0, 0, 1, 0, .user⟩ (s.files 0)).toOption = some [1])
    (by decide +kernel) fun s _ ⟨hn, hwant, hread⟩ ↦ ?_
  intro hsound
  obtain ⟨k, hk, hbytes, -⟩ :=
    hsound.reads 0 (by omega) onePage [⟨0x1000, 1⟩] .user 0 ⟨[⟨0x1000, 1⟩], 0, 0, 1, 0, .user⟩ rfl
  have hone := hbytes [1] (by
    revert hread
    cases Tmpfs.read onePage _ (s.files 0) <;> simp [Except.toOption])
  obtain rfl : k = 1 := by simpa using (congrArg List.length hone).symm
  simp [hwant] at hone

end OxideBSD.Tmpfs
