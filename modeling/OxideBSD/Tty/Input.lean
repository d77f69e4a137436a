import OxideBSD.Lib.Machine

/-!
# The input of a terminal

The line discipline's input side in `sys/tty/mod.rs` with `master_write_from` of
`sys/tty/pty.rs`: the bytes a pseudo-terminal's master writes go through `input`, wait in the line
being edited, in the queue of ready bytes and in the queue of line lengths, and are taken by reads.

* `Tty.input`, `Tty.take`, `Tty.setTermios` and `masterWrite` are the code; what is echoed is left
  out.
* `Discipline` is what POSIX input processing makes of the bytes, with whole lines and without
  limits: `key` is what a byte means, `Discipline.press` what it does.
* `Rep` says that the queues stand for the lines.
* `run_input`: they do in every run in which no line gets longer than the kernel edits.
* `long_line_lost`: a longer line has no end.
-/

set_option autoImplicit false

namespace OxideBSD.Terminal

open List

/-! ## Settings -/

def ISTRIP : UInt32 := 0o40
def INLCR : UInt32 := 0o100
def IGNCR : UInt32 := 0o200
def ICRNL : UInt32 := 0o400
def IXON : UInt32 := 0o2000
def IXANY : UInt32 := 0o4000
def IUTF8 : UInt32 := 0o40000

def OPOST : UInt32 := 0o1
def ONLCR : UInt32 := 0o4
def OCRNL : UInt32 := 0o10
def ONOCR : UInt32 := 0o20
def ONLRET : UInt32 := 0o40
def TABDLY : UInt32 := 0o14000
def TAB3 : UInt32 := 0o14000

def ISIG : UInt32 := 0o1
def ICANON : UInt32 := 0o2
def ECHO : UInt32 := 0o10
def ECHOE : UInt32 := 0o20
def NOFLSH : UInt32 := 0o200
def TOSTOP : UInt32 := 0o400
def ECHOKE : UInt32 := 0o4000
def IEXTEN : UInt32 := 0o100000

def VINTR : Nat := 0
def VQUIT : Nat := 1
def VERASE : Nat := 2
def VKILL : Nat := 3
def VEOF : Nat := 4
def VTIME : Nat := 5
def VMIN : Nat := 6
def VSTART : Nat := 8
def VSTOP : Nat := 9
def VSUSP : Nat := 10
def VEOL : Nat := 11
def VREPRINT : Nat := 12
def VWERASE : Nat := 14
def VLNEXT : Nat := 15
def VEOL2 : Nat := 16

def SIGINT : Nat := 2
def SIGQUIT : Nat := 3
def SIGTSTP : Nat := 20

def TIOCPKT_FLUSHREAD : UInt8 := 1
def TIOCPKT_FLUSHWRITE : UInt8 := 2
def TIOCPKT_STOP : UInt8 := 4
def TIOCPKT_START : UInt8 := 8
def TIOCPKT_NOSTOP : UInt8 := 16
def TIOCPKT_DOSTOP : UInt8 := 32

def ttyHog : Nat := 8192
def maxCanon : Nat := 1024

def newline : UInt8 := 10
def carriageReturn : UInt8 := 13

structure Termios where
  iflag : UInt32
  oflag : UInt32
  lflag : UInt32
  cc : Nat → UInt8

namespace Termios

variable (t : Termios)

def input (flag : UInt32) : Bool := t.iflag &&& flag ≠ 0

def output (flag : UInt32) : Bool := t.oflag &&& flag ≠ 0

def localFlag (flag : UInt32) : Bool := t.lflag &&& flag ≠ 0

def canonical : Bool := t.localFlag ICANON

/-- `b` is the special character `c`, which is not disabled. -/
def is (c : Nat) (b : UInt8) : Bool := t.cc c ≠ 0 && t.cc c = b

/-- `b` ends a line. -/
def ends (b : UInt8) : Bool := b = newline || t.is VEOL b || t.is VEOL2 b

end Termios

/-- `default_termios` -/
def defaultTermios : Termios where
  iflag := 0o2 ||| ICRNL ||| 0o20000 ||| IXON ||| IXANY ||| IUTF8
  oflag := OPOST ||| ONLCR
  lflag := ECHO ||| ICANON ||| ISIG ||| IEXTEN ||| ECHOE ||| ECHOKE ||| 0o1000
  cc := fun
    | 0 => 3
    | 1 => 0x1c
    | 2 => 0x7f
    | 3 => 21
    | 4 => 4
    | 6 => 1
    | 8 => 17
    | 9 => 19
    | 10 => 26
    | 12 => 18
    | 13 => 15
    | 14 => 23
    | 15 => 22
    | _ => 0

/-! ## The terminal -/

/-- What is to be done once the terminal's lock is dropped. -/
structure Effects where
  signal : Option (Nat × Nat)
  wakeReaders : Bool
  wakeWriters : Bool
  pkt : UInt8

def Effects.none : Effects := ⟨.none, false, false, 0⟩

/-- `struct Tty`: what can be read, in `lines`, and the line that is being edited. -/
structure Tty where
  termios : Termios
  pgrp : Option Nat
  ready : List UInt8
  lines : List Nat
  canon : List UInt8
  literal : Bool
  stopped : Bool

/-- A byte of a UTF-8 sequence after the first. -/
def continues (b : UInt8) : Bool := b &&& 0xc0 = 0x80

/-- `is_ascii_whitespace` -/
def blank (b : UInt8) : Bool := b = 32 || b = 9 || b = 10 || b = 12 || b = 13

/-- `pop_char`, on the line from its end. -/
def popChar (utf8 : Bool) : List UInt8 → List UInt8
  | [] => []
  | b :: rest => if utf8 && continues b then popChar utf8 rest else rest

/-- The second loop of `VWERASE`. -/
def popWord (utf8 : Bool) : Nat → List UInt8 → List UInt8
  | 0, line => line
  | _ + 1, [] => []
  | fuel + 1, b :: rest =>
    if blank b then b :: rest else popWord utf8 fuel (popChar utf8 (b :: rest))

/-- The loop of `VKILL`. -/
def popAll (utf8 : Bool) : Nat → List UInt8 → List UInt8
  | 0, line => line
  | _ + 1, [] => []
  | fuel + 1, b :: rest => popAll utf8 fuel (popChar utf8 (b :: rest))

namespace Tty

variable (t : Tty)

def flushInput : Tty := { t with ready := [], lines := [], canon := [], literal := false }

def finishLine (fx : Effects) : Tty × Effects :=
  ({ t with ready := t.ready ++ t.canon, lines := t.lines ++ [t.canon.length], canon := [] },
    { fx with wakeReaders := true })

def store (b : UInt8) (fx : Effects) : Tty × Effects :=
  if t.termios.canonical then
    if maxCanon ≤ t.canon.length then (t, fx)
    else
      let t := { t with canon := t.canon ++ [b] }
      if t.termios.ends b then t.finishLine fx else (t, fx)
  else if ttyHog ≤ t.ready.length then (t, fx)
  else ({ t with ready := t.ready ++ [b] }, { fx with wakeReaders := true })

/-- The mapping of `\r` and `\n`; `none` for a byte that is ignored. -/
def mapped (b : UInt8) : Option UInt8 :=
  if b = carriageReturn && t.termios.input IGNCR then none
  else if b = carriageReturn && t.termios.input ICRNL then some newline
  else if b = newline && t.termios.input INLCR then some carriageReturn
  else some b

def signalOf (b : UInt8) : Option Nat :=
  if t.termios.is VINTR b then some SIGINT
  else if t.termios.is VQUIT b then some SIGQUIT
  else if t.termios.is VSUSP b then some SIGTSTP
  else none

/-- The special characters of canonical mode, and what is left. -/
def edit (b : UInt8) (fx : Effects) : Tty × Effects :=
  let utf8 := t.termios.input IUTF8
  let extended := t.termios.localFlag IEXTEN
  if t.termios.canonical then
    if extended && t.termios.is VLNEXT b then ({ t with literal := true }, fx)
    else if t.termios.is VERASE b then
      ({ t with canon := (popChar utf8 t.canon.reverse).reverse }, fx)
    else if extended && t.termios.is VWERASE b then
      let line := t.canon.reverse.dropWhile blank
      ({ t with canon := (popWord utf8 line.length line).reverse }, fx)
    else if t.termios.is VKILL b then
      if t.termios.localFlag ECHO && t.termios.localFlag ECHOKE && t.termios.localFlag ECHOE then
        ({ t with canon := (popAll utf8 t.canon.length t.canon.reverse).reverse }, fx)
      else ({ t with canon := [] }, fx)
    else if extended && t.termios.is VREPRINT b then (t, fx)
    else if t.termios.is VEOF b then t.finishLine fx
    else t.store b fx
  else t.store b fx

/-- What follows flow control in `input`. -/
def cook (b : UInt8) (fx : Effects) : Tty × Effects :=
  match t.mapped b with
  | none => (t, fx)
  | some b =>
    match if t.termios.localFlag ISIG then t.signalOf b else none with
    | some sig =>
      (if t.termios.localFlag NOFLSH then t else t.flushInput,
        { fx with signal := (t.pgrp.map fun pgrp ↦ (pgrp, sig)).or fx.signal })
    | none => t.edit b fx

/-- A byte that the master writes. -/
def input (b : UInt8) (fx : Effects) : Tty × Effects :=
  if t.literal then ({ t with literal := false } : Tty).store b fx
  else
    let b := if t.termios.input ISTRIP then b &&& 0x7f else b
    if t.termios.input IXON then
      if t.termios.is VSTOP b then
        ({ t with stopped := true }, { fx with pkt := fx.pkt ||| TIOCPKT_STOP })
      else if t.termios.is VSTART b then
        ({ t with stopped := false },
          { fx with wakeWriters := true, pkt := fx.pkt ||| TIOCPKT_START })
      else if t.stopped && t.termios.input IXANY then
        ({ t with stopped := false } : Tty).cook b
          { fx with wakeWriters := true, pkt := fx.pkt ||| TIOCPKT_START }
      else t.cook b fx
    else t.cook b fx

/-- `input_all`, but for what is performed after a signal. -/
def inputAll : List UInt8 → Tty → Tty
  | [], t => t
  | b :: rest, t => inputAll rest (t.input b .none).1

def inputRoom : Nat := ttyHog - (t.ready.length + t.canon.length)

def readable : Option Nat :=
  if t.termios.canonical then
    if t.lines.sum < t.ready.length then some (t.ready.length - t.lines.sum) else t.lines.head?
  else if t.ready = [] then none else some t.ready.length

/-- The loop at the end of `take`. -/
def consume : Nat → Nat → List Nat → List Nat
  | 0, _, lines => lines
  | _, _, [] => []
  | fuel + 1, consumed, front :: lines =>
    if consumed = 0 then front :: lines
    else
      let k := min consumed front
      if front - k = 0 then consume fuel (consumed - k) lines
      else consume fuel (consumed - k) ((front - k) :: lines)

/-- Takes what a read of `n` bytes gets. -/
def take (n : Nat) : List UInt8 × Tty :=
  let unlined := t.ready.length - t.lines.sum
  if t.termios.canonical && unlined = 0 then
    match t.lines with
    | [] => ([], t)
    | len :: lines =>
      let k := min len n
      (t.ready.take k, { t with
        ready := t.ready.drop k
        lines := if k = len then lines else (len - k) :: lines })
  else
    let k := min (if t.termios.canonical then unlined else t.ready.length) n
    (t.ready.take k, { t with
      ready := t.ready.drop k
      lines := consume (k - unlined + t.lines.length) (k - unlined) t.lines })

/-- `set_termios`, after the job control. -/
def setTermios (new : Termios) (flush : Bool) : Tty × Effects :=
  let old := t.termios
  let t := { t with termios := new }
  let t := if flush then t.flushInput else t
  let raw := old.canonical && !new.canonical
  let t := if raw then { t with ready := t.ready ++ t.canon, canon := [], lines := [] } else t
  let start := t.stopped && !new.input IXON
  ({ t with stopped := t.stopped && !start },
    { Effects.none with
      wakeReaders := raw
      wakeWriters := start
      pkt := if old.input IXON && !new.input IXON then TIOCPKT_NOSTOP
        else if !old.input IXON && new.input IXON then TIOCPKT_DOSTOP else 0 })

end Tty

/-- `master_write_from` where it does not block: the bytes it counts, and the terminal. -/
def masterWrite (bytes : List UInt8) (t : Tty) : Nat × Tty :=
  let k := min t.inputRoom bytes.length
  (k, Tty.inputAll (bytes.take k) t)

/-! ## POSIX input processing -/

/-- What a byte means. -/
inductive Key
  | nothing
  | signal
  | literalNext
  | erase
  | wordErase
  | kill
  | endOfFile
  | char (b : UInt8)
  deriving DecidableEq

def Key.isChar : Key → Bool
  | .char _ => true
  | _ => false

/-- A line without its last character. -/
def eraseChar (utf8 : Bool) (line : List UInt8) : List UInt8 :=
  if utf8 then (line.rdropWhile continues).dropLast else line.dropLast

/-- A line without the characters of its last word. -/
def eraseChars (utf8 : Bool) : Nat → List UInt8 → List UInt8
  | 0, line => line
  | fuel + 1, line =>
    if line.getLast?.all blank then line else eraseChars utf8 fuel (eraseChar utf8 line)

def eraseWord (utf8 : Bool) (line : List UInt8) : List UInt8 :=
  let line := line.rdropWhile blank
  eraseChars utf8 line.length line

/-- What a byte means after the mapping and the signals. -/
def editKey (t : Termios) (b : UInt8) : Key :=
  if !t.canonical then .char b
  else if t.localFlag IEXTEN && t.is VLNEXT b then .literalNext
  else if t.is VERASE b then .erase
  else if t.localFlag IEXTEN && t.is VWERASE b then .wordErase
  else if t.is VKILL b then .kill
  else if t.localFlag IEXTEN && t.is VREPRINT b then .nothing
  else if t.is VEOF b then .endOfFile
  else .char b

/-- What a byte means after flow control. -/
def cookKey (t : Termios) (b : UInt8) : Key :=
  if b = carriageReturn && t.input IGNCR then .nothing
  else
    let b := if b = carriageReturn && t.input ICRNL then newline
      else if b = newline && t.input INLCR then carriageReturn else b
    if t.localFlag ISIG && (t.is VINTR b || t.is VQUIT b || t.is VSUSP b) then .signal
    else editKey t b

/-- What a byte means, if it is not taken literally. -/
def key (t : Termios) (b : UInt8) : Key :=
  let b := if t.input ISTRIP then b &&& 0x7f else b
  if t.input IXON && (t.is VSTOP b || t.is VSTART b) then .nothing else cookKey t b

/-- What is typed and not yet read: bytes to be read as they are, then whole lines, then the line being
edited.  `made` is all that was to be read and not discarded, `got` what the reads returned. -/
structure Discipline where
  raw : List UInt8
  lines : List (List UInt8)
  line : List UInt8
  literal : Bool
  made : List UInt8
  got : List UInt8
  deriving DecidableEq

namespace Discipline

variable (d : Discipline)

def discard : Discipline := ⟨[], [], [], false, d.got, d.got⟩

def finish : Discipline :=
  { d with lines := d.lines ++ [d.line], line := [], made := d.made ++ d.line }

def type (t : Termios) (b : UInt8) : Discipline :=
  if t.canonical then
    let d := { d with line := d.line ++ [b] }
    if t.ends b then d.finish else d
  else { d with raw := d.raw ++ [b], made := d.made ++ [b] }

def act (t : Termios) : Key → Discipline
  | .nothing => d
  | .signal => if t.localFlag NOFLSH then d else d.discard
  | .literalNext => { d with literal := true }
  | .erase => { d with line := eraseChar (t.input IUTF8) d.line }
  | .wordErase => { d with line := eraseWord (t.input IUTF8) d.line }
  | .kill => { d with line := [] }
  | .endOfFile => d.finish
  | .char b => d.type t b

def press (t : Termios) (b : UInt8) : Discipline :=
  if d.literal then ({ d with literal := false } : Discipline).type t b else d.act t (key t b)

/-- A read of `n` bytes: at most one line. -/
def read (n : Nat) : Discipline :=
  match d.raw, d.lines with
  | [], [] => d
  | [], line :: lines =>
    { d with
      lines := if line.length ≤ n then lines else line.drop n :: lines
      got := d.got ++ line.take n }
  | raw, _ => { d with raw := raw.drop n, got := d.got ++ raw.take n }

/-- Without canonical mode all that was typed is read as it is. -/
def unline : Discipline :=
  { d with
    raw := d.raw ++ d.lines.flatten ++ d.line
    lines := []
    line := []
    made := d.made ++ d.line }

/-- The byte is to go into a line that is as long as the kernel edits. -/
def Full (t : Termios) (b : UInt8) : Prop :=
  t.canonical = true ∧ maxCanon ≤ d.line.length ∧
    (d.literal = true ∨ (key t b).isChar = true)

instance (t : Termios) (b : UInt8) : Decidable (d.Full t b) := inferInstanceAs (Decidable (_ ∧ _))

/-- No byte finds its line full. -/
def Fits (t : Termios) : Discipline → List UInt8 → Prop
  | _, [] => True
  | d, b :: bytes => ¬ d.Full t b ∧ Fits t (d.press t b) bytes

instance decidableFits (t : Termios) : ∀ d bytes, Decidable (Fits t d bytes)
  | _, [] => isTrue trivial
  | d, b :: bytes =>
    have := decidableFits t (d.press t b) bytes
    inferInstanceAs (Decidable (_ ∧ _))

end Discipline

/-- The queues stand for the lines. -/
structure Rep (t : Tty) (d : Discipline) : Prop where
  ready : t.ready = d.raw ++ d.lines.flatten
  lines : t.lines = d.lines.map List.length
  canon : t.canon = d.line
  literal : t.literal = d.literal
  raw : t.termios.canonical = false → d.lines = [] ∧ d.line = []
  made : d.made = d.got ++ d.raw ++ d.lines.flatten

/-! ## The machine -/

/-- `got` is what the reads have returned, and `want` what they should have. -/
structure St where
  tty : Tty
  got : List UInt8
  want : Discipline

inductive Event
  | write (bytes : List UInt8)
  | read (n : Nat)
  | setTermios (new : Termios) (flush : Bool)

/-- The bytes of a master's write that it counts. -/
def counted (s : St) (bytes : List UInt8) : List UInt8 := bytes.take (masterWrite bytes s.tty).1

def step (s : St) : Event → Option St
  | .write bytes => some { s with
      tty := (masterWrite bytes s.tty).2
      want := (counted s bytes).foldl (fun d b ↦ d.press s.tty.termios b) s.want }
  | .read n =>
    if n = 0 then some s
    else if s.tty.termios.canonical ∧ s.tty.readable = none then none
    else some { tty := (s.tty.take n).2, got := s.got ++ (s.tty.take n).1, want := s.want.read n }
  | .setTermios new flush => some { s with
      tty := (s.tty.setTermios new flush).1
      want :=
        let d := if flush then s.want.discard else s.want
        if s.tty.termios.canonical && !new.canonical then d.unline else d }

/-- A terminal with nothing typed. -/
def fresh (t : Termios) (pgrp : Option Nat) : St :=
  ⟨⟨t, pgrp, [], [], [], false, false⟩, [], ⟨[], [], [], false, [], []⟩⟩

/-- The terminal holds, and has handed out, what the discipline says. -/
structure Sound (s : St) : Prop where
  rep : Rep s.tty s.want
  got : s.got = s.want.got
  lines : s.tty.lines.sum ≤ s.tty.ready.length

/-- No line gets longer than the kernel edits. -/
def Proper (s : St) : Event → Prop
  | .write bytes => s.want.Fits s.tty.termios (counted s bytes)
  | _ => True

instance (s : St) (ev : Event) : Decidable (Proper s ev) :=
  match ev with
  | .write bytes => Discipline.decidableFits s.tty.termios s.want (counted s bytes)
  | .read _ | .setTermios .. => isTrue trivial

variable {t : Tty} {d : Discipline} {b : UInt8} {fx : Effects} {line : List UInt8} {utf8 : Bool}
  {s s' : St} {bytes : List UInt8} {n : Nat}

/-! ## Erasing -/

theorem popChar_reverse (utf8 : Bool) (line : List UInt8) :
    (popChar utf8 line.reverse).reverse = eraseChar utf8 line := by
  have key : ∀ l : List UInt8,
      popChar utf8 l = if utf8 then (l.dropWhile continues).tail else l.tail := by
    intro l
    cases utf8 with
    | false => cases l <;> rfl
    | true =>
      induction l with
      | nil => rfl
      | cons b l ih =>
        rw [popChar]
        split <;> simp_all
  rw [key, eraseChar]
  split
  · rw [rdropWhile, dropLast_reverse]
  · rw [tail_reverse, reverse_reverse]

theorem length_eraseChar_le : (eraseChar utf8 line).length ≤ line.length - 1 := by
  rw [eraseChar]
  split
  · have := ( rdropWhile_prefix continues (l := line)).length_le
    rw [length_dropLast]
    omega
  · rw [length_dropLast]

theorem popAll_eq_nil {fuel : Nat} {l : List UInt8} (h : l.length ≤ fuel) :
    popAll utf8 fuel l = [] := by
  have hpop : ∀ l : List UInt8, (popChar utf8 l).length ≤ l.length - 1 := fun l ↦ by
    rw [← length_reverse, ← l.reverse_reverse, popChar_reverse, length_reverse]
    exact length_eraseChar_le
  induction fuel generalizing l with
  | zero => exact length_eq_zero_iff.1 (Nat.le_zero.1 h)
  | succ fuel ih =>
    cases l with
    | nil => rfl
    | cons b l =>
      have := hpop (b :: l)
      exact ih (by omega)

theorem popWord_reverse (fuel : Nat) (l : List UInt8) :
    (popWord utf8 fuel l).reverse = eraseChars utf8 fuel l.reverse := by
  induction fuel generalizing l with
  | zero => rfl
  | succ fuel ih =>
    cases l with
    | nil => rfl
    | cons b l =>
      have hlast : (b :: l).reverse.getLast? = some b := by simp
      by_cases hb : blank b = true
      · rw [popWord, if_pos hb, eraseChars, if_pos (by simpa using hb)]
      · rw [popWord, if_neg hb, eraseChars, if_neg (by simpa using hb), ih,
          ← popChar_reverse, reverse_reverse]

theorem eraseWord_eq (line : List UInt8) : (popWord utf8 (line.reverse.dropWhile blank).length
    (line.reverse.dropWhile blank)).reverse = eraseWord utf8 line := by
  rw [popWord_reverse, eraseWord, rdropWhile, length_reverse]

theorem length_eraseChars_le (fuel : Nat) (line : List UInt8) :
    (eraseChars utf8 fuel line).length ≤ line.length := by
  induction fuel generalizing line with
  | zero => exact le_rfl
  | succ fuel ih =>
    rw [eraseChars]
    split
    · exact le_rfl
    · have := ih (eraseChar utf8 line)
      have : (eraseChar utf8 line).length ≤ line.length - 1 := length_eraseChar_le
      omega

/-! ## A byte -/

theorem Rep.finish (h : Rep t d) (hc : t.termios.canonical = true) :
    Rep (t.finishLine fx).1 d.finish := by
  obtain ⟨hready, hlines, hcanon, hliteral, -, hmade⟩ := h
  refine ⟨?_, ?_, rfl, hliteral, fun hno ↦ ?_, ?_⟩
  · simp [Tty.finishLine, Discipline.finish, hready, hcanon]
  · simp [Tty.finishLine, Discipline.finish, hlines, hcanon]
  · simp [Tty.finishLine, hc] at hno
  · simp [Discipline.finish, hmade]

theorem Rep.setLine (h : Rep t d) (hc : t.termios.canonical = true) (line : List UInt8) :
    Rep { t with canon := line } { d with line := line } :=
  ⟨h.ready, h.lines, rfl, h.literal, fun hno ↦ by simp [hc] at hno, h.made⟩

theorem Rep.store (h : Rep t d) (hroom : t.ready.length + t.canon.length < ttyHog)
    (hfull : t.termios.canonical = true → t.canon.length < maxCanon) :
    Rep (t.store b fx).1 (d.type t.termios b) := by
  obtain ⟨hready, hlines, hcanon, hliteral, hraw, hmade⟩ := h
  rw [Tty.store, Discipline.type]
  cases hc : t.termios.canonical with
  | true =>
    have hlt := hfull hc
    simp only [if_true]
    rw [if_neg (by omega)]
    split
    · exact Rep.finish ⟨hready, hlines, by simp [hcanon], hliteral, fun hno ↦ by simp [hc] at hno,
        hmade⟩ hc
    · refine ⟨hready, hlines, by simp [hcanon], hliteral, fun hno ↦ ?_, hmade⟩
      simp [hc] at hno
  | false =>
    obtain ⟨hnone, hline⟩ := hraw hc
    simp only [Bool.false_eq_true, if_false]
    rw [if_neg (by omega)]
    refine ⟨by simp [hready, hnone], by simp [hlines], hcanon, hliteral, fun _ ↦ ⟨hnone, hline⟩, ?_⟩
    simp [hmade, hnone]

theorem Rep.edit (h : Rep t d) (hroom : t.ready.length + t.canon.length < ttyHog)
    (hfull : t.termios.canonical = true → (∃ c, editKey t.termios b = .char c) →
      t.canon.length < maxCanon) :
    Rep (t.edit b fx).1 (d.act t.termios (editKey t.termios b)) := by
  rw [Tty.edit]
  cases hc : t.termios.canonical with
  | false =>
    have hkey : editKey t.termios b = .char b := by simp [editKey, hc]
    rw [hkey]
    exact h.store hroom fun hno ↦ by simp [hc] at hno
  | true =>
    simp only [if_true]
    have hkey : editKey t.termios b = editKey t.termios b := rfl
    conv_rhs at hkey => rw [editKey, hc]
    simp only [Bool.not_true, Bool.false_eq_true, if_false] at hkey
    split_ifs at hkey ⊢ with h1 h2 h3 h4 h5 h6 h7
    all_goals rw [hkey]
    · exact ⟨h.ready, h.lines, h.canon, rfl, h.raw, h.made⟩
    · rw [popChar_reverse, h.canon]
      exact h.setLine hc _
    · rw [eraseWord_eq, h.canon]
      exact h.setLine hc _
    · rw [popAll_eq_nil (by simp)]
      exact h.setLine hc []
    · exact h.setLine hc []
    · exact h
    · exact h.finish hc
    · exact h.store hroom fun _ ↦ hfull hc ⟨b, hkey⟩

theorem rep_flush (t : Tty) (d : Discipline) : Rep t.flushInput d.discard :=
  ⟨rfl, rfl, rfl, rfl, fun _ ↦ ⟨rfl, rfl⟩, by simp [Discipline.discard]⟩

theorem signalOf_isSome : (t.signalOf b).isSome =
    (t.termios.is VINTR b || t.termios.is VQUIT b || t.termios.is VSUSP b) := by
  rw [Tty.signalOf]
  split_ifs <;> simp_all

theorem Rep.cook (h : Rep t d) (hroom : t.ready.length + t.canon.length < ttyHog)
    (hfull : t.termios.canonical = true → (∃ c, cookKey t.termios b = .char c) →
      t.canon.length < maxCanon) :
    Rep (t.cook b fx).1 (d.act t.termios (cookKey t.termios b)) := by
  rw [cookKey] at hfull ⊢
  rw [Tty.cook, Tty.mapped]
  by_cases hign : (b = carriageReturn && t.termios.input IGNCR) = true
  · rw [if_pos hign, if_pos hign]
    exact h
  rw [if_neg hign] at hfull ⊢
  have hmapped : (if (b = carriageReturn && t.termios.input ICRNL) = true then some newline
      else if (b = newline && t.termios.input INLCR) = true then some carriageReturn else some b) =
      some (if (b = carriageReturn && t.termios.input ICRNL) = true then newline
        else if (b = newline && t.termios.input INLCR) = true then carriageReturn else b) := by
    split_ifs <;> rfl
  rw [if_neg hign, hmapped]
  dsimp only at hfull ⊢
  generalize (if (b = carriageReturn && t.termios.input ICRNL) = true then newline
    else if (b = newline && t.termios.input INLCR) = true then carriageReturn else b) = c at hfull ⊢
  rw [← signalOf_isSome] at hfull ⊢
  cases hsig : t.termios.localFlag ISIG with
  | false =>
    simp only [hsig] at hfull ⊢
    exact h.edit hroom hfull
  | true =>
    simp only [hsig, Bool.true_and, if_true] at hfull ⊢
    cases hs : t.signalOf c with
    | none =>
      simp only [hs] at hfull ⊢
      exact h.edit hroom hfull
    | some sig =>
      simp only [Discipline.act]
      split
      · exact h
      · exact rep_flush t d

theorem Rep.input (h : Rep t d) (hroom : t.ready.length + t.canon.length < ttyHog)
    (hfull : ¬ d.Full t.termios b) : Rep (t.input b fx).1 (d.press t.termios b) := by
  rw [Tty.input, Discipline.press, ← h.literal]
  by_cases hl : t.literal = true
  · rw [if_pos hl, if_pos hl]
    refine Rep.store ⟨h.ready, h.lines, h.canon, rfl, h.raw, h.made⟩ hroom fun hc ↦ ?_
    by_contra hlong
    exact hfull ⟨hc, h.canon ▸ not_lt.1 hlong, .inl (h.literal ▸ hl)⟩
  have hfull' : t.termios.canonical = true → (∃ c, key t.termios b = .char c) →
      t.canon.length < maxCanon := fun hc hkey ↦ by
    by_contra hlong
    obtain ⟨c, hkey⟩ := hkey
    exact hfull ⟨hc, h.canon ▸ not_lt.1 hlong, .inr (by rw [hkey]; rfl)⟩
  rw [if_neg hl, if_neg hl]
  rw [key] at hfull' ⊢
  generalize (if t.termios.input ISTRIP = true then b &&& 0x7f else b) = c at hfull' ⊢
  cases hx : t.termios.input IXON with
  | false =>
    simp only [hx] at hfull' ⊢
    exact h.cook hroom hfull'
  | true =>
    simp only [hx, Bool.true_and, if_true] at hfull' ⊢
    by_cases hstop : t.termios.is VSTOP c = true
    · simp only [hstop, Bool.true_or]
      exact ⟨h.ready, h.lines, h.canon, h.literal, h.raw, h.made⟩
    by_cases hstart : t.termios.is VSTART c = true
    · simp only [hstop, hstart]
      exact ⟨h.ready, h.lines, h.canon, h.literal, h.raw, h.made⟩
    simp only [hstop, hstart, Bool.or_self, Bool.false_eq_true, if_false] at hfull' ⊢
    split
    · exact Rep.cook
        ⟨h.ready, h.lines, h.canon, h.literal, h.raw, h.made⟩ hroom hfull'
    · exact h.cook hroom hfull'

/-! ## The calls -/

/-- The bytes typed and not read. -/
def Discipline.length (d : Discipline) : Nat :=
  d.raw.length + d.lines.flatten.length + d.line.length

theorem length_press_le (t : Termios) : (d.press t b).length ≤ d.length + 1 := by
  have htype : ∀ (d : Discipline) c, (d.type t c).length ≤ d.length + 1 := fun d c ↦ by
    rw [Discipline.type]
    split_ifs <;> simp [Discipline.length, Discipline.finish] <;> omega
  rw [Discipline.press]
  split
  · exact htype _ b
  · cases key t b with
    | erase =>
      have : (eraseChar (t.input IUTF8) d.line).length ≤ d.line.length - 1 := length_eraseChar_le
      simp only [Discipline.act, Discipline.length]
      omega
    | wordErase =>
      have : (eraseChars (t.input IUTF8) (d.line.rdropWhile blank).length
        (d.line.rdropWhile blank)).length ≤ _ := length_eraseChars_le ..
      have := ( rdropWhile_prefix blank d.line).length_le
      simp only [Discipline.act, Discipline.length, eraseWord]
      omega
    | char c => exact htype d c
    | signal =>
      rw [Discipline.act]
      split_ifs <;> simp [Discipline.length, Discipline.discard]
    | _ => simp [Discipline.act, Discipline.length, Discipline.finish] <;> omega

theorem Rep.length (h : Rep t d) : t.ready.length + t.canon.length = d.length := by
  rw [h.ready, h.canon, length_append, Discipline.length]

theorem termios_store : (t.store b fx).1.termios = t.termios := by
  rw [Tty.store]
  dsimp only
  split_ifs <;> rfl

theorem termios_edit : (t.edit b fx).1.termios = t.termios := by
  rw [Tty.edit]
  split_ifs <;> first | rfl | exact termios_store

theorem termios_cook : (t.cook b fx).1.termios = t.termios := by
  rw [Tty.cook]
  split
  · rfl
  · split
    · dsimp only
      split_ifs <;> rfl
    · exact termios_edit

theorem termios_input : (t.input b fx).1.termios = t.termios := by
  rw [Tty.input]
  dsimp only
  split_ifs <;> first | rfl | exact termios_store | exact termios_cook

theorem Rep.inputAll (h : Rep t d) (hroom : d.length + bytes.length ≤ ttyHog)
    (hfits : d.Fits t.termios bytes) :
    Rep (Tty.inputAll bytes t) (bytes.foldl (fun d b ↦ d.press t.termios b) d) := by
  induction bytes generalizing t d with
  | nil => exact h
  | cons b bytes ih =>
    have hlen := h.length
    have hle := length_press_le (d := d) (b := b) t.termios
    rw [length_cons] at hroom
    have hnext : Rep (t.input b .none).1 (d.press t.termios b) := h.input (by omega) hfits.1
    have := ih hnext (by omega) (by rw [termios_input]; exact hfits.2)
    rwa [termios_input] at this

theorem masterWrite_snd (bytes : List UInt8) (t : Tty) :
    (masterWrite bytes t).2 = Tty.inputAll (bytes.take (masterWrite bytes t).1) t :=
  rfl

theorem Rep.write (h : Rep t d) (hfits : d.Fits t.termios (bytes.take (masterWrite bytes t).1)) :
    Rep (masterWrite bytes t).2
      ((bytes.take (masterWrite bytes t).1).foldl (fun d b ↦ d.press t.termios b) d) := by
  have hlen := h.length
  by_cases hfull : ttyHog ≤ d.length
  · have hzero : (masterWrite bytes t).1 = 0 := by
      rw [masterWrite, Tty.inputRoom]
      omega
    rw [masterWrite_snd, hzero]
    exact h
  · refine h.inputAll ?_ hfits
    rw [length_take, Tty.inputRoom]
    omega

theorem consume_zero (fuel : Nat) (lines : List Nat) : Tty.consume fuel 0 lines = lines := by
  cases fuel <;> cases lines <;> simp [Tty.consume]

theorem Rep.unlined (h : Rep t d) : t.ready.length - t.lines.sum = d.raw.length := by
  rw [h.ready, h.lines, length_append, length_flatten, Nat.add_sub_cancel]

theorem take_min (l : List UInt8) (n : Nat) : l.take (min l.length n) = l.take n := by
  obtain h | h := le_total n l.length <;> simp [h]

theorem drop_min (l : List UInt8) (n : Nat) : l.drop (min l.length n) = l.drop n := by
  obtain h | h := le_total n l.length <;> simp [h]

/-- Bytes are read as they are. -/
theorem Rep.take_raw (h : Rep t d) (hraw : t.termios.canonical = true → d.raw ≠ []) :
    Rep (t.take n).2 (d.read n) ∧ (d.read n).got = d.got ++ (t.take n).1 := by
  obtain ⟨hready, hlines, hcanon, hliteral, hnone, hmade⟩ := h
  have hunlined := Rep.unlined ⟨hready, hlines, hcanon, hliteral, hnone, hmade⟩
  have hk : (if t.termios.canonical then d.raw.length else t.ready.length) = d.raw.length := by
    split
    · rfl
    · rename_i hc
      rw [hready, (hnone (by simpa using hc)).1, flatten_nil, append_nil]
  have htake : t.take n = (d.raw.take n, { t with ready := d.raw.drop n ++ d.lines.flatten }) := by
    rw [Tty.take, hunlined]
    dsimp only
    rw [if_neg, hk, Nat.sub_eq_zero_of_le (Nat.min_le_left ..), consume_zero, hready,
      take_append_of_le_length (Nat.min_le_left ..),
      drop_append_of_le_length (Nat.min_le_left ..), take_min, drop_min]
    simp only [Bool.and_eq_true, decide_eq_true_eq, length_eq_zero_iff]
    exact fun ⟨hc, hnil⟩ ↦ hraw hc hnil
  have hread : d.read n = { d with raw := d.raw.drop n, got := d.got ++ d.raw.take n } := by
    rw [Discipline.read]
    split
    · rename_i hr _
      cases d
      simp_all
    · rename_i hr hl
      cases hc : t.termios.canonical with
      | true => exact absurd hr (hraw hc)
      | false => simp [(hnone hc).1] at hl
    · rfl
  rw [htake, hread]
  exact ⟨⟨rfl, hlines, hcanon, hliteral, hnone, by simp [hmade]⟩, rfl⟩

/-- A line is read, or its first part. -/
theorem Rep.take_line (h : Rep t d) (hc : t.termios.canonical = true) (hraw : d.raw = []) :
    Rep (t.take n).2 (d.read n) ∧ (d.read n).got = d.got ++ (t.take n).1 := by
  obtain ⟨hready, hlines, hcanon, hliteral, hnone, hmade⟩ := h
  have hunlined := Rep.unlined ⟨hready, hlines, hcanon, hliteral, hnone, hmade⟩
  rw [hraw, length_nil] at hunlined
  rw [Tty.take, Discipline.read, hunlined, hlines, hraw]
  simp only [hc, Bool.true_and, decide_true, if_true]
  cases hl : d.lines with
  | nil => exact ⟨⟨by simp [hready], by simp [hlines], hcanon, hliteral,
      by simpa using hnone, by simpa using hmade⟩, by simp⟩
  | cons line lines =>
    have hready' : t.ready = line ++ lines.flatten := by simp [hready, hraw, hl]
    simp only [map_cons, hready']
    rw [take_append_of_le_length (Nat.min_le_left ..),
      drop_append_of_le_length (Nat.min_le_left ..), take_min, drop_min]
    refine ⟨⟨?_, ?_, hcanon, hliteral, fun hno ↦ by simp [hc] at hno, ?_⟩, rfl⟩
    all_goals by_cases hle : line.length ≤ n
    · simp [hle]
    · simp [hle]
    · simp [hle]
    · rw [Nat.min_eq_right (by omega), if_neg (by omega), if_neg hle, map_cons,
        length_drop]
    · simp [hle, hmade, hraw, hl]
    · simp [hle, hmade, hraw, hl, ← append_assoc (line.take n)]

theorem Rep.take (h : Rep t d) : Rep (t.take n).2 (d.read n) ∧
    (d.read n).got = d.got ++ (t.take n).1 := by
  by_cases hline : t.termios.canonical = true ∧ d.raw = []
  · exact h.take_line hline.1 hline.2
  · exact h.take_raw fun hc hraw ↦ hline ⟨hc, hraw⟩

theorem Rep.setTermios {new : Termios} {flush : Bool} (h : Rep t d) :
    Rep (t.setTermios new flush).1
      (let d := if flush then d.discard else d
      if t.termios.canonical && !new.canonical then d.unline else d) := by
  rw [Tty.setTermios]
  have hflush : Rep (if flush then t.flushInput else t) (if flush then d.discard else d) := by
    split
    · exact rep_flush t d
    · exact h
  have hnew : (if flush = true then ({ t with termios := new } : Tty).flushInput
      else { t with termios := new }) =
        { (if flush then t.flushInput else t) with termios := new } := by
    split <;> rfl
  have htermios : (if flush then t.flushInput else t).termios = t.termios := by
    split <;> rfl
  rw [hnew, ← htermios]
  revert hflush
  generalize (if flush then t.flushInput else t) = t'
  rintro ⟨hready, hlines, hcanon, hliteral, hraw, hmade⟩
  by_cases hun : (t'.termios.canonical && !new.canonical) = true
  · simp only [hun, if_true]
    exact ⟨by simp [Discipline.unline, hready, hcanon], rfl, rfl, hliteral, fun _ ↦ ⟨rfl, rfl⟩,
      by simp [Discipline.unline, hmade]⟩
  · simp only [hun]
    exact ⟨hready, hlines, hcanon, hliteral, fun hno ↦ hraw (by simp_all), hmade⟩

/-! ## Every run -/

theorem got_press (t : Termios) : (d.press t b).got = d.got := by
  have htype : ∀ (d : Discipline) c, (d.type t c).got = d.got := fun d c ↦ by
    rw [Discipline.type]
    split_ifs <;> rfl
  rw [Discipline.press]
  split
  · exact htype _ b
  · cases key t b with
    | signal =>
      rw [Discipline.act]
      split_ifs <;> rfl
    | char c => exact htype d c
    | _ => rfl

theorem got_foldl_press (t : Termios) (bytes : List UInt8) (d : Discipline) :
    (bytes.foldl (fun d b ↦ d.press t b) d).got = d.got := by
  induction bytes generalizing d with
  | nil => rfl
  | cons b bytes ih => exact (ih _).trans (got_press t)

theorem step_inv {ev : Event} (h : Sound s) (hp : Proper s ev) (hs : step s ev = some s') :
    Sound s' := by
  have hlines : ∀ {t : Tty} {d : Discipline}, Rep t d → t.lines.sum ≤ t.ready.length :=
    fun h ↦ by simp [h.ready, h.lines]
  cases ev with
  | write bytes =>
    cases hs
    have hrep := h.rep.write hp
    exact ⟨hrep, h.got.trans (got_foldl_press ..).symm, hlines hrep⟩
  | read n =>
    rw [step] at hs
    split_ifs at hs
    · cases hs
      exact h
    · cases hs
      obtain ⟨hrep, hgot⟩ := h.rep.take
      exact ⟨hrep, by rw [hgot, h.got], hlines hrep⟩
  | setTermios new flush =>
    cases hs
    refine ⟨h.rep.setTermios, h.got.trans ?_, hlines h.rep.setTermios⟩
    split_ifs <;> rfl

/-- **Terminal input is neither lost nor reordered** in a run in which no line gets longer than the
kernel edits: the queues hold what POSIX input processing makes of the bytes the master's writes
counted, the reads have returned what its reads would, and what they returned and what is ready
together are all that was typed, in order. -/
theorem run_input {t : Termios} {pgrp : Option Nat} {es : List Event}
    (hmeets : Machine.Meets step Proper (fresh t pgrp) es)
    (hrun : Machine.run step (fresh t pgrp) es = some s) :
    Sound s ∧ s.got ++ s.tty.ready = s.want.made := by
  have hsound : Sound s := Machine.run_inv (fun _ _ _ hp h ↦ step_inv h hp)
    ⟨⟨rfl, rfl, rfl, rfl, fun _ ↦ ⟨rfl, rfl⟩, rfl⟩, rfl, le_rfl⟩ hmeets hrun
  exact ⟨hsound, by rw [hsound.got, hsound.rep.ready, hsound.rep.made, append_assoc]⟩

/-- `ab`, an erase, a literal erase, a line, an end of file and a word erase; the line is read in two
parts, and the rest without canonical mode. -/
def edited : List Event :=
  [.write [97, 98, 0x7f, 22, 0x7f, 13, 99, 4, 100, 32, 101, 23], .read 2, .read 5, .read 1,
   .setTermios { defaultTermios with lflag := 0 } false, .read 9]

theorem run_input_edited : ∃ s, Machine.run step (fresh defaultTermios none) edited = some s ∧
    s.got = [97, 0x7f, 10, 99, 100, 32] ∧ Sound s :=
  Machine.exists_run_and (by decide +kernel) fun _ hrun ↦ (run_input (by decide +kernel) hrun).1

/-- A line of 1024 letters and its end. -/
def longLine : List UInt8 := List.replicate 1024 97 ++ [newline]

/-- A letter and the end of a line have no other meaning at first. -/
theorem input_default (ht : t.termios = defaultTermios) (hl : t.literal = false)
    (hs : t.stopped = false) (hb : b = 97 ∨ b = newline) : t.input b .none = t.store b .none := by
  have hin : defaultTermios.input ISTRIP = false ∧ defaultTermios.input INLCR = false := by decide
  have hcarriage : decide (b = carriageReturn) = false := by
    obtain rfl | rfl := hb <;> decide
  have his : ∀ c ∈ [VSTOP, VSTART, VINTR, VQUIT, VSUSP, VLNEXT, VERASE, VWERASE, VKILL, VREPRINT,
      VEOF], defaultTermios.is c b = false := by
    obtain rfl | rfl := hb <;> decide
  simp [Tty.input, Tty.cook, Tty.mapped, Tty.signalOf, Tty.edit, ht, hl, hs, hin, hcarriage, his]

theorem lines_inputAll_longLine (n : Nat) (ht : t.termios = defaultTermios)
    (hl : t.literal = false) (hs : t.stopped = false) (hn : t.canon.length + n = maxCanon) :
    (Tty.inputAll (List.replicate n 97 ++ [newline]) t).lines = t.lines := by
  have hcanonical : t.termios.canonical = true := by
    rw [ht]
    decide
  induction n generalizing t with
  | zero =>
    have hfull : maxCanon ≤ t.canon.length := hn.ge
    show (t.input newline .none).1.lines = t.lines
    rw [input_default ht hl hs (.inr rfl), Tty.store, if_pos hcanonical, if_pos hfull]
  | succ n ih =>
    have hroom : ¬ maxCanon ≤ t.canon.length := by omega
    have hends : ¬ t.termios.ends 97 = true := by
      rw [ht]
      decide
    have hstore : (t.input 97 .none).1 = { t with canon := t.canon ++ [97] } := by
      rw [input_default ht hl hs (.inl rfl), Tty.store, if_pos hcanonical, if_neg hroom]
      exact congrArg Prod.fst (if_neg hends)
    show (Tty.inputAll (replicate n 97 ++ [newline]) (t.input 97 .none).1).lines = t.lines
    rw [hstore]
    exact ih ht hl hs (by simp; omega) hcanonical

theorem length_lines_longLine (n : Nat) (hl : d.literal = false) :
    ((List.replicate n 97 ++ [newline]).foldl (fun (d : Discipline) b ↦ d.press defaultTermios b)
      d).lines.length = d.lines.length + 1 := by
  have hkey : key defaultTermios 97 = .char 97 ∧ key defaultTermios newline = .char newline := by
    decide
  have hends : defaultTermios.canonical = true ∧ defaultTermios.ends 97 = false ∧
      defaultTermios.ends newline = true := by
    decide
  induction n generalizing d with
  | zero =>
    simp [Discipline.press, Discipline.act, Discipline.type, Discipline.finish, hl, hkey, hends]
  | succ n ih =>
    have hpress : d.press defaultTermios 97 = { d with line := d.line ++ [97] } := by
      simp [Discipline.press, Discipline.act, Discipline.type, hl, hkey, hends]
    rw [replicate_succ, cons_append, foldl_cons, hpress]
    exact ih hl

theorem not_sound_of_write (htty : (masterWrite bytes s.tty).2.lines.length = n)
    (hwant : ((counted s bytes).foldl (fun (d : Discipline) b ↦ d.press s.tty.termios b)
      s.want).lines.length = n + 1) :
    ∃ s', Machine.run step s [.write bytes] = some s' ∧ ¬ Sound s' := by
  refine ⟨_, rfl, fun hsound ↦ ?_⟩
  have hlen := congrArg length hsound.rep.lines
  rw [length_map] at hlen
  exact n.succ_ne_self (hwant.symm.trans (hlen.symm.trans htty))

/-- **The end of a long line is dropped**: the line is never ready. -/
theorem long_line_lost : ∃ s,
    Machine.run step (fresh defaultTermios none) [.write longLine] = some s ∧ ¬ Sound s := by
  have hcount : (masterWrite longLine (fresh defaultTermios none).tty).1 = longLine.length := by
    rw [longLine, masterWrite, length_append, length_replicate]
    rfl
  refine not_sound_of_write (n := 0) ?_ ?_
  · rw [masterWrite_snd, hcount, take_length, longLine,
      lines_inputAll_longLine 1024 rfl rfl rfl rfl]
    rfl
  · rw [counted, hcount, take_length]
    exact length_lines_longLine 1024 rfl

end OxideBSD.Terminal
