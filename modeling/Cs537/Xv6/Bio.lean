import Cs537.Lib.DList
import Mathlib.Data.List.FinRange

/-!
# `bio.c` and `ide.c`: the buffer cache and the drive behind it

Processes get buffers from `bread`, change them with `bwrite` and give them back with
`brelse`. A critical section under `bcache.lock` or `idelock` is one step, and so is what
a process does alone with a buffer it has; in between anything may happen: other
processes, interrupts of the drive, and `kill`, which wakes whoever sleeps.

`sleep` and `wakeup` go by the address of a buffer, and both locks sleep on the same
ones: the interrupt for a buffer also wakes those who wait in `bget` for it to be released.

The flags of a buffer are three bits. A caller changes the data of a buffer and then calls
`bwrite`, as the interface says; here that is one step, `bwrite` with the new data, because
nobody else looks at a busy buffer. The history of a run says what was passed to `bwrite`
last for each sector (`written`), and when each buffer was released last (`released`).
-/

namespace Cs537.Xv6

open Lib

/-- `NBUF`. -/
abbrev nbuf : Nat := 10

abbrev Sector := Vector UInt8 512

/-- `struct buf`, without the links. -/
structure Buf where
  /-- `B_BUSY`. -/
  busy : Bool
  /-- `B_VALID`. -/
  valid : Bool
  /-- `B_DIRTY`. -/
  dirty : Bool
  dev : UInt32
  sector : UInt32
  data : Sector

/-- `(b->flags & (B_VALID|B_DIRTY)) == B_VALID`. -/
def Buf.Synced (x : Buf) : Prop := x.valid = true ∧ x.dirty = false

instance (x : Buf) : Decidable x.Synced := inferInstanceAs (Decidable (_ ∧ _))

/-- `bcache`. -/
structure Bcache where
  buf : Fin nbuf → Buf
  links : Links (Fin nbuf)

def Bcache.set (c : Bcache) (b : Fin nbuf) (x : Buf) : Bcache := { c with buf := Function.update c.buf b x }

/-- `binit`. -/
def binit (buf : Fin nbuf → Buf) : Bcache :=
  (List.finRange nbuf).foldl
    (fun c b => { c.set b { c.buf b with dev := -1 } with links := c.links.insertHead b }) ⟨buf, Links.head⟩

/-- What `bget` does under the lock. -/
inductive Got where
  | got (b : Fin nbuf)
  | sleeps (b : Fin nbuf)
  | panic

/-- One round of `bget`: to its return or to its `sleep`. -/
def bget (c : Bcache) (dev sector : UInt32) : Got × Bcache :=
  match scan c.links.next (fun b => (c.buf b).dev == dev && (c.buf b).sector == sector) (nbuf + 1)
      (c.links.next none) with
  | some b => if (c.buf b).busy then (.sleeps b, c) else (.got b, c.set b { c.buf b with busy := true })
  | none =>
      match scan c.links.prev (fun b => !(c.buf b).busy) (nbuf + 1) (c.links.prev none) with
      | some b =>
          (.got b, c.set b { c.buf b with
            dev := dev, sector := sector, busy := true, valid := false, dirty := false })
      | none => (.panic, c)

/-- `bwrite`, up to `iderw`; `none` for the panic. -/
def bwrite (c : Bcache) (b : Fin nbuf) (data : Sector) : Option Bcache :=
  if (c.buf b).busy = false then none else some (c.set b { c.buf b with data := data, dirty := true })

/-- `brelse`; `none` for the panic. -/
def brelse (c : Bcache) (b : Fin nbuf) : Option Bcache :=
  if (c.buf b).busy = false then none
  else some { c.set b { c.buf b with busy := false } with links := (c.links.unlink b).insertHead b }

/-! ## The drive -/

/-- A drive and a sector of it, as they are written to its registers. -/
abbrev Address := UInt32 × UInt32

/-- `b->dev&1`, and 28 bits of `b->sector`. -/
def addressOf (dev sector : UInt32) : Address := (dev &&& 1, sector &&& 0x0fffffff)

/-- What the drive has been told to do. -/
inductive Command where
  | read (a : Address)
  | write (a : Address) (data : Sector)

/-- `idestart`. -/
def idestart (b : Buf) : Command :=
  if b.dirty then .write (addressOf b.dev b.sector) b.data else .read (addressOf b.dev b.sector)

/-- The disk after the command. -/
def Command.disk (disk : Address → Sector) : Command → Address → Sector
  | .read _ => disk
  | .write a data => Function.update disk a data

/-- What `insl` reads after it into a buffer that holds `old`. -/
def Command.insl (disk : Address → Sector) (old : Sector) : Command → Sector
  | .read a => disk a
  | .write _ _ => old

/-! ## Processes -/

/-- Where a process is. -/
inductive BioAt where
  /-- Not in these files; it may hold buffers. -/
  | out
  /-- At `loop` in `bget`. -/
  | bget (dev sector : UInt32)
  /-- In `sleep(b, &bcache.lock)`. -/
  | sleeps (b : Fin nbuf) (dev sector : UInt32)
  /-- `bget` has returned `b` to `bread`. -/
  | bread (b : Fin nbuf)
  /-- At the start of `iderw`. -/
  | iderw (b : Fin nbuf)
  /-- At the `while` of `iderw`. -/
  | check (b : Fin nbuf)
  /-- In `sleep(b, &idelock)`. -/
  | waits (b : Fin nbuf)
deriving DecidableEq

/-- `proc->chan` while it sleeps. -/
def BioAt.chan : BioAt → Option (Fin nbuf)
  | .sleeps b _ _ => some b
  | .waits b => some b
  | _ => none

/-- It has been woken, and gets its lock back. -/
def BioAt.woken : BioAt → BioAt
  | .sleeps _ dev sector => .bget dev sector
  | .waits b => .check b
  | a => a

/-- `wakeup(b)`. -/
def BioAt.wakeup (b : Fin nbuf) (a : BioAt) : BioAt := if a.chan = some b then a.woken else a

structure Bio (P : Type) where
  cache : Bcache
  /-- `idequeue`, along `qnext`. -/
  queue : List (Fin nbuf)
  drive : Option Command
  disk : Address → Sector
  proc : P → BioAt
  /-- The buffers that `bget` has returned to a process, and what it had asked for. -/
  holds : P → Fin nbuf → Option (UInt32 × UInt32)
  /-- What was last passed to `bwrite` for a sector. -/
  written : Address → Sector
  /-- When a buffer was last released, and the number of releases so far. -/
  released : Fin nbuf → Nat
  clock : Nat

variable {P : Type} [DecidableEq P]

/-- Process `p` gets to `a`. -/
def Bio.move (w : Bio P) (p : P) (a : BioAt) : Bio P := { w with proc := Function.update w.proc p a }

/-- `p` gets `b`, or gives it back. -/
def give (holds : P → Fin nbuf → Option (UInt32 × UInt32)) (p : P) (b : Fin nbuf) (key : Option (UInt32 × UInt32)) :
    P → Fin nbuf → Option (UInt32 × UInt32) :=
  Function.update holds p (Function.update (holds p) b key)

/-- `iderw` to its loop: `b` is appended, and the drive started if it is alone in the queue. -/
def Bio.append (w : Bio P) (b : Fin nbuf) : Bio P :=
  { w with
    queue := w.queue ++ [b]
    drive := if w.queue = [] then some (idestart (w.cache.buf b)) else w.drive }

/-- `ideintr` for the first in the queue, when the drive has carried out `cmd`; `ok` says that `idewait(1)` finds no error. -/
def Bio.ideintr (w : Bio P) (b : Fin nbuf) (rest : List (Fin nbuf)) (cmd : Command) (ok : Bool) : Bio P :=
  let buf := w.cache.buf b
  let data := if !buf.dirty && ok then cmd.insl w.disk buf.data else buf.data
  let cache := w.cache.set b { buf with data := data, valid := true, dirty := false }
  { w with
    cache := cache
    queue := rest
    drive := rest.head?.map fun b => idestart (cache.buf b)
    disk := cmd.disk w.disk
    proc := fun p => (w.proc p).wakeup b }

/-- The drives are there, and their sectors have 28 bits. -/
def Present (dev sector : UInt32) : Prop := dev < 2 ∧ sector < 0x10000000

/-- One step. Without `faulty`, the drive reports no errors. -/
inductive Bio.Step (faulty : Bool) : Bio P → Bio P → Prop where
  | bread {w : Bio P} (p : P) {dev sector : UInt32} : w.proc p = .out → Present dev sector →
      Step faulty w (w.move p (.bget dev sector))
  | got {w : Bio P} (p : P) {dev sector : UInt32} {b : Fin nbuf} {c : Bcache} : w.proc p = .bget dev sector →
      bget w.cache dev sector = (.got b, c) →
      Step faulty w { w.move p (.bread b) with cache := c, holds := give w.holds p b (some (dev, sector)) }
  | sleep {w : Bio P} (p : P) {dev sector : UInt32} {b : Fin nbuf} {c : Bcache} : w.proc p = .bget dev sector →
      bget w.cache dev sector = (.sleeps b, c) →
      Step faulty w { w.move p (.sleeps b dev sector) with cache := c }
  | hit {w : Bio P} (p : P) {b : Fin nbuf} : w.proc p = .bread b → (w.cache.buf b).valid = true →
      Step faulty w (w.move p .out)
  | miss {w : Bio P} (p : P) {b : Fin nbuf} : w.proc p = .bread b → (w.cache.buf b).valid = false →
      Step faulty w (w.move p (.iderw b))
  | bwrite {w : Bio P} (p : P) {b : Fin nbuf} {data : Sector} {c : Bcache} {dev sector : UInt32} :
      w.proc p = .out → w.holds p b = some (dev, sector) → bwrite w.cache b data = some c →
      Step faulty w { w.move p (.iderw b) with
        cache := c, written := Function.update w.written (addressOf dev sector) data }
  | iderw {w : Bio P} (p : P) {b : Fin nbuf} : w.proc p = .iderw b → (w.cache.buf b).busy = true →
      ¬(w.cache.buf b).Synced → Step faulty w ((w.move p (.check b)).append b)
  | wait {w : Bio P} (p : P) {b : Fin nbuf} : w.proc p = .check b → ¬(w.cache.buf b).Synced →
      Step faulty w (w.move p (.waits b))
  | done {w : Bio P} (p : P) {b : Fin nbuf} : w.proc p = .check b → (w.cache.buf b).Synced →
      Step faulty w (w.move p .out)
  | ideintr {w : Bio P} {b : Fin nbuf} {rest : List (Fin nbuf)} {cmd : Command} {ok : Bool} :
      w.queue = b :: rest → w.drive = some cmd → (ok = true ∨ faulty = true) →
      Step faulty w (w.ideintr b rest cmd ok)
  | kill {w : Bio P} (p : P) {b : Fin nbuf} : (w.proc p).chan = some b → Step faulty w (w.move p (w.proc p).woken)
  | brelse {w : Bio P} (p : P) {b : Fin nbuf} {c : Bcache} {key : UInt32 × UInt32} : w.proc p = .out →
      w.holds p b = some key → brelse w.cache b = some c →
      Step faulty w { w with
        cache := c
        holds := give w.holds p b none
        proc := fun q => (w.proc q).wakeup b
        released := Function.update w.released b (w.clock + 1)
        clock := w.clock + 1 }

/-- The kernel's static data are zeros. -/
def zeroBuf : Buf := ⟨false, false, false, 0, 0, Vector.replicate 512 0⟩

def Bio.start (disk : Address → Sector) : Bio P :=
  ⟨binit fun _ => zeroBuf, [], none, disk, fun _ => .out, fun _ _ => none, disk, fun _ => 0, 0⟩

/-- What any schedule can reach. -/
inductive Bio.Reachable (faulty : Bool) : Bio P → Prop where
  | init (disk : Address → Sector) : Reachable faulty (Bio.start disk)
  | tail {w w' : Bio P} : Reachable faulty w → w.Step faulty w' → Reachable faulty w'

end Cs537.Xv6
