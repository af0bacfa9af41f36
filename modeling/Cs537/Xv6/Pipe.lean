import Cs537.Lib.Ring

/-!
# `pipe.c`

A pipe with any number of processes that read and write it. A process that has `p->lock`
goes from one point of the source to the next; in between only `kill`, which does not take
that lock, can come. `sleep` gives the lock back in the same step in which the process
begins to sleep, because `wakeup` and `sleep` both hold the lock of the process table.

`fileclose` calls `pipeclose` when nobody can use that end any more: a process inside
`pipewrite` has a file of its own for the pipe. The history says which process put which
byte into the pipe, which took it out, and where in it the call of a process began.
-/

namespace Cs537.Xv6

open Lib

/-- `PIPESIZE`. -/
abbrev pipesize : Nat := 512

/-- `struct pipe`, without the lock. -/
structure Pipe where
  data : Vector UInt8 pipesize
  nread : UInt32
  nwrite : UInt32
  readopen : Bool
  writeopen : Bool

/-- What `pipealloc` makes of a page. -/
def pipealloc (data : Vector UInt8 pipesize) : Pipe := ⟨data, 0, 0, true, true⟩

/-- `p->nwrite == p->nread + PIPESIZE`. -/
def Pipe.Full (p : Pipe) : Prop := p.nwrite = p.nread + UInt32.ofNat pipesize

/-- `p->nread == p->nwrite`. -/
def Pipe.Empty (p : Pipe) : Prop := p.nread = p.nwrite

instance (p : Pipe) : Decidable p.Full := inferInstanceAs (Decidable (_ = _))

instance (p : Pipe) : Decidable p.Empty := inferInstanceAs (Decidable (_ = _))

/-- `i % PIPESIZE`. -/
def cell (i : UInt32) : Fin pipesize := ⟨i.toNat % pipesize, Nat.mod_lt _ (by decide)⟩

/-- `p->data[p->nwrite++ % PIPESIZE] = x`. -/
def Pipe.put (p : Pipe) (x : UInt8) : Pipe :=
  { p with data := p.data.set (cell p.nwrite) x, nwrite := p.nwrite + 1 }

/-- `p->data[p->nread++ % PIPESIZE]`. -/
def Pipe.get (p : Pipe) : UInt8 × Pipe := (p.data[cell p.nread], { p with nread := p.nread + 1 })

/-- Where a process is. -/
inductive PipeAt where
  | out
  /-- `pipewrite`: at the `for`, or the `while` in it, with `i` bytes written. -/
  | write (addr : List UInt8) (i : Nat)
  /-- It has found the pipe full, and no reason to give up. -/
  | full (addr : List UInt8) (i : Nat)
  /-- In `sleep(&p->nwrite, &p->lock)`. -/
  | sleepsW (addr : List UInt8) (i : Nat)
  /-- Woken, and in `acquire`. -/
  | wokenW (addr : List UInt8) (i : Nat)
  /-- It returns `n`, or -1. -/
  | wrote (addr : List UInt8) (ok : Bool)
  /-- `piperead`: at the `while`. -/
  | read (n : Nat)
  /-- It has found the pipe empty and open, and has not been killed. -/
  | empty (n : Nat)
  /-- In `sleep(&p->nread, &p->lock)`. -/
  | sleepsR (n : Nat)
  | wokenR (n : Nat)
  /-- At the `for`. -/
  | copy (n : Nat) (addr : List UInt8)
  /-- It returns what it has copied, or -1. -/
  | got (n : Nat) (r : Option (List UInt8))

/-- `wakeup(&p->nread)`. -/
def PipeAt.wakeR : PipeAt → PipeAt
  | .sleepsR n => .wokenR n
  | a => a

/-- `wakeup(&p->nwrite)`. -/
def PipeAt.wakeW : PipeAt → PipeAt
  | .sleepsW addr i => .wokenW addr i
  | a => a

/-- In `pipewrite`. -/
def PipeAt.writes : PipeAt → Bool
  | .write _ _ | .full _ _ | .sleepsW _ _ | .wokenW _ _ => true
  | _ => false

/-- In `piperead`. -/
def PipeAt.reads : PipeAt → Bool
  | .read _ | .empty _ | .sleepsR _ | .wokenR _ | .copy _ _ => true
  | _ => false

structure Piped (P : Type) where
  pipe : Pipe
  lock : Option P
  killed : P → Bool
  proc : P → PipeAt
  /-- The bytes that went into the pipe, each with the process that wrote it. -/
  sent : List (P × UInt8)
  /-- The bytes that came out, each with the process that read it. -/
  taken : List (P × UInt8)
  /-- How many of them were its own when the process called. -/
  mark : P → Nat

variable {P : Type} [DecidableEq P]

/-- The bytes of a process. -/
def bytesOf (p : P) (l : List (P × UInt8)) : List UInt8 := (l.filter fun e => e.1 = p).map Prod.snd

/-- `acquire`, and then on to `a`. -/
def Piped.acquire (w : Piped P) (p : P) (a : PipeAt) : Piped P :=
  { w with lock := some p, proc := Function.update w.proc p a }

/-- On to `a`, with or without the lock as before. -/
def Piped.goto (w : Piped P) (p : P) (a : PipeAt) : Piped P := { w with proc := Function.update w.proc p a }

/-- `release`, and then `a`. -/
def Piped.release (w : Piped P) (p : P) (a : PipeAt) : Piped P :=
  { w with lock := none, proc := Function.update w.proc p a }

def Piped.wakeR (w : Piped P) : Piped P := { w with proc := fun q => (w.proc q).wakeR }

def Piped.wakeW (w : Piped P) : Piped P := { w with proc := fun q => (w.proc q).wakeW }

/-- One step. Without `kills`, nobody is killed. -/
inductive Piped.Step (kills : Bool) : Piped P → Piped P → Prop where
  | pipewrite {w : Piped P} (p : P) (addr : List UInt8) : w.proc p = .out → w.pipe.writeopen = true →
      w.lock = none → Step kills w { w.acquire p (.write addr 0) with
        mark := Function.update w.mark p (bytesOf p w.sent).length }
  | put {w : Piped P} (p : P) {addr : List UInt8} {i : Nat} (hi : i < addr.length) : w.proc p = .write addr i →
      ¬w.pipe.Full → Step kills w { w.goto p (.write addr (i + 1)) with
        pipe := w.pipe.put addr[i], sent := w.sent ++ [(p, addr[i])] }
  | fail {w : Piped P} (p : P) {addr : List UInt8} {i : Nat} : w.proc p = .write addr i → i < addr.length →
      w.pipe.Full → (w.pipe.readopen = false ∨ w.killed p = true) →
      Step kills w (w.release p (.wrote addr false))
  | full {w : Piped P} (p : P) {addr : List UInt8} {i : Nat} : w.proc p = .write addr i → i < addr.length →
      w.pipe.Full → w.pipe.readopen = true → w.killed p = false → Step kills w (w.goto p (.full addr i))
  | sleepW {w : Piped P} (p : P) {addr : List UInt8} {i : Nat} : w.proc p = .full addr i →
      Step kills w (w.wakeR.release p (.sleepsW addr i))
  | finish {w : Piped P} (p : P) {addr : List UInt8} {i : Nat} : w.proc p = .write addr i → ¬i < addr.length →
      Step kills w (w.wakeR.release p (.wrote addr true))
  | againW {w : Piped P} (p : P) {addr : List UInt8} {i : Nat} : w.proc p = .wokenW addr i → w.lock = none →
      Step kills w (w.acquire p (.write addr i))
  | piperead {w : Piped P} (p : P) (n : Nat) : w.proc p = .out → w.pipe.readopen = true → w.lock = none →
      Step kills w { w.acquire p (.read n) with
        mark := Function.update w.mark p (bytesOf p w.taken).length }
  | dies {w : Piped P} (p : P) {n : Nat} : w.proc p = .read n → w.pipe.Empty → w.pipe.writeopen = true →
      w.killed p = true → Step kills w (w.release p (.got n none))
  | empty {w : Piped P} (p : P) {n : Nat} : w.proc p = .read n → w.pipe.Empty → w.pipe.writeopen = true →
      w.killed p = false → Step kills w (w.goto p (.empty n))
  | sleepR {w : Piped P} (p : P) {n : Nat} : w.proc p = .empty n → Step kills w (w.release p (.sleepsR n))
  | againR {w : Piped P} (p : P) {n : Nat} : w.proc p = .wokenR n → w.lock = none →
      Step kills w (w.acquire p (.read n))
  | copy {w : Piped P} (p : P) {n : Nat} : w.proc p = .read n → ¬(w.pipe.Empty ∧ w.pipe.writeopen = true) →
      Step kills w (w.goto p (.copy n []))
  | get {w : Piped P} (p : P) {n : Nat} {addr : List UInt8} : w.proc p = .copy n addr → addr.length < n →
      ¬w.pipe.Empty → Step kills w { w.goto p (.copy n (addr ++ [w.pipe.get.1])) with
        pipe := w.pipe.get.2, taken := w.taken ++ [(p, w.pipe.get.1)] }
  | done {w : Piped P} (p : P) {n : Nat} {addr : List UInt8} : w.proc p = .copy n addr →
      (addr.length = n ∨ w.pipe.Empty) → Step kills w (w.wakeW.release p (.got n (some addr)))
  | wrote {w : Piped P} (p : P) {addr : List UInt8} {ok : Bool} : w.proc p = .wrote addr ok →
      Step kills w (w.goto p .out)
  | got {w : Piped P} (p : P) {n : Nat} {r : Option (List UInt8)} : w.proc p = .got n r →
      Step kills w (w.goto p .out)
  | closeW {w : Piped P} : w.pipe.writeopen = true → w.lock = none → (∀ p, (w.proc p).writes = false) →
      Step kills w { w.wakeR with pipe := { w.pipe with writeopen := false } }
  | closeR {w : Piped P} : w.pipe.readopen = true → w.lock = none → (∀ p, (w.proc p).reads = false) →
      Step kills w { w.wakeW with pipe := { w.pipe with readopen := false } }
  | kill {w : Piped P} (p : P) : kills = true → Step kills w { w.goto p (w.proc p).wakeR.wakeW with
      killed := Function.update w.killed p true }

def Piped.start (data : Vector UInt8 pipesize) : Piped P :=
  ⟨pipealloc data, none, fun _ => false, fun _ => .out, [], [], fun _ => 0⟩

/-- What any schedule can reach. -/
inductive Piped.Reachable (kills : Bool) : Piped P → Prop where
  | init (data : Vector UInt8 pipesize) : Reachable kills (Piped.start data)
  | tail {w w' : Piped P} : Reachable kills w → w.Step kills w' → Reachable kills w'

end Cs537.Xv6
