import Mathlib.Data.List.FinRange
import Mathlib.Logic.Function.Basic
import Mathlib.Tactic.Ring

/-!
# `proc.c`: the process table on any number of CPUs

A critical section under `ptable.lock`, up to the `release` or up to the `sched` in which
another CPU can take it, is one step. `fork` is several: the slot that `allocproc` has found
is filled in without the lock. Between two steps the other CPUs do theirs, and the timer may
have come: then the process waits as RUNNABLE wherever it is.

A process sleeps in `wait` on its own slot; every other channel is some address that nobody
in this file knows. The pages of the kernel stacks and of the page directories are named,
since `fork` and `wait` have to give them back.
-/

namespace Cs537.Xv6

/-- `NPROC`. -/
abbrev nproc : Nat := 64

abbrev Slot := Fin nproc

/-- `enum procstate`. -/
inductive ProcState where
  | unused
  | embryo
  | sleeping
  | runnable
  | running
  | zombie
deriving DecidableEq

/-- What `sleep` is called with. -/
inductive Chan where
  | proc (p : Slot)
  | other (n : Nat)
deriving DecidableEq

/-- `ptable`, field by field, and `nextpid`. -/
structure Ptable (Page : Type) where
  state : Slot → ProcState
  pid : Slot → Nat
  parent : Slot → Option Slot
  chan : Slot → Option Chan
  killed : Slot → Bool
  kstack : Slot → Option Page
  pgdir : Slot → Option Page
  nextpid : Nat

theorem nproc_pos : 0 < nproc := Nat.succ_pos 63

/-- `initproc`, the first that `allocproc` finds. -/
def initproc : Slot := ⟨0, nproc_pos⟩

variable {Page : Type}

/-- `wakeup1`. -/
def wakeup1 (t : Ptable Page) (chan : Chan) : Ptable Page :=
  { t with state := fun p => if t.state p = .sleeping ∧ t.chan p = some chan then .runnable else t.state p }

/-- `allocproc` under the lock. -/
def allocproc (t : Ptable Page) : Option (Slot × Ptable Page) :=
  match (List.finRange nproc).find? (fun p => t.state p = .unused) with
  | some p =>
      some (p, { t with
        state := Function.update t.state p .embryo
        pid := Function.update t.pid p t.nextpid
        nextpid := t.nextpid + 1 })
  | none => none

/-- One turn of the loop of `exit` that passes abandoned children to init. -/
def abandon (p : Slot) (t : Ptable Page) (q : Slot) : Ptable Page :=
  if t.parent q = some p then
    let t := { t with parent := Function.update t.parent q (some initproc) }
    if t.state q = .zombie then wakeup1 t (.proc initproc) else t
  else t

/-- `wakeup1(proc->parent)`. -/
def wakeParent (t : Ptable Page) (p : Slot) : Ptable Page :=
  match t.parent p with
  | some q => wakeup1 t (.proc q)
  | none => t

/-- `exit` under the lock. -/
def exit (t : Ptable Page) (p : Slot) : Ptable Page :=
  let t := wakeParent t p
  let t := (List.finRange nproc).foldl (abandon p) t
  { t with state := Function.update t.state p .zombie }

/-- What a round of `wait` comes to. -/
inductive Waited where
  | reaps (z : Slot)
  | returns
  | sleeps

/-- One round of `wait`. -/
def wait (t : Ptable Page) (p : Slot) : Waited × Ptable Page :=
  match (List.finRange nproc).find? (fun q => decide (t.parent q = some p) && decide (t.state q = .zombie)) with
  | some z =>
      (.reaps z, { t with
        kstack := Function.update t.kstack z none
        state := Function.update t.state z .unused
        pid := Function.update t.pid z 0
        parent := Function.update t.parent z none
        killed := Function.update t.killed z false })
  | none =>
      if (List.finRange nproc).all (fun q => t.parent q ≠ some p) ∨ t.killed p = true then (.returns, t)
      else (.sleeps, { t with
        chan := Function.update t.chan p (some (.proc p))
        state := Function.update t.state p .sleeping })

/-- `kill`; false for -1. -/
def kill (t : Ptable Page) (pid : Nat) : Bool × Ptable Page :=
  match (List.finRange nproc).find? (fun p => t.pid p = pid) with
  | some p =>
      (true, { t with
        killed := Function.update t.killed p true
        state := if t.state p = .sleeping then Function.update t.state p .runnable else t.state })
  | none => (false, t)

/-! ## The machine -/

/-- Where in this file a process is. -/
inductive ProcAt where
  | out
  /-- In `fork`: `allocproc` has found `np`. -/
  | alloced (np : Slot)
  /-- `np` has a kernel stack. -/
  | stacked (np : Slot)
  /-- `np` has its memory, and its parent. -/
  | copied (np : Slot)
  /-- At the `for` of `wait`. -/
  | wait
  /-- In `exit`, closing its files. -/
  | exits
deriving DecidableEq

structure Machine (C Page : Type) where
  ptable : Ptable Page
  /-- `cpu->proc`. -/
  cpu : C → Option Slot
  /-- The pages that `kalloc` has. -/
  free : Page → Bool
  proc : Slot → ProcAt

variable {C : Type} [DecidableEq C] [DecidableEq Page]

/-- A process gets to `a`. -/
def Machine.goto (m : Machine C Page) (p : Slot) (a : ProcAt) : Machine C Page :=
  { m with proc := Function.update m.proc p a }

/-- `sched`: back to the scheduler of the CPU. -/
def Machine.sched (m : Machine C Page) (c : C) : Machine C Page := { m with cpu := Function.update m.cpu c none }

/-- One step of one CPU. Beyond the last `int` there is no `nextpid++`. -/
inductive Machine.Step : Machine C Page → Machine C Page → Prop where
  | scheduler {m : Machine C Page} (c : C) (p : Slot) : m.cpu c = none → m.ptable.state p = .runnable →
      Step m { m with
        cpu := Function.update m.cpu c (some p)
        ptable := { m.ptable with
          state := Function.update m.ptable.state p .running
          chan := Function.update m.ptable.chan p none } }
  | yield {m : Machine C Page} (c : C) (p : Slot) : m.cpu c = some p →
      Step m { m.sched c with
        ptable := { m.ptable with state := Function.update m.ptable.state p .runnable } }
  | sleep {m : Machine C Page} (c : C) (p : Slot) (n : Nat) : m.cpu c = some p →
      (m.proc p = .out ∨ m.proc p = .exits) →
      Step m { m.sched c with
        ptable := { m.ptable with
          state := Function.update m.ptable.state p .sleeping
          chan := Function.update m.ptable.chan p (some (.other n)) } }
  | wakeup {m : Machine C Page} (n : Nat) : Step m { m with ptable := wakeup1 m.ptable (.other n) }
  | kill {m : Machine C Page} (pid : Nat) : Step m { m with ptable := (kill m.ptable pid).2 }
  | allocproc {m : Machine C Page} (c : C) (p : Slot) {np : Slot} {t : Ptable Page} : m.cpu c = some p →
      m.proc p = .out → m.ptable.nextpid < 2 ^ 31 - 1 → allocproc m.ptable = some (np, t) →
      Step m { m.goto p (.alloced np) with ptable := t }
  | nostack {m : Machine C Page} (c : C) (p : Slot) {np : Slot} : m.cpu c = some p → m.proc p = .alloced np →
      Step m { m.goto p .out with
        ptable := { m.ptable with
          kstack := Function.update m.ptable.kstack np none
          state := Function.update m.ptable.state np .unused } }
  | kstack {m : Machine C Page} (c : C) (p : Slot) {np : Slot} (g : Page) : m.cpu c = some p →
      m.proc p = .alloced np → m.free g = true →
      Step m { m.goto p (.stacked np) with
        ptable := { m.ptable with kstack := Function.update m.ptable.kstack np (some g) }
        free := Function.update m.free g false }
  | nomem {m : Machine C Page} (c : C) (p : Slot) {np : Slot} {g : Page} : m.cpu c = some p →
      m.proc p = .stacked np → m.ptable.kstack np = some g →
      Step m { m.goto p .out with
        ptable := { m.ptable with
          pgdir := Function.update m.ptable.pgdir np none
          kstack := Function.update m.ptable.kstack np none
          state := Function.update m.ptable.state np .unused }
        free := Function.update m.free g true }
  | copyuvm {m : Machine C Page} (c : C) (p : Slot) {np : Slot} (g : Page) : m.cpu c = some p →
      m.proc p = .stacked np → m.free g = true →
      Step m { m.goto p (.copied np) with
        ptable := { m.ptable with
          pgdir := Function.update m.ptable.pgdir np (some g)
          parent := Function.update m.ptable.parent np (some p) }
        free := Function.update m.free g false }
  | fork {m : Machine C Page} (c : C) (p : Slot) {np : Slot} : m.cpu c = some p → m.proc p = .copied np →
      Step m { m.goto p .out with
        ptable := { m.ptable with state := Function.update m.ptable.state np .runnable } }
  | exits {m : Machine C Page} (c : C) (p : Slot) : m.cpu c = some p → m.proc p = .out → p ≠ initproc →
      Step m (m.goto p .exits)
  | exit {m : Machine C Page} (c : C) (p : Slot) : m.cpu c = some p → m.proc p = .exits →
      Step m { (m.goto p .out).sched c with ptable := exit m.ptable p }
  | wait {m : Machine C Page} (c : C) (p : Slot) : m.cpu c = some p → m.proc p = .out → Step m (m.goto p .wait)
  | reaps {m : Machine C Page} (c : C) (p : Slot) {z : Slot} {t : Ptable Page} {g d : Page} : m.cpu c = some p →
      m.proc p = .wait → wait m.ptable p = (.reaps z, t) → m.ptable.kstack z = some g →
      m.ptable.pgdir z = some d →
      Step m { m.goto p .out with
        ptable := t, free := Function.update (Function.update m.free g true) d true }
  | returns {m : Machine C Page} (c : C) (p : Slot) {t : Ptable Page} : m.cpu c = some p → m.proc p = .wait →
      wait m.ptable p = (.returns, t) → Step m { m.goto p .out with ptable := t }
  | sleeps {m : Machine C Page} (c : C) (p : Slot) {t : Ptable Page} : m.cpu c = some p → m.proc p = .wait →
      wait m.ptable p = (.sleeps, t) → Step m { m.sched c with ptable := t }

/-- After `userinit`: the first process, with a stack and a directory. -/
def Machine.start (g d : Page) : Machine C Page where
  ptable := {
    state := Function.update (fun _ => .unused) initproc .runnable
    pid := Function.update (fun _ => 0) initproc 1
    parent := fun _ => none
    chan := fun _ => none
    killed := fun _ => false
    kstack := Function.update (fun _ => none) initproc (some g)
    pgdir := Function.update (fun _ => none) initproc (some d)
    nextpid := 2 }
  cpu := fun _ => none
  free := Function.update (Function.update (fun _ => true) g false) d false
  proc := fun _ => .out

/-- What any schedule of the CPUs can reach. -/
inductive Machine.Reachable : Machine C Page → Prop where
  | init {g d : Page} : g ≠ d → Reachable (Machine.start g d)
  | tail {m m' : Machine C Page} : Reachable m → m.Step m' → Reachable m'

end Cs537.Xv6
