import Cs537.Lib.Pool
import Cs537.Xv6.ProcKin
import Mathlib.Logic.Relation

/-!
# What the process table owns

Every page is free or belongs to one slot, as its kernel stack or as the root of its memory,
also after a `fork` that failed half-way and after `wait`; and a pid names at most one slot.
Then the invariants together, and what they mean.
-/

namespace Cs537.Xv6

open Lib

variable {C Page : Type} {p q r np z : Slot} {m m' : Machine C Page}

/-! ## Pages -/

/-- What a page can be for. -/
inductive Part where
  | kstack (q : Slot)
  | pgdir (q : Slot)

/-- `p->pgdir` means something; `wait` leaves it as it is. -/
def HasDir (m : Machine C Page) (q : Slot) : Prop := (m.ptable.state q).live = true ∨ ∃ p, m.proc p = .copied q

def Owns (m : Machine C Page) : Part → Page → Prop
  | .kstack q, g => m.ptable.kstack q = some g
  | .pgdir q, g => HasDir m q ∧ m.ptable.pgdir q = some g

structure Pages (m : Machine C Page) : Prop where
  pool : Pool m.free (Owns m)
  has : ∀ q, HasDir m q → (∃ g, m.ptable.kstack q = some g) ∧ ∃ g, m.ptable.pgdir q = some g
  stacked : ∀ p np, m.proc p = .stacked np → ∃ g, m.ptable.kstack np = some g
  alloced : ∀ p np, m.proc p = .alloced np → m.ptable.kstack np = none
  unused : ∀ q, m.ptable.state q = .unused → m.ptable.kstack q = none

theorem SameKind.live {s s' : ProcState} (h : SameKind s s') : s'.live = true ↔ s.live = true := by
  rw [live_iff, live_iff, h.1, h.2.1]

/-- No page changes hands. -/
theorem Pages.quiet (h : Pages m) (hkstack : m'.ptable.kstack = m.ptable.kstack) (hpgdir : m'.ptable.pgdir = m.ptable.pgdir)
    (hfree : m'.free = m.free) (hdir : ∀ q, HasDir m' q ↔ HasDir m q)
    (hstacked : ∀ p np, m'.proc p = .stacked np → m.proc p = .stacked np)
    (halloced : ∀ p np, m'.proc p = .alloced np → m.proc p = .alloced np ∨ m.ptable.state np = .unused)
    (hunused : ∀ q, m'.ptable.state q = .unused → m.ptable.state q = .unused) : Pages m' where
  pool := by
    rw [hfree]
    refine h.pool.congr fun i g => ?_
    cases i with
    | kstack q => rw [Owns, Owns, hkstack]
    | pgdir q => rw [Owns, Owns, hpgdir, hdir]
  has q hq := by
    rw [hkstack, hpgdir]
    exact h.has q ((hdir q).mp hq)
  stacked p np hp := by
    rw [hkstack]
    exact h.stacked p np (hstacked p np hp)
  alloced p np hp := by
    rw [hkstack]
    rcases halloced p np hp with hp | hnp
    · exact h.alloced p np hp
    · exact h.unused np hnp
  unused q hq := by
    rw [hkstack]
    exact h.unused q (hunused q hq)

theorem Pages.sameKind (h : Pages m) (hkstack : m'.ptable.kstack = m.ptable.kstack)
    (hpgdir : m'.ptable.pgdir = m.ptable.pgdir) (hfree : m'.free = m.free) (hproc : m'.proc = m.proc)
    (hstate : ∀ q, SameKind (m.ptable.state q) (m'.ptable.state q)) : Pages m' := by
  refine h.quiet hkstack hpgdir hfree (fun q => ?_) (fun p np hp => by rwa [hproc] at hp)
    (fun p np hp => by rw [hproc] at hp; exact Or.inl hp) fun q => (hstate q).2.2.mp
  rw [HasDir, HasDir, (hstate q).live, hproc]

/-- A process outside `fork` goes elsewhere outside it. -/
theorem Pages.goto {a : ProcAt} (h : Pages m) (hkstack : m'.ptable.kstack = m.ptable.kstack)
    (hpgdir : m'.ptable.pgdir = m.ptable.pgdir) (hfree : m'.free = m.free)
    (hproc : m'.proc = Function.update m.proc p a) (hp : (m.proc p).child = none) (ha : a.child = none)
    (hlive : ∀ q, (m'.ptable.state q).live = true ↔ (m.ptable.state q).live = true)
    (hunused : ∀ q, m'.ptable.state q = .unused → m.ptable.state q = .unused) : Pages m' := by
  have hsame : ∀ q b, b.child ≠ none → (m'.proc q = b ↔ m.proc q = b) := by
    intro q b hb
    rw [hproc]
    by_cases hqp : q = p
    · rw [hqp, Function.update_self]
      refine iff_of_false ?_ ?_
      · rintro rfl
        exact hb ha
      · rintro rfl
        exact hb hp
    · rw [Function.update_of_ne hqp]
  refine h.quiet hkstack hpgdir hfree (fun q => ?_) (fun q np => (hsame q (.stacked np) nofun).mp)
    (fun q np hq => Or.inl ((hsame q (.alloced np) nofun).mp hq)) hunused
  rw [HasDir, HasDir, hlive]
  exact or_congr Iff.rfl (exists_congr fun r => hsame r (.copied q) nofun)

/-- A slot that is being filled in has no memory before `copyuvm`. -/
theorem not_hasDir (hf : Forks m) (hp : (m.proc p).child = some np) (hnot : m.proc p ≠ .copied np) : ¬HasDir m np := by
  rintro (hlive | ⟨q, hq⟩)
  · rw [(hf.child p np hp).1] at hlive
    cases hlive
  · rw [hf.single q p np (congrArg ProcAt.child hq) hp] at hq
    exact hnot hq

/-- The other slots keep what they have. -/
theorem hasDir_ne {a : ProcAt} (hp : (m.proc p).child = some np) (hq : q ≠ np)
    (hstate : m'.ptable.state q = m.ptable.state q) (hproc : m'.proc = Function.update m.proc p a)
    (ha : ∀ r, a = .copied r → r = np) : HasDir m' q ↔ HasDir m q := by
  rw [HasDir, HasDir, hstate]
  refine or_congr Iff.rfl (exists_congr fun r => ?_)
  rw [hproc]
  by_cases hrp : r = p
  · rw [hrp, Function.update_self]
    refine iff_of_false (fun heq => hq (ha q heq)) fun heq => ?_
    rw [heq] at hp
    exact hq (Option.some.inj hp)
  · rw [Function.update_of_ne hrp]

/-- `kalloc` for the stack. -/
theorem pages_kstack [DecidableEq Page] {g : Page} (hf : Forks m) (h : Pages m) (hp : m.proc p = .alloced np)
    (hg : m.free g = true) (hstate : m'.ptable.state = m.ptable.state)
    (hkstack : m'.ptable.kstack = Function.update m.ptable.kstack np (some g))
    (hpgdir : m'.ptable.pgdir = m.ptable.pgdir) (hfree : m'.free = Function.update m.free g false)
    (hproc : m'.proc = Function.update m.proc p (.stacked np)) : Pages m' := by
  have hchild : (m.proc p).child = some np := congrArg ProcAt.child hp
  have hembryo := (hf.child p np hchild).1
  have hnone := h.alloced p np hp
  have hnodir : ¬HasDir m np := not_hasDir hf hchild (by rw [hp]; exact nofun)
  have hdir : ∀ q, HasDir m' q ↔ HasDir m q := by
    intro q
    rw [HasDir, HasDir, hstate, hproc]
    refine or_congr Iff.rfl (exists_congr fun r => ?_)
    by_cases hrp : r = p
    · rw [hrp, Function.update_self, hp]
      exact iff_of_false nofun nofun
    · rw [Function.update_of_ne hrp]
  have hkept : ∀ q, q ≠ np → m'.ptable.kstack q = m.ptable.kstack q := by
    intro q hq
    rw [hkstack, Function.update_of_ne hq]
  refine ⟨?_, fun q hq => ?_, fun q r hq => ?_, fun q r hq => ?_, fun q hq => ?_⟩
  · rw [hfree]
    refine h.pool.take (i := .kstack np) hg fun i x => ?_
    cases i with
    | kstack q =>
        rw [Owns, Owns, Part.kstack.injEq]
        by_cases hq : q = np
        · rw [hq, hkstack, Function.update_self, hnone]
          exact ⟨fun heq => Or.inr ⟨rfl, (Option.some.inj heq).symm⟩, fun heq => by
            rcases heq with heq | ⟨-, rfl⟩
            · cases heq
            · rfl⟩
        · rw [hkept q hq]
          exact ⟨Or.inl, fun heq => heq.resolve_right fun heq => hq heq.1⟩
    | pgdir q =>
        rw [Owns, Owns, hdir, hpgdir]
        exact ⟨Or.inl, fun heq => heq.resolve_right nofun⟩
  · have hq := (hdir q).mp hq
    rw [hkept q (by rintro rfl; exact hnodir hq), hpgdir]
    exact h.has q hq
  · rw [hproc] at hq
    rcases update_cases hq with ⟨-, hqs⟩ | ⟨hqp, hqs⟩
    · cases hqs
      exact ⟨g, by rw [hkstack, Function.update_self]⟩
    · obtain ⟨x, hx⟩ := h.stacked q r hqs
      refine ⟨x, ?_⟩
      rw [hkept]
      · exact hx
      · rintro rfl
        exact hqp (hf.single q p r (congrArg ProcAt.child hqs) hchild)
  · rw [hproc] at hq
    rcases update_cases hq with ⟨-, hqs⟩ | ⟨hqp, hqs⟩
    · cases hqs
    · rw [hkept]
      · exact h.alloced q r hqs
      · rintro rfl
        exact hqp (hf.single q p r (congrArg ProcAt.child hqs) hchild)
  · rw [hstate] at hq
    rw [hkept]
    · exact h.unused q hq
    · rintro rfl
      rw [hembryo] at hq
      cases hq

/-- `copyuvm`. -/
theorem pages_copyuvm [DecidableEq Page] {g : Page} (hf : Forks m) (h : Pages m) (hp : m.proc p = .stacked np)
    (hg : m.free g = true) (hstate : m'.ptable.state = m.ptable.state) (hkstack : m'.ptable.kstack = m.ptable.kstack)
    (hpgdir : m'.ptable.pgdir = Function.update m.ptable.pgdir np (some g))
    (hfree : m'.free = Function.update m.free g false)
    (hproc : m'.proc = Function.update m.proc p (.copied np)) : Pages m' := by
  have hchild : (m.proc p).child = some np := congrArg ProcAt.child hp
  have hnodir : ¬HasDir m np := not_hasDir hf hchild (by rw [hp]; exact nofun)
  have hdir : ∀ q, q ≠ np → (HasDir m' q ↔ HasDir m q) := by
    intro q hq
    exact hasDir_ne hchild hq (by rw [hstate]) hproc fun r hr => (ProcAt.copied.inj hr).symm
  have hdirnp : HasDir m' np := Or.inr ⟨p, by rw [hproc, Function.update_self]⟩
  refine ⟨?_, fun q hq => ?_, fun q r hq => ?_, fun q r hq => ?_, fun q hq => ?_⟩
  · rw [hfree]
    refine h.pool.take (i := .pgdir np) hg fun i x => ?_
    cases i with
    | kstack q =>
        rw [Owns, Owns, hkstack]
        exact ⟨Or.inl, fun heq => heq.resolve_right nofun⟩
    | pgdir q =>
        rw [Owns, Owns, Part.pgdir.injEq, hpgdir]
        by_cases hq : q = np
        · rw [hq, Function.update_self]
          refine ⟨fun heq => Or.inr ⟨rfl, (Option.some.inj heq.2).symm⟩, fun heq => ?_⟩
          rcases heq with ⟨heq, -⟩ | ⟨-, rfl⟩
          · exact absurd heq hnodir
          · exact ⟨hdirnp, rfl⟩
        · rw [Function.update_of_ne hq, hdir q hq]
          exact ⟨Or.inl, fun heq => heq.resolve_right fun heq => hq heq.1⟩
  · rw [hkstack, hpgdir]
    by_cases hqnp : q = np
    · rw [hqnp, Function.update_self]
      exact ⟨h.stacked p np hp, g, rfl⟩
    · rw [Function.update_of_ne hqnp]
      exact h.has q ((hdir q hqnp).mp hq)
  · rw [hproc] at hq
    rw [hkstack]
    rcases update_cases hq with ⟨-, hqs⟩ | ⟨-, hqs⟩
    · cases hqs
    · exact h.stacked q r hqs
  · rw [hproc] at hq
    rw [hkstack]
    rcases update_cases hq with ⟨-, hqs⟩ | ⟨-, hqs⟩
    · cases hqs
    · exact h.alloced q r hqs
  · rw [hstate] at hq
    rw [hkstack]
    exact h.unused q hq

/-- `fork` fails, before or after the stack was there. -/
theorem pages_fail [DecidableEq Page] (hf : Forks m) (h : Pages m) (hp : (m.proc p).child = some np)
    (hnot : m.proc p ≠ .copied np) (hstate : m'.ptable.state = Function.update m.ptable.state np .unused)
    (hkstack : m'.ptable.kstack = Function.update m.ptable.kstack np none)
    (hpgdir : ∀ q, q ≠ np → m'.ptable.pgdir q = m.ptable.pgdir q)
    (hfree : m.ptable.kstack np = none ∧ m'.free = m.free
      ∨ ∃ g, m.ptable.kstack np = some g ∧ m'.free = Function.update m.free g true)
    (hproc : m'.proc = Function.update m.proc p .out) : Pages m' := by
  have hnodir : ¬HasDir m np := not_hasDir hf hp hnot
  have hdir : ∀ q, q ≠ np → (HasDir m' q ↔ HasDir m q) := by
    intro q hq
    exact hasDir_ne hp hq (by rw [hstate, Function.update_of_ne hq]) hproc nofun
  have hgone : ¬HasDir m' np := by
    rintro (hlive | ⟨q, hq⟩)
    · rw [hstate, Function.update_self] at hlive
      cases hlive
    · rw [hproc] at hq
      rcases update_cases hq with ⟨-, hqs⟩ | ⟨hqp, hqs⟩
      · cases hqs
      · exact hqp (hf.single q p np (congrArg ProcAt.child hqs) hp)
  have hkept : ∀ q, q ≠ np → m'.ptable.kstack q = m.ptable.kstack q := by
    intro q hq
    rw [hkstack, Function.update_of_ne hq]
  have hnone : m'.ptable.kstack np = none := by
    rw [hkstack, Function.update_self]
  have howns : ∀ i x, Owns m' i x ↔ Owns m i x ∧ ¬(i = .kstack np ∧ m.ptable.kstack np = some x) := by
    intro i x
    cases i with
    | kstack q =>
        rw [Owns, Owns, Part.kstack.injEq]
        by_cases hq : q = np
        · rw [hq, hnone]
          exact iff_of_false nofun fun heq => heq.2 ⟨rfl, heq.1⟩
        · rw [hkept q hq]
          exact ⟨fun heq => ⟨heq, fun hno => hq hno.1⟩, fun heq => heq.1⟩
    | pgdir q =>
        rw [Owns, Owns]
        by_cases hq : q = np
        · rw [hq]
          exact iff_of_false (fun heq => hgone heq.1) fun heq => hnodir heq.1.1
        · rw [hdir q hq, hpgdir q hq]
          exact ⟨fun heq => ⟨heq, fun hno => nomatch hno.1⟩, fun heq => heq.1⟩
  have hothers : ∀ q r, q ≠ p → (m.proc q).child = some r → r ≠ np := by
    rintro q r hqp hq rfl
    exact hqp (hf.single q p r hq hp)
  refine ⟨?_, fun q hq => ?_, fun q r hq => ?_, fun q r hq => ?_, fun q hq => ?_⟩
  · rcases hfree with ⟨hno, hfree⟩ | ⟨g, hg, hfree⟩
    · rw [hfree]
      refine h.pool.congr fun i x => ?_
      rw [howns, hno]
      exact and_iff_left fun heq => nomatch heq.2
    · rw [hfree]
      refine h.pool.drop (show Owns m (.kstack np) g from hg) fun i x => ?_
      rw [howns, hg, Option.some.injEq, eq_comm (a := g)]
  · have hqnp : q ≠ np := by
      rintro rfl
      exact hgone hq
    rw [hkept q hqnp, hpgdir q hqnp]
    exact h.has q ((hdir q hqnp).mp hq)
  · rw [hproc] at hq
    rcases update_cases hq with ⟨-, hqs⟩ | ⟨hqp, hqs⟩
    · cases hqs
    · rw [hkept r (hothers q r hqp (congrArg ProcAt.child hqs))]
      exact h.stacked q r hqs
  · rw [hproc] at hq
    rcases update_cases hq with ⟨-, hqs⟩ | ⟨hqp, hqs⟩
    · cases hqs
    · rw [hkept r (hothers q r hqp (congrArg ProcAt.child hqs))]
      exact h.alloced q r hqs
  · by_cases hqnp : q = np
    · rw [hqnp]
      exact hnone
    · rw [hstate, Function.update_of_ne hqnp] at hq
      rw [hkept q hqnp]
      exact h.unused q hq

/-- The child is a process, and has what it had. -/
theorem pages_fork (h : Pages m) (hp : m.proc p = .copied np)
    (hstate : m'.ptable.state = Function.update m.ptable.state np .runnable)
    (hkstack : m'.ptable.kstack = m.ptable.kstack) (hpgdir : m'.ptable.pgdir = m.ptable.pgdir)
    (hfree : m'.free = m.free) (hproc : m'.proc = Function.update m.proc p .out) : Pages m' := by
  have hchild : (m.proc p).child = some np := congrArg ProcAt.child hp
  have hother : ∀ q b, m'.proc q = b → b ≠ .out → m.proc q = b := by
    intro q b hq hb
    rw [hproc] at hq
    rcases update_cases hq with ⟨-, hqs⟩ | ⟨-, hqs⟩
    · exact absurd hqs.symm hb
    · exact hqs
  refine h.quiet hkstack hpgdir hfree (fun q => ?_) (fun q r hq => hother q _ hq nofun)
    (fun q r hq => Or.inl (hother q _ hq nofun)) fun q hq => ?_
  · by_cases hq : q = np
    · subst hq
      refine iff_of_true (Or.inl ?_) (Or.inr ⟨p, hp⟩)
      rw [hstate, Function.update_self]
      rfl
    · exact hasDir_ne hchild hq (by rw [hstate, Function.update_of_ne hq]) hproc nofun
  · rw [hstate] at hq
    rcases update_cases hq with ⟨-, hqs⟩ | ⟨-, hqs⟩
    · cases hqs
    · exact hqs

/-- `wait` gives both pages of the zombie back. -/
theorem pages_reaps [DecidableEq Page] {g d : Page} (hf : Forks m) (h : Pages m) (hp : (m.proc p).child = none)
    (hz : m.ptable.state z = .zombie) (hg : m.ptable.kstack z = some g) (hd : m.ptable.pgdir z = some d)
    (hstate : m'.ptable.state = Function.update m.ptable.state z .unused)
    (hkstack : m'.ptable.kstack = Function.update m.ptable.kstack z none) (hpgdir : m'.ptable.pgdir = m.ptable.pgdir)
    (hfree : m'.free = Function.update (Function.update m.free g true) d true)
    (hproc : m'.proc = Function.update m.proc p .out) : Pages m' := by
  have hother : ∀ q b, m'.proc q = b → b ≠ .out → q ≠ p ∧ m.proc q = b := by
    intro q b hq hb
    rw [hproc] at hq
    rcases update_cases hq with ⟨-, hqs⟩ | ⟨hqp, hqs⟩
    · exact absurd hqs.symm hb
    · exact ⟨hqp, hqs⟩
  have hchild : ∀ q r, (m.proc q).child = some r → r ≠ z := by
    rintro q r hq rfl
    rw [(hf.child q r hq).1] at hz
    cases hz
  have hdir : ∀ q, q ≠ z → (HasDir m' q ↔ HasDir m q) := by
    intro q hq
    rw [HasDir, HasDir, hstate, Function.update_of_ne hq, hproc]
    refine or_congr Iff.rfl (exists_congr fun r => ?_)
    by_cases hrp : r = p
    · rw [hrp, Function.update_self]
      refine iff_of_false nofun fun heq => ?_
      rw [heq] at hp
      cases hp
    · rw [Function.update_of_ne hrp]
  have hdirz : HasDir m z := Or.inl (by rw [hz]; rfl)
  have hgone : ¬HasDir m' z := by
    rintro (hlive | ⟨q, hq⟩)
    · rw [hstate, Function.update_self] at hlive
      cases hlive
    · exact hchild q z (congrArg ProcAt.child (hother q _ hq nofun).2) rfl
  have hkept : ∀ q, q ≠ z → m'.ptable.kstack q = m.ptable.kstack q := by
    intro q hq
    rw [hkstack, Function.update_of_ne hq]
  have hnone : m'.ptable.kstack z = none := by
    rw [hkstack, Function.update_self]
  refine ⟨?_, fun q hq => ?_, fun q r hq => ?_, fun q r hq => ?_, fun q hq => ?_⟩
  · rw [hfree]
    have hone := h.pool.drop (show Owns m (.kstack z) g from hg) fun i x => Iff.rfl
    refine hone.drop (i := Part.pgdir z) ⟨⟨hdirz, hd⟩, fun heq => nomatch heq.1⟩ fun i x => ?_
    cases i with
    | kstack q =>
        rw [Owns, Owns, Part.kstack.injEq]
        by_cases hq : q = z
        · rw [hq, hnone, hg, Option.some.injEq]
          exact iff_of_false nofun fun heq => heq.1.2 ⟨rfl, heq.1.1.symm⟩
        · rw [hkept q hq]
          exact ⟨fun heq => ⟨⟨heq, fun hno => hq hno.1⟩, fun hno => nomatch hno.1⟩, fun heq => heq.1.1⟩
    | pgdir q =>
        rw [Owns, Owns, Part.pgdir.injEq]
        by_cases hq : q = z
        · rw [hq, hd, Option.some.injEq]
          exact iff_of_false (fun heq => hgone heq.1) fun heq => heq.2 ⟨rfl, heq.1.1.2.symm⟩
        · rw [hdir q hq, hpgdir]
          exact ⟨fun heq => ⟨⟨heq, fun hno => nomatch hno.1⟩, fun hno => hq hno.1⟩, fun heq => heq.1.1⟩
  · have hqz : q ≠ z := by
      rintro rfl
      exact hgone hq
    rw [hkept q hqz, hpgdir]
    exact h.has q ((hdir q hqz).mp hq)
  · obtain ⟨-, hq⟩ := hother q _ hq nofun
    rw [hkept r (hchild q r (congrArg ProcAt.child hq))]
    exact h.stacked q r hq
  · obtain ⟨-, hq⟩ := hother q _ hq nofun
    rw [hkept r (hchild q r (congrArg ProcAt.child hq))]
    exact h.alloced q r hq
  · by_cases hqz : q = z
    · rw [hqz]
      exact hnone
    · rw [hstate, Function.update_of_ne hqz] at hq
      rw [hkept q hqz]
      exact h.unused q hq

/-! ## Pids -/

structure Pids (m : Machine C Page) : Prop where
  lt : ∀ p, m.ptable.pid p < m.ptable.nextpid
  pos : ∀ p, m.ptable.state p ≠ .unused → m.ptable.pid p ≠ 0
  /-- A pid that is left in a slot by a failed `fork` is not given out again. -/
  single : ∀ p q, m.ptable.pid p = m.ptable.pid q → m.ptable.pid p ≠ 0 → p = q
  int : m.ptable.nextpid < 2 ^ 31

theorem Pids.quiet (h : Pids m) (hpid : m'.ptable.pid = m.ptable.pid) (hnext : m'.ptable.nextpid = m.ptable.nextpid)
    (hunused : ∀ q, m.ptable.state q = .unused → m'.ptable.state q = .unused) : Pids m' where
  lt p := by
    rw [hpid, hnext]
    exact h.lt p
  pos p hp := by
    rw [hpid]
    exact h.pos p fun hu => hp (hunused p hu)
  single p q heq hne := by
    rw [hpid] at heq hne
    exact h.single p q heq hne
  int := by
    rw [hnext]
    exact h.int

theorem update_unused {f : Slot → ProcState} {x : ProcState} (hp : f p ≠ .unused) (q : Slot) (hq : f q = .unused) :
    Function.update f p x q = .unused := by
  rw [Function.update_of_ne]
  · exact hq
  · rintro rfl
    exact hp hq

/-! ## The invariant, at the start -/

/-- What every schedule of the CPUs keeps. -/
structure ProcInv (m : Machine C Page) : Prop where
  cpus : Cpus m
  forks : Forks m
  kin : Kin m
  waits : Waits m
  pages : Pages m
  pids : Pids m

theorem start_state [DecidableEq Page] (g d : Page) : (Machine.start g d : Machine C Page).ptable.state
    = Function.update (fun _ => .unused) initproc .runnable := rfl

theorem start_kstack [DecidableEq Page] (g d : Page) : (Machine.start g d : Machine C Page).ptable.kstack
    = Function.update (fun _ => none) initproc (some g) := rfl

theorem start_pgdir [DecidableEq Page] (g d : Page) : (Machine.start g d : Machine C Page).ptable.pgdir
    = Function.update (fun _ => none) initproc (some d) := rfl

theorem start_pid [DecidableEq Page] (g d : Page) : (Machine.start g d : Machine C Page).ptable.pid
    = Function.update (fun _ => 0) initproc 1 := rfl

theorem procInv_start [DecidableEq Page] {g d : Page} (hgd : g ≠ d) : ProcInv (Machine.start g d : Machine C Page) := by
  have hstate : ∀ q x, (Machine.start g d : Machine C Page).ptable.state q = x → x ≠ .unused → q = initproc ∧ x = .runnable := by
    intro q x hq hx
    rw [start_state] at hq
    rcases update_cases hq with ⟨hq, hx'⟩ | ⟨-, hq⟩
    · exact ⟨hq, hx'.symm⟩
    · exact absurd hq.symm hx
  have hlive : ∀ q, HasDir (Machine.start g d : Machine C Page) q → q = initproc := by
    rintro q (hq | ⟨r, hr⟩)
    · by_contra hne
      rw [start_state, Function.update_of_ne hne] at hq
      cases hq
    · cases hr
  refine ⟨⟨nofun, fun q hq => ?_, nofun⟩, ⟨fun q hq => absurd rfl hq, nofun, nofun, fun q hq => ?_⟩,
    ⟨rfl, rfl, nofun, nofun, nofun, fun q hq hl => absurd (hlive q (Or.inl hl)) hq, fun _ _ => rfl, fun _ _ _ => rfl, nofun⟩,
    fun q r hq => ?_, ⟨?_, fun q hq => ?_, nofun, nofun, fun q hq => ?_⟩, ⟨fun q => ?_, fun q hq => ?_, fun q r hqr hne => ?_, show 2 < 2 ^ 31 by decide⟩⟩
  · cases (hstate q _ hq nofun).2
  · cases (hstate q _ hq nofun).2
  · cases (hstate q _ hq nofun).2
  · -- first the stack is taken from a full pool, then the directory
    have hfull : Pool (fun _ : Page => true) (fun (_ : Part) _ => False) := ⟨fun _ => iff_of_true rfl fun _ => id, nofun⟩
    have hone := hfull.take (i := Part.kstack initproc) (g := g) rfl fun j x => Iff.rfl
    refine hone.take (i := Part.pgdir initproc) (Function.update_of_ne hgd.symm ..) fun i x => ?_
    cases i with
    | kstack q =>
        rw [Part.kstack.injEq]
        show Function.update (fun _ => none) initproc (some g) q = some x ↔ _
        by_cases hq : q = initproc
        · rw [hq, Function.update_self, Option.some.injEq]
          simp [eq_comm]
        · rw [Function.update_of_ne hq]
          simp [hq]
    | pgdir q =>
        rw [Part.pgdir.injEq]
        show HasDir _ q ∧ Function.update (fun _ => none) initproc (some d) q = some x ↔ _
        by_cases hq : q = initproc
        · rw [hq, Function.update_self, Option.some.injEq, and_iff_right (show HasDir _ initproc from Or.inl rfl)]
          simp [eq_comm]
        · rw [Function.update_of_ne hq]
          simp [hq]
  · rw [hlive q hq, start_kstack, start_pgdir, Function.update_self, Function.update_self]
    exact ⟨⟨g, rfl⟩, d, rfl⟩
  · rw [start_kstack, Function.update_of_ne]
    rintro rfl
    cases hq
  · show Function.update (fun _ => 0) initproc 1 q < 2
    by_cases hq : q = initproc
    · rw [hq, Function.update_self]
      decide
    · rw [Function.update_of_ne hq]
      decide
  · rw [(hstate q _ rfl hq).1]
    exact nofun
  · have hne' : ∀ w, Function.update (fun _ => 0) initproc 1 w ≠ 0 → w = initproc := by
      intro w hw
      by_contra hno
      rw [Function.update_of_ne hno] at hw
      exact hw rfl
    rw [start_pid] at hqr hne
    rw [hne' q hne, hne' r (by rwa [← hqr])]

/-! ## A step -/

variable [DecidableEq C] [DecidableEq Page]

theorem pages_step (hc : Cpus m) (hf : Forks m) (h : Pages m) (hstep : m.Step m') : Pages m' := by
  cases hstep with
  | scheduler c p hidle hp =>
      refine h.sameKind rfl rfl rfl rfl (SameKind.update ?_ rfl)
      rw [hp]
      rfl
  | yield c p hcpu => exact h.sameKind rfl rfl rfl rfl (SameKind.update (hc.active hcpu) rfl)
  | sleep c p n hcpu hp => exact h.sameKind rfl rfl rfl rfl (SameKind.update (hc.active hcpu) rfl)
  | wakeup n => exact h.sameKind rfl rfl rfl rfl (wakes_wakeup1 m.ptable _).sameKind
  | kill n =>
      obtain ⟨s, hs, hkill | ⟨p, -, -, -, hkill⟩⟩ := kill_spec m.ptable n
      · rw [hkill]
        exact h
      · rw [hkill]
        exact h.sameKind rfl rfl rfl rfl hs.sameKind
  | @allocproc c p np t hcpu hp hmax hnp =>
      obtain ⟨hunused, -, rfl⟩ := allocproc_spec hnp
      refine h.quiet rfl rfl rfl (fun q => ?_) (fun q r hq => ?_) (fun q r hq => ?_) fun q hq => ?_
      · show (Function.update m.ptable.state np .embryo q).live = true ∨ (∃ r, Function.update m.proc p (.alloced np) r = .copied q) ↔ _
        refine or_congr ?_ (exists_congr fun r => ?_)
        · by_cases hq : q = np
          · rw [hq, Function.update_self, hunused]
            exact iff_of_false nofun nofun
          · rw [Function.update_of_ne hq]
        · by_cases hrp : r = p
          · rw [hrp, Function.update_self, hp]
            exact iff_of_false nofun nofun
          · rw [Function.update_of_ne hrp]
      · rcases update_cases hq with ⟨-, hq⟩ | ⟨-, hq⟩
        · cases hq
        · exact hq
      · rcases update_cases hq with ⟨-, hq⟩ | ⟨-, hq⟩
        · cases hq
          exact Or.inr hunused
        · exact Or.inl hq
      · rcases update_cases hq with ⟨-, hq⟩ | ⟨-, hq⟩
        · cases hq
        · exact hq
  | nostack c p hcpu hp =>
      exact pages_fail hf h (congrArg ProcAt.child hp) (by rw [hp]; exact nofun) rfl rfl (fun _ _ => rfl)
        (Or.inl ⟨h.alloced p _ hp, rfl⟩) rfl
  | nomem c p hcpu hp hg =>
      exact pages_fail hf h (congrArg ProcAt.child hp) (by rw [hp]; exact nofun) rfl rfl
        (fun q hq => Function.update_of_ne hq ..) (Or.inr ⟨_, hg, rfl⟩) rfl
  | kstack c p g hcpu hp hg => exact pages_kstack hf h hp hg rfl rfl rfl rfl rfl
  | copyuvm c p g hcpu hp hg => exact pages_copyuvm hf h hp hg rfl rfl rfl rfl rfl
  | fork c p hcpu hp => exact pages_fork h hp rfl rfl rfl rfl rfl
  | exits c p hcpu hp hinit =>
      exact h.goto rfl rfl rfl rfl (congrArg ProcAt.child hp) rfl (fun _ => Iff.rfl) fun _ => id
  | wait c p hcpu hp =>
      exact h.goto rfl rfl rfl rfl (congrArg ProcAt.child hp) rfl (fun _ => Iff.rfl) fun _ => id
  | exit c p hcpu hp =>
      obtain ⟨s, hs, hown, hstate, -⟩ := exit_spec m.ptable p
      refine h.goto hown.kstack hown.pgdir rfl rfl (congrArg ProcAt.child hp) rfl (fun q => ?_) fun q hq => ?_
      · show ((exit m.ptable p).state q).live = true ↔ _
        rw [hstate]
        by_cases hqp : q = p
        · rw [hqp, Function.update_self, hc.running c p hcpu]
          exact iff_of_true rfl rfl
        · rw [Function.update_of_ne hqp]
          exact (hs.sameKind q).live
      · change (exit m.ptable p).state q = .unused at hq
        rw [hstate] at hq
        rcases update_cases hq with ⟨-, hq⟩ | ⟨-, hq⟩
        · cases hq
        · exact (hs.unused q).mp hq
  | reaps c p hcpu hp hwait hg hd =>
      obtain ⟨-, hz, rfl⟩ := wait_reaps hwait
      exact pages_reaps hf h (congrArg ProcAt.child hp) hz hg hd rfl rfl rfl rfl rfl
  | returns c p hcpu hp hwait =>
      rw [wait_returns hwait]
      exact h.goto rfl rfl rfl rfl (congrArg ProcAt.child hp) rfl (fun _ => Iff.rfl) fun _ => id
  | sleeps c p hcpu hp hwait =>
      obtain ⟨-, -, -, rfl⟩ := wait_sleeps hwait
      exact h.sameKind rfl rfl rfl rfl (SameKind.update (hc.active hcpu) rfl)

theorem pids_step (hc : Cpus m) (hf : Forks m) (h : Pids m) (hstep : m.Step m') : Pids m' := by
  have hrun : ∀ {c p}, m.cpu c = some p → m.ptable.state p ≠ .unused := fun hcpu hs => by
    rw [hc.running _ _ hcpu] at hs
    cases hs
  have hembryo : ∀ {p np}, (m.proc p).child = some np → m.ptable.state np ≠ .unused := fun hp hs => by
    rw [(hf.child _ _ hp).1] at hs
    cases hs
  cases hstep with
  | scheduler c p hidle hp => exact h.quiet rfl rfl (update_unused (by rw [hp]; exact nofun))
  | yield c p hcpu => exact h.quiet rfl rfl (update_unused (hrun hcpu))
  | sleep c p n hcpu hp => exact h.quiet rfl rfl (update_unused (hrun hcpu))
  | wakeup n => exact h.quiet rfl rfl fun q => ((wakes_wakeup1 m.ptable _).unused q).mpr
  | kill n =>
      obtain ⟨s, hs, hkill | ⟨p, -, -, -, hkill⟩⟩ := kill_spec m.ptable n
      · rw [hkill]
        exact h
      · rw [hkill]
        exact h.quiet rfl rfl fun q => (hs.unused q).mpr
  | @allocproc c p np t hcpu hp hmax hnp =>
      obtain ⟨hunused, -, rfl⟩ := allocproc_spec hnp
      have hnext : ∀ q, m.ptable.pid q ≠ m.ptable.nextpid := fun q => Nat.ne_of_lt (h.lt q)
      refine ⟨fun q => ?_, fun q hq => ?_, fun q r hqr hne => ?_, Nat.lt_of_lt_of_le (Nat.succ_lt_succ hmax) (by decide)⟩
      · show Function.update m.ptable.pid np m.ptable.nextpid q < m.ptable.nextpid + 1
        by_cases hq : q = np
        · rw [hq, Function.update_self]
          exact Nat.lt_succ_self _
        · rw [Function.update_of_ne hq]
          exact Nat.lt_succ_of_lt (h.lt q)
      · show Function.update m.ptable.pid np m.ptable.nextpid q ≠ 0
        change Function.update m.ptable.state np .embryo q ≠ .unused at hq
        by_cases hqnp : q = np
        · rw [hqnp, Function.update_self]
          exact Nat.ne_of_gt (Nat.lt_of_le_of_lt (Nat.zero_le _) (h.lt np))
        · rw [Function.update_of_ne hqnp] at hq ⊢
          exact h.pos q hq
      · change Function.update m.ptable.pid np m.ptable.nextpid q = Function.update m.ptable.pid np m.ptable.nextpid r at hqr
        change Function.update m.ptable.pid np m.ptable.nextpid q ≠ 0 at hne
        by_cases hq : q = np
        · by_cases hr : r = np
          · rw [hq, hr]
          · rw [hq, Function.update_self, Function.update_of_ne hr] at hqr
            exact absurd hqr.symm (hnext r)
        · rw [Function.update_of_ne hq] at hqr hne
          by_cases hr : r = np
          · rw [hr, Function.update_self] at hqr
            exact absurd hqr (hnext q)
          · rw [Function.update_of_ne hr] at hqr
            exact h.single q r hqr hne
  | nostack c p hcpu hp => exact h.quiet rfl rfl (update_unused (hembryo (congrArg ProcAt.child hp)))
  | nomem c p hcpu hp hg => exact h.quiet rfl rfl (update_unused (hembryo (congrArg ProcAt.child hp)))
  | fork c p hcpu hp => exact h.quiet rfl rfl (update_unused (hembryo (congrArg ProcAt.child hp)))
  | kstack | copyuvm | exits | wait => exact h.quiet rfl rfl fun _ => id
  | exit c p hcpu hp =>
      obtain ⟨s, hs, hown, hstate, -⟩ := exit_spec m.ptable p
      refine h.quiet hown.pid hown.nextpid fun q hq => ?_
      show (exit m.ptable p).state q = .unused
      rw [hstate]
      exact update_unused (fun hp => hrun hcpu ((hs.unused p).mp hp)) q ((hs.unused q).mpr hq)
  | @reaps c p z t g d hcpu hp hwait hg hd =>
      obtain ⟨-, hz, rfl⟩ := wait_reaps hwait
      refine ⟨fun q => ?_, fun q hq => ?_, fun q r hqr hne => ?_, h.int⟩
      · show Function.update m.ptable.pid z 0 q < m.ptable.nextpid
        by_cases hqz : q = z
        · rw [hqz, Function.update_self]
          exact Nat.lt_of_le_of_lt (Nat.zero_le _) (h.lt z)
        · rw [Function.update_of_ne hqz]
          exact h.lt q
      · change Function.update m.ptable.state z .unused q ≠ .unused at hq
        show Function.update m.ptable.pid z 0 q ≠ 0
        have hqz : q ≠ z := by
          rintro rfl
          rw [Function.update_self] at hq
          exact hq rfl
        rw [Function.update_of_ne hqz] at hq ⊢
        exact h.pos q hq
      · change Function.update m.ptable.pid z 0 q = Function.update m.ptable.pid z 0 r at hqr
        change Function.update m.ptable.pid z 0 q ≠ 0 at hne
        have hnotz : ∀ w, Function.update m.ptable.pid z 0 w ≠ 0 → w ≠ z := by
          rintro w hw rfl
          rw [Function.update_self] at hw
          exact hw rfl
        have hqz := hnotz q hne
        have hrz := hnotz r (hqr ▸ hne)
        rw [Function.update_of_ne hqz, Function.update_of_ne hrz] at hqr
        rw [Function.update_of_ne hqz] at hne
        exact h.single q r hqr hne
  | returns c p hcpu hp hwait =>
      rw [wait_returns hwait]
      exact h.quiet rfl rfl fun _ => id
  | sleeps c p hcpu hp hwait =>
      obtain ⟨-, -, -, rfl⟩ := wait_sleeps hwait
      exact h.quiet rfl rfl (update_unused (hrun hcpu))

/-! ## All runs -/

theorem procInv_reachable (h : m.Reachable) : ProcInv m := by
  induction h with
  | init hgd => exact procInv_start hgd
  | tail _ hstep ih =>
      exact ⟨cpus_step ih.forks ih.cpus hstep, forks_step ih.cpus ih.forks hstep, kin_step ih.cpus ih.forks ih.kin hstep,
        waits_step ih.cpus ih.kin ih.waits hstep, pages_step ih.cpus ih.forks ih.pages hstep,
        pids_step ih.cpus ih.forks ih.pids hstep⟩

theorem one_lt_nproc : 1 < nproc := Nat.le_of_ble_eq_true rfl

/-- The slot after init's. -/
def nextSlot : Slot := ⟨1, one_lt_nproc⟩

/-- Init runs. -/
theorem exists_running : ∃ (m : Machine Unit Nat) (t : Ptable Nat), m.Reachable ∧ m.cpu () = some initproc
    ∧ m.proc initproc = .out ∧ m.ptable.state initproc = .running ∧ m.ptable.nextpid = 2
    ∧ (∀ q, m.ptable.state q = .unused → m.ptable.pid q = 0) ∧ allocproc m.ptable = some (nextSlot, t)
    ∧ m.free 2 = true ∧ m.free 3 = true := by
  have h0 : (Machine.start 0 1 : Machine Unit Nat).Reachable := .init (by decide)
  have h1 := h0.tail (.scheduler () initproc rfl rfl)
  exact ⟨_, _, h1, rfl, rfl, rfl, rfl, by decide, rfl, rfl, rfl⟩

/-! ## What the kernel can rely on -/

/-- A process runs on one CPU, and only while it is RUNNING. -/
theorem running_on_one_cpu (h : m.Reachable) :
    (∀ p, m.ptable.state p = .running ↔ ∃ c, m.cpu c = some p)
      ∧ ∀ c d p, m.cpu c = some p → m.cpu d = some p → c = d := by
  have hcpus := (procInv_reachable h).cpus
  exact ⟨fun p => ⟨hcpus.oncpu p, fun ⟨c, hc⟩ => hcpus.running c p hc⟩, hcpus.single⟩

theorem init_on_cpu : ∃ m : Machine Unit Nat, m.ptable.state initproc = .running ∧ ∃ c, m.cpu c = some initproc := by
  obtain ⟨m, -, h, -, -, hp, -⟩ := exists_running
  exact ⟨m, hp, ((running_on_one_cpu h).1 initproc).mp hp⟩

/-- Who sleeps in `wait` has a child, no child of it is a zombie, and it has not been killed; and every
process but init has a parent that has not exited, so that a zombie is always somebody's to reap. -/
theorem no_zombie_unnoticed (h : m.Reachable) :
    (∀ p q, m.ptable.state p = .sleeping → m.ptable.chan p = some (.proc q) → q = p ∧ m.ptable.killed p = false
        ∧ (∃ z, m.ptable.parent z = some p) ∧ ∀ z, m.ptable.parent z = some p → m.ptable.state z ≠ .zombie)
      ∧ ∀ q, q ≠ initproc → (m.ptable.state q).live = true → ∃ p, p ≠ q ∧ m.ptable.parent q = some p
        ∧ (m.ptable.state p).active = true := by
  have hinv := procInv_reachable h
  refine ⟨fun p q hp hq => ?_, fun q hq hlive => ?_⟩
  · obtain ⟨hqp, hawaits⟩ := hinv.waits p q hp hq
    exact ⟨hqp, hawaits.alive, hawaits.havekids, hawaits.nozombie⟩
  · obtain ⟨p, hp⟩ := Option.ne_none_iff_exists'.mp (hinv.kin.live q hq hlive)
    refine ⟨p, ?_, hp, hinv.kin.parent q p hp⟩
    rintro rfl
    exact hinv.kin.irrefl p hp

theorem init_has_no_parent_to_find : ∃ m : Machine Unit Nat, m.cpu () = some initproc
    ∧ ∀ q, q ≠ initproc → (m.ptable.state q).live = true → ∃ p, p ≠ q ∧ m.ptable.parent q = some p
      ∧ (m.ptable.state p).active = true := by
  obtain ⟨m, -, h, hcpu, -⟩ := exists_running
  exact ⟨m, hcpu, (no_zombie_unnoticed h).2⟩

/-- A pid that is not 0 names one slot, and each process has one. -/
theorem pid_names_one (h : m.Reachable) :
    (∀ p, m.ptable.state p ≠ .unused → 1 ≤ m.ptable.pid p ∧ m.ptable.pid p < 2 ^ 31 - 1)
      ∧ ∀ p q, m.ptable.pid p = m.ptable.pid q → m.ptable.pid p ≠ 0 → p = q := by
  have hpids := (procInv_reachable h).pids
  refine ⟨fun p hp => ⟨Nat.one_le_iff_ne_zero.mpr (hpids.pos p hp), ?_⟩, hpids.single⟩
  have hlt := hpids.lt p
  have hint := hpids.int
  omega

theorem init_has_pid : ∃ m : Machine Unit Nat, m.ptable.state initproc = .running ∧ 1 ≤ m.ptable.pid initproc := by
  obtain ⟨m, -, h, -, -, hp, -⟩ := exists_running
  exact ⟨m, hp, ((pid_names_one h).1 initproc (by rw [hp]; exact nofun)).1⟩

/-! ## `kill(0)` -/

/-- A `fork` that finds a slot and two pages. -/
theorem fork_run {c : C} {g d : Page} {t : Ptable Page} (hcpu : m.cpu c = some p) (hp : m.proc p = .out)
    (hmax : m.ptable.nextpid < 2 ^ 31 - 1) (halloc : allocproc m.ptable = some (np, t))
    (hg : m.free g = true) (hd : m.free d = true) (hgd : g ≠ d) :
    ∃ m', Relation.ReflTransGen Machine.Step m m' ∧ m'.ptable.state np = .runnable ∧ m'.ptable.parent np = some p
      ∧ m'.ptable.pid np = t.pid np ∧ m'.ptable.killed np = t.killed np := by
  let m1 : Machine C Page := { m.goto p (.alloced np) with ptable := t }
  let m2 : Machine C Page := { m1.goto p (.stacked np) with
    ptable := { m1.ptable with kstack := Function.update m1.ptable.kstack np (some g) }
    free := Function.update m1.free g false }
  let m3 : Machine C Page := { m2.goto p (.copied np) with
    ptable := { m2.ptable with
      pgdir := Function.update m2.ptable.pgdir np (some d)
      parent := Function.update m2.ptable.parent np (some p) }
    free := Function.update m2.free d false }
  let m4 : Machine C Page := { m3.goto p .out with
    ptable := { m3.ptable with state := Function.update m3.ptable.state np .runnable } }
  have h1 : m.Step m1 := .allocproc c p hcpu hp hmax halloc
  have h2 : m1.Step m2 := .kstack c p g hcpu (show Function.update m.proc p _ p = _ from Function.update_self ..) hg
  have h3 : m2.Step m3 := by
    refine .copyuvm c p d hcpu (show Function.update m1.proc p _ p = _ from Function.update_self ..) ?_
    exact (show Function.update m.free g false d = m.free d from Function.update_of_ne hgd.symm ..).trans hd
  have h4 : m3.Step m4 := .fork c p hcpu (show Function.update m2.proc p _ p = _ from Function.update_self ..)
  refine ⟨m4, .tail (.tail (.tail (.single h1) h2) h3) h4, ?_, ?_, rfl, rfl⟩
  · exact show Function.update m3.ptable.state np _ np = _ from Function.update_self ..
  · exact show Function.update m2.ptable.parent np _ np = _ from Function.update_self ..

end Cs537.Xv6
