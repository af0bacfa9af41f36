import Mathlib.Data.Finset.Basic

/-!
# Waiting for commands

`runCommand` and `execPython` fork a child and then, unless the command is to run in the
background, call `wait(NULL)` once. That returns for any child of the shell: also for one
that was put into the background earlier and ends first, or has ended already. The
built-in `wait` calls `wait(NULL)` until there are no children left.

A run is a sequence of events: the shell executes a command, a child terminates, a
`wait(NULL)` returns. Which child terminates when, and which of the terminated ones `wait`
returns for, is open.
-/

namespace Cs537.Shell

/-- The commands, as far as children are concerned. -/
inductive Command where
  /-- `runCommand`, with `waitFlag` set by a final `&`. -/
  | external (waitFlag : Bool)
  /-- `execPython`, which waits in any case. -/
  | python
  /-- The built-in `wait`. -/
  | wait
  /-- The other built-ins, and lines that are refused. -/
  | other
deriving DecidableEq

inductive ShellAt where
  /-- `execute` has returned. -/
  | loop
  /-- In the `wait(NULL)` of the command whose child is `pid`. -/
  | waits (pid : Nat)
  /-- In `while(wait(NULL) > 0);`. -/
  | waitsAll
deriving DecidableEq

structure Jobs where
  shell : ShellAt
  /-- The children that have not terminated. -/
  running : Finset Nat
  /-- The children that have, and that no `wait` has returned for. -/
  dead : Finset Nat
deriving DecidableEq

inductive JobEvent where
  /-- The shell executes a command; `pid` is what `fork` returns if there is one. -/
  | execute (c : Command) (pid : Nat)
  | terminate (pid : Nat)
  /-- `wait(NULL)` returns `pid`. -/
  | reap (pid : Nat)
  /-- `wait(NULL)` returns -1. -/
  | noChild

namespace Jobs

def init : Jobs := ⟨.loop, ∅, ∅⟩

/-- There is no child. -/
def Alone (s : Jobs) : Prop := s.running = ∅ ∧ s.dead = ∅

instance (s : Jobs) : Decidable s.Alone := inferInstanceAs (Decidable (_ ∧ _))

/-- `fork`, and where the shell goes on. -/
def fork (s : Jobs) (pid : Nat) (shell : ShellAt) : Jobs :=
  { s with running := insert pid s.running, shell := shell }

/-- One event, if it is possible. -/
def exec (s : Jobs) : JobEvent → Option Jobs
  | .execute c pid =>
      if s.shell = .loop ∧ pid ∉ s.running ∧ pid ∉ s.dead then
        match c with
        | .external false => some (s.fork pid (.waits pid))
        | .external true => some (s.fork pid .loop)
        | .python => some (s.fork pid (.waits pid))
        | .wait => some { s with shell := .waitsAll }
        | .other => some s
      else none
  | .terminate pid =>
      if pid ∈ s.running then
        some { s with running := s.running.erase pid, dead := insert pid s.dead }
      else none
  | .reap pid =>
      if pid ∈ s.dead then
        match s.shell with
        | .loop => none
        | .waits _ => some { s with dead := s.dead.erase pid, shell := .loop }
        | .waitsAll => some { s with dead := s.dead.erase pid }
      else none
  | .noChild =>
      if s.Alone ∧ s.shell = .waitsAll then some { s with shell := .loop } else none

def run : Jobs → List JobEvent → Option Jobs
  | s, [] => some s
  | s, e :: es => (s.exec e).bind fun s' => s'.run es

end Jobs

/-- From `s` on, `execute` returns in `s'`: the first state in which the shell is back in its loop. -/
inductive Returns : Jobs → Jobs → Prop where
  | done {s : Jobs} : s.shell = .loop → Returns s s
  | step {s s₁ s' : Jobs} {e : JobEvent} : s.shell ≠ .loop → s.exec e = some s₁ → Returns s₁ s' →
      Returns s s'

/-- An external command in the foreground, or a Python program. -/
def Command.Foreground : Command → Prop
  | .external waitFlag => waitFlag = false
  | .python => True
  | .wait | .other => False

variable {s s₁ s' : Jobs} {e : JobEvent} {pid : Nat}

open Jobs

/-! ## What happens during a `wait` -/

/-- Until the shell is back in its loop, children terminate and are waited for. -/
theorem exec_waiting (hs : s.shell ≠ .loop) (h : s.exec e = some s₁) :
    (∃ q ∈ s.running, s₁ = { s with running := s.running.erase q, dead := insert q s.dead })
      ∨ (∃ q ∈ s.dead, s₁ = { s with
          dead := s.dead.erase q, shell := if s.shell = .waitsAll then .waitsAll else .loop })
      ∨ s.Alone ∧ s.shell = .waitsAll ∧ s₁ = { s with shell := .loop } := by
  cases e with
  | execute c pid =>
      simp only [exec] at h
      rw [if_neg fun hc => hs hc.1] at h
      cases h
  | terminate q =>
      rw [exec] at h
      split at h
      · rename_i hq
        exact Or.inl ⟨q, hq, (Option.some.inj h).symm⟩
      · cases h
  | reap q =>
      rw [exec] at h
      split at h
      · rename_i hq
        refine Or.inr (Or.inl ⟨q, hq, ?_⟩)
        cases hshell : s.shell with
        | loop => exact absurd hshell hs
        | waits pid =>
            rw [hshell] at h
            cases h
            rfl
        | waitsAll =>
            rw [hshell] at h
            cases h
            rw [if_pos rfl, ← hshell]
      · cases h
  | noChild =>
      rw [exec] at h
      split at h
      · rename_i hc
        exact Or.inr (Or.inr ⟨hc.1, hc.2, (Option.some.inj h).symm⟩)
      · cases h

/-- The built-in `wait` returns when there are no children left. -/
theorem alone_of_waitsAll (hr : Returns s s') (hs : s.shell = .waitsAll) : s'.Alone := by
  induction hr with
  | done hloop =>
      rw [hs] at hloop
      cases hloop
  | @step s s₁ s' e hne hexec hr ih =>
      rcases exec_waiting hne hexec with ⟨q, -, rfl⟩ | ⟨q, -, rfl⟩ | ⟨halone, -, rfl⟩
      · exact ih hs
      · exact ih (if_pos hs)
      · cases hr with
        | done _ => exact halone
        | step hne' _ _ => exact absurd rfl hne'

/-- The only child is waited for. -/
def OnlyChild (s : Jobs) (pid : Nat) : Prop :=
  s.running = {pid} ∧ s.dead = ∅ ∨ s.running = ∅ ∧ s.dead = {pid}

theorem terminated_of_onlyChild (hr : Returns s s') (hs : s.shell = .waits pid) (h : OnlyChild s pid) :
    pid ∉ s'.running := by
  induction hr with
  | done hloop =>
      rw [hs] at hloop
      cases hloop
  | @step s s₁ s' e hne hexec hr ih =>
      rcases exec_waiting hne hexec with ⟨q, hq, rfl⟩ | ⟨q, hq, rfl⟩ | ⟨-, hall, -⟩
      · -- it is the child that terminates
        rcases h with ⟨hrun, hdead⟩ | ⟨hrun, -⟩
        · rw [hrun, Finset.mem_singleton] at hq
          subst hq
          exact ih hs (Or.inr ⟨by rw [hrun]; exact Finset.erase_singleton .., by rw [hdead]; rfl⟩)
        · rw [hrun] at hq
          exact absurd hq (Finset.notMem_empty q)
      · rcases h with ⟨-, hdead⟩ | ⟨hrun, -⟩
        · rw [hdead] at hq
          exact absurd hq (Finset.notMem_empty q)
        · cases hr with
          | done _ =>
              rw [hrun]
              exact Finset.notMem_empty pid
          | step hne' _ _ => exact absurd (if_neg (by rw [hs]; simp)) hne'
      · rw [hs] at hall
        cases hall

/-! ## Other children -/

/-- A child that was there before may be the one that `wait` returns for. -/
theorem returns_early {q : Nat} (hq : q ∈ s.running ∨ q ∈ s.dead) (hne : q ≠ pid) :
    ∃ s', Returns (s.fork pid (.waits pid)) s' ∧ pid ∈ s'.running := by
  have hpid : pid ∈ (s.fork pid (.waits pid)).running := Finset.mem_insert_self ..
  have hwaits : ∀ running dead, (⟨.waits pid, running, dead⟩ : Jobs).shell ≠ .loop := by
    intro running dead h
    cases h
  rcases hq with hq | hq
  · have hrun : q ∈ (s.fork pid (.waits pid)).running := Finset.mem_insert_of_mem hq
    have hterm : (s.fork pid (.waits pid)).exec (.terminate q) = some ⟨.waits pid,
        (s.fork pid (.waits pid)).running.erase q, insert q s.dead⟩ := if_pos hrun
    have hreap : (⟨.waits pid, (s.fork pid (.waits pid)).running.erase q, insert q s.dead⟩ : Jobs).exec
        (.reap q) = some ⟨.loop, (s.fork pid (.waits pid)).running.erase q, (insert q s.dead).erase q⟩ :=
      if_pos (Finset.mem_insert_self ..)
    refine ⟨_, .step (hwaits _ _) hterm (.step (hwaits _ _) hreap (.done rfl)), ?_⟩
    exact Finset.mem_erase.mpr ⟨Ne.symm hne, hpid⟩
  · have hreap : (s.fork pid (.waits pid)).exec (.reap q) = some ⟨.loop,
        (s.fork pid (.waits pid)).running, s.dead.erase q⟩ := if_pos (show q ∈ s.dead from hq)
    exact ⟨_, .step (hwaits _ _) hreap (.done rfl), hpid⟩

/-! ## Commands -/

/-- A command in the foreground. -/
theorem exec_foreground {c : Command} (hc : c.Foreground) (h : s.exec (.execute c pid) = some s₁) :
    s.shell = .loop ∧ (pid ∉ s.running ∧ pid ∉ s.dead) ∧ s₁ = s.fork pid (.waits pid) := by
  simp only [exec] at h
  split at h
  · rename_i hloop
    refine ⟨hloop.1, hloop.2, ?_⟩
    cases c with
    | external waitFlag =>
        obtain rfl : waitFlag = false := hc
        exact (Option.some.inj h).symm
    | python => exact (Option.some.inj h).symm
    | wait => exact hc.elim
    | other => exact hc.elim
  · cases h

/--
**Waiting.** Take the shell after any run, and the next command that it executes. If that
is the built-in `wait`, no child remains when `execute` returns. If it is a command in the
foreground, its child has terminated whenever and however `execute` returns, exactly if the
shell had no children when the command was given.
-/
theorem foreground_waited_iff {s s₁ : Jobs} {c : Command} {pid : Nat}
    (hexec : s.exec (.execute c pid) = some s₁) :
    (c = .wait → ∀ s', Returns s₁ s' → s'.Alone)
      ∧ (c.Foreground → ((∀ s', Returns s₁ s' → pid ∉ s'.running) ↔ s.Alone)) := by
  constructor
  · rintro rfl s' hr
    refine alone_of_waitsAll hr ?_
    rw [exec] at hexec
    split at hexec
    · cases hexec
      rfl
    · cases hexec
  · intro hc
    obtain ⟨-, ⟨hnew, hnew'⟩, rfl⟩ := exec_foreground hc hexec
    constructor
    · intro hall
      have hnone : ∀ q, ¬(q ∈ s.running ∨ q ∈ s.dead) := by
        intro q hq
        have hne : q ≠ pid := by
          rintro rfl
          exact hq.elim hnew hnew'
        obtain ⟨s', hr, hpid⟩ := returns_early hq hne
        exact hall s' hr hpid
      exact ⟨Finset.eq_empty_of_forall_notMem fun q hq => hnone q (Or.inl hq),
        Finset.eq_empty_of_forall_notMem fun q hq => hnone q (Or.inr hq)⟩
    · rintro ⟨hrunning, hdead⟩ s' hr
      refine terminated_of_onlyChild hr rfl (Or.inl ⟨?_, hdead⟩)
      show insert pid s.running = {pid}
      rw [hrunning]
      rfl

/-- The first command of a shell: its child terminates, and `wait` returns for it. -/
theorem first_command_waited : ∃ s', Returns (init.fork 1 (.waits 1)) s' ∧ 1 ∉ s'.running := by
  have hterminate : (init.fork 1 (.waits 1)).exec (.terminate 1) = some ⟨.waits 1, ∅, {1}⟩ := by decide
  have hreap : (⟨.waits 1, ∅, {1}⟩ : Jobs).exec (.reap 1) = some init := by decide
  have hr : Returns (init.fork 1 (.waits 1)) init :=
    .step (by decide) hterminate (.step (by decide) hreap (.done rfl))
  exact ⟨init, hr,
    ((foreground_waited_iff (rfl : init.exec (.execute (.external false) 1) = _)).2 rfl).mpr ⟨rfl, rfl⟩ _ hr⟩

/-- A command in the background, and then one in the foreground that is not waited for. -/
theorem foreground_not_waited : ∃ s s₁ s', init.run [.execute (.external true) 1] = some s
    ∧ s.exec (.execute (.external false) 2) = some s₁ ∧ Returns s₁ s' ∧ 2 ∈ s'.running := by
  obtain ⟨s', hr, hpid⟩ := @returns_early (init.fork 1 .loop) 2 1 (Or.inl (Finset.mem_insert_self ..))
    (by decide)
  exact ⟨init.fork 1 .loop, _, s', rfl, rfl, hr, hpid⟩

end Cs537.Shell
