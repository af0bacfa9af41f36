import Cs537.Xv6.ProcRun

/-!
# Parents and children

A process has a parent that has not exited, because `exit` passes the children of a process
to init, and init does not exit. So somebody waits for every zombie, or will: a parent that
sleeps in `wait` has a child and no zombie among its children, and has not been killed.
-/

namespace Cs537.Xv6

variable {C Page : Type} {p q r np z : Slot} {m m' : Machine C Page}

/-! ## The family -/

structure Kin (m : Machine C Page) : Prop where
  init : (m.ptable.state initproc).active = true
  orphan : m.ptable.parent initproc = none
  exits : ∀ p, m.proc p = .exits → p ≠ initproc
  parent : ∀ q p, m.ptable.parent q = some p → (m.ptable.state p).active = true
  irrefl : ∀ p, m.ptable.parent p ≠ some p
  live : ∀ q, q ≠ initproc → (m.ptable.state q).live = true → m.ptable.parent q ≠ none
  unused : ∀ q, m.ptable.state q = .unused → m.ptable.parent q = none
  early : ∀ p np, m.proc p = .alloced np ∨ m.proc p = .stacked np → m.ptable.parent np = none
  copied : ∀ p np, m.proc p = .copied np → m.ptable.parent np = some p

/-- The slot is a process, and stays one, or is none, and stays none. -/
def SameKind (s s' : ProcState) : Prop := s'.active = s.active ∧ (s' = .zombie ↔ s = .zombie) ∧ (s' = .unused ↔ s = .unused)

theorem SameKind.refl (s : ProcState) : SameKind s s := ⟨rfl, Iff.rfl, Iff.rfl⟩

theorem SameKind.of_active {s s' : ProcState} (h : s.active = true) (h' : s'.active = true) : SameKind s s' := by
  refine ⟨h'.trans h.symm, iff_of_false ?_ ?_, iff_of_false ?_ ?_⟩
  · rintro rfl
    cases h'
  · rintro rfl
    cases h
  · rintro rfl
    cases h'
  · rintro rfl
    cases h

theorem SameKind.update {f : Slot → ProcState} {x : ProcState} (h : (f p).active = true) (hx : x.active = true)
    (q : Slot) : SameKind (f q) (Function.update f p x q) := by
  by_cases hqp : q = p
  · subst hqp
    rw [Function.update_self]
    exact SameKind.of_active h hx
  · rw [Function.update_of_ne hqp]
    exact SameKind.refl _

theorem Wakes.sameKind {s s' : Slot → ProcState} (h : Wakes s s') (q : Slot) : SameKind (s q) (s' q) :=
  ⟨h.active q, h.zombie q, h.unused q⟩

theorem live_iff (s : ProcState) : s.live = true ↔ s.active = true ∨ s = .zombie := by
  rw [ProcState.live, Bool.or_eq_true, decide_eq_true_eq]

/-- Nobody gets another parent, and nobody is at another place in `fork`. -/
theorem Kin.quiet (h : Kin m) (hparent : m'.ptable.parent = m.ptable.parent)
    (hstate : ∀ q, SameKind (m.ptable.state q) (m'.ptable.state q))
    (hexits : ∀ p, m'.proc p = .exits → p ≠ initproc)
    (hearly : ∀ p np, m'.proc p = .alloced np ∨ m'.proc p = .stacked np → m.proc p = .alloced np ∨ m.proc p = .stacked np)
    (hcopied : ∀ p np, m'.proc p = .copied np → m.proc p = .copied np) : Kin m' where
  init := (hstate initproc).1.trans h.init
  orphan := by
    rw [hparent]
    exact h.orphan
  exits := hexits
  parent q p hq := by
    rw [hparent] at hq
    exact (hstate p).1.trans (h.parent q p hq)
  irrefl p := by
    rw [hparent]
    exact h.irrefl p
  live q hq hlive := by
    rw [hparent]
    refine h.live q hq ?_
    rw [live_iff] at hlive ⊢
    exact hlive.imp (fun ha => (hstate q).1.symm.trans ha) (hstate q).2.1.mp
  unused q hq := by
    rw [hparent]
    exact h.unused q ((hstate q).2.2.mp hq)
  early p np hp := by
    rw [hparent]
    exact h.early p np (hearly p np hp)
  copied p np hp := by
    rw [hparent]
    exact h.copied p np (hcopied p np hp)

theorem update_cases {α : Type} {f : Slot → α} {x y : α} (h : Function.update f p x q = y) :
    q = p ∧ x = y ∨ q ≠ p ∧ f q = y := by
  by_cases hqp : q = p
  · rw [hqp, Function.update_self] at h
    exact Or.inl ⟨hqp, h⟩
  · rw [Function.update_of_ne hqp] at h
    exact Or.inr ⟨hqp, h⟩

/-- The process `p` goes from one place outside `fork` to another. -/
theorem Kin.goto {a : ProcAt} (h : Kin m) (hparent : m'.ptable.parent = m.ptable.parent)
    (hstate : m'.ptable.state = m.ptable.state) (hproc : m'.proc = Function.update m.proc p a) (ha : a.child = none)
    (hexits : a = .exits → p ≠ initproc) : Kin m' := by
  have hold : ∀ q b, b.child ≠ none → m'.proc q = b → m.proc q = b := by
    intro q b hb hq
    rw [hproc] at hq
    by_cases hqp : q = p
    · rw [hqp, Function.update_self] at hq
      rw [← hq] at hb
      exact absurd ha hb
    · rwa [Function.update_of_ne hqp] at hq
  refine h.quiet hparent (fun q => by rw [hstate]; exact SameKind.refl _) (fun q hq => ?_)
    (fun q np hq => hq.imp (hold q _ nofun) (hold q _ nofun)) fun q np => hold q _ nofun
  rw [hproc] at hq
  by_cases hqp : q = p
  · rw [hqp, Function.update_self] at hq
    rw [hqp]
    exact hexits hq
  · rw [Function.update_of_ne hqp] at hq
    exact h.exits q hq

/-- A slot that is none goes from unused to embryo, or back. -/
theorem Kin.slot {a : ProcAt} {x : ProcState} (h : Kin m) (hparent : m'.ptable.parent = m.ptable.parent)
    (hstate : m'.ptable.state = Function.update m.ptable.state np x) (hproc : m'.proc = Function.update m.proc p a)
    (hnp : (m.ptable.state np).live = false) (hx : x.live = false) (hnone : m.ptable.parent np = none)
    (ha : a = .alloced np ∨ a = .out) : Kin m' := by
  have hactive : ∀ q, (m'.ptable.state q).active = (m.ptable.state q).active := by
    intro q
    rw [hstate]
    by_cases hqnp : q = np
    · rw [hqnp, Function.update_self]
      rw [ProcState.live, Bool.or_eq_false_iff] at hnp hx
      exact hx.1.trans hnp.1.symm
    · rw [Function.update_of_ne hqnp]
  have hproc' : ∀ q b, m'.proc q = b → b ≠ .alloced np → b ≠ .out → m.proc q = b := by
    intro q b hq hb hb'
    rw [hproc] at hq
    by_cases hqp : q = p
    · rw [hqp, Function.update_self] at hq
      rcases ha with ha | ha
      · exact absurd (hq.symm.trans ha) hb
      · exact absurd (hq.symm.trans ha) hb'
    · rwa [Function.update_of_ne hqp] at hq
  refine ⟨(hactive _).trans h.init, by rw [hparent]; exact h.orphan, fun q hq => h.exits q (hproc' q _ hq nofun nofun),
    fun q r hq => ?_, fun q => by rw [hparent]; exact h.irrefl q, fun q hq hlive => ?_, fun q hq => ?_,
    fun q r hq => ?_, fun q r hq => ?_⟩
  · rw [hparent] at hq
    exact (hactive r).trans (h.parent q r hq)
  · rw [hparent]
    rw [hstate] at hlive
    by_cases hqnp : q = np
    · rw [hqnp, Function.update_self, hx] at hlive
      cases hlive
    · rw [Function.update_of_ne hqnp] at hlive
      exact h.live q hq hlive
  · rw [hparent]
    by_cases hqnp : q = np
    · rw [hqnp]
      exact hnone
    · rw [hstate, Function.update_of_ne hqnp] at hq
      exact h.unused q hq
  · rw [hparent]
    by_cases hrnp : r = np
    · rw [hrnp]
      exact hnone
    · refine h.early q r (hq.imp (fun hq => hproc' q _ hq ?_ nofun) fun hq => hproc' q _ hq nofun nofun)
      exact fun heq => hrnp (ProcAt.alloced.inj heq)
  · rw [hparent]
    exact h.copied q r (hproc' q _ hq nofun nofun)

variable {t : Ptable Page}

/-- `exit`: the children of `p` have a parent again, and nobody else lost its own. -/
theorem kin_exit {c : C} [DecidableEq C] (hc : Cpus m) (h : Kin m) (hcpu : m.cpu c = some p)
    (hp : m.proc p = .exits) : Kin { (m.goto p .out).sched c with ptable := exit m.ptable p } := by
  have hpinit := h.exits p hp
  have hpactive := hc.active hcpu
  obtain ⟨s, hs, -, hstate, hparent, -⟩ := exit_spec m.ptable p
  have hstate' : ∀ q, q ≠ p → (exit m.ptable p).state q = s q := by
    intro q hqp
    rw [hstate, Function.update_of_ne hqp]
  have hother : ∀ q b, Function.update m.proc p .out q = b → b ≠ .out → q ≠ p ∧ m.proc q = b := by
    intro q b hq hb
    by_cases hqp : q = p
    · rw [hqp, Function.update_self] at hq
      exact absurd hq.symm hb
    · rw [Function.update_of_ne hqp] at hq
      exact ⟨hqp, hq⟩
  have hnone : ∀ q, m.ptable.parent q = none → (exit m.ptable p).parent q = none := by
    intro q hq
    rw [hparent, hq]
    exact if_neg nofun
  refine ⟨?_, hnone _ h.orphan, fun q hq => h.exits q (hother q _ hq nofun).2, fun q r hq => ?_, fun q hq => ?_,
    fun q hq hlive => ?_, fun q hq => hnone q ?_, fun q np hq => hnone np ?_, fun q np hq => ?_⟩
  · show ((exit m.ptable p).state initproc).active = true
    rw [hstate' _ hpinit.symm]
    exact (hs.active _).trans h.init
  · change (exit m.ptable p).parent q = some r at hq
    show ((exit m.ptable p).state r).active = true
    rw [hparent] at hq
    split at hq
    · rw [← Option.some.inj hq, hstate' _ hpinit.symm]
      exact (hs.active _).trans h.init
    · rename_i hne
      have hrp : r ≠ p := by
        rintro rfl
        exact hne hq
      rw [hstate' r hrp]
      exact (hs.active r).trans (h.parent q r hq)
  · change (exit m.ptable p).parent q = some q at hq
    rw [hparent] at hq
    split at hq
    · rename_i hchild
      rw [← Option.some.inj hq, h.orphan] at hchild
      cases hchild
    · exact h.irrefl q hq
  · show (exit m.ptable p).parent q ≠ none
    change ((exit m.ptable p).state q).live = true at hlive
    have hold : m.ptable.parent q ≠ none := by
      refine h.live q hq ?_
      rw [live_iff] at hlive ⊢
      by_cases hqp : q = p
      · rw [hqp]
        exact Or.inl hpactive
      · rw [hstate' q hqp] at hlive
        exact hlive.imp (fun ha => (hs.active q).symm.trans ha) (hs.zombie q).mp
    rw [hparent]
    split
    · exact nofun
    · exact hold
  · change (exit m.ptable p).state q = .unused at hq
    by_cases hqp : q = p
    · rw [hqp, hstate, Function.update_self] at hq
      cases hq
    · rw [hstate' q hqp] at hq
      exact h.unused q ((hs.unused q).mp hq)
  · rcases hq with hq | hq
    · exact h.early q np (Or.inl (hother q _ hq nofun).2)
    · exact h.early q np (Or.inr (hother q _ hq nofun).2)
  · obtain ⟨hqp, hq⟩ := hother q _ hq nofun
    have hnp := h.copied q np hq
    show (exit m.ptable p).parent np = some q
    rw [hparent, hnp, if_neg]
    exact fun heq => hqp (Option.some.inj heq)

/-- `fork` has copied the memory, and `p` is the parent of `np`. -/
theorem kin_copyuvm (hf : Forks m) (h : Kin m) (hp : m.proc p = .stacked np)
    (hactive : (m.ptable.state p).active = true) (hstate : m'.ptable.state = m.ptable.state)
    (hparent : m'.ptable.parent = Function.update m.ptable.parent np (some p))
    (hproc : m'.proc = Function.update m.proc p (.copied np)) : Kin m' := by
  have hchild : (m.proc p).child = some np := congrArg ProcAt.child hp
  have hembryo := (hf.child p np hchild).1
  have hnone := h.early p np (Or.inr hp)
  have hkept : ∀ q, q ≠ np → m'.ptable.parent q = m.ptable.parent q := by
    intro q hq
    rw [hparent, Function.update_of_ne hq]
  have hothers : ∀ q r, q ≠ p → (m.proc q).child = some r → r ≠ np := by
    rintro q r hqp hq rfl
    exact hqp (hf.single q p r hq hchild)
  refine ⟨?_, ?_, fun q hq => ?_, fun q r hq => ?_, fun q hq => ?_, fun q hq hlive => ?_, fun q hq => ?_,
    fun q r hq => ?_, fun q r hq => ?_⟩
  · rw [hstate]
    exact h.init
  · rw [hkept]
    · exact h.orphan
    · intro heq
      have hinit := h.init
      rw [heq, hembryo] at hinit
      cases hinit
  · rw [hproc] at hq
    rcases update_cases hq with ⟨-, hq⟩ | ⟨-, hq⟩
    · cases hq
    · exact h.exits q hq
  · rw [hstate]
    rw [hparent] at hq
    rcases update_cases hq with ⟨-, hq⟩ | ⟨-, hq⟩
    · rw [← Option.some.inj hq]
      exact hactive
    · exact h.parent q r hq
  · rw [hparent] at hq
    rcases update_cases hq with ⟨hqnp, hq⟩ | ⟨-, hq⟩
    · rw [Option.some.inj hq, hqnp, hembryo] at hactive
      cases hactive
    · exact h.irrefl q hq
  · rw [hstate] at hlive
    rw [hkept]
    · exact h.live q hq hlive
    · rintro rfl
      rw [hembryo] at hlive
      cases hlive
  · rw [hstate] at hq
    rw [hkept]
    · exact h.unused q hq
    · rintro rfl
      rw [hembryo] at hq
      cases hq
  · rw [hproc] at hq
    obtain ⟨hqp, hq⟩ : q ≠ p ∧ (m.proc q = .alloced r ∨ m.proc q = .stacked r) := by
      rcases hq with hq | hq
      · rcases update_cases hq with ⟨-, hq⟩ | ⟨hqp, hq⟩
        · cases hq
        · exact ⟨hqp, Or.inl hq⟩
      · rcases update_cases hq with ⟨-, hq⟩ | ⟨hqp, hq⟩
        · cases hq
        · exact ⟨hqp, Or.inr hq⟩
    rw [hkept]
    · exact h.early q r hq
    · rcases hq with hq | hq
      · exact hothers q r hqp (congrArg ProcAt.child hq)
      · exact hothers q r hqp (congrArg ProcAt.child hq)
  · rw [hproc] at hq
    rcases update_cases hq with ⟨hqp, hq⟩ | ⟨hqp, hq⟩
    · cases hq
      rw [hparent, Function.update_self, hqp]
    · rw [hkept r (hothers q r hqp (congrArg ProcAt.child hq))]
      exact h.copied q r hq

/-- The child is a process. -/
theorem kin_fork (h : Kin m) (hp : m.proc p = .copied np)
    (hstate : m'.ptable.state = Function.update m.ptable.state np .runnable)
    (hparent : m'.ptable.parent = m.ptable.parent) (hproc : m'.proc = Function.update m.proc p .out) : Kin m' := by
  have hmore : ∀ q, (m.ptable.state q).active = true → (m'.ptable.state q).active = true := by
    intro q hq
    rw [hstate]
    by_cases hqnp : q = np
    · rw [hqnp, Function.update_self]
      rfl
    · rw [Function.update_of_ne hqnp]
      exact hq
  have hother : ∀ q b, m'.proc q = b → b ≠ .out → m.proc q = b := by
    intro q b hq hb
    rw [hproc] at hq
    rcases update_cases hq with ⟨-, hq⟩ | ⟨-, hq⟩
    · exact absurd hq.symm hb
    · exact hq
  refine ⟨hmore _ h.init, by rw [hparent]; exact h.orphan, fun q hq => h.exits q (hother q _ hq nofun), fun q r hq => ?_,
    fun q => by rw [hparent]; exact h.irrefl q, fun q hq hlive => ?_, fun q hq => ?_, fun q r hq => ?_, fun q r hq => ?_⟩
  · rw [hparent] at hq
    exact hmore r (h.parent q r hq)
  · rw [hparent]
    by_cases hqnp : q = np
    · rw [hqnp, h.copied p np hp]
      exact nofun
    · rw [hstate, Function.update_of_ne hqnp] at hlive
      exact h.live q hq hlive
  · rw [hstate] at hq
    rw [hparent]
    rcases update_cases hq with ⟨-, hq⟩ | ⟨-, hq⟩
    · cases hq
    · exact h.unused q hq
  · rw [hparent]
    exact h.early q r (hq.imp (fun hq => hother q _ hq nofun) fun hq => hother q _ hq nofun)
  · rw [hparent]
    exact h.copied q r (hother q _ hq nofun)

/-- `wait` has reaped `z`, which was nobody's parent. -/
theorem kin_reaps (hf : Forks m) (h : Kin m) (hz : m.ptable.state z = .zombie)
    (hstate : m'.ptable.state = Function.update m.ptable.state z .unused)
    (hparent : m'.ptable.parent = Function.update m.ptable.parent z none)
    (hproc : m'.proc = Function.update m.proc p .out) : Kin m' := by
  have hactive : ∀ q, (m.ptable.state q).active = true → q ≠ z := by
    rintro q hq rfl
    rw [hz] at hq
    cases hq
  have hother : ∀ q b, m'.proc q = b → b ≠ .out → m.proc q = b := by
    intro q b hq hb
    rw [hproc] at hq
    rcases update_cases hq with ⟨-, hq⟩ | ⟨-, hq⟩
    · exact absurd hq.symm hb
    · exact hq
  have hchild : ∀ q np, (m.proc q).child = some np → np ≠ z := by
    rintro q np hq rfl
    rw [(hf.child q np hq).1] at hz
    cases hz
  have hsame : ∀ q, q ≠ z → m'.ptable.state q = m.ptable.state q ∧ m'.ptable.parent q = m.ptable.parent q := by
    intro q hqz
    rw [hstate, hparent, Function.update_of_ne hqz, Function.update_of_ne hqz]
    exact ⟨rfl, rfl⟩
  have hgone : m'.ptable.parent z = none := by
    rw [hparent, Function.update_self]
  refine ⟨?_, ?_, fun q hq => h.exits q (hother q _ hq nofun), fun q r hq => ?_, fun q hq => ?_, fun q hq hlive => ?_,
    fun q hq => ?_, fun q np hq => ?_, fun q np hq => ?_⟩
  · rw [(hsame _ (hactive _ h.init)).1]
    exact h.init
  · rw [(hsame _ (hactive _ h.init)).2]
    exact h.orphan
  · by_cases hqz : q = z
    · rw [hqz, hgone] at hq
      cases hq
    · rw [(hsame q hqz).2] at hq
      have hr := h.parent q r hq
      rw [(hsame r (hactive r hr)).1]
      exact hr
  · by_cases hqz : q = z
    · rw [hqz, hgone] at hq
      cases hq
    · rw [(hsame q hqz).2] at hq
      exact h.irrefl q hq
  · by_cases hqz : q = z
    · rw [hqz, hstate, Function.update_self] at hlive
      cases hlive
    · rw [(hsame q hqz).1] at hlive
      rw [(hsame q hqz).2]
      exact h.live q hq hlive
  · by_cases hqz : q = z
    · rw [hqz]
      exact hgone
    · rw [(hsame q hqz).1] at hq
      rw [(hsame q hqz).2]
      exact h.unused q hq
  · have hq' : m.proc q = .alloced np ∨ m.proc q = .stacked np :=
      hq.imp (fun hq => hother q _ hq nofun) fun hq => hother q _ hq nofun
    have hnpz : np ≠ z := by
      rcases hq' with hq' | hq'
      · exact hchild q np (congrArg ProcAt.child hq')
      · exact hchild q np (congrArg ProcAt.child hq')
    rw [(hsame np hnpz).2]
    exact h.early q np hq'
  · have hq' := hother q _ hq nofun
    rw [(hsame np (hchild q np (congrArg ProcAt.child hq'))).2]
    exact h.copied q np hq'

/-! ## Sleeping in `wait` -/

/-- `p` has reason to sleep in `wait`. -/
structure Awaits (m : Machine C Page) (p : Slot) : Prop where
  inwait : m.proc p = .wait
  alive : m.ptable.killed p = false
  havekids : ∃ z, m.ptable.parent z = some p
  nozombie : ∀ z, m.ptable.parent z = some p → m.ptable.state z ≠ .zombie

theorem Awaits.mono (h : Awaits m p) (hproc : m'.proc p = m.proc p)
    (hkilled : m'.ptable.killed p = m.ptable.killed p)
    (hparent : ∀ z, m'.ptable.parent z = some p ↔ m.ptable.parent z = some p)
    (hzombie : ∀ z, m.ptable.parent z = some p → m'.ptable.state z = .zombie → m.ptable.state z = .zombie) :
    Awaits m' p where
  inwait := hproc.trans h.inwait
  alive := hkilled.trans h.alive
  havekids := by
    obtain ⟨z, hz⟩ := h.havekids
    exact ⟨z, (hparent z).mpr hz⟩
  nozombie z hz hs := h.nozombie z ((hparent z).mp hz) (hzombie z ((hparent z).mp hz) hs)

/-- Who sleeps on a process sleeps in `wait`, on itself. -/
def Waits (m : Machine C Page) : Prop :=
  ∀ p q, m.ptable.state p = .sleeping → m.ptable.chan p = some (.proc q) → q = p ∧ Awaits m p

/-- No child comes or goes, or becomes a zombie. -/
theorem Waits.quiet (h : Waits m)
    (hsleep : ∀ p q, m'.ptable.state p = .sleeping → m'.ptable.chan p = some (.proc q) →
      m.ptable.state p = .sleeping ∧ m.ptable.chan p = some (.proc q) ∧ m'.proc p = m.proc p
        ∧ m'.ptable.killed p = m.ptable.killed p)
    (hparent : m'.ptable.parent = m.ptable.parent)
    (hzombie : ∀ z, m'.ptable.state z = .zombie → m.ptable.state z = .zombie) : Waits m' := by
  intro p q hp hchan
  obtain ⟨hp, hchan, hproc, hkilled⟩ := hsleep p q hp hchan
  obtain ⟨hqp, hawaits⟩ := h p q hp hchan
  exact ⟨hqp, hawaits.mono hproc hkilled (fun z => by rw [hparent]) fun z _ => hzombie z⟩

/-- A slot gets a state in which it neither sleeps nor is a zombie. -/
theorem Waits.update {x : ProcState} {a : ProcAt} (h : Waits m) (hactive : m.ptable.state p ≠ .sleeping)
    (hstate : m'.ptable.state = Function.update m.ptable.state np x) (hx : x ≠ .sleeping) (hxz : x ≠ .zombie)
    (hchan : ∀ q, q ≠ np → m'.ptable.chan q = m.ptable.chan q) (hproc : m'.proc = Function.update m.proc p a)
    (hkilled : m'.ptable.killed = m.ptable.killed) (hparent : m'.ptable.parent = m.ptable.parent) : Waits m' := by
  refine h.quiet (fun q r hq hr => ?_) hparent fun z hz => ?_
  · rw [hstate] at hq
    rcases update_cases hq with ⟨-, hq⟩ | ⟨hqnp, hq⟩
    · exact absurd hq hx
    · have hqp : q ≠ p := by
        rintro rfl
        exact hactive hq
      rw [hchan q hqnp] at hr
      exact ⟨hq, hr, by rw [hproc, Function.update_of_ne hqp], by rw [hkilled]⟩
  · rw [hstate] at hz
    rcases update_cases hz with ⟨-, hz⟩ | ⟨-, hz⟩
    · exact absurd hz hxz
    · exact hz

/-- The running process `p` is at another place. -/
theorem Waits.goto {a : ProcAt} (h : Waits m) (hactive : m.ptable.state p ≠ .sleeping)
    (hstate : m'.ptable.state = m.ptable.state) (hchan : m'.ptable.chan = m.ptable.chan)
    (hproc : m'.proc = Function.update m.proc p a) (hkilled : m'.ptable.killed = m.ptable.killed)
    (hparent : m'.ptable.parent = m.ptable.parent) : Waits m' := by
  refine h.quiet (fun q r hq hr => ?_) hparent fun z hz => ?_
  · rw [hstate] at hq
    rw [hchan] at hr
    have hqp : q ≠ p := by
      rintro rfl
      exact hactive hq
    exact ⟨hq, hr, by rw [hproc, Function.update_of_ne hqp], by rw [hkilled]⟩
  · rwa [hstate] at hz

/-- `p` sleeps, on a channel that is no process, or for good reason. -/
theorem Waits.sleep {chan : Chan} (h : Waits m) (hp : m.ptable.state p ≠ .sleeping)
    (hstate : m'.ptable.state = Function.update m.ptable.state p .sleeping)
    (hchan : m'.ptable.chan = Function.update m.ptable.chan p (some chan)) (hproc : m'.proc = m.proc)
    (hkilled : m'.ptable.killed = m.ptable.killed) (hparent : m'.ptable.parent = m.ptable.parent)
    (hwhy : ∀ q, chan = .proc q → q = p ∧ Awaits m' p) : Waits m' := by
  intro q r hq hr
  rw [hstate] at hq
  rcases update_cases hq with ⟨rfl, -⟩ | ⟨hqp, hq⟩
  · rw [hchan, Function.update_self] at hr
    exact hwhy r (Option.some.inj hr)
  · rw [hchan, Function.update_of_ne hqp] at hr
    obtain ⟨hrq, hawaits⟩ := h q r hq hr
    refine ⟨hrq, hawaits.mono (by rw [hproc]) (by rw [hkilled]) (fun z => by rw [hparent]) fun z _ hz => ?_⟩
    rw [hstate] at hz
    rcases update_cases hz with ⟨-, hz⟩ | ⟨-, hz⟩
    · cases hz
    · exact hz

/-- `exit` wakes whoever may have a zombie child now. -/
theorem waits_exit {c : C} [DecidableEq C] (hk : Kin m) (h : Waits m) :
    Waits { (m.goto p .out).sched c with ptable := exit m.ptable p } := by
  obtain ⟨s, hs, hown, hstate, hparent, hwoken, hinit⟩ := exit_spec m.ptable p
  intro q r hq hr
  change (exit m.ptable p).state q = .sleeping at hq
  change (exit m.ptable p).chan q = some (.proc r) at hr
  rw [hstate] at hq
  rw [hown.chan] at hr
  rcases update_cases hq with ⟨-, hqs⟩ | ⟨hqp, hqs⟩
  · cases hqs
  · obtain ⟨rfl, hawaits⟩ := h q r (hs.sleeping hqs) hr
    have hchild : ∀ z, m.ptable.parent z = some r → (exit m.ptable p).parent z = some r := by
      intro z hz
      rw [hparent, hz, if_neg]
      exact fun heq => hqp (Option.some.inj heq)
    refine ⟨rfl, ?_, ?_, ?_, fun z hz hzs => ?_⟩
    · exact (Function.update_of_ne hqp ..).trans hawaits.inwait
    · show (exit m.ptable p).killed r = false
      rw [hown.killed]
      exact hawaits.alive
    · obtain ⟨z, hz⟩ := hawaits.havekids
      exact ⟨z, hchild z hz⟩
    · change (exit m.ptable p).parent z = some r at hz
      change (exit m.ptable p).state z = .zombie at hzs
      rw [hparent] at hz
      rw [hstate] at hzs
      rcases update_cases hzs with ⟨rfl, -⟩ | ⟨-, hzs⟩
      · -- the zombie is `p`, and its parent was woken
        rw [if_neg (hk.irrefl z)] at hz
        exact hwoken r hz hr hqs
      · have hzs := (hs.zombie z).mp hzs
        split at hz
        · -- the zombie was a child of `p`, and init was woken
          rename_i hzp
          cases hz
          exact hinit z hzp hzs hr hqs
        · exact hawaits.nozombie z hz hzs

/-- `wait` in one process takes no child of another. -/
theorem waits_reaps (h : Waits m) (hp : m.ptable.state p = .running) (hzp : m.ptable.parent z = some p)
    (hstate : m'.ptable.state = Function.update m.ptable.state z .unused) (hchan : m'.ptable.chan = m.ptable.chan)
    (hparent : m'.ptable.parent = Function.update m.ptable.parent z none)
    (hkilled : m'.ptable.killed = Function.update m.ptable.killed z false)
    (hproc : m'.proc = Function.update m.proc p .out) : Waits m' := by
  intro q r hq hr
  rw [hstate] at hq
  rw [hchan] at hr
  rcases update_cases hq with ⟨-, hq⟩ | ⟨hqz, hq⟩
  · cases hq
  · obtain ⟨rfl, hawaits⟩ := h q r hq hr
    have hrp : r ≠ p := by
      rintro rfl
      rw [hp] at hq
      cases hq
    refine ⟨rfl, hawaits.mono ?_ ?_ (fun w => ?_) fun w _ hw => ?_⟩
    · rw [hproc, Function.update_of_ne hrp]
    · rw [hkilled, Function.update_of_ne hqz]
    · rw [hparent]
      by_cases hwz : w = z
      · subst hwz
        rw [Function.update_self, hzp]
        exact iff_of_false nofun fun heq => hrp (Option.some.inj heq).symm
      · rw [Function.update_of_ne hwz]
    · rw [hstate] at hw
      rcases update_cases hw with ⟨-, hw⟩ | ⟨-, hw⟩
      · cases hw
      · exact hw

/-- The process that gets a child is not asleep. -/
theorem waits_copyuvm (h : Waits m) (hp : m.ptable.state p = .running) (hnone : m.ptable.parent np = none)
    (hstate : m'.ptable.state = m.ptable.state) (hchan : m'.ptable.chan = m.ptable.chan)
    (hparent : m'.ptable.parent = Function.update m.ptable.parent np (some p))
    (hkilled : m'.ptable.killed = m.ptable.killed) (hproc : m'.proc = Function.update m.proc p (.copied np)) :
    Waits m' := by
  intro q r hq hr
  rw [hstate] at hq
  rw [hchan] at hr
  obtain ⟨rfl, hawaits⟩ := h q r hq hr
  have hrp : r ≠ p := by
    rintro rfl
    rw [hp] at hq
    cases hq
  refine ⟨rfl, hawaits.mono ?_ (by rw [hkilled]) (fun z => ?_) fun z _ hz => by rwa [hstate] at hz⟩
  · rw [hproc, Function.update_of_ne hrp]
  · rw [hparent]
    by_cases hz : z = np
    · subst hz
      rw [Function.update_self, hnone]
      exact iff_of_false (fun heq => hrp (Option.some.inj heq).symm) nofun
    · rw [Function.update_of_ne hz]

/-! ## A step -/

variable [DecidableEq C] [DecidableEq Page]

theorem kin_step (hc : Cpus m) (hf : Forks m) (h : Kin m) (hstep : m.Step m') : Kin m' := by
  have hembryo : ∀ {p np}, (m.proc p).child = some np → (m.ptable.state np).live = false := fun hp => by
    rw [(hf.child _ _ hp).1]
    rfl
  cases hstep with
  | scheduler c p hidle hp =>
      refine h.quiet rfl (SameKind.update ?_ rfl) h.exits (fun _ _ => id) fun _ _ => id
      rw [hp]
      rfl
  | yield c p hcpu => exact h.quiet rfl (SameKind.update (hc.active hcpu) rfl) h.exits (fun _ _ => id) fun _ _ => id
  | sleep c p n hcpu hp =>
      exact h.quiet rfl (SameKind.update (hc.active hcpu) rfl) h.exits (fun _ _ => id) fun _ _ => id
  | wakeup n => exact h.quiet rfl (wakes_wakeup1 m.ptable _).sameKind h.exits (fun _ _ => id) fun _ _ => id
  | kill n =>
      obtain ⟨s, hs, hkill | ⟨p, -, -, -, hkill⟩⟩ := kill_spec m.ptable n
      · rw [hkill]
        exact h
      · rw [hkill]
        exact h.quiet rfl hs.sameKind h.exits (fun _ _ => id) fun _ _ => id
  | allocproc c p hcpu hp hmax hnp =>
      obtain ⟨hunused, -, rfl⟩ := allocproc_spec hnp
      exact h.slot rfl rfl rfl (by rw [hunused]; rfl) rfl (h.unused _ hunused) (Or.inl rfl)
  | nostack c p hcpu hp =>
      exact h.slot rfl rfl rfl (hembryo (congrArg ProcAt.child hp)) rfl (h.early p _ (Or.inl hp)) (Or.inr rfl)
  | nomem c p hcpu hp hg =>
      exact h.slot rfl rfl rfl (hembryo (congrArg ProcAt.child hp)) rfl (h.early p _ (Or.inr hp)) (Or.inr rfl)
  | @kstack c p np g hcpu hp hg =>
      refine h.quiet rfl (fun _ => SameKind.refl _) (fun q hq => ?_) (fun q r hq => ?_) fun q r hq => ?_
      · change Function.update m.proc p (.stacked np) q = .exits at hq
        by_cases hqp : q = p
        · rw [hqp, Function.update_self] at hq
          cases hq
        · rw [Function.update_of_ne hqp] at hq
          exact h.exits q hq
      · change Function.update m.proc p (.stacked np) q = _ ∨ Function.update m.proc p (.stacked np) q = _ at hq
        by_cases hqp : q = p
        · rw [hqp, Function.update_self] at hq
          rcases hq with hq | hq
          · cases hq
          · cases hq
            rw [hqp]
            exact Or.inl hp
        · rwa [Function.update_of_ne hqp] at hq
      · change Function.update m.proc p (.stacked np) q = _ at hq
        by_cases hqp : q = p
        · rw [hqp, Function.update_self] at hq
          cases hq
        · rwa [Function.update_of_ne hqp] at hq
  | copyuvm c p g hcpu hp hg =>
      exact kin_copyuvm hf h hp (hc.active hcpu) rfl rfl rfl
  | fork c p hcpu hp => exact kin_fork h hp rfl rfl rfl
  | exits c p hcpu hp hinit => exact h.goto rfl rfl rfl rfl fun _ => hinit
  | wait c p hcpu hp => exact h.goto rfl rfl rfl rfl nofun
  | exit c p hcpu hp => exact kin_exit hc h hcpu hp
  | reaps c p hcpu hp hwait hg hd =>
      obtain ⟨-, hz, rfl⟩ := wait_reaps hwait
      exact kin_reaps hf h hz rfl rfl rfl
  | returns c p hcpu hp hwait =>
      rw [wait_returns hwait]
      exact h.goto rfl rfl rfl rfl nofun
  | sleeps c p hcpu hp hwait =>
      obtain ⟨-, -, -, rfl⟩ := wait_sleeps hwait
      exact h.quiet rfl (SameKind.update (hc.active hcpu) rfl) h.exits (fun _ _ => id) fun _ _ => id

theorem waits_step (hc : Cpus m) (hk : Kin m) (h : Waits m) (hstep : m.Step m') : Waits m' := by
  have hrun : ∀ {c p}, m.cpu c = some p → m.ptable.state p ≠ .sleeping := fun hcpu hs => by
    rw [hc.running _ _ hcpu] at hs
    cases hs
  cases hstep with
  | scheduler c p hidle hp =>
      refine h.quiet (fun q r hq hr => ?_) rfl fun z hz => ?_
      · rcases update_cases hq with ⟨-, hq⟩ | ⟨hqp, hq⟩
        · cases hq
        · change Function.update m.ptable.chan p none q = _ at hr
          rw [Function.update_of_ne hqp] at hr
          exact ⟨hq, hr, rfl, rfl⟩
      · rcases update_cases hz with ⟨-, hz⟩ | ⟨-, hz⟩
        · cases hz
        · exact hz
  | yield c p hcpu =>
      refine h.quiet (fun q r hq hr => ?_) rfl fun z hz => ?_
      · rcases update_cases hq with ⟨-, hq⟩ | ⟨-, hq⟩
        · cases hq
        · exact ⟨hq, hr, rfl, rfl⟩
      · rcases update_cases hz with ⟨-, hz⟩ | ⟨-, hz⟩
        · cases hz
        · exact hz
  | sleep c p n hcpu hp => exact h.sleep (hrun hcpu) rfl rfl rfl rfl rfl nofun
  | wakeup n =>
      have hs := wakes_wakeup1 m.ptable (.other n)
      exact h.quiet (fun q r hq hr => ⟨hs.sleeping hq, hr, rfl, rfl⟩) rfl fun z => (hs.zombie z).mp
  | kill n =>
      obtain ⟨s, hs, hkill | ⟨p, -, -, hawake, hkill⟩⟩ := kill_spec m.ptable n
      · rw [hkill]
        exact h
      · rw [hkill]
        refine h.quiet (fun q r hq hr => ⟨hs.sleeping hq, hr, rfl, ?_⟩) rfl fun z => (hs.zombie z).mp
        refine Function.update_of_ne ?_ ..
        rintro rfl
        exact hawake hq
  | allocproc c p hcpu hp hmax hnp =>
      obtain ⟨hunused, -, rfl⟩ := allocproc_spec hnp
      exact h.update (hrun hcpu) rfl nofun nofun (fun _ _ => rfl) rfl rfl rfl
  | nostack c p hcpu hp => exact h.update (hrun hcpu) rfl nofun nofun (fun _ _ => rfl) rfl rfl rfl
  | nomem c p hcpu hp hg => exact h.update (hrun hcpu) rfl nofun nofun (fun _ _ => rfl) rfl rfl rfl
  | fork c p hcpu hp => exact h.update (hrun hcpu) rfl nofun nofun (fun _ _ => rfl) rfl rfl rfl
  | kstack c p g hcpu hp hg => exact h.goto (hrun hcpu) rfl rfl rfl rfl rfl
  | copyuvm c p g hcpu hp hg =>
      exact waits_copyuvm h (hc.running c p hcpu) (hk.early p _ (Or.inr hp)) rfl rfl rfl rfl rfl
  | exits c p hcpu hp hinit => exact h.goto (hrun hcpu) rfl rfl rfl rfl rfl
  | wait c p hcpu hp => exact h.goto (hrun hcpu) rfl rfl rfl rfl rfl
  | exit c p hcpu hp => exact waits_exit hk h
  | reaps c p hcpu hp hwait hg hd =>
      obtain ⟨hzp, hz, rfl⟩ := wait_reaps hwait
      exact waits_reaps h (hc.running c p hcpu) hzp rfl rfl rfl rfl rfl
  | returns c p hcpu hp hwait =>
      rw [wait_returns hwait]
      exact h.goto (hrun hcpu) rfl rfl rfl rfl rfl
  | sleeps c p hcpu hp hwait =>
      obtain ⟨hkilled, hkids, hzombie, rfl⟩ := wait_sleeps hwait
      refine h.sleep (hrun hcpu) rfl rfl rfl rfl rfl fun q hq => ⟨(Chan.proc.inj hq).symm, hp, hkilled, hkids, ?_⟩
      intro z hz hzs
      rcases update_cases hzs with ⟨-, hzs⟩ | ⟨-, hzs⟩
      · cases hzs
      · exact hzombie z hz hzs

end Cs537.Xv6
