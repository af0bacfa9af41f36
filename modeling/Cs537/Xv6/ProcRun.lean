import Cs537.Xv6.Proc

/-!
# Runs of the process table

Four invariants, each kept by every step of every CPU: a process runs on one CPU at most, a
slot is filled in by one `fork`, the parent of a process is a process that has not exited, and
nobody sleeps in `wait` who has a zombie to reap. What the functions do to the table is said
once for each of them; a step then changes one or two slots.
-/

namespace Cs537.Xv6

variable {C Page : Type} {t t' : Ptable Page} {p q r np z : Slot}

/-- It has a parent that will not find it a zombie yet. -/
def ProcState.active : ProcState → Bool
  | .sleeping | .runnable | .running => true
  | _ => false

/-- A process, and not only a slot. -/
def ProcState.live (s : ProcState) : Bool := s.active || s = .zombie

/-! ## What the functions do -/

/-- Some sleepers are woken, and that is all. -/
def Wakes (s s' : Slot → ProcState) : Prop := ∀ p, s' p = s p ∨ s p = .sleeping ∧ s' p = .runnable

variable {s s' s'' : Slot → ProcState} {x : ProcState}

theorem Wakes.refl (s : Slot → ProcState) : Wakes s s := fun _ => Or.inl rfl

theorem Wakes.trans (h : Wakes s s') (h' : Wakes s' s'') : Wakes s s'' := by
  intro p
  rcases h p with hp | ⟨hp, hp'⟩
  · rcases h' p with hq | ⟨hq, hq'⟩
    · exact Or.inl (hq.trans hp)
    · exact Or.inr ⟨hp.symm.trans hq, hq'⟩
  · rcases h' p with hq | ⟨hq, -⟩
    · exact Or.inr ⟨hp, hq.trans hp'⟩
    · rw [hp'] at hq
      cases hq

theorem Wakes.active (h : Wakes s s') (p : Slot) : (s' p).active = (s p).active := by
  rcases h p with hp | ⟨hp, hp'⟩
  · rw [hp]
  · rw [hp, hp']
    rfl

theorem Wakes.iff (h : Wakes s s') (hs : x ≠ .sleeping) (hr : x ≠ .runnable) (p : Slot) : s' p = x ↔ s p = x := by
  rcases h p with hp | ⟨hp, hp'⟩
  · rw [hp]
  · rw [hp, hp']
    exact iff_of_false hr.symm hs.symm

theorem Wakes.running (h : Wakes s s') (p : Slot) : s' p = .running ↔ s p = .running :=
  h.iff (x := .running) nofun nofun p

theorem Wakes.embryo (h : Wakes s s') (p : Slot) : s' p = .embryo ↔ s p = .embryo :=
  h.iff (x := .embryo) nofun nofun p

theorem Wakes.zombie (h : Wakes s s') (p : Slot) : s' p = .zombie ↔ s p = .zombie :=
  h.iff (x := .zombie) nofun nofun p

theorem Wakes.unused (h : Wakes s s') (p : Slot) : s' p = .unused ↔ s p = .unused :=
  h.iff (x := .unused) nofun nofun p

theorem Wakes.sleeping (h : Wakes s s') (hp : s' p = .sleeping) : s p = .sleeping := by
  rcases h p with hp' | ⟨-, hp'⟩
  · rwa [← hp']
  · rw [hp] at hp'
    cases hp'

theorem wakes_wakeup1 (t : Ptable Page) (chan : Chan) : Wakes t.state (wakeup1 t chan).state := by
  intro p
  by_cases h : t.state p = .sleeping ∧ t.chan p = some chan
  · exact Or.inr ⟨h.1, if_pos h⟩
  · exact Or.inl (if_neg h)

theorem wakeup1_awake {chan : Chan} (hchan : t.chan p = some chan) : (wakeup1 t chan).state p ≠ .sleeping := by
  show (if t.state p = .sleeping ∧ t.chan p = some chan then ProcState.runnable else t.state p) ≠ _
  split
  · exact nofun
  · rename_i hnot
    exact fun hs => hnot ⟨hs, hchan⟩

/-- The fields that only `fork`, `wait` and `kill` change. -/
structure SameOwn (t t' : Ptable Page) : Prop where
  pid : t'.pid = t.pid
  chan : t'.chan = t.chan
  killed : t'.killed = t.killed
  kstack : t'.kstack = t.kstack
  pgdir : t'.pgdir = t.pgdir
  nextpid : t'.nextpid = t.nextpid

theorem SameOwn.refl (t : Ptable Page) : SameOwn t t := ⟨rfl, rfl, rfl, rfl, rfl, rfl⟩

/-- The loop of `exit`, for the slots in `qs`. -/
theorem abandon_spec (p : Slot) (qs : List Slot) (t : Ptable Page) :
    let t' := qs.foldl (abandon p) t
    SameOwn t t' ∧ Wakes t.state t'.state
      ∧ (∀ q, t'.parent q = if q ∈ qs ∧ t.parent q = some p then some initproc else t.parent q)
      ∧ ∀ q ∈ qs, t.parent q = some p → t.state q = .zombie → t.chan initproc = some (.proc initproc) →
        t'.state initproc ≠ .sleeping := by
  induction qs generalizing t with
  | nil => exact ⟨SameOwn.refl t, Wakes.refl _, fun q => (if_neg (by simp)).symm, by simp⟩
  | cons q qs ih =>
      obtain ⟨hown, hwakes, hparent, hawake⟩ := ih (abandon p t q)
      -- the turn for `q`
      have hturn : SameOwn t (abandon p t q) ∧ Wakes t.state (abandon p t q).state
          ∧ (abandon p t q).parent = (if t.parent q = some p then
              Function.update t.parent q (some initproc) else t.parent)
          ∧ (t.parent q = some p → t.state q = .zombie → t.chan initproc = some (.proc initproc) →
            (abandon p t q).state initproc ≠ .sleeping) := by
        rw [abandon]
        by_cases hp : t.parent q = some p
        · rw [if_pos hp, if_pos hp]
          dsimp only
          by_cases hz : t.state q = .zombie
          · rw [if_pos hz]
            refine ⟨⟨rfl, rfl, rfl, rfl, rfl, rfl⟩, ?_, rfl, fun _ _ hchan => ?_⟩
            · exact wakes_wakeup1 { t with parent := Function.update t.parent q (some initproc) } _
            · exact wakeup1_awake hchan
          · rw [if_neg hz]
            exact ⟨⟨rfl, rfl, rfl, rfl, rfl, rfl⟩, Wakes.refl _, rfl, fun _ hz' => absurd hz' hz⟩
        · rw [if_neg hp, if_neg hp]
          exact ⟨SameOwn.refl t, Wakes.refl _, rfl, fun hp' => absurd hp' hp⟩
      obtain ⟨hown', hwakes', hparent', hawake'⟩ := hturn
      refine ⟨⟨hown.pid.trans hown'.pid, hown.chan.trans hown'.chan, hown.killed.trans hown'.killed,
        hown.kstack.trans hown'.kstack, hown.pgdir.trans hown'.pgdir, hown.nextpid.trans hown'.nextpid⟩,
        hwakes'.trans hwakes, fun r => ?_, fun r hr hp hz hchan => ?_⟩
      · rw [List.foldl_cons, hparent, hparent']
        by_cases hrq : r = q
        · subst hrq
          by_cases hp : t.parent r = some p
          · simp [hp]
          · simp [hp]
        · by_cases hp : t.parent q = some p
          · rw [if_pos hp, Function.update_of_ne hrq]
            simp [hrq]
          · rw [if_neg hp]
            simp [hrq]
      · rw [List.foldl_cons]
        rcases List.mem_cons.mp hr with rfl | hr
        · exact fun hs => hawake' hp hz hchan (hwakes.sleeping hs)
        · by_cases hrq : r = q
          · subst hrq
            exact fun hs => hawake' hp hz hchan (hwakes.sleeping hs)
          · refine hawake r hr ?_ ((hwakes'.zombie r).mpr hz) (by rw [hown'.chan]; exact hchan)
            rw [hparent']
            split
            · rw [Function.update_of_ne hrq]
              exact hp
            · exact hp

/-- `exit`: the children go to init, and whoever may have a new zombie child is woken. -/
theorem exit_spec (t : Ptable Page) (p : Slot) : ∃ s, Wakes t.state s ∧ SameOwn t (exit t p)
    ∧ (exit t p).state = Function.update s p .zombie
    ∧ (∀ q, (exit t p).parent q = if t.parent q = some p then some initproc else t.parent q)
    ∧ (∀ r, t.parent p = some r → t.chan r = some (.proc r) → s r ≠ .sleeping)
    ∧ ∀ q, t.parent q = some p → t.state q = .zombie → t.chan initproc = some (.proc initproc) →
      s initproc ≠ .sleeping := by
  obtain ⟨hown1, hwakes1, hparent1, hawake1⟩ : SameOwn t (wakeParent t p) ∧ Wakes t.state (wakeParent t p).state
      ∧ (wakeParent t p).parent = t.parent
      ∧ ∀ r, t.parent p = some r → t.chan r = some (.proc r) → (wakeParent t p).state r ≠ .sleeping := by
    unfold wakeParent
    cases hp : t.parent p with
    | none =>
        refine ⟨SameOwn.refl t, Wakes.refl _, rfl, ?_⟩
        intro r hr
        cases hr
    | some q =>
        refine ⟨⟨rfl, rfl, rfl, rfl, rfl, rfl⟩, wakes_wakeup1 t _, rfl, ?_⟩
        intro r hr hchan
        cases hr
        exact wakeup1_awake hchan
  have hspec := abandon_spec p (List.finRange nproc) (wakeParent t p)
  have hexit : exit t p = (let t := (List.finRange nproc).foldl (abandon p) (wakeParent t p)
      { t with state := Function.update t.state p .zombie }) := rfl
  generalize wakeParent t p = t1 at hown1 hwakes1 hparent1 hawake1 hspec hexit
  have hall : ∀ q, q ∈ List.finRange nproc := List.mem_finRange
  generalize List.finRange nproc = qs at hspec hexit hall
  obtain ⟨hown2, hwakes2, hparent2, hawake2⟩ := hspec
  refine ⟨_, hwakes1.trans hwakes2, ?_, congrArg Ptable.state hexit, fun q => ?_, fun r hr hchan hs => ?_,
    fun q hq hz hchan => ?_⟩
  · rw [hexit]
    exact ⟨hown2.pid.trans hown1.pid, hown2.chan.trans hown1.chan, hown2.killed.trans hown1.killed,
      hown2.kstack.trans hown1.kstack, hown2.pgdir.trans hown1.pgdir, hown2.nextpid.trans hown1.nextpid⟩
  · rw [hexit]
    refine (hparent2 q).trans ?_
    simp only [hparent1, hall q, true_and]
  · exact hawake1 r hr hchan (hwakes2.sleeping hs)
  · refine hawake2 q (hall q) (by rw [hparent1]; exact hq) ((hwakes1.zombie q).mpr hz) ?_
    rw [hown1.chan]
    exact hchan

/-- The table is searched from its first slot on. -/
theorem find_first {n : Nat} {f : Fin n → Bool} {i j : Fin n} (h : (List.finRange n).find? f = some i)
    (hj : f j = true) : i ≤ j := by
  obtain ⟨-, xs, ys, hsplit, hbefore⟩ := List.find?_eq_some_iff_append.mp h
  have hsorted := List.pairwise_lt_finRange n
  rw [hsplit, List.pairwise_append, List.pairwise_cons] at hsorted
  have hmem : j ∈ xs ++ i :: ys := hsplit ▸ List.mem_finRange j
  rcases List.mem_append.mp hmem with hxs | hys
  · have hno := hbefore j hxs
    rw [hj] at hno
    cases hno
  · rcases List.mem_cons.mp hys with rfl | hys
    · exact Nat.le_refl _
    · exact Nat.le_of_lt (hsorted.2.1.1 j hys)

theorem allocproc_spec (h : allocproc t = some (np, t')) : t.state np = .unused
    ∧ (∀ q, t.state q = .unused → np ≤ q) ∧ t' = { t with
      state := Function.update t.state np .embryo
      pid := Function.update t.pid np t.nextpid
      nextpid := t.nextpid + 1 } := by
  rw [allocproc] at h
  split at h
  · rename_i p hfind
    cases h
    exact ⟨of_decide_eq_true (List.find?_some hfind :), fun q hq => find_first hfind (decide_eq_true hq), rfl⟩
  · cases h

theorem kill_spec (t : Ptable Page) (n : Nat) : ∃ s, Wakes t.state s ∧ ((kill t n).2 = t
    ∨ ∃ p, t.pid p = n ∧ (∀ q, t.pid q = n → p ≤ q) ∧ s p ≠ .sleeping
      ∧ (kill t n).2 = { t with killed := Function.update t.killed p true, state := s }) := by
  rw [kill]
  split
  · rename_i p hfind
    have hp : t.pid p = n := of_decide_eq_true (List.find?_some hfind :)
    have hfirst : ∀ q, t.pid q = n → p ≤ q := fun q hq => find_first hfind (decide_eq_true hq)
    by_cases hs : t.state p = .sleeping
    · refine ⟨Function.update t.state p .runnable, fun q => ?_, Or.inr ⟨p, hp, hfirst, ?_, ?_⟩⟩
      · by_cases hqp : q = p
        · subst hqp
          rw [Function.update_self]
          exact Or.inr ⟨hs, rfl⟩
        · rw [Function.update_of_ne hqp]
          exact Or.inl rfl
      · rw [Function.update_self]
        exact nofun
      · rw [if_pos hs]
    · exact ⟨t.state, Wakes.refl _, Or.inr ⟨p, hp, hfirst, hs, by rw [if_neg hs]⟩⟩
  · exact ⟨t.state, Wakes.refl _, Or.inl rfl⟩

/-- Pid 0 is the pid of every slot that is free: `kill(0)` finds the one that `allocproc` takes next. -/
theorem allocproc_kill_zero {t t' : Ptable Page} (hpos : ∀ q, t.state q ≠ .unused → t.pid q ≠ 0)
    (hzero : ∀ q, t.state q = .unused → t.pid q = 0) (halloc : allocproc t = some (np, t')) :
    ∃ t'', allocproc (kill t 0).2 = some (np, t'') ∧ t''.killed np = true ∧ t''.state = t'.state
      ∧ t''.pid = t'.pid ∧ t''.parent = t'.parent := by
  obtain ⟨hunused, hfirst, rfl⟩ := allocproc_spec halloc
  have hfind : (List.finRange nproc).find? (fun q => t.pid q = 0) = (List.finRange nproc).find? fun q => t.state q = .unused := by
    refine congrArg (List.find? · _) (funext fun q => decide_eq_decide.mpr ⟨fun hq => ?_, hzero q⟩)
    by_contra hne
    exact hpos q hne hq
  have hnp : (List.finRange nproc).find? (fun q => t.state q = .unused) = some np := by
    rw [allocproc] at halloc
    split at halloc
    · rename_i q hq
      cases halloc
      exact hq
    · cases halloc
  have hkill : (kill t 0).2 = { t with killed := Function.update t.killed np true } := by
    rw [kill, hfind, hnp]
    dsimp only
    rw [if_neg (by rw [hunused]; exact nofun)]
  have halloc' : allocproc (kill t 0).2 = some (np, { t with
      killed := Function.update t.killed np true
      state := Function.update t.state np .embryo
      pid := Function.update t.pid np t.nextpid
      nextpid := t.nextpid + 1 }) := by
    rw [hkill, allocproc]
    dsimp only
    rw [hnp]
  exact ⟨_, halloc', Function.update_self .., rfl, rfl, rfl⟩

theorem wait_reaps (h : wait t p = (.reaps z, t')) : t.parent z = some p ∧ t.state z = .zombie ∧ t' = { t with
    kstack := Function.update t.kstack z none
    state := Function.update t.state z .unused
    pid := Function.update t.pid z 0
    parent := Function.update t.parent z none
    killed := Function.update t.killed z false } := by
  rw [wait] at h
  split at h
  · rename_i z' hfind
    cases h
    have hz := List.find?_some hfind
    rw [Bool.and_eq_true, decide_eq_true_eq, decide_eq_true_eq] at hz
    exact ⟨hz.1, hz.2, rfl⟩
  · split at h
    · cases h
    · cases h

theorem wait_returns (h : wait t p = (.returns, t')) : t' = t := by
  rw [wait] at h
  split at h
  · cases h
  · split at h
    · cases h
      rfl
    · cases h

theorem wait_sleeps (h : wait t p = (.sleeps, t')) : t.killed p = false ∧ (∃ q, t.parent q = some p)
    ∧ (∀ q, t.parent q = some p → t.state q ≠ .zombie) ∧ t' = { t with
      chan := Function.update t.chan p (some (.proc p))
      state := Function.update t.state p .sleeping } := by
  rw [wait] at h
  split at h
  · cases h
  · rename_i hnone
    split at h
    · cases h
    · rename_i hgo
      cases h
      rw [not_or, List.all_eq_true] at hgo
      obtain ⟨hkids, hkilled⟩ := hgo
      refine ⟨Bool.eq_false_iff.mpr hkilled, ?_, fun q hq hz => ?_, rfl⟩
      · by_contra hno
        exact hkids fun q _ => decide_eq_true fun hq => hno ⟨q, hq⟩
      · have hzq := List.find?_eq_none.mp hnone q (List.mem_finRange q)
        rw [Bool.and_eq_true, decide_eq_true_eq, decide_eq_true_eq] at hzq
        exact hzq ⟨hq, hz⟩

/-! ## Which CPU runs what -/

variable {m m' : Machine C Page} {c d : C} {a : ProcAt}

/-- The running processes are those of the CPUs, one each. -/
structure Cpus (m : Machine C Page) : Prop where
  running : ∀ c p, m.cpu c = some p → m.ptable.state p = .running
  oncpu : ∀ p, m.ptable.state p = .running → ∃ c, m.cpu c = some p
  single : ∀ c d p, m.cpu c = some p → m.cpu d = some p → c = d

theorem Cpus.active (h : Cpus m) (hc : m.cpu c = some p) : (m.ptable.state p).active = true := by
  rw [h.running c p hc]
  rfl

theorem Cpus.quiet (h : Cpus m) (hcpu : m'.cpu = m.cpu)
    (hstate : ∀ q, m'.ptable.state q = .running ↔ m.ptable.state q = .running) : Cpus m' where
  running c p hc := by
    rw [hcpu] at hc
    exact (hstate p).mpr (h.running c p hc)
  oncpu p hp := by
    rw [hcpu]
    exact h.oncpu p ((hstate p).mp hp)
  single c d p hc hd := by
    rw [hcpu] at hc hd
    exact h.single c d p hc hd

/-- The slot neither was nor is running. -/
theorem update_running_iff (hold : s p ≠ .running) (hx : x ≠ .running) (q : Slot) :
    Function.update s p x q = .running ↔ s q = .running := by
  by_cases hqp : q = p
  · subst hqp
    rw [Function.update_self]
    exact iff_of_false hx hold
  · rw [Function.update_of_ne hqp]

/-! ## Who fills in which slot -/

/-- The slot that a process in `fork` fills in. -/
def ProcAt.child : ProcAt → Option Slot
  | .alloced np | .stacked np | .copied np => some np
  | .out | .wait | .exits => none

structure Forks (m : Machine C Page) : Prop where
  active : ∀ p, m.proc p ≠ .out → (m.ptable.state p).active = true
  child : ∀ p np, (m.proc p).child = some np → m.ptable.state np = .embryo ∧ m.ptable.state p ≠ .sleeping
  single : ∀ p q np, (m.proc p).child = some np → (m.proc q).child = some np → p = q
  embryo : ∀ np, m.ptable.state np = .embryo → ∃ p, (m.proc p).child = some np

/-- Nobody goes on in `fork`. -/
theorem Forks.quiet (h : Forks m) (hproc : m'.proc = m.proc)
    (hembryo : ∀ q, m'.ptable.state q = .embryo ↔ m.ptable.state q = .embryo)
    (hactive : ∀ q, m.proc q ≠ .out → (m.ptable.state q).active = true → (m'.ptable.state q).active = true)
    (hsleeping : ∀ q np, (m.proc q).child = some np → m'.ptable.state q = .sleeping → m.ptable.state q = .sleeping) :
    Forks m' where
  active q hq := by
    rw [hproc] at hq
    exact hactive q hq (h.active q hq)
  child q np hq := by
    rw [hproc] at hq
    obtain ⟨hnp, hq'⟩ := h.child q np hq
    exact ⟨(hembryo np).mpr hnp, fun hs => hq' (hsleeping q np hq hs)⟩
  single q r np hq hr := by
    rw [hproc] at hq hr
    exact h.single q r np hq hr
  embryo np hnp := by
    rw [hproc]
    exact h.embryo np ((hembryo np).mp hnp)

/-- A process outside `fork` goes elsewhere outside it. -/
theorem Forks.goto (h : Forks m) (hproc : m'.proc = Function.update m.proc p a) (hp : (m.proc p).child = none)
    (ha : a.child = none) (hembryo : ∀ q, m'.ptable.state q = .embryo ↔ m.ptable.state q = .embryo)
    (hpactive : a ≠ .out → (m'.ptable.state p).active = true)
    (hactive : ∀ q, q ≠ p → (m.ptable.state q).active = true → (m'.ptable.state q).active = true)
    (hsleeping : ∀ q, m'.ptable.state q = .sleeping → m.ptable.state q = .sleeping) : Forks m' := by
  have hchild : ∀ q, (m'.proc q).child = (m.proc q).child := by
    intro q
    rw [hproc]
    by_cases hqp : q = p
    · subst hqp
      rw [Function.update_self, ha, hp]
    · rw [Function.update_of_ne hqp]
  refine ⟨fun q hq => ?_, fun q np hq => ?_, fun q r np hq hr => ?_, fun np hnp => ?_⟩
  · rw [hproc] at hq
    by_cases hqp : q = p
    · subst hqp
      rw [Function.update_self] at hq
      exact hpactive hq
    · rw [Function.update_of_ne hqp] at hq
      exact hactive q hqp (h.active q hq)
  · rw [hchild] at hq
    obtain ⟨hnp, hs⟩ := h.child q np hq
    exact ⟨(hembryo np).mpr hnp, fun hs' => hs (hsleeping q hs')⟩
  · rw [hchild] at hq hr
    exact h.single q r np hq hr
  · obtain ⟨q, hq⟩ := h.embryo np ((hembryo np).mp hnp)
    exact ⟨q, (hchild q).trans hq⟩

/-- `fork` goes on with the same slot. -/
theorem Forks.on (h : Forks m) (hproc : m'.proc = Function.update m.proc p a) (hp : (m.proc p).child = some np)
    (ha : a.child = some np) (hstate : m'.ptable.state = m.ptable.state) : Forks m' := by
  have hchild : ∀ q, (m'.proc q).child = (m.proc q).child := by
    intro q
    rw [hproc]
    by_cases hqp : q = p
    · subst hqp
      rw [Function.update_self, ha, hp]
    · rw [Function.update_of_ne hqp]
  refine ⟨fun q hq => ?_, fun q r hq => ?_, fun q r n hq hr => ?_, fun r hr => ?_⟩
  · rw [hstate]
    refine h.active q fun hout => ?_
    by_cases hqp : q = p
    · rw [hqp] at hout
      rw [hout] at hp
      cases hp
    · rw [hproc, Function.update_of_ne hqp] at hq
      exact hq hout
  · rw [hchild] at hq
    rw [hstate]
    exact h.child q r hq
  · rw [hchild] at hq hr
    exact h.single q r n hq hr
  · rw [hstate] at hr
    obtain ⟨q, hq⟩ := h.embryo r hr
    exact ⟨q, (hchild q).trans hq⟩

/-- `fork` gives its slot up, or hands it over. -/
theorem Forks.leave (h : Forks m) (hproc : m'.proc = Function.update m.proc p .out) (hp : (m.proc p).child = some np)
    (hstate : m'.ptable.state = Function.update m.ptable.state np x) (hx : x ≠ .embryo)
    (hxs : x ≠ .sleeping) : Forks m' := by
  have hnp := (h.child p np hp).1
  have hother : ∀ q r, (m'.proc q).child = some r → q ≠ p ∧ r ≠ np ∧ (m.proc q).child = some r := by
    intro q r hq
    rw [hproc] at hq
    have hqp : q ≠ p := by
      rintro rfl
      rw [Function.update_self] at hq
      cases hq
    rw [Function.update_of_ne hqp] at hq
    refine ⟨hqp, ?_, hq⟩
    rintro rfl
    exact hqp (h.single q p r hq hp)
  refine ⟨fun q hq => ?_, fun q r hq => ?_, fun q r n hq hr => ?_, fun r hr => ?_⟩
  · have hqp : q ≠ p := by
      rintro rfl
      rw [hproc, Function.update_self] at hq
      exact hq rfl
    rw [hproc, Function.update_of_ne hqp] at hq
    have hactive := h.active q hq
    rw [hstate, Function.update_of_ne]
    · exact hactive
    · rintro rfl
      rw [hnp] at hactive
      cases hactive
  · obtain ⟨hqp, hrnp, hq⟩ := hother q r hq
    obtain ⟨hr, hs⟩ := h.child q r hq
    rw [hstate, Function.update_of_ne hrnp]
    refine ⟨hr, ?_⟩
    by_cases hqnp : q = np
    · rw [hqnp, Function.update_self]
      exact hxs
    · rw [Function.update_of_ne hqnp]
      exact hs
  · exact h.single q r n (hother q n hq).2.2 (hother r n hr).2.2
  · rw [hstate] at hr
    have hrnp : r ≠ np := by
      rintro rfl
      rw [Function.update_self] at hr
      exact hx hr
    rw [Function.update_of_ne hrnp] at hr
    obtain ⟨q, hq⟩ := h.embryo r hr
    refine ⟨q, ?_⟩
    rw [hproc, Function.update_of_ne]
    · exact hq
    · rintro rfl
      rw [hp] at hq
      exact hrnp (Option.some.inj hq).symm

/-- Only the process `p` changes its state, and still is a process. -/
theorem Forks.moves (h : Forks m) (hp : (m.ptable.state p).active = true) (hproc : m'.proc = m.proc)
    (hstate : m'.ptable.state = Function.update m.ptable.state p x) (hx : x.active = true)
    (hs : x = .sleeping → (m.proc p).child = none) : Forks m' := by
  refine h.quiet hproc (fun q => ?_) (fun q _ hq => ?_) (fun q np hq hsleeping => ?_)
  · rw [hstate]
    by_cases hqp : q = p
    · subst hqp
      rw [Function.update_self]
      refine iff_of_false ?_ ?_
      · rintro rfl
        cases hx
      · intro he
        rw [he] at hp
        cases hp
    · rw [Function.update_of_ne hqp]
  · rw [hstate]
    by_cases hqp : q = p
    · rw [hqp, Function.update_self]
      exact hx
    · rw [Function.update_of_ne hqp]
      exact hq
  · rw [hstate] at hsleeping
    by_cases hqp : q = p
    · rw [hqp, Function.update_self] at hsleeping
      rw [hqp, hs hsleeping] at hq
      cases hq
    · rwa [Function.update_of_ne hqp] at hsleeping

/-! ## A step -/

variable [DecidableEq C]

/-- A process leaves its CPU. -/
theorem Cpus.off (h : Cpus m) (hc : m.cpu c = some p) (hcpu : m'.cpu = Function.update m.cpu c none)
    (hp : m'.ptable.state p ≠ .running)
    (hstate : ∀ q, q ≠ p → (m'.ptable.state q = .running ↔ m.ptable.state q = .running)) : Cpus m' := by
  have hother : ∀ d q, m'.cpu d = some q → m.cpu d = some q ∧ d ≠ c ∧ q ≠ p := by
    intro d q hd
    rw [hcpu] at hd
    have hdc : d ≠ c := by
      rintro rfl
      rw [Function.update_self] at hd
      cases hd
    rw [Function.update_of_ne hdc] at hd
    refine ⟨hd, hdc, ?_⟩
    rintro rfl
    exact hdc (h.single d c q hd hc)
  refine ⟨fun d q hd => ?_, fun q hq => ?_, fun d e q hd he => ?_⟩
  · obtain ⟨hd, -, hqp⟩ := hother d q hd
    exact (hstate q hqp).mpr (h.running d q hd)
  · have hqp : q ≠ p := by
      rintro rfl
      exact hp hq
    obtain ⟨d, hd⟩ := h.oncpu q ((hstate q hqp).mp hq)
    refine ⟨d, ?_⟩
    rw [hcpu, Function.update_of_ne]
    · exact hd
    · rintro rfl
      rw [hc] at hd
      exact hqp (Option.some.inj hd).symm
  · exact h.single d e q (hother d q hd).1 (hother e q he).1

variable [DecidableEq Page]

theorem cpus_step (hf : Forks m) (h : Cpus m) (hstep : m.Step m') : Cpus m' := by
  have hembryo : ∀ {p np}, (m.proc p).child = some np → m.ptable.state np ≠ .running := fun hp hr => by
    rw [(hf.child _ _ hp).1] at hr
    cases hr
  cases hstep with
  | scheduler c p hc hp =>
      have hidle : ∀ d, m.cpu d ≠ some p := by
        intro d hd
        rw [h.running d p hd] at hp
        cases hp
      refine ⟨fun d q hd => ?_, fun q hq => ?_, fun d e q hd he => ?_⟩
      · change Function.update m.cpu c (some p) d = some q at hd
        show Function.update m.ptable.state p .running q = .running
        by_cases hqp : q = p
        · rw [hqp, Function.update_self]
        · rw [Function.update_of_ne hqp]
          have hdc : d ≠ c := by
            rintro rfl
            rw [Function.update_self] at hd
            exact hqp (Option.some.inj hd).symm
          rw [Function.update_of_ne hdc] at hd
          exact h.running d q hd
      · change Function.update m.ptable.state p .running q = .running at hq
        show ∃ d, Function.update m.cpu c (some p) d = some q
        by_cases hqp : q = p
        · exact ⟨c, by rw [hqp, Function.update_self]⟩
        · rw [Function.update_of_ne hqp] at hq
          obtain ⟨d, hd⟩ := h.oncpu q hq
          refine ⟨d, ?_⟩
          rw [Function.update_of_ne]
          · exact hd
          · rintro rfl
            rw [hc] at hd
            cases hd
      · change Function.update m.cpu c (some p) d = some q at hd
        change Function.update m.cpu c (some p) e = some q at he
        by_cases hqp : q = p
        · have honly : ∀ f, Function.update m.cpu c (some p) f = some q → f = c := by
            intro f hf
            by_contra hfc
            rw [Function.update_of_ne hfc, hqp] at hf
            exact hidle f hf
          rw [honly d hd, honly e he]
        · have hold : ∀ f, Function.update m.cpu c (some p) f = some q → m.cpu f = some q := by
            intro f hf
            have hfc : f ≠ c := by
              rintro rfl
              rw [Function.update_self] at hf
              exact hqp (Option.some.inj hf).symm
            rwa [Function.update_of_ne hfc] at hf
          exact h.single d e q (hold d hd) (hold e he)
  | yield c p hc =>
      refine h.off hc rfl ?_ fun q hqp => ?_
      · exact ne_of_eq_of_ne (Function.update_self ..) nofun
      · exact iff_of_eq (congrArg (· = ProcState.running) (Function.update_of_ne hqp ..))
  | sleep c p n hc hp =>
      refine h.off hc rfl ?_ fun q hqp => ?_
      · exact ne_of_eq_of_ne (Function.update_self ..) nofun
      · exact iff_of_eq (congrArg (· = ProcState.running) (Function.update_of_ne hqp ..))
  | wakeup n => exact h.quiet rfl (wakes_wakeup1 _ _).running
  | kill n =>
      obtain ⟨s, hs, hkill | ⟨p, -, -, -, hkill⟩⟩ := kill_spec m.ptable n
      · exact h.quiet rfl fun q => by rw [hkill]
      · refine h.quiet rfl fun q => ?_
        rw [hkill]
        exact hs.running q
  | allocproc c p hc hp hmax hnp =>
      obtain ⟨hunused, -, rfl⟩ := allocproc_spec hnp
      exact h.quiet rfl (update_running_iff (by rw [hunused]; exact nofun) nofun)
  | nostack c p hc hp => exact h.quiet rfl (update_running_iff (hembryo (congrArg ProcAt.child hp)) nofun)
  | nomem c p hc hp hg => exact h.quiet rfl (update_running_iff (hembryo (congrArg ProcAt.child hp)) nofun)
  | fork c p hc hp => exact h.quiet rfl (update_running_iff (hembryo (congrArg ProcAt.child hp)) nofun)
  | kstack | copyuvm | exits | wait => exact h.quiet rfl fun _ => Iff.rfl
  | exit c p hc hp =>
      obtain ⟨s, hs, -, hstate, -⟩ := exit_spec m.ptable p
      refine h.off hc rfl ?_ fun q hqp => ?_
      · show (exit m.ptable p).state p ≠ _
        rw [hstate, Function.update_self]
        exact nofun
      · show (exit m.ptable p).state q = _ ↔ _
        rw [hstate, Function.update_of_ne hqp]
        exact hs.running q
  | reaps c p hc hp hwait hg hd =>
      obtain ⟨-, hz, rfl⟩ := wait_reaps hwait
      exact h.quiet rfl (update_running_iff (by rw [hz]; exact nofun) nofun)
  | returns c p hc hp hwait =>
      rw [wait_returns hwait]
      exact h.quiet rfl fun _ => Iff.rfl
  | sleeps c p hc hp hwait =>
      obtain ⟨-, -, -, rfl⟩ := wait_sleeps hwait
      refine h.off hc rfl ?_ fun q hqp => ?_
      · exact ne_of_eq_of_ne (Function.update_self ..) nofun
      · exact iff_of_eq (congrArg (· = ProcState.running) (Function.update_of_ne hqp ..))

theorem forks_step (hc : Cpus m) (h : Forks m) (hstep : m.Step m') : Forks m' := by
  cases hstep with
  | scheduler c p hidle hp =>
      refine h.moves (p := p) ?_ rfl rfl rfl nofun
      rw [hp]
      rfl
  | yield c p hcpu => exact h.moves (hc.active hcpu) rfl rfl rfl nofun
  | sleep c p n hcpu hp =>
      refine h.moves (hc.active hcpu) rfl rfl rfl fun _ => ?_
      rcases hp with hp | hp
      · rw [hp]
        rfl
      · rw [hp]
        rfl
  | wakeup n =>
      have hs := wakes_wakeup1 m.ptable (.other n)
      exact h.quiet rfl hs.embryo (fun q _ hq => (hs.active q).trans hq) fun q _ _ => hs.sleeping
  | kill n =>
      obtain ⟨s, hs, hkill | ⟨p, -, -, -, hkill⟩⟩ := kill_spec m.ptable n
      · exact h.quiet rfl (fun q => by rw [hkill]) (fun q _ hq => by rw [hkill]; exact hq)
          fun q _ _ hq => by rwa [hkill] at hq
      · refine h.quiet rfl (fun q => ?_) (fun q _ hq => ?_) fun q _ _ hq => ?_
        · rw [hkill]
          exact hs.embryo q
        · rw [hkill]
          exact (hs.active q).trans hq
        · rw [hkill] at hq
          exact hs.sleeping hq
  | @allocproc c p np t hcpu hp hmax hnp =>
      obtain ⟨hunused, -, rfl⟩ := allocproc_spec hnp
      have hpr := hc.running c p hcpu
      have hne : ∀ r x, m.ptable.state r = x → x ≠ .unused → r ≠ np := by
        rintro r x hr hx rfl
        exact hx (hr.symm.trans hunused)
      refine ⟨fun q hq => ?_, fun q r hq => ?_, fun q r n hq hr => ?_, fun r hr => ?_⟩
      · change Function.update m.proc p (.alloced np) q ≠ .out at hq
        show (Function.update m.ptable.state np .embryo q).active = true
        by_cases hqp : q = p
        · rw [hqp, Function.update_of_ne (hne p _ hpr nofun), hpr]
          rfl
        · rw [Function.update_of_ne hqp] at hq
          have hactive := h.active q hq
          rw [Function.update_of_ne]
          · exact hactive
          · rintro rfl
            rw [hunused] at hactive
            cases hactive
      · change (Function.update m.proc p (.alloced np) q).child = some r at hq
        show Function.update m.ptable.state np .embryo r = .embryo ∧ Function.update m.ptable.state np .embryo q ≠ _
        by_cases hqp : q = p
        · rw [hqp, Function.update_self] at hq
          cases hq
          rw [Function.update_self, hqp, Function.update_of_ne (hne p _ hpr nofun), hpr]
          exact ⟨rfl, nofun⟩
        · rw [Function.update_of_ne hqp] at hq
          obtain ⟨hr, hs⟩ := h.child q r hq
          rw [Function.update_of_ne (hne r _ hr nofun)]
          refine ⟨hr, ?_⟩
          by_cases hqnp : q = np
          · rw [hqnp, Function.update_self]
            exact nofun
          · rw [Function.update_of_ne hqnp]
            exact hs
      · change (Function.update m.proc p (.alloced np) q).child = some n at hq
        change (Function.update m.proc p (.alloced np) r).child = some n at hr
        -- an older `fork` has another slot
        have hold : ∀ q', q' ≠ p → (m.proc q').child = some n → n ≠ np :=
          fun q' _ hq' => hne n _ (h.child q' n hq').1 nofun
        by_cases hqp : q = p
        · by_cases hrp : r = p
          · rw [hqp, hrp]
          · rw [hqp, Function.update_self] at hq
            rw [Function.update_of_ne hrp] at hr
            exact absurd (Option.some.inj hq).symm (hold r hrp hr)
        · rw [Function.update_of_ne hqp] at hq
          by_cases hrp : r = p
          · rw [hrp, Function.update_self] at hr
            exact absurd (Option.some.inj hr).symm (hold q hqp hq)
          · rw [Function.update_of_ne hrp] at hr
            exact h.single q r n hq hr
      · change Function.update m.ptable.state np .embryo r = .embryo at hr
        show ∃ q, (Function.update m.proc p (.alloced np) q).child = some r
        by_cases hrnp : r = np
        · exact ⟨p, by rw [Function.update_self, hrnp]; rfl⟩
        · rw [Function.update_of_ne hrnp] at hr
          obtain ⟨q, hq⟩ := h.embryo r hr
          refine ⟨q, ?_⟩
          rw [Function.update_of_ne]
          · exact hq
          · rintro rfl
            rw [hp] at hq
            cases hq
  | nostack c p hcpu hp => exact h.leave rfl (congrArg ProcAt.child hp) rfl nofun nofun
  | nomem c p hcpu hp hg => exact h.leave rfl (congrArg ProcAt.child hp) rfl nofun nofun
  | fork c p hcpu hp => exact h.leave rfl (congrArg ProcAt.child hp) rfl nofun nofun
  | kstack c p g hcpu hp hg => exact h.on rfl (congrArg ProcAt.child hp) rfl rfl
  | copyuvm c p g hcpu hp hg => exact h.on rfl (congrArg ProcAt.child hp) rfl rfl
  | exits c p hcpu hp hinit =>
      refine h.goto rfl (congrArg ProcAt.child hp) rfl (fun _ => Iff.rfl) (fun _ => ?_) (fun _ _ hq => hq) fun _ hq => hq
      rw [show (m.goto p .exits).ptable.state p = _ from hc.running c p hcpu]
      rfl
  | wait c p hcpu hp =>
      refine h.goto rfl (congrArg ProcAt.child hp) rfl (fun _ => Iff.rfl) (fun _ => ?_) (fun _ _ hq => hq) fun _ hq => hq
      rw [show (m.goto p .wait).ptable.state p = _ from hc.running c p hcpu]
      rfl
  | exit c p hcpu hp =>
      obtain ⟨s, hs, -, hstate, -⟩ := exit_spec m.ptable p
      have hpr := hc.running c p hcpu
      refine h.goto rfl (congrArg ProcAt.child hp) rfl (fun q => ?_) (fun hout => absurd rfl hout) (fun q hqp hq => ?_)
        fun q hq => ?_
      · show (exit m.ptable p).state q = _ ↔ _
        rw [hstate]
        by_cases hqp : q = p
        · rw [hqp, Function.update_self, hpr]
          exact iff_of_false nofun nofun
        · rw [Function.update_of_ne hqp]
          exact hs.embryo q
      · show ((exit m.ptable p).state q).active = true
        rw [hstate, Function.update_of_ne hqp]
        exact (hs.active q).trans hq
      · change (exit m.ptable p).state q = .sleeping at hq
        rw [hstate] at hq
        by_cases hqp : q = p
        · rw [hqp, Function.update_self] at hq
          cases hq
        · rw [Function.update_of_ne hqp] at hq
          exact hs.sleeping hq
  | @reaps c p z t g d hcpu hp hwait hg hd =>
      obtain ⟨-, hz, rfl⟩ := wait_reaps hwait
      refine h.goto rfl (congrArg ProcAt.child hp) rfl (fun q => ?_) (fun hout => absurd rfl hout) (fun q _ hq => ?_)
        fun q hq => ?_
      · show Function.update m.ptable.state z .unused q = _ ↔ _
        by_cases hqz : q = z
        · rw [hqz, Function.update_self, hz]
          exact iff_of_false nofun nofun
        · rw [Function.update_of_ne hqz]
      · show (Function.update m.ptable.state z .unused q).active = true
        rw [Function.update_of_ne]
        · exact hq
        · rintro rfl
          rw [hz] at hq
          cases hq
      · change Function.update m.ptable.state z .unused q = .sleeping at hq
        by_cases hqz : q = z
        · rw [hqz, Function.update_self] at hq
          cases hq
        · rwa [Function.update_of_ne hqz] at hq
  | returns c p hcpu hp hwait =>
      rw [wait_returns hwait]
      exact h.goto rfl (congrArg ProcAt.child hp) rfl (fun _ => Iff.rfl) (fun hout => absurd rfl hout) (fun _ _ hq => hq)
        fun _ hq => hq
  | sleeps c p hcpu hp hwait =>
      obtain ⟨-, -, -, rfl⟩ := wait_sleeps hwait
      refine h.moves (hc.active hcpu) rfl rfl rfl fun _ => ?_
      rw [hp]
      rfl

end Cs537.Xv6
