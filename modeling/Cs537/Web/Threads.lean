import Cs537.Web.Model
import Cs537.Lib.Count

/-!
# The threads of `server.c` and their condition variables

`Web/Model.lean` takes a critical section as one step. Here the mutex and the two
condition variables are explicit: every call of `Pthread.c` is a step of its own, and
so is the code between two of them, which runs while its thread holds the mutex.

The condition variables are those of POSIX. `Pthread_cond_wait` gives the mutex up and
falls asleep in one step; `Pthread_cond_signal` wakes one sleeper if there is one and is
forgotten if there is none; a sleeper may also wake up for no reason; and whoever wakes
up has to get the mutex back and looks at `numfull` again.

The question is whether one signal per request is enough. A worker that was never asleep
may take the request another one was woken for, but then it was on its way to `numfull`
itself, and is so no longer: the number of workers on their way goes down with `numfull`.
-/

namespace Cs537.Web

open Lib

/-- Where `main` is in its loop. -/
inductive MainAt where
  /-- In `Accept`. -/
  | accept
  | lock
  /-- Has the mutex, at `while(numfull == size)`. -/
  | check
  /-- In `Pthread_cond_wait(&cond_empty, …)`, not woken. -/
  | asleep
  /-- In `Pthread_cond_wait(&cond_empty, …)`, woken and without the mutex. -/
  | woken
  /-- Has the mutex and has filled a slot, at `Pthread_cond_signal(&cond_full)`. -/
  | signal
  | unlock
deriving DecidableEq

/-- Where a worker is in its loop. -/
inductive WorkerAt where
  | lock
  /-- Has the mutex, at `while(numfull == 0)`. -/
  | check
  /-- In `Pthread_cond_wait(&cond_full, …)`, not woken. -/
  | asleep
  /-- In `Pthread_cond_wait(&cond_full, …)`, woken and without the mutex. -/
  | woken
  /-- Has the mutex and has taken a request, at `Pthread_cond_signal(&cond_empty)`. -/
  | signal (info : HttpInfo)
  | unlock (info : HttpInfo)
  /-- In `requestHandle` and `Close`. -/
  | handle (info : HttpInfo)
deriving DecidableEq

/-- The threads of the process. -/
inductive Thread (workers : Nat) where
  | main
  | worker (k : Fin workers)
deriving DecidableEq

/-- The queue, where everyone is, and who has the mutex. -/
structure Threads (workers : Nat) where
  world : World workers
  main : MainAt
  worker : Fin workers → WorkerAt
  mutex : Option (Thread workers)

variable {workers size : Nat} {mode : Mode} {t t' : Threads workers}

/-- Worker `k` gets to `a`, and the mutex to `m`. -/
def Threads.move (t : Threads workers) (k : Fin workers) (a : WorkerAt) (m : Option (Thread workers)) :
    Threads workers :=
  { t with worker := Function.update t.worker k a, mutex := m }

/-- `Pthread_cond_signal(&cond_empty)`: only `main` waits for it. -/
def MainAt.signalled : MainAt → MainAt
  | .asleep => .woken
  | a => a

/-- One step of one thread. -/
inductive Threads.Step : Threads workers → Threads workers → Prop where
  | mainAccept {t : Threads workers} : t.main = .accept → Step t { t with main := .lock }
  | mainLock {t : Threads workers} : t.main = .lock → t.mutex = none →
      Step t { t with main := .check, mutex := some .main }
  | mainWait {t : Threads workers} : t.main = .check → t.world.server.numfull = t.world.server.size →
      Step t { t with main := .asleep, mutex := none }
  | mainSpurious {t : Threads workers} : t.main = .asleep → Step t { t with main := .woken }
  | mainRelock {t : Threads workers} : t.main = .woken → t.mutex = none →
      Step t { t with main := .check, mutex := some .main }
  | mainFill {t : Threads workers} {stat : Stat} {info : HttpInfo} {s : Server} :
      t.main = .check → Enqueue stat info t.world.server s →
      Step t { t with
        main := .signal
        world := { t.world with server := s, accepted := t.world.accepted ++ [info] } }
  | mainSignal {t : Threads workers} {k : Fin workers} : t.main = .signal → t.worker k = .asleep →
      Step t { t.move k .woken t.mutex with main := .unlock }
  | mainSignalNone {t : Threads workers} : t.main = .signal → (∀ k, t.worker k ≠ .asleep) →
      Step t { t with main := .unlock }
  | mainUnlock {t : Threads workers} : t.main = .unlock → Step t { t with main := .accept, mutex := none }
  | lock {t : Threads workers} (k : Fin workers) : t.worker k = .lock → t.mutex = none →
      Step t (t.move k .check (some (.worker k)))
  | wait {t : Threads workers} (k : Fin workers) : t.worker k = .check → t.world.server.numfull = 0 →
      Step t (t.move k .asleep none)
  | spurious {t : Threads workers} (k : Fin workers) : t.worker k = .asleep →
      Step t (t.move k .woken t.mutex)
  | relock {t : Threads workers} (k : Fin workers) : t.worker k = .woken → t.mutex = none →
      Step t (t.move k .check (some (.worker k)))
  | take {t : Threads workers} (k : Fin workers) {stat : Stat} {info : HttpInfo} {s : Server} :
      t.worker k = .check → Dequeue stat t.world.server info s →
      Step t { t.move k (.signal info) t.mutex with
        world := { t.world with server := s, taken := t.world.taken ++ [(k, info)] } }
  | signal {t : Threads workers} (k : Fin workers) {info : HttpInfo} : t.worker k = .signal info →
      Step t { t.move k (.unlock info) t.mutex with main := t.main.signalled }
  | unlock {t : Threads workers} (k : Fin workers) {info : HttpInfo} : t.worker k = .unlock info →
      Step t (t.move k (.handle info) none)
  | done {t : Threads workers} (k : Fin workers) {info : HttpInfo} : t.worker k = .handle info →
      Step t (t.move k .lock t.mutex)

/-- All threads at the start of their loops. -/
def Threads.start (mode : Mode) (buffer : List HttpInfo) : Threads workers :=
  ⟨World.start mode buffer, .accept, fun _ => .lock, none⟩

/-- What any schedule can reach with `size` buffers. -/
inductive Threads.Reachable (mode : Mode) (size : Nat) : Threads workers → Prop where
  | init {buffer : List HttpInfo} : buffer.length = size → Reachable mode size (Threads.start mode buffer)
  | tail {t t' : Threads workers} : Reachable mode size t → t.Step t' → Reachable mode size t'

/-! ## Critical sections exclude each other -/

/-- A thread in its critical section. -/
def Threads.inside (t : Threads workers) : Thread workers → Bool
  | .main =>
      match t.main with
      | .check | .signal | .unlock => true
      | _ => false
  | .worker k =>
      match t.worker k with
      | .check | .signal _ | .unlock _ => true
      | _ => false

/-- Whoever is inside has the mutex. -/
def Exclusive (t : Threads workers) : Prop := ∀ i, t.inside i = true ↔ t.mutex = some i

/-- A step of thread `i` leaves the others inside or outside. -/
theorem Exclusive.of_step (h : Exclusive t) (i : Thread workers)
    (hi : t'.inside i = true ↔ t'.mutex = some i) (hin : ∀ j, j ≠ i → t'.inside j = t.inside j)
    (hm : ∀ j, j ≠ i → (t'.mutex = some j ↔ t.mutex = some j)) : Exclusive t' := by
  intro j
  by_cases hj : j = i
  · rw [hj]; exact hi
  · rw [hin j hj, hm j hj]; exact h j

theorem inside_of_worker (hw : t'.worker = t.worker) (j : Thread workers) (hj : j ≠ .main) :
    t'.inside j = t.inside j := by
  cases j with
  | main => exact absurd rfl hj
  | worker k => simp only [Threads.inside, hw]

theorem inside_move {k : Fin workers} {a : WorkerAt} {m : Option (Thread workers)}
    (j : Thread workers) (hj : j ≠ .worker k) : (t.move k a m).inside j = t.inside j := by
  cases j with
  | main => rfl
  | worker l =>
      have hl : l ≠ k := fun h => hj (by rw [h])
      simp only [Threads.inside, Threads.move, Function.update_of_ne hl]

/-- A thread that is not inside does not have the mutex, and gives it to nobody. -/
theorem mutex_ne {i j : Thread workers} (h : Exclusive t) (hi : t.inside i = true) (hj : j ≠ i) :
    (none : Option (Thread workers)) = some j ↔ t.mutex = some j := by
  rw [(h i).mp hi]
  simp [hj.symm]

theorem exclusive_step (h : Exclusive t) (hs : t.Step t') : Exclusive t' := by
  have hmain := h .main
  cases hs with
  | mainAccept hat =>
      refine h.of_step .main ?_ (inside_of_worker rfl) (fun _ _ => Iff.rfl)
      simpa [Threads.inside, hat] using hmain
  | mainLock hat hfree =>
      refine h.of_step .main ?_ (inside_of_worker rfl) (fun j hj => ?_)
      · simp [Threads.inside]
      · simp [hfree, hj.symm]
  | mainWait hat hfull =>
      refine h.of_step .main ?_ (inside_of_worker rfl) (fun j hj => mutex_ne h ?_ hj)
      · simp [Threads.inside]
      · simp [Threads.inside, hat]
  | mainSpurious hat =>
      refine h.of_step .main ?_ (inside_of_worker rfl) (fun _ _ => Iff.rfl)
      simpa [Threads.inside, hat] using hmain
  | mainRelock hat hfree =>
      refine h.of_step .main ?_ (inside_of_worker rfl) (fun j hj => ?_)
      · simp [Threads.inside]
      · simp [hfree, hj.symm]
  | mainFill hat he =>
      refine h.of_step .main ?_ (inside_of_worker rfl) (fun _ _ => Iff.rfl)
      simpa [Threads.inside, hat] using hmain
  | @mainSignal k hat hk =>
      refine h.of_step .main ?_ (fun j hj => ?_) (fun _ _ => Iff.rfl)
      · simpa [Threads.inside, Threads.move, hat] using hmain
      · by_cases hjk : j = .worker k
        · subst hjk
          simp [Threads.inside, Threads.move, hk]
        · have := @inside_move _ t k .woken t.mutex j hjk
          cases j with
          | main => exact absurd rfl hj
          | worker l => exact this
  | mainSignalNone hat hk =>
      refine h.of_step .main ?_ (inside_of_worker rfl) (fun _ _ => Iff.rfl)
      simpa [Threads.inside, hat] using hmain
  | mainUnlock hat =>
      refine h.of_step .main ?_ (inside_of_worker rfl) (fun j hj => mutex_ne h ?_ hj)
      · simp [Threads.inside]
      · simp [Threads.inside, hat]
  | lock k hat hfree =>
      refine h.of_step (.worker k) ?_ inside_move (fun j hj => ?_)
      · simp [Threads.inside, Threads.move]
      · simp [Threads.move, hfree, hj.symm]
  | wait k hat hempty =>
      refine h.of_step (.worker k) ?_ inside_move (fun j hj => mutex_ne h ?_ hj)
      · simp [Threads.inside, Threads.move]
      · simp [Threads.inside, hat]
  | spurious k hat =>
      refine h.of_step (.worker k) ?_ inside_move (fun _ _ => Iff.rfl)
      simpa [Threads.inside, Threads.move, hat] using h (.worker k)
  | relock k hat hfree =>
      refine h.of_step (.worker k) ?_ inside_move (fun j hj => ?_)
      · simp [Threads.inside, Threads.move]
      · simp [Threads.move, hfree, hj.symm]
  | @take k stat info s hat hd =>
      refine h.of_step (.worker k) ?_ (fun j hj => ?_) (fun _ _ => Iff.rfl)
      · simpa [Threads.inside, Threads.move, hat] using h (.worker k)
      · exact @inside_move _ t k (.signal info) t.mutex j hj
  | @signal k info hat =>
      refine h.of_step (.worker k) ?_ (fun j hj => ?_) (fun _ _ => Iff.rfl)
      · simpa [Threads.inside, Threads.move, hat] using h (.worker k)
      · rw [← @inside_move _ t k (.unlock info) t.mutex j hj]
        cases j with
        | worker l => rfl
        | main =>
            simp only [Threads.inside, Threads.move]
            cases t.main <;> rfl
  | unlock k hat =>
      refine h.of_step (.worker k) ?_ inside_move (fun j hj => mutex_ne h ?_ hj)
      · simp [Threads.inside, Threads.move]
      · simp [Threads.inside, hat]
  | done k hat =>
      refine h.of_step (.worker k) ?_ inside_move (fun _ _ => Iff.rfl)
      simpa [Threads.inside, Threads.move, hat] using h (.worker k)

/-! ## Wake-ups -/

/-- Awake, and will look at `numfull` before it does anything else to the queue. -/
def WorkerAt.onWay : WorkerAt → Bool
  | .lock | .check | .woken => true
  | _ => false

/-- `main` has filled a slot and is about to signal. -/
def Threads.FullPending (t : Threads workers) : Prop := t.main = .signal

/-- A worker has emptied a slot and is about to signal. -/
def Threads.EmptyPending (t : Threads workers) : Prop := ∃ k info, t.worker k = .signal info

/-- The signals that `main` is about to send. -/
def MainAt.owes : MainAt → Nat
  | .signal => 1
  | _ => 0

/-- The workers on their way, and the one that `main` is about to wake. -/
def Threads.awake (t : Threads workers) : Nat := tally WorkerAt.onWay t.worker + t.main.owes

/-- No wake-up was lost. -/
structure Wakeups (size : Nat) (t : Threads workers) : Prop where
  size_eq : t.world.server.size = size
  full : ∀ k, t.worker k = .asleep → t.world.server.numfull ≤ t.awake
  empty : t.main = .asleep → t.world.server.numfull = size ∨ t.EmptyPending

theorem enqueue_counts {stat : Stat} {info : HttpInfo} {s s' : Server} (h : Enqueue stat info s s') :
    s'.size = s.size ∧ s'.numfull = s.numfull + 1 := by
  cases h with
  | fifo => exact ⟨rfl, rfl⟩
  | sorted => exact ⟨rfl, rfl⟩

theorem dequeue_counts {stat : Stat} {info : HttpInfo} {s s' : Server} (h : Dequeue stat s info s') :
    s'.size = s.size ∧ s'.numfull + 1 = s.numfull := by
  cases h with
  | fifo _ hne => exact ⟨rfl, Nat.succ_pred_eq_of_ne_zero hne⟩
  | sorted _ hne => exact ⟨rfl, Nat.succ_pred_eq_of_ne_zero hne⟩

/-- Who sleeps after worker `k` moved. -/
theorem asleep_move {k j : Fin workers} {a : WorkerAt} {m : Option (Thread workers)}
    (h : (t.move k a m).worker j = .asleep) : (j = k ∧ a = .asleep) ∨ t.worker j = .asleep := by
  by_cases hj : j = k
  · subst hj
    left
    simpa [Threads.move] using h
  · right
    simpa [Threads.move, hj] using h

/-- A signal that is pending stays so while another worker moves. -/
theorem emptyPending_move {k : Fin workers} {a : WorkerAt} {m : Option (Thread workers)}
    (hk : ∀ info, t.worker k ≠ .signal info) (h : t.EmptyPending) : (t.move k a m).EmptyPending := by
  obtain ⟨j, info, hj⟩ := h
  have hjk : j ≠ k := fun he => hk info (he ▸ hj)
  exact ⟨j, info, by simpa [Threads.move, hjk] using hj⟩

/-- A worker that moves without touching the queue, from and to places other than the signal. -/
theorem wakeups_move (h : Wakeups size t) {k : Fin workers} {a : WorkerAt}
    {m : Option (Thread workers)} (hk : ∀ info, t.worker k ≠ .signal info)
    (hway : t.world.server.numfull = 0 ∨ (t.worker k).onWay.toNat ≤ a.onWay.toNat ∧ a ≠ .asleep) :
    Wakeups size (t.move k a m) where
  size_eq := h.size_eq
  full j hj := by
    show t.world.server.numfull ≤ _
    rcases hway with hzero | ⟨hway, ha⟩
    · rw [hzero]; exact Nat.zero_le _
    · rcases asleep_move hj with ⟨-, hsleep⟩ | hj
      · exact absurd hsleep ha
      · have hf := h.full j hj
        have hup := tally_update WorkerAt.onWay t.worker k a
        simp only [Threads.awake, Threads.move] at hf ⊢
        omega
  empty hm := (h.empty hm).imp_right (emptyPending_move hk)

/-- A step of `main` that leaves the queue alone and neither falls asleep nor comes from its signal. -/
theorem wakeups_main (h : Wakeups size t) {a : MainAt} {m : Option (Thread workers)}
    (hnot : t.main.owes = 0) (ha : a ≠ .asleep) : Wakeups size { t with main := a, mutex := m } where
  size_eq := h.size_eq
  full j hj := by
    have hf := h.full j hj
    simp only [Threads.awake, hnot] at hf ⊢
    omega
  empty hm := absurd hm ha

theorem wakeups_step (h : Wakeups size t) (hs : t.Step t') : Wakeups size t' := by
  cases hs with
  | mainAccept hat => exact wakeups_main h (by rw [hat]; rfl) (by decide)
  | mainLock hat _ => exact wakeups_main h (by rw [hat]; rfl) (by decide)
  | mainWait hat hfull =>
      refine ⟨h.size_eq, fun j hj => ?_, fun _ => Or.inl (hfull.trans h.size_eq)⟩
      have hf := h.full j hj
      simp only [Threads.awake, hat, MainAt.owes] at hf ⊢
      exact hf
  | mainSpurious hat => exact wakeups_main h (by rw [hat]; rfl) (by decide)
  | mainRelock hat _ => exact wakeups_main h (by rw [hat]; rfl) (by decide)
  | mainFill hat he =>
      obtain ⟨hsz, hn⟩ := enqueue_counts he
      refine ⟨hsz.trans h.size_eq, fun j hj => ?_, fun hm => by cases hm⟩
      -- the request comes with a wake-up that is pending
      have hf := h.full j hj
      simp only [Threads.awake, hat, MainAt.owes] at hf ⊢
      omega
  | @mainSignal k hat hk =>
      refine ⟨h.size_eq, fun j _ => ?_, fun hm => by cases hm⟩
      -- now it is no longer pending, and worker `k` is on its way
      have hf := h.full k hk
      have hup := tally_update WorkerAt.onWay t.worker k .woken
      rw [hk] at hup
      simp only [Threads.awake, Threads.move, hat, WorkerAt.onWay, Bool.toNat_false, Bool.toNat_true,
        MainAt.owes] at hf hup ⊢
      omega
  | mainSignalNone hat hk =>
      exact ⟨h.size_eq, fun j hj => absurd hj (hk j), fun hm => by cases hm⟩
  | mainUnlock hat => exact wakeups_main h (by rw [hat]; rfl) (by decide)
  | lock k hat _ => exact wakeups_move h (by rw [hat]; simp) (Or.inr ⟨by rw [hat]; decide, by decide⟩)
  | wait k hat hempty => exact wakeups_move h (by rw [hat]; simp) (Or.inl hempty)
  | spurious k hat => exact wakeups_move h (by rw [hat]; simp) (Or.inr ⟨by rw [hat]; decide, by decide⟩)
  | relock k hat _ => exact wakeups_move h (by rw [hat]; simp) (Or.inr ⟨by rw [hat]; decide, by decide⟩)
  | @take k stat info s hat hd =>
      obtain ⟨hsz, hn⟩ := dequeue_counts hd
      refine ⟨hsz.trans h.size_eq, fun j hj => ?_, fun _ => Or.inr ⟨k, info, by simp [Threads.move]⟩⟩
      -- worker `k` was on its way and is so no longer
      rcases @asleep_move _ t k j (.signal info) t.mutex hj with ⟨-, ha⟩ | hj
      · cases ha
      · have hf := h.full j hj
        have hup := tally_update WorkerAt.onWay t.worker k (.signal info)
        rw [hat] at hup
        simp only [Threads.awake, Threads.move, WorkerAt.onWay, Bool.toNat_false, Bool.toNat_true]
          at hf hup ⊢
        omega
  | @signal k info hat =>
      refine ⟨h.size_eq, fun j hj => ?_, fun hm => ?_⟩
      · rcases @asleep_move _ t k j (.unlock info) t.mutex hj with ⟨-, ha⟩ | hj
        · cases ha
        · have hf := h.full j hj
          have hup := tally_update WorkerAt.onWay t.worker k (.unlock info)
          rw [hat] at hup
          have hmain : t.main.signalled.owes = t.main.owes := by cases t.main <;> rfl
          simp only [Threads.awake, Threads.move, hmain, WorkerAt.onWay, Bool.toNat_false] at hf hup ⊢
          omega
      · -- a signalled `main` does not sleep
        exact absurd hm (by show t.main.signalled ≠ .asleep; cases t.main <;> decide)
  | unlock k hat => exact wakeups_move h (by rw [hat]; simp) (Or.inr ⟨by rw [hat]; exact Nat.le_refl 0, by simp⟩)
  | done k hat => exact wakeups_move h (by rw [hat]; simp) (Or.inr ⟨by rw [hat]; exact Nat.zero_le 1, by decide⟩)

theorem wakeups_reachable (h : Threads.Reachable mode size t) : Wakeups size t ∧ Exclusive t := by
  induction h with
  | init hl =>
      refine ⟨⟨hl, fun k hk => (by cases hk), fun hm => (by cases hm)⟩, fun i => ?_⟩
      cases i <;> simp [Threads.start, Threads.inside]
  | tail _ hs ih => exact ⟨wakeups_step ih.1 hs, exclusive_step ih.2 hs⟩

/-- A signal is only owed by a thread that has the mutex. -/
theorem Exclusive.not_pending (h : Exclusive t) (hfree : t.mutex = none) :
    ¬t.FullPending ∧ ¬t.EmptyPending := by
  have hout : ∀ i, t.inside i ≠ true := by
    intro i hi
    have := (h i).mp hi
    rw [hfree] at this
    cases this
  refine ⟨fun hm => hout .main ?_, fun ⟨k, info, hk⟩ => hout (.worker k) ?_⟩
  · have hm' : t.main = .signal := hm
    simp only [Threads.inside, hm']
  · simp only [Threads.inside, hk]

/--
**No lost wake-up.** In every state that any schedule can reach: if a worker sleeps and
no signal to it is owed, at least `numfull` workers are on their way to look at
`numfull`; if `main` sleeps and no signal to it is owed, the buffer is full; a signal is
owed only while its sender has the mutex; and never is everyone asleep.
-/
theorem no_lost_wakeup {workers size : Nat} (hworkers : 1 ≤ workers) (hsize : 1 ≤ size) {mode : Mode}
    {t : Threads workers} (h : Threads.Reachable mode size t) :
    (∀ k, t.worker k = .asleep → ¬t.FullPending →
        t.world.server.numfull ≤ tally WorkerAt.onWay t.worker)
      ∧ (t.main = .asleep → ¬t.EmptyPending → t.world.server.numfull = size)
      ∧ (t.mutex = none → ¬t.FullPending ∧ ¬t.EmptyPending)
      ∧ ¬(t.main = .asleep ∧ ∀ k, t.worker k = .asleep) := by
  obtain ⟨hw, hex⟩ := wakeups_reachable h
  have hfull : ∀ k, t.worker k = .asleep → ¬t.FullPending →
      t.world.server.numfull ≤ tally WorkerAt.onWay t.worker := by
    intro k hk hnot
    have hf := hw.full k hk
    have howes : t.main.owes = 0 := by
      cases hm : t.main with
      | signal => exact absurd hm hnot
      | _ => rfl
    rw [Threads.awake, howes] at hf
    exact hf
  refine ⟨hfull, fun hm hnot => (hw.empty hm).resolve_right hnot, hex.not_pending, ?_⟩
  rintro ⟨hm, hall⟩
  have hempty : ¬t.EmptyPending := by
    rintro ⟨k, info, hk⟩
    rw [hall k] at hk
    cases hk
  have hle := hfull ⟨0, hworkers⟩ (hall _) (by rw [Threads.FullPending, hm]; decide)
  have hzero : tally WorkerAt.onWay t.worker = 0 := tally_eq_zero fun k => by rw [hall k]; rfl
  have hn := (hw.empty hm).resolve_right hempty
  omega

/-- Both workers sleep, a request arrives, one is woken: the other one may sleep on. -/
theorem no_lost_wakeup_sample : ∃ t : Threads 2, Threads.Reachable .fifo 1 t
    ∧ t.world.server.numfull = 1 ∧ t.worker 1 = .asleep
    ∧ t.world.server.numfull ≤ tally WorkerAt.onWay t.worker := by
  have h0 : Threads.Reachable .fifo 1 (Threads.start .fifo [sampleRequest 0 0] : Threads 2) :=
    Threads.Reachable.init rfl
  have h1 := h0.tail (Threads.Step.lock 0 rfl rfl)
  have h2 := h1.tail (Threads.Step.wait 0 rfl rfl)
  have h3 := h2.tail (Threads.Step.lock 1 rfl rfl)
  have h4 := h3.tail (Threads.Step.wait 1 rfl rfl)
  have h5 := h4.tail (Threads.Step.mainAccept rfl)
  have h6 := h5.tail (Threads.Step.mainLock rfl rfl)
  have h7 := h6.tail (Threads.Step.mainFill rfl
    (@Enqueue.fifo (fun _ => none) (sampleRequest 49 4) _ rfl (by decide)))
  have h8 := h7.tail (@Threads.Step.mainSignal _ _ 0 rfl rfl)
  exact ⟨_, h8, rfl, rfl, (no_lost_wakeup (by decide) (by decide) h8).1 1 rfl
    fun howed => MainAt.noConfusion howed⟩

/-! ## The atomic sections of the model -/

/-- What the threads do to the queue is a run of critical sections taken as single steps. -/
theorem reachable_world (h : Threads.Reachable mode size t) : Reachable mode size t.world := by
  induction h with
  | init hl => exact Reachable.init hl
  | tail _ hs ih =>
      cases hs with
      | mainFill _ he => exact ih.tail (Step.accept he)
      | take k _ hd => exact ih.tail (Step.serve k hd)
      | _ => exact ih

end Cs537.Web
