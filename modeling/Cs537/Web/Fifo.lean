import Cs537.Lib.Ring
import Cs537.Web.Model

/-!
# `FIFO` mode is a bounded queue

The undispatched requests are the accepted ones that have not been taken, in
order, and the ring holds exactly those. Everything else in `FifoInv` is the
bookkeeping between the counters and that list.
-/

namespace Cs537.Web

open Lib

variable {workers size : Nat} {w w' : World workers}

/-- The counters, the ring and the history agree. -/
structure FifoInv (size : Nat) (w : World workers) : Prop where
  mode : w.server.mode = .fifo
  size_eq : w.server.size = size
  length : w.server.buffer.length = size
  use_lt : w.server.useptr < size
  fill : w.server.fillptr = (w.server.useptr + w.server.numfull) % size
  /-- What was taken is a prefix of what was accepted; the rest is in the ring. -/
  queue : ∃ q, w.accepted = w.served ++ q ∧ q.length = w.server.numfull ∧ q.length ≤ size
    ∧ Holds w.server.buffer w.server.useptr q

theorem fifoInv_init {buffer : List HttpInfo} (hs : 0 < size) (hl : buffer.length = size) :
    FifoInv size (World.start .fifo buffer : World workers) := by
  refine ⟨rfl, hl, hl, hs, ?_, [], rfl, rfl, Nat.zero_le _, ?_⟩
  · show 0 = (0 + 0) % size
    rw [Nat.zero_mod]
  · intro i hi; simp at hi

/-- `main` stores into the one slot after the queued requests. -/
theorem fifoInv_enqueue {stat : Stat} {info : HttpInfo} {s : Server}
    (h : FifoInv size w) (he : Enqueue stat info w.server s) :
    FifoInv size { w with server := s, accepted := w.accepted ++ [info] } := by
  obtain ⟨hm, hsz, hlen, huse, hfill, q, hacc, hq, hle, hholds⟩ := h
  cases he with
  | sorted hne => exact absurd hm hne
  | fifo _ hfull =>
      rw [hsz] at hfull
      refine ⟨hm, hsz, ?_, huse, ?_, q ++ [info], ?_, ?_, ?_, ?_⟩
      · show (w.server.buffer.set _ _).length = size
        rw [List.length_set]; exact hlen
      · show (w.server.fillptr + 1) % w.server.size = (w.server.useptr + (w.server.numfull + 1)) % size
        rw [hfill, hsz, Nat.mod_add_mod, Nat.add_assoc]
      · show w.accepted ++ [info] = w.served ++ (q ++ [info])
        rw [hacc, List.append_assoc]
      · show (q ++ [info]).length = w.server.numfull + 1
        rw [List.length_append, hq]; rfl
      · rw [List.length_append, List.length_singleton]; omega
      · show Holds (w.server.buffer.set w.server.fillptr info) w.server.useptr (q ++ [info])
        -- the slot filled is the one after the queue, and it is free
        have hslot : w.server.fillptr = slot w.server.buffer w.server.useptr q.length := by
          unfold slot; rw [hfill, hlen, hq]
        rw [hslot]
        exact hholds.push (by omega)

/-- A worker takes the oldest request. -/
theorem fifoInv_dequeue {stat : Stat} {info : HttpInfo} {s : Server} (k : Fin workers)
    (h : FifoInv size w) (hd : Dequeue stat w.server info s) :
    FifoInv size { w with server := s, taken := w.taken ++ [(k, info)] } := by
  obtain ⟨hm, hsz, hlen, huse, hfill, q, hacc, hq, hle, hholds⟩ := h
  cases hd with
  | sorted hne => exact absurd hm hne
  | @fifo used garbage _ hempty hused =>
      -- the ring is not empty, so there is an oldest request
      cases q with
      | nil => exact absurd hq.symm hempty
      | cons x q =>
          obtain ⟨hx, hrest⟩ := hholds.pop
          have hslot : slot w.server.buffer w.server.useptr 0 = w.server.useptr := by
            unfold slot; rw [Nat.add_zero, hlen, Nat.mod_eq_of_lt huse]
          rw [hslot, hused] at hx
          have hux : used = x := Option.some.inj hx
          subst hux
          rw [List.length_cons] at hq hle
          refine ⟨hm, hsz, hlen, ?_, ?_, q, ?_, ?_, by omega, ?_⟩
          · show (w.server.useptr + 1) % w.server.size < size
            rw [hsz]; exact Nat.mod_lt _ (by omega)
          · show w.server.fillptr
              = ((w.server.useptr + 1) % w.server.size + (w.server.numfull - 1)) % size
            rw [hfill, hsz, Nat.mod_add_mod]
            congr 1
            omega
          · show w.accepted = (w.taken ++ [(k, copyInfo used garbage)]).map Prod.snd ++ q
            rw [hacc, copyInfo_eq, List.map_append, List.append_assoc]; rfl
          · show q.length = w.server.numfull - 1
            omega
          · show Holds w.server.buffer ((w.server.useptr + 1) % w.server.size) q
            rw [hsz, ← hlen]; exact hrest

theorem fifoInv_step (h : FifoInv size w) (hst : Step w w') : FifoInv size w' := by
  cases hst with
  | accept he => exact fifoInv_enqueue h he
  | serve k hd => exact fifoInv_dequeue k h hd

theorem fifoInv_reachable (hs : 0 < size) (h : Reachable .fifo size w) : FifoInv size w := by
  induction h with
  | init hl => exact fifoInv_init hs hl
  | tail _ hst ih => exact fifoInv_step ih hst

/-- No critical section changes a slot that holds a queued request. -/
theorem slot_kept (h : FifoInv size w) (hst : Step w w') {i : Nat} (hi : i < w.server.numfull) :
    w'.server.buffer[(w.server.useptr + i) % size]? = w.server.buffer[(w.server.useptr + i) % size]? := by
  obtain ⟨hm, hsz, hlen, -, hfill, q, -, hq, hle, -⟩ := h
  cases hst with
  | accept he =>
      cases he with
      | sorted hne => exact absurd hm hne
      | fifo _ hfull =>
          rw [hsz] at hfull
          have hne : slot w.server.buffer w.server.useptr i
              ≠ slot w.server.buffer w.server.useptr w.server.numfull := slot_ne hi (by omega)
          unfold slot at hne
          rw [hlen, ← hfill] at hne
          exact List.getElem?_set_ne hne.symm
  | serve k hd =>
      cases hd with
      | sorted hne => exact absurd hm hne
      | fifo => rfl

/--
**`FIFO` mode is a bounded queue.** For every number of workers and every
interleaving, the counters are those of a ring of `size` slots, no slot holding an
undispatched request is overwritten by any next step, and what the workers took is
the first part of what was accepted, `numfull` requests short of all of it.
-/
theorem fifo_reachable {workers size : Nat} (hs : 1 ≤ size) {w : World workers}
    (h : Reachable .fifo size w) :
    w.server.numfull ≤ size
      ∧ w.server.fillptr = (w.server.useptr + w.server.numfull) % size
      ∧ w.server.useptr < size ∧ w.server.fillptr < size
      ∧ (∀ i < w.server.numfull, w.server.buffer[(w.server.useptr + i) % size]?
          = w.accepted[w.served.length + i]?)
      ∧ (∀ w', Step w w' → ∀ i < w.server.numfull,
          w'.server.buffer[(w.server.useptr + i) % size]?
            = w.server.buffer[(w.server.useptr + i) % size]?)
      ∧ w.served <+: w.accepted
      ∧ w.accepted.length = w.served.length + w.server.numfull := by
  have hinv := fifoInv_reachable hs h
  obtain ⟨q, hacc, hq, hle, hholds⟩ := hinv.queue
  refine ⟨by omega, hinv.fill, hinv.use_lt, ?_, ?_, fun w' hst i hi => slot_kept hinv hst hi,
    ⟨q, hacc.symm⟩, by rw [hacc, List.length_append, hq]⟩
  · rw [hinv.fill]; exact Nat.mod_lt _ hs
  · intro i hi
    have := hholds i (by omega)
    unfold slot at this
    rw [hinv.length] at this
    rw [this, hacc, List.getElem?_append_right (Nat.le_add_right _ _), Nat.add_sub_cancel_left]

/-- One worker and two buffers: two requests accepted, the first one taken. -/
theorem fifo_sample : ∃ w : World 1, w.accepted = [sampleRequest 49 4, sampleRequest 50 5]
    ∧ w.served = [sampleRequest 49 4] ∧ w.served <+: w.accepted ∧ w.server.numfull = 1
    ∧ w.server.useptr = 1 ∧ w.server.fillptr = 0 := by
  have h0 : Reachable .fifo 2 (World.start .fifo [sampleRequest 48 3, sampleRequest 48 3] : World 1) :=
    Reachable.init rfl
  have h1 := Reachable.tail h0 (Step.accept
    (@Enqueue.fifo (fun _ => none) (sampleRequest 49 4) _ rfl (by decide)))
  have h2 := Reachable.tail h1 (Step.accept
    (@Enqueue.fifo (fun _ => none) (sampleRequest 50 5) _ rfl (by decide)))
  have h3 := Reachable.tail h2 (Step.serve 0
    (@Dequeue.fifo (fun _ => none) _ _ (sampleRequest 48 3) rfl (by decide) rfl))
  obtain ⟨-, -, -, -, -, -, hpre, -⟩ := fifo_reachable (by decide) h3
  exact ⟨_, rfl, rfl, hpre, rfl, rfl, rfl⟩

end Cs537.Web
