import Cs537.Mem.Session

/-!
# Giving a pointer back twice

`Mem_Free` recognises its pointers by the magic number below them. A `block_t` has
four bytes of padding just there, so turning a used block into a free one leaves the
number standing. What tells a pointer that was given back from one that was not is
then only what has been written over it since: the list itself is never asked.

`memFree_again_iff` says when a second `Mem_Free` is refused as it should be. The
instance after it is the plain case: two blocks, the first given back twice. Its
header ends up pointing at itself and the next `Mem_Alloc` walks in a circle.
-/

namespace Cs537.Mem

open Lib

/-- With fuel enough, every call returns, whatever its argument. -/
def Terminates (h : Heap) : Prop :=
  ∃ N, ∀ fuel, N ≤ fuel → (∀ size, memAlloc fuel h size ≠ none) ∧ ∀ p, memFree fuel h p ≠ none

/--
`Mem_Free(p)` returns -1, sets `m_error`, and leaves the free list as it was, so that
later calls can still walk it.
-/
def Rejected (h : Heap) (p : Nat) : Prop :=
  ∃ N, ∀ fuel, N ≤ fuel → ∃ h', memFree fuel h p = some (-1, h')
    ∧ h'.mError = eBadPointer
    ∧ (∀ free, Seg h'.mem h'.head free 0 ↔ Seg h.mem h.head free 0)
    ∧ Terminates h'

theorem setSize_blockSize (m : Store) (p : Nat) : setSize m p (blockSize m p) = m := by
  unfold setSize blockSize writeInt readInt
  rw [encodeInt_decodeInt (length_load m p 4), store_load]

section

variable {r : Region} {h : Heap} {free live : List Span}

theorem HeapInv.terminates (hi : HeapInv r h free live) : Terminates h := by
  refine ⟨free.length + 1, fun fuel hfuel => ⟨fun size hnone => ?_, fun p hnone => ?_⟩⟩
  · obtain ⟨q, h', hr, -⟩ := memAlloc_total hi size hfuel
    rw [hnone] at hr
    simp at hr
  · by_cases hp : p = 0
    · unfold memFree at hnone
      rw [if_pos hp] at hnone
      simp at hnone
    · by_cases hmagic : usedMagic h.mem (ptrAdd p (-sizeofUsed)) ≠ magicNum
      · rw [memFree_refused hp hmagic] at hnone
        simp at hnone
      · -- the header is rewritten with its own size, so the loop walks the same list
        obtain ⟨l₁, l₂, -, hloop, -⟩ := insertLoop_spec (m := h.mem)
          (ptrAdd p (-sizeofUsed)) free fuel h.head 0 hi.list hfuel
        unfold memFree at hnone
        rw [if_neg hp] at hnone
        dsimp only at hnone
        rw [if_neg hmagic, setSize_blockSize, hloop] at hnone
        simp at hnone

end

section

variable {r : Region} {h₀ : Heap} {s : Sys} {freed : List Nat}

theorem SysInv.ptr_bounds {free : List Span} (hs : SysInv r s free) {l : Live} (hl : l ∈ s.live) :
    8 < l.ptr ∧ l.ptr < 2 ^ 64 := by
  have hin := hs.heap.inside (List.mem_append_right free (List.mem_map_of_mem hl))
  have hroom := hs.heap.roomy _ (List.mem_append_right free (List.mem_map_of_mem hl))
  have hbase := r.base_pos
  have hstop := r.stop_lt
  have haddr : l.block.addr = l.ptr - 8 := rfl
  omega

/-- The pointers given back are addresses past a header. -/
theorem freed_bounds (hstart : Start r h₀) (h : Session h₀ s freed) :
    ∀ p ∈ freed, 8 < p ∧ p < 2 ^ 64 := by
  induction h with
  | init => simp
  | alloc _ _ _ _ _ ih => exact fun p hp => ih p (List.mem_of_mem_filter hp)
  | allocNull _ _ ih => exact ih
  | free hsess hl _ ih =>
      obtain ⟨free, hs⟩ := sysInv_session hstart hsess
      intro p hp
      rcases List.mem_cons.mp hp with rfl | hp
      · exact hs.ptr_bounds hl
      · exact ih p hp
  | freeNull _ _ ih => exact ih
  | freeRefused _ _ ih => exact ih
  | initRefused _ _ ih => exact ih
  | write _ _ _ ih => exact ih

theorem ptrAdd_header {p : Nat} (h8 : 8 < p) (hlt : p < 2 ^ 64) :
    ptrAdd p (-sizeofUsed) = p - 8 := by
  have h : (-sizeofUsed).toInt = -8 := rfl
  unfold ptrAdd
  rw [h]
  omega

/-- A pointer below which the magic number still stands is not refused. -/
theorem not_rejected {h : Heap} {p : Nat} (h8 : 8 < p) (hlt : p < 2 ^ 64)
    (hmagic : usedMagic h.mem (p - 8) = magicNum) : ¬Rejected h p := by
  rintro ⟨N, hN⟩
  obtain ⟨h', hr, -⟩ := hN N (Nat.le_refl N)
  rw [← ptrAdd_header h8 hlt] at hmagic
  exact absurd (memFree_accepted hmagic hr) (by decide)

/--
**When a second `Mem_Free` is refused.** In every session, for every pointer that was
given back and not handed out again, exactly when the four bytes below it no longer
hold the magic number. Nothing `Mem_Free` does changes them, so a pointer given back
twice in a row is never refused.
-/
theorem memFree_again_iff (r : Region) {h₀ : Heap} (hstart : Start r h₀) {s : Sys}
    {freed : List Nat} (h : Session h₀ s freed) :
    (∀ p ∈ freed, Rejected s.heap p ↔ usedMagic s.heap.mem (p - 8) ≠ magicNum)
      ∧ ∀ l ∈ s.live, ∀ fuel c h', memFree fuel s.heap l.ptr = some (c, h') →
          ¬Rejected h' l.ptr := by
  obtain ⟨free, hs⟩ := sysInv_session hstart h
  constructor
  · intro p hp
    obtain ⟨h8, hlt⟩ := freed_bounds hstart h p hp
    refine ⟨fun hrej hmagic => not_rejected h8 hlt hmagic hrej, fun hmagic => ?_⟩
    rw [← ptrAdd_header h8 hlt] at hmagic
    exact ⟨0, fun fuel _ => ⟨_, memFree_refused (by omega) hmagic fuel, rfl, fun _ => Iff.rfl,
      (hs.heap.setError eBadPointer).terminates⟩⟩
  · intro l hl fuel c h' hcall
    obtain ⟨h8, hlt⟩ := hs.ptr_bounds hl
    have hinv := hs.heap.perm_live ((List.perm_cons_erase hl).map Live.block)
    obtain ⟨h'', -, hr, -, -, -, hmagic⟩ :=
      memFree_spec hinv (Nat.le_max_right fuel (free.length + 1))
    have hptr : l.block.addr + 8 = l.ptr := by show l.ptr - 8 + 8 = l.ptr; omega
    rw [hptr, memFree_mono (Nat.le_max_left _ _) hcall] at hr
    simp only [Option.some.injEq, Prod.mk.injEq] at hr
    obtain ⟨-, rfl⟩ := hr
    exact not_rejected h8 hlt hmagic

end

/-! ## Two blocks, the first given back twice -/

/-- The heap a call leaves. -/
def after {α : Type} (h : Heap) (call : Option (α × Heap)) : Heap := (call.map Prod.snd).getD h

theorem call_eq {α : Type} {h : Heap} {call : Option (α × Heap)} {a : α}
    (hret : call.map Prod.fst = some a) : call = some (a, after h call) := by
  cases call with
  | none => simp at hret
  | some q =>
      simp only [Option.map_some, Option.some.injEq] at hret
      rw [← hret]
      rfl

/-- After `p = Mem_Alloc(24)`. -/
def oneHeap : Heap := after sampleHeap (memAlloc 2 sampleHeap (Int32.ofNat 24))

/-- After `q = Mem_Alloc(24)` as well. -/
def twoHeap : Heap := after oneHeap (memAlloc 2 oneHeap (Int32.ofNat 24))

/-- After `Mem_Free(p)`. -/
def againHeap : Heap := after twoHeap (memFree 3 twoHeap 4104)

/-- The list after the second `Mem_Free(p)` starts with a block that comes after itself. -/
theorem searchLoop_circle {m : Store} {size : Int32} {p : Nat} (hp : p ≠ 0)
    (hnext : blockNext m p = p) :
    ∀ fuel prev best bestprev, searchLoop m size fuel p prev best bestprev = none := by
  intro fuel
  induction fuel with
  | zero => intro prev best bestprev; rfl
  | succ fuel ih =>
      intro prev best bestprev
      rw [searchLoop, if_neg hp, hnext, ih, ih]
      simp

theorem againHeap_session : ∃ s, Session sampleHeap s [4104] ∧ s.heap = againHeap := by
  have h1 := Session.alloc freshSys_session (n := 24) (by decide) (by decide)
    (@call_eq _ sampleHeap (memAlloc 2 sampleHeap _) 4104 (by decide +kernel))
    (by decide)
  have h2 := Session.alloc h1 (n := 24) (by decide) (by decide)
    (@call_eq _ oneHeap (memAlloc 2 oneHeap _) 4144 (by decide +kernel))
    (by decide)
  have h3 := Session.free h2 (List.mem_cons_of_mem _ (List.mem_cons_self ..))
    (@call_eq _ twoHeap (memFree 3 twoHeap 4104) 0 (by decide +kernel))
  exact ⟨_, h3, rfl⟩

/--
The second `Mem_Free(p)` returns 0, and after it `Mem_Alloc(1)` does not return.
-/
theorem memFree_again_circle : Start sampleRegion sampleHeap
    ∧ (∃ s, Session sampleHeap s [4104] ∧ s.heap = againHeap)
    ∧ ¬Rejected againHeap 4104
    ∧ ∃ h', memFree 4 againHeap 4104 = some (0, h') ∧ ∀ fuel, memAlloc fuel h' 1 = none := by
  refine ⟨sampleHeap_start, againHeap_session, not_rejected (by decide) (by decide) (by decide +kernel), ?_⟩
  refine ⟨_, call_eq (h := againHeap) (by decide +kernel), fun fuel => ?_⟩
  unfold memAlloc
  rw [if_neg (by decide)]
  dsimp only
  rw [searchLoop_circle (by decide +kernel) (by decide +kernel)]

theorem again_fresh : Start sampleRegion sampleHeap
    ∧ (∃ s, Session sampleHeap s [4104] ∧ s.heap = againHeap)
    ∧ (Rejected againHeap 4104 ↔ usedMagic againHeap.mem 4096 ≠ magicNum) := by
  obtain ⟨s, hs, heap⟩ := againHeap_session
  refine ⟨sampleHeap_start, ⟨s, hs, heap⟩, ?_⟩
  have h := (memFree_again_iff sampleRegion sampleHeap_start hs).1 4104 (by simp)
  rwa [heap] at h

end Cs537.Mem
