import Cs537.Lib.CInt
import Cs537.Lib.Span
import Cs537.Mem.Model

/-!
# The free list in memory

`Seg m p l q`: starting at `p`, the `block_t`s in `m` form the list `l` and the
last link is `q`. With `q = 0` this is a whole free list.

Every step of `Mem_Alloc` and `Mem_Free` writes a few header fields, and each of
those writes lands in a free block or in the block being handed over. So there
are two kinds of lemma here: what a field reads after a write to another field
(disjoint ranges, mostly closed by `omega`), and what a segment looks like after
the one link that matters has been redirected.
-/

namespace Cs537.Mem

open Lib

/-! ## Reading one field after writing another -/

theorem setSize_outside {m : Store} {p x : Nat} {v : Int32} (h : ¬(p ≤ x ∧ x < p + 4)) :
    setSize m p v x = m x := by
  unfold setSize writeInt
  exact store_outside (by rw [length_encodeInt]; exact h)

theorem setNext_outside {m : Store} {p q x : Nat} (h : ¬(p + 8 ≤ x ∧ x < p + 16)) :
    setNext m p q x = m x := by
  unfold setNext
  exact store_outside (by rw [length_encodePtr]; omega)

theorem setMagic_outside {m : Store} {p x : Nat} {v : Int32}
    (h : ¬(p + 4 ≤ x ∧ x < p + 8)) : setMagic m p v x = m x := by
  unfold setMagic writeInt
  exact store_outside (by rw [length_encodeInt]; omega)

theorem blockSize_congr {m k : Store} {p : Nat}
    (h : ∀ x, p ≤ x → x < p + 4 → m x = k x) : blockSize m p = blockSize k p := by
  unfold blockSize readInt; rw [load_congr h]

theorem blockNext_congr {m k : Store} {p : Nat}
    (h : ∀ x, p + 8 ≤ x → x < p + 16 → m x = k x) : blockNext m p = blockNext k p := by
  unfold blockNext; rw [load_congr (by intro x h1 h2; exact h x h1 (by omega))]

theorem usedMagic_congr {m k : Store} {p : Nat}
    (h : ∀ x, p + 4 ≤ x → x < p + 8 → m x = k x) : usedMagic m p = usedMagic k p := by
  unfold usedMagic readInt; rw [load_congr (by intro x h1 h2; exact h x h1 (by omega))]

@[simp] theorem blockSize_setSize (m : Store) (p : Nat) (v : Int32) :
    blockSize (setSize m p v) p = v := by
  unfold blockSize setSize readInt writeInt
  have h := load_store_same m p (encodeInt v)
  rw [length_encodeInt] at h
  rw [h, decodeInt_encodeInt]

@[simp] theorem usedMagic_setMagic (m : Store) (p : Nat) (v : Int32) :
    usedMagic (setMagic m p v) p = v := by
  unfold usedMagic setMagic readInt writeInt
  have h := load_store_same m (p + 4) (encodeInt v)
  rw [length_encodeInt] at h
  rw [h, decodeInt_encodeInt]

theorem blockNext_setNext {m : Store} {p q : Nat} (hq : q < 2 ^ 64) :
    blockNext (setNext m p q) p = q := by
  unfold blockNext setNext
  have h := load_store_same m (p + 8) (encodePtr q)
  rw [length_encodePtr] at h
  rw [h, decodeNat_encodePtr hq]

@[simp] theorem blockSize_setMagic (m : Store) (p : Nat) (v : Int32) :
    blockSize (setMagic m p v) p = blockSize m p :=
  blockSize_congr fun _ _ _ => setMagic_outside (by omega)

@[simp] theorem blockSize_setNext (m : Store) (p q : Nat) :
    blockSize (setNext m p q) p = blockSize m p :=
  blockSize_congr fun _ _ _ => setNext_outside (by omega)

@[simp] theorem blockNext_setSize (m : Store) (p : Nat) (v : Int32) :
    blockNext (setSize m p v) p = blockNext m p :=
  blockNext_congr fun _ _ _ => setSize_outside (by omega)

/-- Links written at different nodes commute. -/
theorem setNext_comm {m : Store} {p q a b : Nat} (h : p + 8 ≤ q ∨ q + 8 ≤ p) :
    setNext (setNext m p a) q b = setNext (setNext m q b) p a := by
  funext x
  by_cases hq : q + 8 ≤ x ∧ x < q + 16
  · have hp : ¬(p + 8 ≤ x ∧ x < p + 16) := by omega
    rw [setNext_outside hp]
    unfold setNext store
    rw [if_pos hq.1, if_pos hq.1]
    have hi : x - (q + 8) < (encodePtr b).length := by rw [length_encodePtr]; omega
    rw [List.getElem?_eq_getElem hi]; rfl
  · rw [setNext_outside hq]
    by_cases hp : p + 8 ≤ x ∧ x < p + 16
    · unfold setNext store
      rw [if_pos hp.1, if_pos hp.1]
      have hi : x - (p + 8) < (encodePtr a).length := by rw [length_encodePtr]; omega
      rw [List.getElem?_eq_getElem hi]; rfl
    · rw [setNext_outside hp, setNext_outside hp, setNext_outside hq]

theorem ptrAdd_of_toInt {p n : Nat} {k : Int32} (hk : k.toInt = n) (h : p + n < 2 ^ 64) :
    ptrAdd p k = p + n := by
  unfold ptrAdd; rw [hk]; omega

/-! ## Segments -/

/-- From `p` on, the blocks `l`, and then the link `q`. -/
def Seg (m : Store) : Nat → List Span → Nat → Prop
  | p, [], q => p = q
  | p, b :: bs, q =>
      p = b.addr ∧ b.addr ≠ 0 ∧ (blockSize m b.addr).toInt = b.size ∧ Seg m (blockNext m b.addr) bs q

/-- The address of the first block, `NULL` if there is none. -/
def headAddr : List Span → Nat
  | [] => 0
  | b :: _ => b.addr

/-- The address of the last block, `d` if there is none. -/
def lastAddr : Nat → List Span → Nat
  | d, [] => d
  | _, b :: bs => lastAddr b.addr bs

/-- The headers of the blocks are apart: sixteen bytes fit before the next one. -/
def Hdrs (l : List Span) : Prop := l.Pairwise fun b c => b.addr + 16 ≤ c.addr

@[simp] theorem headAddr_nil : headAddr [] = 0 := rfl

@[simp] theorem headAddr_cons (b : Span) (bs : List Span) : headAddr (b :: bs) = b.addr := rfl

@[simp] theorem lastAddr_nil (d : Nat) : lastAddr d [] = d := rfl

theorem lastAddr_concat (d : Nat) (l : List Span) (b : Span) :
    lastAddr d (l ++ [b]) = b.addr := by
  induction l generalizing d with
  | nil => rfl
  | cons c cs ih => exact ih c.addr

theorem Hdrs.of_spaced {l : List Span} (hs : Spaced l) (hr : ∀ b ∈ l, 16 ≤ b.size) : Hdrs l := by
  refine List.Pairwise.imp_of_mem ?_ hs
  intro b c hb _ h
  have := hr b hb
  unfold Span.stop at h
  omega

theorem seg_append {m : Store} {l₁ l₂ : List Span} {p q : Nat} :
    Seg m p (l₁ ++ l₂) q ↔ ∃ r, Seg m p l₁ r ∧ Seg m r l₂ q := by
  induction l₁ generalizing p with
  | nil => simp [Seg]
  | cons b bs ih =>
      rw [List.cons_append, Seg, ih]
      constructor
      · rintro ⟨h1, h2, h3, r, h4, h5⟩; exact ⟨r, ⟨h1, h2, h3, h4⟩, h5⟩
      · rintro ⟨r, ⟨h1, h2, h3, h4⟩, h5⟩; exact ⟨h1, h2, h3, r, h4, h5⟩

/-- A segment depends only on the headers of its blocks. -/
theorem Seg.congr {m m' : Store} {l : List Span} {p q : Nat} (h : Seg m p l q)
    (hm : ∀ b ∈ l, ∀ x, b.addr ≤ x → x < b.addr + 16 → m x = m' x) : Seg m' p l q := by
  induction l generalizing p with
  | nil => exact h
  | cons b bs ih =>
      obtain ⟨h1, h2, h3, h4⟩ := h
      have hb := hm b (by simp)
      have hsz : blockSize m b.addr = blockSize m' b.addr :=
        blockSize_congr fun x h1 h2 => hb x h1 (by omega)
      have hnx : blockNext m b.addr = blockNext m' b.addr :=
        blockNext_congr fun x h1 h2 => hb x (by omega) h2
      refine ⟨h1, h2, hsz ▸ h3, ?_⟩
      rw [← hnx]
      exact ih h4 fun c hc => hm c (by simp [hc])

theorem Seg.ne_zero {m : Store} {l : List Span} {p q : Nat} (h : Seg m p l q) :
    ∀ b ∈ l, b.addr ≠ 0 := by
  induction l generalizing p with
  | nil => simp
  | cons b bs ih =>
      intro c hc
      rcases List.mem_cons.mp hc with rfl | hc
      · exact h.2.1
      · exact ih h.2.2.2 c hc

theorem Seg.size {m : Store} {l : List Span} {p q : Nat} (h : Seg m p l q) :
    ∀ b ∈ l, (blockSize m b.addr).toInt = b.size := by
  induction l generalizing p with
  | nil => simp
  | cons b bs ih =>
      intro c hc
      rcases List.mem_cons.mp hc with rfl | hc
      · exact h.2.2.1
      · exact ih h.2.2.2 c hc

theorem Seg.head {m : Store} {l : List Span} {p : Nat} (h : Seg m p l 0) : p = headAddr l := by
  cases l with
  | nil => exact h
  | cons b bs => exact h.1

/-- A memory holds at most one free list from a given head. -/
theorem Seg.unique {m : Store} {l l' : List Span} {p : Nat} (h : Seg m p l 0)
    (h' : Seg m p l' 0) : l = l' := by
  induction l generalizing p l' with
  | nil =>
      cases l' with
      | nil => rfl
      | cons c cs => exact absurd (h'.1.symm.trans h) h'.2.1
  | cons b bs ih =>
      cases l' with
      | nil => exact absurd (h.1.symm.trans h') h.2.1
      | cons c cs =>
          obtain ⟨h1, _, h3, h4⟩ := h
          obtain ⟨h1', _, h3', h4'⟩ := h'
          have haddr : b.addr = c.addr := h1.symm.trans h1'
          have hsize : b.size = c.size := by rw [haddr] at h3; omega
          have hbc : b = c := by cases b; cases c; simp_all
          subst hbc
          rw [ih h4 h4']

/-! ## Redirecting one link -/

theorem setLink_outside {h : Heap} {pre : List Span} {x y : Nat}
    (hx : ∀ b ∈ pre, ¬(b.addr + 8 ≤ x ∧ x < b.addr + 16)) :
    (setLink h (lastAddr 0 pre) y).mem x = h.mem x := by
  unfold setLink
  split
  · rfl
  · rename_i hne
    rcases List.eq_nil_or_concat' pre with rfl | ⟨pre, b, rfl⟩
    · exact absurd rfl hne
    · rw [lastAddr_concat]
      exact setNext_outside (hx b (by simp))

/-- Pointing the link after `pre` at `x` makes `x`'s list the rest of this one. -/
theorem setLink_seg {h : Heap} {pre tail : List Span} {r x : Nat} (hx : x < 2 ^ 64)
    (hpre : Seg h.mem h.head pre r) (htail : Seg h.mem x tail 0) (hh : Hdrs (pre ++ tail)) :
    Seg (setLink h (lastAddr 0 pre) x).mem (setLink h (lastAddr 0 pre) x).head (pre ++ tail) 0 := by
  rcases List.eq_nil_or_concat' pre with rfl | ⟨pre, b, rfl⟩
  · exact htail
  · obtain ⟨r', hp, hb⟩ := seg_append.mp hpre
    have hb0 : b.addr ≠ 0 := hb.2.1
    unfold setLink
    rw [lastAddr_concat, if_neg hb0]
    rw [List.append_assoc] at hh ⊢
    obtain ⟨_, hh2, hh3⟩ := List.pairwise_append.mp hh
    have hh4 := (List.pairwise_cons.mp hh2).1
    refine seg_append.mpr ⟨r', hp.congr ?_, hb.1, hb0, ?_, ?_⟩
    · intro c hc y h1 h2
      have := hh3 c hc b (by simp)
      exact (setNext_outside (by omega)).symm
    · rw [blockSize_setNext]; exact hb.2.2.1
    · rw [blockNext_setNext hx]
      refine htail.congr ?_
      intro c hc y h1 h2
      have := hh4 c hc
      exact (setNext_outside (by omega)).symm

end Cs537.Mem
