import Cs537.Mem.Session
import Mathlib.Algebra.Order.Group.Nat
import Mathlib.Order.Bounds.Basic

/-!
# The first free block and the mapping behind it

`Mem_Init` maps `sizeOfRegion` bytes, that is the pages that hold them, and means to
manage just these pages. It computes the size of its first block from
`numPages = sizeOfRegion % pageSize`, the bytes on the last page where the number of
pages is meant. What comes out is `numPages + 1` pages, modulo `2 ^ 32`.

For a page size that is a power of two this is the size of the mapping for a region
of exactly one page, and otherwise only when the remainder happens to count the
whole pages (`memInit_fits_iff`). Above that the allocator hands out memory it never
mapped, below it pages are lost.
-/

namespace Cs537.Mem

open Lib

/-- The bytes of the pages `mmap` maps for `n` bytes. -/
def mapped (pageSize n : Nat) : Nat := pageSize * ((n + pageSize - 1) / pageSize)

theorem mapped_isLeast {P n : Nat} (hP : 0 < P) : IsLeast {k | P ∣ k ∧ n ≤ k} (mapped P n) := by
  have hdiv := Nat.div_add_mod (n + P - 1) P
  have hmod := Nat.mod_lt (n + P - 1) hP
  refine ⟨⟨Nat.dvd_mul_right _ _, by unfold mapped; omega⟩, ?_⟩
  rintro k ⟨⟨j, rfl⟩, hk⟩
  refine Nat.mul_le_mul_left P ?_
  -- `n ≤ P * j` gives `n + P - 1 < P * (j + 1)`
  refine Nat.lt_succ_iff.mp (Nat.div_lt_of_lt_mul ?_)
  rw [Nat.mul_succ]
  omega

/-- Whole pages, and one more if something is left over. -/
theorem mapped_eq {P n : Nat} (hP : 0 < P) :
    mapped P n = P * (n / P + if n % P = 0 then 0 else 1) := by
  have hn := Nat.div_add_mod n P
  have hmod := Nat.mod_lt n hP
  refine le_antisymm ((mapped_isLeast hP).2 ⟨Nat.dvd_mul_right _ _, ?_⟩) ?_
  · split
    · rw [Nat.add_zero]
      omega
    · rw [Nat.mul_succ]
      omega
  · refine Nat.mul_le_mul_left P ?_
    rw [Nat.le_div_iff_mul_le hP, Nat.mul_comm]
    split
    · rw [Nat.add_zero]
      omega
    · rw [Nat.mul_succ]
      omega

/-- The arithmetic of `Mem_Init`, with wrap-around. -/
theorem trueSize_eq {P n : Nat} (hP : P < 2 ^ 31) (hn : n < 2 ^ 31) :
    Int32.ofNat n + (Int32.ofNat P
        - (Int32.ofNat n - Int32.ofNat n % Int32.ofNat P * Int32.ofNat P))
      = Int32.ofNat (P * (1 + n % P)) := by
  have hmod : Int32.ofNat n % Int32.ofNat P = Int32.ofNat (n % P) := by
    refine Int32.toInt_inj.mp ?_
    rw [Int32.toInt_mod, toInt_ofNat_of_range hn, toInt_ofNat_of_range hP,
      toInt_ofNat_of_range (lt_of_le_of_lt (Nat.mod_le n P) hn)]
    norm_cast
  rw [hmod, Nat.mul_add, Nat.mul_one, Nat.mul_comm P, Int32.ofNat_add, Int32.ofNat_mul]
  grind

theorem succ_mod_iff {m w q : Nat} (hq : q + 1 < w) : (1 + m) % w = q + 1 ↔ m % w = q := by
  have hmod := Nat.mod_lt m (by omega : 0 < w)
  have hone : 1 % w = 1 := Nat.mod_eq_of_lt (by omega)
  rw [Nat.add_mod, hone]
  by_cases hc : 1 + m % w < w
  · rw [Nat.mod_eq_of_lt hc]
    omega
  · have hfull : 1 + m % w = w := by omega
    rw [hfull, Nat.mod_self]
    omega

/-- Where the size computed is the size of the mapping. -/
theorem trueSize_iff {P n : Nat} (hP : ∃ i, P = 2 ^ i) (hn : 0 < n) (hmap : mapped P n < 2 ^ 31) :
    (Int32.ofNat (P * (1 + n % P))).toInt = mapped P n ↔
      n = P ∨ n % P ≠ 0 ∧ n % P % (2 ^ 32 / P) = n / P := by
  have hpos : 0 < P := by
    obtain ⟨i, rfl⟩ := hP
    exact Nat.two_pow_pos i
  have hle : P ≤ mapped P n :=
    Nat.le_of_dvd (lt_of_lt_of_le hn (mapped_isLeast hpos).1.2) (mapped_isLeast hpos).1.1
  -- a page is a power of two below 2^31, so it divides 2^32
  obtain ⟨w, hw⟩ : P ∣ 2 ^ 32 := by
    obtain ⟨i, rfl⟩ := hP
    exact Nat.pow_dvd_pow 2 (Nat.le_of_lt ((Nat.pow_lt_pow_iff_right (by decide)).mp
      (lt_trans (lt_of_le_of_lt hle hmap) (by decide : 2 ^ 31 < 2 ^ 32))))
  have hw2 : 2 < w := by
    by_contra hc
    have : P * w ≤ P * 2 := Nat.mul_le_mul_left P (by omega)
    omega
  have hdivw : 2 ^ 32 / P = w := by rw [hw]; exact Nat.mul_div_cancel_left w hpos
  have hq : n / P + (if n % P = 0 then 0 else 1) < w := by
    rw [mapped_eq hpos] at hmap
    refine (Nat.mul_lt_mul_left hpos).mp ?_
    omega
  rw [toInt_ofNat_eq_iff hmap, mapped_eq hpos, hw, Nat.mul_mod_mul_left, Nat.mul_right_inj (by omega), ← hw, hdivw]
  have hn' := Nat.div_add_mod n P
  by_cases hm : n % P = 0
  · rw [if_pos hm] at hq ⊢
    rw [hm, Nat.add_zero, Nat.mod_eq_of_lt (by omega : 1 < w)]
    constructor
    · intro h1
      have hone : n / P = 1 := h1.symm
      rw [hone, hm, Nat.mul_one] at hn'
      exact Or.inl hn'.symm
    · rintro (rfl | h)
      · rw [Nat.div_self hpos]
      · exact absurd rfl h.1
  · rw [if_neg hm] at hq ⊢
    have hne : n ≠ P := by rintro rfl; exact hm (Nat.mod_self n)
    rw [succ_mod_iff hq]
    exact ⟨fun h => Or.inr ⟨hm, h⟩, fun h => (h.resolve_left hne).2⟩

/-- The heap holds one free block, as large as the pages mapped for `n` bytes at `base`. -/
def FitsMapping (P n base : Nat) (h : Heap) : Prop :=
  ∃ k, IsLeast {k | P ∣ k ∧ n ≤ k} k ∧ Seg h.mem h.head [⟨base, k⟩] 0

/--
**When the first free block fits the mapping.** `mmap` returns a page-aligned address
and maps the pages that hold `n` bytes. The first successful `Mem_Init(n)` leaves a
block of that size exactly when `n` is one page, or the bytes on the last page are as
many as there are whole pages. Then, whatever is called later, nothing outside of the
pages mapped is handed out.
-/
theorem memInit_fits_iff {P n base : Nat} {h : Heap} (hP : ∃ i, P = 2 ^ i) (hn : 0 < n)
    (hmap : mapped P n < 2 ^ 31) (hbase : 0 < base) (hpage : P ∣ base)
    (hstop : base + mapped P n < 2 ^ 64) (ht : h.totalSize = 0) :
    ∃ h', memInit (Int32.ofNat P) (some base) (Int32.ofNat n) h = some (0, h')
      ∧ (FitsMapping P n base h' ↔ n = P ∨ n % P ≠ 0 ∧ n % P % (2 ^ 32 / P) = n / P)
      ∧ (FitsMapping P n base h' → 16 ∣ P → ∀ s freed, Session h' s freed → ∀ l ∈ s.live,
          base + 8 ≤ l.ptr ∧ l.ptr + l.req ≤ base + mapped P n) := by
  have hpos : 0 < P := by
    obtain ⟨i, rfl⟩ := hP
    exact Nat.two_pow_pos i
  have hleast := mapped_isLeast (n := n) hpos
  have hle : P ≤ mapped P n := Nat.le_of_dvd (lt_of_lt_of_le hn hleast.1.2) hleast.1.1
  have hnlt : n < 2 ^ 31 := lt_of_le_of_lt hleast.1.2 hmap
  have hni : (Int32.ofNat n).toInt = n := toInt_ofNat_of_range hnlt
  have hneg : ¬(Int32.ofNat n ≤ 0 ∨ h.totalSize ≠ 0) := by
    rintro (hc | hc)
    · have := (le_iff_of_toInt hni (b := 0) rfl).mp hc
      omega
    · exact hc ht
  let h' : Heap :=
    { h with
      mem := setNext (setSize h.mem base (Int32.ofNat (P * (1 + n % P)))) base 0
      head := base
      totalSize := Int32.ofNat n }
  have hsize : (blockSize h'.mem base) = Int32.ofNat (P * (1 + n % P)) := by
    rw [blockSize_setNext, blockSize_setSize]
  have hnext : blockNext h'.mem base = 0 := blockNext_setNext (by decide)
  have hfits : FitsMapping P n base h' ↔
      (Int32.ofNat (P * (1 + n % P))).toInt = mapped P n := by
    constructor
    · rintro ⟨k, hk, hseg⟩
      rw [← hsize, hleast.unique hk]
      exact hseg.2.2.1
    · intro hk
      exact ⟨mapped P n, hleast, rfl, by dsimp only; omega, by rw [hsize]; exact hk, hnext⟩
  refine ⟨h', ?_, hfits.trans (trueSize_iff hP hn hmap), ?_⟩
  · unfold memInit
    rw [if_neg hneg]
    dsimp only
    rw [trueSize_eq (by omega) hnlt]
  · intro hfit h16 s freed hs l hl
    let r : Region :=
      ⟨base, mapped P n, P, h16, hpage, hleast.1.1, hbase, by omega, hmap, hstop⟩
    have hstart : Start r h' := ⟨rfl, by rw [hsize]; exact hfits.mp hfit, hnext⟩
    obtain ⟨free, hinv⟩ := sysInv_session hstart hs
    have hin := hinv.heap.part.inside (List.mem_append_right free (List.mem_map_of_mem hl))
    obtain ⟨h8, -, hreq⟩ := hinv.fits l hl
    have haddr : l.block.addr = l.ptr - 8 := rfl
    have hrb : r.base = base := rfl
    have hrs : r.size = mapped P n := rfl
    omega

/-- The globals before `Mem_Init`. -/
def blankHeap : Heap := ⟨fun _ => 0, 0, 0, 0⟩

theorem fits_onePageAndOneByte : (mapped 4096 4097 = 8192 ∧ blankHeap.totalSize = 0)
    ∧ ∃ h', memInit (Int32.ofNat 4096) (some 4096) (Int32.ofNat 4097) blankHeap = some (0, h')
      ∧ FitsMapping 4096 4097 4096 h' := by
  refine ⟨by decide, ?_⟩
  obtain ⟨h', h1, h2, -⟩ := @memInit_fits_iff 4096 4097 4096 blankHeap
    ⟨12, rfl⟩ (by decide) (by decide) (by decide) (by decide) (by decide) rfl
  exact ⟨h', h1, h2.mpr (Or.inr (by decide))⟩

/-- What `Mem_Init(4098)` leaves where pages have 4096 bytes. -/
def overHeap : Heap :=
  ((memInit (Int32.ofNat 4096) (some 4096) (Int32.ofNat 4098) blankHeap).getD (0, blankHeap)).2

/--
`Mem_Init(4098)` maps two pages and manages three: `Mem_Alloc(10000)` then returns
memory that ends beyond the mapping.
-/
theorem memInit_overshoots :
    memInit (Int32.ofNat 4096) (some 4096) (Int32.ofNat 4098) blankHeap = some (0, overHeap)
      ∧ mapped 4096 4098 = 8192
      ∧ (blockSize overHeap.mem 4096).toInt = 12288
      ∧ ¬FitsMapping 4096 4098 4096 overHeap
      ∧ ∃ h', memAlloc 2 overHeap (Int32.ofNat 10000) = some (4104, h')
        ∧ 4096 + mapped 4096 4098 < 4104 + 10000 := by
  have hsize : (blockSize overHeap.mem 4096).toInt = 12288 := by decide +kernel
  refine ⟨by with_unfolding_all rfl, by decide, hsize, ?_, ⟨_, by with_unfolding_all rfl, by decide⟩⟩
  rintro ⟨k, hk, hseg⟩
  have hblock : (blockSize overHeap.mem 4096).toInt = k := hseg.2.2.1
  have hle : k ≤ 8192 := hk.2 ⟨by decide, by decide⟩
  omega

end Cs537.Mem
