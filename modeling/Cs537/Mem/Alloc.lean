import Cs537.Mem.FreeList
import Mathlib.Algebra.Order.Group.Nat

/-!
# What `Mem_Alloc` does to the heap

`HeapInv` is the representation invariant: the list in memory is the free list,
its blocks are spaced out in address order, and together with the live blocks
they make up the region. Two clauses that look incidental carry the byte-level
argument. Every block has room for a `block_t`, so a header write to a free block
stays inside it; and a live block's header still says what `Mem_Alloc` wrote.

`memAlloc_spec` covers the four list surgeries at once: the link after `pre` is
redirected either to the remainder of the block or past it, and `setLink` hides
whether that link is `head` or a `next` field.
-/

namespace Cs537.Mem

open Lib

/-- The mapping the allocator manages. -/
structure Region where
  base : Nat
  size : Nat
  pageSize : Nat
  /-- Pages are a power of two, and far larger than this. -/
  page : 16 ∣ pageSize
  base_page : pageSize ∣ base
  size_page : pageSize ∣ size
  base_pos : 0 < base
  size_pos : 0 < size
  size_lt : size < 2 ^ 31
  /-- The mapping lies in the address space. -/
  stop_lt : base + size < 2 ^ 64

/-- The free list is `free`, and with `live` it makes up the region. -/
structure HeapInv (r : Region) (h : Heap) (free live : List Span) : Prop where
  list : Seg h.mem h.head free 0
  spaced : Spaced free
  part : Partition r.base (r.base + r.size) (free ++ live)
  roomy : ∀ b ∈ free ++ live, 16 ≤ b.size
  aligned : ∀ b ∈ free ++ live, 8 ∣ b.addr
  header : ∀ b ∈ live, (blockSize h.mem b.addr).toInt = b.size ∧ usedMagic h.mem b.addr = magicNum

/-- `m'` differs from `m` only inside the blocks of `bs`. -/
def Within (bs : List Span) (m m' : Store) : Prop :=
  ∀ x, (∀ b ∈ bs, ¬b.Covers x) → m' x = m x

section

variable {r : Region} {h : Heap} {free live : List Span} {b : Span}

theorem HeapInv.inside (hi : HeapInv r h free live) (hb : b ∈ free ++ live) :
    r.base ≤ b.addr ∧ b.addr + b.size ≤ r.base + r.size := hi.part.inside hb

theorem HeapInv.hdrs (hi : HeapInv r h free live) : Hdrs free :=
  Hdrs.of_spaced hi.spaced fun b hb => hi.roomy b (List.mem_append_left _ hb)

/-- Writes inside free blocks leave the headers of live ones alone. -/
theorem header_within {bs : List Span} {m m' : Store} (hw : Within bs m m')
    (hap : ∀ c ∈ bs, Span.Apart c b) (hroom : 16 ≤ b.size) :
    blockSize m' b.addr = blockSize m b.addr ∧ usedMagic m' b.addr = usedMagic m b.addr := by
  have hx : ∀ x, b.addr ≤ x → x < b.addr + 8 → m' x = m x := by
    intro x h1 h2
    refine hw x fun c hc hcov => (hap c hc).not_covers hcov ⟨h1, ?_⟩
    unfold Span.stop; omega
  exact ⟨blockSize_congr fun x h1 h2 => hx x h1 (by omega),
    usedMagic_congr fun x h1 h2 => hx x (by omega) h2⟩

/--
The invariant after a change inside the blocks of `bs`: the live blocks of `old` are
apart from these and keep their headers, so only the new list and the blocks of `new`
have to be looked at.
-/
theorem HeapInv.rebuild {h' : Heap} {free' bs new old : List Span} (hi : HeapInv r h free live)
    (hlist : Seg h'.mem h'.head free' 0) (hspaced : Spaced free')
    (hpart : Partition r.base (r.base + r.size) (free' ++ (new ++ old)))
    (hw : Within bs h.mem h'.mem) (hap : ∀ d ∈ old, ∀ c ∈ bs, Span.Apart c d)
    (hold : ∀ d ∈ old, d ∈ live) (hroomy : ∀ d ∈ free' ++ new, 16 ≤ d.size)
    (haligned : ∀ d ∈ free' ++ new, 8 ∣ d.addr)
    (hnew : ∀ d ∈ new, (blockSize h'.mem d.addr).toInt = d.size ∧ usedMagic h'.mem d.addr = magicNum) :
    HeapInv r h' free' (new ++ old) := by
  have hlive : ∀ d ∈ old, d ∈ free ++ live := fun d hd => List.mem_append_right _ (hold d hd)
  refine ⟨hlist, hspaced, hpart, ?_, ?_, ?_⟩
  · intro d hd
    rw [← List.append_assoc] at hd
    rcases List.mem_append.mp hd with hd | hd
    · exact hroomy d hd
    · exact hi.roomy d (hlive d hd)
  · intro d hd
    rw [← List.append_assoc] at hd
    rcases List.mem_append.mp hd with hd | hd
    · exact haligned d hd
    · exact hi.aligned d (hlive d hd)
  · intro d hd
    rcases List.mem_append.mp hd with hd | hd
    · exact hnew d hd
    · obtain ⟨hsize, hmagic⟩ := header_within hw (hap d hd) (hi.roomy d (hlive d hd))
      rw [hsize, hmagic]
      exact hi.header d (hold d hd)

theorem perm_pull (pre post live : List Span) (b : Span) :
    ((pre ++ b :: post) ++ live).Perm (b :: ((pre ++ post) ++ live)) := by
  rw [List.append_assoc, List.cons_append, List.append_assoc]
  exact List.perm_middle

end

/-! ## The size of a request -/

/-- The least multiple of 8 above `n + 8`. -/
def need (n : Nat) : Nat := n + 8 + (8 - (n + 8) % 8)

theorem need_bounds (n : Nat) : n + 8 < need n ∧ need n ≤ n + 16 ∧ 8 ∣ need n := by
  unfold need; omega

theorem roundUp_toInt {n : Int32} {k : Nat} (hn : n.toInt = k) (hk : k ≤ 2 ^ 31 - 17) :
    (roundUp n).toInt = need k := by
  unfold roundUp sizeofUsed
  dsimp only
  have h8 : (8 : Int32).toInt = 8 := rfl
  -- below 2^31 - 16 no step overflows
  have h1 : (n + 8).toInt = k + 8 := by
    rw [toInt_add_of_range (by omega) (by omega), hn, h8]
  have h2 : ((n + 8) % 8).toInt = ((k + 8) % 8 : Nat) := by
    rw [Int32.toInt_mod, h1, h8]; norm_cast
  have h3 : (8 - (n + 8) % 8).toInt = ((8 - (k + 8) % 8 : Nat) : Int) := by
    rw [toInt_sub_of_range (by omega) (by omega), h2, h8]; omega
  rw [toInt_add_of_range (by omega) (by omega), h1, h3]
  unfold need; omega

/-! ## The search loop finds the best fit -/

/-- `b` is the first of the smallest blocks of `free` that hold `need` bytes. -/
structure Best (need : Nat) (free pre : List Span) (b : Span) (post : List Span) : Prop where
  split : free = pre ++ b :: post
  fits : need ≤ b.size
  before : ∀ c ∈ pre, c.size < need ∨ b.size < c.size
  after : ∀ c ∈ post, c.size < need ∨ b.size ≤ c.size

/-- What `best` and `bestprev` say about the blocks passed so far. -/
def BestSoFar (need : Nat) (passed : List Span) (best bestprev : Nat) : Prop :=
  (best = 0 ∧ ∀ b ∈ passed, b.size < need) ∨
    ∃ pre b post, Best need passed pre b post ∧ best = b.addr ∧ bestprev = lastAddr 0 pre

theorem bestSoFar_skip {n best bestprev : Nat} {passed : List Span} {c : Span}
    (h : BestSoFar n passed best bestprev)
    (hc : c.size < n ∨ best ≠ 0 ∧ ∀ pre b post, Best n passed pre b post → best = b.addr →
      b.size ≤ c.size) : BestSoFar n (passed ++ [c]) best bestprev := by
  rcases h with ⟨h0, hall⟩ | ⟨pre, b, post, hb, rfl, rfl⟩
  · refine Or.inl ⟨h0, ?_⟩
    intro d hd
    rcases List.mem_append.mp hd with hd | hd
    · exact hall d hd
    · rw [List.mem_singleton] at hd
      subst hd
      exact hc.resolve_right fun h => h.1 h0
  · refine Or.inr ⟨pre, b, post ++ [c], ⟨?_, hb.fits, hb.before, ?_⟩, rfl, rfl⟩
    · rw [hb.split, List.append_assoc, List.cons_append]
    · intro d hd
      rcases List.mem_append.mp hd with hd | hd
      · exact hb.after d hd
      · rw [List.mem_singleton] at hd
        subst hd
        exact hc.imp_right fun h => h.2 pre b post hb rfl

theorem bestSoFar_take {n : Nat} {passed : List Span} {c : Span} (hc : n ≤ c.size)
    (hall : ∀ d ∈ passed, d.size < n ∨ c.size < d.size) :
    BestSoFar n (passed ++ [c]) c.addr (lastAddr 0 passed) :=
  Or.inr ⟨passed, c, [], ⟨rfl, hc, hall, by simp⟩, rfl, rfl⟩

theorem searchLoop_spec {m : Store} {size : Int32} {n : Nat} (hsize : size.toInt = n) :
    ∀ (l passed : List Span) (fuel ptr best bestprev : Nat),
      Seg m ptr l 0 → l.length < fuel → (∀ b ∈ passed, b.addr ≠ 0) →
      (∀ b ∈ passed, (blockSize m b.addr).toInt = b.size) → BestSoFar n passed best bestprev →
      ∃ best' bestprev',
        searchLoop m size fuel ptr (lastAddr 0 passed) best bestprev = some (best', bestprev')
          ∧ BestSoFar n (passed ++ l) best' bestprev' := by
  intro l
  induction l with
  | nil =>
      intro passed fuel ptr best bestprev hseg hfuel _ _ hbest
      obtain ⟨f, rfl⟩ : ∃ f, fuel = f + 1 := ⟨fuel - 1, by simp at hfuel; omega⟩
      refine ⟨best, bestprev, ?_, by simpa using hbest⟩
      have hp0 : ptr = 0 := hseg
      rw [searchLoop, if_pos hp0]
  | cons c cs ih =>
      intro passed fuel ptr best bestprev hseg hfuel hne hsz hbest
      obtain ⟨f, rfl⟩ : ∃ f, fuel = f + 1 := ⟨fuel - 1, by simp at hfuel; omega⟩
      obtain ⟨rfl, hc0, hcs, hrest⟩ := hseg
      have hlast : lastAddr 0 (passed ++ [c]) = c.addr := lastAddr_concat _ _ _
      -- whatever the comparison says, the loop goes on with `c` among the blocks passed
      have next : ∀ best' bestprev', BestSoFar n (passed ++ [c]) best' bestprev' →
          ∃ best'' bestprev'', searchLoop m size f (blockNext m c.addr) c.addr best' bestprev'
            = some (best'', bestprev'') ∧ BestSoFar n (passed ++ c :: cs) best'' bestprev'' := by
        intro best' bestprev' hb
        have := ih (passed ++ [c]) f (blockNext m c.addr) best' bestprev' hrest
          (by simp at hfuel; omega)
          (by
            intro d hd
            rcases List.mem_append.mp hd with hd | hd
            · exact hne d hd
            · rw [List.mem_singleton] at hd; exact hd ▸ hc0)
          (by
            intro d hd
            rcases List.mem_append.mp hd with hd | hd
            · exact hsz d hd
            · rw [List.mem_singleton] at hd; exact hd ▸ hcs) hb
        rw [hlast, List.append_assoc] at this
        exact this
      have hge : blockSize m c.addr ≥ size ↔ n ≤ c.size := le_iff_of_toInt hsize hcs
      rw [searchLoop, if_neg hc0]
      by_cases hfit : n ≤ c.size
      · rw [if_pos (hge.mpr hfit)]
        by_cases hb0 : best ≠ 0
        · rw [if_pos hb0]
          obtain ⟨pre, b, post, hb, rfl, rfl⟩ : ∃ pre b post, Best n passed pre b post
              ∧ best = b.addr ∧ bestprev = lastAddr 0 pre := by
            rcases hbest with ⟨h, _⟩ | h
            · exact absurd h hb0
            · exact h
          have hbm : b ∈ passed := by rw [hb.split]; simp
          have hgt : blockSize m b.addr > blockSize m c.addr ↔ c.size < b.size :=
            lt_iff_of_toInt hcs (hsz b hbm)
          by_cases hlt : c.size < b.size
          · -- `c` fits better than the best block so far
            rw [if_pos (hgt.mpr hlt)]
            refine next _ _ (bestSoFar_take hfit ?_)
            intro d hd
            rw [hb.split] at hd
            have h1 := hb.before d
            have h2 := hb.after d
            rcases List.mem_append.mp hd with hd | hd
            · rcases h1 hd with h | h <;> omega
            · rcases List.mem_cons.mp hd with rfl | hd
              · omega
              · rcases h2 hd with h | h <;> omega
          · -- equal sizes keep the earlier block
            rw [if_neg (fun h => hlt (hgt.mp h))]
            refine next _ _ (bestSoFar_skip (Or.inr ⟨pre, b, post, hb, rfl, rfl⟩) (Or.inr ⟨hb0, ?_⟩))
            intro pre' b' post' hb' heq
            have hbm' : b' ∈ passed := by rw [hb'.split]; simp
            have h1 := hsz b hbm
            have h2 := hsz b' hbm'
            rw [← heq] at h2
            omega
        · -- `c` is the first that fits
          rw [if_neg hb0]
          refine next _ _ (bestSoFar_take hfit ?_)
          intro d hd
          rcases hbest with ⟨_, hall⟩ | ⟨pre, b, post, hb, rfl, _⟩
          · exact Or.inl (hall d hd)
          · exact absurd (hne b (by rw [hb.split]; simp)) (by simpa using hb0)
      · rw [if_neg (fun h => hfit (hge.mp h))]
        exact next _ _ (bestSoFar_skip hbest (Or.inl (by omega)))

/-! ## Taking the block -/

section

variable {r : Region} {h : Heap} {pre post live : List Span} {b : Span}

/-- The link after a free block is the next free block. -/
theorem HeapInv.next_lt (hi : HeapInv r h (pre ++ b :: post) live) :
    blockNext h.mem b.addr < 2 ^ 64 := by
  obtain ⟨_, _, hb⟩ := seg_append.mp hi.list
  have hn : blockNext h.mem b.addr = headAddr post := Seg.head hb.2.2.2
  have hstop := r.stop_lt
  rw [hn]
  cases post with
  | nil => decide
  | cons c cs =>
      have := hi.inside (b := c) (by simp)
      show c.addr < 2 ^ 64
      omega

/-- The header write of `Mem_Alloc`. -/
theorem writeHeader_outside {m : Store} {p x : Nat} {v : Int32} (hx : ¬(p ≤ x ∧ x < p + 8)) :
    setMagic (setSize m p v) p magicNum x = m x := by
  rw [setMagic_outside (by omega), setSize_outside (by omega)]

theorem HeapInv.below (hi : HeapInv r h (pre ++ b :: post) live) {c : Span} (hc : c ∈ pre) :
    c.addr + 16 ≤ b.addr :=
  (List.pairwise_append.mp hi.hdrs).2.2 c hc b (by simp)

theorem HeapInv.above (hi : HeapInv r h (pre ++ b :: post) live) {c : Span} (hc : c ∈ post) :
    b.stop < c.addr :=
  (List.pairwise_cons.mp (List.pairwise_append.mp hi.spaced).2.1).1 c hc

/-- `Mem_Alloc` splits the block when more than `minimumSize` bytes remain. -/
theorem takeBlock_split {size : Int32} {n : Nat} (hi : HeapInv r h (pre ++ b :: post) live)
    (hsize : size.toInt = n) (hn : 16 ≤ n) (hn8 : 8 ∣ n) (hrem : 24 < b.size - n) :
    ∃ h', takeBlock h size b.addr (lastAddr 0 pre) = (b.addr + 8, h')
      ∧ HeapInv r h' (pre ++ ⟨b.addr + n, b.size - n⟩ :: post) (⟨b.addr, n⟩ :: live)
      ∧ Within (pre ++ b :: post) h.mem h'.mem
      ∧ h'.mError = h.mError := by
  have hbm : b ∈ (pre ++ b :: post) ++ live := by simp
  obtain ⟨hb1, hb2⟩ := hi.inside hbm
  have hstop := r.stop_lt
  have hsz := r.size_lt
  obtain ⟨r0, hpre, hba, hb0, hbs, hpost⟩ := seg_append.mp hi.list
  have hcur : (blockSize h.mem b.addr - size).toInt = (b.size - n : Nat) := by
    rw [toInt_sub_of_range (by omega) (by omega), hbs, hsize]; omega
  have hgt : blockSize h.mem b.addr - size > minimumSize :=
    (lt_iff_of_toInt (x := minimumSize) (a := 24) rfl hcur).mpr hrem
  have hptr : ptrAdd b.addr size = b.addr + n := ptrAdd_of_toInt hsize (by omega)
  have hret : ptrAdd b.addr sizeofUsed = b.addr + 8 := ptrAdd_of_toInt (n := 8) rfl (by omega)
  -- the memory just before the link to the remainder is set
  set m1 := setMagic (setSize h.mem b.addr size) b.addr magicNum with hm1
  set m2 := setNext (setSize m1 (b.addr + n) (blockSize h.mem b.addr - size)) (b.addr + n)
    (blockNext h.mem b.addr) with hm2
  have hout : ∀ x, ¬(b.addr ≤ x ∧ x < b.addr + n + 16) → m2 x = h.mem x := by
    intro x hx
    rw [hm2, setNext_outside (by omega), setSize_outside (by omega), hm1,
      writeHeader_outside (by omega)]
  have hhdr : ∀ x, x < b.addr + n → m2 x = m1 x := by
    intro x hx
    rw [hm2, setNext_outside (by omega), setSize_outside (by omega)]
  set h2 : Heap := { h with mem := m2 } with hh2
  have hnew : Spaced (pre ++ ⟨b.addr + n, b.size - n⟩ :: post) :=
    hi.spaced.shrink (by simp) (by simp only [Span.stop]; omega)
  have hroomy : ∀ c ∈ (pre ++ ⟨b.addr + n, b.size - n⟩ :: post), 16 ≤ c.size := by
    intro c hc
    rcases List.mem_append.mp hc with hc | hc
    · exact hi.roomy c (by simp [hc])
    · rcases List.mem_cons.mp hc with rfl | hc
      · show 16 ≤ b.size - n
        omega
      · exact hi.roomy c (by simp [hc])
  -- the remainder heads the rest of the list
  have hseg : Seg m2 (b.addr + n) (⟨b.addr + n, b.size - n⟩ :: post) 0 := by
    refine ⟨rfl, by simp; omega, ?_, ?_⟩
    · show (blockSize m2 (b.addr + n)).toInt = _
      rw [hm2, blockSize_setNext, blockSize_setSize]; exact hcur
    · show Seg m2 (blockNext m2 (b.addr + n)) post 0
      rw [hm2, blockNext_setNext hi.next_lt, ← hm2]
      refine hpost.congr fun c hc x h1 h2 => (hout x ?_).symm
      have := hi.above hc
      unfold Span.stop at this
      omega
  have hpre2 : Seg h2.mem h2.head pre r0 := by
    refine hpre.congr fun c hc x h1 h2 => (hout x ?_).symm
    have := hi.below hc
    omega
  have hlink := setLink_seg (h := h2) (x := b.addr + n) (by omega) hpre2 hseg
    (Hdrs.of_spaced hnew hroomy)
  have hwithin : Within (pre ++ b :: post) h.mem
      (setLink h2 (lastAddr 0 pre) (b.addr + n)).mem := by
    intro x hx
    rw [setLink_outside, hh2]
    · refine hout x fun hc => hx b (by simp) ⟨hc.1, ?_⟩
      unfold Span.stop; omega
    · intro c hc hcov
      have := hi.roomy c (by simp [hc])
      exact hx c (by simp [hc]) ⟨by omega, by unfold Span.stop; omega⟩
  have hown : ∀ x, b.addr ≤ x → x < b.addr + 8 →
      (setLink h2 (lastAddr 0 pre) (b.addr + n)).mem x = m1 x := by
    intro x h1 h2'
    rw [setLink_outside, hh2]
    · exact hhdr x (by omega)
    · intro c hc
      have := hi.below hc
      omega
  have hpart : Partition r.base (r.base + r.size)
      ((pre ++ ⟨b.addr + n, b.size - n⟩ :: post) ++ ([⟨b.addr, n⟩] ++ live)) := by
    have hp := hi.part.perm (perm_pull pre post live b)
    have hbe : b = ⟨b.addr, n + (b.size - n)⟩ := by rw [Nat.add_sub_of_le (by omega)]
    rw [hbe] at hp
    refine (hp.cut (by omega) (by omega)).perm (List.Perm.trans ?_ List.perm_middle.symm)
    exact List.Perm.cons _ (perm_pull pre post live _).symm
  have hb8 := hi.aligned b hbm
  refine ⟨setLink h2 (lastAddr 0 pre) (b.addr + n), ?_, @HeapInv.rebuild _ _ _ _ _ _ _ [⟨b.addr, n⟩] _ hi
    hlink hnew hpart hwithin (fun d hd c hc => hi.part.apart_of_append hc hd) (fun _ hd => hd)
    ?_ ?_ ?_, hwithin, ?_⟩
  · unfold takeBlock
    dsimp only
    rw [if_pos hgt, hptr, hret]
  · intro c hc
    rcases List.mem_append.mp hc with hc | hc
    · exact hroomy c hc
    · rw [List.mem_singleton.mp hc]
      exact hn
  · intro c hc
    rcases List.mem_append.mp hc with hc | hc
    · rcases List.mem_append.mp hc with hc | hc
      · exact hi.aligned c (by simp [hc])
      · rcases List.mem_cons.mp hc with rfl | hc
        · exact Nat.dvd_add hb8 hn8
        · exact hi.aligned c (by simp [hc])
    · rw [List.mem_singleton.mp hc]
      exact hb8
  · intro c hc
    rw [List.mem_singleton.mp hc]
    -- the link to the remainder lies before `b`, so the header is as it was written
    refine ⟨?_, ?_⟩
    · rw [blockSize_congr (k := m1) fun x h1 h2 => hown x h1 (by omega), hm1, blockSize_setMagic,
        blockSize_setSize]
      exact hsize
    · rw [usedMagic_congr (k := m1) fun x h1 h2 => hown x (by omega) h2, hm1, usedMagic_setMagic]
  · unfold setLink; split <;> rfl

/--
Otherwise the whole block is handed out, the remainder with it. Whatever `size` was,
the size the header ends up with is the one of the block.
-/
theorem takeBlock_whole {size : Int32} (hi : HeapInv r h (pre ++ b :: post) live)
    (hngt : ¬blockSize h.mem b.addr - size > minimumSize) :
    ∃ h', takeBlock h size b.addr (lastAddr 0 pre) = (b.addr + 8, h')
      ∧ HeapInv r h' (pre ++ post) (b :: live)
      ∧ Within (pre ++ b :: post) h.mem h'.mem
      ∧ h'.mError = h.mError := by
  have hbm : b ∈ (pre ++ b :: post) ++ live := by simp
  obtain ⟨hb1, hb2⟩ := hi.inside hbm
  have hstop := r.stop_lt
  have hsz := r.size_lt
  have hroom := hi.roomy b hbm
  have hperm : ((pre ++ b :: post) ++ live).Perm ((pre ++ post) ++ b :: live) :=
    (perm_pull pre post live b).trans List.perm_middle.symm
  obtain ⟨r0, hpre, hba, hb0, hbs, hpost⟩ := seg_append.mp hi.list
  have hret : ptrAdd b.addr sizeofUsed = b.addr + 8 := ptrAdd_of_toInt (n := 8) rfl (by omega)
  set m1 := setMagic (setSize h.mem b.addr size) b.addr magicNum with hm1
  set h1 : Heap := { h with mem := m1 } with hh1
  have hout : ∀ x, ¬(b.addr ≤ x ∧ x < b.addr + 8) → m1 x = h.mem x := fun x hx => by
    rw [hm1, writeHeader_outside hx]
  have hnew : Spaced (pre ++ post) := hi.spaced.drop_middle
  have hroomy : ∀ c ∈ pre ++ post, 16 ≤ c.size := by
    intro c hc
    rcases List.mem_append.mp hc with hc | hc <;> exact hi.roomy c (by simp [hc])
  have hpre1 : Seg h1.mem h1.head pre r0 := by
    refine hpre.congr fun c hc x h1 h2 => (hout x ?_).symm
    have := hi.below hc
    omega
  have hpost1 : Seg h1.mem (blockNext h.mem b.addr) post 0 := by
    refine hpost.congr fun c hc x h1 h2 => (hout x ?_).symm
    have := hi.above hc
    unfold Span.stop at this
    omega
  have hlink := setLink_seg hi.next_lt hpre1 hpost1 (Hdrs.of_spaced hnew hroomy)
  set h2 := setLink h1 (lastAddr 0 pre) (blockNext h.mem b.addr) with hh2
  have hown : ∀ x, b.addr ≤ x → x < b.addr + 8 → h2.mem x = m1 x := by
    intro x h1 h2'
    rw [hh2, setLink_outside]
    intro c hc
    have := hi.below hc
    omega
  -- the header was written with the size asked for; the remainder is added to it
  have hgrow : (blockSize h2.mem b.addr + (blockSize h.mem b.addr - size)).toInt = b.size := by
    have hsz2 : blockSize h2.mem b.addr = size := by
      rw [blockSize_congr (k := m1) fun x h1 h2 => hown x h1 (by omega), hm1,
        blockSize_setMagic, blockSize_setSize]
    rw [hsz2, Int32.add_comm, Int32.sub_add_cancel]
    exact hbs
  set m3 := setSize h2.mem b.addr (blockSize h2.mem b.addr + (blockSize h.mem b.addr - size))
    with hm3
  have hout3 : ∀ x, ¬(b.addr ≤ x ∧ x < b.addr + 4) → m3 x = h2.mem x := fun x hx => by
    rw [hm3, setSize_outside hx]
  have hwithin : Within (pre ++ b :: post) h.mem m3 := by
    intro x hx
    have hxb : ¬(b.addr ≤ x ∧ x < b.addr + 16) := fun hc =>
      hx b (by simp) ⟨hc.1, by unfold Span.stop; omega⟩
    rw [hout3 x (by omega), hh2, setLink_outside, hh1]
    · exact hout x (by omega)
    · intro c hc hcov
      have := hi.roomy c (by simp [hc])
      exact hx c (by simp [hc]) ⟨by omega, by unfold Span.stop; omega⟩
  have hlist : Seg m3 h2.head (pre ++ post) 0 := by
    refine hlink.congr fun c hc x h1 h2' => (hout3 x ?_).symm
    rcases List.mem_append.mp hc with hc | hc
    · have := hi.below hc
      omega
    · have := hi.above hc
      unfold Span.stop at this
      omega
  have hold : ∀ c ∈ (pre ++ post) ++ [b], c ∈ (pre ++ b :: post) ++ live := by
    intro c hc
    refine hperm.mem_iff.mpr ?_
    rcases List.mem_append.mp hc with hc | hc
    · exact List.mem_append_left _ hc
    · rw [List.mem_singleton.mp hc]
      exact List.mem_append_right _ (List.mem_cons_self ..)
  refine ⟨{ h2 with mem := m3 }, ?_, @HeapInv.rebuild _ _ _ _ { h2 with mem := m3 } _ _ [b] _ hi hlist hnew
    (hi.part.perm hperm) hwithin (fun d hd c hc => hi.part.apart_of_append hc hd) (fun _ hd => hd)
    (fun c hc => hi.roomy c (hold c hc)) (fun c hc => hi.aligned c (hold c hc)) ?_, hwithin, ?_⟩
  · unfold takeBlock
    dsimp only
    rw [if_neg hngt, hret]
  · intro c hc
    rw [List.mem_singleton.mp hc]
    refine ⟨?_, ?_⟩
    · show (blockSize m3 b.addr).toInt = b.size
      rw [hm3, blockSize_setSize]; exact hgrow
    · show usedMagic m3 b.addr = magicNum
      rw [usedMagic_congr (k := h2.mem) fun x h1 h2 => hout3 x (by omega),
        usedMagic_congr (k := m1) fun x h1 h2 => hown x (by omega) h2, hm1, usedMagic_setMagic]
  · show h2.mError = h.mError
    rw [hh2]; unfold setLink; split <;> rfl

theorem not_split {size : Int32} {n : Nat} (hi : HeapInv r h (pre ++ b :: post) live)
    (hsize : size.toInt = n) (hfit : n ≤ b.size) (hrem : b.size - n ≤ 24) :
    ¬blockSize h.mem b.addr - size > minimumSize := by
  have hb2 := (hi.inside (b := b) (by simp)).2
  have hsz := r.size_lt
  have hbs := hi.list.size b (by simp)
  have hcur : (blockSize h.mem b.addr - size).toInt = (b.size - n : Nat) := by
    rw [toInt_sub_of_range (by omega) (by omega), hbs, hsize]; omega
  intro hc
  exact absurd ((lt_iff_of_toInt (x := minimumSize) (a := 24) rfl hcur).mp hc) (by omega)

end

/-! ## `Mem_Alloc` as a whole -/

/-- The blocks `Mem_Alloc` leaves of the free block `b` it takes `n` bytes from. -/
def leftover (b : Span) (n : Nat) : List Span :=
  if 24 < b.size - n then [⟨b.addr + n, b.size - n⟩] else []

/-- The block `Mem_Alloc` makes of it. -/
def handedOut (b : Span) (n : Nat) : Span :=
  if 24 < b.size - n then ⟨b.addr, n⟩ else b

@[simp] theorem handedOut_addr (b : Span) (n : Nat) : (handedOut b n).addr = b.addr := by
  unfold handedOut; split <;> rfl

theorem le_handedOut_size {b : Span} {n : Nat} (h : n ≤ b.size) : n ≤ (handedOut b n).size := by
  unfold handedOut; split
  · exact Nat.le_refl _
  · exact h

theorem HeapInv.setError {r : Region} {h : Heap} {free live : List Span}
    (hi : HeapInv r h free live) (e : Int32) : HeapInv r { h with mError := e } free live :=
  ⟨hi.list, hi.spaced, hi.part, hi.roomy, hi.aligned, hi.header⟩

/--
**`Mem_Alloc` on a well-formed heap.** With fuel to walk the list, it either finds
no block large enough and only sets `m_error`, or takes the best fit.
-/
theorem memAlloc_spec {r : Region} {h : Heap} {free live : List Span}
    (hi : HeapInv r h free live) {n fuel : Nat} (hn : 1 ≤ n) (hn' : n ≤ 2 ^ 31 - 17)
    (hfuel : free.length < fuel) :
    ((∀ b ∈ free, b.size < need n)
        ∧ memAlloc fuel h (Int32.ofNat n) = some (0, { h with mError := eNoSpace })) ∨
      ∃ pre b post h', Best (need n) free pre b post
        ∧ memAlloc fuel h (Int32.ofNat n) = some (b.addr + 8, h')
        ∧ HeapInv r h' (pre ++ leftover b (need n) ++ post) (handedOut b (need n) :: live)
        ∧ Within free h.mem h'.mem
        ∧ h'.mError = h.mError := by
  have hni : (Int32.ofNat n).toInt = n := toInt_ofNat_of_range (by omega)
  have hpos : ¬Int32.ofNat n ≤ 0 := fun hc => by
    have := (le_iff_of_toInt hni (b := 0) rfl).mp hc
    omega
  have hsize := roundUp_toInt hni hn'
  obtain ⟨hneed, -, hneed8⟩ := need_bounds n
  obtain ⟨best, bestprev, hloop, hbest⟩ := searchLoop_spec hsize free [] fuel h.head 0 0 hi.list
    hfuel (by simp) (by simp) (Or.inl ⟨rfl, by simp⟩)
  have hloop' : searchLoop h.mem (roundUp (Int32.ofNat n)) fuel h.head 0 0 0
      = some (best, bestprev) := hloop
  rw [List.nil_append] at hbest
  rcases hbest with ⟨rfl, hall⟩ | ⟨pre, b, post, hb, rfl, rfl⟩
  · refine Or.inl ⟨hall, ?_⟩
    unfold memAlloc
    rw [if_neg hpos]
    dsimp only
    rw [hloop']
    simp only [if_true]
  · refine Or.inr ⟨pre, b, post, ?_⟩
    have hsplit := hb.split
    subst hsplit
    have hb0 : b.addr ≠ 0 := hi.list.ne_zero b (by simp)
    -- the loop found `b`, and the rest is `takeBlock`
    have hcall : ∀ q, takeBlock h (roundUp (Int32.ofNat n)) b.addr (lastAddr 0 pre) = q →
        memAlloc fuel h (Int32.ofNat n) = some q := by
      intro q hq
      unfold memAlloc
      rw [if_neg hpos]
      dsimp only
      rw [hloop']
      simp only [if_neg hb0, hq]
    by_cases hrem : 24 < b.size - need n
    · obtain ⟨h', h1, h2, h3, h4⟩ := takeBlock_split hi hsize (by omega) hneed8 hrem
      refine ⟨h', hb, hcall _ h1, ?_, h3, h4⟩
      rw [leftover, handedOut, if_pos hrem, if_pos hrem, List.append_assoc]
      exact h2
    · obtain ⟨h', h1, h2, h3, h4⟩ :=
        takeBlock_whole hi (not_split hi hsize hb.fits (by omega))
      refine ⟨h', hb, hcall _ h1, ?_, h3, h4⟩
      rw [leftover, handedOut, if_neg hrem, if_neg hrem, List.append_nil]
      exact h2

end Cs537.Mem
