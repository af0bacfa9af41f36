import Cs537.Mem.Run

/-!
# Whole sessions with the allocator

`Step` lets a client ask for what `Mem_Alloc` can compute with and give back what
it holds. A session is less careful: any `int` may be passed to `Mem_Alloc`, and
calls that are refused (a request that finds no block, `NULL` or an unknown pointer
given back, a second `Mem_Init`) are part of it, as are the pointers that have been
given back, which the client may still know.

Two things keep `SysInv` going. A refused call changes `m_error` and nothing else.
And a request so large that its size wraps around is negative by the time the list
is searched, so every block is large enough for it: `memAlloc_wrapped` says that
the smallest one is handed out whole. The heap stays well formed, it is the caller
who holds less than it asked for.
-/

namespace Cs537.Mem

open Lib

/-! ## Requests that wrap around -/

theorem roundUp_wrapped {n : Nat} (h1 : 2 ^ 31 - 17 < n) (h2 : n < 2 ^ 31) :
    (roundUp (Int32.ofNat n)).toInt ≤ -2 ^ 31 + 16 := by
  have hall : ∀ k < 16, (roundUp (Int32.ofNat (2 ^ 31 - 16 + k))).toInt ≤ -2 ^ 31 + 16 := by
    decide
  have h := hall (n - (2 ^ 31 - 16)) (by omega)
  rwa [Nat.add_sub_of_le (by omega)] at h

/-- A negative size is searched for as if nothing had been asked for. -/
theorem searchLoop_neg {m : Store} {size : Int32} (hsize : size.toInt ≤ 0) :
    ∀ (l : List Span) (fuel ptr prev best bestprev : Nat), Seg m ptr l 0 → l.length < fuel →
      searchLoop m size fuel ptr prev best bestprev
        = searchLoop m 0 fuel ptr prev best bestprev := by
  intro l
  induction l with
  | nil =>
      intro fuel ptr prev best bestprev hseg hfuel
      obtain ⟨f, rfl⟩ : ∃ f, fuel = f + 1 := ⟨fuel - 1, by simp at hfuel; omega⟩
      have hp0 : ptr = 0 := hseg
      rw [searchLoop, searchLoop, if_pos hp0, if_pos hp0]
  | cons c cs ih =>
      intro fuel ptr prev best bestprev hseg hfuel
      obtain ⟨f, rfl⟩ : ∃ f, fuel = f + 1 := ⟨fuel - 1, by simp at hfuel; omega⟩
      obtain ⟨rfl, hc0, hcs, hrest⟩ := hseg
      have next : ∀ best' bestprev', searchLoop m size f (blockNext m c.addr) c.addr best' bestprev'
          = searchLoop m 0 f (blockNext m c.addr) c.addr best' bestprev' := fun best' bestprev' =>
        ih f _ _ best' bestprev' hrest (by simp at hfuel; omega)
      -- no block is smaller than a negative size
      have hge : blockSize m c.addr ≥ size := Int32.le_iff_toInt_le.mpr (by omega)
      have hge0 : blockSize m c.addr ≥ 0 := Int32.le_iff_toInt_le.mpr (by rw [hcs]; simp)
      rw [searchLoop, searchLoop, if_neg hc0, if_neg hc0, if_pos hge, if_pos hge0, next, next]

section

variable {r : Region} {h : Heap} {free live : List Span}

/-- **`Mem_Alloc` on a request that wraps around**: the smallest block there is. -/
theorem memAlloc_wrapped (hi : HeapInv r h free live) {n fuel : Nat} (hn : 2 ^ 31 - 17 < n)
    (hn' : n < 2 ^ 31) (hfuel : free.length < fuel) :
    (free = [] ∧ memAlloc fuel h (Int32.ofNat n) = some (0, { h with mError := eNoSpace })) ∨
      ∃ pre b post h', Best 0 free pre b post
        ∧ memAlloc fuel h (Int32.ofNat n) = some (b.addr + 8, h')
        ∧ HeapInv r h' (pre ++ post) (b :: live)
        ∧ Within free h.mem h'.mem
        ∧ h'.mError = h.mError := by
  have hni : (Int32.ofNat n).toInt = n := toInt_ofNat_of_range hn'
  have hpos : ¬Int32.ofNat n ≤ 0 := fun hc => by
    have := (le_iff_of_toInt hni (b := 0) rfl).mp hc
    omega
  have hsize := roundUp_wrapped hn hn'
  have hmin := Int32.le_toInt (roundUp (Int32.ofNat n))
  obtain ⟨best, bestprev, hloop, hbest⟩ := @searchLoop_spec h.mem 0 0 rfl free [] fuel
    h.head 0 0 hi.list hfuel (by simp) (by simp) (Or.inl ⟨rfl, by simp⟩)
  have hloop' : searchLoop h.mem (roundUp (Int32.ofNat n)) fuel h.head 0 0 0
      = some (best, bestprev) := by
    rw [searchLoop_neg (by omega) free fuel h.head 0 0 0 hi.list hfuel]
    exact hloop
  rw [List.nil_append] at hbest
  rcases hbest with ⟨rfl, hall⟩ | ⟨pre, b, post, hb, rfl, rfl⟩
  · refine Or.inl ⟨List.eq_nil_iff_forall_not_mem.mpr fun b hb => Nat.not_lt_zero _ (hall b hb), ?_⟩
    unfold memAlloc
    rw [if_neg hpos]
    dsimp only
    rw [hloop']
    simp only [if_true]
  · refine Or.inr ⟨pre, b, post, ?_⟩
    have hsplit := hb.split
    subst hsplit
    have hb0 : b.addr ≠ 0 := hi.list.ne_zero b (by simp)
    have hbs := hi.list.size b (by simp)
    have hroom := hi.roomy b (by simp)
    have hin := hi.inside (b := b) (by simp)
    have hlt := r.size_lt
    -- the remainder wraps around as well, to something negative
    have hngt : ¬blockSize h.mem b.addr - roundUp (Int32.ofNat n) > minimumSize := by
      have hmod : (blockSize h.mem b.addr - roundUp (Int32.ofNat n)).toInt
          = b.size - (roundUp (Int32.ofNat n)).toInt - 2 ^ 32 := by
        rw [Int32.toInt_sub, hbs, Int.bmod_def]
        omega
      have h24 : minimumSize.toInt = 24 := rfl
      intro hc
      have := Int32.lt_iff_toInt_lt.mp hc
      omega
    obtain ⟨h', h1, h2, h3, h4⟩ := takeBlock_whole hi hngt
    refine ⟨h', hb, ?_, h2, h3, h4⟩
    unfold memAlloc
    rw [if_neg hpos]
    dsimp only
    rw [hloop']
    simp only [if_neg hb0, h1]

/-! ## Refused calls -/

/-- Every call of `Mem_Alloc` returns, and one that returns `NULL` only sets `m_error`. -/
theorem memAlloc_total (hi : HeapInv r h free live) (size : Int32) {fuel : Nat}
    (hfuel : free.length < fuel) : ∃ p h', memAlloc fuel h size = some (p, h')
      ∧ (p = 0 → ∃ e, h' = { h with mError := e }) := by
  by_cases h0 : size ≤ 0
  · refine ⟨0, { h with mError := eBadArgs }, ?_, fun _ => ⟨eBadArgs, rfl⟩⟩
    unfold memAlloc
    rw [if_pos h0]
  · have hpos : 0 < size.toInt := by
      rw [Int32.le_iff_toInt_le] at h0
      have : (0 : Int32).toInt = 0 := rfl
      omega
    have hlt := Int32.toInt_lt size
    obtain ⟨n, hn⟩ := Int.eq_ofNat_of_zero_le (Int.le_of_lt hpos)
    have hsize : size = Int32.ofNat n := by
      refine Int32.toInt_inj.mp ?_
      rw [hn, toInt_ofNat_of_range (by omega)]
    rw [hsize]
    by_cases hle : n ≤ 2 ^ 31 - 17
    · rcases memAlloc_spec hi (n := n) (by omega) hle hfuel with ⟨-, hr⟩ | ⟨_, b, _, h', _, hr, _⟩
      · exact ⟨0, _, hr, fun _ => ⟨eNoSpace, rfl⟩⟩
      · exact ⟨_, h', hr, fun hc => by omega⟩
    · rcases memAlloc_wrapped hi (n := n) (by omega) (by omega) hfuel with ⟨-, hr⟩ | ⟨_, b, _, h', _, hr, _⟩
      · exact ⟨0, _, hr, fun _ => ⟨eNoSpace, rfl⟩⟩
      · exact ⟨_, h', hr, fun hc => by omega⟩

theorem memAlloc_null (hi : HeapInv r h free live) {size : Int32} {fuel : Nat} {h' : Heap}
    (hcall : memAlloc fuel h size = some (0, h')) : ∃ e, h' = { h with mError := e } := by
  obtain ⟨p, h'', hr, hnull⟩ := memAlloc_total hi size (Nat.le_max_right fuel (free.length + 1))
  rw [memAlloc_mono (Nat.le_max_left _ _) hcall] at hr
  simp only [Option.some.injEq, Prod.mk.injEq] at hr
  obtain ⟨rfl, rfl⟩ := hr
  exact hnull rfl

end

/-- `Mem_Free` looks at the magic number first. -/
theorem memFree_refused {h : Heap} {p : Nat} (hp : p ≠ 0)
    (hmagic : usedMagic h.mem (ptrAdd p (-sizeofUsed)) ≠ magicNum) (fuel : Nat) :
    memFree fuel h p = some (-1, { h with mError := eBadPointer }) := by
  unfold memFree
  rw [if_neg hp]
  dsimp only
  rw [if_pos hmagic]

/-- What passes that test is never refused. -/
theorem memFree_accepted {h h' : Heap} {p fuel : Nat} {c : Int32}
    (hmagic : usedMagic h.mem (ptrAdd p (-sizeofUsed)) = magicNum)
    (hcall : memFree fuel h p = some (c, h')) : c = 0 := by
  unfold memFree at hcall
  by_cases hp : p = 0
  · rw [if_pos hp] at hcall
    simp only [Option.some.injEq, Prod.mk.injEq] at hcall
    exact hcall.1.symm
  · rw [if_neg hp] at hcall
    dsimp only at hcall
    rw [if_neg (by simpa using hmagic)] at hcall
    split at hcall
    · simp at hcall
    · simp only [Option.some.injEq, Prod.mk.injEq] at hcall
      exact hcall.1.symm

/-! ## Sessions -/

/-- The bytes after the header of the block behind `p`, as the header has it. -/
def usable (h : Heap) (p : Nat) : Nat := ((blockSize h.mem (p - 8)).toInt - 8).toNat

/--
A session with the heap `h₀` that `Mem_Init` left: where it has come to, and the
pointers that were given back and have not been handed out again. A client may use the bytes it asked for, as far as
its block reaches; a pointer that was given back may be given back again if
`Mem_Free` refuses it.
-/
inductive Session (h₀ : Heap) : Sys → List Nat → Prop where
  | init : Session h₀ ⟨h₀, [], fun _ => none⟩ []
  | alloc {s : Sys} {freed : List Nat} {n fuel p : Nat} {h : Heap} : Session h₀ s freed →
      1 ≤ n → n < 2 ^ 31 → memAlloc fuel s.heap (Int32.ofNat n) = some (p, h) → p ≠ 0 →
      Session h₀
        { heap := h
          live := ⟨p, min n (usable h p), blockSize h.mem (p - 8)⟩ :: s.live
          wrote := fun x => if p ≤ x ∧ x < p + min n (usable h p) then none else s.wrote x }
        (freed.filter (· ≠ p))
  | allocNull {s : Sys} {freed : List Nat} {size : Int32} {fuel : Nat} {h : Heap} :
      Session h₀ s freed → memAlloc fuel s.heap size = some (0, h) →
      Session h₀ { s with heap := h } freed
  | free {s : Sys} {freed : List Nat} {l : Live} {fuel : Nat} {c : Int32} {h : Heap} :
      Session h₀ s freed → l ∈ s.live → memFree fuel s.heap l.ptr = some (c, h) →
      Session h₀ { s with heap := h, live := s.live.erase l } (l.ptr :: freed)
  | freeNull {s : Sys} {freed : List Nat} {fuel : Nat} {c : Int32} {h : Heap} :
      Session h₀ s freed → memFree fuel s.heap 0 = some (c, h) →
      Session h₀ { s with heap := h } freed
  | freeRefused {s : Sys} {freed : List Nat} {p fuel : Nat} {h : Heap} : Session h₀ s freed →
      memFree fuel s.heap p = some (-1, h) → Session h₀ { s with heap := h } freed
  | initRefused {s : Sys} {freed : List Nat} {pageSize sizeOfRegion : Int32} {ptr : Option Nat}
      {h : Heap} : Session h₀ s freed →
      memInit pageSize ptr sizeOfRegion s.heap = some (-1, h) →
      Session h₀ { s with heap := h } freed
  | write {s : Sys} {freed : List Nat} {l : Live} {i : Nat} {v : UInt8} : Session h₀ s freed →
      l ∈ s.live → i < l.req →
      Session h₀
        { s with
          heap := { s.heap with mem := Function.update s.heap.mem (l.ptr + i) v }
          wrote := Function.update s.wrote (l.ptr + i) (some v) } freed

section

variable {r : Region} {h₀ : Heap} {s : Sys} {free : List Span} {freed : List Nat}

theorem SysInv.setError (hs : SysInv r s free) (e : Int32) :
    SysInv r { s with heap := { s.heap with mError := e } } free :=
  ⟨hs.heap.setError e, hs.fits, hs.kept⟩

theorem memFree_setsError {h h' : Heap} {p fuel : Nat} (hcall : memFree fuel h p = some (-1, h')) :
    h' = { h with mError := eBadPointer } := by
  have hne : usedMagic h.mem (ptrAdd p (-sizeofUsed)) ≠ magicNum := fun hm =>
    absurd (memFree_accepted hm hcall) (by decide)
  have hp : p ≠ 0 := by
    rintro rfl
    unfold memFree at hcall
    rw [if_pos rfl] at hcall
    simp only [Option.some.injEq, Prod.mk.injEq] at hcall
    exact absurd hcall.1 (by decide)
  rw [memFree_refused hp hne] at hcall
  simp only [Option.some.injEq, Prod.mk.injEq, true_and] at hcall
  exact hcall.symm

theorem memInit_setsError {pageSize sizeOfRegion : Int32} {ptr : Option Nat} {h h' : Heap}
    (hcall : memInit pageSize ptr sizeOfRegion h = some (-1, h')) :
    h' = { h with mError := eBadArgs } := by
  unfold memInit at hcall
  split at hcall
  · simp only [Option.some.injEq, Prod.mk.injEq, true_and] at hcall
    exact hcall.symm
  · cases ptr with
    | none => simp at hcall
    | some p =>
        simp only [Option.some.injEq, Prod.mk.injEq] at hcall
        exact absurd hcall.1 (by decide)

/-- The block `Mem_Alloc` hands out for a request that wraps around. -/
theorem sysInv_allocWrapped (hs : SysInv r s free) {n fuel p : Nat} {h : Heap}
    (hn : 2 ^ 31 - 17 < n) (hn' : n < 2 ^ 31)
    (hcall : memAlloc fuel s.heap (Int32.ofNat n) = some (p, h)) (hp : p ≠ 0) :
    ∃ free', SysInv r
      { heap := h
        live := ⟨p, min n (usable h p), blockSize h.mem (p - 8)⟩ :: s.live
        wrote := fun x => if p ≤ x ∧ x < p + min n (usable h p) then none else s.wrote x }
      free' := by
  have hcall' := memAlloc_mono (Nat.le_max_left fuel (free.length + 1)) hcall
  rcases memAlloc_wrapped hs.heap hn hn' (Nat.le_max_right fuel (free.length + 1)) with
    ⟨-, h0⟩ | ⟨pre, b, post, h', hb, h1, h2, h3, -⟩
  · rw [h0] at hcall'
    simp only [Option.some.injEq, Prod.mk.injEq] at hcall'
    exact absurd hcall'.1.symm hp
  · rw [h1] at hcall'
    simp only [Option.some.injEq, Prod.mk.injEq] at hcall'
    obtain ⟨rfl, rfl⟩ := hcall'
    obtain ⟨hsz, -⟩ := h2.header b (by simp)
    have hroom := h2.roomy b (by simp)
    refine ⟨pre ++ post, sysInv_handOut hs h2 h3 ?_⟩
    unfold usable
    rw [Nat.add_sub_cancel, hsz]
    omega

/-- **The invariant of every session.** -/
theorem sysInv_session (hstart : Start r h₀) (h : Session h₀ s freed) :
    ∃ free, SysInv r s free := by
  induction h with
  | init => exact ⟨_, sysInv_init hstart⟩
  | @alloc s freed n fuel p h _ hn hn' hcall hp ih =>
      obtain ⟨free, hs⟩ := ih
      by_cases hle : n ≤ 2 ^ 31 - 17
      · obtain ⟨hfit, free', hs'⟩ := sysInv_alloc hs hn hle hcall hp
        have hmin : min n (usable h p) = n := by unfold usable; omega
        rw [hmin]
        exact ⟨free', hs'⟩
      · exact sysInv_allocWrapped hs (by omega) hn' hcall hp
  | allocNull _ hcall ih =>
      obtain ⟨free, hs⟩ := ih
      obtain ⟨e, rfl⟩ := memAlloc_null hs.heap hcall
      exact ⟨free, hs.setError e⟩
  | free _ hl hcall ih =>
      obtain ⟨free, hs⟩ := ih
      exact sysInv_step hs (Step.free hl hcall)
  | freeNull _ hcall ih =>
      unfold memFree at hcall
      rw [if_pos rfl] at hcall
      simp only [Option.some.injEq, Prod.mk.injEq] at hcall
      rw [← hcall.2]
      exact ih
  | freeRefused _ hcall ih =>
      obtain ⟨free, hs⟩ := ih
      rw [memFree_setsError hcall]
      exact ⟨free, hs.setError _⟩
  | initRefused _ hcall ih =>
      obtain ⟨free, hs⟩ := ih
      rw [memInit_setsError hcall]
      exact ⟨free, hs.setError _⟩
  | write _ hl hi ih =>
      obtain ⟨free, hs⟩ := ih
      exact ⟨free, sysInv_write hs hl hi⟩

end

/-! A session over the sample region, for the instances below. -/

/-- The client of a fresh region. -/
def freshSys : Sys := ⟨sampleHeap, [], fun _ => none⟩

theorem sampleHeap_start : Start sampleRegion sampleHeap :=
  ⟨rfl, by decide +kernel, by decide +kernel⟩

theorem freshSys_session : Session sampleHeap freshSys [] := Session.init

/-! ## Best fit -/

theorem need_isLeast (n : Nat) : IsLeast {k | 8 ∣ k ∧ n + 8 < k} (need n) := by
  obtain ⟨h1, h2, h3⟩ := need_bounds n
  refine ⟨⟨h3, h1⟩, fun k hk => ?_⟩
  obtain ⟨hk8, hk⟩ := hk
  unfold need
  omega

/-- The block found first has the lowest address among the smallest that fit. -/
theorem Best.lowest {n : Nat} {free pre post : List Span} {b : Span} (hb : Best n free pre b post)
    (hs : Spaced free) : ∀ c ∈ free, n ≤ c.size →
      b.size < c.size ∨ b.size = c.size ∧ b.addr ≤ c.addr := by
  have hsplit := hb.split
  subst hsplit
  intro c hc hfit
  rcases List.mem_append.mp hc with hc | hc
  · have := hb.before c hc
    omega
  · rcases List.mem_cons.mp hc with rfl | hc
    · exact Or.inr ⟨rfl, Nat.le_refl _⟩
    · have := hb.after c hc
      have := (List.pairwise_cons.mp (List.pairwise_append.mp hs.increasing).2.1).1 c hc
      omega

/--
**Best fit, and a failure that changes nothing.** `need n` is the least multiple of 8
above `n + 8`. With fuel to walk the list, `Mem_Alloc` returns `NULL` exactly when no
free block has that many bytes, and then only `m_error` is different; otherwise it
takes the lowest of the smallest blocks that fit, and the rest of the list stays.
-/
theorem memAlloc_bestFit (r : Region) {h₀ : Heap} (hstart : Start r h₀) {s : Sys}
    {freed : List Nat} (h : Session h₀ s freed) {n : Nat} (hn : 1 ≤ n) (hn' : n ≤ 2 ^ 31 - 17) :
    IsLeast {k | 8 ∣ k ∧ n + 8 < k} (need n)
      ∧ ∃ free, Seg s.heap.mem s.heap.head free 0
        ∧ ∃ N, ∀ fuel, N ≤ fuel →
          ((∃ h', memAlloc fuel s.heap (Int32.ofNat n) = some (0, h')) ↔
              ¬∃ b ∈ free, need n ≤ b.size)
            ∧ ((¬∃ b ∈ free, need n ≤ b.size) →
                memAlloc fuel s.heap (Int32.ofNat n)
                  = some (0, { s.heap with mError := eNoSpace }))
            ∧ ((∃ b ∈ free, need n ≤ b.size) → ∃ pre b post h', free = pre ++ b :: post
                ∧ need n ≤ b.size
                ∧ (∀ c ∈ free, need n ≤ c.size →
                    b.size < c.size ∨ b.size = c.size ∧ b.addr ≤ c.addr)
                ∧ memAlloc fuel s.heap (Int32.ofNat n) = some (b.addr + 8, h')
                ∧ (minimumSize.toInt < b.size - need n →
                    (blockSize h'.mem b.addr).toInt = need n
                      ∧ Seg h'.mem h'.head
                          (pre ++ ⟨b.addr + need n, b.size - need n⟩ :: post) 0)
                ∧ (¬minimumSize.toInt < b.size - need n →
                    (blockSize h'.mem b.addr).toInt = b.size
                      ∧ Seg h'.mem h'.head (pre ++ post) 0)) := by
  obtain ⟨free, hs⟩ := sysInv_session hstart h
  have h24 : minimumSize.toInt = 24 := rfl
  refine ⟨need_isLeast n, free, hs.heap.list, free.length + 1, fun fuel hfuel => ?_⟩
  rcases memAlloc_spec hs.heap hn hn' hfuel with ⟨hall, hr⟩ | ⟨pre, b, post, h', hb, hr, hi, -, -⟩
  · have hnone : ¬∃ b ∈ free, need n ≤ b.size := by
      rintro ⟨b, hb, hfit⟩
      have := hall b hb
      omega
    exact ⟨⟨fun _ => hnone, fun _ => ⟨_, hr⟩⟩, fun _ => hr, fun hc => absurd hc hnone⟩
  · have hsome : ∃ b ∈ free, need n ≤ b.size := ⟨b, by rw [hb.split]; simp, hb.fits⟩
    have hnull : ¬∃ h', memAlloc fuel s.heap (Int32.ofNat n) = some (0, h') := by
      rintro ⟨h'', hc⟩
      rw [hr] at hc
      simp only [Option.some.injEq, Prod.mk.injEq] at hc
      omega
    refine ⟨⟨fun hc => absurd hc hnull, fun hc => absurd hsome hc⟩, fun hc => absurd hsome hc,
      fun _ => ⟨pre, b, post, h', hb.split, hb.fits, hb.lowest hs.heap.spaced, hr, ?_, ?_⟩⟩
    · intro hrem
      have hfit := hb.fits
      have hsplit : 24 < b.size - need n := by omega
      obtain ⟨hsz, -⟩ := hi.header (handedOut b (need n)) (by simp)
      have hlist := hi.list
      rw [leftover, if_pos hsplit, List.append_assoc] at hlist
      rw [handedOut, if_pos hsplit] at hsz
      exact ⟨hsz, hlist⟩
    · intro hrem
      have hwhole : ¬24 < b.size - need n := by omega
      obtain ⟨hsz, -⟩ := hi.header (handedOut b (need n)) (by simp)
      have hlist := hi.list
      rw [leftover, if_neg hwhole, List.append_nil] at hlist
      rw [handedOut, if_neg hwhole] at hsz
      exact ⟨hsz, hlist⟩

theorem bestFit_fresh : (1 ≤ 24 ∧ 24 ≤ 2 ^ 31 - 17)
    ∧ ∃ free, Seg sampleHeap.mem sampleHeap.head free 0 ∧ ∃ N, ∀ fuel, N ≤ fuel →
      ((∃ h', memAlloc fuel sampleHeap (Int32.ofNat 24) = some (0, h')) ↔
        ¬∃ b ∈ free, need 24 ≤ b.size) := by
  refine ⟨by decide, ?_⟩
  obtain ⟨-, free, h1, N, h2⟩ :=
    memAlloc_bestFit sampleRegion sampleHeap_start freshSys_session (n := 24) (by decide) (by decide)
  exact ⟨free, h1, N, fun fuel hle => (h2 fuel hle).1⟩

/-! ## No allocation smaller than asked -/

/-- `Mem_Alloc(n)` returns a block of at least `n` bytes, or `NULL` with `E_NO_SPACE`. -/
def EnoughOrNull (h : Heap) (n : Nat) : Prop :=
  ∃ N, ∀ fuel, N ≤ fuel → ∃ p h', memAlloc fuel h (Int32.ofNat n) = some (p, h')
    ∧ (p ≠ 0 → n ≤ usable h' p) ∧ (p = 0 → h'.mError = eNoSpace)

/--
**Requests that are answered with enough.** For every request that is an `int`, what
comes back is large enough or `NULL` just when the size computed from it does not
wrap around, or there is no free block at all.
-/
theorem memAlloc_enough_iff (r : Region) {h₀ : Heap} (hstart : Start r h₀) {s : Sys}
    {freed : List Nat} (h : Session h₀ s freed) {n : Nat} (hn : 1 ≤ n) (hn' : n < 2 ^ 31) :
    EnoughOrNull s.heap n ↔ n ≤ 2 ^ 31 - 17 ∨ s.heap.head = 0 := by
  obtain ⟨free, hs⟩ := sysInv_session hstart h
  by_cases hle : n ≤ 2 ^ 31 - 17
  · refine ⟨fun _ => Or.inl hle, fun _ => ⟨free.length + 1, fun fuel hfuel => ?_⟩⟩
    rcases memAlloc_spec hs.heap hn hle hfuel with ⟨-, hr⟩ | ⟨pre, b, post, h', hb, hr, hi, -, -⟩
    · exact ⟨0, _, hr, fun hc => absurd rfl hc, fun _ => rfl⟩
    · refine ⟨b.addr + 8, h', hr, fun _ => ?_, fun hc => by omega⟩
      have hle' := le_handedOut_size hb.fits
      have hneed := (need_bounds n).1
      obtain ⟨hsz, -⟩ := hi.header (handedOut b (need n)) (by simp)
      rw [handedOut_addr] at hsz
      unfold usable
      rw [Nat.add_sub_cancel, hsz]
      omega
  · have hhead := hs.heap.list.head
    constructor
    · rintro ⟨N, hN⟩
      refine Or.inr ?_
      obtain ⟨p, h', hr, hp, -⟩ := hN _ (Nat.le_max_left N (free.length + 1))
      rcases memAlloc_wrapped hs.heap (by omega) hn' (Nat.le_max_right N (free.length + 1)) with
        ⟨hnil, -⟩ | ⟨pre, b, post, h'', hb, hr', hi, -, -⟩
      · rw [hhead, hnil]; rfl
      · -- the smallest block is smaller than the region, and `n` is larger than that
        rw [hr'] at hr
        simp only [Option.some.injEq, Prod.mk.injEq] at hr
        obtain ⟨rfl, rfl⟩ := hr
        obtain ⟨hsz, -⟩ := hi.header b (by simp)
        have hin := hi.inside (b := b) (by simp)
        have hlt := r.size_lt
        have h16 : 16 ∣ r.size := r.page.trans r.size_page
        have henough := hp (by omega)
        unfold usable at henough
        rw [Nat.add_sub_cancel, hsz] at henough
        omega
    · rintro (hc | h0)
      · exact absurd hc hle
      · refine ⟨free.length + 1, fun fuel hfuel => ?_⟩
        rcases memAlloc_wrapped hs.heap (by omega) hn' hfuel with ⟨-, hr⟩ | ⟨pre, b, post, _, hb, _⟩
        · exact ⟨0, _, hr, fun hc => absurd rfl hc, fun _ => rfl⟩
        · have hb0 := hs.heap.list.ne_zero b (by rw [hb.split]; simp)
          rw [hb.split] at hhead
          cases pre with
          | nil => exact absurd (hhead.symm.trans h0) hb0
          | cons c cs =>
              exact absurd (hhead.symm.trans h0)
                (hs.heap.list.ne_zero c (by rw [hb.split]; simp))

theorem enough_fresh : (1 ≤ 24 ∧ 24 < 2 ^ 31) ∧ EnoughOrNull sampleHeap 24 :=
  ⟨by decide, (memAlloc_enough_iff sampleRegion sampleHeap_start freshSys_session (n := 24) (by decide)
    (by decide)).mpr (Or.inl (by decide))⟩

/-- `Mem_Alloc(2147483647)` on a fresh page returns all 4088 bytes of it. -/
theorem memAlloc_tooSmall : (Start sampleRegion sampleHeap ∧ Session sampleHeap freshSys [])
    ∧ (1 ≤ 2147483647 ∧ 2147483647 < 2 ^ 31)
    ∧ (∃ h', memAlloc 2 freshSys.heap (Int32.ofNat 2147483647) = some (4104, h')
        ∧ usable h' 4104 = 4088)
    ∧ ¬EnoughOrNull freshSys.heap 2147483647 := by
  have hcall : ∃ h', memAlloc 2 freshSys.heap (Int32.ofNat 2147483647) = some (4104, h')
      ∧ usable h' 4104 = 4088 := ⟨_, by with_unfolding_all rfl, by decide +kernel⟩
  refine ⟨⟨sampleHeap_start, freshSys_session⟩, by decide, hcall, ?_⟩
  rintro ⟨N, hN⟩
  obtain ⟨h', hr, hu⟩ := hcall
  obtain ⟨p, h'', hr', hp, -⟩ := hN _ (Nat.le_max_left N 2)
  rw [memAlloc_mono (Nat.le_max_right N 2) hr] at hr'
  simp only [Option.some.injEq, Prod.mk.injEq] at hr'
  obtain ⟨rfl, rfl⟩ := hr'
  have := hp (by decide)
  omega

end Cs537.Mem
