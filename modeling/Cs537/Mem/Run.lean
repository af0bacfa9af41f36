import Cs537.Mem.Free

/-!
# Runs of the allocator

A client of the allocator may, in any order, ask for memory, give back a pointer
it holds, and write to the bytes it asked for. `Step` is one such action. Next to
the heap the state remembers what the client is entitled to: the pointers it
holds, how many bytes it asked for at each, the size the header had when the
pointer was returned, and the last byte it wrote at each address.

`SysInv` is the invariant over runs. It is `HeapInv` for the blocks the client
holds, together with the statement that the client's bytes are still there; the
second follows from the first because every write of the allocator lands in a
free block or in the block being freed.
-/

namespace Cs537.Mem

open Lib

/-- A pointer the client holds. -/
structure Live where
  /-- What `Mem_Alloc` returned. -/
  ptr : Nat
  /-- How many bytes were asked for. -/
  req : Nat
  /-- `header->size` when `Mem_Alloc` returned. -/
  size : Int32
deriving DecidableEq

/-- The block behind a pointer, header included. -/
def Live.block (l : Live) : Span := ⟨l.ptr - 8, l.size.toInt.toNat⟩

/-- The allocator and its client. -/
structure Sys where
  heap : Heap
  live : List Live
  /-- The byte the client last wrote at an address since it was handed out. -/
  wrote : Nat → Option UInt8

/-- What `Mem_Init` leaves: one free block over the whole region. -/
structure Start (r : Region) (h : Heap) : Prop where
  head : h.head = r.base
  size : (blockSize h.mem r.base).toInt = r.size
  next : blockNext h.mem r.base = 0

inductive Step : Sys → Sys → Prop where
  | alloc {s : Sys} {n fuel p : Nat} {h : Heap} : 1 ≤ n → n ≤ 2 ^ 31 - 17 →
      memAlloc fuel s.heap (Int32.ofNat n) = some (p, h) → p ≠ 0 →
      Step s
        { heap := h
          live := ⟨p, n, blockSize h.mem (p - 8)⟩ :: s.live
          wrote := fun x => if p ≤ x ∧ x < p + n then none else s.wrote x }
  | allocNull {s : Sys} {n fuel : Nat} {h : Heap} : 1 ≤ n → n ≤ 2 ^ 31 - 17 →
      memAlloc fuel s.heap (Int32.ofNat n) = some (0, h) → Step s { s with heap := h }
  | free {s : Sys} {l : Live} {fuel : Nat} {c : Int32} {h : Heap} : l ∈ s.live →
      memFree fuel s.heap l.ptr = some (c, h) →
      Step s { s with heap := h, live := s.live.erase l }
  | write {s : Sys} {l : Live} {i : Nat} {v : UInt8} : l ∈ s.live → i < l.req →
      Step s
        { s with
          heap := { s.heap with mem := Function.update s.heap.mem (l.ptr + i) v }
          wrote := Function.update s.wrote (l.ptr + i) (some v) }

inductive Reachable (r : Region) : Sys → Prop where
  | init {h : Heap} : Start r h → Reachable r ⟨h, [], fun _ => none⟩
  | tail {s s' : Sys} : Reachable r s → Step s s' → Reachable r s'

/-- The header address and `header->size` of every block the client holds. -/
def Sys.liveBlocks (s : Sys) : List Span :=
  s.live.map fun l => ⟨l.ptr - 8, (blockSize s.heap.mem (l.ptr - 8)).toInt.toNat⟩

/-- The invariant of every run. -/
structure SysInv (r : Region) (s : Sys) (free : List Span) : Prop where
  heap : HeapInv r s.heap free (s.live.map Live.block)
  /-- The header sits below the pointer, and the bytes asked for fit. -/
  fits : ∀ l ∈ s.live, 8 ≤ l.ptr ∧ 0 ≤ l.size.toInt ∧ l.ptr + l.req ≤ l.block.stop
  /-- The client's bytes are still there. -/
  kept : ∀ l ∈ s.live, ∀ i < l.req, ∀ v, s.wrote (l.ptr + i) = some v →
    s.heap.mem (l.ptr + i) = v

section

variable {r : Region} {s s' : Sys} {free : List Span}

theorem HeapInv.perm_live {h : Heap} {live live' : List Span} (hi : HeapInv r h free live)
    (hp : live.Perm live') : HeapInv r h free live' := by
  have hpa : (free ++ live).Perm (free ++ live') := List.Perm.append_left free hp
  exact ⟨hi.list, hi.spaced, hi.part.perm hpa, fun b hb => hi.roomy b (hpa.mem_iff.mpr hb),
    fun b hb => hi.aligned b (hpa.mem_iff.mpr hb), fun b hb => hi.header b (hp.mem_iff.mpr hb)⟩

theorem sysInv_init {h : Heap} (hs : Start r h) :
    SysInv r ⟨h, [], fun _ => none⟩ [⟨r.base, r.size⟩] := by
  have hpos := r.size_pos
  have h16 : 16 ≤ r.size := Nat.le_of_dvd hpos (r.page.trans r.size_page)
  have hbase := r.base_pos
  have hspan : (⟨r.base, r.size⟩ : Span) = ⟨r.base, r.base + r.size - r.base⟩ := by simp
  refine ⟨⟨⟨hs.head, ?_, hs.size, hs.next⟩, List.pairwise_singleton _ _, ?_, ?_, ?_, ?_⟩, ?_, ?_⟩
  · show r.base ≠ 0
    omega
  · rw [List.map_nil, List.append_nil, hspan]
    exact Partition.single (by omega)
  · intro b hb
    rw [List.map_nil, List.append_nil, List.mem_singleton] at hb
    exact hb ▸ h16
  · intro b hb
    rw [List.map_nil, List.append_nil, List.mem_singleton] at hb
    subst hb
    exact (by decide : 8 ∣ 16).trans (r.page.trans r.base_page)
  · intro b hb; simp at hb
  · intro l hl; simp at hl
  · intro l hl; simp at hl

/-- The client's bytes lie outside every block apart from its own. -/
theorem payload_within {bs : List Span} {m m' : Store} {l : Live} {i : Nat}
    (hw : Within bs m m') (hap : ∀ c ∈ bs, Span.Apart c l.block) (h8 : 8 ≤ l.ptr)
    (hfit : l.ptr + l.req ≤ l.block.stop) (hi : i < l.req) :
    m' (l.ptr + i) = m (l.ptr + i) := by
  refine hw _ fun c hc hcov => (hap c hc).not_covers hcov ⟨?_, by omega⟩
  show l.ptr - 8 ≤ l.ptr + i
  omega

/-! ## One step -/

/-- A block goes from the free list to the client, who may use `req` bytes of it. -/
theorem sysInv_handOut (hs : SysInv r s free) {h : Heap} {free' : List Span} {b : Span} {req : Nat}
    (hinv : HeapInv r h free' (b :: s.live.map Live.block)) (hw : Within free s.heap.mem h.mem)
    (hreq : req + 8 ≤ b.size) : SysInv r
      { heap := h
        live := ⟨b.addr + 8, req, blockSize h.mem (b.addr + 8 - 8)⟩ :: s.live
        wrote := fun x => if b.addr + 8 ≤ x ∧ x < b.addr + 8 + req then none else s.wrote x }
      free' := by
  obtain ⟨hsz, -⟩ := hinv.header b (by simp)
  have hblk : Live.block ⟨b.addr + 8, req, blockSize h.mem (b.addr + 8 - 8)⟩ = b := by
    unfold Live.block
    dsimp only
    rw [Nat.add_sub_cancel, hsz, Int.toNat_natCast]
  refine ⟨?_, ?_, ?_⟩
  · show HeapInv r h _ (List.map Live.block (_ :: s.live))
    rw [List.map_cons, hblk]
    exact hinv
  · intro l hl
    rcases List.mem_cons.mp hl with rfl | hl
    · rw [hblk]
      refine ⟨by simp, ?_, ?_⟩
      · show 0 ≤ (blockSize h.mem (b.addr + 8 - 8)).toInt
        rw [Nat.add_sub_cancel, hsz]; omega
      · show b.addr + 8 + req ≤ b.addr + b.size
        omega
    · exact hs.fits l hl
  · intro l hl i hi v hv
    rcases List.mem_cons.mp hl with rfl | hl
    · -- nothing has been written to the new block yet
      dsimp only at hv hi ⊢
      rw [if_pos (by omega)] at hv
      exact absurd hv (by simp)
    · dsimp only at hv ⊢
      split at hv
      · exact absurd hv (by simp)
      · obtain ⟨h8, -, hfit⟩ := hs.fits l hl
        rw [payload_within hw (fun c hc => hs.heap.part.apart_of_append hc
          (List.mem_map_of_mem hl)) h8 hfit hi]
        exact hs.kept l hl i hi v hv

theorem sysInv_alloc (hs : SysInv r s free) {n fuel p : Nat} {h : Heap} (hn : 1 ≤ n)
    (hn' : n ≤ 2 ^ 31 - 17) (hcall : memAlloc fuel s.heap (Int32.ofNat n) = some (p, h))
    (hp : p ≠ 0) : n + 8 ≤ (blockSize h.mem (p - 8)).toInt ∧ ∃ free', SysInv r
      { heap := h
        live := ⟨p, n, blockSize h.mem (p - 8)⟩ :: s.live
        wrote := fun x => if p ≤ x ∧ x < p + n then none else s.wrote x } free' := by
  have hcall' := memAlloc_mono (Nat.le_max_left fuel (free.length + 1)) hcall
  rcases memAlloc_spec hs.heap hn hn' (Nat.le_max_right fuel (free.length + 1)) with
    ⟨-, h0⟩ | ⟨pre, b, post, h', hb, h1, h2, h3, -⟩
  · rw [h0] at hcall'
    simp only [Option.some.injEq, Prod.mk.injEq] at hcall'
    exact absurd hcall'.1.symm hp
  · rw [h1] at hcall'
    simp only [Option.some.injEq, Prod.mk.injEq] at hcall'
    obtain ⟨rfl, rfl⟩ := hcall'
    have hle := le_handedOut_size hb.fits
    have hneed := (need_bounds n).1
    obtain ⟨hsz, -⟩ := h2.header (handedOut b (need n)) (by simp)
    rw [← handedOut_addr b (need n)]
    refine ⟨?_, _, sysInv_handOut hs h2 h3 (by omega)⟩
    rw [Nat.add_sub_cancel, hsz]
    omega

theorem sysInv_allocNull (hs : SysInv r s free) {n fuel : Nat} {h : Heap} (hn : 1 ≤ n)
    (hn' : n ≤ 2 ^ 31 - 17) (hcall : memAlloc fuel s.heap (Int32.ofNat n) = some (0, h)) :
    SysInv r { s with heap := h } free := by
  have hcall' := memAlloc_mono (Nat.le_max_left fuel (free.length + 1)) hcall
  rcases memAlloc_spec hs.heap hn hn' (Nat.le_max_right fuel (free.length + 1)) with
    ⟨-, h0⟩ | ⟨pre, b, post, h', hb, h1, -⟩
  · rw [h0] at hcall'
    simp only [Option.some.injEq, Prod.mk.injEq, true_and] at hcall'
    subst hcall'
    exact ⟨hs.heap.setError eNoSpace, hs.fits, hs.kept⟩
  · rw [h1] at hcall'
    simp only [Option.some.injEq, Prod.mk.injEq] at hcall'
    omega

/-- What freeing a pointer the client holds does. -/
theorem sysInv_memFree (hs : SysInv r s free) {l : Live} (hl : l ∈ s.live) {fuel : Nat}
    (hfuel : free.length < fuel) :
    ∃ h free', memFree fuel s.heap l.ptr = some (0, h)
      ∧ SysInv r { s with heap := h, live := s.live.erase l } free' := by
  have hperm : (s.live.map Live.block).Perm (l.block :: (s.live.erase l).map Live.block) :=
    (List.perm_cons_erase hl).map Live.block
  have hinv := hs.heap.perm_live hperm
  obtain ⟨h8, -, -⟩ := hs.fits l hl
  obtain ⟨h, free', hcall, h2, h3, -⟩ := memFree_spec hinv hfuel
  have hptr : l.block.addr + 8 = l.ptr := by show l.ptr - 8 + 8 = l.ptr; omega
  rw [hptr] at hcall
  refine ⟨h, free', hcall, h2, fun k hk => hs.fits k (List.mem_of_mem_erase hk), ?_⟩
  intro k hk i hi v hv
  have hk' := List.mem_of_mem_erase hk
  obtain ⟨hk8, -, hfit⟩ := hs.fits k hk'
  have hkb : k.block ∈ (s.live.erase l).map Live.block := List.mem_map_of_mem hk
  have hap : ∀ c ∈ l.block :: free, Span.Apart c k.block := by
    intro c hc
    rcases List.mem_cons.mp hc with rfl | hc
    · exact (List.pairwise_cons.mp (List.pairwise_append.mp hinv.part.apart).2.1).1 _ hkb
    · exact hinv.part.apart_of_append hc (List.mem_cons_of_mem _ hkb)
  show h.mem (k.ptr + i) = v
  rw [payload_within h3 hap hk8 hfit hi]
  exact hs.kept k hk' i hi v hv

theorem sysInv_write (hs : SysInv r s free) {l : Live} {i : Nat} {v : UInt8} (hl : l ∈ s.live)
    (hi : i < l.req) : SysInv r
      { s with
        heap := { s.heap with mem := Function.update s.heap.mem (l.ptr + i) v }
        wrote := Function.update s.wrote (l.ptr + i) (some v) } free := by
  obtain ⟨h8, -, hfit⟩ := hs.fits l hl
  have hlm : l.block ∈ s.live.map Live.block := List.mem_map_of_mem hl
  have hcov : l.block.Covers (l.ptr + i) := ⟨by show l.ptr - 8 ≤ _; omega, by omega⟩
  have hother : ∀ x, x ≠ l.ptr + i →
      Function.update s.heap.mem (l.ptr + i) v x = s.heap.mem x := fun x hx =>
    Function.update_of_ne hx _ _
  -- header bytes are never the client's
  have hhdr : ∀ b ∈ s.live.map Live.block, ∀ x, b.addr ≤ x → x < b.addr + 8 → x ≠ l.ptr + i := by
    intro b hb x h1 h2 hx
    have hroom := hs.heap.roomy b (List.mem_append_right _ hb)
    by_cases hbl : b = l.block
    · subst hbl
      have : x < l.ptr - 8 + 8 := h2
      omega
    · have hap := (List.pairwise_append.mp hs.heap.part.apart).2.1.forall hb hlm hbl
      refine hap.not_covers ⟨h1, ?_⟩ (hx ▸ hcov)
      unfold Span.stop; omega
  refine ⟨⟨?_, hs.heap.spaced, hs.heap.part, hs.heap.roomy, hs.heap.aligned, ?_⟩, hs.fits, ?_⟩
  · refine hs.heap.list.congr fun b hb x h1 h2 => (hother x fun hx => ?_).symm
    have hroom := hs.heap.roomy b (List.mem_append_left _ hb)
    refine (hs.heap.part.apart_of_append hb hlm).not_covers ⟨h1, ?_⟩ (hx ▸ hcov)
    unfold Span.stop; omega
  · intro b hb
    have hk := hs.heap.header b hb
    constructor
    · rw [blockSize_congr fun x h1 h2 => hother x (hhdr b hb x h1 (by omega))]; exact hk.1
    · rw [usedMagic_congr fun x h1 h2 => hother x (hhdr b hb x (by omega) h2)]; exact hk.2
  · intro k hk j hj w hw
    dsimp only at hw ⊢
    by_cases hx : k.ptr + j = l.ptr + i
    · rw [hx, Function.update_self] at hw ⊢
      exact Option.some.inj hw
    · rw [Function.update_of_ne hx] at hw ⊢
      exact hs.kept k hk j hj w hw

/-! ## Every run -/

theorem sysInv_step (hs : SysInv r s free) (h : Step s s') : ∃ free', SysInv r s' free' := by
  cases h with
  | alloc hn hn' hcall hp => exact (sysInv_alloc hs hn hn' hcall hp).2
  | allocNull hn hn' hcall => exact ⟨free, sysInv_allocNull hs hn hn' hcall⟩
  | @free l fuel c h hl hcall =>
      obtain ⟨h', free', hcall', hinv⟩ :=
        sysInv_memFree hs hl (Nat.le_max_right fuel (free.length + 1))
      -- the call of the step and the one of the spec agree, whatever their fuel
      rw [memFree_mono (Nat.le_max_left _ _) hcall] at hcall'
      simp only [Option.some.injEq, Prod.mk.injEq] at hcall'
      obtain ⟨-, rfl⟩ := hcall'
      exact ⟨free', hinv⟩
  | write hl hi => exact ⟨free, sysInv_write hs hl hi⟩

theorem sysInv_reachable (h : Reachable r s) : ∃ free, SysInv r s free := by
  induction h with
  | init hs => exact ⟨_, sysInv_init hs⟩
  | tail _ hs ih =>
      obtain ⟨free, hinv⟩ := ih
      exact sysInv_step hinv hs

/-- What the headers say is what `Mem_Alloc` left in them. -/
theorem SysInv.header (hs : SysInv r s free) {l : Live} (hl : l ∈ s.live) :
    blockSize s.heap.mem (l.ptr - 8) = l.size ∧ usedMagic s.heap.mem (l.ptr - 8) = magicNum := by
  obtain ⟨h1, h2⟩ := hs.heap.header l.block (List.mem_map_of_mem hl)
  obtain ⟨-, h0, -⟩ := hs.fits l hl
  refine ⟨Int32.toInt_inj.mp ?_, h2⟩
  show (blockSize s.heap.mem l.block.addr).toInt = l.size.toInt
  rw [h1]
  show ((l.size.toInt.toNat : Nat) : Int) = l.size.toInt
  omega

theorem SysInv.liveBlocks (hs : SysInv r s free) : s.liveBlocks = s.live.map Live.block := by
  refine List.map_congr_left fun l hl => ?_
  rw [(hs.header hl).1]; rfl

end

/-! A one-page region, for the instances below. -/

def sampleRegion : Region where
  base := 4096
  size := 4096
  pageSize := 4096
  page := by decide
  base_page := by decide
  size_page := by decide
  base_pos := by decide
  size_pos := by decide
  size_lt := by decide
  stop_lt := by decide

def sampleHeap : Heap := ⟨setNext (setSize (fun _ => 0) 4096 4096) 4096 0, 4096, 4096, 0⟩

/-- The client after `p = Mem_Alloc(24)`. -/
def sampleSys : Sys :=
  let h := ((memAlloc 2 sampleHeap (Int32.ofNat 24)).getD (0, sampleHeap)).2
  { heap := h
    live := [⟨4104, 24, blockSize h.mem 4096⟩]
    wrote := fun x => if 4104 ≤ x ∧ x < 4104 + 24 then none else none }

/-- And after `((char *) p)[3] = 7`. -/
def sampleSys' : Sys :=
  { sampleSys with
    heap := { sampleSys.heap with mem := Function.update sampleSys.heap.mem (4104 + 3) 7 }
    wrote := Function.update sampleSys.wrote (4104 + 3) (some 7) }

theorem sampleSys_reachable : Reachable sampleRegion sampleSys :=
  Reachable.tail (Reachable.init (h := sampleHeap) ⟨rfl, by decide +kernel, by decide +kernel⟩)
    (@Step.alloc _ 24 2 _ _ (by decide) (by decide) (by with_unfolding_all rfl) (by decide))

/-! ## The free list is the list of gaps -/

/--
**The representation invariant over runs.** In every reachable state the free list
is strictly increasing, no free block ends where a later one begins, and free and
live blocks partition the region. So the free blocks are the maximal gaps between
the live ones: they are determined by them, and with nothing live there is one.
-/
theorem freeList_reachable (r : Region) {s : Sys} (h : Reachable r s) :
    ∃ free, Seg s.heap.mem s.heap.head free 0
      ∧ free.Pairwise (fun b c => b.addr < c.addr)
      ∧ free.Pairwise (fun b c => b.stop ≠ c.addr)
      ∧ Partition r.base (r.base + r.size) (free ++ s.liveBlocks)
      ∧ (∀ g, g ∈ free ↔ IsGap r.base (r.base + r.size) s.liveBlocks g)
      ∧ (∀ s', Reachable r s' → (∀ b, b ∈ s.liveBlocks ↔ b ∈ s'.liveBlocks) →
          Seg s'.heap.mem s'.heap.head free 0)
      ∧ (s.live = [] → free = [⟨r.base, r.size⟩]) := by
  obtain ⟨free, hs⟩ := sysInv_reachable h
  have hp := hs.heap.part
  have hsp := hs.heap.spaced
  rw [← hs.liveBlocks] at hp
  refine ⟨free, hs.heap.list, hsp.increasing, hsp.imp fun h => by omega, hp,
    fun g => ⟨isGap_of_mem hp hsp, mem_of_isGap hp hsp⟩, ?_, ?_⟩
  · intro s' h' hsame
    obtain ⟨free', hs'⟩ := sysInv_reachable h'
    have hp' := hs'.heap.part
    rw [← hs'.liveBlocks] at hp'
    have heq := free_unique hp hsp hp' hs'.heap.spaced hsame
    exact heq ▸ hs'.heap.list
  · intro hnil
    have hpos := r.size_pos
    have hlive : s.liveBlocks = [] := by unfold Sys.liveBlocks; rw [hnil]; rfl
    have hone : Partition r.base (r.base + r.size) ([⟨r.base, r.base + r.size - r.base⟩] ++ []) :=
      Partition.single (by omega)
    rw [Nat.add_sub_cancel_left] at hone
    refine free_unique hp hsp hone (List.pairwise_singleton _ _) ?_
    rw [hlive]; exact fun _ => Iff.rfl

theorem freeList_sampleSys : ∃ free, Seg sampleSys.heap.mem sampleSys.heap.head free 0
    ∧ Partition 4096 8192 (free ++ sampleSys.liveBlocks) := by
  obtain ⟨free, h1, -, -, h2, -⟩ := freeList_reachable sampleRegion sampleSys_reachable
  exact ⟨free, h1, h2⟩

/--
**The allocator never touches live memory.** Whatever the client wrote is still
there, its headers are intact, its bytes are where they should be, and giving a
pointer back succeeds once the loop has fuel enough to walk the list.
-/
theorem live_reachable (r : Region) {s : Sys} (h : Reachable r s) : ∀ l ∈ s.live,
    (∀ i < l.req, ∀ v, s.wrote (l.ptr + i) = some v → s.heap.mem (l.ptr + i) = v)
      ∧ blockSize s.heap.mem (l.ptr - 8) = l.size
      ∧ usedMagic s.heap.mem (l.ptr - 8) = magicNum
      ∧ 8 ∣ l.ptr
      ∧ ((l.ptr + l.req : Nat) : Int) ≤ (l.ptr - 8 : Nat) + l.size.toInt
      ∧ ∃ N h', ∀ fuel, N ≤ fuel → memFree fuel s.heap l.ptr = some (0, h') := by
  intro l hl
  obtain ⟨free, hs⟩ := sysInv_reachable h
  obtain ⟨hsz, hmagic⟩ := hs.header hl
  obtain ⟨h8, h0, hfit⟩ := hs.fits l hl
  have hal := hs.heap.aligned l.block (List.mem_append_right _ (List.mem_map_of_mem hl))
  refine ⟨hs.kept l hl, hsz, hmagic, ?_, ?_, ?_⟩
  · have : 8 ∣ l.ptr - 8 := hal
    omega
  · have : l.ptr + l.req ≤ l.ptr - 8 + l.size.toInt.toNat := hfit
    omega
  · obtain ⟨h', _, hcall, -⟩ := sysInv_memFree hs hl (Nat.lt_succ_self free.length)
    exact ⟨free.length + 1, h', fun fuel hle => memFree_mono hle hcall⟩

theorem live_sampleSys : sampleSys'.heap.mem 4107 = 7
    ∧ ∃ N h', ∀ fuel, N ≤ fuel → memFree fuel sampleSys'.heap 4104 = some (0, h') := by
  have hl : (⟨4104, 24, blockSize sampleSys.heap.mem 4096⟩ : Live) ∈ sampleSys.live :=
    List.mem_singleton.mpr rfl
  have hr : Reachable sampleRegion sampleSys' :=
    Reachable.tail sampleSys_reachable (Step.write (i := 3) hl (by decide))
  obtain ⟨h1, -, -, -, -, h2⟩ := live_reachable sampleRegion hr _ hl
  exact ⟨h1 3 (by decide) 7 rfl, h2⟩

/-! ## Where runs start -/

/-- `Mem_Init` leaves one free block of `1 + sizeOfRegion % pageSize` pages. -/
theorem memInit_start (r : Region) {n : Nat} {h : Heap} (hn : 0 < n) (hn' : n < 2 ^ 31)
    (ht : h.totalSize = 0) (hsize : r.size = r.pageSize * (1 + n % r.pageSize)) :
    ∃ h', memInit (Int32.ofNat r.pageSize) (some r.base) (Int32.ofNat n) h = some (0, h')
      ∧ Start r h' := by
  have hlt := r.size_lt
  have hstop := r.stop_lt
  have hpos := r.size_pos
  have hp : 0 < r.pageSize := Nat.pos_of_dvd_of_pos r.size_page hpos
  have hple : r.pageSize ≤ r.size := Nat.le_of_dvd hpos r.size_page
  have hprod : r.size = r.pageSize + n % r.pageSize * r.pageSize := by rw [hsize]; ring
  have hni : (Int32.ofNat n).toInt = n := toInt_ofNat_of_range hn'
  have hpi : (Int32.ofNat r.pageSize).toInt = r.pageSize := toInt_ofNat_of_range (by omega)
  have hmod : (Int32.ofNat n % Int32.ofNat r.pageSize).toInt = (n % r.pageSize : Nat) := by
    rw [Int32.toInt_mod, hni, hpi]; norm_cast
  have hmul := toInt_mul_of_range hmod hpi (by omega)
  have hleft := toInt_sub_of_range (x := Int32.ofNat n)
    (y := Int32.ofNat n % Int32.ofNat r.pageSize * Int32.ofNat r.pageSize) (by omega) (by omega)
  have hleft' := toInt_sub_of_range (x := Int32.ofNat r.pageSize)
    (y := Int32.ofNat n - Int32.ofNat n % Int32.ofNat r.pageSize * Int32.ofNat r.pageSize)
    (by omega) (by omega)
  have hneg : ¬(Int32.ofNat n ≤ 0 ∨ h.totalSize ≠ 0) := by
    rintro (hc | hc)
    · have := (le_iff_of_toInt hni (b := 0) rfl).mp hc
      omega
    · exact hc ht
  unfold memInit
  rw [if_neg hneg]
  refine ⟨_, rfl, rfl, ?_, ?_⟩
  · dsimp only
    rw [blockSize_setNext, blockSize_setSize]
    rw [toInt_add_of_range (by omega) (by omega)]
    omega
  · exact blockNext_setNext (by decide)

end Cs537.Mem
