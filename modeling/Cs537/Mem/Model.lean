import Cs537.Lib.Bytes

/-!
# The best-fit allocator of `P3/linux/mem.c`

The free list lives inside the memory it manages: a free block starts with a
`block_t` (its size and the address of the next free block), a block that was
handed out starts with a `used_t` (its size and a magic number), and the two
overlay each other. So the model keeps the bytes. On LP64 the layouts are

* `block_t`: `size` at 0, four bytes of padding, `next` at 8; 16 bytes in all;
* `used_t`: `size` at 0, `magic` at 4; 8 bytes in all.

`int` is `Int32`, whose arithmetic wraps as the machine's does. A pointer is its
address, `0` being `NULL`. The two `while` loops walk the list through memory and
need not end on an arbitrary one, so they carry fuel: `none` is a loop that was
still running when the fuel ran out.
-/

namespace Cs537.Mem

open Lib

/-- `MAGIC_NUM`. -/
def magicNum : Int32 := 50

/-- `E_NO_SPACE`. -/
def eNoSpace : Int32 := 1

/-- `E_BAD_ARGS`. -/
def eBadArgs : Int32 := 4

/-- `E_BAD_POINTER`. -/
def eBadPointer : Int32 := 5

/-- `sizeof(used_t)`. -/
def sizeofUsed : Int32 := 8

/-- `minimumSize`, that is `sizeof(block_t) + 8`. -/
def minimumSize : Int32 := 16 + 8

/-- The globals of `mem.c`, and the memory they point into. -/
structure Heap where
  mem : Store
  head : Nat
  totalSize : Int32
  mError : Int32

/-! ## Fields of the two headers -/

def readInt (m : Store) (a : Nat) : Int32 := decodeInt (load m a 4)

def writeInt (m : Store) (a : Nat) (x : Int32) : Store := store m a (encodeInt x)

/-- `((block_t *) p)->size`, which is also `((used_t *) p)->size`. -/
def blockSize (m : Store) (p : Nat) : Int32 := readInt m p

/-- `((block_t *) p)->next`. -/
def blockNext (m : Store) (p : Nat) : Nat := decodeNat (load m (p + 8) 8)

/-- `((used_t *) p)->magic`. -/
def usedMagic (m : Store) (p : Nat) : Int32 := readInt m (p + 4)

def setSize (m : Store) (p : Nat) (x : Int32) : Store := writeInt m p x

def setNext (m : Store) (p q : Nat) : Store := store m (p + 8) (encodePtr q)

def setMagic (m : Store) (p : Nat) (x : Int32) : Store := writeInt m (p + 4) x

/-- `((char *) p) + k`, in a 64-bit address space. -/
def ptrAdd (p : Nat) (k : Int32) : Nat := (((p : Int) + k.toInt) % 2 ^ 64).toNat

/-! ## `Mem_Init` -/

/--
`Mem_Init`. `pageSize` is what `getpagesize` returns and `ptr` what `mmap` does;
`none` in the result is the `exit(1)` after a failed `mmap`.
-/
def memInit (pageSize : Int32) (ptr : Option Nat) (sizeOfRegion : Int32) (h : Heap) :
    Option (Int32 × Heap) :=
  if sizeOfRegion ≤ 0 ∨ h.totalSize ≠ 0 then
    some (-1, { h with mError := eBadArgs })
  else
    let numPages := sizeOfRegion % pageSize
    let left := sizeOfRegion - numPages * pageSize
    let left := pageSize - left
    let trueSize := sizeOfRegion + left
    match ptr with
    | none => none
    | some head =>
        let m := setNext (setSize h.mem head trueSize) head 0
        some (0, { h with mem := m, head := head, totalSize := sizeOfRegion })

/-! ## `Mem_Alloc` -/

/-- The search loop of `Mem_Alloc`: the best block and the node before it. -/
def searchLoop (m : Store) (size : Int32) : Nat → Nat → Nat → Nat → Nat → Option (Nat × Nat)
  | 0, _, _, _, _ => none
  | fuel + 1, ptr, prev, best, bestprev =>
      if ptr = 0 then some (best, bestprev)
      else if blockSize m ptr ≥ size then
        if best ≠ 0 then
          if blockSize m best > blockSize m ptr then
            searchLoop m size fuel (blockNext m ptr) ptr ptr prev
          else searchLoop m size fuel (blockNext m ptr) ptr best bestprev
        else searchLoop m size fuel (blockNext m ptr) ptr ptr prev
      else searchLoop m size fuel (blockNext m ptr) ptr best bestprev

/-- Point the link after `prev` at `x`; with no `prev` that link is `head`. -/
def setLink (h : Heap) (prev x : Nat) : Heap :=
  if prev = 0 then { h with head := x } else { h with mem := setNext h.mem prev x }

/-- The bytes a request of `size` takes: the header, then up to the next multiple of 8. -/
def roundUp (size : Int32) : Int32 :=
  let size := size + sizeofUsed
  size + (8 - size % 8)

/-- `Mem_Alloc` once the search has settled on `best`. -/
def takeBlock (h : Heap) (size : Int32) (best bestprev : Nat) : Nat × Heap :=
  let currSize := blockSize h.mem best
  let next := blockNext h.mem best
  let h := { h with mem := setMagic (setSize h.mem best size) best magicNum }
  let remaining := currSize - size
  if remaining > minimumSize then
    let ptr := ptrAdd best size
    let h := { h with mem := setNext (setSize h.mem ptr (currSize - size)) ptr next }
    (ptrAdd best sizeofUsed, setLink h bestprev ptr)
  else
    let h := setLink h bestprev next
    let h := { h with mem := setSize h.mem best (blockSize h.mem best + remaining) }
    (ptrAdd best sizeofUsed, h)

/-- `Mem_Alloc`. -/
def memAlloc (fuel : Nat) (h : Heap) (size : Int32) : Option (Nat × Heap) :=
  if size ≤ 0 then some (0, { h with mError := eBadArgs })
  else
    let size := roundUp size
    match searchLoop h.mem size fuel h.head 0 0 0 with
    | none => none
    | some (best, bestprev) =>
        if best = 0 then some (0, { h with mError := eNoSpace })
        else some (takeBlock h size best bestprev)

/-! ## `Mem_Free` -/

/-- The insertion loop of `Mem_Free`: the node to insert before, and the one before it. -/
def insertLoop (m : Store) (freeHeader : Nat) : Nat → Nat → Nat → Option (Nat × Nat)
  | 0, _, _ => none
  | fuel + 1, itr, prev =>
      if itr = 0 then some (itr, prev)
      else if freeHeader < itr then some (itr, prev)
      else insertLoop m freeHeader fuel (blockNext m itr) itr

/-- Link `freeHeader` in between `prev` and `itr`. -/
def linkIn (h : Heap) (freeHeader itr prev : Nat) : Heap :=
  if h.head = 0 then
    { h with mem := setNext h.mem freeHeader h.head, head := freeHeader }
  else if itr = 0 then
    -- at the end of the list
    { h with mem := setNext (setNext h.mem prev freeHeader) freeHeader itr }
  else if prev = 0 then
    { h with mem := setNext h.mem freeHeader h.head, head := freeHeader }
  else { h with mem := setNext (setNext h.mem freeHeader itr) prev freeHeader }

/-- Absorb the node after `freeHeader` if it starts where `freeHeader` ends. -/
def coalesceNext (m : Store) (freeHeader : Nat) : Store :=
  let next := blockNext m freeHeader
  if next ≠ 0 ∧ ptrAdd freeHeader (blockSize m freeHeader) = next then
    let m' := setSize m freeHeader (blockSize m freeHeader + blockSize m next)
    setNext m' freeHeader (blockNext m' (blockNext m' freeHeader))
  else m

/-- Let the node before `freeHeader` absorb it if it ends where `freeHeader` starts. -/
def coalescePrev (m : Store) (freeHeader prev : Nat) : Store :=
  if prev ≠ 0 ∧ ptrAdd prev (blockSize m prev) = freeHeader then
    let m' := setSize m prev (blockSize m prev + blockSize m freeHeader)
    setNext m' prev (blockNext m' freeHeader)
  else m

/-- `Mem_Free`. -/
def memFree (fuel : Nat) (h : Heap) (ptr : Nat) : Option (Int32 × Heap) :=
  if ptr = 0 then some (0, h)
  else
    let header := ptrAdd ptr (-sizeofUsed)
    if usedMagic h.mem header ≠ magicNum then some (-1, { h with mError := eBadPointer })
    else
      let size := blockSize h.mem header
      let h := { h with mem := setSize h.mem header size }
      match insertLoop h.mem header fuel h.head 0 with
      | none => none
      | some (itr, prev) =>
          let h := linkIn h header itr prev
          let m := coalescePrev (coalesceNext h.mem header) header prev
          some (0, { h with mem := m })

/-! ## Fuel -/

theorem searchLoop_mono {m : Store} {size : Int32} {r : Nat × Nat} :
    ∀ {fuel fuel' ptr prev best bestprev : Nat}, fuel ≤ fuel' →
      searchLoop m size fuel ptr prev best bestprev = some r →
      searchLoop m size fuel' ptr prev best bestprev = some r := by
  intro fuel
  induction fuel with
  | zero => intro fuel' ptr prev best bestprev _ h; simp [searchLoop] at h
  | succ fuel ih =>
    intro fuel' ptr prev best bestprev hle h
    obtain ⟨f, rfl⟩ : ∃ f, fuel' = f + 1 := ⟨fuel' - 1, by omega⟩
    have hle' : fuel ≤ f := by omega
    rw [searchLoop] at h ⊢
    by_cases h0 : ptr = 0
    · rw [if_pos h0] at h ⊢; exact h
    rw [if_neg h0] at h ⊢
    by_cases h1 : blockSize m ptr ≥ size
    · rw [if_pos h1] at h ⊢
      by_cases h2 : best ≠ 0
      · rw [if_pos h2] at h ⊢
        by_cases h3 : blockSize m best > blockSize m ptr
        · rw [if_pos h3] at h ⊢; exact ih hle' h
        · rw [if_neg h3] at h ⊢; exact ih hle' h
      · rw [if_neg h2] at h ⊢; exact ih hle' h
    · rw [if_neg h1] at h ⊢; exact ih hle' h

theorem insertLoop_mono {m : Store} {freeHeader : Nat} {r : Nat × Nat} :
    ∀ {fuel fuel' itr prev : Nat}, fuel ≤ fuel' →
      insertLoop m freeHeader fuel itr prev = some r →
      insertLoop m freeHeader fuel' itr prev = some r := by
  intro fuel
  induction fuel with
  | zero => intro fuel' itr prev _ h; simp [insertLoop] at h
  | succ fuel ih =>
    intro fuel' itr prev hle h
    obtain ⟨f, rfl⟩ : ∃ f, fuel' = f + 1 := ⟨fuel' - 1, by omega⟩
    rw [insertLoop] at h ⊢
    by_cases h0 : itr = 0
    · rw [if_pos h0] at h ⊢; exact h
    rw [if_neg h0] at h ⊢
    by_cases h1 : freeHeader < itr
    · rw [if_pos h1] at h ⊢; exact h
    · rw [if_neg h1] at h ⊢; exact ih (by omega) h

/-- More fuel does not change what `memAlloc` returns. -/
theorem memAlloc_mono {fuel fuel' : Nat} {h : Heap} {size : Int32} {r : Nat × Heap}
    (hle : fuel ≤ fuel') (hr : memAlloc fuel h size = some r) :
    memAlloc fuel' h size = some r := by
  unfold memAlloc at hr ⊢
  by_cases h0 : size ≤ 0
  · rw [if_pos h0] at hr ⊢; exact hr
  · rw [if_neg h0] at hr ⊢
    dsimp only at hr ⊢
    cases hs : searchLoop h.mem (roundUp size) fuel h.head 0 0 0 with
    | none => rw [hs] at hr; simp at hr
    | some q => rw [hs] at hr; rw [searchLoop_mono hle hs]; exact hr

/-- More fuel does not change what `memFree` returns. -/
theorem memFree_mono {fuel fuel' : Nat} {h : Heap} {ptr : Nat} {r : Int32 × Heap}
    (hle : fuel ≤ fuel') (hr : memFree fuel h ptr = some r) :
    memFree fuel' h ptr = some r := by
  unfold memFree at hr ⊢
  by_cases h0 : ptr = 0
  · rw [if_pos h0] at hr ⊢; exact hr
  · rw [if_neg h0] at hr ⊢
    dsimp only at hr ⊢
    by_cases hm : usedMagic h.mem (ptrAdd ptr (-sizeofUsed)) ≠ magicNum
    · rw [if_pos hm] at hr ⊢; exact hr
    · rw [if_neg hm] at hr ⊢
      split at hr
      · simp at hr
      · rename_i itr prev hs
        rw [insertLoop_mono hle hs]
        exact hr

end Cs537.Mem
