import Cs537.Fs.Holes
import Mathlib.Data.Fintype.Basic
import Mathlib.Data.Finset.Max
import Mathlib.Data.Nat.Find

/-!
# The size of a file

`getINodeSize` wants the offset of the last byte of a file that is not 0. It goes
through the blocks from the last one down and in each through the buffer from its end
on, but two slips keep it from ever seeing a block. Its buffer is an array of 4096
pointers and not of 4096 characters, of which a block fills only the first part. And the
inner loop counts up: it begins with the last pointer of the array, which no `read` has
filled, and goes on into what lies above it on the stack.

So the size depends on the stack, and on the inode only through the number of its last
written block. It is the one that the README promises if the last pointer happens to be
set and the last byte of the last block is not 0.
-/

namespace Cs537.Fs

open Lib

variable {env : Env} {s s' : State} {i : Int32} {b top : Fin 14} {n : INode}

/-! ## `getINodeSize` -/

/-- What `getINodeSize` finds on its stack. -/
structure Frame where
  /-- `sizeof(char*)`. -/
  ptrSize : Nat
  two_le : 2 ≤ ptrSize
  /-- The bytes of `char* buffer[BUFFER_SIZE]`. -/
  buffer : Nat → UInt8
  /-- The bytes above it, up to where no memory is. -/
  above : Nat → Option UInt8
  j : Int32

/-- The byte at `x` from the start of `buffer` on, after a `read` of `bs` into it. -/
def Frame.byte (f : Frame) (bs : List UInt8) (x : Nat) : Option UInt8 :=
  if x < bufferSize * f.ptrSize then some ((bs[x]?).getD (f.buffer x))
  else f.above (x - bufferSize * f.ptrSize)

/-- `buffer[j] != '\0'`; the access fails where no memory is. -/
def Frame.test (f : Frame) (bs : List UInt8) (j : Nat) : Option Bool :=
  if ∃ k < f.ptrSize, f.byte bs (j * f.ptrSize + k) = none then none
  else some (decide (∃ k < f.ptrSize, f.byte bs (j * f.ptrSize + k) ≠ some 0))

/--
The inner loop from `j` on. Its condition `j >= 0` never fails, so it ends at the first
pointer that is set; or it does not, because an access fails or `j` overflows.
-/
def scanUp (test : Nat → Option Bool) : Nat → Nat → Option Nat
  | 0, _ => none
  | m + 1, j =>
      match test j with
      | none => none
      | some true => some j
      | some false => scanUp test m (j + 1)

/-- The outer loop over the blocks to come. Once the inner loop has ended, so has this one. -/
def sizeFrom (f : Frame) (node : INode) : List (Fin 14) → Disk → Option (Int32 × Disk)
  | [], d => some (-1 * 4096 + (f.j + 1), d)
  | i :: is, d =>
      if node.dataPtrs i = -1 then sizeFrom f node is d
      else
        let (_, d) := lseek (node.dataPtrs i) d
        let (_, bytes, d) := read bufferSize (load f.buffer 0 bufferSize) d
        match scanUp (f.test bytes) (2 ^ 31 - 4095) 4095 with
        | none => none
        | some j => some (Int32.ofNat i * 4096 + (Int32.ofNat j + 1), d)

/-- `getINodeSize`; `none` if it does not return. -/
def getINodeSize (f : Frame) (node : INode) (d : Disk) : Option (Int32 × Disk) :=
  sizeFrom f node (List.finRange 14).reverse d

/-! ## What it looks at -/

/-- Pointers from 4095 on are not what was read. -/
theorem test_read (f : Frame) {bs : List UInt8} (hbs : bs.length ≤ bufferSize) {j : Nat} (hj : 4095 ≤ j) :
    f.test bs j = f.test [] j := by
  have hbyte : ∀ k, f.byte bs (j * f.ptrSize + k) = f.byte [] (j * f.ptrSize + k) := by
    intro k
    have hx : 4095 * 2 ≤ j * f.ptrSize := Nat.mul_le_mul hj f.two_le
    unfold bufferSize at hbs
    unfold Frame.byte
    rw [List.getElem?_eq_none (by omega), List.getElem?_nil]
  unfold Frame.test
  simp only [hbyte]

theorem scanUp_congr {test test' : Nat → Option Bool} : ∀ (m j : Nat),
    (∀ k, j ≤ k → test k = test' k) → scanUp test m j = scanUp test' m j := by
  intro m
  induction m with
  | zero => exact fun _ _ => rfl
  | succ m ih =>
      intro j h
      rw [scanUp, scanUp, h j (Nat.le_refl j), ih (j + 1) fun k hk => h k (by omega)]

/-- Where the loop ends, if it does. -/
theorem scanUp_some {test : Nat → Option Bool} {x : Nat} : ∀ (m j : Nat), scanUp test m j = some x →
    j ≤ x ∧ x < j + m ∧ test x = some true := by
  intro m
  induction m with
  | zero => intro j h; cases h
  | succ m ih =>
      intro j h
      rw [scanUp] at h
      split at h
      · cases h
      · rename_i htest
        cases h
        exact ⟨Nat.le_refl _, by omega, htest⟩
      · obtain ⟨hle, hlt, htest⟩ := ih (j + 1) h
        exact ⟨by omega, by omega, htest⟩

/-- The pointer the loop ends at, the same whatever was read. -/
def Frame.found (f : Frame) : Option Nat := scanUp (f.test []) (2 ^ 31 - 4095) 4095

theorem found_eq_first {f : Frame} : f.found = some 4095 ↔ f.test [] 4095 = some true := by
  constructor
  · intro h
    exact (scanUp_some _ _ h).2.2
  · intro h
    unfold Frame.found
    rw [show 2 ^ 31 - 4095 = (2 ^ 31 - 4096) + 1 by omega, scanUp, h]

/-- The last block that was written. -/
def INode.Top (n : INode) (top : Fin 14) : Prop :=
  n.dataPtrs top ≠ -1 ∧ ∀ b, top < b → n.dataPtrs b = -1

theorem exists_top (h : ∃ b, n.dataPtrs b ≠ -1) : ∃ top, n.Top top := by
  obtain ⟨b, hb⟩ := h
  obtain ⟨top, htop, hmax⟩ := Finset.exists_max_image
    (Finset.univ.filter fun b => n.dataPtrs b ≠ -1) id ⟨b, by simpa using hb⟩
  refine ⟨top, by simpa using htop, fun c hc => ?_⟩
  by_contra hne
  exact absurd (hmax c (by simpa using hne)) (Fin.not_le.mpr hc)

/-- The outer loop comes to the last written block first. -/
theorem sizeFrom_eq (f : Frame) (htop : n.Top top) : ∀ (is : List (Fin 14)) (d : Disk),
    is.Pairwise (· > ·) → top ∈ is → ∃ d', sizeFrom f n is d
      = f.found.map fun j => (Int32.ofNat top * 4096 + (Int32.ofNat j + 1), d') := by
  intro is
  induction is with
  | nil => intro d _ hmem; cases hmem
  | cons c is ih =>
      intro d hsorted hmem
      rw [List.pairwise_cons] at hsorted
      rw [sizeFrom]
      rcases List.mem_cons.mp hmem with rfl | hmem
      · -- the block is read, and then not looked at
        have hlen := length_read (lseek (n.dataPtrs top) d).2
          (length_load f.buffer 0 bufferSize)
        have hscan := @scanUp_congr _ _ (2 ^ 31 - 4095) 4095
          fun k hk => test_read f (Nat.le_of_eq hlen) hk
        rw [if_neg htop.1]
        dsimp only
        rw [hscan]
        refine ⟨(read bufferSize (load f.buffer 0 bufferSize) (lseek (n.dataPtrs top) d).2).2.2, ?_⟩
        unfold Frame.found
        cases scanUp (f.test []) (2 ^ 31 - 4095) 4095 with
        | none => rfl
        | some j => rfl
      · rw [if_pos (htop.2 c (hsorted.1 top hmem))]
        exact ih d hsorted.2 hmem

/-- `getINodeSize` of an inode whose last written block is `top`. -/
theorem getINodeSize_eq (f : Frame) (htop : n.Top top) (d : Disk) : ∃ d', getINodeSize f n d
    = f.found.map fun j => (Int32.ofNat top * 4096 + (Int32.ofNat j + 1), d') :=
  sizeFrom_eq f htop _ d (by decide) (List.mem_reverse.mpr (List.mem_finRange top))

/-! ## The rule -/

/-- The byte at offset `x` of a file, 0 in a hole. -/
def byteAt (blocks : Fin 14 → Option (List UInt8)) (x : Nat) : UInt8 :=
  if h : x / 4096 < 14 then ((blocks ⟨x / 4096, h⟩).bind fun bs => bs[x % 4096]?).getD 0 else 0

/-- One more than the offset of the last byte that is not 0, or 0. -/
def sizeRule (blocks : Fin 14 → Option (List UInt8)) : Nat :=
  Nat.findGreatest (fun m => byteAt blocks (m - 1) ≠ 0) (14 * 4096)

theorem sizeRule_le (blocks : Fin 14 → Option (List UInt8)) : sizeRule blocks ≤ 14 * 4096 :=
  Nat.findGreatest_le _

theorem lt_of_byteAt {blocks : Fin 14 → Option (List UInt8)} {x : Nat} (h : byteAt blocks x ≠ 0) :
    x < sizeRule blocks := by
  have hx : x < 14 * 4096 := by
    by_contra hge
    refine h (dif_neg ?_)
    omega
  have hle : x + 1 ≤ sizeRule blocks := Nat.le_findGreatest (by omega) (by exact h)
  omega

theorem byteAt_sizeRule {blocks : Fin 14 → Option (List UInt8)} (h : sizeRule blocks ≠ 0) :
    byteAt blocks (sizeRule blocks - 1) ≠ 0 := Nat.findGreatest_of_ne_zero rfl h

/-- Bytes other than 0 are in blocks that were written. -/
theorem byteAt_above (htop : n.Top top) {x : Nat} (hx : 4096 * (top + 1) ≤ x) :
    byteAt (s.node n).blocks x = 0 := by
  unfold byteAt
  split
  · rename_i hlt
    have hnone : (s.node n).blocks ⟨x / 4096, hlt⟩ = none := by
      refine node_blocks_none (htop.2 _ (Fin.lt_def.mpr ?_))
      show top.val < x / 4096
      omega
    rw [hnone]
    rfl
  · rfl

theorem sizeRule_top (htop : n.Top top) : sizeRule (s.node n).blocks ≤ 4096 * (top + 1) := by
  by_contra hlt
  have hne := @byteAt_sizeRule (s.node n).blocks (by omega)
  exact hne (byteAt_above htop (by omega))

/-- The last byte of the last written block is not 0. -/
def INode.Full (n : INode) (s : State) : Prop :=
  ∃ top, n.Top top ∧ byteAt (s.node n).blocks (4096 * top + 4095) ≠ 0

theorem Top.unique {top' : Fin 14} (h : n.Top top) (h' : n.Top top') : top = top' := by
  rcases lt_trichotomy top top' with hlt | heq | hgt
  · exact absurd (h.2 _ hlt) h'.1
  · exact heq
  · exact absurd (h'.2 _ hgt) h.1

theorem sizeRule_eq_iff (htop : n.Top top) :
    sizeRule (s.node n).blocks = 4096 * (top + 1) ↔ n.Full s := by
  have hle := @sizeRule_top s top n htop
  constructor
  · intro heq
    have hne := @byteAt_sizeRule (s.node n).blocks (by omega)
    rw [heq] at hne
    exact ⟨top, htop, hne⟩
  · rintro ⟨top', htop', hne⟩
    obtain rfl := Top.unique htop htop'
    have hlt := lt_of_byteAt hne
    omega

/-! ## When the two agree -/

/-- `getINodeSize` returns, and says `v`. -/
def Sized (f : Frame) (node : INode) (d : Disk) (v : Nat) : Prop :=
  ∃ d', getINodeSize f node d = some (Int32.ofNat v, d')

/-- Sizes below 2^32 are told apart. -/
theorem ofNat_size_eq {v j : Nat} (hv : v ≤ 14 * 4096) (hj : j < 2 ^ 31) :
    Int32.ofNat top * 4096 + (Int32.ofNat j + 1) = Int32.ofNat v ↔ v = 4096 * top + (j + 1) := by
  have hnat : Int32.ofNat top * 4096 + (Int32.ofNat j + 1) = Int32.ofNat (top * 4096 + (j + 1)) := by
    rw [Int32.ofNat_add, Int32.ofNat_mul, Int32.ofNat_add]
    rfl
  have hv' : (Int32.ofNat v).toInt = v := toInt_ofNat_of_range (by omega)
  rw [hnat, ← Int32.toInt_inj, hv', toInt_ofNat_eq_iff (by omega)]
  omega

theorem sized_iff (f : Frame) (htop : n.Top top) {d : Disk} :
    Sized f n d (sizeRule (s.node n).blocks) ↔ f.test [] 4095 = some true ∧ n.Full s := by
  obtain ⟨d', heq⟩ := getINodeSize_eq f htop d
  have hle := @sizeRule_top s top n htop
  rw [← found_eq_first, ← sizeRule_eq_iff htop]
  unfold Sized
  rw [heq]
  cases hf : f.found with
  | none => simp
  | some j =>
      obtain ⟨hlo, hhi, -⟩ := scanUp_some _ _ hf
      have hsize := @ofNat_size_eq top _ j (sizeRule_le (s.node n).blocks) (by omega)
      rw [Option.map_some]
      constructor
      · rintro ⟨d'', heq⟩
        have hv := hsize.mp (congrArg Prod.fst (Option.some.inj heq))
        exact ⟨congrArg some (by omega), by omega⟩
      · rintro ⟨hj, hv⟩
        cases hj
        exact ⟨d', by rw [hsize.mpr (by omega)]⟩

/-- A stack of zeros that ends with the array. -/
def blankFrame : Frame := ⟨8, by decide, fun _ => 0, fun _ => none, 0⟩

theorem test_blankFrame : blankFrame.test [] 4095 = some false := by
  have hbyte : ∀ k < blankFrame.ptrSize, blankFrame.byte [] (4095 * blankFrame.ptrSize + k) = some 0 := by
    intro k hk
    have hk' : k < 8 := hk
    exact if_pos (show 4095 * 8 + k < 4096 * 8 by omega)
  unfold Frame.test
  rw [if_neg, decide_eq_false]
  · rintro ⟨k, hk, hne⟩
    exact hne (hbyte k hk)
  · rintro ⟨k, hk, hne⟩
    rw [hbyte k hk] at hne
    cases hne

/-- The size that `fs_stat` reports after `fs_write`, if `getINodeSize` returned in it. -/
theorem stat_write (h : LogInv s) (he : env.dest = .caller) (hn : s.inode i = some n)
    (ht : n.type = fsRegularFile) (buffer : Buffer) {size : Int32} {pos : Nat}
    (hsize : env.getINodeSize (n.setPtr b s.cp.endPtr) (s.append buffer.bytes).disk = (size, pos))
    (hlen : (fsWrite env i buffer.bytes (Int32.ofNat b) s).2.disk.file.len < 2 ^ 31) (m : StatT) :
    (fsWrite env i buffer.bytes (Int32.ofNat b) s).1 = 0
      ∧ (fsStat env i m (fsWrite env i buffer.bytes (Int32.ofNat b) s).2).2.1 = ⟨fsRegularFile, size⟩ := by
  have htd : n.type ≠ fsDirectory := by rw [ht]; decide
  have hi := (inode_eq_some hn).1
  have heq := fsWrite_eq h he hn htd (toInt_block b) buffer.bytes hsize
  rw [heq] at hlen
  obtain ⟨s', hins, h', -, hv⟩ := @putBlock_spec env s i s n b buffer.bytes size pos h
    (Grows.refl s).keeps (h.blocks i n hn) buffer.len he hi hlen
  rw [heq, hins]
  obtain ⟨q, hq⟩ := @fsStat_spec env s' i h' he hi m
  have hstat : s'.view.stat i = some ⟨fsRegularFile, size⟩ := by
    rw [View.stat, hv, Function.update_self, ← ht]
    rfl
  rw [hstat] at hq
  rw [hq]
  exact ⟨rfl, rfl⟩

/-- The inode that `fs_write` hands to `getINodeSize` has a written block. -/
theorem exists_setPtr (h : LogInv s) : ∃ c, (n.setPtr b s.cp.endPtr).dataPtrs c ≠ -1 := by
  refine ⟨b, ?_⟩
  show (if b = b then s.cp.endPtr else n.dataPtrs b) ≠ -1
  rw [if_pos rfl]
  exact h.end_ne

/-- And its blocks are those of the file after the write. -/
theorem append_blocks (h : LogInv s) (he : env.dest = .caller) (hn : s.inode i = some n)
    (ht : n.type = fsRegularFile) (buffer : Buffer)
    (hlen : (fsWrite env i buffer.bytes (Int32.ofNat b) s).2.disk.file.len < 2 ^ 31) :
    ((s.append buffer.bytes).node (n.setPtr b s.cp.endPtr)).blocks
      = Function.update (s.node n).blocks b (some buffer.bytes) := by
  have htd : n.type ≠ fsDirectory := by rw [ht]; decide
  have hlen1 := fsWrite_append_len h he hn htd (toInt_block b) hlen
  have hnode := (@append_block s s n b buffer.bytes n.size h (Grows.refl s).keeps (h.blocks i n hn)
    buffer.len hlen1).2
  exact congrArg Node.blocks hnode

/--
**The size is not the one promised.** Take an inode with at least one written block.
There is always a stack with which `getINodeSize` does not return the size of the rule.
With a given stack it does exactly if the last pointer of its buffer, which it never
filled, is set, and the last byte of the last written block is not 0. The same goes for
the size that `fs_stat` reports after an `fs_write`, for every call in which
`getINodeSize` returns. The size of the rule is in range.
-/
theorem getINodeSize_wrong (s : State) (n : INode) :
    ((∃ b, n.dataPtrs b ≠ -1) → (¬∀ f, Sized f n s.disk (sizeRule (s.node n).blocks))
      ∧ ∀ f, Sized f n s.disk (sizeRule (s.node n).blocks) ↔ f.test [] 4095 = some true ∧ n.Full s)
    ∧ sizeRule (s.node n).blocks ≤ 14 * 4096
    ∧ ∀ (i : Int32) (b : Fin 14) (buffer : Buffer) (env : Env) (f : Frame) (size : Int32) (d : Disk),
      Reachable (fun _ _ => True) s → s.inode i = some n → n.type = fsRegularFile → env.dest = .caller →
      getINodeSize f (n.setPtr b s.cp.endPtr) (s.append buffer.bytes).disk = some (size, d) →
      env.getINodeSize (n.setPtr b s.cp.endPtr) (s.append buffer.bytes).disk = (size, d.pos) →
      (fsWrite env i buffer.bytes (Int32.ofNat b) s).2.disk.file.len < 2 ^ 31 → ∀ m,
      (fsWrite env i buffer.bytes (Int32.ofNat b) s).1 = 0
        ∧ ((fsStat env i m (fsWrite env i buffer.bytes (Int32.ofNat b) s).2).2.1.size
            = Int32.ofNat (sizeRule (Function.update (s.node n).blocks b (some buffer.bytes)))
          ↔ f.test [] 4095 = some true
            ∧ (n.setPtr b s.cp.endPtr).Full (s.append buffer.bytes)) := by
  refine ⟨fun hw => ?_, sizeRule_le _, ?_⟩
  · obtain ⟨top, htop⟩ := exists_top hw
    refine ⟨fun hall => ?_, fun f => sized_iff f htop⟩
    obtain ⟨htest, -⟩ := (sized_iff blankFrame htop).mp (hall blankFrame)
    rw [test_blankFrame] at htest
    cases htest
  · intro i b buffer env f size d hr hn ht he hget hsize hlen m
    have h := (inv_reachable hr).log
    obtain ⟨hcode, hstat⟩ := stat_write h he hn ht buffer hsize hlen m
    obtain ⟨top, htop⟩ := exists_top (@exists_setPtr s b n h)
    have hiff := @sized_iff (s.append buffer.bytes) top _ f htop (s.append buffer.bytes).disk
    rw [append_blocks h he hn ht buffer hlen] at hiff
    refine ⟨hcode, ?_⟩
    rw [hstat, ← hiff]
    constructor
    · intro hv
      exact ⟨d, by rw [hget, ← hv]⟩
    · rintro ⟨d', hd'⟩
      rw [hget] at hd'
      exact congrArg Prod.fst (Option.some.inj hd')

/-- `getINodeSize` with this stack, in the environment of `fs_write`. -/
def Frame.toEnv (f : Frame) : Env :=
  { sampleEnv with
    getINodeSize := fun node d => ((getINodeSize f node d).map fun r => (r.1, r.2.pos)).getD (0, d.pos) }

theorem toEnv_getINodeSize {f : Frame} {node : INode} {d d' : Disk} {size : Int32}
    (h : getINodeSize f node d = some (size, d')) : f.toEnv.getINodeSize node d = (size, d'.pos) := by
  show ((getINodeSize f node d).map fun r => (r.1, r.2.pos)).getD (0, d.pos) = _
  rw [h]
  rfl

/-- A stack of ones that ends with the array. -/
def fullFrame : Frame := ⟨8, by decide, fun _ => 1, fun _ => none, 0⟩

theorem found_fullFrame : fullFrame.found = some 4095 := by
  have hbyte : ∀ k < fullFrame.ptrSize, fullFrame.byte [] (4095 * fullFrame.ptrSize + k) = some 1 := by
    intro k hk
    have hk' : k < 8 := hk
    exact if_pos (show 4095 * 8 + k < 4096 * 8 by omega)
  rw [found_eq_first]
  unfold Frame.test
  rw [if_neg, decide_eq_true]
  · refine ⟨0, (by decide : 0 < 8), ?_⟩
    rw [hbyte 0 (by decide : 0 < 8)]
    decide
  · rintro ⟨k, hk, hne⟩
    rw [hbyte k hk] at hne
    cases hne

/-- A block whose first byte only is not 0. -/
def oneByte : Buffer := ⟨1 :: List.replicate 4095 0, by rw [List.length_cons, List.length_replicate]; rfl⟩

theorem oneByte_head : (oneByte.bytes[0]?).getD 0 = 1 := rfl

theorem oneByte_tail (k : Nat) : (oneByte.bytes[k + 1]?).getD 0 = 0 := by
  show ((1 :: List.replicate 4095 (0 : UInt8))[k + 1]?).getD 0 = 0
  rw [List.getElem?_cons_succ, List.getElem?_replicate]
  split <;> rfl

/-- A file with its first block only. -/
theorem byteAt_first (bs : List UInt8) (x : Nat) :
    byteAt (Function.update (fun _ => none) 0 (some bs)) x = if x < 4096 then (bs[x]?).getD 0 else 0 := by
  unfold byteAt
  by_cases hx : x < 4096
  · have hblock : (⟨x / 4096, by omega⟩ : Fin 14) = 0 := Fin.ext (by show x / 4096 = 0; omega)
    rw [dif_pos (by omega), hblock, Function.update_self, Option.bind_some, if_pos hx,
      Nat.mod_eq_of_lt hx]
  · rw [if_neg hx]
    split
    · rw [Function.update_of_ne]
      · rfl
      · intro hc
        have hzero : x / 4096 = 0 := congrArg Fin.val hc
        omega
    · rfl

theorem sizeRule_oneByte : sizeRule (Function.update (fun _ => none) 0 (some oneByte.bytes)) = 1 := by
  have hbyte := byteAt_first oneByte.bytes
  generalize Function.update (fun _ => none) (0 : Fin 14) (some oneByte.bytes) = blocks at hbyte ⊢
  have hpos : 0 < sizeRule blocks := by
    refine lt_of_byteAt ?_
    rw [hbyte, if_pos (by omega), oneByte_head]
    decide
  by_contra hne
  -- past the first byte there are zeros
  have hlast := byteAt_sizeRule (Nat.ne_of_gt hpos)
  obtain ⟨k, hk⟩ : ∃ k, sizeRule blocks - 1 = k + 1 := ⟨sizeRule blocks - 2, by omega⟩
  rw [hk, hbyte, oneByte_tail, ite_self] at hlast
  exact hlast rfl

/-- A reachable file without blocks, and what `fs_write` makes of its inode. -/
theorem reachable_empty_file : ∃ (s : State) (n : INode) (e : Int), Reachable (fun _ _ => True) s
    ∧ 1028 ≤ e ∧ e ≤ 13700 ∧ Level s e ∧ s.inode 1 = some n ∧ n.type = fsRegularFile
    ∧ (s.node n).blocks = (fun _ => none) ∧ (n.setPtr 0 s.cp.endPtr).Top 0 := by
  obtain ⟨s, e, hr, he, he', hl, hv⟩ := @reachable_file (fun _ _ => True) fun _ => trivial
  obtain ⟨n, hn, hnode⟩ := Option.map_eq_some_iff.mp hv
  refine ⟨s, n, e, hr, he, he', hl, hn, congrArg Node.type hnode, congrArg Node.blocks hnode, ?_, ?_⟩
  · show (if (0 : Fin 14) = 0 then s.cp.endPtr else n.dataPtrs 0) ≠ -1
    rw [if_pos rfl]
    exact (inv_reachable hr).log.end_ne
  · intro b hb
    show (if b = 0 then s.cp.endPtr else n.dataPtrs b) = -1
    rw [if_neg (ne_of_gt hb)]
    exact (ptr_of_view hn hv).mpr rfl

theorem getINodeSize_wrong_sample : ∃ (s : State) (n : INode), Reachable (fun _ _ => True) s
    ∧ s.inode 1 = some n ∧ (∃ b, (n.setPtr 0 s.cp.endPtr).dataPtrs b ≠ -1)
    ∧ ¬∀ f, Sized f (n.setPtr 0 s.cp.endPtr) s.disk (sizeRule (s.node (n.setPtr 0 s.cp.endPtr)).blocks) := by
  obtain ⟨s, n, e, hr, -, -, -, hn, -, -, htop⟩ := reachable_empty_file
  obtain ⟨hnever, -⟩ := getINodeSize_wrong s (n.setPtr 0 s.cp.endPtr)
  exact ⟨s, n, hr, hn, ⟨0, htop.1⟩, (hnever ⟨0, htop.1⟩).1⟩

/-- A file of one byte that is said to have 4096. -/
theorem oneByte_sized_4096 : ∃ (s : State) (n : INode) (d : Disk), Reachable (fun _ _ => True) s
    ∧ s.inode 1 = some n ∧ n.type = fsRegularFile
    ∧ getINodeSize fullFrame (n.setPtr 0 s.cp.endPtr) (s.append oneByte.bytes).disk = some (4096, d)
    ∧ sizeRule ((s.append oneByte.bytes).node (n.setPtr 0 s.cp.endPtr)).blocks = 1
    ∧ ∀ m, (fsStat fullFrame.toEnv 1 m (fsWrite fullFrame.toEnv 1 oneByte.bytes (Int32.ofNat (0 : Fin 14)) s).2).2.1
      = ⟨fsRegularFile, 4096⟩ := by
  obtain ⟨s, n, e, hr, he, he', hl, hn, ht, hblocks, htop⟩ := reachable_empty_file
  have h := (inv_reachable hr).log
  obtain ⟨d, heq⟩ := getINodeSize_eq fullFrame htop (s.append oneByte.bytes).disk
  rw [found_fullFrame, Option.map_some] at heq
  obtain ⟨e1, -, hle, hl1⟩ := @fsWrite_rises fullFrame.toEnv s 1 (Int32.ofNat (0 : Fin 14)) oneByte.bytes
    oneByte.len e (by omega) (by omega) hl
  have hlen := hl1.len
  have hlen1 : (fsWrite fullFrame.toEnv 1 oneByte.bytes (Int32.ofNat (0 : Fin 14)) s).2.disk.file.len < 2 ^ 31 := by
    omega
  refine ⟨s, n, d, hr, hn, ht, heq, ?_, fun m => ?_⟩
  · rw [append_blocks h rfl hn ht oneByte hlen1, hblocks]
    exact sizeRule_oneByte
  · exact (stat_write h rfl hn ht oneByte (toEnv_getINodeSize heq) hlen1 m).2

end Cs537.Fs
