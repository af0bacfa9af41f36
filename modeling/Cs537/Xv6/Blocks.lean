import Cs537.Lib.Pool
import Cs537.Xv6.Inode

/-!
# The bitmap and the blocks of the files

The disk from its start: a block that is not used, the superblock, the inodes, the bitmap, and
the blocks for files. Every block has one use: it is below the blocks for files, or beyond
what the bitmap has bits for, or an inode names it once; exactly the others have a clear bit,
and are full of zeros. `balloc` and `bfree` change the use of one block.

The bitmap has more bits than the disk has blocks. `balloc` does not stop at the last one.
-/

namespace Cs537.Xv6

open Lib

variable {d d' : Disk} {a b c : Nat} {x : UInt8}

/-! ## Bits -/

/-- Bit `b` of a byte of the bitmap. -/
def bitOf (x : UInt8) (b : Nat) : Bool := x.toBitVec.getLsbD (b % bpb % 8)

theorem mask_bits (b i : Nat) (hi : i < 8) : (mask b).toBitVec.getLsbD i = decide (i = b % bpb % 8) := by
  have hall : ∀ k i : Fin 8, (1 <<< UInt8.ofNat k.val).toBitVec.getLsbD i.val = decide (i.val = k.val) := by decide
  exact hall ⟨b % bpb % 8, Nat.mod_lt _ (by decide)⟩ ⟨i, hi⟩

theorem and_mask (x : UInt8) (b : Nat) : (x &&& mask b == 0) = !bitOf x b := by
  have hk : b % bpb % 8 < 8 := Nat.mod_lt _ (by decide)
  have hzero : x &&& mask b = 0 ↔ bitOf x b = false := by
    rw [← UInt8.toBitVec_inj, UInt8.toBitVec_and]
    constructor
    · intro h
      have hbit := congrArg (BitVec.getLsbD · (b % bpb % 8)) h
      rw [BitVec.getLsbD_and, mask_bits b _ hk, decide_eq_true rfl, Bool.and_true] at hbit
      exact hbit.trans BitVec.getLsbD_zero
    · intro h
      refine BitVec.eq_of_getLsbD_eq fun i hi => ?_
      rw [BitVec.getLsbD_and, mask_bits b i hi]
      by_cases hib : i = b % bpb % 8
      · rw [hib, show x.toBitVec.getLsbD (b % bpb % 8) = false from h, Bool.false_and]
        exact BitVec.getLsbD_zero.symm
      · rw [decide_eq_false hib, Bool.and_false]
        exact BitVec.getLsbD_zero.symm
  rw [Bool.eq_iff_iff, beq_iff_eq, hzero, Bool.not_eq_true']

/-- Setting a bit. -/
theorem bitOf_or (x : UInt8) (b c : Nat) : bitOf (x ||| mask b) c = (bitOf x c || decide (c % bpb % 8 = b % bpb % 8)) := by
  rw [bitOf, bitOf, UInt8.toBitVec_or, BitVec.getLsbD_or, mask_bits b _ (Nat.mod_lt _ (by decide))]

/-- Clearing a bit. -/
theorem bitOf_and_not (x : UInt8) (b c : Nat) :
    bitOf (x &&& ~~~mask b) c = (bitOf x c && !decide (c % bpb % 8 = b % bpb % 8)) := by
  have hk : c % bpb % 8 < 8 := Nat.mod_lt _ (by decide)
  rw [bitOf, bitOf, UInt8.toBitVec_and, UInt8.toBitVec_not, BitVec.getLsbD_and, BitVec.getLsbD_not, mask_bits b _ hk,
    decide_eq_true hk, Bool.true_and]

/-! ## Where things are -/

/-- The first block of the bitmap. -/
def mapStart (d : Disk) : Nat := (readsb d).ninodes.toNat / ipb + 3

/-- The first block for files. -/
def dataStart (d : Disk) : Nat := mapStart d + (readsb d).size.toNat / bpb + 1

/-- The first block without a bit. -/
def mapLimit (d : Disk) : Nat := bpb * ((readsb d).size.toNat / bpb + 1)

theorem mapByte_eq (d : Disk) (b : Nat) : mapByte d b = bsize * mapStart d + b / 8 := by
  rw [mapByte, bblock, mapStart, bpb, bsize]
  omega

theorem mapByte_ge (d : Disk) (b : Nat) : bsize * mapStart d ≤ mapByte d b := by
  rw [mapByte_eq]
  exact Nat.le_add_right ..

theorem mapByte_lt (h : b < mapLimit d) : mapByte d b < bsize * dataStart d := by
  rw [mapByte_eq, dataStart, bsize]
  rw [mapLimit, bpb] at h
  rw [bpb]
  omega

theorem mapStart_ge (d : Disk) : bsize * 3 ≤ bsize * mapStart d := by
  rw [mapStart]
  exact Nat.mul_le_mul_left _ (Nat.le_add_left ..)

/-- Every inode is before the bitmap. -/
theorem inodeAt_lt {inum : Nat} (h : inum < (readsb d).ninodes.toNat) : inodeAt inum + 64 ≤ bsize * mapStart d := by
  rw [inodeAt, mapStart, bsize, ipb]
  omega

theorem inodeAt_ge (inum : Nat) : bsize * 2 ≤ inodeAt inum := by
  rw [inodeAt, bsize, ipb]
  omega

/-- Different inodes do not overlap. -/
theorem inodeAt_apart {i j : Nat} (h : i ≠ j) : inodeAt i + 64 ≤ inodeAt j ∨ inodeAt j + 64 ≤ inodeAt i := by
  rw [inodeAt, inodeAt, bsize, ipb]
  omega

/-! ## What a store leaves alone -/

variable {bs : List UInt8}

theorem load_store_apart {n : Nat} (h : c + n ≤ a ∨ a + bs.length ≤ c) : load (store d a bs) c n = load d c n := by
  refine load_congr fun y hy hy' => store_outside fun hin => ?_
  omega

theorem uint_store (h : c + 4 ≤ a ∨ a + bs.length ≤ c) : uint (store d a bs) c = uint d c := by
  rw [uint, uint, load_store_apart h]

theorem short_store (h : c + 2 ≤ a ∨ a + bs.length ≤ c) : short (store d a bs) c = short d c := by
  rw [short, short, load_store_apart h]

/-- The superblock is before everything that is written. -/
theorem readsb_store (h : bsize * 2 ≤ a) : readsb (store d a bs) = readsb d := by
  have hb : bsize + 8 + 4 ≤ a := Nat.le_trans (by decide) h
  rw [readsb, readsb, uint_store (Or.inl (by omega)), uint_store (Or.inl (by omega)), uint_store (Or.inl hb)]

theorem dinode_store {inum : Nat} (h : inodeAt inum + 64 ≤ a ∨ a + bs.length ≤ inodeAt inum) :
    dinode (store d a bs) inum = dinode d inum := by
  have hfield : ∀ o n, o + n ≤ 64 → inodeAt inum + o + n ≤ a ∨ a + bs.length ≤ inodeAt inum + o := by
    intro o n ho
    omega
  have haddrs : (Vector.ofFn fun i : Fin 13 => uint (store d a bs) (inodeAt inum + 12 + 4 * i))
      = Vector.ofFn fun i => uint d (inodeAt inum + 12 + 4 * i) := by
    refine congrArg Vector.ofFn (funext fun i => ?_)
    have hi := i.isLt
    exact uint_store (by omega)
  rw [dinode, dinode]
  rw [haddrs, short_store (hfield 0 2 (by decide)), short_store (hfield 2 2 (by decide)),
    short_store (hfield 4 2 (by decide)), short_store (hfield 6 2 (by decide)), uint_store (hfield 8 4 (by decide))]

theorem isFree_store (hsb : readsb (store d a bs) = readsb d) (h : mapByte d b < a ∨ a + bs.length ≤ mapByte d b) :
    isFree (store d a bs) b = isFree d b := by
  have hbyte : mapByte (store d a bs) b = mapByte d b := by
    rw [mapByte, mapByte, hsb]
  rw [isFree, isFree, hbyte, store_outside]
  omega

/-! ## One bit of the bitmap -/

theorem isFree_eq (d : Disk) (b : Nat) : isFree d b = !bitOf (d (mapByte d b)) b := and_mask _ _

/-- A byte of the bitmap is written. -/
theorem isFree_map (x : UInt8) (c : Nat) : isFree (store d (mapByte d b) [x]) c
    = if mapByte d c = mapByte d b then !bitOf x c else isFree d c := by
  have hsb : readsb (store d (mapByte d b) [x]) = readsb d := by
    refine readsb_store ?_
    have h1 := mapByte_ge d b
    have h2 := mapStart_ge d
    rw [bsize] at *
    omega
  by_cases h : mapByte d c = mapByte d b
  · have hbyte : mapByte (store d (mapByte d b) [x]) c = mapByte d b := by
      rw [mapByte, hsb]
      exact h
    rw [if_pos h, isFree_eq, hbyte, store, if_pos (Nat.le_refl _), Nat.sub_self]
    rfl
  · rw [if_neg h, isFree_store hsb]
    rw [List.length_singleton]
    omega

/-- The bits of two blocks are the same bit only if the blocks are. -/
theorem bit_inj (hbyte : mapByte d c = mapByte d b) (hbit : c % bpb % 8 = b % bpb % 8) : c = b := by
  rw [mapByte_eq, mapByte_eq] at hbyte
  rw [bpb] at hbit
  omega

theorem isFree_set (d : Disk) (b c : Nat) :
    isFree (store d (mapByte d b) [d (mapByte d b) ||| mask b]) c = (isFree d c && !decide (c = b)) := by
  rw [isFree_map]
  by_cases hbyte : mapByte d c = mapByte d b
  · rw [if_pos hbyte, bitOf_or, isFree_eq, hbyte, Bool.not_or]
    by_cases hcb : c = b
    · rw [decide_eq_true hcb, hcb, decide_eq_true rfl]
    · rw [decide_eq_false hcb, decide_eq_false fun hbit => hcb (bit_inj hbyte hbit)]
  · rw [if_neg hbyte, decide_eq_false (by rintro rfl; exact hbyte rfl), Bool.not_false, Bool.and_true]

theorem isFree_clear (d : Disk) (b c : Nat) :
    isFree (store d (mapByte d b) [d (mapByte d b) &&& ~~~mask b]) c = (isFree d c || decide (c = b)) := by
  rw [isFree_map]
  by_cases hbyte : mapByte d c = mapByte d b
  · rw [if_pos hbyte, bitOf_and_not, isFree_eq, hbyte, Bool.not_and, Bool.not_not]
    by_cases hcb : c = b
    · rw [decide_eq_true hcb, hcb, decide_eq_true rfl]
    · rw [decide_eq_false hcb, decide_eq_false fun hbit => hcb (bit_inj hbyte hbit)]
  · rw [if_neg hbyte, decide_eq_false (by rintro rfl; exact hbyte rfl), Bool.or_false]

/-! ## `balloc` -/

/-- The two loops of `balloc` are one search. -/
theorem findSome_range (p : Nat → Bool) (m k : Nat) :
    ((List.range k).findSome? fun i => ((List.range m).find? fun j => p (m * i + j)).map (m * i + ·))
      = (List.range (m * k)).find? p := by
  induction k with
  | zero => rfl
  | succ k ih =>
      have hsplit : List.range (m * (k + 1)) = List.range (m * k) ++ (List.range m).map (m * k + ·) := by
        rw [Nat.mul_succ, List.range_add]
      rw [List.range_succ, List.findSome?_append, ih, hsplit, List.find?_append, List.findSome?_singleton, List.find?_map]
      rfl

/-- The block has a bit, and it is clear. -/
def blockFree (d : Disk) (b : Nat) : Bool := decide (b < mapLimit d) && isFree d b

theorem blockFree_iff (d : Disk) (b : Nat) : blockFree d b = true ↔ b < mapLimit d ∧ isFree d b = true := by
  rw [blockFree, Bool.and_eq_true, decide_eq_true_eq]

theorem size_lt_mapLimit (d : Disk) : (readsb d).size.toNat < mapLimit d := by
  rw [mapLimit, bpb]
  omega

/-- The bits that `balloc` looks at. -/
theorem searched_le (d : Disk) : bpb * (((readsb d).size.toNat + bpb - 1) / bpb) ≤ mapLimit d := by
  rw [mapLimit, bpb]
  omega

theorem balloc_some {b : UInt32} (h : balloc d = some (b, d')) : blockFree d b.toNat = true
    ∧ (∀ c, c < b.toNat → isFree d c = false)
    ∧ d' = store d (mapByte d b.toNat) [d (mapByte d b.toNat) ||| mask b.toNat] := by
  rw [balloc, findSome_range] at h
  split at h
  · rename_i n hfind
    obtain ⟨hfree, hn, hbefore⟩ := List.find?_range_eq_some.mp hfind
    have hn := List.mem_range.mp hn
    have hlt : n < 2 ^ 32 := by
      have hsize := (readsb d).size.toNat_lt
      rw [bpb] at hn
      omega
    cases h
    have hb : (UInt32.ofNat n).toNat = n := by
      rw [UInt32.toNat_ofNat']
      exact Nat.mod_eq_of_lt hlt
    rw [hb]
    refine ⟨(blockFree_iff d n).mpr ⟨Nat.lt_of_lt_of_le hn (searched_le d), hfree⟩, fun c hc => ?_, rfl⟩
    have hno := hbefore c hc
    rwa [Bool.not_eq_true'] at hno
  · cases h

/-- As long as the disk has a free block, `balloc` finds one of the disk. -/
theorem balloc_free {n : Nat} (hn : n < (readsb d).size.toNat) (hfree : isFree d n = true) :
    ∃ b d', balloc d = some (b, d') ∧ b.toNat ≤ n := by
  cases h : balloc d with
  | some r =>
      refine ⟨r.1, r.2, rfl, ?_⟩
      by_contra hlt
      rw [(balloc_some h).2.1 n (Nat.lt_of_not_le hlt)] at hfree
      cases hfree
  | none =>
      rw [balloc, findSome_range] at h
      split at h
      · cases h
      · rename_i hnone
        refine absurd hfree (List.find?_eq_none.mp hnone n (List.mem_range.mpr ?_))
        rw [bpb]
        omega

/-! ## Two kinds of stores -/

theorem mapStart_congr (h : readsb d' = readsb d) : mapStart d' = mapStart d := by rw [mapStart, mapStart, h]

theorem dataStart_congr (h : readsb d' = readsb d) : dataStart d' = dataStart d := by
  rw [dataStart, dataStart, mapStart_congr h, h]

theorem mapLimit_congr (h : readsb d' = readsb d) : mapLimit d' = mapLimit d := by rw [mapLimit, mapLimit, h]

/-- A byte of the bitmap is stored: the superblock, the inodes and the blocks of the files stay. -/
structure MapStore (d d' : Disk) : Prop where
  readsb : readsb d' = readsb d
  dinode : ∀ inum, inum < (Xv6.readsb d).ninodes.toNat → dinode d' inum = dinode d inum
  data : ∀ y, bsize * dataStart d ≤ y → d' y = d y

theorem mapStore (hb : b < mapLimit d) (x : UInt8) : MapStore d (store d (mapByte d b) [x]) where
  readsb := by
    refine readsb_store ?_
    have h1 := mapByte_ge d b
    have h2 := mapStart_ge d
    rw [bsize] at *
    omega
  dinode inum hinum := by
    refine dinode_store (Or.inl ?_)
    exact Nat.le_trans (inodeAt_lt hinum) (mapByte_ge d b)
  data y hy := by
    refine store_outside ?_
    have hlt := mapByte_lt hb
    rw [List.length_singleton]
    omega

/-- Bytes in the block `b` for files are stored. -/
structure DataStore (d d' : Disk) (b : Nat) : Prop where
  readsb : readsb d' = readsb d
  dinode : ∀ inum, inum < (Xv6.readsb d).ninodes.toNat → dinode d' inum = dinode d inum
  isFree : ∀ c, c < mapLimit d → isFree d' c = isFree d c
  data : ∀ c o, c ≠ b → o < bsize → d' (bsize * c + o) = d (bsize * c + o)

theorem dataStart_ge (d : Disk) : mapStart d < dataStart d := by
  rw [dataStart]
  exact Nat.lt_succ_of_le (Nat.le_add_right ..)

theorem dataStore {o : Nat} (hb : dataStart d ≤ b) (ho : o + bs.length ≤ bsize) :
    DataStore d (store d (bsize * b + o) bs) b := by
  have hstart := dataStart_ge d
  have hge : bsize * mapStart d ≤ bsize * b := Nat.mul_le_mul_left _ (by omega)
  have hmap := mapStart_ge d
  have hsb : readsb (store d (bsize * b + o) bs) = readsb d := readsb_store (by rw [bsize] at *; omega)
  refine ⟨hsb, fun inum hinum => ?_, fun c hc => ?_, fun c o' hcb ho' => ?_⟩
  · exact dinode_store (Or.inl (Nat.le_trans (inodeAt_lt hinum) (by omega)))
  · refine isFree_store hsb (Or.inl ?_)
    have hlt := mapByte_lt hc
    have hdata : bsize * dataStart d ≤ bsize * b := Nat.mul_le_mul_left _ hb
    omega
  · refine store_outside ?_
    rw [bsize] at *
    omega

end Cs537.Xv6
