import Cs537.Xv6.Blocks

/-!
# The blocks of the inodes

An inode names up to 141 blocks: twelve of its contents, the indirect block, and 128 more that
are named there. A disk is in order when each of its blocks has one use at most. The one step
by which files grow gives a free block, which holds zeros, to a place of an inode that names
none; whoever reads the file does not notice, since what no block holds is zero too.
-/

namespace Cs537.Xv6

open Lib

/-- Where an inode names a block: in `addrs`, or in the indirect block. -/
inductive Use where
  | addr (i : Fin 13)
  | entry (j : Fin 128)
deriving DecidableEq

/-- The block that is named there; 0 for none. -/
def Inode.ref (d : Disk) (ip : Inode) : Use → UInt32
  | .addr i => ip.addr i
  | .entry j => if ip.indirect = 0 then 0 else uint d (entry ip.indirect j)

theorem entryIndex_lt (n : Nat) : n % 128 < 128 := Nat.mod_lt n (Nat.succ_pos 127)

/-- `bn -= NDIRECT`, as an index. -/
def entryIndex (n : Nat) : Fin 128 := ⟨n % 128, entryIndex_lt n⟩

/-- Where the block `bn` of the contents is named. -/
def useOf (bn : Nat) : Use :=
  if h : bn < ndirect then .addr ⟨bn, lt_of_direct h⟩ else .entry (entryIndex (bn - ndirect))

theorem useOf_inj {i j : Nat} (hi : i < maxfile) (hj : j < maxfile) (h : useOf i = useOf j) : i = j := by
  rw [maxfile, ndirect, nindirect] at hi hj
  unfold useOf at h
  by_cases h1 : i < ndirect <;> by_cases h2 : j < ndirect
  · rw [dif_pos h1, dif_pos h2] at h
    injection h with h
    exact congrArg Fin.val h
  · rw [dif_pos h1, dif_neg h2] at h
    cases h
  · rw [dif_neg h1, dif_pos h2] at h
    cases h
  · rw [dif_neg h1, dif_neg h2] at h
    injection h with h
    have hval : (i - ndirect) % 128 = (j - ndirect) % 128 := congrArg Fin.val h
    rw [ndirect] at *
    omega

/-- No contents are in the indirect block. -/
theorem useOf_ne (bn : Nat) : useOf bn ≠ .addr (Fin.last 12) := by
  intro h
  unfold useOf at h
  by_cases h1 : bn < ndirect
  · rw [dif_pos h1] at h
    injection h with h
    have hval : bn = 12 := congrArg Fin.val h
    rw [ndirect] at h1
    omega
  · rw [dif_neg h1] at h
    cases h

/-- The block `bn` of the contents; 0 for none. -/
def Inode.block (d : Disk) (ip : Inode) (bn : Nat) : UInt32 := if bn < maxfile then ip.ref d (useOf bn) else 0

/-- The contents of an inode and beyond, as bytes; where there is no block there are zeros. -/
def byteAt (d : Disk) (ip : Inode) (o : Nat) : UInt8 :=
  if ip.block d (o / bsize) = 0 then 0 else d (bsize * (ip.block d (o / bsize)).toNat + o % bsize)

/-- What the file holds. -/
def contents (d : Disk) (ip : Inode) : List UInt8 := load (byteAt d ip) 0 ip.size.toNat

/-! ## A disk in order -/

inductive Holder where
  /-- The superblock, the inodes and the bitmap. -/
  | low
  /-- Blocks without a bit. -/
  | high
  | file (inum : Nat) (u : Use)

def Has (d : Disk) (ino : Nat → Inode) : Holder → Nat → Prop
  | .low, b => b < dataStart d
  | .high, b => mapLimit d ≤ b
  | .file inum u, b => inum < (readsb d).ninodes.toNat ∧ b ≠ 0 ∧ ((ino inum).ref d u).toNat = b

/-- The disk and the inodes, each as it is in memory. -/
structure FsOk (d : Disk) (ino : Nat → Inode) : Prop where
  fits : dataStart d ≤ (readsb d).size.toNat
  /-- A block is marked free if and only if it has no use, and none has two. -/
  pool : Pool (blockFree d) (Has d ino)
  inside : ∀ k < (readsb d).ninodes.toNat, ∀ u, ((ino k).ref d u).toNat < (readsb d).size.toNat
  /-- `bfree` zeroes what it frees. -/
  clean : ∀ b < (readsb d).size.toNat, isFree d b = true → ∀ o < bsize, d (bsize * b + o) = 0
  size_le : ∀ k < (readsb d).ninodes.toNat, (ino k).size.toNat ≤ maxfile * bsize
  /-- Files have no holes. -/
  mapped : ∀ k < (readsb d).ninodes.toNat, ∀ bn, bsize * bn < (ino k).size.toNat → (ino k).ref d (useOf bn) ≠ 0

variable {d d' : Disk} {ino ino' : Nat → Inode} {ip ip' : Inode} {inum k : Nat} {u v : Use} {b : UInt32} {c : Nat}

theorem toNat_ne_zero : b.toNat ≠ 0 ↔ b ≠ 0 := not_congr (UInt32.toNat_inj (b := 0))

/-- A block that is named is one for files, and not marked free. -/
theorem FsOk.named (h : FsOk d ino) (hk : k < (readsb d).ninodes.toNat) (hu : (ino k).ref d u ≠ 0) :
    dataStart d ≤ ((ino k).ref d u).toNat ∧ isFree d ((ino k).ref d u).toNat = false := by
  have hhas : Has d ino (.file k u) ((ino k).ref d u).toNat := ⟨hk, toNat_ne_zero.mpr hu, rfl⟩
  constructor
  · by_contra hlt
    have hlow : Has d ino .low ((ino k).ref d u).toNat := Nat.lt_of_not_le hlt
    cases h.pool.single _ _ _ hhas hlow
  · cases hfree : isFree d ((ino k).ref d u).toNat with
    | false => rfl
    | true =>
        have hlimit := Nat.lt_trans (h.inside k hk u) (size_lt_mapLimit d)
        exact absurd hhas ((h.pool.free _).mp ((blockFree_iff _ _).mpr ⟨hlimit, hfree⟩) _)

theorem dataStart_pos (d : Disk) : 0 < dataStart d := Nat.succ_pos _

/-- A free block is one for files. -/
theorem FsOk.free_ge (h : FsOk d ino) (hc : c < (readsb d).size.toNat) (hfree : isFree d c = true) : dataStart d ≤ c := by
  have hlimit := Nat.lt_trans hc (size_lt_mapLimit d)
  exact Nat.le_of_not_lt ((h.pool.free c).mp ((blockFree_iff _ _).mpr ⟨hlimit, hfree⟩) .low)

/-- Two places that name one block are one. -/
theorem FsOk.ref_inj {l : Nat} (h : FsOk d ino) (hk : k < (readsb d).ninodes.toNat) (hl : l < (readsb d).ninodes.toNat)
    (hu : (ino k).ref d u ≠ 0) (heq : (ino l).ref d v = (ino k).ref d u) : l = k ∧ v = u := by
  have h1 : Has d ino (.file k u) ((ino k).ref d u).toNat := ⟨hk, toNat_ne_zero.mpr hu, rfl⟩
  have h2 : Has d ino (.file l v) ((ino k).ref d u).toNat := ⟨hl, toNat_ne_zero.mpr hu, congrArg UInt32.toNat heq⟩
  have hsame := h.pool.single _ _ _ h2 h1
  injection hsame with hlk hvu
  exact ⟨hlk, hvu⟩

/-! ## Changes that leave the names alone -/

theorem has_congr (hsb : readsb d' = readsb d)
    (href : ∀ k < (readsb d).ninodes.toNat, ∀ u, (ino' k).ref d' u = (ino k).ref d u) (i : Holder) (c : Nat) :
    Has d' ino' i c ↔ Has d ino i c := by
  cases i with
  | low => rw [Has, Has, dataStart_congr hsb]
  | high => rw [Has, Has, mapLimit_congr hsb]
  | file k u =>
      rw [Has, Has, hsb]
      refine and_congr_right fun hk => ?_
      rw [href k hk u]

theorem blockFree_congr (hsb : readsb d' = readsb d) (hfree : ∀ c < mapLimit d, isFree d' c = isFree d c) :
    blockFree d' = blockFree d := by
  funext c
  rw [blockFree, blockFree, mapLimit_congr hsb]
  by_cases hc : c < mapLimit d
  · rw [hfree c hc]
  · rw [decide_eq_false hc, Bool.false_and, Bool.false_and]

theorem FsOk.congr (h : FsOk d ino) (hsb : readsb d' = readsb d)
    (hfree : ∀ c < mapLimit d, isFree d' c = isFree d c)
    (href : ∀ k < (readsb d).ninodes.toNat, ∀ u, (ino' k).ref d' u = (ino k).ref d u)
    (hdata : ∀ c, dataStart d ≤ c → isFree d c = true → ∀ o < bsize, d' (bsize * c + o) = d (bsize * c + o))
    (hsize : ∀ k < (readsb d).ninodes.toNat, (ino' k).size.toNat ≤ maxfile * bsize)
    (hmapped : ∀ k < (readsb d).ninodes.toNat, ∀ bn, bsize * bn < (ino' k).size.toNat → (ino k).ref d (useOf bn) ≠ 0) :
    FsOk d' ino' where
  fits := by
    rw [dataStart_congr hsb, hsb]
    exact h.fits
  pool := by
    rw [blockFree_congr hsb hfree]
    exact h.pool.congr (has_congr hsb href)
  inside k hk u := by
    rw [hsb] at hk ⊢
    rw [href k hk u]
    exact h.inside k hk u
  clean c hc hcfree o ho := by
    rw [hsb] at hc
    rw [hfree c (Nat.lt_trans hc (size_lt_mapLimit d))] at hcfree
    rw [hdata c (h.free_ge hc hcfree) hcfree o ho]
    exact h.clean c hc hcfree o ho
  size_le k hk := by
    rw [hsb] at hk
    exact hsize k hk
  mapped k hk bn hbn := by
    rw [hsb] at hk
    rw [href k hk]
    exact hmapped k hk bn hbn

/-! ## A block more -/

/-- The free block `b` is named at `u` in the inode `inum`, which named none there. -/
structure Assign (d d' : Disk) (ino ino' : Nat → Inode) (inum : Nat) (u : Use) (b : UInt32) : Prop where
  readsb : readsb d' = readsb d
  free : ∀ c < mapLimit d, isFree d' c = (isFree d c && !decide (c = b.toNat))
  ref : ∀ k < (Xv6.readsb d).ninodes.toNat, ∀ v,
    (ino' k).ref d' v = if k = inum ∧ v = u then b else (ino k).ref d v
  size : ∀ k < (Xv6.readsb d).ninodes.toNat, (ino' k).size = (ino k).size
  dinode : ∀ k < (Xv6.readsb d).ninodes.toNat, dinode d' k = dinode d k
  /-- Only the indirect block may have changed. -/
  data : ∀ c, dataStart d ≤ c → c ≠ (ino inum).indirect.toNat → ∀ o < bsize, d' (bsize * c + o) = d (bsize * c + o)

section
variable (h : FsOk d ino) (hinum : inum < (readsb d).ninodes.toNat) (hzero : (ino inum).ref d u = 0)
variable (hfree : isFree d b.toNat = true) (hb : b.toNat < (readsb d).size.toNat) (ha : Assign d d' ino ino' inum u b)
include h hinum hfree hb

theorem FsOk.free_ne_indirect : b.toNat ≠ (ino inum).indirect.toNat := by
  intro heq
  have hge := h.free_ge hb hfree
  have hpos := dataStart_pos d
  have hne : (ino inum).ref d (.addr (Fin.last 12)) ≠ 0 := by
    refine toNat_ne_zero.mp ?_
    show (ino inum).indirect.toNat ≠ 0
    omega
  have hused := (h.named hinum hne).2
  rw [show ((ino inum).ref d (.addr (Fin.last 12))).toNat = b.toNat from heq.symm, hfree] at hused
  cases hused

include hzero ha

theorem pool_assign : Pool (blockFree d') (Has d' ino') := by
  have hne : b.toNat ≠ 0 := Nat.ne_of_gt (Nat.lt_of_lt_of_le (dataStart_pos d) (h.free_ge hb hfree))
  have hbfree : blockFree d b.toNat = true :=
    (blockFree_iff _ _).mpr ⟨Nat.lt_trans hb (size_lt_mapLimit d), hfree⟩
  have hupdate : blockFree d' = Function.update (blockFree d) b.toNat false := by
    funext c
    by_cases hc : c < mapLimit d
    · rw [blockFree, mapLimit_congr ha.readsb, decide_eq_true hc, Bool.true_and, ha.free c hc]
      by_cases hcb : c = b.toNat
      · rw [hcb, Function.update_self, decide_eq_true rfl, Bool.not_true, Bool.and_false]
      · rw [Function.update_of_ne hcb, decide_eq_false hcb, Bool.not_false, Bool.and_true, blockFree,
          decide_eq_true hc, Bool.true_and]
    · have hcb : c ≠ b.toNat := by
        rintro rfl
        exact hc (Nat.lt_trans hb (size_lt_mapLimit d))
      rw [Function.update_of_ne hcb, blockFree, blockFree, mapLimit_congr ha.readsb, decide_eq_false hc,
        Bool.false_and, Bool.false_and]
  rw [hupdate]
  refine h.pool.take (i := .file inum u) hbfree fun j c => ?_
  cases j with
  | low =>
      rw [Has, Has, dataStart_congr ha.readsb]
      exact (or_iff_left fun hno => by cases hno.1).symm
  | high =>
      rw [Has, Has, mapLimit_congr ha.readsb]
      exact (or_iff_left fun hno => by cases hno.1).symm
  | file k v =>
      rw [Has, Has, ha.readsb]
      by_cases hkv : k = inum ∧ v = u
      · obtain ⟨rfl, rfl⟩ := hkv
        constructor
        · rintro ⟨hk, -, heq⟩
          rw [ha.ref k hk, if_pos ⟨rfl, rfl⟩] at heq
          exact Or.inr ⟨rfl, heq.symm⟩
        · rintro (⟨-, hc, heq⟩ | ⟨-, rfl⟩)
          · rw [hzero] at heq
            exact absurd heq.symm hc
          · refine ⟨hinum, hne, ?_⟩
            rw [ha.ref k hinum, if_pos ⟨rfl, rfl⟩]
      · have hother : ¬(Holder.file k v = .file inum u ∧ c = b.toNat) := by
          rintro ⟨heq, -⟩
          injection heq with h1 h2
          exact hkv ⟨h1, h2⟩
        rw [or_iff_left hother]
        refine and_congr_right fun hk => ?_
        rw [ha.ref k hk, if_neg hkv]

/-- The disk stays in order. -/
theorem fsOk_assign : FsOk d' ino' where
  fits := by
    rw [dataStart_congr ha.readsb, ha.readsb]
    exact h.fits
  pool := pool_assign h hinum hzero hfree hb ha
  inside k hk v := by
    rw [ha.readsb] at hk ⊢
    rw [ha.ref k hk]
    split
    · exact hb
    · exact h.inside k hk v
  clean c hc hcfree o ho := by
    rw [ha.readsb] at hc
    rw [ha.free c (Nat.lt_trans hc (size_lt_mapLimit d)), Bool.and_eq_true] at hcfree
    have hne := h.free_ne_indirect (b := UInt32.ofNat c) hinum
    have hcnat : (UInt32.ofNat c).toNat = c := by
      rw [UInt32.toNat_ofNat']
      exact Nat.mod_eq_of_lt (Nat.lt_trans hc (UInt32.toNat_lt _))
    rw [hcnat] at hne
    rw [ha.data c (h.free_ge hc hcfree.1) (hne hcfree.1 hc) o ho]
    exact h.clean c hc hcfree.1 o ho
  size_le k hk := by
    rw [ha.readsb] at hk
    rw [ha.size k hk]
    exact h.size_le k hk
  mapped k hk bn hbn := by
    rw [ha.readsb] at hk
    rw [ha.size k hk] at hbn
    rw [ha.ref k hk]
    split
    · exact toNat_ne_zero.mp (Nat.ne_of_gt (Nat.lt_of_lt_of_le (dataStart_pos d) (h.free_ge hb hfree)))
    · exact h.mapped k hk bn hbn

/-- Nobody who reads a file notices. -/
theorem byteAt_assign (hk : k < (readsb d).ninodes.toNat) : byteAt d' (ino' k) = byteAt d (ino k) := by
  funext o
  have ho : o % bsize < bsize := Nat.mod_lt _ (Nat.succ_pos _)
  have hge := h.free_ge hb hfree
  unfold byteAt Inode.block
  by_cases hbn : o / bsize < maxfile
  · rw [if_pos hbn, if_pos hbn, ha.ref k hk]
    by_cases hku : k = inum ∧ useOf (o / bsize) = u
    · have hbne : b ≠ 0 := toNat_ne_zero.mp (Nat.ne_of_gt (Nat.lt_of_lt_of_le (dataStart_pos d) hge))
      rw [if_pos hku, if_neg hbne, hku.1, hku.2, if_pos hzero]
      rw [ha.data _ hge (h.free_ne_indirect hinum hfree hb) _ ho]
      exact h.clean _ hb hfree _ ho
    · rw [if_neg hku]
      by_cases hz : (ino k).ref d (useOf (o / bsize)) = 0
      · rw [if_pos hz, if_pos hz]
      · rw [if_neg hz, if_neg hz]
        refine ha.data _ (h.named hk hz).1 (fun heq => ?_) _ ho
        have heq : (ino inum).ref d (.addr (Fin.last 12)) = (ino k).ref d (useOf (o / bsize)) := UInt32.toNat_inj.mp heq.symm
        exact useOf_ne _ (h.ref_inj hk hinum hz heq).2.symm
  · rw [if_neg hbn, if_neg hbn]
    rfl

end

end Cs537.Xv6
