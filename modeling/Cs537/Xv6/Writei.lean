import Cs537.Xv6.Contents

/-!
# Reading and writing a file

Between calls the disk has what the memory has: `writei` writes the inode back when the file
has grown, and without growth there was a block for every byte, so that the inode has not
changed. What a call does to all files is then said with their contents alone.
-/

namespace Cs537.Xv6

open Lib

variable {d d' : Disk} {ino ino' : Nat → Inode} {ip ip' : Inode} {inum k n : Nat} {off size : UInt32} {src : List UInt8}

/-! ## `iupdate` -/

theorem short_congr {a : Nat} (h : ∀ o < 2, d' (a + o) = d (a + o)) : short d' a = short d a := by
  have hload : load d' a 2 = load d a 2 := by
    refine load_congr fun x hx hx' => ?_
    have hxo := h (x - a) (by omega)
    rwa [Nat.add_sub_of_le hx] at hxo
  rw [short, short, hload]

theorem short_setShort (d : Disk) (a : Nat) (x : UInt16) : short (setShort d a x) a = x := by
  have hload : load (setShort d a x) a 2 = encodeNat 2 x.toNat := by
    have hsame := load_store_same d a (encodeNat 2 x.toNat)
    rwa [length_encodeNat] at hsame
  have hx : x.toNat < 256 ^ 2 := x.toNat_lt
  rw [short, hload, decodeNat_encodeNat, Nat.mod_eq_of_lt hx]
  exact UInt16.ofNat_toNat

theorem dinode_congr (h : ∀ o < 64, d' (inodeAt k + o) = d (inodeAt k + o)) : dinode d' k = dinode d k := by
  have hshort : ∀ i < 4, short d' (inodeAt k + 2 * i) = short d (inodeAt k + 2 * i) := by
    intro i hi
    refine short_congr fun o ho => ?_
    rw [Nat.add_assoc]
    exact h _ (by omega)
  have huint : ∀ i < 14, uint d' (inodeAt k + 8 + 4 * i) = uint d (inodeAt k + 8 + 4 * i) := by
    intro i hi
    refine uint_congr fun o ho => ?_
    rw [Nat.add_assoc, Nat.add_assoc]
    exact h _ (by omega)
  have haddrs : (Vector.ofFn fun i : Fin 13 => uint d' (inodeAt k + 12 + 4 * i))
      = Vector.ofFn fun i => uint d (inodeAt k + 12 + 4 * i) := by
    refine congrArg Vector.ofFn (funext fun i => ?_)
    have hi := huint (i + 1) (by omega)
    rwa [Nat.mul_succ, Nat.add_comm (4 * i.val), ← Nat.add_assoc] at hi
  have h0 := hshort 0 (Nat.succ_pos _)
  have h1 := hshort 1 (by omega)
  have h2 := hshort 2 (by omega)
  have h3 := hshort 3 (by omega)
  have h4 := huint 0 (Nat.succ_pos _)
  rw [dinode, dinode]
  rw [haddrs, h1, h2, h3]
  exact congrArg₂ (fun t s => Inode.mk t _ _ _ s _) h0 h4

theorem length_addrs (v : Vector UInt32 13) : (v.toList.flatMap fun x => encodeNat 4 x.toNat).length = 52 := by
  rw [length_flatMap_of_width fun x => length_encodeNat 4 _, Vector.length_toList]

theorem iupdate_outside {x : Nat} (h : x < inodeAt inum ∨ inodeAt inum + 64 ≤ x) : iupdate d inum ip x = d x := by
  have hfield : ∀ {m : Disk} {o : Nat} {bs : List UInt8}, o + bs.length ≤ 64 → store m (inodeAt inum + o) bs x = m x := by
    intro m o bs ho
    exact store_outside (by omega)
  unfold iupdate setShort setUint
  rw [hfield (by rw [length_addrs]), hfield (by rw [length_encodeNat]; omega), hfield (by rw [length_encodeNat]; omega),
    hfield (by rw [length_encodeNat]; omega), hfield (by rw [length_encodeNat]; omega)]
  exact hfield (o := 0) (by rw [length_encodeNat]; omega)

/-- What `iupdate` writes `ilock` reads. -/
theorem dinode_iupdate (d : Disk) (inum : Nat) (ip : Inode) : dinode (iupdate d inum ip) inum = ip := by
  obtain ⟨type, major, minor, nlink, size, addrs⟩ := ip
  have haddrs : (Vector.ofFn fun i : Fin 13 =>
      uint (iupdate d inum ⟨type, major, minor, nlink, size, addrs⟩) (inodeAt inum + 12 + 4 * i)) = addrs := by
    refine Vector.ext fun i hi => ?_
    have hget : addrs.toList[i]? = some addrs[i] := by
      rw [List.getElem?_eq_getElem (by rw [Vector.length_toList]; exact hi), Vector.getElem_toList]
    have hchunk := chunk_flatMap (fun x : UInt32 => length_encodeNat 4 x.toNat) addrs.toList i _ hget
    have hlt : addrs[i].toNat < 256 ^ 4 := addrs[i].toNat_lt
    rw [Vector.getElem_ofFn, uint, iupdate]
    dsimp only
    rw [load_store_part (by rw [length_addrs]; omega)]
    rw [chunk] at hchunk
    rw [hchunk, decodeNat_encodeNat, Nat.mod_eq_of_lt hlt]
    exact UInt32.ofNat_toNat
  rw [dinode, haddrs, iupdate]
  have hlen := length_addrs addrs
  have h2 : ∀ x : UInt16, (encodeNat 2 x.toNat).length = 2 := fun x => length_encodeNat 2 _
  have h4 : (encodeNat 4 size.toNat).length = 4 := length_encodeNat 4 _
  have hsize : ∀ m, uint (store (setUint m (inodeAt inum + 8) size) (inodeAt inum + 12)
      (addrs.toList.flatMap fun x => encodeNat 4 x.toNat)) (inodeAt inum + 8) = size := by
    intro m
    rw [uint_store (by omega), uint_setUint]
  -- a field below 8 is not reached by what comes after it
  have hafter : ∀ m a x, a + 2 ≤ inodeAt inum + 8 → short m a = x → short (store (setUint m (inodeAt inum + 8) size)
      (inodeAt inum + 12) (addrs.toList.flatMap fun x => encodeNat 4 x.toNat)) a = x := by
    intro m a x ha hm
    rw [short_store (by omega), setUint, short_store (by omega), hm]
  rw [hsize]
  rw [hafter _ (inodeAt inum + 6) nlink (by omega) (short_setShort ..)]
  rw [hafter _ (inodeAt inum + 4) minor (by omega) (by rw [setShort, short_store (by rw [h2]; omega), short_setShort])]
  rw [hafter _ (inodeAt inum + 2) major (by omega)
    (by rw [setShort, short_store (by rw [h2]; omega), setShort, short_store (by rw [h2]; omega), short_setShort])]
  rw [hafter _ (inodeAt inum) type (by omega)
    (by rw [setShort, short_store (by rw [h2]; omega), setShort, short_store (by rw [h2]; omega), setShort,
      short_store (by rw [h2]; omega), short_setShort])]

theorem dinode_iupdate_ne (h : k ≠ inum) : dinode (iupdate d inum ip) k = dinode d k := by
  refine dinode_congr fun o ho => iupdate_outside ?_
  have hapart := inodeAt_apart h
  omega

theorem readsb_iupdate (d : Disk) (inum : Nat) (ip : Inode) : readsb (iupdate d inum ip) = readsb d := by
  have hge := inodeAt_ge inum
  have hlow : ∀ a o, a + o < bsize * 2 → iupdate d inum ip (a + o) = d (a + o) := by
    intro a o ho
    exact iupdate_outside (Or.inl (by omega))
  rw [readsb, readsb]
  rw [bsize] at *
  rw [uint_congr fun o ho => hlow _ o (by omega), uint_congr fun o ho => hlow _ o (by omega),
    uint_congr fun o ho => hlow _ o (by omega)]

section
variable (h : FsOk d ino) (hinum : inum < (readsb d).ninodes.toNat)
include hinum

/-- Neither the bitmap nor a block for files is written. -/
theorem iupdate_above {x : Nat} (hx : bsize * mapStart d ≤ x) : iupdate d inum ip x = d x :=
  iupdate_outside (Or.inr (Nat.le_trans (inodeAt_lt hinum) hx))

theorem iupdate_data {c : Nat} (hc : dataStart d ≤ c) (o : Nat) :
    iupdate d inum ip (bsize * c + o) = d (bsize * c + o) := by
  have hge := Nat.mul_le_mul_left bsize (Nat.le_trans (Nat.le_of_lt (dataStart_ge d)) hc)
  exact iupdate_above hinum (by omega)

theorem isFree_iupdate (c : Nat) : isFree (iupdate d inum ip) c = isFree d c := by
  rw [isFree, isFree, mapByte, readsb_iupdate]
  rw [show bsize * bblock c (readsb d).ninodes.toNat + c % bpb / 8 = mapByte d c from rfl,
    iupdate_above hinum (mapByte_ge d c)]

include h

theorem ref_iupdate (hk : k < (readsb d).ninodes.toNat) (u : Use) : (ino k).ref (iupdate d inum ip) u = (ino k).ref d u := by
  refine ref_congr rfl fun hz o _ => iupdate_data hinum ?_ o
  exact (h.named (u := .addr (Fin.last 12)) hk hz).1

theorem fsOk_iupdate (ip : Inode) : FsOk (iupdate d inum ip) ino :=
  h.congr (readsb_iupdate ..) (fun c _ => isFree_iupdate hinum c) (fun _ hk => ref_iupdate h hinum hk)
    (fun _ hc _ o _ => iupdate_data hinum hc o) h.size_le h.mapped

theorem byteAt_iupdate (ip : Inode) (hk : k < (readsb d).ninodes.toNat) :
    byteAt (iupdate d inum ip) (ino k) = byteAt d (ino k) := by
  have hblock : ∀ bn, (ino k).block (iupdate d inum ip) bn = (ino k).block d bn := by
    intro bn
    rw [Inode.block, Inode.block, ref_iupdate h hinum hk]
  funext o
  rw [byteAt, byteAt, hblock]
  by_cases hz : (ino k).block d (o / bsize) = 0
  · rw [if_pos hz, if_pos hz]
  · rw [if_neg hz, if_neg hz]
    have hlt : o / bsize < maxfile := by
      by_contra hlt
      exact hz (if_neg hlt)
    rw [block_of_lt hlt] at hz ⊢
    exact iupdate_data hinum (h.named hk hz).1 _

end

/-! ## The size -/

/-- Only the inodes that there are count. -/
theorem FsOk.inodes (h : FsOk d ino) (heq : ∀ k < (readsb d).ninodes.toNat, ino' k = ino k) : FsOk d ino' :=
  h.congr rfl (fun _ _ => rfl) (fun k hk u => by rw [heq k hk]) (fun _ _ _ _ _ => rfl)
    (fun k hk => by rw [heq k hk]; exact h.size_le k hk) (fun k hk => by rw [heq k hk]; exact h.mapped k hk)

theorem ref_size (u : Use) : Inode.ref d { ip with size := size } u = ip.ref d u := ref_congr rfl fun _ _ _ => rfl

theorem byteAt_size : byteAt d { ip with size := size } = byteAt d ip := by
  funext o
  unfold byteAt Inode.block
  rw [ref_size]

/-- The file ends at `size`, up to where there are blocks for it. -/
theorem FsOk.resize (h : FsOk d (Function.update ino inum ip)) (hle : size.toNat ≤ maxfile * bsize)
    (hmap : ∀ bn, bsize * bn < size.toNat → ip.ref d (useOf bn) ≠ 0) :
    FsOk d (Function.update ino inum { ip with size := size }) := by
  refine h.congr rfl (fun _ _ => rfl) (fun k hk u => ?_) (fun _ _ _ _ _ => rfl) (fun k hk => ?_) fun k hk bn hbn => ?_
  · by_cases hki : k = inum
    · rw [hki, Function.update_self, Function.update_self, ref_size]
    · rw [Function.update_of_ne hki, Function.update_of_ne hki]
  · by_cases hki : k = inum
    · rw [hki, Function.update_self]
      exact hle
    · have hold := h.size_le k hk
      rw [Function.update_of_ne hki] at hold ⊢
      exact hold
  · by_cases hki : k = inum
    · rw [hki, Function.update_self] at hbn ⊢
      exact hmap bn hbn
    · have hold := h.mapped k hk bn
      rw [Function.update_of_ne hki] at hold hbn ⊢
      exact hold hbn

/-- Inside the file there is a block for every byte. -/
theorem FsOk.mapped_within (h : FsOk d ino) (hk : k < (readsb d).ninodes.toNat) {o : Nat}
    (hle : n = 0 ∨ o + n ≤ (ino k).size.toNat) : Mapped d (ino k) o n := by
  intro p h1 h2
  have hp : p < (ino k).size.toNat := by omega
  have hbn : bsize * (p / bsize) ≤ p := Nat.mul_div_le p bsize
  have hmax := h.size_le k hk
  refine ⟨Nat.div_lt_of_lt_mul ?_, h.mapped k hk _ (by omega)⟩
  rw [Nat.mul_comm]
  omega

/-! ## `readi` -/

theorem toNat_add_of_le {a b : UInt32} (h : ¬a + b < a) : (a + b).toNat = a.toNat + b.toNat := by
  rw [UInt32.lt_iff_toNat_lt, UInt32.toNat_add] at h
  rw [UInt32.toNat_add]
  have ha := a.toNat_lt
  have hb := b.toNat_lt
  omega

/-- `readi` gives a part of the file, and leaves everything as it is. -/
theorem readi_eq (h : FsOk d ino) (hinum : inum < (readsb d).ninodes.toNat) (off n : UInt32) :
    readi d (ino inum) off n = some (if off > (ino inum).size ∨ off + n < off then none
      else some (((contents d (ino inum)).drop off.toNat).take n.toNat), d, ino inum) := by
  unfold readi
  by_cases hout : off > (ino inum).size ∨ off + n < off
  · rw [if_pos hout, if_pos hout]
  · rw [if_neg hout, if_neg hout]
    obtain ⟨hoff, hsum⟩ := not_or.mp hout
    have hoff : off.toNat ≤ (ino inum).size.toNat := Nat.le_of_not_lt fun hlt => hoff (UInt32.lt_iff_toNat_lt.mpr hlt)
    have hadd := toNat_add_of_le hsum
    obtain ⟨m, hm⟩ : ∃ m, m = if off + n > (ino inum).size then (ino inum).size - off else n := ⟨_, rfl⟩
    have hmin : m.toNat = min n.toNat ((ino inum).size.toNat - off.toNat) := by
      rw [hm]
      split
      · rename_i hgt
        have hgt := UInt32.lt_iff_toNat_lt.mp hgt
        rw [UInt32.toNat_sub_of_le _ _ (UInt32.le_iff_toNat_le.mpr hoff)]
        omega
      · rename_i hle
        have hle := Nat.le_of_not_lt fun hlt => hle (UInt32.lt_iff_toNat_lt.mpr hlt)
        omega
    have hmap := h.mapped_within hinum (o := off.toNat) (n := m.toNat) (Or.inr (by omega))
    rw [← hm]
    dsimp only
    rw [readLoop_eq h hinum hmap]
    dsimp only
    rw [contents, drop_load, Nat.zero_add, hmin]
    have htake : (load (byteAt d (ino inum)) off.toNat ((ino inum).size.toNat - off.toNat)).take n.toNat
        = load (byteAt d (ino inum)) off.toNat (min n.toNat ((ino inum).size.toNat - off.toNat)) := by
      rcases Nat.le_total n.toNat ((ino inum).size.toNat - off.toNat) with hle | hle
      · rw [take_load hle, Nat.min_eq_left hle]
      · rw [List.take_of_length_le (by rw [length_load]; exact hle), Nat.min_eq_right hle]
    rw [htake]

/-! ## `writei` -/

/-- `old` with `bs` written over it from `off` on. -/
def overwrite (old : List UInt8) (off : Nat) (bs : List UInt8) : List UInt8 :=
  old.take off ++ bs ++ old.drop (off + bs.length)

/-- What there is room for in a file. -/
def fitting (off : Nat) (src : List UInt8) : List UInt8 := src.take (maxfile * bsize - off)

theorem length_fitting (off : Nat) (src : List UInt8) : (fitting off src).length = min (maxfile * bsize - off) src.length :=
  List.length_take

/-- Inside the bounds of the checks nothing wraps. -/
theorem off_le (hout : ¬(off > ip.size ∨ off + UInt32.ofNat src.length < off)) (hmax : ip.size.toNat ≤ maxfile * bsize) :
    off.toNat ≤ ip.size.toNat ∧ ∀ src', (off + UInt32.ofNat (fitting off.toNat src').length).toNat
      = off.toNat + (fitting off.toNat src').length := by
  have hoff : off.toNat ≤ ip.size.toNat := Nat.le_of_not_lt fun hlt => hout (Or.inl (UInt32.lt_iff_toNat_lt.mpr hlt))
  refine ⟨hoff, fun src' => ?_⟩
  have hfit := length_fitting off.toNat src'
  have hbound : maxfile * bsize < 2 ^ 32 := by decide
  rw [UInt32.toNat_add, UInt32.toNat_ofNat']
  omega

/-- `writei` is its loop over what fits, and `iupdate` if the file has grown. -/
theorem writei_eq (hlen : src.length < 2 ^ 32) (hout : ¬(off > ip.size ∨ off + UInt32.ofNat src.length < off))
    (hmax : ip.size.toNat ≤ maxfile * bsize) :
    writei d inum ip src off = (writeLoop d ip off.toNat (fitting off.toNat src)).map fun r =>
      let n := (fitting off.toNat src).length
      let size := off + UInt32.ofNat n
      if 0 < n ∧ r.2.size.toNat < size.toNat then
        (some n, iupdate r.1 inum { r.2 with size := size }, { r.2 with size := size })
      else (some n, r.1, r.2) := by
  obtain ⟨hoff, hend⟩ := off_le hout hmax
  have hadd := toNat_add_of_le (not_or.mp hout).2
  have hfit := length_fitting off.toNat src
  have hn : (UInt32.ofNat src.length).toNat = src.length := by
    rw [UInt32.toNat_ofNat']
    exact Nat.mod_eq_of_lt hlen
  have hlimit : (UInt32.ofNat (maxfile * bsize)).toNat = maxfile * bsize := rfl
  have hfitn : (UInt32.ofNat (fitting off.toNat src).length).toNat = (fitting off.toNat src).length := by
    rw [UInt32.toNat_ofNat']
    exact Nat.mod_eq_of_lt (by omega)
  have hm : (if off + UInt32.ofNat src.length > UInt32.ofNat (maxfile * bsize) then UInt32.ofNat (maxfile * bsize) - off
      else UInt32.ofNat src.length) = UInt32.ofNat (fitting off.toNat src).length := by
    refine UInt32.toNat_inj.mp ?_
    rw [hfitn]
    split
    · rename_i hgt
      have hgt := UInt32.lt_iff_toNat_lt.mp hgt
      rw [UInt32.toNat_sub_of_le _ _ (UInt32.le_iff_toNat_le.mpr (by rw [hlimit]; omega)), hlimit]
      omega
    · rename_i hle
      have hle := Nat.le_of_not_lt fun hlt => hle (UInt32.lt_iff_toNat_lt.mpr hlt)
      omega
  have htake : src.take (fitting off.toNat src).length = fitting off.toNat src := by
    rw [hfit, fitting, List.take_eq_take_iff]
    omega
  rw [writei, if_neg hout]
  dsimp only
  rw [hm, hfitn, htake]
  cases writeLoop d ip off.toNat (fitting off.toNat src) with
  | none => rfl
  | some r =>
      have hcond : (UInt32.ofNat (fitting off.toNat src).length > 0
          ∧ off + UInt32.ofNat (fitting off.toNat src).length > r.2.size) ↔ 0 < (fitting off.toNat src).length
          ∧ r.2.size.toNat < (off + UInt32.ofNat (fitting off.toNat src).length).toNat := by
        rw [gt_iff_lt, gt_iff_lt, UInt32.lt_iff_toNat_lt, UInt32.lt_iff_toNat_lt, hfitn]
        rfl
      dsimp only [Option.map_some]
      by_cases hgrown : 0 < (fitting off.toNat src).length
          ∧ r.2.size.toNat < (off + UInt32.ofNat (fitting off.toNat src).length).toNat
      · rw [if_pos hgrown, if_pos (hcond.mpr hgrown)]
      · rw [if_neg hgrown, if_neg (mt hcond.mp hgrown)]

/-- The file `inum` has become `bs`, on the disk and in `ip`; the other files and their inodes have not changed. -/
structure Became (d d' : Disk) (inum : Nat) (ip : Inode) (bs : List UInt8) : Prop where
  ok : FsOk d' (dinode d')
  readsb : readsb d' = readsb d
  inode : dinode d' inum = ip
  type : ip.type = (dinode d inum).type
  contents : contents d' ip = bs
  others : ∀ k < (Xv6.readsb d).ninodes.toNat, k ≠ inum →
    dinode d' k = dinode d k ∧ Xv6.contents d' (dinode d' k) = Xv6.contents d (dinode d k)

section
variable (h : FsOk d (dinode d)) (hinum : inum < (readsb d).ninodes.toNat)
include hinum

/-- The end of `writei` when the file has not grown: the inode is as before. -/
theorem became_inside {d1 : Disk} {o : Nat} (hw : Wrote d d1 (dinode d) inum (dinode d inum) o src)
    (ho : o ≤ (dinode d inum).size.toNat) (hin : o + src.length ≤ (dinode d inum).size.toNat) :
    Became d d1 inum (dinode d inum) (overwrite (contents d (dinode d inum)) o src) := by
  have hok := hw.ok
  rw [Function.update_eq_self] at hok
  refine ⟨hok.inodes fun k hk => ?_, hw.readsb, hw.dinode inum hinum, rfl, ?_, fun k hk hne => ⟨hw.dinode k hk, ?_⟩⟩
  · rw [hw.readsb] at hk
    exact hw.dinode k hk
  · have hsplice := load_store_splice (m := byteAt d (dinode d inum)) src ho
    rw [Nat.max_eq_left hin] at hsplice
    rw [contents, hw.self, hsplice]
    rfl
  · rw [hw.dinode k hk, contents, hw.others k hk hne]
    rfl

/-- The end when it has. -/
theorem became_grown {d1 : Disk} {ip1 : Inode} {o : Nat} (hw : Wrote d d1 (dinode d) inum ip1 o src)
    (hmap : Mapped d1 ip1 o src.length) (ho : o ≤ (dinode d inum).size.toNat)
    (hsize : size.toNat = o + src.length) (hgrown : (dinode d inum).size.toNat < size.toNat)
    (hle : size.toNat ≤ maxfile * bsize) :
    Became d (iupdate d1 inum { ip1 with size := size }) inum { ip1 with size := size }
      (overwrite (contents d (dinode d inum)) o src) := by
  have hinum1 : inum < (readsb d1).ninodes.toNat := by
    rw [hw.readsb]
    exact hinum
  have hself : Function.update (dinode d) inum ip1 inum = ip1 := Function.update_self ..
  have hsize1 : ip1.size = (dinode d inum).size := by rw [hw.head]
  have hblocks : ∀ bn, bsize * bn < size.toNat → ip1.ref d1 (useOf bn) ≠ 0 := by
    intro bn hbn
    rcases Nat.lt_or_ge (bsize * bn) o with hlt | hge
    · have hold := hw.ok.mapped inum hinum1 bn
      rw [hself, hsize1] at hold
      exact hold (by omega)
    · have hnew := (hmap (bsize * bn) hge (by omega)).2
      rwa [Nat.mul_div_cancel_left bn (show 0 < bsize from Nat.succ_pos 511)] at hnew
  have hok := fsOk_iupdate (hw.ok.resize hle hblocks) hinum1 { ip1 with size := size }
  have hsb : readsb (iupdate d1 inum { ip1 with size := size }) = readsb d := (readsb_iupdate ..).trans hw.readsb
  have hother : ∀ k < (readsb d).ninodes.toNat, k ≠ inum →
      dinode (iupdate d1 inum { ip1 with size := size }) k = dinode d k := by
    intro k hk hne
    rw [dinode_iupdate_ne hne, hw.dinode k hk]
  have hbytes := fun k (hk : k < (readsb d1).ninodes.toNat) =>
    byteAt_iupdate (hw.ok.resize hle hblocks) hinum1 { ip1 with size := size } hk
  refine ⟨hok.inodes fun k hk => ?_, hsb, dinode_iupdate .., by rw [hw.head], ?_, fun k hk hne => ?_⟩
  · rw [hsb] at hk
    by_cases hki : k = inum
    · rw [hki, dinode_iupdate, Function.update_self]
    · rw [hother k hk hki, Function.update_of_ne hki]
  · have hself' := hbytes inum hinum1
    rw [Function.update_self, byteAt_size (d := d1), hw.self] at hself'
    have hmax : size.toNat = max (dinode d inum).size.toNat (o + src.length) := by omega
    rw [contents, hself']
    show load _ 0 size.toNat = _
    rw [hmax, load_store_splice src ho]
    rfl
  · refine ⟨hother k hk hne, ?_⟩
    have hk' := hbytes k (by rw [hw.readsb]; exact hk)
    rw [Function.update_of_ne hne] at hk'
    rw [hother k hk hne, contents, hk', hw.others k hk hne]
    rfl

include h

/-- What `writei` returns it has written: the bytes of `src` that fit, over what was there. -/
theorem writei_became (hlen : src.length < 2 ^ 32) {r : Option Nat}
    (hw : writei d inum (dinode d inum) src off = some (r, d', ip')) :
    if off > (dinode d inum).size ∨ off + UInt32.ofNat src.length < off then r = none ∧ d' = d ∧ ip' = dinode d inum
    else r = some (fitting off.toNat src).length ∧
      Became d d' inum ip' (overwrite (contents d (dinode d inum)) off.toNat (fitting off.toNat src)) := by
  by_cases hout : off > (dinode d inum).size ∨ off + UInt32.ofNat src.length < off
  · rw [if_pos hout]
    rw [writei, if_pos hout] at hw
    cases hw
    exact ⟨rfl, rfl, rfl⟩
  · rw [if_neg hout]
    have hmax := h.size_le inum hinum
    obtain ⟨hoff, hend⟩ := off_le hout hmax
    rw [writei_eq hlen hout hmax] at hw
    obtain ⟨⟨d1, ip1⟩, hloop, hw⟩ := Option.map_eq_some_iff.mp hw
    obtain ⟨hwrote, hmap⟩ := writeLoop_wrote h hinum hloop
    have hsize1 : ip1.size = (dinode d inum).size := by rw [hwrote.head]
    dsimp only at hw
    split at hw
    · rename_i hgrown
      cases hw
      rw [hsize1] at hgrown
      exact ⟨rfl, became_grown hinum hwrote hmap hoff (hend src) hgrown.2 (by
        have hfit := length_fitting off.toNat src
        rw [hend src]
        omega)⟩
    · rename_i hinside
      cases hw
      rw [hsize1] at hinside
      have hin : (fitting off.toNat src).length = 0
          ∨ off.toNat + (fitting off.toNat src).length ≤ (dinode d inum).size.toNat := by
        by_contra hno
        refine hinside ⟨?_, ?_⟩
        · omega
        · rw [hend src]
          omega
      obtain ⟨d2, hd2⟩ := writeLoop_mapped (fitting off.toNat src) h hinum (h.mapped_within hinum hin)
      rw [hd2] at hloop
      cases hloop
      exact ⟨rfl, became_inside hinum hwrote hoff (by omega)⟩

end

end Cs537.Xv6
