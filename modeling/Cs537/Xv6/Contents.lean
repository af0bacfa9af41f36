import Cs537.Xv6.Bmap

/-!
# `readi` and `writei`

The loops of `readi` and `writei` go through a file block by block. Over a disk in order the
first is a load from the file's bytes, and the second a store into them: which blocks they are,
and that some are new, does not show.
-/

namespace Cs537.Xv6

open Lib

variable {d d' : Disk} {ino : Nat → Inode} {ip ip' : Inode} {inum k bn : Nat} {b : UInt32}
variable {off : Nat} {src : List UInt8}

theorem block_of_lt (h : bn < maxfile) : ip.block d bn = ip.ref d (useOf bn) := if_pos h

theorem byteAt_block (h : ip.block d bn ≠ 0) {o : Nat} (ho : o < bsize) :
    byteAt d ip (bsize * bn + o) = d (bsize * (ip.block d bn).toNat + o) := by
  have hdiv : (bsize * bn + o) / bsize = bn := by
    rw [Nat.mul_add_div (Nat.zero_lt_of_lt ho), Nat.div_eq_of_lt ho, Nat.add_zero]
  have hmod : (bsize * bn + o) % bsize = o := by
    rw [Nat.mul_add_mod, Nat.mod_eq_of_lt ho]
  rw [byteAt, hdiv, hmod, if_neg h]

/-! ## A store into a block -/

section
variable (h : FsOk d ino) (hinum : inum < (readsb d).ninodes.toNat)
variable (href : (ino inum).ref d (useOf bn) = b) (hne : b ≠ 0)
include h hinum href hne

/-- A store into the block `bn` of the contents changes no name. -/
theorem ref_store (o : Nat) (bs : List UInt8) (ho : o + bs.length ≤ bsize) :
    DataStore d (store d (bsize * b.toNat + o) bs) b.toNat
    ∧ ∀ k < (readsb d).ninodes.toNat, ∀ u,
      (ino k).ref (store d (bsize * b.toNat + o) bs) u = (ino k).ref d u := by
  have hnamed : (ino inum).ref d (useOf bn) ≠ 0 := by
    rw [href]
    exact hne
  have hge := (h.named hinum hnamed).1
  rw [href] at hge
  have hs : DataStore d (store d (bsize * b.toNat + o) bs) b.toNat := dataStore hge ho
  refine ⟨hs, fun k hk u => ?_⟩
  refine ref_congr rfl fun hind p hp => hs.data _ _ (fun heq => ?_) hp
  have heq : (ino k).ref d (.addr (Fin.last 12)) = (ino inum).ref d (useOf bn) := by
    rw [href]
    exact UInt32.toNat_inj.mp heq
  exact useOf_ne bn (h.ref_inj hinum hk hnamed heq).2.symm

/-- `memmove` into the block `bn` of the contents, and `bwrite`. -/
theorem wrote_store (hbn : bn < maxfile) (o : Nat) (bs : List UInt8) (ho : o + bs.length ≤ bsize) :
    Wrote d (store d (bsize * b.toNat + o) bs) ino inum (ino inum) (bsize * bn + o) bs := by
  have hnamed : (ino inum).ref d (useOf bn) ≠ 0 := by
    rw [href]
    exact hne
  have hused := (h.named hinum hnamed).2
  rw [href] at hused
  obtain ⟨hs, hrefs⟩ := ref_store h hinum href hne o bs ho
  have hblock : ∀ k < (readsb d).ninodes.toNat, ∀ m,
      (ino k).block (store d (bsize * b.toNat + o) bs) m = (ino k).block d m := by
    intro k hk m
    rw [Inode.block, Inode.block, hrefs k hk]
  -- the bytes of the blocks that are not `b`
  have hother : ∀ k < (readsb d).ninodes.toNat, ∀ p, (k ≠ inum ∨ p / bsize ≠ bn) →
      byteAt (store d (bsize * b.toNat + o) bs) (ino k) p = byteAt d (ino k) p := by
    intro k hk p hp
    rw [byteAt, byteAt, hblock k hk]
    by_cases hz : (ino k).block d (p / bsize) = 0
    · rw [if_pos hz, if_pos hz]
    · rw [if_neg hz, if_neg hz]
      refine hs.data _ _ (fun heq => ?_) (Nat.mod_lt _ (Nat.succ_pos _))
      have hlt : p / bsize < maxfile := by
        by_contra hlt
        exact hz (if_neg hlt)
      rw [block_of_lt hlt] at heq
      have heq : (ino k).ref d (useOf (p / bsize)) = (ino inum).ref d (useOf bn) := by
        rw [href]
        exact UInt32.toNat_inj.mp heq
      obtain ⟨hki, huse⟩ := h.ref_inj hinum hk hnamed heq
      rcases hp with hp | hp
      · exact hp hki
      · exact hp (useOf_inj hlt hbn huse)
  refine ⟨?_, hs.readsb, hs.dinode, rfl, fun k hk hki => funext fun p => hother k hk p (Or.inl hki), ?_, ?_⟩
  · rw [Function.update_eq_self]
    refine h.congr hs.readsb hs.isFree hrefs (fun c _ hc p hp => hs.data c p (fun heq => ?_) hp) h.size_le h.mapped
    rw [heq, hused] at hc
    cases hc
  · funext p
    by_cases hp : p / bsize = bn
    · obtain ⟨q, hq, rfl⟩ : ∃ q, q < bsize ∧ p = bsize * bn + q := by
        refine ⟨p % bsize, Nat.mod_lt _ (Nat.succ_pos _), ?_⟩
        rw [← hp, Nat.div_add_mod]
      have hb : (ino inum).block d bn = b := by
        rw [block_of_lt hbn, href]
      have hb' : (ino inum).block (store d (bsize * b.toNat + o) bs) bn = b := by
        rw [hblock inum hinum, hb]
      rw [byteAt_block (by rw [hb']; exact hne) hq, hb']
      unfold store
      rw [byteAt_block (by rw [hb]; exact hne) hq, hb]
      by_cases hoq : o ≤ q
      · rw [if_pos (Nat.add_le_add_left hoq _), if_pos (Nat.add_le_add_left hoq _), Nat.add_sub_add_left,
          Nat.add_sub_add_left]
      · rw [if_neg (by omega), if_neg (by omega)]
    · rw [hother inum hinum p (Or.inr hp), store_outside]
      rintro ⟨h1, h2⟩
      refine hp (Nat.div_eq_of_lt_le ?_ ?_)
      · rw [Nat.mul_comm]
        omega
      · rw [Nat.mul_comm, Nat.mul_succ]
        omega
  · intro u _
    exact hrefs inum hinum u

/-- Where there is a block, `bmap` gives it and changes nothing. -/
theorem bmap_mapped (hbn : bn < maxfile) : bmap d (ino inum) bn = some (b, d, ino inum) := by
  unfold bmap
  rw [useOf] at href
  split at href
  · rename_i hlt
    have href : (ino inum).addr ⟨bn, lt_of_direct hlt⟩ = b := href
    rw [dif_pos hlt, allocAddr, href, if_neg hne]
  · rename_i hge
    have hlt : bn - ndirect < nindirect := by
      rw [maxfile] at hbn
      omega
    rw [Inode.ref] at href
    split at href
    · exact absurd href.symm hne
    · rename_i hind
      have hmod : (bn - ndirect) % 128 = bn - ndirect := Nat.mod_eq_of_lt hlt
      have href : uint d (entry (ino inum).indirect ((bn - ndirect) % 128)) = b := href
      rw [hmod] at href
      have haddr : allocAddr d (ino inum) (Fin.last 12) = some ((ino inum).indirect, d, ino inum) := if_neg hind
      have hdisk : OnDisk d (ino inum).indirect := onDisk_iff.mpr (h.inside inum hinum (.addr (Fin.last 12)))
      rw [dif_neg hge, if_pos hlt, haddr]
      dsimp only
      rw [if_pos hdisk, href, if_neg hne]

end

/-! ## The loops -/

/-- The blocks that hold the bytes from `off` to `off + n` are there. -/
def Mapped (d : Disk) (ip : Inode) (off n : Nat) : Prop :=
  ∀ p, off ≤ p → p < off + n → p / bsize < maxfile ∧ ip.ref d (useOf (p / bsize)) ≠ 0

theorem div_mod_bsize (off : Nat) : bsize * (off / bsize) + off % bsize = off := Nat.div_add_mod off bsize

/-- A turn stays in its block. -/
theorem turn_le (off n : Nat) : turn off n ≤ n ∧ off % bsize + turn off n ≤ bsize := by
  have hlt : off % bsize < bsize := Nat.mod_lt _ (Nat.succ_pos _)
  unfold turn
  omega

theorem FsOk.onDisk {u : Use} (h : FsOk d ino) (hinum : inum < (readsb d).ninodes.toNat) :
    OnDisk d ((ino inum).ref d u) := onDisk_iff.mpr (h.inside inum hinum u)

/-- The loop of `readi` is a load. -/
theorem readLoop_eq (h : FsOk d ino) (hinum : inum < (readsb d).ninodes.toNat) {n : Nat}
    (hmap : Mapped d (ino inum) off n) :
    readLoop d (ino inum) off n = some (load (byteAt d (ino inum)) off n, d, ino inum) := by
  induction n using Nat.strongRecOn generalizing off with
  | ind n ih =>
      rw [readLoop]
      split
      · rename_i hz
        rw [hz]
        unfold load
        rfl
      · rename_i hz
        have hpos := turn_pos off hz
        obtain ⟨hle, hin⟩ := turn_le off n
        obtain ⟨hlt, hne⟩ := hmap off (Nat.le_refl _) (by omega)
        have hmap' : Mapped d (ino inum) (off + turn off n) (n - turn off n) := by
          intro p h1 h2
          exact hmap p (by omega) (by omega)
        have hrest := ih (n - turn off n) (by omega) hmap'
        rw [bmap_mapped h hinum rfl hne hlt]
        dsimp only
        rw [if_pos (h.onDisk hinum), hrest]
        have hbytes : load d (bsize * ((ino inum).ref d (useOf (off / bsize))).toNat + off % bsize) (turn off n)
            = load (byteAt d (ino inum)) off (turn off n) := by
          refine List.ext_getElem? fun i => ?_
          rcases Nat.lt_or_ge i (turn off n) with hi | hi
          · rw [getElem?_load hi, getElem?_load hi]
            have hb : (ino inum).block d (off / bsize) = (ino inum).ref d (useOf (off / bsize)) := block_of_lt hlt
            have hbyte := byteAt_block (o := off % bsize + i) (by rw [hb]; exact hne) (by omega)
            rw [← Nat.add_assoc, div_mod_bsize, hb, ← Nat.add_assoc] at hbyte
            rw [hbyte]
          · rw [List.getElem?_eq_none (by rw [length_load]; exact hi),
              List.getElem?_eq_none (by rw [length_load]; exact hi)]
        have hsum : turn off n + (n - turn off n) = n := Nat.add_sub_of_le hle
        dsimp only
        rw [hbytes, load_append, hsum]

/-- The loop of `writei` is a store, and afterwards the blocks are there. -/
theorem writeLoop_wrote (h : FsOk d ino) (hinum : inum < (readsb d).ninodes.toNat)
    (hw : writeLoop d (ino inum) off src = some (d', ip')) :
    Wrote d d' ino inum ip' off src ∧ Mapped d' ip' off src.length := by
  obtain ⟨n, hn⟩ : ∃ n, n = src.length := ⟨_, rfl⟩
  induction n using Nat.strongRecOn generalizing d ino off src with
  | ind n ih =>
      rw [writeLoop] at hw
      split at hw
      · rename_i hz
        cases hw
        rw [List.length_eq_zero_iff.mp hz]
        exact ⟨wrote_refl h off, fun p h1 h2 => absurd h1 (Nat.not_le.mpr h2)⟩
      · rename_i hz
        split at hw
        · cases hw
        · rename_i b d1 ip1 hm
          split at hw
          · rename_i hdisk
            obtain ⟨hw1, hbn, href, hne⟩ := bmap_wrote h hinum hm hdisk off
            have hinum1 : inum < (readsb d1).ninodes.toNat := by
              rw [hw1.readsb]
              exact hinum
            have hself : Function.update ino inum ip1 inum = ip1 := Function.update_self ..
            have hpos := turn_pos off hz
            obtain ⟨hle, hin⟩ := turn_le off src.length
            have htake : (src.take (turn off src.length)).length = turn off src.length := by
              rw [List.length_take, Nat.min_eq_left hle]
            have hw2 := wrote_store hw1.ok hinum1 (by rw [hself]; exact href) hne hbn
              (off % bsize) (src.take (turn off src.length)) (by rw [htake]; exact hin)
            rw [div_mod_bsize, hself] at hw2
            have hw12 := wrote_trans hw1 hw2
            rw [List.nil_append] at hw12
            have hinum2 : inum < (readsb (store d1 (bsize * b.toNat + off % bsize)
                (src.take (turn off src.length)))).ninodes.toNat := by
              rw [hw12.readsb]
              exact hinum
            rw [← hself] at hw
            have hrest := ih (src.drop (turn off src.length)).length (by rw [List.length_drop]; omega) hw12.ok hinum2
              hw rfl
            rw [← htake] at hrest
            obtain ⟨hw3, hmap3⟩ := hrest
            rw [htake] at hw3 hmap3
            refine ⟨?_, fun p h1 h2 => ?_⟩
            · have hall := wrote_trans hw12 (by rw [htake]; exact hw3)
              rwa [List.take_append_drop] at hall
            · by_cases hp : p < off + turn off src.length
              · have hdiv : p / bsize = off / bsize := by
                  have hmod := div_mod_bsize off
                  refine Nat.div_eq_of_lt_le ?_ ?_
                  · rw [Nat.mul_comm]
                    omega
                  · rw [Nat.mul_comm, Nat.mul_succ]
                    omega
                rw [hdiv]
                have hkept := hw3.kept (useOf (off / bsize))
                rw [Function.update_self] at hkept
                have href2 := hw2.kept (useOf (off / bsize)) (by rw [hself, href]; exact hne)
                rw [hself, href] at href2
                rw [hkept (by rw [href2]; exact hne), href2]
                exact ⟨hbn, hne⟩
              · rw [List.length_drop] at hmap3
                exact hmap3 p (by omega) (by omega)
          · cases hw

/-- Where the blocks are there already, the loop is done and the inode is as before. -/
theorem writeLoop_mapped (src : List UInt8) (h : FsOk d ino) (hinum : inum < (readsb d).ninodes.toNat)
    (hmap : Mapped d (ino inum) off src.length) : ∃ d', writeLoop d (ino inum) off src = some (d', ino inum) := by
  obtain ⟨n, hn⟩ : ∃ n, n = src.length := ⟨_, rfl⟩
  induction n using Nat.strongRecOn generalizing d off src with
  | ind n ih =>
      rw [writeLoop]
      split
      · exact ⟨d, rfl⟩
      · rename_i hz
        have hpos := turn_pos off hz
        obtain ⟨hle, hin⟩ := turn_le off src.length
        have htake : (src.take (turn off src.length)).length = turn off src.length := by
          rw [List.length_take, Nat.min_eq_left hle]
        obtain ⟨hlt, hne⟩ := hmap off (Nat.le_refl _) (by omega)
        have hw := wrote_store h hinum rfl hne hlt (off % bsize) (src.take (turn off src.length))
          (by rw [htake]; exact hin)
        have hok := hw.ok
        rw [Function.update_eq_self] at hok
        rw [bmap_mapped h hinum rfl hne hlt]
        dsimp only
        rw [if_pos (h.onDisk hinum)]
        refine ih (src.drop (turn off src.length)).length (by rw [List.length_drop]; omega) (src.drop (turn off src.length)) hok ?_ (fun p h1 h2 => ?_) rfl
        · rw [hw.readsb]
          exact hinum
        · rw [List.length_drop] at h2
          obtain ⟨hplt, hpne⟩ := hmap p (by omega) (by omega)
          refine ⟨hplt, ?_⟩
          rw [hw.kept _ hpne]
          exact hpne

end Cs537.Xv6
