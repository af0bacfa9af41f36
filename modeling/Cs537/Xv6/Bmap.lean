import Cs537.Xv6.Files

/-!
# `bmap`

What `balloc` and `bmap` do to a disk in order: a block is added to one inode, or nothing
happens. `Wrote` says what a call may change in general, so that the steps of a loop can be
put together: the bytes of one file, as a store into them.
-/

namespace Cs537.Xv6

open Lib

variable {d d' d'' : Disk} {ino ino' : Nat → Inode} {ip ip' ip'' : Inode} {inum k : Nat} {u v : Use} {b : UInt32}
variable {c off : Nat} {src src' : List UInt8}

/-! ## The numbers in a block -/

theorem uint_congr {a : Nat} (h : ∀ o < 4, d' (a + o) = d (a + o)) : uint d' a = uint d a := by
  have hload : load d' a 4 = load d a 4 := by
    refine load_congr fun x hx hx' => ?_
    have hxo := h (x - a) (by omega)
    rwa [Nat.add_sub_of_le hx] at hxo
  rw [uint, uint, hload]

theorem uint_setUint (d : Disk) (a : Nat) (x : UInt32) : uint (setUint d a x) a = x := by
  have hload : load (setUint d a x) a 4 = encodeNat 4 x.toNat := by
    have hsame := load_store_same d a (encodeNat 4 x.toNat)
    rwa [length_encodeNat] at hsame
  have hx : x.toNat < 256 ^ 4 := x.toNat_lt
  rw [uint, hload, decodeNat_encodeNat, Nat.mod_eq_of_lt hx]
  exact UInt32.ofNat_toNat

/-- Zeros. -/
theorem uint_zero {a : Nat} (h : ∀ o < 4, d (a + o) = 0) : uint d a = 0 := by
  rw [uint_congr (d := fun _ => 0) h, uint]
  unfold load
  rfl

theorem entry_lt (j : Fin 128) {o : Nat} (ho : o < 4) : 4 * j.val + o < bsize := by
  have hj := j.isLt
  rw [bsize]
  omega

/-- The entries of a block are its bytes. -/
theorem entry_congr {j : Fin 128} (h : ∀ o < bsize, d' (bsize * b.toNat + o) = d (bsize * b.toNat + o)) :
    uint d' (entry b j) = uint d (entry b j) := by
  refine uint_congr fun o ho => ?_
  rw [entry, Nat.add_assoc]
  exact h _ (entry_lt j ho)

theorem ref_congr (haddrs : ip'.addrs = ip.addrs)
    (h : ip.indirect ≠ 0 → ∀ o < bsize, d' (bsize * ip.indirect.toNat + o) = d (bsize * ip.indirect.toNat + o)) :
    ip'.ref d' u = ip.ref d u := by
  have haddr : ∀ i, ip'.addr i = ip.addr i := by
    intro i
    rw [Inode.addr, Inode.addr, haddrs]
  have hind : ip'.indirect = ip.indirect := haddr (Fin.last 12)
  cases u with
  | addr i => exact haddr i
  | entry j =>
      rw [Inode.ref, Inode.ref, hind]
      by_cases hz : ip.indirect = 0
      · rw [if_pos hz, if_pos hz]
      · rw [if_neg hz, if_neg hz, entry_congr (h hz)]

theorem onDisk_iff : OnDisk d b ↔ b.toNat < (readsb d).size.toNat := UInt32.lt_iff_toNat_lt

/-! ## `balloc` -/

/-- Where a free block goes: a bit is set, and nothing else. -/
theorem balloc_spec (hb : balloc d = some (b, d')) : isFree d b.toNat = true ∧ MapStore d d'
    ∧ ∀ c, isFree d' c = (isFree d c && !decide (c = b.toNat)) := by
  obtain ⟨hfree, -, rfl⟩ := balloc_some hb
  obtain ⟨hlimit, hfree⟩ := (blockFree_iff _ _).mp hfree
  exact ⟨hfree, mapStore hlimit _, isFree_set d b.toNat⟩

section
variable (h : FsOk d ino) (hinum : inum < (readsb d).ninodes.toNat)
include h

/-- The bitmap changes no name. -/
theorem FsOk.ref_map (hm : MapStore d d') (hk : k < (readsb d).ninodes.toNat) (u : Use) :
    (ino k).ref d' u = (ino k).ref d u := by
  refine ref_congr rfl fun hz o ho => hm.data _ ?_
  have hind : (ino k).ref d (.addr (Fin.last 12)) ≠ 0 := hz
  have hge : dataStart d ≤ (ino k).indirect.toNat := (h.named hk hind).1
  have hmul := Nat.mul_le_mul_left bsize hge
  omega

include hinum

/-- `ip->addrs[i] = balloc(ip->dev)`. -/
theorem assign_addr {i : Fin 13} (hzero : (ino inum).addr i = 0) (hb : balloc d = some (b, d'))
    (hdisk : b.toNat < (readsb d).size.toNat) :
    Assign d d' ino (Function.update ino inum { ino inum with addrs := (ino inum).addrs.set i b }) inum (.addr i) b := by
  obtain ⟨hfree, hm, hbits⟩ := balloc_spec hb
  have hge := h.free_ge hdisk hfree
  have hkeep : ∀ c, dataStart d ≤ c → ∀ o, d' (bsize * c + o) = d (bsize * c + o) := by
    intro c hc o
    have hmul := Nat.mul_le_mul_left bsize hc
    exact hm.data _ (by omega)
  refine ⟨hm.readsb, fun c _ => hbits c, fun k hk v => ?_, fun k _ => ?_, hm.dinode, fun c hc _ o _ => hkeep c hc o⟩
  · by_cases hki : k = inum
    · subst hki
      rw [Function.update_self]
      cases v with
      | addr i' =>
          show ((ino k).addrs.set i b)[i'] = _
          by_cases hii : i' = i
          · rw [if_pos ⟨rfl, congrArg Use.addr hii⟩, hii]
            exact Vector.getElem_set_self _
          · have hno : ¬(k = k ∧ Use.addr i' = .addr i) := by
              rintro ⟨-, heq⟩
              injection heq with heq
              exact hii heq
            rw [if_neg hno]
            exact Vector.getElem_set_ne _ _ fun heq => hii (Fin.ext heq.symm)
      | entry j =>
          have hno : ¬(k = k ∧ Use.entry j = .addr i) := by
            rintro ⟨-, heq⟩
            cases heq
          rw [if_neg hno]
          by_cases hi : i = Fin.last 12
          · -- the indirect block is new: it holds zeros
            subst hi
            have hold : (ino k).ref d (.entry j) = 0 := if_pos hzero
            have hnew : (Inode.indirect { ino k with addrs := (ino k).addrs.set (Fin.last 12) b }) = b :=
              Vector.getElem_set_self _
            have hbne : b ≠ 0 := toNat_ne_zero.mp (Nat.ne_of_gt (Nat.lt_of_lt_of_le (dataStart_pos d) hge))
            rw [hold, Inode.ref, hnew, if_neg hbne]
            refine uint_zero fun o ho => ?_
            rw [entry, Nat.add_assoc, hkeep _ hge]
            exact h.clean _ hdisk hfree _ (entry_lt j ho)
          · have hsame : Inode.indirect { ino k with addrs := (ino k).addrs.set i b } = (ino k).indirect :=
              Vector.getElem_set_ne i.isLt (Nat.lt_succ_self 12) fun heq => hi (Fin.ext heq)
            have hmap := h.ref_map hm hk (.entry j)
            rw [← hmap, Inode.ref, Inode.ref, hsame]
    · rw [Function.update_of_ne hki, if_neg fun hno => hki hno.1]
      exact h.ref_map hm hk v
  · by_cases hki : k = inum
    · rw [hki, Function.update_self]
    · rw [Function.update_of_ne hki]

/-- `a[bn] = balloc(ip->dev)`. -/
theorem assign_entry {j : Fin 128} (hind : (ino inum).indirect ≠ 0)
    (hzero : uint d (entry (ino inum).indirect j) = 0) (hb : balloc d = some (b, d')) :
    Assign d (setUint d' (entry (ino inum).indirect j) b) ino ino inum (.entry j) b := by
  obtain ⟨hfree, hm, hbits⟩ := balloc_spec hb
  obtain ⟨hge, -⟩ := h.named (u := .addr (Fin.last 12)) hinum hind
  have hge' : dataStart d' ≤ (ino inum).indirect.toNat := by
    rw [dataStart_congr hm.readsb]
    exact hge
  have hin : 4 * j.val + (encodeNat 4 b.toNat).length ≤ bsize := by
    have hj := j.isLt
    rw [length_encodeNat, bsize]
    omega
  have hs : DataStore d' (setUint d' (entry (ino inum).indirect j) b) (ino inum).indirect.toNat := dataStore hge' hin
  have hkeep : ∀ c, dataStart d ≤ c → c ≠ (ino inum).indirect.toNat → ∀ o < bsize,
      setUint d' (entry (ino inum).indirect j) b (bsize * c + o) = d (bsize * c + o) := by
    intro c hc hne o ho
    have hmul := Nat.mul_le_mul_left bsize hc
    rw [hs.data c o hne ho, hm.data _ (by omega)]
  refine ⟨hs.readsb.trans hm.readsb, fun c hc => ?_, fun k hk v => ?_, fun k _ => rfl, fun k hk => ?_, hkeep⟩
  · rw [hs.isFree c (by rw [mapLimit_congr hm.readsb]; exact hc), hbits c]
  · by_cases hki : k = inum
    · subst hki
      cases v with
      | addr i =>
          have hno : ¬(k = k ∧ Use.addr i = .entry j) := by
            rintro ⟨-, heq⟩
            cases heq
          rw [if_neg hno]
          rfl
      | entry j' =>
          rw [Inode.ref, Inode.ref, if_neg hind, if_neg hind]
          by_cases hjj : j' = j
          · subst hjj
            rw [if_pos ⟨rfl, rfl⟩, uint_setUint]
          · have hno : ¬(k = k ∧ Use.entry j' = .entry j) := by
              rintro ⟨-, heq⟩
              injection heq with heq
              exact hjj heq
            have hne : j'.val ≠ j.val := fun heq => hjj (Fin.ext heq)
            rw [if_neg hno, setUint, uint_store (by rw [entry, entry, length_encodeNat]; omega)]
            have hmap := h.ref_map hm hk (.entry j')
            rwa [Inode.ref, Inode.ref, if_neg hind, if_neg hind] at hmap
    · rw [if_neg fun hno => hki hno.1]
      refine ref_congr rfl fun hz => ?_
      have hkind : (ino k).ref d (.addr (Fin.last 12)) ≠ 0 := hz
      refine hkeep _ (h.named hk hkind).1 fun heq => hki ?_
      have hsame : (ino k).ref d (.addr (Fin.last 12)) = (ino inum).ref d (.addr (Fin.last 12)) := UInt32.toNat_inj.mp heq
      exact (h.ref_inj (u := .addr (Fin.last 12)) hinum hk hind hsame).1
  · rw [hs.dinode k (by rw [hm.readsb]; exact hk), hm.dinode k hk]

end

/-! ## What a call may change -/

/-- `src` has been stored at `off` in the file `inum`, which is `ip` now; no other file has changed. -/
structure Wrote (d d' : Disk) (ino : Nat → Inode) (inum : Nat) (ip : Inode) (off : Nat) (src : List UInt8) : Prop where
  ok : FsOk d' (Function.update ino inum ip)
  readsb : readsb d' = readsb d
  dinode : ∀ k < (Xv6.readsb d).ninodes.toNat, dinode d' k = dinode d k
  head : ip = { ino inum with addrs := ip.addrs }
  others : ∀ k < (Xv6.readsb d).ninodes.toNat, k ≠ inum → byteAt d' (ino k) = byteAt d (ino k)
  self : byteAt d' ip = store (byteAt d (ino inum)) off src
  kept : ∀ u, (ino inum).ref d u ≠ 0 → ip.ref d' u = (ino inum).ref d u

theorem wrote_refl (h : FsOk d ino) (off : Nat) : Wrote d d ino inum (ino inum) off [] where
  ok := by
    rw [Function.update_eq_self]
    exact h
  readsb := rfl
  dinode _ _ := rfl
  head := rfl
  others _ _ _ := rfl
  self := (store_nil _ _).symm
  kept _ _ := rfl

theorem wrote_trans (h : Wrote d d' ino inum ip off src)
    (h' : Wrote d' d'' (Function.update ino inum ip) inum ip' (off + src.length) src') :
    Wrote d d'' ino inum ip' off (src ++ src') where
  ok := by
    have hok := h'.ok
    rwa [Function.update_idem] at hok
  readsb := h'.readsb.trans h.readsb
  dinode k hk := by
    rw [h'.dinode k (by rw [h.readsb]; exact hk), h.dinode k hk]
  head := by
    have h1 := h'.head
    rw [Function.update_self] at h1
    have h2 := h.head
    rw [h1, h2]
  others k hk hne := by
    have h1 := h'.others k (by rw [h.readsb]; exact hk) hne
    rw [Function.update_of_ne hne] at h1
    rw [h1, h.others k hk hne]
  self := by
    have h1 := h'.self
    rw [Function.update_self] at h1
    rw [h1, h.self, store_append]
  kept u hu := by
    have h1 := h'.kept u
    rw [Function.update_self] at h1
    have hsame := h.kept u hu
    rw [h1 (by rw [hsame]; exact hu), hsame]

/-- A new block is not noticed. -/
theorem wrote_assign (h : FsOk d ino) (hinum : inum < (readsb d).ninodes.toNat) (hzero : (ino inum).ref d u = 0)
    (hfree : isFree d b.toNat = true) (hb : b.toNat < (readsb d).size.toNat)
    (ha : Assign d d' ino (Function.update ino inum ip) inum u b) (hhead : ip = { ino inum with addrs := ip.addrs })
    (off : Nat) : Wrote d d' ino inum ip off [] where
  ok := fsOk_assign h hinum hzero hfree hb ha
  readsb := ha.readsb
  dinode := ha.dinode
  head := hhead
  others k hk hne := by
    have hbytes := byteAt_assign h hinum hzero hfree hb ha hk
    rwa [Function.update_of_ne hne] at hbytes
  self := by
    have hbytes := byteAt_assign h hinum hzero hfree hb ha hinum
    rw [Function.update_self] at hbytes
    rw [store_nil, hbytes]
  kept v hv := by
    have href := ha.ref inum hinum v
    rw [Function.update_self] at href
    rw [href, if_neg]
    rintro ⟨-, rfl⟩
    exact hv hzero

/-! ## `bmap` -/

section
variable (h : FsOk d ino) (hinum : inum < (readsb d).ninodes.toNat)
include h hinum

theorem allocAddr_wrote {i : Fin 13} (ha : allocAddr d (ino inum) i = some (b, d', ip')) (hdisk : OnDisk d' b) (off : Nat) :
    Wrote d d' ino inum ip' off [] ∧ ip'.ref d' (.addr i) = b ∧ b ≠ 0 := by
  unfold allocAddr at ha
  split at ha
  · rename_i hzero
    split at ha
    · rename_i addr d1 hb
      cases ha
      obtain ⟨hfree, hm, -⟩ := balloc_spec hb
      rw [onDisk_iff, hm.readsb] at hdisk
      have hassign := assign_addr h hinum hzero hb hdisk
      have hzero : (ino inum).ref d (.addr i) = 0 := hzero
      have hge := h.free_ge hdisk hfree
      refine ⟨wrote_assign h hinum hzero hfree hdisk hassign rfl off, ?_, ?_⟩
      · exact Vector.getElem_set_self _
      · exact toNat_ne_zero.mp (Nat.ne_of_gt (Nat.lt_of_lt_of_le (dataStart_pos d) hge))
    · cases ha
  · rename_i hne
    cases ha
    exact ⟨wrote_refl h off, rfl, hne⟩

/-- `bmap` gives the block of the contents, a new one if there was none; the contents stay. -/
theorem bmap_wrote {bn : Nat} (hm : bmap d (ino inum) bn = some (b, d', ip')) (hdisk : OnDisk d' b) (off : Nat) :
    Wrote d d' ino inum ip' off [] ∧ bn < maxfile ∧ ip'.ref d' (useOf bn) = b ∧ b ≠ 0 := by
  unfold bmap at hm
  split at hm
  · rename_i hbn
    obtain ⟨hw, href, hne⟩ := allocAddr_wrote h hinum hm hdisk off
    refine ⟨hw, Nat.lt_of_lt_of_le hbn (Nat.le_add_right _ _), ?_, hne⟩
    rw [useOf, dif_pos hbn]
    exact href
  · rename_i hbn
    split at hm
    · rename_i hlt
      have hmax : bn < maxfile := by
        rw [maxfile]
        omega
      obtain ⟨j, hj⟩ : ∃ j : Fin 128, j.val = bn - ndirect := ⟨⟨bn - ndirect, hlt⟩, rfl⟩
      have huse : useOf bn = .entry j := by
        rw [useOf, dif_neg hbn]
        refine congrArg Use.entry (Fin.ext ?_)
        rw [hj]
        exact Nat.mod_eq_of_lt hlt
      rw [huse]
      split at hm
      · cases hm
      · rename_i addr d1 ip1 halloc
        split at hm
        · rename_i haddr
          obtain ⟨hw, hind, hne⟩ := allocAddr_wrote h hinum halloc haddr off
          have hind : ip1.indirect = addr := hind
          rw [← hind, ← hj] at hm
          rw [← hind] at hne
          have hinum1 : inum < (readsb d1).ninodes.toNat := by
            rw [hw.readsb]
            exact hinum
          have hself : Function.update ino inum ip1 inum = ip1 := Function.update_self ..
          split at hm
          · rename_i hzero
            split at hm
            · rename_i b2 d2 hb
              cases hm
              obtain ⟨hfree, -, -⟩ := balloc_spec hb
              have hassign := assign_entry hw.ok hinum1 (j := j) (by rw [hself]; exact hne)
                (by rw [hself]; exact hzero) hb
              rw [hself] at hassign
              have hlt : b.toNat < (readsb d1).size.toNat := by
                have hlt := onDisk_iff.mp hdisk
                rwa [hassign.readsb] at hlt
              have hzero' : (Function.update ino inum ip' inum).ref d1 (.entry j) = 0 := by
                rw [hself, Inode.ref, if_neg hne]
                exact hzero
              have hupdate : Function.update ino inum ip'
                  = Function.update (Function.update ino inum ip') inum ip' := by
                rw [Function.update_idem]
              have href := hassign.ref inum hinum1 (.entry j)
              rw [hself, if_pos ⟨rfl, rfl⟩] at href
              have hge := hw.ok.free_ge hlt hfree
              refine ⟨?_, hmax, href, ?_⟩
              · refine wrote_trans hw (wrote_assign hw.ok hinum1 hzero' hfree hlt (hupdate ▸ hassign) ?_ off)
                rw [hself]
              · exact toNat_ne_zero.mp (Nat.ne_of_gt (Nat.lt_of_lt_of_le (dataStart_pos d1) hge))
            · cases hm
          · rename_i hused
            cases hm
            refine ⟨hw, hmax, ?_, hused⟩
            rw [Inode.ref, if_neg hne]
        · cases hm
    · cases hm

end

end Cs537.Xv6
