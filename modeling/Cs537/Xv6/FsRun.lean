import Cs537.Xv6.Itrunc
import Mathlib.Data.Finset.Card
import Mathlib.Data.Finset.Union
import Mathlib.Data.Finset.Range

/-!
# The file system as a map from inode numbers to contents

A user of `readi`, `writei` and `itrunc` sees byte strings, one for each inode. That the disk
behind them is cut into blocks shows in one way: a disk can be full. How much room a write
needs is the number of places that it fills and that name no block yet.
-/

namespace Cs537.Xv6

open Lib

variable {d d' : Disk} {ino ino' : Nat → Inode} {ip ip' : Inode} {inum off bn : Nat} {u : Use} {b : UInt32}
variable {src : List UInt8} {S : Finset Use}

/-! ## Room -/

/-- The free blocks of the disk. -/
def freeBlocks (d : Disk) : Finset Nat := (Finset.range (readsb d).size.toNat).filter fun c => isFree d c = true

/-- Those of the places `S` that name no block. -/
def missing (d : Disk) (ip : Inode) (S : Finset Use) : Finset Use := S.filter fun u => ip.ref d u = 0

/-- The disk has the blocks that are missing. -/
def Room (d : Disk) (ip : Inode) (S : Finset Use) : Prop := (missing d ip S).card ≤ (freeBlocks d).card

theorem mem_freeBlocks {c : Nat} : c ∈ freeBlocks d ↔ c < (readsb d).size.toNat ∧ isFree d c = true := by
  rw [freeBlocks, Finset.mem_filter, Finset.mem_range]

theorem mem_missing : u ∈ missing d ip S ↔ u ∈ S ∧ ip.ref d u = 0 := Finset.mem_filter

/-- What `balloc` takes fills a place. -/
theorem room_assign (h : FsOk d ino) (hinum : inum < (readsb d).ninodes.toNat) (hzero : (ino inum).ref d u = 0)
    (hfree : isFree d b.toNat = true) (hb : b.toNat < (readsb d).size.toNat) (ha : Assign d d' ino ino' inum u b)
    (hu : u ∈ S) (hroom : Room d (ino inum) S) : Room d' (ino' inum) S := by
  have hbne : b ≠ 0 := toNat_ne_zero.mp (Nat.ne_of_gt (Nat.lt_of_lt_of_le (dataStart_pos d) (h.free_ge hb hfree)))
  have hplaces : missing d' (ino' inum) S = (missing d (ino inum) S).erase u := by
    ext v
    rw [Finset.mem_erase, mem_missing, mem_missing, ha.ref inum hinum]
    by_cases huv : v = u
    · rw [if_pos ⟨rfl, huv⟩]
      exact iff_of_false (fun hno => hbne hno.2) fun hno => hno.1 huv
    · rw [if_neg fun hno => huv hno.2, and_iff_right huv]
  have hblocks : freeBlocks d' = (freeBlocks d).erase b.toNat := by
    ext c
    rw [Finset.mem_erase, mem_freeBlocks, mem_freeBlocks, ha.readsb]
    by_cases hc : c < (readsb d).size.toNat
    · rw [ha.free c (Nat.lt_trans hc (size_lt_mapLimit d)), Bool.and_eq_true, Bool.not_eq_true', decide_eq_false_iff_not]
      exact ⟨fun hall => ⟨hall.2.2, hc, hall.2.1⟩, fun hall => ⟨hc, hall.2.2, hall.1⟩⟩
    · exact iff_of_false (fun hno => hc hno.1) fun hno => hc hno.2.1
  rw [Room, hplaces, hblocks, Finset.card_erase_of_mem (mem_missing.mpr ⟨hu, hzero⟩),
    Finset.card_erase_of_mem (mem_freeBlocks.mpr ⟨hb, hfree⟩)]
  exact Nat.sub_le_sub_right hroom 1

/-- Where a block is missing and there is room, `balloc` finds one of the disk. -/
theorem balloc_room (hu : u ∈ S) (hzero : ip.ref d u = 0) (hroom : Room d ip S) :
    ∃ b d', balloc d = some (b, d') ∧ b.toNat < (readsb d).size.toNat := by
  have hone : 0 < (missing d ip S).card := Finset.card_pos.mpr ⟨u, mem_missing.mpr ⟨hu, hzero⟩⟩
  obtain ⟨c, hc⟩ := Finset.card_pos.mp (Nat.lt_of_lt_of_le hone hroom)
  obtain ⟨hlt, hfree⟩ := mem_freeBlocks.mp hc
  obtain ⟨b, d', hb, hle⟩ := balloc_free hlt hfree
  exact ⟨b, d', hb, Nat.lt_of_le_of_lt hle hlt⟩

section
variable (h : FsOk d ino) (hinum : inum < (readsb d).ninodes.toNat) (hroom : Room d (ino inum) S)
include h hinum hroom

theorem allocAddr_room {i : Fin 13} (hi : .addr i ∈ S) :
    ∃ b d' ip', allocAddr d (ino inum) i = some (b, d', ip') ∧ OnDisk d' b ∧ Room d' ip' S := by
  by_cases hzero : (ino inum).addr i = 0
  · obtain ⟨b, d', hb, hlt⟩ := balloc_room hi (show (ino inum).ref d (.addr i) = 0 from hzero) hroom
    obtain ⟨hfree, hm, -⟩ := balloc_spec hb
    have hassign := assign_addr h hinum hzero hb hlt
    have hzero' : (ino inum).ref d (.addr i) = 0 := hzero
    have hroom' := room_assign h hinum hzero' hfree hlt hassign hi hroom
    rw [Function.update_self] at hroom'
    refine ⟨b, d', _, ?_, ?_, hroom'⟩
    · rw [allocAddr, if_pos hzero, hb]
    · rw [onDisk_iff, hm.readsb]
      exact hlt
  · exact ⟨_, d, _, if_neg hzero, h.onDisk hinum (u := .addr i), hroom⟩

theorem bmap_room (hbn : bn < maxfile) (huse : useOf bn ∈ S) (hind : ndirect ≤ bn → .addr (Fin.last 12) ∈ S) :
    ∃ b d' ip', bmap d (ino inum) bn = some (b, d', ip') ∧ OnDisk d' b ∧ Room d' ip' S := by
  unfold bmap
  by_cases hlt : bn < ndirect
  · rw [dif_pos hlt]
    rw [useOf, dif_pos hlt] at huse
    exact allocAddr_room h hinum hroom huse
  · have hbn' : bn - ndirect < nindirect := by
      rw [maxfile] at hbn
      omega
    obtain ⟨j, hj⟩ : ∃ j : Fin 128, j.val = bn - ndirect := ⟨⟨bn - ndirect, hbn'⟩, rfl⟩
    have huse : .entry j ∈ S := by
      have heq : useOf bn = .entry j := by
        rw [useOf, dif_neg hlt]
        refine congrArg Use.entry (Fin.ext ?_)
        rw [hj]
        exact Nat.mod_eq_of_lt hbn'
      rwa [heq] at huse
    obtain ⟨addr, d1, ip1, halloc, hdisk, hroom1⟩ := allocAddr_room h hinum hroom (hind (Nat.le_of_not_lt hlt))
    obtain ⟨hw, hi, hne⟩ := allocAddr_wrote h hinum halloc hdisk 0
    have hi : ip1.indirect = addr := hi
    have hinum1 : inum < (readsb d1).ninodes.toNat := by
      rw [hw.readsb]
      exact hinum
    have hself : Function.update ino inum ip1 inum = ip1 := Function.update_self ..
    rw [dif_neg hlt, if_pos hbn', halloc]
    dsimp only
    rw [if_pos hdisk, ← hj, ← hi]
    rw [← hi] at hne
    by_cases hzero : uint d1 (entry ip1.indirect j) = 0
    · have hmissing : ip1.ref d1 (.entry j) = 0 := by
        rw [Inode.ref, if_neg hne]
        exact hzero
      obtain ⟨b, d2, hb, hlt2⟩ := balloc_room huse hmissing hroom1
      have hassign := assign_entry hw.ok hinum1 (j := j) (by rw [hself]; exact hne) (by rw [hself]; exact hzero) hb
      have hroom2 := room_assign hw.ok hinum1 (by rw [hself]; exact hmissing) (balloc_spec hb).1 hlt2 hassign huse
        (by rw [hself]; exact hroom1)
      rw [hself] at hassign hroom2
      refine ⟨b, _, ip1, ?_, ?_, hroom2⟩
      · rw [if_pos hzero, hb]
      · rw [onDisk_iff, hassign.readsb]
        exact hlt2
    · refine ⟨_, d1, ip1, if_neg hzero, ?_, hroom1⟩
      have hin := hw.ok.onDisk hinum1 (u := .entry j)
      rwa [hself, Inode.ref, if_neg hne] at hin

end

/-- The places that the bytes from `off` to `off + n` need. -/
def touched (off n : Nat) : Finset Use := (Finset.range n).biUnion fun i =>
  if (off + i) / bsize < ndirect then {useOf ((off + i) / bsize)} else {useOf ((off + i) / bsize), .addr (Fin.last 12)}

theorem useOf_mem_touched {n i : Nat} (hi : i < n) : useOf ((off + i) / bsize) ∈ touched off n := by
  refine Finset.mem_biUnion.mpr ⟨i, Finset.mem_range.mpr hi, ?_⟩
  split
  · exact Finset.mem_singleton_self _
  · exact Finset.mem_insert_self ..

theorem indirect_mem_touched {n i : Nat} (hi : i < n) (hge : ndirect ≤ (off + i) / bsize) : .addr (Fin.last 12) ∈ touched off n := by
  refine Finset.mem_biUnion.mpr ⟨i, Finset.mem_range.mpr hi, ?_⟩
  rw [if_neg (Nat.not_lt.mpr hge)]
  exact Finset.mem_insert_of_mem (Finset.mem_singleton_self _)

/-- With room the loop of `writei` is done. -/
theorem writeLoop_room (h : FsOk d ino) (hinum : inum < (readsb d).ninodes.toNat) (hroom : Room d (ino inum) S)
    (hmax : off + src.length ≤ maxfile * bsize) (hS : touched off src.length ⊆ S) :
    ∃ d' ip', writeLoop d (ino inum) off src = some (d', ip') := by
  obtain ⟨n, hn⟩ : ∃ n, n = src.length := ⟨_, rfl⟩
  induction n using Nat.strongRecOn generalizing d ino off src with
  | ind n ih =>
      rw [writeLoop]
      split
      · exact ⟨d, ino inum, rfl⟩
      · rename_i hz
        have hpos := turn_pos off hz
        obtain ⟨hle, hin⟩ := turn_le off src.length
        have htake : (src.take (turn off src.length)).length = turn off src.length := by
          rw [List.length_take, Nat.min_eq_left hle]
        have hbn : off / bsize < maxfile := by
          refine Nat.div_lt_of_lt_mul ?_
          rw [Nat.mul_comm]
          omega
        have hlen := Nat.pos_of_ne_zero hz
        obtain ⟨b, d1, ip1, hm, hdisk, hroom1⟩ := bmap_room h hinum hroom hbn
          (hS (useOf_mem_touched hlen)) fun hge => hS (indirect_mem_touched hlen hge)
        obtain ⟨hw1, -, href, hne⟩ := bmap_wrote h hinum hm hdisk off
        have hinum1 : inum < (readsb d1).ninodes.toNat := by
          rw [hw1.readsb]
          exact hinum
        have hself : Function.update ino inum ip1 inum = ip1 := Function.update_self ..
        rw [hm]
        dsimp only
        rw [if_pos hdisk]
        have href' : (Function.update ino inum ip1 inum).ref d1 (useOf (off / bsize)) = b := by
          rw [hself]
          exact href
        have hw2 := wrote_store hw1.ok hinum1 href' hne hbn (off % bsize) (src.take (turn off src.length))
          (by rw [htake]; exact hin)
        obtain ⟨hs, hrefs⟩ := ref_store hw1.ok hinum1 href' hne (off % bsize)
          (src.take (turn off src.length)) (by rw [htake]; exact hin)
        have hroom2 : Room (store d1 (bsize * b.toNat + off % bsize) (src.take (turn off src.length))) ip1 S := by
          have hplaces : missing (store d1 (bsize * b.toNat + off % bsize) (src.take (turn off src.length))) ip1 S
              = missing d1 ip1 S := by
            ext v
            have hv := hrefs inum hinum1 v
            rw [hself] at hv
            rw [mem_missing, mem_missing, hv]
          have hblocks : freeBlocks (store d1 (bsize * b.toNat + off % bsize) (src.take (turn off src.length)))
              = freeBlocks d1 := by
            ext c
            rw [mem_freeBlocks, mem_freeBlocks, hs.readsb]
            refine and_congr_right fun hc => ?_
            rw [hs.isFree c (Nat.lt_trans hc (size_lt_mapLimit d1))]
          rw [Room, hplaces, hblocks]
          exact hroom1
        have hok2 := hw2.ok
        rw [Function.update_eq_self] at hok2
        have hlendrop : (src.drop (turn off src.length)).length = src.length - turn off src.length := List.length_drop
        have hmax2 : off + turn off src.length + (src.drop (turn off src.length)).length ≤ maxfile * bsize := by
          rw [hlendrop]
          omega
        have hS2 : touched (off + turn off src.length) (src.drop (turn off src.length)).length ⊆ S := by
          intro v hv
          refine hS ?_
          obtain ⟨i, hi, hv⟩ := Finset.mem_biUnion.mp hv
          have hi := Finset.mem_range.mp hi
          rw [hlendrop] at hi
          refine Finset.mem_biUnion.mpr ⟨turn off src.length + i, Finset.mem_range.mpr (by omega), ?_⟩
          rwa [Nat.add_assoc] at hv
        have hrest := ih (src.drop (turn off src.length)).length (by rw [hlendrop]; omega) hok2
          (by rw [hw2.readsb]; exact hinum1) (by rw [hself]; exact hroom2) hmax2 hS2 rfl
        rwa [hself] at hrest

/-! ## Calls -/

/-- `readi`, `writei` or `itrunc` of an inode, between `ilock` and `iunlock`. -/
inductive FileCall where
  | read (inum : Nat) (off n : UInt32)
  | write (inum : Nat) (src : List UInt8) (off : UInt32)
  | trunc (inum : Nat)

inductive FileReply where
  | bytes (r : Option (List UInt8))
  | count (r : Option Nat)
  | done

/-- The inode exists, and `n` of `writei` is a `uint`. -/
def FileCall.Valid (ninodes : Nat) : FileCall → Prop
  | .read inum _ _ => inum < ninodes
  | .write inum src _ => inum < ninodes ∧ src.length < 2 ^ 32
  | .trunc inum => inum < ninodes

def call (d : Disk) : FileCall → Option (FileReply × Disk)
  | .read inum off n => (readi d (dinode d inum) off n).map fun r => (.bytes r.1, r.2.1)
  | .write inum src off => (writei d inum (dinode d inum) src off).map fun r => (.count r.1, r.2.1)
  | .trunc inum => (itrunc d inum (dinode d inum)).map fun r => (.done, r.1)

def calls (d : Disk) : List FileCall → Option (List FileReply × Disk)
  | [] => some ([], d)
  | c :: cs =>
      match call d c with
      | none => none
      | some (r, d) =>
          match calls d cs with
          | none => none
          | some (rs, d) => some (r :: rs, d)

/-- What each file holds. -/
abbrev Files := Nat → List UInt8

/-- What a user expects of a call. -/
def Files.call (f : Files) : FileCall → FileReply × Files
  | .read inum off n =>
      if (f inum).length < off.toNat ∨ 2 ^ 32 ≤ off.toNat + n.toNat then (.bytes none, f)
      else (.bytes (some (((f inum).drop off.toNat).take n.toNat)), f)
  | .write inum src off =>
      if (f inum).length < off.toNat ∨ 2 ^ 32 ≤ off.toNat + src.length then (.count none, f)
      else (.count (some (fitting off.toNat src).length),
        Function.update f inum (overwrite (f inum) off.toNat (fitting off.toNat src)))
  | .trunc inum => (.done, Function.update f inum [])

def Files.calls (f : Files) : List FileCall → List FileReply × Files
  | [] => ([], f)
  | c :: cs => ((f.call c).1 :: (Files.calls (f.call c).2 cs).1, (Files.calls (f.call c).2 cs).2)

/-- The files of a disk. -/
def files (d : Disk) : Files := fun k => contents d (dinode d k)

/-- They are the same where there are inodes. -/
def Holds (d : Disk) (f : Files) : Prop := ∀ k < (readsb d).ninodes.toNat, files d k = f k

theorem length_files (d : Disk) (k : Nat) : (files d k).length = (dinode d k).size.toNat := length_load ..

theorem outOfBounds_iff (d : Disk) (k : Nat) (off n : UInt32) :
    (off > (dinode d k).size ∨ off + n < off) ↔ (files d k).length < off.toNat ∨ 2 ^ 32 ≤ off.toNat + n.toNat := by
  rw [length_files]
  refine or_congr UInt32.lt_iff_toNat_lt ?_
  rw [UInt32.lt_iff_toNat_lt, UInt32.toNat_add]
  have h1 := off.toNat_lt
  have h2 := n.toNat_lt
  omega

theorem holds_became {f : Files} {bs : List UInt8} (hf : Holds d f) (hb : Became d d' inum ip bs) :
    Holds d' (Function.update f inum bs) := by
  intro k hk
  rw [hb.readsb] at hk
  by_cases hki : k = inum
  · rw [hki, Function.update_self, files, hb.inode, hb.contents]
  · rw [Function.update_of_ne hki, ← hf k hk]
    exact (hb.others k hk hki).2

/-- A call that returns does what is expected of it, and leaves the disk in order. -/
theorem call_refines {c : FileCall} {f : Files} {r : FileReply} (h : FsOk d (dinode d)) (hf : Holds d f)
    (hc : c.Valid (readsb d).ninodes.toNat) (hcall : call d c = some (r, d')) :
    FsOk d' (dinode d') ∧ readsb d' = readsb d ∧ (f.call c).1 = r ∧ Holds d' (f.call c).2 := by
  cases c with
  | read inum off n =>
      have hinum : inum < (readsb d).ninodes.toNat := hc
      rw [call, readi_eq h hinum] at hcall
      cases hcall
      have hfile := hf inum hinum
      refine ⟨h, rfl, ?_, ?_⟩
      · rw [Files.call, ← hfile]
        by_cases hout : off > (dinode d inum).size ∨ off + n < off
        · rw [if_pos ((outOfBounds_iff d inum off n).mp hout), if_pos hout]
        · rw [if_neg fun hno => hout ((outOfBounds_iff d inum off n).mpr hno), if_neg hout]
          rfl
      · have hsame : (f.call (.read inum off n)).2 = f := by
          rw [Files.call]
          split
          · rfl
          · rfl
        rw [hsame]
        exact hf
  | write inum src off =>
      obtain ⟨hinum, hlen⟩ := hc
      rw [call] at hcall
      obtain ⟨⟨n, d1, ip⟩, hw, hcall⟩ := Option.map_eq_some_iff.mp hcall
      cases hcall
      have hn : (UInt32.ofNat src.length).toNat = src.length := by
        rw [UInt32.toNat_ofNat']
        exact Nat.mod_eq_of_lt hlen
      have hbounds := outOfBounds_iff d inum off (UInt32.ofNat src.length)
      rw [hn] at hbounds
      have hfile := hf inum hinum
      have hresult := writei_became h hinum hlen hw
      by_cases hout : off > (dinode d inum).size ∨ off + UInt32.ofNat src.length < off
      · rw [if_pos hout] at hresult
        obtain ⟨rfl, rfl, rfl⟩ := hresult
        rw [Files.call, ← hfile, if_pos (hbounds.mp hout)]
        exact ⟨h, rfl, rfl, hf⟩
      · rw [if_neg hout] at hresult
        obtain ⟨rfl, hb⟩ := hresult
        rw [Files.call, ← hfile, if_neg fun hno => hout (hbounds.mpr hno)]
        exact ⟨hb.ok, hb.readsb, rfl, holds_became hf hb⟩
  | trunc inum =>
      have hinum : inum < (readsb d).ninodes.toNat := hc
      obtain ⟨d1, hd1, hb, -⟩ := itrunc_became h hinum
      rw [call, hd1] at hcall
      cases hcall
      exact ⟨hb.ok, hb.readsb, rfl, holds_became hf hb⟩

/-- A run of calls. -/
theorem calls_refine {cs : List FileCall} {f : Files} {rs : List FileReply} (h : FsOk d (dinode d)) (hf : Holds d f)
    (hcs : ∀ c ∈ cs, c.Valid (readsb d).ninodes.toNat) (hrun : calls d cs = some (rs, d')) :
    FsOk d' (dinode d') ∧ (f.calls cs).1 = rs ∧ Holds d' (f.calls cs).2 := by
  induction cs generalizing d f rs with
  | nil =>
      cases hrun
      exact ⟨h, rfl, hf⟩
  | cons c cs ih =>
      rw [calls] at hrun
      split at hrun
      · cases hrun
      · rename_i r d1 hcall
        obtain ⟨h1, hsb, hr, hf1⟩ := call_refines h hf (hcs c (List.mem_cons_self ..)) hcall
        split at hrun
        · cases hrun
        · rename_i rs' d2 hrest
          cases hrun
          have hcs' : ∀ c ∈ cs, c.Valid (readsb d1).ninodes.toNat := by
            intro c' hc'
            rw [hsb]
            exact hcs c' (List.mem_cons_of_mem _ hc')
          obtain ⟨h2, hrs, hf2⟩ := ih h1 hf1 hcs' hrest
          exact ⟨h2, by rw [Files.calls, hr, hrs], hf2⟩

/-! ## A disk without files -/

/-- `n` blocks, of which five are in use, and eight inodes. -/
def freshDisk (n : UInt8) : Disk := fun a => if a = 512 then n else if a = 520 then 8 else if a = 2048 then 31 else 0

section
variable {n : UInt8}

theorem readsb_fresh (n : UInt8) : readsb (freshDisk n) = ⟨UInt32.ofNat (n.toNat + 256 * 0), 0, 8⟩ := by
  unfold readsb uint load
  rfl

theorem fresh_zero {a : Nat} (h : 521 ≤ a) (hne : a ≠ 2048) : freshDisk n a = 0 := by
  unfold freshDisk
  rw [if_neg (by omega), if_neg (by omega), if_neg hne]

theorem fresh_inode {k : Nat} (hk : k < 8) :
    (∀ u, (dinode (freshDisk n) k).ref (freshDisk n) u = 0) ∧ (dinode (freshDisk n) k).size = 0 := by
  have hat : inodeAt k = 1024 + 64 * k := by
    rw [inodeAt, bsize, ipb, Nat.div_eq_of_lt hk, Nat.mod_eq_of_lt hk]
    omega
  have huint : ∀ i < 14, uint (freshDisk n) (inodeAt k + 8 + 4 * i) = 0 := by
    intro i hi
    refine uint_zero fun o ho => fresh_zero ?_ ?_
    · omega
    · omega
  have haddrs : ∀ i : Fin 13, (dinode (freshDisk n) k).addrs[i] = 0 := by
    intro i
    have hi := huint (i + 1) (by omega)
    rw [Nat.mul_succ, Nat.add_comm (4 * i.val), ← Nat.add_assoc] at hi
    rw [← hi]
    exact Vector.getElem_ofFn i.isLt
  refine ⟨fun u => ?_, huint 0 (by omega)⟩
  cases u with
  | addr i => exact haddrs i
  | entry j =>
      have hind : (dinode (freshDisk n) k).indirect = 0 := haddrs (Fin.last 12)
      rw [Inode.ref, if_pos hind]

theorem fresh_size (n : UInt8) : (readsb (freshDisk n)).size.toNat = n.toNat := by
  have hn := n.toNat_lt
  rw [readsb_fresh]
  dsimp only
  rw [UInt32.toNat_ofNat']
  omega

theorem fresh_ninodes (n : UInt8) : (readsb (freshDisk n)).ninodes.toNat = 8 := by
  rw [readsb_fresh]
  rfl

theorem fresh_isFree {c : Nat} (hc : c < 4096) : isFree (freshDisk n) c = decide (5 ≤ c) := by
  have hbyte : mapByte (freshDisk n) c = 2048 + c / 8 := by
    rw [mapByte_eq, mapStart, fresh_ninodes]
    rfl
  rw [isFree, hbyte]
  by_cases hlow : c < 8
  · rw [Nat.div_eq_of_lt hlow, show freshDisk n (2048 + 0) = 31 from rfl]
    have hall : ∀ c < 8, ((31 : UInt8) &&& mask c == 0) = decide (5 ≤ c) := by decide
    exact hall c hlow
  · rw [fresh_zero (by omega) (by omega), decide_eq_true (by omega), UInt8.zero_and]
    rfl

theorem fresh_ok (h : 5 ≤ n.toNat) : FsOk (freshDisk n) (dinode (freshDisk n)) := by
  have hlt := n.toNat_lt
  have hn := fresh_ninodes n
  have hsize := fresh_size n
  have hdiv : n.toNat / bpb = 0 := by
    rw [bpb]
    omega
  have hstart : dataStart (freshDisk n) = 5 := by rw [dataStart, mapStart, hn, hsize, hdiv]; rfl
  have hlimit : mapLimit (freshDisk n) = 4096 := by rw [mapLimit, hsize, hdiv]; rfl
  have hnone : ∀ k u c, ¬Has (freshDisk n) (dinode (freshDisk n)) (.file k u) c := by
    rintro k u c ⟨hk, hc, heq⟩
    rw [hn] at hk
    rw [(fresh_inode hk).1] at heq
    exact hc heq.symm
  refine ⟨?_, ⟨fun c => ?_, fun i j c hi hj => ?_⟩, fun k hk u => ?_, fun c hc hfree o ho => ?_, fun k hk => ?_,
    fun k hk bn hbn => ?_⟩
  · rw [hstart, hsize]
    exact h
  · rw [blockFree_iff, hlimit]
    constructor
    · rintro ⟨hc, hfree⟩ i hi
      rw [fresh_isFree hc, decide_eq_true_eq] at hfree
      cases i with
      | low =>
          rw [Has, hstart] at hi
          omega
      | high =>
          rw [Has, hlimit] at hi
          omega
      | file k u => exact hnone k u c hi
    · intro hnobody
      have hlow : ¬c < 5 := by
        have hno := hnobody .low
        rwa [Has, hstart] at hno
      have hhigh : ¬4096 ≤ c := by
        have hno := hnobody .high
        rwa [Has, hlimit] at hno
      refine ⟨Nat.lt_of_not_le hhigh, ?_⟩
      rw [fresh_isFree (Nat.lt_of_not_le hhigh)]
      exact decide_eq_true (Nat.le_of_not_lt hlow)
  · cases i with
    | file k u => exact absurd hi (hnone k u c)
    | low =>
        rw [Has, hstart] at hi
        cases j with
        | low => rfl
        | high =>
            rw [Has, hlimit] at hj
            omega
        | file k u => exact absurd hj (hnone k u c)
    | high =>
        rw [Has, hlimit] at hi
        cases j with
        | high => rfl
        | low =>
            rw [Has, hstart] at hj
            omega
        | file k u => exact absurd hj (hnone k u c)
  · rw [hn] at hk
    rw [(fresh_inode hk).1, hsize]
    exact Nat.lt_of_lt_of_le (Nat.succ_pos 4) h
  · rw [hsize] at hc
    rw [fresh_isFree (by omega), decide_eq_true_eq] at hfree
    rw [bsize] at *
    exact fresh_zero (by omega) (by omega)
  · rw [hn] at hk
    rw [(fresh_inode hk).2]
    exact Nat.zero_le _
  · rw [hn] at hk
    rw [(fresh_inode hk).2] at hbn
    exact absurd hbn (Nat.not_lt_zero _)

end

/-- Inside the bounds and with room `writei` returns. -/
theorem writei_room (h : FsOk d (dinode d)) {o : UInt32} (hinum : inum < (readsb d).ninodes.toNat)
    (hlen : src.length < 2 ^ 32) (hin : o.toNat ≤ (files d inum).length) (hsum : o.toNat + src.length < 2 ^ 32)
    (hroom : Room d (dinode d inum) (touched o.toNat (fitting o.toNat src).length)) :
    ∃ r, writei d inum (dinode d inum) src o = some (some (fitting o.toNat src).length, r) := by
  have hn : (UInt32.ofNat src.length).toNat = src.length := by
    rw [UInt32.toNat_ofNat']
    exact Nat.mod_eq_of_lt hlen
  have hbounds := outOfBounds_iff d inum o (UInt32.ofNat src.length)
  rw [hn] at hbounds
  have hout : ¬(o > (dinode d inum).size ∨ o + UInt32.ofNat src.length < o) := by
    intro hno
    have hno := hbounds.mp hno
    omega
  have hmax := h.size_le inum hinum
  rw [length_files] at hin
  have hfit := length_fitting o.toNat src
  obtain ⟨d1, ip1, hloop⟩ := writeLoop_room h hinum hroom (by omega) (Finset.Subset.refl _)
  rw [writei_eq hlen hout hmax, hloop]
  dsimp only [Option.map_some]
  split
  · exact ⟨_, rfl⟩
  · exact ⟨_, rfl⟩

/-- Three bytes for an inode without blocks. -/
theorem fresh_fitting : (fitting (0 : UInt32).toNat [7, 8, 9]).length = 3 := by
  rw [length_fitting]
  rfl

theorem fresh_room : Room (freshDisk 16) (dinode (freshDisk 16) 1)
    (touched (0 : UInt32).toNat (fitting (0 : UInt32).toNat [7, 8, 9]).length) := by
  have hone : (touched 0 3).card = 1 := by decide
  have hfive : 5 ∈ freeBlocks (freshDisk 16) := by
    rw [mem_freeBlocks, fresh_size, fresh_isFree (by omega)]
    exact ⟨by decide, rfl⟩
  rw [fresh_fitting]
  refine Nat.le_trans (Finset.card_le_card (Finset.filter_subset _ _)) ?_
  rw [show (0 : UInt32).toNat = 0 from rfl, hone]
  exact Finset.card_pos.mpr ⟨5, hfive⟩

theorem fresh_run : ∃ rs d', calls (freshDisk 16) [.write 1 [7, 8, 9] 0] = some (rs, d')
    ∧ ∀ c ∈ [FileCall.write 1 [7, 8, 9] 0], c.Valid (readsb (freshDisk 16)).ninodes.toNat := by
  have hinum : 1 < (readsb (freshDisk 16)).ninodes.toNat := by
    rw [fresh_ninodes]
    omega
  obtain ⟨r, hr⟩ := writei_room (fresh_ok (by decide)) hinum (Nat.le_of_ble_eq_true rfl) (Nat.zero_le _)
    (Nat.le_of_ble_eq_true rfl) fresh_room
  rw [fresh_fitting] at hr
  refine ⟨[.count (some 3)], r.1, ?_, fun c hc => ?_⟩
  · rw [calls, call, hr]
    rfl
  · rw [List.mem_singleton.mp hc]
    exact ⟨hinum, Nat.le_of_ble_eq_true rfl⟩

/-! ## What holds of every run -/

section
variable {cs : List FileCall} {rs : List FileReply} (h : FsOk d (dinode d))
include h

end

end Cs537.Xv6
