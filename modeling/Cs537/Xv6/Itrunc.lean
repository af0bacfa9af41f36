import Cs537.Xv6.Writei
import Mathlib.Data.List.Nodup

/-!
# `itrunc`

`itrunc` frees the blocks of a file one after the other, the indirect block last, when its
entries have been read. None of them is free already, since over a disk in order no block is
named twice; so it does not panic, and what it frees nobody else has.
-/

namespace Cs537.Xv6

open Lib

variable {d d' d'' : Disk} {ino : Nat → Inode} {inum k : Nat} {b : UInt32} {S T : Nat → Prop}

/-- The blocks in `S` have been freed, and zeroed. -/
structure Freed (d d' : Disk) (S : Nat → Prop) : Prop where
  readsb : readsb d' = readsb d
  dinode : ∀ k < (Xv6.readsb d).ninodes.toNat, dinode d' k = dinode d k
  free : ∀ c < mapLimit d, isFree d' c = true ↔ isFree d c = true ∨ S c
  zero : ∀ c, S c → ∀ o < bsize, d' (bsize * c + o) = 0
  data : ∀ c, dataStart d ≤ c → ¬S c → ∀ o < bsize, d' (bsize * c + o) = d (bsize * c + o)

theorem freed_refl (d : Disk) : Freed d d fun _ => False where
  readsb := rfl
  dinode _ _ := rfl
  free _ _ := (iff_of_eq (or_false _)).symm
  zero _ h := h.elim
  data _ _ _ _ _ := rfl

theorem Freed.congr (h : Freed d d' S) (heq : ∀ c, T c ↔ S c) : Freed d d' T := by
  rwa [show T = S from funext fun c => propext (heq c)]

theorem freed_trans (h : Freed d d' S) (h' : Freed d' d'' T)
    (hS : ∀ c, S c → dataStart d ≤ c) (happart : ∀ c, S c → ¬T c) : Freed d d'' fun c => S c ∨ T c where
  readsb := h'.readsb.trans h.readsb
  dinode k hk := by
    rw [h'.dinode k (by rw [h.readsb]; exact hk), h.dinode k hk]
  free c hc := by
    rw [h'.free c (by rw [mapLimit_congr h.readsb]; exact hc), h.free c hc, or_assoc]
  zero c hc o ho := by
    rcases hc with hc | hc
    · rw [h'.data c (by rw [dataStart_congr h.readsb]; exact hS c hc) (happart c hc) o ho]
      exact h.zero c hc o ho
    · exact h'.zero c hc o ho
  data c hc hno o ho := by
    obtain ⟨hnS, hnT⟩ := not_or.mp hno
    rw [h'.data c (by rw [dataStart_congr h.readsb]; exact hc) hnT o ho, h.data c hc hnS o ho]

/-- A block for files that is marked as used. -/
def InUse (d : Disk) (c : Nat) : Prop := dataStart d ≤ c ∧ c < (readsb d).size.toNat ∧ isFree d c = false

/-- `bfree` of one of these does not panic. -/
theorem bfree_freed (hb : InUse d b.toNat) : ∃ d', bfree d b = some d' ∧ Freed d d' fun c => c = b.toNat := by
  obtain ⟨hge, hlt, hused⟩ := hb
  have hlimit := Nat.lt_trans hlt (size_lt_mapLimit d)
  have hlen : (List.replicate bsize (0 : UInt8)).length = bsize := List.length_replicate
  have hz : DataStore d (bzero d b.toNat) b.toNat := dataStore (o := 0) hge (by rw [hlen, Nat.zero_add])
  have hlimit' : b.toNat < mapLimit (bzero d b.toNat) := by
    rw [mapLimit_congr hz.readsb]
    exact hlimit
  have hm := mapStore hlimit' (bzero d b.toNat (mapByte (bzero d b.toNat) b.toNat) &&& ~~~mask b.toNat)
  have hzero : ∀ o < bsize, bzero d b.toNat (bsize * b.toNat + o) = 0 := by
    intro o ho
    have hget : (List.replicate bsize (0 : UInt8))[o]? = some 0 := by
      rw [List.getElem?_replicate, if_pos ho]
    unfold bzero store
    rw [if_pos (Nat.le_add_right _ _), Nat.add_sub_cancel_left, hget]
    rfl
  have hkeep : ∀ c, dataStart d ≤ c → ∀ o, bsize * dataStart (bzero d b.toNat) ≤ bsize * c + o := by
    intro c hc o
    rw [dataStart_congr hz.readsb]
    exact Nat.le_trans (Nat.mul_le_mul_left _ hc) (Nat.le_add_right _ _)
  refine ⟨_, ?_, hm.readsb.trans hz.readsb, fun k hk => ?_, fun c hc => ?_, fun c hc o ho => ?_, fun c hc hne o ho => ?_⟩
  · rw [bfree, if_pos (onDisk_iff.mpr hlt)]
    dsimp only
    rw [hz.isFree _ hlimit, hused, if_neg Bool.false_ne_true]
  · rw [hm.dinode k (by rw [hz.readsb]; exact hk), hz.dinode k hk]
  · rw [isFree_clear, hz.isFree c hc, Bool.or_eq_true, decide_eq_true_eq]
  · rw [hc, hm.data _ (hkeep _ hge o)]
    exact hzero o ho
  · rw [hm.data _ (hkeep c hc o), hz.data c o hne ho]

/-- The addresses of a list, as blocks. -/
def Among (l : List UInt32) (c : Nat) : Prop := ∃ a ∈ l, a ≠ 0 ∧ a.toNat = c

theorem freeAll_freed {l : List UInt32} (hall : ∀ a ∈ l, a ≠ 0 → InUse d a.toNat)
    (hdistinct : l.Pairwise fun a a' => a ≠ 0 → a ≠ a') : ∃ d', freeAll d l = some d' ∧ Freed d d' (Among l) := by
  induction l generalizing d with
  | nil =>
      refine ⟨d, rfl, (freed_refl d).congr fun c => iff_of_false ?_ id⟩
      rintro ⟨a, ha, -⟩
      cases ha
  | cons a l ih =>
      obtain ⟨hne, hdistinct⟩ := List.pairwise_cons.mp hdistinct
      have hrest : ∀ a' ∈ l, a' ≠ 0 → InUse d a'.toNat := fun a' ha' => hall a' (List.mem_cons_of_mem _ ha')
      have hcons : ∀ c, Among (a :: l) c ↔ (a ≠ 0 ∧ a.toNat = c) ∨ Among l c := by
        intro c
        simp only [Among, List.mem_cons, or_and_right, exists_or, exists_eq_left]
      by_cases hz : a = 0
      · obtain ⟨d', hd', hf⟩ := ih hrest hdistinct
        refine ⟨d', ?_, hf.congr fun c => ?_⟩
        · rw [freeAll, if_pos hz, hd']
        · rw [hcons, or_iff_right fun hno => hno.1 hz]
      · have hfirst := hall a (List.mem_cons_self ..) hz
        obtain ⟨d1, hd1, hf1⟩ := bfree_freed hfirst
        have hrest1 : ∀ a' ∈ l, a' ≠ 0 → InUse d1 a'.toNat := by
          intro a' ha' hz'
          obtain ⟨hge, hlt, hused⟩ := hrest a' ha' hz'
          refine ⟨by rw [dataStart_congr hf1.readsb]; exact hge, by rw [hf1.readsb]; exact hlt, ?_⟩
          rw [Bool.eq_false_iff, ne_eq, hf1.free _ (Nat.lt_trans hlt (size_lt_mapLimit d)), hused]
          rintro (hno | hno)
          · cases hno
          · exact hne a' ha' hz (UInt32.toNat_inj.mp hno).symm
        obtain ⟨d2, hd2, hf2⟩ := ih hrest1 hdistinct
        refine ⟨d2, ?_, (freed_trans hf1 hf2 ?_ ?_).congr fun c => ?_⟩
        · rw [freeAll, if_neg hz, hd1]
          exact hd2
        · rintro c rfl
          exact hfirst.1
        · rintro c rfl ⟨a', ha', -, heq⟩
          exact hne a' ha' hz (UInt32.toNat_inj.mp heq).symm
        · rw [hcons, and_iff_right hz, eq_comm (a := c)]

/-! ## All blocks of a file -/

/-- The blocks that the file names. -/
def Names (d : Disk) (ip : Inode) (c : Nat) : Prop := ∃ u, ip.ref d u ≠ 0 ∧ (ip.ref d u).toNat = c

section
variable (h : FsOk d ino) (hinum : inum < (readsb d).ninodes.toNat)
include h hinum

theorem FsOk.inUse {u : Use} (hu : (ino inum).ref d u ≠ 0) : InUse d ((ino inum).ref d u).toNat :=
  ⟨(h.named hinum hu).1, h.inside inum hinum u, (h.named hinum hu).2⟩

/-- A list of places that are different names different blocks. -/
theorem FsOk.distinct {us : List Use} (hus : us.Nodup) :
    (us.map fun u => (ino inum).ref d u).Pairwise fun a a' => a ≠ 0 → a ≠ a' := by
  refine List.pairwise_map.mpr (hus.imp fun {u v} huv hu heq => huv ?_)
  exact (h.ref_inj hinum hinum hu heq.symm).2.symm

end

theorem direct_eq (ip : Inode) (d : Disk) : ip.addrs.toList.take ndirect
    = ((List.finRange 12).map fun i => Use.addr i.castSucc).map fun u => ip.ref d u := by
  refine List.ext_getElem? fun i => ?_
  rcases Nat.lt_or_ge i 12 with hi | hi
  · have hlen : i < ip.addrs.toList.length := by
      rw [Vector.length_toList]
      omega
    rw [List.getElem?_take_of_lt (show i < ndirect from hi), List.getElem?_eq_getElem hlen, Vector.getElem_toList, List.getElem?_map,
      List.getElem?_map, List.getElem?_eq_getElem (by rw [List.length_finRange]; exact hi), List.getElem_finRange]
    rfl
  · rw [List.getElem?_eq_none (by rw [List.length_take, ndirect]; omega),
      List.getElem?_eq_none (by rw [List.length_map, List.length_map, List.length_finRange]; exact hi)]

theorem entries_eq {ip : Inode} (hind : ip.indirect ≠ 0)
    (hdata : ∀ o < bsize, d' (bsize * ip.indirect.toNat + o) = d (bsize * ip.indirect.toNat + o)) :
    ((List.range nindirect).map fun j => uint d' (entry ip.indirect j))
      = ((List.finRange 128).map Use.entry).map fun u => ip.ref d u := by
  rw [List.map_map]
  refine List.ext_getElem (by rw [List.length_map, List.length_map, List.length_range, List.length_finRange]; rfl) fun j h1 h2 => ?_
  rw [List.getElem_map, List.getElem_range, List.getElem_map, List.getElem_finRange, Function.comp, Inode.ref, if_neg hind]
  exact entry_congr hdata (j := ⟨j, _⟩)

/-- All places of an inode, in the order in which `itrunc` goes through them. -/
def places : List Use :=
  (List.finRange 12).map (fun i => Use.addr i.castSucc) ++ ((List.finRange 128).map Use.entry ++ [.addr (Fin.last 12)])

theorem mem_places (u : Use) : u ∈ places := by
  unfold places
  rw [List.mem_append, List.mem_append, List.mem_map, List.mem_map, List.mem_singleton]
  cases u with
  | entry j => exact Or.inr (Or.inl ⟨j, List.mem_finRange j, rfl⟩)
  | addr i =>
      induction i using Fin.lastCases with
      | last => exact Or.inr (Or.inr rfl)
      | cast i => exact Or.inl ⟨i, List.mem_finRange i, rfl⟩

theorem places_nodup : places.Nodup := by
  refine List.nodup_append.mpr ⟨?_, List.nodup_append.mpr ⟨?_, List.pairwise_singleton _ _, ?_⟩, ?_⟩
  · refine List.Nodup.map (fun i j hij => ?_) (List.nodup_finRange 12)
    injection hij with hij
    exact Fin.castSucc_injective 12 hij
  · refine List.Nodup.map (fun i j hij => ?_) (List.nodup_finRange 128)
    injection hij
  · intro u hu v hv huv
    obtain ⟨j, -, rfl⟩ := List.mem_map.mp hu
    rw [List.mem_singleton.mp hv] at huv
    cases huv
  · intro u hu v hv huv
    obtain ⟨i, -, rfl⟩ := List.mem_map.mp hu
    rw [← huv, List.mem_append, List.mem_map, List.mem_singleton] at hv
    rcases hv with ⟨j, -, hj⟩ | hv
    · cases hj
    · injection hv with hv
      exact absurd (congrArg Fin.val hv) (Nat.ne_of_lt i.isLt)

theorem freeAll_append (d : Disk) (l l' : List UInt32) :
    freeAll d (l ++ l') = (freeAll d l).bind fun d => freeAll d l' := by
  induction l generalizing d with
  | nil => rfl
  | cons a l ih =>
      rw [List.cons_append, freeAll, freeAll]
      by_cases hz : a = 0
      · rw [if_pos hz, if_pos hz, ih]
      · rw [if_neg hz, if_neg hz]
        cases bfree d a with
        | none => rfl
        | some d1 => exact ih d1

theorem freeAll_zeros (d : Disk) {l : List UInt32} (hl : ∀ a ∈ l, a = 0) : freeAll d l = some d := by
  induction l with
  | nil => rfl
  | cons a l ih =>
      rw [freeAll, if_pos (hl a (List.mem_cons_self ..))]
      exact ih fun a' ha' => hl a' (List.mem_cons_of_mem _ ha')

/-- The inode that `itrunc` leaves. -/
def truncated (ip : Inode) : Inode := { ip with addrs := Vector.replicate 13 0, size := 0 }

theorem ref_truncated (d : Disk) (ip : Inode) (u : Use) : (truncated ip).ref d u = 0 := by
  cases u with
  | addr i => exact Vector.getElem_replicate i.isLt
  | entry j =>
      have hind : (truncated ip).indirect = 0 := Vector.getElem_replicate (Nat.lt_succ_self 12)
      rw [Inode.ref, if_pos hind]

/-- What `itrunc` does before it writes the inode. -/
theorem itrunc_freed (h : FsOk d ino) (hinum : inum < (readsb d).ninodes.toNat) :
    ∃ d', itrunc d inum (ino inum) = some (iupdate d' inum (truncated (ino inum)), truncated (ino inum))
      ∧ Freed d d' (Names d (ino inum)) := by
  have hall : ∀ a ∈ places.map fun u => (ino inum).ref d u, a ≠ 0 → InUse d a.toNat := by
    intro a ha hz
    obtain ⟨u, -, rfl⟩ := List.mem_map.mp ha
    exact h.inUse hinum hz
  obtain ⟨d3, hd3, hf⟩ := freeAll_freed hall (h.distinct hinum places_nodup)
  have hnames : ∀ c, Names d (ino inum) c ↔ Among (places.map fun u => (ino inum).ref d u) c := by
    intro c
    constructor
    · rintro ⟨u, hu, hc⟩
      exact ⟨_, List.mem_map.mpr ⟨u, mem_places u, rfl⟩, hu, hc⟩
    · rintro ⟨a, ha, hz, hc⟩
      obtain ⟨u, -, rfl⟩ := List.mem_map.mp ha
      exact ⟨u, hz, hc⟩
  refine ⟨d3, ?_, hf.congr hnames⟩
  rw [places, List.map_append, ← direct_eq, freeAll_append] at hd3
  obtain ⟨d1, hd1, hd3⟩ := Option.bind_eq_some_iff.mp hd3
  rw [itrunc, hd1]
  dsimp only
  by_cases hind : (ino inum).indirect = 0
  · rw [freeAll_zeros] at hd3
    · cases hd3
      rw [if_pos hind]
      rfl
    · intro a ha
      obtain ⟨u, hu, rfl⟩ := List.mem_map.mp ha
      rcases List.mem_append.mp hu with hu | hu
      · obtain ⟨j, -, rfl⟩ := List.mem_map.mp hu
        exact if_pos hind
      · rw [List.mem_singleton.mp hu]
        exact hind
  · -- the indirect block is not among the first twelve, and is as it was
    have hind' : (ino inum).ref d (.addr (Fin.last 12)) ≠ 0 := hind
    have hus : ((List.finRange 12).map fun i => Use.addr i.castSucc).Nodup := (List.nodup_append.mp places_nodup).1
    obtain ⟨d1', hd1', hf1⟩ := freeAll_freed (d := d) (l := (ino inum).addrs.toList.take ndirect) (by
      intro a ha hz
      rw [direct_eq (ino inum) d] at ha
      obtain ⟨u, -, rfl⟩ := List.mem_map.mp ha
      exact h.inUse hinum hz) (by
      rw [direct_eq (ino inum) d]
      exact h.distinct hinum hus)
    rw [hd1] at hd1'
    cases hd1'
    have hapart : ¬Among ((ino inum).addrs.toList.take ndirect) (ino inum).indirect.toNat := by
      rintro ⟨a, ha, -, heq⟩
      rw [direct_eq (ino inum) d] at ha
      obtain ⟨u, hu, rfl⟩ := List.mem_map.mp ha
      obtain ⟨i, -, rfl⟩ := List.mem_map.mp hu
      have hsame := (h.ref_inj hinum hinum hind' (UInt32.toNat_inj.mp heq)).2
      injection hsame with hsame
      exact absurd (congrArg Fin.val hsame) (Nat.ne_of_lt i.isLt)
    have hdisk : OnDisk d1 (ino inum).indirect := by
      rw [onDisk_iff, hf1.readsb]
      exact h.inside inum hinum (.addr (Fin.last 12))
    have hentries := entries_eq hind (hf1.data _ (h.named hinum hind').1 hapart)
    rw [List.map_append, freeAll_append] at hd3
    obtain ⟨d2, hd2, hd3⟩ := Option.bind_eq_some_iff.mp hd3
    rw [if_neg hind, if_pos hdisk, hentries, hd2]
    dsimp only
    have hlast : freeAll d2 [(ino inum).indirect] = some d3 := hd3
    rw [freeAll, if_neg hind] at hlast
    cases hb : bfree d2 (ino inum).indirect with
    | none =>
        rw [hb] at hlast
        cases hlast
    | some d4 =>
        rw [hb] at hlast
        cases hlast
        rfl

/-- `itrunc` does not panic; the file is empty then, its blocks are free, and the other files are as before. -/
theorem itrunc_became (h : FsOk d (dinode d)) (hinum : inum < (readsb d).ninodes.toNat) :
    ∃ d', itrunc d inum (dinode d inum) = some (d', truncated (dinode d inum))
      ∧ Became d d' inum (truncated (dinode d inum)) []
      ∧ ∀ c < mapLimit d, isFree d' c = true ↔ isFree d c = true ∨ Names d (dinode d inum) c := by
  obtain ⟨d1, hd1, hf⟩ := itrunc_freed h hinum
  have hinum1 : inum < (readsb d1).ninodes.toNat := by
    rw [hf.readsb]
    exact hinum
  -- no other file has one of the blocks
  have hothers : ∀ k < (readsb d).ninodes.toNat, k ≠ inum → ∀ u, (dinode d k).ref d u ≠ 0 →
      ¬Names d (dinode d inum) ((dinode d k).ref d u).toNat := by
    rintro k hk hne u hu ⟨v, hv, heq⟩
    exact hne (h.ref_inj hinum hk hv (UInt32.toNat_inj.mp heq).symm).1
  have hrefs : ∀ k < (readsb d).ninodes.toNat, k ≠ inum → ∀ u, (dinode d k).ref d1 u = (dinode d k).ref d u := by
    intro k hk hne u
    refine ref_congr rfl fun hz o ho => ?_
    have hz : (dinode d k).ref d (.addr (Fin.last 12)) ≠ 0 := hz
    exact hf.data _ (h.named hk hz).1 (hothers k hk hne _ hz) o ho
  have hok : FsOk d1 (Function.update (dinode d) inum (truncated (dinode d inum))) := by
    refine ⟨?_, ?_, fun k hk u => ?_, fun c hc hcfree o ho => ?_, fun k hk => ?_, fun k hk bn hbn => ?_⟩
    · rw [dataStart_congr hf.readsb, hf.readsb]
      exact h.fits
    · refine h.pool.release (S := fun i => ∃ u, i = .file inum u) (fun c => ?_) fun i c => ?_
      · rw [blockFree_iff, blockFree_iff, mapLimit_congr hf.readsb]
        constructor
        · rintro ⟨hc, hfree⟩
          rcases (hf.free c hc).mp hfree with hfree | ⟨u, hu, heq⟩
          · exact Or.inl ⟨hc, hfree⟩
          · exact Or.inr ⟨_, ⟨u, rfl⟩, hinum, by rw [← heq]; exact toNat_ne_zero.mpr hu, heq⟩
        · rintro (⟨hc, hfree⟩ | ⟨_, ⟨u, rfl⟩, -, hz, heq⟩)
          · exact ⟨hc, (hf.free c hc).mpr (Or.inl hfree)⟩
          · have hlt := h.inside inum hinum u
            rw [heq] at hlt
            have hc := Nat.lt_trans hlt (size_lt_mapLimit d)
            refine ⟨hc, (hf.free c hc).mpr (Or.inr ⟨u, toNat_ne_zero.mp ?_, heq⟩)⟩
            rw [heq]
            exact hz
      · cases i with
        | low =>
            rw [Has, Has, dataStart_congr hf.readsb]
            exact (and_iff_left (by rintro ⟨u, hu⟩; cases hu)).symm
        | high =>
            rw [Has, Has, mapLimit_congr hf.readsb]
            exact (and_iff_left (by rintro ⟨u, hu⟩; cases hu)).symm
        | file k u =>
            rw [Has, Has, hf.readsb]
            by_cases hki : k = inum
            · subst hki
              refine iff_of_false ?_ fun hno => hno.2 ⟨u, rfl⟩
              rintro ⟨-, hc, heq⟩
              rw [Function.update_self, ref_truncated] at heq
              exact hc heq.symm
            · have hno : ¬∃ v, Holder.file k u = .file inum v := by
                rintro ⟨v, hv⟩
                injection hv with hv
                exact hki hv
              rw [and_iff_left hno, Function.update_of_ne hki]
              refine and_congr_right fun hk => ?_
              rw [hrefs k hk hki]
    · rw [hf.readsb] at hk ⊢
      by_cases hki : k = inum
      · rw [hki, Function.update_self, ref_truncated]
        exact Nat.lt_of_lt_of_le (dataStart_pos d) h.fits
      · rw [Function.update_of_ne hki, hrefs k hk hki]
        exact h.inside k hk u
    · rw [hf.readsb] at hc
      by_cases hS : Names d (dinode d inum) c
      · exact hf.zero c hS o ho
      · rw [hf.free c (Nat.lt_trans hc (size_lt_mapLimit d)), or_iff_left hS] at hcfree
        rw [hf.data c (h.free_ge hc hcfree) hS o ho]
        exact h.clean c hc hcfree o ho
    · rw [hf.readsb] at hk
      by_cases hki : k = inum
      · rw [hki, Function.update_self]
        exact Nat.zero_le _
      · rw [Function.update_of_ne hki]
        exact h.size_le k hk
    · rw [hf.readsb] at hk
      by_cases hki : k = inum
      · rw [hki, Function.update_self] at hbn
        exact absurd hbn (Nat.not_lt_zero _)
      · rw [Function.update_of_ne hki] at hbn ⊢
        rw [hrefs k hk hki]
        exact h.mapped k hk bn hbn
  have hok' := fsOk_iupdate hok hinum1 (truncated (dinode d inum))
  have hsb := (readsb_iupdate d1 inum (truncated (dinode d inum))).trans hf.readsb
  have hsame : ∀ k < (readsb d).ninodes.toNat, k ≠ inum →
      dinode (iupdate d1 inum (truncated (dinode d inum))) k = dinode d k := by
    intro k hk hne
    rw [dinode_iupdate_ne hne, hf.dinode k hk]
  refine ⟨_, hd1, ⟨hok'.inodes fun k hk => ?_, hsb, dinode_iupdate .., rfl, ?_, fun k hk hne => ⟨hsame k hk hne, ?_⟩⟩,
    fun c hc => ?_⟩
  · rw [hsb] at hk
    by_cases hki : k = inum
    · rw [hki, dinode_iupdate, Function.update_self]
    · rw [hsame k hk hki, Function.update_of_ne hki]
  · unfold contents load
    rfl
  · have hbytes : byteAt (iupdate d1 inum (truncated (dinode d inum))) (dinode d k) = byteAt d (dinode d k) := by
      have hwrite := byteAt_iupdate hok hinum1 (truncated (dinode d inum)) (k := k) (by rw [hf.readsb]; exact hk)
      rw [Function.update_of_ne hne] at hwrite
      rw [hwrite]
      funext o
      unfold byteAt Inode.block
      by_cases hbn : o / bsize < maxfile
      · rw [if_pos hbn, if_pos hbn, hrefs k hk hne]
        by_cases hz : (dinode d k).ref d (useOf (o / bsize)) = 0
        · rw [if_pos hz, if_pos hz]
        · rw [if_neg hz, if_neg hz]
          exact hf.data _ (h.named hk hz).1 (hothers k hk hne _ hz) _ (Nat.mod_lt _ (Nat.succ_pos _))
      · rw [if_neg hbn, if_neg hbn]
        rfl
    rw [hsame k hk hne, contents, hbytes]
    rfl
  · rw [isFree_iupdate hinum1]
    exact hf.free c hc

end Cs537.Xv6
