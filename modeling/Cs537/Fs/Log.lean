import Cs537.Fs.Model
import Mathlib.Logic.Function.Basic

/-!
# The log: what is stored stays

Three facts carry the whole file system. Everything the checkpoint reaches lies
between the checkpoint region and `endPtr` (`LogInv`). Nothing that is ever written
goes below `endPtr` (`Grows`). So a pointer that was good stays good and still
leads to the same bytes (`Keeps`).

From these follows what `insertINode` and the end of `deleteINode` do to the map
from inode numbers to inodes: they change one entry of it.

Appending stops being correct when `endPtr` wraps. The results below assume that
the file is shorter than 2^31 bytes afterwards, which excludes that.
-/

namespace Cs537.Fs

open Lib

variable {env : Env} {s s' s'' : State} {i j p : Int32} {n : Nat}

/-! ## Inode numbers -/

/-- The inode numbers there are. -/
def Inum (i : Int32) : Prop := 0 ≤ i.toInt ∧ i.toInt < 4096

instance (i : Int32) : Decidable (Inum i) := inferInstanceAs (Decidable (_ ∧ _))

theorem Inum.mapNum (h : Inum i) : 0 ≤ (getIMapNum i).toInt ∧ (getIMapNum i).toInt < 256 := by
  obtain ⟨h0, h1⟩ := h
  rw [getIMapNum, toInt_shiftRight_four]
  omega

theorem Inum.indexNum (h : Inum i) :
    0 ≤ (getMapIndexNum i).toInt ∧ (getMapIndexNum i).toInt < 16 := by
  obtain ⟨h0, h1⟩ := h
  rw [getMapIndexNum, toInt_and_fifteen h0]
  omega

/-- Two numbers with the same map and the same place in it are the same. -/
theorem Inum.eq_of_place (hi : Inum i) (hj : Inum j) (hm : getIMapNum i = getIMapNum j)
    (hx : getMapIndexNum i = getMapIndexNum j) : i = j := by
  have hm' := congrArg Int32.toInt hm
  have hx' := congrArg Int32.toInt hx
  rw [getIMapNum, getIMapNum, toInt_shiftRight_four, toInt_shiftRight_four] at hm'
  rw [getMapIndexNum, getMapIndexNum, toInt_and_fifteen hi.1, toInt_and_fifteen hj.1] at hx'
  exact Int32.toInt_inj.mp (by omega)

theorem inum_ofNat {k : Nat} (h : k < 4096) : Inum (Int32.ofNat k) := by
  unfold Inum
  rw [toInt_ofNat_of_range (by omega)]
  omega

/-! ## Reading the log -/

/-- The bytes of the image from a pointer on. -/
def State.bytes (s : State) (p : Int32) (n : Nat) : List UInt8 := load s.disk.file.data p.toInt.toNat n

/-- Where the inode of `i` is, or -1. -/
def State.entry (s : State) (i : Int32) : Int32 :=
  if getAt s.cp.mapPtrs (getIMapNum i) = 0 then -1
  else getAt (IMap.decode (s.bytes (getAt s.cp.mapPtrs (getIMapNum i)) 64)).ptr (getMapIndexNum i)

/-- The inode of `i`. -/
def State.inode (s : State) (i : Int32) : Option INode :=
  if Inum i ∧ s.entry i ≠ -1 then some (INode.decode (s.bytes (s.entry i) 64)) else none

/-- The same state with another file position. -/
def State.seek (s : State) (q : Nat) : State := { s with disk := { s.disk with pos := q } }

@[simp] theorem seek_cp (q : Nat) : (s.seek q).cp = s.cp := rfl
@[simp] theorem seek_file (q : Nat) : (s.seek q).disk.file = s.disk.file := rfl
@[simp] theorem seek_bytes (q : Nat) : (s.seek q).bytes = s.bytes := rfl
@[simp] theorem seek_inode (q : Nat) : (s.seek q).inode = s.inode := rfl
@[simp] theorem seek_seek (q r : Nat) : (s.seek q).seek r = s.seek r := rfl

/-- Nothing but the file position has changed. -/
def Moved (s s' : State) : Prop := ∃ q, s' = s.seek q

theorem Moved.trans (h1 : Moved s s') (h2 : Moved s' s'') : Moved s s'' := by
  obtain ⟨q, rfl⟩ := h1
  obtain ⟨r, rfl⟩ := h2
  exact ⟨r, rfl⟩

theorem Moved.outcomes (h : Moved s s') : s'.disk.outcomes = s.disk.outcomes := by
  obtain ⟨q, rfl⟩ := h
  rfl

/-- The `n` bytes at `p` are in the log. -/
structure Stored (s : State) (p : Int32) (n : Nat) : Prop where
  start : 1028 ≤ p.toInt
  fits : p.toInt + n ≤ s.cp.endPtr.toInt
  present : p.toInt + n ≤ s.disk.file.len

@[simp] theorem seek_stored (q : Nat) : Stored (s.seek q) p n ↔ Stored s p n :=
  ⟨fun h => ⟨h.start, h.fits, h.present⟩, fun h => ⟨h.start, h.fits, h.present⟩⟩

/-- Everything the checkpoint reaches is in the log. -/
structure LogInv (s : State) : Prop where
  /-- System calls succeed. -/
  done : s.disk.outcomes = []
  /-- The log begins after the checkpoint region. -/
  start : 1028 ≤ s.cp.endPtr.toInt
  maps : ∀ i, Inum i → getAt s.cp.mapPtrs (getIMapNum i) ≠ 0 →
    Stored s (getAt s.cp.mapPtrs (getIMapNum i)) 64
  nodes : ∀ i, Inum i → s.entry i ≠ -1 → Stored s (s.entry i) 64
  blocks : ∀ i nd, s.inode i = some nd → ∀ b, nd.dataPtrs b ≠ -1 → Stored s (nd.dataPtrs b) 4096

theorem LogInv.seek (h : LogInv s) (q : Nat) : LogInv (s.seek q) where
  done := h.done
  start := h.start
  maps i hi hm := (seek_stored q).mpr (h.maps i hi hm)
  nodes i hi he := (seek_stored q).mpr (h.nodes i hi he)
  blocks i nd hn b hb := (seek_stored q).mpr (h.blocks i nd hn b hb)

theorem inode_eq_some {nd : INode} (h : s.inode i = some nd) :
    Inum i ∧ s.entry i ≠ -1 ∧ INode.decode (s.bytes (s.entry i) 64) = nd := by
  unfold State.inode at h
  split at h
  · rename_i hc
    exact ⟨hc.1, hc.2, Option.some.inj h⟩
  · cases h

theorem logInv_blank : LogInv (State.blank []) := by
  have hmap : ∀ i, getAt (State.blank []).cp.mapPtrs (getIMapNum i) = 0 := by
    intro i
    unfold getAt
    split <;> rfl
  have hentry : ∀ i, (State.blank []).entry i = -1 := fun i => if_pos (hmap i)
  refine ⟨rfl, by decide, fun i _ hm => absurd (hmap i) hm, fun i _ he => absurd (hentry i) he, ?_⟩
  intro i nd hn
  exact absurd (hentry i) (inode_eq_some hn).2.1

/-! ## System calls that succeed -/

theorem next_done {d : Disk} (hd : d.outcomes = []) : d.next = (.done, d) := by
  unfold Disk.next
  rw [hd]

theorem lseek_done {d : Disk} (hd : d.outcomes = []) (hp : 0 ≤ p.toInt) :
    lseek p d = (p.toInt, { d with pos := p.toInt.toNat }) := by
  have hneg : ¬p < 0 := by
    rw [Int32.lt_iff_toInt_lt]
    exact Int.not_lt.mpr hp
  rw [lseek, next_done hd]
  exact if_neg hneg

/-- Whether it succeeds or not, `lseek` only moves the position. -/
theorem lseek_pos {d : Disk} (hd : d.outcomes = []) (p : Int32) :
    ∃ q, (lseek p d).2 = { d with pos := q } := by
  rw [lseek, next_done hd]
  by_cases hp : p < 0
  · exact ⟨d.pos, by dsimp only; rw [if_pos hp]⟩
  · exact ⟨p.toInt.toNat, by dsimp only; rw [if_neg hp]⟩

theorem read_pos (n : Nat) (old : List UInt8) (d : Disk) :
    ∃ c : Nat, ∃ bs q, read n old d = ((c : Int), bs, { d with pos := q }) :=
  ⟨_, _, _, rfl⟩

/-- A buffer has the same length after a read. -/
theorem length_read {old : List UInt8} (d : Disk) (h : old.length = n) :
    (read n old d).2.1.length = n := by
  show (d.file.pread d.pos n ++ old.drop (d.file.pread d.pos n).length).length = n
  have hle : (d.file.pread d.pos n).length ≤ n := by
    unfold File.pread
    rw [length_load]
    exact Nat.min_le_left _ _
  rw [List.length_append, List.length_drop]
  omega

/-- A read from the log fills the whole buffer. -/
theorem read_at (h : Stored s p n) {old : List UInt8} (hold : old.length = n) :
    read n old (s.seek p.toInt.toNat).disk
      = ((n : Int), s.bytes p n, (s.seek (p.toInt.toNat + n)).disk) := by
  have hs := h.start
  have hp := h.present
  have hread : s.disk.file.pread p.toInt.toNat n = s.bytes p n :=
    File.pread_of_le (by omega)
  have hlen : (s.bytes p n).length = n := length_load _ _ _
  rw [read]
  dsimp only [State.seek]
  rw [hread, hlen, List.drop_of_length_le (by omega), List.append_nil]

theorem read_stored (h : Stored s p n) (hd : s.disk.outcomes = []) {old : List UInt8}
    (hold : old.length = n) :
    read n old (lseek p s.disk).2
      = ((n : Int), s.bytes p n, (s.seek (p.toInt.toNat + n)).disk) := by
  have hs := h.start
  rw [lseek_done hd (by omega)]
  exact read_at h hold

theorem write_done {d : Disk} (hd : d.outcomes = []) (bs : List UInt8) :
    write bs d = ((bs.length : Int), d.put bs) := by
  rw [write, next_done hd]

/-! ## The file never shrinks -/

theorem next_file (d : Disk) : d.next.2.file = d.file := by
  unfold Disk.next
  split <;> rfl

theorem lseek_file (p : Int32) (d : Disk) : (lseek p d).2.file = d.file := by
  have hf := next_file d
  unfold lseek
  split
  · rename_i hn; rw [hn] at hf; exact hf
  · rename_i hn
    rw [hn] at hf
    split <;> exact hf

theorem write_len_le (bs : List UInt8) (d : Disk) : d.file.len ≤ (write bs d).2.file.len := by
  have hf := next_file d
  unfold write
  split <;> rename_i hn <;> rw [hn] at hf <;> rw [← hf]
  · exact Nat.le_max_left _ _
  · exact Nat.le_max_left _ _

theorem writeToEnd_len_le (bs : List UInt8) (s : State) :
    s.disk.file.len ≤ (writeToEnd bs s).2.disk.file.len := by
  have hw := write_len_le bs (lseek s.cp.endPtr s.disk).2
  rw [lseek_file] at hw
  unfold writeToEnd
  dsimp only
  split
  · rw [lseek_file]
  · split <;> exact hw

theorem getIMap_file (env : Env) (i : Int32) (map : IMap) (s : State) :
    (getIMap env i map s).2.2.disk.file = s.disk.file := by
  unfold getIMap
  dsimp only
  split
  · rfl
  · split <;> exact lseek_file _ _

/-- The checkpoint points to a map for `i` that is about to be written. -/
def State.repoint (s : State) (i : Int32) : State :=
  { s with cp := { s.cp with mapPtrs := setAt s.cp.mapPtrs (getIMapNum i) s.cp.endPtr } }

theorem putIMap_len_le (map : IMap) (i ptr : Int32) (s : State) :
    s.disk.file.len ≤ (putIMap map i ptr s).2.disk.file.len :=
  writeToEnd_len_le (IMap.encode ⟨setAt map.ptr (getMapIndexNum i) ptr⟩) (s.repoint i)

/-- What `insertINode` writes first is still there at its end. -/
theorem insertINode_len_le (env : Env) (node : INode) (i : Int32) (s : State) :
    (writeToEnd node.encode s).2.disk.file.len ≤ (insertINode env node i s).2.disk.file.len := by
  rw [insertINode]
  rcases writeToEnd node.encode s with ⟨status, s1⟩
  dsimp only
  split
  · exact Nat.le_refl _
  · -- `getIMap` writes nothing, and `putIMap` appends
    have hf := getIMap_file env i env.map s1
    rcases hget : getIMap env i env.map s1 with ⟨r, m, s2⟩
    have hle := putIMap_len_le (if r = -1 then ⟨fun _ => -1⟩ else m) i s.cp.endPtr s2
    dsimp only
    rcases hput : putIMap (if r = -1 then ⟨fun _ => -1⟩ else m) i s.cp.endPtr s2 with ⟨status, s3⟩
    rw [hget] at hf
    rw [hput, hf] at hle
    split <;> exact hle

/-! ## Appending -/

/-- `bs` at the end of the log. -/
def State.append (s : State) (bs : List UInt8) : State :=
  { cp := { s.cp with endPtr := s.cp.endPtr + Int32.ofNat bs.length }
    disk := ({ s.disk with pos := s.cp.endPtr.toInt.toNat } : Disk).put bs }

theorem writeToEnd_eq (hd : s.disk.outcomes = []) (hs : 0 ≤ s.cp.endPtr.toInt) (bs : List UInt8) :
    writeToEnd bs s = ((bs.length : Int), s.append bs) := by
  have hlen : ¬((bs.length : Int) < 0) := by omega
  rw [writeToEnd, lseek_done hd hs]
  dsimp only
  rw [if_neg (by omega), write_done (by exact hd)]
  dsimp only
  rw [if_neg hlen]
  rfl

/-- `s'` is `s` with more of the log written. -/
structure Grows (s s' : State) : Prop where
  outcomes : s'.disk.outcomes = s.disk.outcomes
  end_le : s.cp.endPtr.toInt ≤ s'.cp.endPtr.toInt
  len_le : s.disk.file.len ≤ s'.disk.file.len
  below : ∀ x : Nat, (x : Int) < s.cp.endPtr.toInt → x < s.disk.file.len →
    s'.disk.file.data x = s.disk.file.data x
  /-- All that was written went above the old end. -/
  journal : ∃ ws, s'.disk.journal = s.disk.journal ++ ws ∧ ∀ w ∈ ws, s.cp.endPtr.toInt ≤ w.1

theorem Grows.refl (s : State) : Grows s s :=
  ⟨rfl, Int.le_refl _, Nat.le_refl _, fun _ _ _ => rfl, [], by simp, by simp⟩

theorem Grows.trans (h1 : Grows s s') (h2 : Grows s' s'') : Grows s s'' := by
  obtain ⟨w1, hw1, hb1⟩ := h1.journal
  obtain ⟨w2, hw2, hb2⟩ := h2.journal
  have hle := h1.end_le
  have hlen := h1.len_le
  refine ⟨h2.outcomes.trans h1.outcomes, Int.le_trans hle h2.end_le, Nat.le_trans hlen h2.len_le,
    ?_, w1 ++ w2, by rw [hw2, hw1, List.append_assoc], ?_⟩
  · intro x hx hx'
    rw [h2.below x (by omega) (by omega), h1.below x hx hx']
  · intro w hw
    rcases List.mem_append.mp hw with h | h
    · exact hb1 w h
    · exact Int.le_trans hle (hb2 w h)

/-- Moving the file position or the map pointers changes nothing in the log. -/
theorem Grows.of_disk (hc : s'.cp.endPtr = s.cp.endPtr) (ho : s'.disk.outcomes = s.disk.outcomes)
    (hf : s'.disk.file = s.disk.file) (hj : s'.disk.journal = s.disk.journal) : Grows s s' :=
  ⟨ho, by rw [hc], by rw [hf], fun _ _ _ => by rw [hf], [], by simp [hj], by simp⟩

theorem grows_seek (q : Nat) : Grows s (s.seek q) := Grows.of_disk rfl rfl rfl rfl

/-- What was stored is still there. -/
structure Keeps (s s' : State) : Prop where
  stored : ∀ {p n}, Stored s p n → Stored s' p n
  bytes : ∀ {p n}, Stored s p n → s'.bytes p n = s.bytes p n

theorem Grows.keeps (h : Grows s s') : Keeps s s' where
  stored hp := by
    have h1 := h.end_le
    have h2 := h.len_le
    have h3 := hp.fits
    have h4 := hp.present
    exact ⟨hp.start, by omega, by omega⟩
  bytes hp := by
    have h1 := hp.start
    have h2 := hp.fits
    have h3 := hp.present
    exact load_congr fun x hx hx' => h.below x (by omega) (by omega)

@[simp] theorem seek_append (q : Nat) (bs : List UInt8) : (s.seek q).append bs = s.append bs := rfl

theorem append_len_le (s : State) (bs : List UInt8) :
    s.disk.file.len ≤ (s.append bs).disk.file.len := Nat.le_max_left _ _

/-- An append that keeps the file below 2^31 bytes moves the end of the log by its length. -/
theorem append_end (hs : 0 ≤ s.cp.endPtr.toInt) {bs : List UInt8}
    (hlen : (s.append bs).disk.file.len < 2 ^ 31) :
    (s.append bs).cp.endPtr.toInt = s.cp.endPtr.toInt + bs.length := by
  have hle : s.cp.endPtr.toInt.toNat + bs.length ≤ (s.append bs).disk.file.len := Nat.le_max_right _ _
  -- the file would have 2^31 bytes if the sum wrapped
  have hof : (Int32.ofNat bs.length).toInt = bs.length := toInt_ofNat_of_range (by omega)
  show (s.cp.endPtr + Int32.ofNat bs.length).toInt = _
  rw [toInt_add_of_range (by rw [hof]; omega) (by rw [hof]; omega), hof]

theorem le_of_mem_placed {off : Nat} {bs : List UInt8} {w : Nat × UInt8} (h : w ∈ placed off bs) :
    off ≤ w.1 := by
  unfold placed at h
  obtain ⟨k, hk, rfl⟩ := List.mem_mapIdx.mp h
  exact Nat.le_add_right _ _

theorem grows_append (hs : 0 ≤ s.cp.endPtr.toInt) {bs : List UInt8}
    (hlen : (s.append bs).disk.file.len < 2 ^ 31) : Grows s (s.append bs) := by
  refine ⟨rfl, by rw [append_end hs hlen]; omega, append_len_le s bs, ?_, _, rfl, ?_⟩
  · intro x hx hx'
    have hlt : x < s.cp.endPtr.toInt.toNat := by omega
    exact File.pwrite_below hx' hlt
  · intro w hw
    have hw' : s.cp.endPtr.toInt.toNat ≤ w.1 := le_of_mem_placed hw
    omega

/-- The appended bytes are stored at the old end. -/
theorem append_stored (hs : 1028 ≤ s.cp.endPtr.toInt) {bs : List UInt8}
    (hlen : (s.append bs).disk.file.len < 2 ^ 31) :
    Stored (s.append bs) s.cp.endPtr bs.length
      ∧ (s.append bs).bytes s.cp.endPtr bs.length = bs := by
  have hle : s.cp.endPtr.toInt.toNat + bs.length ≤ (s.append bs).disk.file.len := Nat.le_max_right _ _
  exact ⟨⟨hs, by rw [append_end (by omega) hlen], by omega⟩, File.load_pwrite_same _ _ _⟩

/-! ## Finding an inode -/

/-- `getIMap` when the map was never written. -/
theorem getIMap_none (env : Env) (map : IMap) (h : getAt s.cp.mapPtrs (getIMapNum i) = 0) :
    getIMap env i map s = (-1, map, s) := by
  rw [getIMap, if_pos h]

/-- `getIMap` at its contract delivers the stored map. -/
theorem getIMap_stored (hd : s.disk.outcomes = []) (he : env.dest = .caller) (map : IMap)
    (hm : getAt s.cp.mapPtrs (getIMapNum i) ≠ 0)
    (hst : Stored s (getAt s.cp.mapPtrs (getIMapNum i)) 64) :
    ∃ q, getIMap env i map s
      = (0, IMap.decode (s.bytes (getAt s.cp.mapPtrs (getIMapNum i)) 64), s.seek q) := by
  refine ⟨(getAt s.cp.mapPtrs (getIMapNum i)).toInt.toNat + 64, ?_⟩
  have hread := read_stored hst hd map.length_encode
  rw [getIMap, if_neg hm]
  dsimp only
  rw [hread, he]
  rfl

theorem getIMap_some (h : LogInv s) (he : env.dest = .caller) (hi : Inum i) (map : IMap)
    (hm : getAt s.cp.mapPtrs (getIMapNum i) ≠ 0) :
    ∃ q, getIMap env i map s
      = (0, IMap.decode (s.bytes (getAt s.cp.mapPtrs (getIMapNum i)) 64), s.seek q) :=
  getIMap_stored h.done he map hm (h.maps i hi hm)

/-- An `lseek` and a `read`. -/
theorem read_moved (hd : s.disk.outcomes = []) (ptr : Int32) (n : Nat) (old : List UInt8) :
    Moved s { s with disk := (read n old (lseek ptr s.disk).2).2.2 } := by
  obtain ⟨q, hq⟩ := lseek_pos hd ptr
  rw [hq]
  exact ⟨_, rfl⟩

theorem getIMap_moved (hd : s.disk.outcomes = []) (map : IMap) :
    Moved s (getIMap env i map s).2.2 := by
  rw [getIMap]
  split
  · exact ⟨s.disk.pos, rfl⟩
  · obtain ⟨q, hq⟩ := lseek_pos hd (getAt s.cp.mapPtrs (getIMapNum i))
    dsimp only
    rw [hq]
    split <;> exact ⟨_, rfl⟩

theorem entry_eq_of_map (hm : getAt s.cp.mapPtrs (getIMapNum i) ≠ 0) :
    s.entry i = getAt (IMap.decode (s.bytes (getAt s.cp.mapPtrs (getIMapNum i)) 64)).ptr
      (getMapIndexNum i) := if_neg hm

theorem getINode_none (h : LogInv s) (he : env.dest = .caller) (hi : Inum i) (node : INode)
    (hn : s.inode i = none) : ∃ q, getINode env i node s = (-1, node, s.seek q) := by
  have hentry : s.entry i = -1 := by
    by_contra hne
    rw [State.inode, if_pos ⟨hi, hne⟩] at hn
    cases hn
  rw [getINode]
  -- there is no map, or the map says -1
  by_cases hm : getAt s.cp.mapPtrs (getIMapNum i) = 0
  · rw [getIMap_none env _ hm]
    exact ⟨s.disk.pos, rfl⟩
  · obtain ⟨q, hq⟩ := getIMap_some h he hi env.map hm
    rw [hq]
    dsimp only
    rw [if_neg (by decide), ← entry_eq_of_map hm, if_pos hentry]
    exact ⟨q, rfl⟩

/-- `getINode` finds an inode whose map is stored, and leaves the position right behind it. -/
theorem getINode_stored (hd : s.disk.outcomes = []) (he : env.dest = .caller) (node : INode)
    (hentry : s.entry i ≠ -1) (hmap : Stored s (getAt s.cp.mapPtrs (getIMapNum i)) 64)
    (hst : Stored s (s.entry i) 64) :
    getINode env i node s
      = (0, INode.decode (s.bytes (s.entry i) 64), s.seek ((s.entry i).toInt.toNat + 64)) := by
  -- an entry other than -1 comes out of a map
  have hm : getAt s.cp.mapPtrs (getIMapNum i) ≠ 0 := fun hm => hentry (if_pos hm)
  obtain ⟨q, hq⟩ := getIMap_stored hd he env.map hm hmap
  have hread := read_stored ((seek_stored q).mpr hst) hd node.length_encode
  rw [getINode, hq]
  dsimp only
  rw [if_neg (by decide), ← entry_eq_of_map hm, if_neg hentry, hread]
  dsimp only
  rw [if_neg (by omega), seek_bytes]
  rfl

theorem getINode_at (h : LogInv s) (he : env.dest = .caller) (node : INode) {nd : INode}
    (hn : s.inode i = some nd) :
    getINode env i node s = (0, nd, s.seek ((s.entry i).toInt.toNat + 64)) := by
  obtain ⟨hi, hentry, hnd⟩ := inode_eq_some hn
  have hm : getAt s.cp.mapPtrs (getIMapNum i) ≠ 0 := fun hm => hentry (if_pos hm)
  rw [getINode_stored h.done he node hentry (h.maps i hi hm) (h.nodes i hi hentry), hnd]

theorem getINode_some (h : LogInv s) (he : env.dest = .caller) (node : INode) {nd : INode}
    (hn : s.inode i = some nd) : ∃ q, getINode env i node s = (0, nd, s.seek q) :=
  ⟨_, getINode_at h he node hn⟩

/-! ## Changing the entry of an inode -/

/-- What is in the log is found as before while the map pointers stay. -/
theorem Keeps.entry (h : Keeps s s') (hinv : LogInv s) (hc : s'.cp.mapPtrs = s.cp.mapPtrs)
    (hi : Inum i) : s'.entry i = s.entry i := by
  unfold State.entry
  rw [hc]
  split
  · rfl
  · rename_i hm
    rw [h.bytes (hinv.maps i hi hm)]

/-- Inodes whose entries stay are found as before. -/
theorem Keeps.inode (h : Keeps s s') (hinv : LogInv s) (he : Inum i → s'.entry i = s.entry i) :
    s'.inode i = s.inode i := by
  unfold State.inode
  by_cases hi : Inum i
  · rw [he hi]
    split
    · rename_i hc
      rw [h.bytes (hinv.nodes i hi hc.2)]
    · rfl
  · rw [if_neg fun hc => hi hc.1, if_neg fun hc => hi hc.1]

theorem LogInv.of_keeps (h : LogInv s) (hk : Keeps s s') (ho : s'.disk.outcomes = s.disk.outcomes)
    (hs : 1028 ≤ s'.cp.endPtr.toInt) (hc : s'.cp.mapPtrs = s.cp.mapPtrs) :
    LogInv s' ∧ s'.inode = s.inode := by
  have hentry : ∀ i, Inum i → s'.entry i = s.entry i := fun i hi => hk.entry h hc hi
  have hinode : s'.inode = s.inode := funext fun i => hk.inode h (hentry i)
  refine ⟨⟨ho.trans h.done, hs, ?_, ?_, ?_⟩, hinode⟩
  · intro i hi hm
    rw [hc] at hm ⊢
    exact hk.stored (h.maps i hi hm)
  · intro i hi he
    rw [hentry i hi] at he ⊢
    exact hk.stored (h.nodes i hi he)
  · intro i nd hn b hb
    rw [hinode] at hn
    exact hk.stored (h.blocks i nd hn b hb)

theorem logInv_append (h : LogInv s) {bs : List UInt8}
    (hlen : (s.append bs).disk.file.len < 2 ^ 31) :
    LogInv (s.append bs) ∧ Grows s (s.append bs) ∧ (s.append bs).inode = s.inode := by
  have hstart := h.start
  have hg : Grows s (s.append bs) := grows_append (by omega) hlen
  obtain ⟨hinv, hinode⟩ := h.of_keeps hg.keeps rfl (Int.le_trans hstart hg.end_le) rfl
  exact ⟨hinv, hg, hinode⟩

/-- The state `putIMap` leaves. -/
def State.putMap (s : State) (map : IMap) (i ptr : Int32) : State :=
  (s.repoint i).append (IMap.encode ⟨setAt map.ptr (getMapIndexNum i) ptr⟩)

theorem putIMap_eq (hd : s.disk.outcomes = []) (hs : 0 ≤ s.cp.endPtr.toInt) (map : IMap)
    (i ptr : Int32) : putIMap map i ptr s = (64, s.putMap map i ptr) := by
  have hw := @writeToEnd_eq (s.repoint i) hd hs
    (IMap.encode ⟨setAt map.ptr (getMapIndexNum i) ptr⟩)
  rw [IMap.length_encode] at hw
  exact hw

section PutMap

variable {map : IMap} {ptr : Int32}

theorem grows_putMap (h : LogInv s) (hlen : (s.putMap map i ptr).disk.file.len < 2 ^ 31) :
    Grows s (s.putMap map i ptr) := by
  have hstart := h.start
  have hr : Grows s (s.repoint i) := Grows.of_disk rfl rfl rfl rfl
  exact hr.trans (@grows_append (s.repoint i) (show 0 ≤ s.cp.endPtr.toInt by omega) _ hlen)

theorem putMap_stored (h : LogInv s) (hlen : (s.putMap map i ptr).disk.file.len < 2 ^ 31) :
    Stored (s.putMap map i ptr) s.cp.endPtr 64
      ∧ (s.putMap map i ptr).bytes s.cp.endPtr 64
        = IMap.encode ⟨setAt map.ptr (getMapIndexNum i) ptr⟩ := by
  have hs := @append_stored (s.repoint i) h.start _ hlen
  rw [IMap.length_encode] at hs
  exact hs

theorem mapPtr_putMap (hj : Inum j) :
    getAt (s.putMap map i ptr).cp.mapPtrs (getIMapNum j)
      = if getIMapNum j = getIMapNum i then s.cp.endPtr else getAt s.cp.mapPtrs (getIMapNum j) := by
  show getAt (setAt s.cp.mapPtrs (getIMapNum i) s.cp.endPtr) (getIMapNum j) = _
  split
  · rename_i hm
    rw [← hm]
    exact getAt_setAt_self hj.mapNum.1 hj.mapNum.2
  · rename_i hm
    exact getAt_setAt_of_ne (Ne.symm hm)

/-- `putIMap` changes the entry of `i` and no other, if it starts from the map of `i`. -/
theorem entry_putMap (h : LogInv s) (hi : Inum i) (hj : Inum j)
    (hmap : ∀ j, Inum j → getIMapNum j = getIMapNum i →
      getAt map.ptr (getMapIndexNum j) = s.entry j)
    (hlen : (s.putMap map i ptr).disk.file.len < 2 ^ 31) :
    (s.putMap map i ptr).entry j = if j = i then ptr else s.entry j := by
  have hstart := h.start
  rw [State.entry, mapPtr_putMap hj]
  -- the map of `i` is the one just written; the other maps are where they were
  by_cases hm : getIMapNum j = getIMapNum i
  · have hne : s.cp.endPtr ≠ 0 := by
      intro h0
      rw [h0] at hstart
      exact absurd hstart (by decide)
    rw [if_pos hm, if_neg hne, (putMap_stored h hlen).2, IMap.decode_encode]
    by_cases hij : j = i
    · subst hij
      rw [if_pos rfl]
      exact getAt_setAt_self hj.indexNum.1 hj.indexNum.2
    · have hx : getMapIndexNum i ≠ getMapIndexNum j :=
        fun hx => hij (hj.eq_of_place hi hm hx.symm)
      rw [if_neg hij, ← hmap j hj hm]
      exact getAt_setAt_of_ne hx
  · have hij : j ≠ i := fun hij => hm (by rw [hij])
    rw [if_neg hm, if_neg hij, State.entry]
    split
    · rfl
    · rename_i hmp
      rw [(grows_putMap h hlen).keeps.bytes (h.maps j hj hmp)]

/--
The effect of `putIMap` on the inodes: the one of `i` is now what `ptr` leads to, and
everything is still in the log.
-/
theorem logInv_putMap (h : LogInv s) (hi : Inum i)
    (hmap : ∀ j, Inum j → getIMapNum j = getIMapNum i →
      getAt map.ptr (getMapIndexNum j) = s.entry j)
    (hptr : ptr ≠ -1 → Stored s ptr 64
      ∧ ∀ b, (INode.decode (s.bytes ptr 64)).dataPtrs b ≠ -1 →
        Stored s ((INode.decode (s.bytes ptr 64)).dataPtrs b) 4096)
    (hlen : (s.putMap map i ptr).disk.file.len < 2 ^ 31) :
    LogInv (s.putMap map i ptr) ∧ Grows s (s.putMap map i ptr)
      ∧ (s.putMap map i ptr).inode = Function.update s.inode i
        (if ptr = -1 then none else some (INode.decode (s.bytes ptr 64))) := by
  have hg := grows_putMap h hlen
  have hentry : ∀ j, Inum j → (s.putMap map i ptr).entry j = if j = i then ptr else s.entry j :=
    fun j hj => entry_putMap h hi hj hmap hlen
  -- the inodes follow the entries
  have hinode : (s.putMap map i ptr).inode = Function.update s.inode i
      (if ptr = -1 then none else some (INode.decode (s.bytes ptr 64))) := by
    funext j
    by_cases hj : Inum j
    · by_cases hij : j = i
      · subst hij
        rw [Function.update_self, State.inode, hentry j hj, if_pos rfl]
        by_cases hp : ptr = -1
        · rw [if_pos hp, if_neg fun hc => hc.2 hp]
        · rw [if_neg hp, if_pos ⟨hj, hp⟩, hg.keeps.bytes (hptr hp).1]
      · rw [Function.update_of_ne hij]
        exact hg.keeps.inode h fun _ => by rw [hentry j hj, if_neg hij]
    · have hij : j ≠ i := fun hij => hj (hij ▸ hi)
      rw [Function.update_of_ne hij]
      exact hg.keeps.inode h fun hj' => absurd hj' hj
  -- what is new was stored by the caller, what is old is kept
  refine ⟨⟨hg.outcomes.trans h.done, Int.le_trans h.start hg.end_le, ?_, ?_, ?_⟩, hg, hinode⟩
  · intro j hj hm
    rw [mapPtr_putMap hj] at hm ⊢
    split at hm
    · rename_i hsame
      rw [if_pos hsame]
      exact (putMap_stored h hlen).1
    · rename_i hsame
      rw [if_neg hsame]
      exact hg.keeps.stored (h.maps j hj hm)
  · intro j hj he
    rw [hentry j hj] at he ⊢
    split at he
    · rename_i hij
      rw [if_pos hij]
      exact hg.keeps.stored (hptr he).1
    · rename_i hij
      rw [if_neg hij]
      exact hg.keeps.stored (h.nodes j hj he)
  · intro j nd hn b hb
    rw [hinode] at hn
    by_cases hij : j = i
    · subst hij
      rw [Function.update_self] at hn
      split at hn
      · cases hn
      · rename_i hp
        cases hn
        exact hg.keeps.stored ((hptr hp).2 b hb)
    · rw [Function.update_of_ne hij] at hn
      exact hg.keeps.stored (h.blocks j nd hn b hb)

end PutMap

/-- The map `insertINode` and `deleteINode` go on with holds the entries of its inodes. -/
theorem getIMap_entries (h : LogInv s) (he : env.dest = .caller) (hi : Inum i) (map : IMap) :
    ∃ r m q, getIMap env i map s = (r, m, s.seek q)
      ∧ (getAt s.cp.mapPtrs (getIMapNum i) ≠ 0 → r ≠ -1)
      ∧ ∀ j, Inum j → getIMapNum j = getIMapNum i →
        getAt (if r = -1 then (⟨fun _ => -1⟩ : IMap) else m).ptr (getMapIndexNum j) = s.entry j := by
  by_cases hm : getAt s.cp.mapPtrs (getIMapNum i) = 0
  · -- a map that is not there has no entries, like the one the callers start with
    refine ⟨-1, map, s.disk.pos, getIMap_none env map hm, fun hne => absurd hm hne, ?_⟩
    intro j hj hsame
    have hx := hj.indexNum
    rw [if_pos rfl, State.entry, hsame, if_pos hm, getAt, dif_pos ⟨hx.1, hx.2⟩]
  · obtain ⟨q, hq⟩ := getIMap_some h he hi map hm
    refine ⟨0, _, q, hq, fun _ => by decide, ?_⟩
    intro j hj hsame
    rw [if_neg (by decide), State.entry, hsame, if_neg hm]

/-- `insertINode` appends the inode and then its map, which starts from the entries there are. -/
theorem insertINode_eq (h : LogInv s) (he : env.dest = .caller) (hi : Inum i) {node : INode}
    (hlen : (s.append node.encode).disk.file.len < 2 ^ 31) :
    ∃ map q, insertINode env node i s
        = (0, ((s.append node.encode).seek q).putMap map i s.cp.endPtr)
      ∧ ∀ j, Inum j → getIMapNum j = getIMapNum i →
        getAt map.ptr (getMapIndexNum j) = (s.append node.encode).entry j := by
  have hstart := h.start
  have hpos : ¬((node.encode.length : Int) < 0) := by omega
  obtain ⟨h1, -, -⟩ := logInv_append h hlen
  obtain ⟨r, m, q, hget, -, hmap⟩ := getIMap_entries h1 he hi env.map
  have hend : 0 ≤ (s.append node.encode).cp.endPtr.toInt := Int.le_trans (by decide) h1.start
  have hput := putIMap_eq (h1.seek q).done hend (if r = -1 then ⟨fun _ => -1⟩ else m) i s.cp.endPtr
  refine ⟨_, q, ?_, hmap⟩
  rw [insertINode, writeToEnd_eq h.done (by omega)]
  dsimp only
  rw [if_neg hpos, hget]
  dsimp only
  rw [hput]
  rfl

theorem insertINode_append_len (h : LogInv s) {node : INode}
    (hlen : (insertINode env node i s).2.disk.file.len < 2 ^ 31) :
    (s.append node.encode).disk.file.len < 2 ^ 31 := by
  have hstart := h.start
  have hle := insertINode_len_le env node i s
  rw [writeToEnd_eq h.done (by omega) node.encode] at hle
  exact Nat.lt_of_le_of_lt hle hlen

/--
`insertINode`, with `getIMap` at its contract: the inode of `inum` becomes `node`, no
other inode changes, and the log only grows.
-/
theorem insertINode_spec (h : LogInv s) (he : env.dest = .caller) (hi : Inum i) {node : INode}
    (hnode : ∀ b, node.dataPtrs b ≠ -1 → Stored s (node.dataPtrs b) 4096)
    (hlen : (insertINode env node i s).2.disk.file.len < 2 ^ 31) :
    ∃ s', insertINode env node i s = (0, s') ∧ LogInv s' ∧ Grows s s'
      ∧ s'.inode = Function.update s.inode i (some node) := by
  have hstart := h.start
  have hne : s.cp.endPtr ≠ -1 := by
    intro h0
    rw [h0] at hstart
    exact absurd hstart (by decide)
  have hlen1 := insertINode_append_len h hlen
  obtain ⟨h1, hg1, hin1⟩ := logInv_append h hlen1
  obtain ⟨hst, hbytes⟩ := append_stored hstart hlen1
  rw [INode.length_encode] at hst hbytes
  -- the node is on disk; what is left is the map
  obtain ⟨map, q, heq, hmap⟩ := insertINode_eq h he hi hlen1
  rw [heq] at hlen
  have hdec : INode.decode (((s.append node.encode).seek q).bytes s.cp.endPtr 64) = node := by
    rw [seek_bytes, hbytes, INode.decode_encode]
  obtain ⟨h2, hg2, hin2⟩ := logInv_putMap (h1.seek q) hi hmap
    (fun _ => ⟨(seek_stored q).mpr hst, by
      rw [hdec]
      exact fun b hb => (seek_stored q).mpr (hg1.keeps.stored (hnode b hb))⟩) hlen
  refine ⟨_, heq, h2, (hg1.trans (grows_seek q)).trans hg2, ?_⟩
  rw [hin2, if_neg hne, hdec, seek_inode, hin1]

/-! ## How far the log goes -/

/-- The log ends at `e`, and so does the file. -/
structure Level (s : State) (e : Int) : Prop where
  done : s.disk.outcomes = []
  end_eq : s.cp.endPtr.toInt = e
  len : s.disk.file.len ≤ e

theorem Level.seek {e : Int} (h : Level s e) (q : Nat) : Level (s.seek q) e :=
  ⟨h.done, h.end_eq, h.len⟩

theorem Level.append {e : Int} (h : Level s e) (he : 0 ≤ e) {bs : List UInt8}
    (hfit : e + bs.length < 2 ^ 31) : Level (s.append bs) (e + bs.length) := by
  have hend := h.end_eq
  have hl := h.len
  have hlen : (s.append bs).disk.file.len
      = max s.disk.file.len (s.cp.endPtr.toInt.toNat + bs.length) := rfl
  refine ⟨h.done, ?_, by omega⟩
  rw [append_end (by omega) (by omega), hend]

theorem Level.putMap {e : Int} {map : IMap} {i ptr : Int32} (h : Level s e) (he : 0 ≤ e)
    (hfit : e + 64 < 2 ^ 31) : Level (s.putMap map i ptr) (e + 64) := by
  have hr : Level (s.repoint i) e := ⟨h.done, h.end_eq, h.len⟩
  have ha := @Level.append (s.repoint i) e hr he (IMap.encode ⟨setAt map.ptr (getMapIndexNum i) ptr⟩)
    (by rw [IMap.length_encode]; exact hfit)
  rw [IMap.length_encode] at ha
  exact ha

/-- In whatever environment, `insertINode` appends the inode and a map. -/
theorem insertINode_shape (hd : s.disk.outcomes = []) (hs : 0 ≤ s.cp.endPtr.toInt) {node : INode}
    (hs' : 0 ≤ (s.append node.encode).cp.endPtr.toInt) :
    ∃ map q, insertINode env node i s
      = (0, ((s.append node.encode).seek q).putMap map i s.cp.endPtr) := by
  have hpos : ¬((node.encode.length : Int) < 0) := by omega
  obtain ⟨q, hq⟩ := @getIMap_moved env (s.append node.encode) i hd env.map
  rw [insertINode, writeToEnd_eq hd hs]
  dsimp only
  rw [if_neg hpos, hq, @putIMap_eq ((s.append node.encode).seek q) hd hs']
  exact ⟨_, q, rfl⟩

theorem Level.insertINode {e : Int} {node : INode} (h : Level s e) (he : 0 ≤ e)
    (hfit : e + 128 < 2 ^ 31) : Level (insertINode env node i s).2 (e + 128) := by
  have hend := h.end_eq
  have h1 : Level (s.append node.encode) (e + 64) := by
    have ha := @Level.append s e h he node.encode (by rw [INode.length_encode]; omega)
    rw [INode.length_encode] at ha
    exact ha
  have hend1 := h1.end_eq
  obtain ⟨map, q, heq⟩ := @insertINode_shape env s i h.done (by omega) node (by omega)
  rw [heq, show e + 128 = e + 64 + 64 by omega]
  exact (h1.seek q).putMap (by omega) (by omega)

end Cs537.Fs
