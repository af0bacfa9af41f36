import Cs537.Fs.Data

/-!
# Blocks that were never written

`fs_read` of a regular file seeks to the pointer of the block and reads. For a block
that was never written the pointer is -1: the seek fails, nobody looks at that, and the
read goes on from where `getINode` left the position, right behind the inode. What it
delivers is the next part of the log: the inode map that was written with the inode, and
then whatever came after, of this file or any other.

So two states that agree on a file need not read the same for its holes. They do for
the blocks that were written.
-/

namespace Cs537.Fs

open Lib

variable {env env' : Env} {s s' : State} {i : Int32} {b : Fin 14} {n : INode}

/-! ## What `fs_read` delivers -/

/-- A block's worth of what the log holds behind the inode of `i`. -/
def State.behind (s : State) (i : Int32) : List UInt8 :=
  s.disk.file.pread ((s.entry i).toInt.toNat + 64) bufferSize

/-- `fs_read` of a block that was never written. -/
theorem fsRead_hole (h : LogInv s) (he : env.dest = .caller) (hn : s.inode i = some n)
    (ht : n.type = fsRegularFile) (hb : n.dataPtrs b = -1) (buffer : List UInt8) :
    (fsRead env i buffer (Int32.ofNat b) s).1 = 0 ∧ (fsRead env i buffer (Int32.ofNat b) s).2.1
      = s.behind i ++ buffer.drop (s.behind i).length := by
  -- the seek fails, so the position is still behind the inode
  have hseek : (lseek (-1) (s.seek ((s.entry i).toInt.toNat + 64)).disk).2
      = (s.seek ((s.entry i).toInt.toNat + 64)).disk := by
    rw [lseek, next_done (by exact h.done)]
    rfl
  rw [fsRead, getINode_at h he env.node hn]
  dsimp only
  rw [if_neg (by decide), if_pos ht, getAt_of_toInt (toInt_block b), hb, hseek]
  exact ⟨rfl, rfl⟩

/-- `fs_read` of a block that was. -/
theorem fsRead_written (h : LogInv s) (he : env.dest = .caller) (hn : s.inode i = some n)
    (ht : n.type = fsRegularFile) (hb : n.dataPtrs b ≠ -1) (buffer : Buffer) :
    (fsRead env i buffer.bytes (Int32.ofNat b) s).1 = 0
      ∧ (fsRead env i buffer.bytes (Int32.ofNat b) s).2.1 = s.bytes (n.dataPtrs b) 4096 := by
  have hblock : s.view.block i b = some (s.bytes (n.dataPtrs b) 4096) :=
    block_some.mpr ⟨_, view_some hn, ht, node_blocks hb⟩
  obtain ⟨q, hq⟩ := fsRead_spec h he (toInt_block b) buffer.len hblock
  rw [hq]
  exact ⟨rfl, rfl⟩

/-- What a read leaves in a buffer tells what was read, if the buffer may hold anything. -/
theorem eq_of_overlay {m : Nat} {bs bs' : List UInt8} (hle : bs.length ≤ m) (hle' : bs'.length ≤ m)
    (h : ∀ old : List UInt8, old.length = m → bs ++ old.drop bs.length = bs' ++ old.drop bs'.length) :
    bs = bs' := by
  -- where one of the two ends first, the other cannot be both 0 and 1
  have hlen : ∀ {as cs : List UInt8}, cs.length ≤ m →
      (∀ old : List UInt8, old.length = m → as ++ old.drop as.length = cs ++ old.drop cs.length) →
      cs.length ≤ as.length := by
    intro as cs hcs hall
    by_contra hlt
    have hget : ∀ x : UInt8, cs[as.length]? = some x := by
      intro x
      have heq := hall (List.replicate m x) List.length_replicate
      have hx : (as ++ (List.replicate m x).drop as.length)[as.length]?
          = (cs ++ (List.replicate m x).drop cs.length)[as.length]? := by rw [heq]
      rw [List.getElem?_append_right (Nat.le_refl _), List.getElem?_append_left (by omega), Nat.sub_self,
        List.drop_replicate, List.getElem?_replicate, if_pos (by omega)] at hx
      exact hx.symm
    have hcontra := (hget 0).symm.trans (hget 1)
    exact absurd (Option.some.inj hcontra) (by decide)
  have heq : bs.length = bs'.length :=
    Nat.le_antisymm (hlen hle fun old ho => (h old ho).symm) (hlen hle' h)
  exact List.append_inj_left (h (List.replicate m 0) List.length_replicate) heq

theorem length_behind (s : State) (i : Int32) : (s.behind i).length ≤ bufferSize := by
  unfold State.behind File.pread
  rw [length_load]
  exact Nat.min_le_left _ _

/-! ## Two states that agree on a file -/

/-- Both have a regular file `i`, with the same blocks written and the same in them. -/
structure Agree (s s' : State) (i : Int32) (n n' : INode) : Prop where
  left : s.inode i = some n
  right : s'.inode i = some n'
  file : n.type = fsRegularFile
  file' : n'.type = fsRegularFile
  written : ∀ b, n.dataPtrs b = -1 ↔ n'.dataPtrs b = -1
  same : ∀ b, n.dataPtrs b ≠ -1 → s.bytes (n.dataPtrs b) 4096 = s'.bytes (n'.dataPtrs b) 4096

/-- `fs_read` of block `b` returns the same code in both, and if that is 0 the same bytes. -/
def SameRead (s s' : State) (i : Int32) (b : Fin 14) : Prop :=
  ∀ env env' : Env, env.dest = .caller → env'.dest = .caller → ∀ buffer : Buffer,
    (fsRead env i buffer.bytes (Int32.ofNat b) s).1 = (fsRead env' i buffer.bytes (Int32.ofNat b) s').1
      ∧ ((fsRead env i buffer.bytes (Int32.ofNat b) s).1 = 0 →
        (fsRead env i buffer.bytes (Int32.ofNat b) s).2.1
          = (fsRead env' i buffer.bytes (Int32.ofNat b) s').2.1)

theorem sameRead_iff {n' : INode} (h : LogInv s) (h' : LogInv s') (ha : Agree s s' i n n') :
    SameRead s s' i b ↔ n.dataPtrs b ≠ -1 ∨ s.behind i = s'.behind i := by
  by_cases hb : n.dataPtrs b = -1
  · have hb' := (ha.written b).mp hb
    constructor
    · intro hsame
      refine Or.inr (eq_of_overlay (length_behind s i) (length_behind s' i) fun old hold => ?_)
      obtain ⟨-, hsame⟩ := hsame sampleEnv sampleEnv rfl rfl ⟨old, hold⟩
      obtain ⟨hcode, hbytes⟩ := @fsRead_hole sampleEnv s i b n h rfl ha.left ha.file hb old
      obtain ⟨-, hbytes'⟩ := @fsRead_hole sampleEnv s' i b n' h' rfl ha.right ha.file' hb' old
      dsimp only at hsame
      rw [hcode, hbytes, hbytes'] at hsame
      exact hsame rfl
    · rintro (hne | hbehind) env env' he he' buffer
      · exact absurd hb hne
      · obtain ⟨hcode, hbytes⟩ := fsRead_hole h he ha.left ha.file hb buffer.bytes
        obtain ⟨hcode', hbytes'⟩ := fsRead_hole h' he' ha.right ha.file' hb' buffer.bytes
        rw [hcode, hcode', hbytes, hbytes', hbehind]
        exact ⟨rfl, fun _ => rfl⟩
  · refine ⟨fun _ => Or.inl hb, fun _ env env' he he' buffer => ?_⟩
    obtain ⟨hcode, hbytes⟩ := fsRead_written h he ha.left ha.file hb buffer
    obtain ⟨hcode', hbytes'⟩ := fsRead_written h' he' ha.right ha.file' (mt (ha.written b).mpr hb) buffer
    rw [hcode, hcode', hbytes, hbytes', ha.same b hb]
    exact ⟨rfl, fun _ => rfl⟩

/--
**What a read reveals.** Take any two states that runs from a new image reach, and a
regular file on which they agree. `fs_read` of a block that was written is the same in
both. For one that was not it is so exactly if the two logs hold the same behind the
inode of the file.
-/
theorem read_same_iff {s s' : State} (hr : Reachable (fun _ _ => True) s)
    (hr' : Reachable (fun _ _ => True) s') {i : Int32} {n n' : INode} (ha : Agree s s' i n n') (b : Fin 14) :
    SameRead s s' i b ↔ s.Written i b ∨ s.behind i = s'.behind i := by
  rw [sameRead_iff (inv_reachable hr).log (inv_reachable hr').log ha]
  refine or_congr_left ⟨fun hb => ⟨n, ha.left, ha.file, hb⟩, ?_⟩
  rintro ⟨m, hm, -, hb⟩
  rw [ha.left] at hm
  cases hm
  exact hb

/-! ## A hole shows where the inode is -/

/-- The map that was written with the inode of `i` is behind it, and says where it is. -/
structure Stamped (s : State) (i : Int32) : Prop where
  present : (s.entry i).toInt.toNat + 128 ≤ s.disk.file.len
  self : getAt (IMap.decode (load s.disk.file.data ((s.entry i).toInt.toNat + 64) 64)).ptr
    (getMapIndexNum i) = s.entry i

theorem insertINode_stamped (h : LogInv s) (he : env.dest = .caller) (hi : Inum i) {node : INode}
    (hlen : (insertINode env node i s).2.disk.file.len < 2 ^ 31) :
    (insertINode env node i s).2.entry i = s.cp.endPtr ∧ Stamped (insertINode env node i s).2 i := by
  have hstart := h.start
  have hlen1 := insertINode_append_len h hlen
  obtain ⟨h1, -, -⟩ := logInv_append h hlen1
  obtain ⟨map, q, heq, hmap⟩ := insertINode_eq h he hi hlen1
  rw [heq] at hlen ⊢
  dsimp only at hlen ⊢
  have hend : (s.append node.encode).cp.endPtr.toInt = s.cp.endPtr.toInt + 64 := by
    rw [append_end (by omega) hlen1, INode.length_encode]
    rfl
  obtain ⟨hst, hbytes⟩ := putMap_stored (h1.seek q) hlen
  have hentry := entry_putMap (h1.seek q) hi hi hmap hlen
  rw [if_pos rfl] at hentry
  have hpresent := hst.present
  rw [seek_cp, hend] at hpresent
  -- the map begins 64 bytes above the inode
  have hplace : (s.append node.encode).cp.endPtr.toInt.toNat = s.cp.endPtr.toInt.toNat + 64 := by omega
  refine ⟨hentry, by rw [hentry]; omega, ?_⟩
  rw [hentry, ← hplace]
  show getAt (IMap.decode (State.bytes _ (s.append node.encode).cp.endPtr 64)).ptr _ = _
  rw [seek_cp] at hbytes
  rw [hbytes, IMap.decode_encode]
  exact getAt_setAt_self hi.indexNum.1 hi.indexNum.2

theorem behind_take (h : Stamped s i) :
    (s.behind i).take 64 = load s.disk.file.data ((s.entry i).toInt.toNat + 64) 64 := by
  have hp := h.present
  unfold State.behind File.pread
  rw [take_load (by unfold bufferSize; omega)]

/-- If the inode lies elsewhere, the hole reads differently. -/
theorem behind_ne (h : Stamped s i) (h' : Stamped s' i) (hne : s.entry i ≠ s'.entry i) :
    s.behind i ≠ s'.behind i := by
  intro hc
  refine hne ?_
  rw [← h.self, ← h'.self, ← behind_take h, ← behind_take h', hc]

theorem fsWrite_stamped (h : LogInv s) (he : env.dest = .caller) (hn : s.inode i = some n)
    (ht : n.type = fsRegularFile) (buffer : Buffer)
    (hlen : (fsWrite env i buffer.bytes (Int32.ofNat b) s).2.disk.file.len < 2 ^ 31) :
    ((fsWrite env i buffer.bytes (Int32.ofNat b) s).2.entry i).toInt = s.cp.endPtr.toInt + 4096
      ∧ Stamped (fsWrite env i buffer.bytes (Int32.ofNat b) s).2 i := by
  have htd : n.type ≠ fsDirectory := by rw [ht]; decide
  obtain ⟨size, pos, hsize⟩ : ∃ size pos, env.getINodeSize (n.setPtr b s.cp.endPtr)
      (s.append buffer.bytes).disk = (size, pos) := ⟨_, _, rfl⟩
  have hlen1 := fsWrite_append_len h he hn htd (toInt_block b) hlen
  rw [fsWrite_eq h he hn htd (toInt_block b) buffer.bytes hsize] at hlen ⊢
  dsimp only at hlen ⊢
  have hstart := h.start
  obtain ⟨h1, -, -⟩ := logInv_append h hlen1
  obtain ⟨hentry, hst⟩ := insertINode_stamped (h1.seek pos) he (inode_eq_some hn).1 hlen
  refine ⟨?_, hst⟩
  rw [hentry, seek_cp, append_end (by omega) hlen1, buffer.len]
  rfl

/-- A write moves the inode. -/
theorem behind_write (h : LogInv s) (he : env.dest = .caller) (hn : s.inode i = some n)
    (ht : n.type = fsRegularFile) (hst : Stamped s i) (buffer : Buffer)
    (hlen : (fsWrite env i buffer.bytes (Int32.ofNat b) s).2.disk.file.len < 2 ^ 31) :
    s.behind i ≠ (fsWrite env i buffer.bytes (Int32.ofNat b) s).2.behind i := by
  obtain ⟨hentry, hst'⟩ := fsWrite_stamped h he hn ht buffer hlen
  refine behind_ne hst hst' fun hc => ?_
  obtain ⟨hi, hne, -⟩ := inode_eq_some hn
  have hfits := (h.nodes i hi hne).fits
  rw [hc] at hfits
  omega

/-- The pointers of an inode and the blocks a client sees. -/
theorem ptr_of_view {nd : Node} (hn : s.inode i = some n) (hv : s.view i = some nd) :
    n.dataPtrs b = -1 ↔ nd.blocks b = none := by
  rw [view_some hn] at hv
  cases hv
  constructor
  · exact node_blocks_none
  · intro hnone
    by_contra hne
    rw [node_blocks hne] at hnone
    cases hnone

theorem agree_of_view {nd nd' : Node} (hv : s.view i = some nd) (hv' : s'.view i = some nd')
    (ht : nd.type = fsRegularFile) (ht' : nd'.type = fsRegularFile) (hb : nd.blocks = nd'.blocks) :
    ∃ n n', Agree s s' i n n' := by
  obtain ⟨n, hn, hnode⟩ := Option.map_eq_some_iff.mp hv
  obtain ⟨n', hn', hnode'⟩ := Option.map_eq_some_iff.mp hv'
  have hptr : ∀ b, n.dataPtrs b = -1 ↔ n'.dataPtrs b = -1 := by
    intro b
    rw [ptr_of_view hn hv, ptr_of_view hn' hv', hb]
  refine ⟨n, n', hn, hn', (congrArg Node.type hnode).trans ht, (congrArg Node.type hnode').trans ht',
    hptr, fun b hne => ?_⟩
  have hsame : (s.node n).blocks b = (s'.node n').blocks b := by rw [hnode, hnode', hb]
  rw [node_blocks hne, node_blocks (mt (hptr b).mpr hne)] at hsame
  exact Option.some.inj hsame

/-- A block of zeros. -/
def zeros : Buffer := ⟨List.replicate 4096 0, List.length_replicate⟩

/-- The first block of file 1 is written. -/
theorem write_zeros {e : Int} {nd : Node} (hr : Reachable (fun _ _ => True) s) (he : 1028 ≤ e)
    (hfit : e + 8448 < 2 ^ 31) (hl : Level s e) (hv : s.view 1 = some nd) (ht : nd.type = fsRegularFile) :
    ∃ s' e' size, Reachable (fun _ _ => True) s' ∧ 1028 ≤ e' ∧ e' ≤ e + 8448 ∧ Level s' e'
      ∧ s'.view 1 = some { nd.setBlock 0 zeros.bytes with size := size }
      ∧ Stamped s' 1 ∧ (Stamped s 1 → s.behind 1 ≠ s'.behind 1) := by
  have hinv := inv_reachable hr
  obtain ⟨hst, e1, hle, hle', hl1⟩ := @step_of_level sampleEnv s (fun _ _ => True) e hl he hfit rfl
    (.write 1 zeros 0) (show Inum 1 by decide) trivial
  have hlen := hl1.len
  have hlen1 : (exec sampleEnv s (.write 1 zeros 0)).2.disk.file.len < 2 ^ 31 := by omega
  obtain ⟨size, hview⟩ := (@exec_effect sampleEnv s hinv rfl (.write 1 zeros 0) (show Inum 1 by decide)
    hlen1).view
  obtain ⟨n, hn, hnode⟩ := Option.map_eq_some_iff.mp hv
  have htn : n.type = fsRegularFile := (congrArg Node.type hnode).trans ht
  have hw : s.view.write 1 zeros.bytes 0 size = (0, some (Function.update s.view 1
      (some { nd.setBlock 0 zeros.bytes with size := size }))) := by
    rw [View.write, hv]
    exact if_neg (by rw [ht]; decide)
  rw [Op.effect, hw, Option.getD_some] at hview
  obtain ⟨-, hstamp⟩ := @fsWrite_stamped sampleEnv s 1 0 n hinv.log rfl hn htn zeros hlen1
  refine ⟨_, e1, size, hr.tail hst, by omega, hle', hl1, ?_, hstamp, fun hs => ?_⟩
  · rw [hview, Function.update_self]
  · exact @behind_write sampleEnv s 1 0 n hinv.log rfl hn htn hs zeros hlen1

theorem read_same_sample : ∃ s : State, Reachable (fun _ _ => True) s ∧ s.Written 1 0
    ∧ SameRead s s 1 0 := by
  obtain ⟨s₀, e, hr, he, he', hl, hv⟩ := @reachable_file (fun _ _ => True) fun _ => trivial
  obtain ⟨s, e1, size, hr1, -, -, -, hv1, -⟩ := write_zeros hr he (by omega) hl hv rfl
  obtain ⟨n, n', ha⟩ := agree_of_view hv1 hv1 rfl rfl rfl
  have hw : s.Written 1 0 := by
    refine ⟨n, ha.left, ha.file, fun hc => ?_⟩
    exact absurd ((ptr_of_view ha.left hv1).mp hc) (Option.some_ne_none _)
  exact ⟨s, hr1, hw, (read_same_iff hr1 hr1 ha 0).mpr (Or.inl hw)⟩

/-- The file `a`, once with its first block written and once with the same written to it again. -/
theorem hole_differs : ∃ (s s' : State) (n n' : INode), Reachable (fun _ _ => True) s
    ∧ Reachable (fun _ _ => True) s' ∧ Agree s s' 1 n n' ∧ ¬SameRead s s' 1 1 := by
  obtain ⟨s₀, e, hr, he, he', hl, hv⟩ := @reachable_file (fun _ _ => True) fun _ => trivial
  obtain ⟨s, e1, size, hr1, he1, hle1, hl1, hv1, hst, -⟩ := write_zeros hr he (by omega) hl hv rfl
  obtain ⟨s', e2, size', hr2, -, -, -, hv2, -, hbehind⟩ := write_zeros hr1 he1 (by omega) hl1 hv1 rfl
  obtain ⟨n, n', ha⟩ := agree_of_view hv1 hv2 rfl rfl (Function.update_idem ..).symm
  refine ⟨s, s', n, n', hr1, hr2, ha, fun hsame => ?_⟩
  -- block 1 was not written, so only the log behind the inode could make the two equal
  rcases (sameRead_iff (inv_reachable hr1).log (inv_reachable hr2).log ha).mp hsame with hb | hb
  · exact hb ((ptr_of_view ha.left hv1).mpr rfl)
  · exact hbehind hst hb

end Cs537.Fs
