import Cs537.Fs.Refine

/-!
# The calls of a client

`fs_write`, `fs_unlink` and `fs_create` against their operations on views, and the
remaining calls, which change nothing a client can observe.
-/

namespace Cs537.Fs

open Lib

variable {env : Env} {s s' : State} {i k p : Int32} {name : CStr}

/-! ## `fs_write` -/

theorem setAt_eq_setPtr {n : INode} {b : Fin 14} {block x : Int32} (hb : block.toInt = b) :
    setAt n.dataPtrs block x = (n.setPtr b x).dataPtrs := by
  funext b'
  unfold setAt INode.setPtr
  rw [hb]
  by_cases h : b' = b
  · rw [if_pos (by rw [h])]
    exact (if_pos h).symm
  · rw [if_neg fun hc => h (Fin.ext (by omega))]
    exact (if_neg h).symm

/-- `fs_write` to a file: the buffer, the inode and its map go to the end of the log. -/
theorem fsWrite_eq (h : LogInv s) (he : env.dest = .caller) {n : INode} (hn : s.inode i = some n)
    (ht : n.type ≠ fsDirectory) {b : Fin 14} {block : Int32} (hb : block.toInt = b)
    (buffer : List UInt8) {size : Int32} {pos : Nat}
    (hsize : env.getINodeSize (n.setPtr b s.cp.endPtr) (s.append buffer).disk = (size, pos)) :
    fsWrite env i buffer block s = (0, (insertINode env
      ⟨size, n.type, (n.setPtr b s.cp.endPtr).dataPtrs⟩ i ((s.append buffer).seek pos)).2) := by
  have hstart := h.start
  obtain ⟨q, hq⟩ := getINode_some h he env.node hn
  have hwr := @writeToEnd_eq (s.seek q) h.done (show 0 ≤ s.cp.endPtr.toInt by omega) buffer
  have hset : { n with dataPtrs := setAt n.dataPtrs block s.cp.endPtr } = n.setPtr b s.cp.endPtr := by
    rw [setAt_eq_setPtr hb]
    rfl
  rw [seek_append] at hwr
  rw [fsWrite, hq]
  dsimp only
  rw [if_neg (by decide), if_neg ht, hwr, seek_cp, hset]
  simp only [hsize, setAt_eq_setPtr hb]
  rfl

/-- The file is long enough for the buffer if it is for the whole call. -/
theorem fsWrite_append_len (h : LogInv s) (he : env.dest = .caller) {n : INode}
    (hn : s.inode i = some n) (ht : n.type ≠ fsDirectory) {b : Fin 14} {block : Int32}
    (hb : block.toInt = b) {buffer : List UInt8}
    (hlen : (fsWrite env i buffer block s).2.disk.file.len < 2 ^ 31) :
    (s.append buffer).disk.file.len < 2 ^ 31 := by
  obtain ⟨size, pos, hsize⟩ : ∃ size pos, env.getINodeSize (n.setPtr b s.cp.endPtr)
      (s.append buffer).disk = (size, pos) := ⟨_, _, rfl⟩
  rw [fsWrite_eq h he hn ht hb buffer hsize] at hlen
  exact Nat.lt_of_le_of_lt (insertINode_len env ⟨size, n.type, (n.setPtr b s.cp.endPtr).dataPtrs⟩ i
    ((s.append buffer).seek pos)) hlen

theorem fsWrite_spec (h : LogInv s) (he : env.dest = .caller) (hi : Inum i) {b : Fin 14}
    {block : Int32} (hb : block.toInt = b) {buffer : List UInt8} (hbuf : buffer.length = 4096)
    (hlen : (s.view.write i buffer b 0).2 ≠ none → (fsWrite env i buffer block s).2.disk.file.len < 2 ^ 31) :
    ∃ size s', fsWrite env i buffer block s = ((s.view.write i buffer b size).1, s')
      ∧ Leads s s' (s.view.write i buffer b size).2 := by
  cases hn : s.inode i with
  | none =>
      obtain ⟨q, hq⟩ := getINode_none h he hi env.node hn
      refine ⟨0, s.seek q, ?_, ?_⟩
      · rw [fsWrite, hq, View.write, view_none hn]; rfl
      · rw [View.write, view_none hn]; exact ⟨q, rfl⟩
  | some n =>
      obtain ⟨q, hq⟩ := getINode_some h he env.node hn
      by_cases ht : n.type = fsDirectory
      · have hw : ∀ size, s.view.write i buffer b size = (-1, none) := by
          intro size
          rw [View.write, view_some hn]
          exact if_pos ht
        refine ⟨0, s.seek q, ?_, ?_⟩
        · rw [fsWrite, hq, hw]
          dsimp only
          rw [if_neg (by decide), if_pos ht]
        · rw [hw]; exact ⟨q, rfl⟩
      · -- the size, and where `getINodeSize` leaves the position, may be anything
        obtain ⟨size, pos, hsize⟩ : ∃ size pos, env.getINodeSize (n.setPtr b s.cp.endPtr)
            (s.append buffer).disk = (size, pos) := ⟨_, _, rfl⟩
        have heq := fsWrite_eq h he hn ht hb buffer hsize
        have hw : ∀ size, s.view.write i buffer b size = (0, some (Function.update s.view i
            (some { (s.node n).setBlock b buffer with size := size }))) := by
          intro size
          rw [View.write, view_some hn]
          exact if_neg ht
        rw [hw, heq] at hlen
        obtain ⟨s', hins, h', hg, hv⟩ := @putBlock_spec env s i s n b buffer size pos h
          (Grows.refl s).keeps (h.blocks i n hn) hbuf he hi (hlen (Option.some_ne_none _))
        refine ⟨size, s', ?_, ?_⟩
        · rw [hw, heq, hins]
        · rw [hw]
          exact ⟨h', hg, hv⟩

/-! ## `fs_unlink` -/

theorem appendDirList_eq (hd : s.disk.outcomes = []) (hs : 0 ≤ s.cp.endPtr.toInt) (node : INode)
    (p : Int32) (list : FsDirList) :
    appendDirList env node p list s = (0, (insertINode env node p (s.append list.encode)).2) := by
  have happ : s.append list.encode = ⟨{ s.cp with endPtr := s.cp.endPtr + 4096 },
      Disk.put { s.disk with pos := s.cp.endPtr.toInt.toNat } list.encode⟩ := by
    rw [State.append, list.length_encode]
    rfl
  rw [appendDirList, lseek_done hd hs]
  dsimp only
  rw [write_done (by exact hd), happ]

theorem appendDirList_len (env : Env) (node : INode) (p : Int32) (list : FsDirList) (s : State) :
    s.disk.file.len ≤ (appendDirList env node p list s).2.disk.file.len := by
  have hw := write_len_le list.encode (lseek s.cp.endPtr s.disk).2
  rw [lseek_file] at hw
  rw [appendDirList]
  dsimp only
  exact Nat.le_trans hw (insertINode_len env node p
    ⟨{ s.cp with endPtr := s.cp.endPtr + 4096 }, (write list.encode (lseek s.cp.endPtr s.disk).2).2⟩)

theorem inum_of_pair {V : View} (hv : Sound V) {nd : Node} (hd : V.dir p = some nd) {b : Fin 14}
    {j : Fin 64} {d : FsDir} (hslot : nd.slot b j = some d) (hpos : ¬d.pair < 0) : Inum d.pair := by
  obtain ⟨hvp, ht⟩ := dir_eq_some.mp hd
  rcases (hv.node hvp).pairs ht hslot with hneg | hin
  · rw [hneg] at hpos
    exact absurd (by decide) hpos
  · exact hin

/-- Once `fs_unlink` has found the entry: the inode it names goes, and then the entry. -/
theorem removeEntry_spec {n : INode} {b : Fin 14} {j : Fin 64} {q : Nat} {stat : Int32} {s₁ : State}
    (h : LogInv s) (he : env.dest = .caller) (hp : Inum p) (hn : s.inode p = some n) (hk : Inum k)
    (hdel : deleteINode env k (s.seek q) = (stat, s₁))
    (hlen : s.view.removable k = true → (if stat = -1 then (-1, s₁) else appendDirList env
      (n.setPtr b s₁.cp.endPtr) p (((s.node n).dirList b).set j unused) s₁).2.disk.file.len < 2 ^ 31) :
    ∃ s', (if stat = -1 then (-1, s₁) else appendDirList env (n.setPtr b s₁.cp.endPtr) p
        (((s.node n).dirList b).set j unused) s₁) = (if s.view.removable k then 0 else -1, s')
      ∧ Leads s s' (if s.view.removable k then some (Function.update (Function.update s.view k none) p
        (some ((s.node n).setSlot b j unused))) else none) := by
  cases hrem : s.view.removable k with
  | false =>
      obtain ⟨q', hkept⟩ := deleteINode_kept (h.seek q) he hrem
      rw [hdel] at hkept
      cases hkept
      exact ⟨_, rfl, q', rfl⟩
  | true =>
      have hlen := hlen hrem
      have hdlen : s₁.disk.file.len < 2 ^ 31 := by
        split at hlen
        · exact hlen
        · exact Nat.lt_of_le_of_lt (appendDirList_len env (n.setPtr b s₁.cp.endPtr) p
            (((s.node n).dirList b).set j unused) s₁) hlen
      obtain ⟨s₁', hdel', hleads⟩ := deleteINode_spec (h.seek q) he hk (by rw [hdel]; exact hdlen)
      rw [hdel, seek_view, hrem] at hdel'
      rw [seek_view, hrem] at hleads
      cases hdel'
      rw [if_pos rfl, if_neg (by decide)] at hlen
      rw [if_pos rfl, if_neg (by decide)]
      obtain ⟨h1, hg1, hv1⟩ := hleads
      have hend : 0 ≤ s₁.cp.endPtr.toInt := Int.le_trans (by decide) h1.start
      rw [appendDirList_eq h1.done hend] at hlen ⊢
      -- the parent was loaded before the inode was deleted, and is still what `s` has
      obtain ⟨s₂, hins, h2, hg2, hv2⟩ := @putBlock_spec env s₁ p s n b
        (((s.node n).dirList b).set j unused).encode n.size
        (s₁.append (((s.node n).dirList b).set j unused).encode).disk.pos h1
        ((grows_seek q).trans hg1).keeps (h.blocks p n hn)
        (((s.node n).dirList b).set j unused).length_encode he hp hlen
      refine ⟨s₂, congrArg (fun r => ((0 : Int32), r.2)) hins, h2,
        ((grows_seek q).trans hg1).trans hg2, ?_⟩
      rw [hv2, hv1]
      rfl

/-- `fs_unlink` with the entry found, up to the deletion of the inode it names. -/
theorem fsUnlink_found (h : LogInv s) (he : env.dest = .caller) {n : INode} (hn : s.inode p = some n)
    (ht : n.type = fsDirectory) {b : Fin 14} {j : Fin 64} {d : FsDir}
    (hfind : ((s.node n).find fun _ _ => named name) = some (b, j)) (hslot : (s.node n).slot b j = some d) :
    ∃ q, ∀ stat s₁, deleteINode env d.pair (s.seek q) = (stat, s₁) →
      fsUnlink env p name s = if stat = -1 then (-1, s₁)
        else appendDirList env (n.setPtr b s₁.cp.endPtr) p (((s.node n).dirList b).set j unused) s₁ := by
  obtain ⟨q, hq⟩ := getINode_some h he env.node hn
  obtain ⟨l, q1, hf, hl⟩ := findEntry_dir h hn (fun _ _ => named name) env.dirList q
  have hlb : l = (s.node n).dirList b := hl b j hfind
  have hpair : (l.list j).pair = d.pair := by rw [hlb, slot_eq_dirList hslot]
  refine ⟨q1, fun stat s₁ hdel => ?_⟩
  rw [fsUnlink, hq]
  dsimp only
  rw [if_neg (by decide), if_neg fun hne => hne ht, hf, hfind]
  dsimp only
  rw [hpair, hdel, hlb]
  rfl

theorem fsUnlink_spec (h : LogInv s) (he : env.dest = .caller) (hv : Sound s.view) (hp : Inum p)
    (hlen : (s.view.unlink p name).2 ≠ none → (fsUnlink env p name s).2.disk.file.len < 2 ^ 31) :
    ∃ s', fsUnlink env p name s = ((s.view.unlink p name).1, s')
      ∧ Leads s s' (s.view.unlink p name).2 := by
  cases hn : s.inode p with
  | none =>
      obtain ⟨q, hq⟩ := getINode_none h he hp env.node hn
      refine ⟨s.seek q, ?_, ?_⟩
      · rw [fsUnlink, hq, unlink_of_dir_none (dir_of_none hn)]; rfl
      · rw [unlink_of_dir_none (dir_of_none hn)]; exact ⟨q, rfl⟩
  | some n =>
      obtain ⟨q, hq⟩ := getINode_some h he env.node hn
      by_cases ht : n.type = fsDirectory
      · have hdir := dir_of_dir hn ht
        obtain ⟨l, q1, hf, -⟩ := findEntry_dir h hn (fun _ _ => named name) env.dirList q
        cases hfind : (s.node n).find fun _ _ => named name with
        | none =>
            -- the first block is there, so `j` has been counted
            have hblock : ∃ b, n.dataPtrs b ≠ -1 :=
              ⟨0, fun hne => (hv.node (view_some hn)).first ht (node_blocks_none hne)⟩
            rw [unlink_absent hdir hfind]
            refine ⟨s.seek q1, ?_, q1, rfl⟩
            rw [fsUnlink, hq]
            dsimp only
            rw [if_neg (by decide), if_neg fun hne => hne ht, hf, hfind]
            dsimp only
            rw [if_pos hblock]
            rfl
        | some x =>
            obtain ⟨b, j⟩ := x
            obtain ⟨d, hslot, hnamed⟩ := find_some hfind
            have hk : Inum d.pair := inum_of_pair hv hdir hslot (named_iff.mp hnamed).1
            obtain ⟨q2, hdone⟩ := @fsUnlink_found env s p name h he n hn ht b j d hfind hslot
            rcases hdel : deleteINode env d.pair (s.seek q2) with ⟨stat, s1⟩
            rw [hdone stat s1 hdel, unlink_found hdir hfind hslot] at hlen
            rw [hdone stat s1 hdel, unlink_found hdir hfind hslot]
            obtain ⟨s', hres, hleads⟩ := @removeEntry_spec env s d.pair p n b j q2 stat s1 h he hp hn hk hdel
              fun hrem => hlen (by rw [hrem]; exact Option.some_ne_none _)
            cases hrem : s.view.removable d.pair with
            | false =>
                rw [hrem] at hres hleads
                exact ⟨s', hres, hleads⟩
            | true =>
                rw [hrem] at hres hleads
                exact ⟨s', hres, hleads⟩
      · refine ⟨s.seek q, ?_, ?_⟩
        · rw [fsUnlink, hq, unlink_of_dir_none (dir_of_file hn ht)]
          dsimp only
          rw [if_neg (by decide), if_pos ht]
        · rw [unlink_of_dir_none (dir_of_file hn ht)]; exact ⟨q, rfl⟩

/-! ## `fs_create` -/

theorem inum_nextId {V : View} (h : V.nextId = some k) : Inum k := by
  obtain ⟨n, hn, rfl, -⟩ := nextId_some h
  exact inum_ofNat hn

theorem Inum.ne_neg_one (h : Inum i) : i ≠ -1 := by
  rintro rfl
  exact absurd h.1 (by decide)

/-- The child is created before its entry. -/
theorem createChild_spec {type : Int32} (h : LogInv s) (he : env.dest = .caller) (hk : Inum k)
    (hlen : (if type = fsDirectory then createEmptyDirectory env k p s
      else createEmptyFile env k s).2.disk.file.len < 2 ^ 31) :
    ∃ r s', (if type = fsDirectory then createEmptyDirectory env k p s else createEmptyFile env k s)
        = (r, s') ∧ LogInv s' ∧ Grows s s'
      ∧ s'.view = Function.update s.view k
        (some (if type = fsDirectory then newDir k p else newFile)) := by
  by_cases ht : type = fsDirectory
  · rw [if_pos ht] at hlen ⊢
    rw [if_pos ht]
    exact createEmptyDirectory_spec h he hk hlen
  · rw [if_neg ht] at hlen ⊢
    rw [if_neg ht]
    exact createEmptyFile_spec h he hk hlen

/-- Once `fs_create` has found a slot: the child is made, and then its entry. -/
theorem addEntry_spec {type r : Int32} {n : INode} {b : Fin 14} {j : Fin 64} {q : Nat} {s₁ : State}
    (h : LogInv s) (he : env.dest = .caller) (hp : Inum p) (hn : s.inode p = some n) (hk : Inum k)
    (hchild : (if type = fsDirectory then createEmptyDirectory env k p (s.seek q)
      else createEmptyFile env k (s.seek q)) = (r, s₁))
    (hlen : (insertINode env (n.setPtr b s₁.cp.endPtr) p (writeToEnd
      (((s.node n).dirList b).set j ⟨strncpy name, k⟩).encode s₁).2).2.disk.file.len < 2 ^ 31) :
    Leads s (insertINode env (n.setPtr b s₁.cp.endPtr) p (writeToEnd
        (((s.node n).dirList b).set j ⟨strncpy name, k⟩).encode s₁).2).2
      (some (s.view.link p k (s.node n) (if type = fsDirectory then newDir k p else newFile) b j name)) := by
  have hle := insertINode_len env (n.setPtr b s₁.cp.endPtr) p
    (writeToEnd (((s.node n).dirList b).set j ⟨strncpy name, k⟩).encode s₁).2
  have hlen1 : s₁.disk.file.len < 2 ^ 31 := Nat.lt_of_le_of_lt (Nat.le_trans
    (writeToEnd_len_le (((s.node n).dirList b).set j ⟨strncpy name, k⟩).encode s₁) hle) hlen
  obtain ⟨r', s₁', hchild', h1, hg1, hv1⟩ := @createChild_spec env (s.seek q) k p type (h.seek q) he hk
    (by rw [hchild]; exact hlen1)
  rw [hchild] at hchild'
  cases hchild'
  have hstart := h1.start
  rw [writeToEnd_eq h1.done (by omega)] at hlen ⊢
  -- the parent was loaded before the child was made, and is still what `s` has
  obtain ⟨s₂, hins, h2, hg2, hv2⟩ := @putBlock_spec env s₁ p s n b
    (((s.node n).dirList b).set j ⟨strncpy name, k⟩).encode n.size
    (s₁.append (((s.node n).dirList b).set j ⟨strncpy name, k⟩).encode).disk.pos h1
    ((grows_seek q).trans hg1).keeps (h.blocks p n hn)
    (((s.node n).dirList b).set j ⟨strncpy name, k⟩).length_encode he hp hlen
  have hs₂ : (insertINode env (n.setPtr b s₁.cp.endPtr) p
      (s₁.append (((s.node n).dirList b).set j ⟨strncpy name, k⟩).encode)).2 = s₂ := congrArg Prod.snd hins
  rw [hs₂]
  refine ⟨h2, ((grows_seek q).trans hg1).trans hg2, ?_⟩
  rw [hv2, hv1]
  rfl

/-- The end of `fs_create`, once it has a number for the child. -/
def createIn (env : Env) (p type k : Int32) (name : CStr) (node : INode) (s : State) : Int32 × State :=
  match findSlot node (List.finRange 14) env.dirList s with
  | (none, _, s) => (-1, s)
  | (some (i, j), dirList, s) =>
      let (_, s) := if type = fsDirectory then createEmptyDirectory env k p s else createEmptyFile env k s
      (0, (insertINode env (node.setPtr i s.cp.endPtr) p
        (writeToEnd (dirList.set j ⟨strncpy name, k⟩).encode s).2).2)

/-- `fs_create` in a directory that lacks the name. -/
theorem fsCreate_dir {type : Int32} (h : LogInv s) (he : env.dest = .caller) (hp : Inum p) {n : INode}
    (hn : s.inode p = some n) (ht : n.type = fsDirectory) (hl : s.view.lookup p name = none) :
    ∃ q, fsCreate env p type name s = if s.view.nextId.getD (-1) = -1 then (-1, s.seek q)
      else createIn env p type (s.view.nextId.getD (-1)) name n (s.seek q) := by
  obtain ⟨q, hlook⟩ := @fsLookup_spec env s p name h he hp
  rw [hl] at hlook
  obtain ⟨q1, hq1⟩ := getINode_some (h.seek q) he env.node hn
  obtain ⟨q2, hnext⟩ := @getNextId_spec env (s.seek q1) (h.seek q1) he
  rw [seek_view, seek_seek] at hnext
  refine ⟨q2, ?_⟩
  rw [fsCreate, hlook]
  dsimp only [Option.getD_none]
  rw [if_neg (by decide), hq1]
  dsimp only
  rw [if_neg (by decide), if_neg fun hne => hne ht, seek_seek, hnext]
  dsimp only
  split
  · rfl
  · unfold createIn
    rfl

theorem createIn_full {type : Int32} (h : LogInv s) {n : INode} (hn : s.inode p = some n)
    (hfree : (s.node n).free = none) (q : Nat) :
    ∃ q', createIn env p type k name n (s.seek q) = (-1, s.seek q') := by
  obtain ⟨l, q', hslot, -⟩ := findSlot_dir h hn env.dirList q
  refine ⟨q', ?_⟩
  rw [createIn, hslot, hfree]

theorem createIn_found {type : Int32} (h : LogInv s) {n : INode} (hn : s.inode p = some n) {b : Fin 14}
    {j : Fin 64} (hfree : (s.node n).free = some (b, j)) (q : Nat) :
    ∃ q', ∀ r s₁, (if type = fsDirectory then createEmptyDirectory env k p (s.seek q')
        else createEmptyFile env k (s.seek q')) = (r, s₁) →
      createIn env p type k name n (s.seek q) = (0, (insertINode env (n.setPtr b s₁.cp.endPtr) p (writeToEnd
        (((s.node n).dirList b).set j ⟨strncpy name, k⟩).encode s₁).2).2) := by
  obtain ⟨l, q', hslot, hl⟩ := findSlot_dir h hn env.dirList q
  refine ⟨q', fun r s₁ hchild => ?_⟩
  rw [createIn, hslot, hfree]
  dsimp only
  rw [hchild, hl b j hfree]

theorem fsCreate_spec {type : Int32} (h : LogInv s) (he : env.dest = .caller) (hp : Inum p)
    (hlen : (s.view.create p type name).2 ≠ none → (fsCreate env p type name s).2.disk.file.len < 2 ^ 31) :
    ∃ s', fsCreate env p type name s = ((s.view.create p type name).1, s')
      ∧ Leads s s' (s.view.create p type name).2 := by
  obtain ⟨q, hlook⟩ := @fsLookup_spec env s p name h he hp
  cases hl : s.view.lookup p name with
  | some x =>
      obtain ⟨nd, b, j, d, -, -, hu, -, rfl⟩ := lookup_some hl
      have hne : d.pair ≠ -1 := fun hc => hu.2 (by rw [hc]; decide)
      rw [create_existing (by rw [hl]; rfl)]
      refine ⟨s.seek q, ?_, q, rfl⟩
      rw [fsCreate, hlook, hl]
      exact if_pos hne
  | none =>
      rw [hl] at hlook
      cases hn : s.inode p with
      | none =>
          obtain ⟨q1, hq1⟩ := getINode_none (h.seek q) he hp env.node hn
          rw [create_of_dir_none (dir_of_none hn)]
          refine ⟨s.seek q1, ?_, q1, rfl⟩
          rw [fsCreate, hlook]
          dsimp only
          rw [if_neg (by decide), hq1]
          rfl
      | some n =>
          by_cases ht : n.type = fsDirectory
          · have hdir := dir_of_dir hn ht
            obtain ⟨q1, hq1⟩ := @fsCreate_dir env s p name type h he hp n hn ht hl
            cases hk : s.view.nextId with
            | none =>
                rw [create_no_inum hl hk]
                refine ⟨s.seek q1, ?_, q1, rfl⟩
                rw [hq1, hk]
                rfl
            | some k =>
                have hinum := inum_nextId hk
                rw [hk, Option.getD_some, if_neg hinum.ne_neg_one] at hq1
                cases hfree : (s.node n).free with
                | none =>
                    obtain ⟨q2, hfull⟩ := @createIn_full env s k p name type h n hn hfree q1
                    rw [create_full hl hdir hfree, hq1, hfull]
                    exact ⟨_, rfl, q2, rfl⟩
                | some x =>
                    obtain ⟨b, j⟩ := x
                    obtain ⟨q2, hdone⟩ := @createIn_found env s k p name type h n hn b j hfree q1
                    rcases hchild : (if type = fsDirectory then createEmptyDirectory env k p (s.seek q2)
                      else createEmptyFile env k (s.seek q2)) with ⟨r1, s1⟩
                    rw [hq1, hdone r1 s1 hchild, create_new hl hdir hk hfree] at hlen
                    rw [hq1, hdone r1 s1 hchild, create_new hl hdir hk hfree]
                    exact ⟨_, rfl, addEntry_spec h he hp hn hinum hchild (hlen (Option.some_ne_none _))⟩
          · obtain ⟨q1, hq1⟩ := getINode_some (h.seek q) he env.node hn
            rw [create_of_dir_none (dir_of_file hn ht)]
            refine ⟨s.seek q1, ?_, q1, rfl⟩
            rw [fsCreate, hlook]
            dsimp only
            rw [if_neg (by decide), hq1]
            dsimp only
            rw [if_neg (by decide), if_pos ht]
            rfl

/-! ## Calls that change nothing a client can observe -/

theorem getINode_moved (hd : s.disk.outcomes = []) (node : INode) :
    Moved s (getINode env i node s).2.2 := by
  have hm := @getIMap_moved env s i hd env.map
  rw [getINode]
  generalize getIMap env i env.map s = c at hm ⊢
  obtain ⟨r, map, s1⟩ := c
  dsimp only at hm ⊢
  split
  · exact hm
  · split
    · exact hm
    · have hr := hm.trans (read_moved (hm.outcomes.trans hd) (getAt map.ptr (getMapIndexNum i)) 64
        node.encode)
      split
      · exact hr
      · exact hr

theorem readDirList_moved (hd : s.disk.outcomes = []) (ptr : Int32) (list : FsDirList) :
    Moved s (readDirList ptr list s).2 := read_moved hd ptr 4096 list.encode

theorem readParentEntry_moved {n : INode} {buffer : List UInt8} (hd : s.disk.outcomes = []) :
    Moved s (readParentEntry env i n buffer s).2.2 := by
  have h1 := readDirList_moved hd (n.dataPtrs 0) env.dirList
  unfold readParentEntry
  generalize readDirList (n.dataPtrs 0) env.dirList s = c at h1 ⊢
  obtain ⟨childList, s1⟩ := c
  have h2 := @getINode_moved env s1 (childList.list 1).pair (h1.outcomes.trans hd) env.node
  dsimp only
  generalize getINode env (childList.list 1).pair env.node s1 = c at h2 ⊢
  obtain ⟨r, pnode, s2⟩ := c
  have h3 := readDirList_moved ((h1.trans h2).outcomes.trans hd) (pnode.dataPtrs 0) env.dirList
  dsimp only
  generalize readDirList (pnode.dataPtrs 0) env.dirList s2 = c at h3 ⊢
  split <;> exact (h1.trans h2).trans h3

/-- Whatever it is asked for, `fs_read` only moves the file position. -/
theorem fsRead_moved {block : Int32} {buffer : List UInt8} (hd : s.disk.outcomes = []) :
    Moved s (fsRead env i buffer block s).2.2 := by
  have hn := @getINode_moved env s i hd env.node
  rw [fsRead]
  generalize getINode env i env.node s = c at hn ⊢
  obtain ⟨r, n, s1⟩ := c
  dsimp only at hn ⊢
  split
  · exact hn
  · split
    · exact hn.trans (read_moved (hn.outcomes.trans hd) (getAt n.dataPtrs block) bufferSize buffer)
    · exact hn.trans (readParentEntry_moved (hn.outcomes.trans hd))

/-- States with the same log: the image may differ in the checkpoint region and past the end. -/
theorem keeps_of_agree (hc : s'.cp.endPtr = s.cp.endPtr) (hlen : s.disk.file.len ≤ s'.disk.file.len)
    (hdata : ∀ x : Nat, 1028 ≤ x → (x : Int) < s.cp.endPtr.toInt → x < s.disk.file.len →
      s'.disk.file.data x = s.disk.file.data x) : Keeps s s' where
  stored hp := by
    have h1 := hp.present
    exact ⟨hp.start, by rw [hc]; exact hp.fits, by omega⟩
  bytes hp := by
    have h1 := hp.start
    have h2 := hp.fits
    have h3 := hp.present
    exact load_congr fun x hx hx' => hdata x (by omega) (by omega) (by omega)

/-- The state after `fs_fsync`: the checkpoint region is written and the journal is empty. -/
def State.synced (s : State) : State :=
  ⟨s.cp, { file := s.disk.file.pwrite 0 s.cp.encode, pos := 1028, outcomes := [], journal := [] }⟩

theorem fsFsync_eq (hd : s.disk.outcomes = []) : fsFsync s = (0, s.synced) := by
  have hlen : ¬(((1028 : Nat) : Int) < 0) := by omega
  rw [fsFsync, lseek_done hd (by decide)]
  dsimp only
  rw [write_done (by exact hd), s.cp.length_encode]
  dsimp only
  rw [if_neg hlen, fsync, next_done (by exact hd), Disk.put, s.cp.length_encode, hd]
  rfl

/-- `fs_fsync` changes nothing a client can observe. -/
theorem synced_spec (h : LogInv s) : LogInv s.synced ∧ s.synced.view = s.view := by
  have hk : Keeps s s.synced :=
    keeps_of_agree rfl (Nat.le_max_left _ _) fun x hx _ hx' =>
      File.pwrite_above hx' (by rw [s.cp.length_encode]; omega)
  obtain ⟨hinv, hin⟩ := h.of_keeps hk h.done.symm h.start rfl
  exact ⟨hinv, hk.view h hin⟩

theorem blank_view : (State.blank []).view = fun _ => none := by
  funext i
  refine view_none ?_
  by_contra hne
  obtain ⟨nd, hnd⟩ := Option.ne_none_iff_exists'.mp hne
  have hm : getAt (State.blank []).cp.mapPtrs (getIMapNum i) = 0 := by
    unfold getAt
    split <;> rfl
  exact (inode_eq_some hnd).2.1 (if_pos hm)

/-- `fs_init` without an image makes the root directory. -/
theorem fsInit_fresh (he : env.dest = .caller) (h : fsInit env none true [] = some s)
    (hlen : s.disk.file.len < 2 ^ 31) :
    LogInv s ∧ s.view = Function.update (fun _ => none) 0 (some (newDir 0 0)) := by
  rw [fsInit, if_neg (by decide)] at h
  cases Option.some.inj h
  obtain ⟨r, s', heq, h', -, hv⟩ := createEmptyDirectory_spec logInv_blank he (by decide) hlen
  rw [heq]
  exact ⟨h', by rw [hv, blank_view]⟩

end Cs537.Fs
