import Cs537.Fs.Log
import Cs537.Fs.View

/-!
# `fs.c` computes the operations on views

Every function of `fs.c` that a client can call, with `getIMap` at its contract, is
an operation of `View.lean` on the view of its state. `Leads` is how the state
after the call relates to the view the operation returns: if that is `none`, nothing
but the file position has changed; otherwise the log has grown and shows the new view.

The two places that need care are the ones where an inode is held across changes to
the log. `fs_create` loads the parent before it inserts the child, and `fs_unlink`
before it deletes the victim; what they insert in the end is still the inode of the
state they started from, with one block replaced (`putBlock_spec`).
-/

namespace Cs537.Fs

open Lib

variable {env : Env} {s s' s'' : State} {i k p : Int32} {name : CStr}

/-! ## The view of a state -/

/-- An inode with the contents of its blocks. -/
def State.node (s : State) (n : INode) : Node :=
  ⟨n.size, n.type, fun b => if n.dataPtrs b = -1 then none else some (s.bytes (n.dataPtrs b) 4096)⟩

/-- What a client can observe. -/
def State.view (s : State) : View := fun i => (s.inode i).map s.node

@[simp] theorem seek_view (q : Nat) : (s.seek q).view = s.view := rfl

/-- The blocks of `n` are in the log. -/
def BlocksStored (s : State) (n : INode) : Prop :=
  ∀ b, n.dataPtrs b ≠ -1 → Stored s (n.dataPtrs b) 4096

theorem Keeps.node (h : Keeps s s') {n : INode} (hn : BlocksStored s n) : s'.node n = s.node n := by
  unfold State.node
  congr 1
  funext b
  split
  · rfl
  · rename_i hb
    rw [h.bytes (hn b hb)]

/-- The view follows the inodes. -/
theorem Keeps.view (hk : Keeps s s') (h : LogInv s) (hin : s'.inode = s.inode) :
    s'.view = s.view := by
  funext j
  rw [State.view, State.view, hin]
  cases hj : s.inode j with
  | none => rfl
  | some n => rw [Option.map_some, Option.map_some, hk.node (h.blocks j n hj)]

/-- One inode changes, and with it one entry of the view. -/
theorem Keeps.view_update (hk : Keeps s s') (h : LogInv s) {o : Option INode}
    (hin : s'.inode = Function.update s.inode i o) :
    s'.view = Function.update s.view i (o.map s'.node) := by
  funext j
  rw [State.view, hin]
  by_cases hj : j = i
  · subst hj
    rw [Function.update_self, Function.update_self]
  · rw [Function.update_of_ne hj, Function.update_of_ne hj, State.view]
    cases hn : s.inode j with
    | none => rfl
    | some n => rw [Option.map_some, Option.map_some, hk.node (h.blocks j n hn)]

/-- The state after a call, against the view its operation returns. -/
def Leads (s s' : State) : Option View → Prop
  | none => Moved s s'
  | some V => LogInv s' ∧ Grows s s' ∧ s'.view = V

theorem Leads.inv {o : Option View} (h : LogInv s) (hl : Leads s s' o) :
    LogInv s' ∧ Grows s s' ∧ s'.view = o.getD s.view := by
  cases o with
  | none =>
      obtain ⟨q, rfl⟩ := hl
      exact ⟨h.seek q, grows_seek q, rfl⟩
  | some V => exact hl

/-- What holds of every node: directories have their first block, and entries name inodes. -/
structure SoundNode (nd : Node) : Prop where
  type : nd.type = fsDirectory ∨ nd.type = fsRegularFile
  first : nd.type = fsDirectory → nd.blocks 0 ≠ none
  pairs : nd.type = fsDirectory → ∀ {b j d}, nd.slot b j = some d → d.pair = -1 ∨ Inum d.pair

/-- What holds of every view. -/
structure Sound (V : View) : Prop where
  inum : ∀ {i nd}, V i = some nd → Inum i
  node : ∀ {i nd}, V i = some nd → SoundNode nd

theorem view_none (h : s.inode i = none) : s.view i = none := by rw [State.view, h]; rfl

theorem view_some {n : INode} (h : s.inode i = some n) : s.view i = some (s.node n) := by
  rw [State.view, h]; rfl

theorem dir_of_none (h : s.inode p = none) : s.view.dir p = none := by
  rw [View.dir, view_none h]; rfl

theorem dir_of_file {n : INode} (h : s.inode p = some n) (ht : n.type ≠ fsDirectory) :
    s.view.dir p = none := dir_of_type_ne (view_some h) ht

theorem dir_of_dir {n : INode} (h : s.inode p = some n) (ht : n.type = fsDirectory) :
    s.view.dir p = some (s.node n) := dir_eq_some.mpr ⟨view_some h, ht⟩

/-! ## Reading directories -/

theorem readDirList_spec {ptr : Int32} (hd : s.disk.outcomes = []) (hp : Stored s ptr 4096)
    (list : FsDirList) :
    ∃ q, readDirList ptr list s = (FsDirList.decode (s.bytes ptr 4096), s.seek q) := by
  have hread := read_stored hp hd list.length_encode
  rw [readDirList]
  dsimp only
  rw [hread]
  exact ⟨_, rfl⟩

theorem node_blocks {n : INode} {b : Fin 14} (h : n.dataPtrs b ≠ -1) :
    (s.node n).blocks b = some (s.bytes (n.dataPtrs b) 4096) := if_neg h

theorem node_blocks_none {n : INode} {b : Fin 14} (h : n.dataPtrs b = -1) :
    (s.node n).blocks b = none := if_pos h

/-- `findEntry` finds the first slot that hits, and returns with its block. -/
theorem findEntry_spec (hit : Fin 14 → Fin 64 → FsDir → Bool) {n : INode} :
    ∀ (is : List (Fin 14)) (list : FsDirList) (s : State), s.disk.outcomes = [] → BlocksStored s n →
      ∃ l q, findEntry hit n is list s = ((s.node n).findIn hit is, l, s.seek q)
        ∧ ∀ i j, (s.node n).findIn hit is = some (i, j) → l = (s.node n).dirList i := by
  intro is
  induction is with
  | nil =>
      intro list s _ _
      exact ⟨list, s.disk.pos, rfl, by intro i j h; cases h⟩
  | cons b is ih =>
      intro list s hd hn
      rw [findEntry, Node.findIn]
      by_cases hb : n.dataPtrs b = -1
      · rw [if_pos hb, node_blocks_none hb]
        exact ih list s hd hn
      · -- a block without a hit only moves the position
        obtain ⟨q, hq⟩ := readDirList_spec hd (hn b hb) list
        rw [if_neg hb, node_blocks hb, hq]
        dsimp only
        cases hf : (List.finRange 64).find? fun j =>
            hit b j ((FsDirList.decode (s.bytes (n.dataPtrs b) 4096)).list j) with
        | some j =>
            refine ⟨_, q, rfl, ?_⟩
            intro i j' hij
            cases hij
            rw [Node.dirList, node_blocks hb]
        | none => exact ih _ (s.seek q) hd fun b hb => (seek_stored q).mpr (hn b hb)

/-- `findSlot` finds the first free slot, and returns with the block to put the entry into. -/
theorem findSlot_spec {n : INode} :
    ∀ (is : List (Fin 14)) (list : FsDirList) (s : State), s.disk.outcomes = [] → BlocksStored s n →
      ∃ l q, findSlot n is list s = ((s.node n).freeIn is, l, s.seek q)
        ∧ ∀ i j, (s.node n).freeIn is = some (i, j) → l = (s.node n).dirList i := by
  intro is
  induction is with
  | nil =>
      intro list s _ _
      exact ⟨list, s.disk.pos, rfl, by intro i j h; cases h⟩
  | cons b is ih =>
      intro list s hd hn
      rw [findSlot, Node.freeIn]
      by_cases hb : n.dataPtrs b = -1
      · -- the first block that was never written is taken as an empty one
        rw [if_pos hb, node_blocks_none hb]
        refine ⟨_, s.disk.pos, rfl, ?_⟩
        intro i j hij
        cases hij
        rw [Node.dirList, node_blocks_none hb]
      · obtain ⟨q, hq⟩ := readDirList_spec hd (hn b hb) list
        rw [if_neg hb, node_blocks hb, hq]
        dsimp only
        cases hf : (List.finRange 64).find? fun j =>
            decide (((FsDirList.decode (s.bytes (n.dataPtrs b) 4096)).list j).pair < 0) with
        | some j =>
            refine ⟨_, q, rfl, ?_⟩
            intro i j' hij
            cases hij
            rw [Node.dirList, node_blocks hb]
        | none => exact ih _ (s.seek q) hd fun b hb => (seek_stored q).mpr (hn b hb)

/-- The loops above over the whole of an inode of the state. -/
theorem findEntry_dir (h : LogInv s) {n : INode} (hn : s.inode p = some n)
    (hit : Fin 14 → Fin 64 → FsDir → Bool) (list : FsDirList) (q : Nat) :
    ∃ l q', findEntry hit n (List.finRange 14) list (s.seek q) = ((s.node n).find hit, l, s.seek q')
      ∧ ∀ i j, (s.node n).find hit = some (i, j) → l = (s.node n).dirList i :=
  findEntry_spec hit (List.finRange 14) list (s.seek q) h.done (h.seek q |>.blocks p n hn)

theorem findSlot_dir (h : LogInv s) {n : INode} (hn : s.inode p = some n) (list : FsDirList) (q : Nat) :
    ∃ l q', findSlot n (List.finRange 14) list (s.seek q) = ((s.node n).free, l, s.seek q')
      ∧ ∀ i j, (s.node n).free = some (i, j) → l = (s.node n).dirList i :=
  findSlot_spec (List.finRange 14) list (s.seek q) h.done (h.seek q |>.blocks p n hn)

/-- `fs_lookup`. -/
theorem fsLookup_spec (h : LogInv s) (he : env.dest = .caller) (hp : Inum p) :
    ∃ q, fsLookup env p name s = ((s.view.lookup p name).getD (-1), s.seek q) := by
  cases hn : s.inode p with
  | none =>
      obtain ⟨q, hq⟩ := getINode_none h he hp env.node hn
      rw [fsLookup, hq, lookup_of_dir_none (dir_of_none hn)]
      exact ⟨q, rfl⟩
  | some n =>
      obtain ⟨q, hq⟩ := getINode_some h he env.node hn
      rw [fsLookup, hq]
      dsimp only
      rw [if_neg (by decide)]
      by_cases ht : n.type = fsDirectory
      · obtain ⟨l, q', hf, hl⟩ := findEntry_dir h hn (fun _ _ => named name) env.dirList q
        rw [if_neg fun hne => hne ht, hf, lookup_of_dir (dir_of_dir hn ht)]
        refine ⟨q', ?_⟩
        cases hfind : (s.node n).find fun _ _ => named name with
        | none => rfl
        | some x =>
            obtain ⟨b, j⟩ := x
            obtain ⟨d, hslot, -⟩ := find_some hfind
            -- the block in `list` is the one with the hit
            have hld : l.list j = d := by
              rw [hl b j hfind]
              exact slot_eq_dirList hslot
            rw [Option.bind_some, hslot]
            exact congrArg (fun d : FsDir => (d.pair, s.seek q')) hld
      · rw [if_pos ht, lookup_of_dir_none (dir_of_file hn ht)]
        exact ⟨q, rfl⟩

/-! ## Reading inodes -/

/-- `fs_stat`. -/
theorem fsStat_spec (h : LogInv s) (he : env.dest = .caller) (hi : Inum i) (m : StatT) :
    ∃ q, fsStat env i m s = ((if (s.view.stat i).isSome then 0 else -1),
      (s.view.stat i).getD m, s.seek q) := by
  cases hn : s.inode i with
  | none =>
      obtain ⟨q, hq⟩ := getINode_none h he hi env.node hn
      rw [fsStat, hq, View.stat, view_none hn]
      exact ⟨q, rfl⟩
  | some n =>
      obtain ⟨q, hq⟩ := getINode_some h he env.node hn
      rw [fsStat, hq, View.stat, view_some hn]
      exact ⟨q, rfl⟩

/-- `fs_read` of a block of a regular file that was written. -/
theorem fsRead_spec (h : LogInv s) (he : env.dest = .caller) {b : Fin 14} {block : Int32}
    (hb : block.toInt = b) {bs buffer : List UInt8} (hlen : buffer.length = 4096)
    (hv : s.view.block i b = some bs) :
    ∃ q, fsRead env i buffer block s = (0, bs, s.seek q) := by
  cases hn : s.inode i with
  | none =>
      rw [View.block, view_none hn] at hv
      cases hv
  | some n =>
      obtain ⟨q, hq⟩ := getINode_some h he env.node hn
      rw [View.block, view_some hn] at hv
      have hv' : (if n.type = fsRegularFile then (s.node n).blocks b else none) = some bs := hv
      split at hv'
      · rename_i ht
        have hptr : n.dataPtrs b ≠ -1 := by
          intro hne
          rw [node_blocks_none hne] at hv'
          cases hv'
        rw [node_blocks hptr] at hv'
        cases hv'
        have hst : Stored (s.seek q) (n.dataPtrs b) 4096 :=
          (seek_stored q).mpr (h.blocks i n hn b hptr)
        have hread := read_stored hst h.done hlen
        rw [fsRead, hq]
        dsimp only
        rw [if_neg (by decide), if_pos ht, getAt_of_toInt hb, bufferSize, hread]
        exact ⟨_, rfl⟩
      · cases hv'

/-- The loop of `getNextId`. -/
theorem getNextIdFrom_spec (he : env.dest = .caller) : ∀ (n i : Nat) (node : INode) (s : State),
    LogInv s → i + n ≤ 4096 → ∃ q, getNextIdFrom env n i node s
      = ((((List.range' i n).find? fun k => (s.view (Int32.ofNat k)).isNone).map Int32.ofNat).getD (-1),
        s.seek q) := by
  intro n
  induction n with
  | zero => exact fun _ _ s _ _ => ⟨s.disk.pos, rfl⟩
  | succ n ih =>
      intro i node s h hi
      have hinum : Inum (Int32.ofNat i) := inum_ofNat (by omega)
      rw [getNextIdFrom, List.range'_succ, List.find?_cons]
      cases hn : s.inode (Int32.ofNat i) with
      | none =>
          obtain ⟨q, hq⟩ := getINode_none h he hinum node hn
          rw [hq, view_none hn]
          exact ⟨q, rfl⟩
      | some nd =>
          obtain ⟨q, hq⟩ := getINode_some h he node hn
          obtain ⟨q', hq'⟩ := ih (i + 1) nd (s.seek q) (h.seek q) (by omega)
          rw [hq, view_some hn]
          dsimp only
          rw [if_neg (by decide), hq']
          exact ⟨q', rfl⟩

/-- `getNextId`. -/
theorem getNextId_spec (h : LogInv s) (he : env.dest = .caller) :
    ∃ q, getNextId env s = ((s.view.nextId).getD (-1), s.seek q) := by
  obtain ⟨q, hq⟩ := getNextIdFrom_spec he 4096 0 env.node s h (by omega)
  rw [getNextId, View.nextId, bufferSize, List.range_eq_range', hq]
  exact ⟨q, rfl⟩

/-! ## Writing a block and its inode -/

theorem insertINode_len (env : Env) (node : INode) (i : Int32) (s : State) :
    s.disk.file.len ≤ (insertINode env node i s).2.disk.file.len :=
  Nat.le_trans (writeToEnd_len_le _ _) (insertINode_len_le env node i s)

/-- The end of the log is not -1. -/
theorem LogInv.end_ne (h : LogInv s) : s.cp.endPtr ≠ -1 := by
  intro he
  have hstart := h.start
  rw [he] at hstart
  exact absurd hstart (by decide)

/-- The inode `n` of an older state, with block `b` at the end of the log. -/
theorem append_block {s₀ : State} {n : INode} {b : Fin 14} {bs : List UInt8} (size : Int32)
    (h : LogInv s) (hk : Keeps s₀ s) (hn : BlocksStored s₀ n) (hbs : bs.length = 4096)
    (hlen : (s.append bs).disk.file.len < 2 ^ 31) :
    BlocksStored (s.append bs) ⟨size, n.type, (n.setPtr b s.cp.endPtr).dataPtrs⟩
      ∧ (s.append bs).node ⟨size, n.type, (n.setPtr b s.cp.endPtr).dataPtrs⟩
        = { (s₀.node n).setBlock b bs with size := size } := by
  obtain ⟨-, hg, -⟩ := logInv_append h hlen
  obtain ⟨hst, hbytes⟩ := append_stored h.start hlen
  rw [hbs] at hst hbytes
  -- the other blocks are where `s₀` had them
  have hk' : Keeps s₀ (s.append bs) :=
    ⟨fun hp => hg.keeps.stored (hk.stored hp),
      fun hp => (hg.keeps.bytes (hk.stored hp)).trans (hk.bytes hp)⟩
  constructor
  · intro b' hb'
    by_cases hbb : b' = b
    · have hp : (n.setPtr b s.cp.endPtr).dataPtrs b' = s.cp.endPtr := if_pos hbb
      show Stored _ ((n.setPtr b s.cp.endPtr).dataPtrs b') 4096
      rw [hp]
      exact hst
    · have hp : (n.setPtr b s.cp.endPtr).dataPtrs b' = n.dataPtrs b' := if_neg hbb
      have hne : (n.setPtr b s.cp.endPtr).dataPtrs b' ≠ -1 := hb'
      show Stored _ ((n.setPtr b s.cp.endPtr).dataPtrs b') 4096
      rw [hp] at hne ⊢
      exact hk'.stored (hn b' hne)
  · unfold State.node Node.setBlock
    dsimp only
    congr 1
    funext b'
    by_cases hbb : b' = b
    · have hp : (n.setPtr b s.cp.endPtr).dataPtrs b' = s.cp.endPtr := if_pos hbb
      rw [hp, if_neg h.end_ne, hbytes, hbb, Function.update_self]
    · have hp : (n.setPtr b s.cp.endPtr).dataPtrs b' = n.dataPtrs b' := if_neg hbb
      rw [hp, Function.update_of_ne hbb]
      split
      · rfl
      · rename_i hne
        rw [hk'.bytes (hn b' hne)]

/-- A block and then an inode that points to it are appended: the inode has that block. -/
theorem putBlock_spec {s₀ : State} {n : INode} {b : Fin 14} {bs : List UInt8} {size : Int32} {q : Nat}
    (h : LogInv s) (hk : Keeps s₀ s) (hn : BlocksStored s₀ n) (hbs : bs.length = 4096)
    (he : env.dest = .caller) (hi : Inum i)
    (hlen : (insertINode env ⟨size, n.type, (n.setPtr b s.cp.endPtr).dataPtrs⟩ i
      ((s.append bs).seek q)).2.disk.file.len < 2 ^ 31) :
    ∃ s', insertINode env ⟨size, n.type, (n.setPtr b s.cp.endPtr).dataPtrs⟩ i ((s.append bs).seek q)
        = (0, s') ∧ LogInv s' ∧ Grows s s'
      ∧ s'.view = Function.update s.view i (some { (s₀.node n).setBlock b bs with size := size }) := by
  have hle := insertINode_len env ⟨size, n.type, (n.setPtr b s.cp.endPtr).dataPtrs⟩ i
    ((s.append bs).seek q)
  rw [seek_file] at hle
  have hlen1 : (s.append bs).disk.file.len < 2 ^ 31 := Nat.lt_of_le_of_lt hle hlen
  obtain ⟨h1, hg1, hin1⟩ := logInv_append h hlen1
  obtain ⟨hst, hnode⟩ := @append_block s s₀ n b bs size h hk hn hbs hlen1
  obtain ⟨s', heq, h', hg, hin⟩ := insertINode_spec (h1.seek q) he hi
    (fun b' hb' => (seek_stored q).mpr (hst b' hb')) hlen
  refine ⟨s', heq, h', (hg1.trans (grows_seek q)).trans hg, ?_⟩
  rw [hg.keeps.view_update (h1.seek q) hin, Option.map_some,
    hg.keeps.node (fun b' hb' => (seek_stored q).mpr (hst b' hb')), seek_view,
    hg1.keeps.view h hin1]
  exact congrArg (fun nd => Function.update s.view i (some nd)) hnode

/-- `createEmptyFile`. -/
theorem createEmptyFile_spec (h : LogInv s) (he : env.dest = .caller) (hi : Inum i)
    (hlen : (createEmptyFile env i s).2.disk.file.len < 2 ^ 31) :
    ∃ r s', createEmptyFile env i s = (r, s') ∧ LogInv s' ∧ Grows s s'
      ∧ s'.view = Function.update s.view i (some newFile) := by
  have hst : BlocksStored s ⟨0, fsRegularFile, fun _ => -1⟩ := fun b hb => absurd rfl hb
  obtain ⟨s', heq, h', hg, hin⟩ := insertINode_spec h he hi hst hlen
  refine ⟨0, s', heq, h', hg, ?_⟩
  rw [hg.keeps.view_update h hin]
  rfl

/-- `createEmptyDirectory`. -/
theorem createEmptyDirectory_spec (h : LogInv s) (he : env.dest = .caller) (hi : Inum i)
    (hlen : (createEmptyDirectory env i p s).2.disk.file.len < 2 ^ 31) :
    ∃ r s', createEmptyDirectory env i p s = (r, s') ∧ LogInv s' ∧ Grows s s'
      ∧ s'.view = Function.update s.view i (some (newDir i p)) := by
  have hstart := h.start
  have hst : BlocksStored s ⟨Int32.ofNat bufferSize, fsDirectory, fun _ => -1⟩ :=
    fun b hb => absurd rfl hb
  have heq : createEmptyDirectory env i p s = insertINode env
      (INode.setPtr ⟨Int32.ofNat bufferSize, fsDirectory, fun _ => -1⟩ 0 s.cp.endPtr) i
      (s.append (newDirList i p).encode) := by
    rw [createEmptyDirectory, writeToEnd_eq h.done (by omega)]
  rw [heq] at hlen ⊢
  obtain ⟨s', heq', h', hg, hv⟩ := @putBlock_spec env s i s _ 0 (newDirList i p).encode
    (Int32.ofNat bufferSize) (s.append (newDirList i p).encode).disk.pos h (Grows.refl s).keeps hst
    (newDirList i p).length_encode he hi hlen
  exact ⟨0, s', heq', h', hg, hv⟩

/-! ## Deleting an inode -/

/-- What the emptiness check leaves, for a directory and for a file. -/
theorem emptyCheck_spec (h : LogInv s) {n : INode} (hn : s.inode i = some n) (q : Nat) :
    ∃ hit l q', (if n.type = fsDirectory then findEntry occupied n (List.finRange 14) env.dirList (s.seek q)
        else (none, env.dirList, s.seek q)) = (hit, l, s.seek q')
      ∧ s.view.removable i = hit.isNone := by
  by_cases ht : n.type = fsDirectory
  · obtain ⟨l, q', hf, -⟩ := findEntry_dir h hn occupied env.dirList q
    refine ⟨_, l, q', by rw [if_pos ht]; exact hf, ?_⟩
    rw [View.removable, dir_of_dir hn ht]
  · refine ⟨none, env.dirList, q, by rw [if_neg ht], ?_⟩
    rw [View.removable, dir_of_file hn ht]
    rfl

/-- There is nothing to delete. -/
theorem deleteINode_none (h : LogInv s) (he : env.dest = .caller) (hi : Inum i) (hn : s.inode i = none) :
    ∃ q, deleteINode env i s = (0, s.seek q) := by
  obtain ⟨q, hq⟩ := getINode_none h he hi env.node hn
  refine ⟨q, ?_⟩
  rw [deleteINode, hq]
  rfl

/-- A directory with entries stays. -/
theorem deleteINode_kept (h : LogInv s) (he : env.dest = .caller) (hrem : s.view.removable i = false) :
    ∃ q, deleteINode env i s = (-1, s.seek q) := by
  cases hn : s.inode i with
  | none =>
      rw [View.removable, dir_of_none hn] at hrem
      cases hrem
  | some n =>
      obtain ⟨q, hq⟩ := getINode_some h he env.node hn
      obtain ⟨hit, l, q1, hscan, hhit⟩ := @emptyCheck_spec env s i h n hn q
      rw [hrem] at hhit
      cases hit with
      | none => cases hhit
      | some x =>
          refine ⟨q1, ?_⟩
          rw [deleteINode, hq]
          dsimp only
          rw [if_neg (by decide), hscan]

/-- An inode goes with an append of its map. -/
theorem deleteINode_found (h : LogInv s) (he : env.dest = .caller) {n : INode} (hn : s.inode i = some n)
    (hrem : s.view.removable i = true) :
    ∃ m q, deleteINode env i s = (0, (s.seek q).putMap m i (-1))
      ∧ ∀ j, Inum j → getIMapNum j = getIMapNum i → getAt m.ptr (getMapIndexNum j) = s.entry j := by
  obtain ⟨q, hq⟩ := getINode_some h he env.node hn
  obtain ⟨hit, l, q1, hscan, hhit⟩ := @emptyCheck_spec env s i h n hn q
  rw [hrem] at hhit
  cases hit with
  | some x => cases hhit
  | none =>
      -- the inode was found, so the map is there and is the one that is written back
      obtain ⟨hinum, hentry, -⟩ := inode_eq_some hn
      have hm : getAt s.cp.mapPtrs (getIMapNum i) ≠ 0 := fun hm => hentry (if_pos hm)
      obtain ⟨r, m, q2, hget, hr, hmap⟩ := getIMap_entries (h.seek q1) he hinum env.map
      rw [if_neg (hr hm)] at hmap
      have hstart := h.start
      have hput := @putIMap_eq (s.seek q2) h.done (show 0 ≤ s.cp.endPtr.toInt by omega) m i (-1)
      refine ⟨m, q2, ?_, hmap⟩
      rw [deleteINode, hq]
      dsimp only
      rw [if_neg (by decide), hscan]
      dsimp only
      rw [hget, seek_seek]
      dsimp only
      rw [hput]

/-- `deleteINode`. -/
theorem deleteINode_spec (h : LogInv s) (he : env.dest = .caller) (hi : Inum i)
    (hlen : (deleteINode env i s).2.disk.file.len < 2 ^ 31) :
    ∃ s', deleteINode env i s = (if s.view.removable i then 0 else -1, s')
      ∧ Leads s s' (if s.view.removable i then some (Function.update s.view i none) else none) := by
  cases hrem : s.view.removable i with
  | false =>
      obtain ⟨q, hq⟩ := deleteINode_kept h he hrem
      exact ⟨_, hq, q, rfl⟩
  | true =>
      cases hn : s.inode i with
      | none =>
          obtain ⟨q, hq⟩ := deleteINode_none h he hi hn
          refine ⟨_, hq, h.seek q, grows_seek q, ?_⟩
          rw [seek_view, Function.update_eq_self_iff.mpr (view_none hn).symm]
      | some n =>
          obtain ⟨m, q, heq, hmap⟩ := deleteINode_found h he hn hrem
          rw [heq] at hlen
          obtain ⟨h2, hg2, hin2⟩ := logInv_putMap (h.seek q) hi hmap (fun hne => absurd rfl hne) hlen
          refine ⟨_, heq, h2, (grows_seek q).trans hg2, ?_⟩
          rw [hg2.keeps.view_update (h.seek q) hin2, if_pos rfl]
          rfl

end Cs537.Fs
