import Cs537.Fs.Growth

/-!
# The indices into the tables

`cp.mapPtrs` has 256 elements, the table of a map 16, and that of an inode 14. The indices
come from inode numbers, from the block that is asked for, and from loops. What a call
indexes is listed here beside the functions of the source, with the indices behind a
system call that could fail as if it had succeeded.

The client looks at the sign of a number only, so that any number from 4096 on leaves
`cp.mapPtrs`. And `fs_read` of a directory takes the number of its parent out of the second
slot without asking whether that is used: after an unlink of `..` it is -1, and the element
before `cp.mapPtrs` is `cp.endPtr`.
-/

namespace Cs537.Fs

open Lib

variable {env : Env} {s : State} {i p k : Int32} {name : CStr}

/-- An index into `cp.mapPtrs`, the `ptr` of a map, or the `dataPtrs` of an inode. -/
inductive Access where
  | mapPtrs (index : Int32)
  | ptr (index : Int32)
  | dataPtrs (index : Int32)

def Access.Inside : Access → Prop
  | .mapPtrs index => 0 ≤ index.toInt ∧ index.toInt < 256
  | .ptr index => 0 ≤ index.toInt ∧ index.toInt < 16
  | .dataPtrs index => 0 ≤ index.toInt ∧ index.toInt < 14

/-! ## Helper functions -/

/-- In `getIMap`. -/
def getIMapIndexes (inum : Int32) : List Access := [.mapPtrs (getIMapNum inum)]

/-- In `getINode`. -/
def getINodeIndexes (env : Env) (inum : Int32) (s : State) : List Access :=
  getIMapIndexes inum ++ if (getIMap env inum env.map s).1 = -1 then [] else [.ptr (getMapIndexNum inum)]

/-- Behind `getIMap`, in `insertINode` and `deleteINode`. -/
def putIMapIndexes (inum : Int32) : List Access := [.ptr (getMapIndexNum inum), .mapPtrs (getIMapNum inum)]

/-- In `insertINode`. -/
def insertINodeIndexes (inum : Int32) : List Access := getIMapIndexes inum ++ putIMapIndexes inum

/-- In a loop over the blocks of an inode. -/
def loopIndexes : List Access := (List.finRange 14).map fun i : Fin 14 => .dataPtrs (Int32.ofNat i)

/-- In `deleteINode`. -/
def deleteINodeIndexes (env : Env) (inum : Int32) (s : State) : List Access :=
  getINodeIndexes env inum s ++
    if (getINode env inum env.node s).1 = -1 then []
    else loopIndexes ++ getIMapIndexes inum ++ putIMapIndexes inum

/-- In the loop of `getNextId`. -/
def getNextIdIndexes (env : Env) : Nat → Nat → INode → State → List Access
  | 0, _, _, _ => []
  | n + 1, i, node, s =>
      let (r, node', s') := getINode env (Int32.ofNat i) node s
      getINodeIndexes env (Int32.ofNat i) s ++ if r = -1 then [] else getNextIdIndexes env n (i + 1) node' s'

/-! ## Operations -/

/-- In `fs_lookup`. -/
def fsLookupIndexes (env : Env) (pinum : Int32) (s : State) : List Access :=
  getINodeIndexes env pinum s ++ if (getINode env pinum env.node s).1 = -1 then [] else loopIndexes

/-- In `fs_write`; `getINodeSize` goes over the blocks in a loop. -/
def fsWriteIndexes (env : Env) (inum block : Int32) (s : State) : List Access :=
  let (r, node, _) := getINode env inum env.node s
  getINodeIndexes env inum s ++
    if r = -1 then []
    else if node.type = fsDirectory then []
    else .dataPtrs block :: (loopIndexes ++ insertINodeIndexes inum)

/-- In `fs_read`, where a directory is read through its parent. -/
def fsReadIndexes (env : Env) (inum block : Int32) (s : State) : List Access :=
  let (r, node, s') := getINode env inum env.node s
  getINodeIndexes env inum s ++
    if r = -1 then []
    else if node.type = fsRegularFile then [.dataPtrs block]
    else
      let (childList, s') := readDirList (node.dataPtrs 0) env.dirList s'
      .dataPtrs 0 :: (getINodeIndexes env (childList.list 1).pair s' ++ [.dataPtrs 0])

/-- In `fs_unlink`. -/
def fsUnlinkIndexes (env : Env) (pinum : Int32) (name : CStr) (s : State) : List Access :=
  let (r, node, s') := getINode env pinum env.node s
  getINodeIndexes env pinum s ++
    if r = -1 then []
    else if node.type ≠ fsDirectory then []
    else
      loopIndexes ++
        match findEntry (fun _ _ => named name) node (List.finRange 14) env.dirList s' with
        | (some (i, j), list, s') =>
            deleteINodeIndexes env (list.list j).pair s' ++
              if (deleteINode env (list.list j).pair s').1 = -1 then []
              else .dataPtrs (Int32.ofNat i) :: insertINodeIndexes pinum
        | (none, _, _) =>
            if (if ∃ i, node.dataPtrs i ≠ -1 then 64 else env.j) = 64 then []
            else .dataPtrs 14 :: insertINodeIndexes pinum

/-- In `fs_create`. -/
def fsCreateIndexes (env : Env) (pinum type : Int32) (name : CStr) (s : State) : List Access :=
  let (r, s₁) := fsLookup env pinum name s
  fsLookupIndexes env pinum s ++
    if r ≠ -1 then []
    else
      let (r, node, s₂) := getINode env pinum env.node s₁
      getINodeIndexes env pinum s₁ ++
        if r = -1 then []
        else if node.type ≠ fsDirectory then []
        else
          let (newId, s₃) := getNextId env s₂
          getNextIdIndexes env bufferSize 0 env.node s₂ ++
            if newId = -1 then []
            else
              loopIndexes ++
                match findSlot node (List.finRange 14) env.dirList s₃ with
                | (none, _, _) => []
                | (some (i, _), _, _) =>
                    -- `createEmptyDirectory` and `createEmptyFile` set all pointers, and the former the first
                    loopIndexes ++ (if type = fsDirectory then [.dataPtrs 0] else []) ++
                      insertINodeIndexes newId ++ .dataPtrs (Int32.ofNat i) :: insertINodeIndexes pinum

/-- What a call indexes. -/
def Op.indexes (env : Env) (s : State) : Op → List Access
  | .create p type name => fsCreateIndexes env p type name s
  | .unlink p name => fsUnlinkIndexes env p name s
  | .write i _ b => fsWriteIndexes env i (Int32.ofNat b) s
  | .read i _ b => fsReadIndexes env i (Int32.ofNat b) s
  | .lookup p _ => fsLookupIndexes env p s
  | .stat i _ => getINodeIndexes env i s
  | .fsync => []

/-! ## Numbers in range -/

/-- All of them are in range. -/
def Inside (indexes : List Access) : Prop := ∀ a ∈ indexes, a.Inside

variable {l l' : List Access} {a : Access}

theorem inside_nil : Inside [] := fun _ ha => absurd ha List.not_mem_nil

theorem inside_cons : Inside (a :: l) ↔ a.Inside ∧ Inside l := List.forall_mem_cons

theorem inside_append : Inside (l ++ l') ↔ Inside l ∧ Inside l' := List.forall_mem_append

theorem inside_block {b : Int32} (h : 0 ≤ b.toInt ∧ b.toInt < 14) (hl : Inside l) : Inside (.dataPtrs b :: l) :=
  inside_cons.mpr ⟨h, hl⟩

theorem block_range (b : Fin 14) : 0 ≤ (Int32.ofNat b).toInt ∧ (Int32.ofNat b).toInt < 14 := by
  rw [toInt_block]
  omega

theorem inside_getIMap (hi : Inum i) : Inside (getIMapIndexes i) := inside_cons.mpr ⟨hi.mapNum, inside_nil⟩

theorem inside_putIMap (hi : Inum i) : Inside (putIMapIndexes i) :=
  inside_cons.mpr ⟨hi.indexNum, inside_cons.mpr ⟨hi.mapNum, inside_nil⟩⟩

theorem inside_insertINode (hi : Inum i) : Inside (insertINodeIndexes i) :=
  inside_append.mpr ⟨inside_getIMap hi, inside_putIMap hi⟩

theorem inside_loop : Inside loopIndexes := by
  intro a ha
  obtain ⟨b, -, rfl⟩ := List.mem_map.mp ha
  exact block_range b

theorem inside_getINode (hi : Inum i) (s : State) : Inside (getINodeIndexes env i s) := by
  refine inside_append.mpr ⟨inside_getIMap hi, ?_⟩
  split
  · exact inside_nil
  · exact inside_cons.mpr ⟨hi.indexNum, inside_nil⟩

theorem inside_deleteINode (hi : Inum i) (s : State) : Inside (deleteINodeIndexes env i s) := by
  refine inside_append.mpr ⟨inside_getINode hi s, ?_⟩
  split
  · exact inside_nil
  · exact inside_append.mpr ⟨inside_append.mpr ⟨inside_loop, inside_getIMap hi⟩, inside_putIMap hi⟩

/-- All numbers that `getNextId` tries are in range. -/
theorem inside_getNextId : ∀ (n i : Nat) (node : INode) (s : State), i + n ≤ 4096 →
    Inside (getNextIdIndexes env n i node s) := by
  intro n
  induction n with
  | zero => exact fun _ _ _ _ => inside_nil
  | succ n ih =>
      intro i node s hfit
      have hfirst := @inside_getINode env (Int32.ofNat i) (inum_ofNat (by omega)) s
      rw [getNextIdIndexes]
      generalize getINode env (Int32.ofNat i) node s = c
      obtain ⟨r, node', s'⟩ := c
      dsimp only
      refine inside_append.mpr ⟨hfirst, ?_⟩
      split
      · exact inside_nil
      · exact ih (i + 1) node' s' (by omega)

/-- And so is the one that it returns. -/
theorem getNextIdFrom_range : ∀ (n i : Nat) (node : INode) (s : State), i + n ≤ 4096 →
    (getNextIdFrom env n i node s).1 = -1 ∨ Inum (getNextIdFrom env n i node s).1 := by
  intro n
  induction n with
  | zero => exact fun _ _ _ _ => Or.inl rfl
  | succ n ih =>
      intro i node s hfit
      rw [getNextIdFrom]
      generalize getINode env (Int32.ofNat i) node s = c
      obtain ⟨r, node', s'⟩ := c
      dsimp only
      split
      · exact Or.inr (inum_ofNat (by omega))
      · exact ih (i + 1) node' s' (by omega)

/-! ## The operations, one by one -/

theorem inside_lookup (hp : Inum p) (s : State) : Inside (fsLookupIndexes env p s) := by
  refine inside_append.mpr ⟨inside_getINode hp s, ?_⟩
  split
  · exact inside_nil
  · exact inside_loop

theorem inside_write (hi : Inum i) (b : Fin 14) (s : State) : Inside (fsWriteIndexes env i (Int32.ofNat b) s) := by
  have hfirst := @inside_getINode env i hi s
  rw [fsWriteIndexes]
  generalize getINode env i env.node s = c
  obtain ⟨r, node, s'⟩ := c
  dsimp only
  refine inside_append.mpr ⟨hfirst, ?_⟩
  split
  · exact inside_nil
  · split
    · exact inside_nil
    · exact inside_block (block_range b) (inside_append.mpr ⟨inside_loop, inside_insertINode hi⟩)

theorem inside_create {type : Int32} (hp : Inum p) (s : State) : Inside (fsCreateIndexes env p type name s) := by
  have hlookup := @inside_lookup env p hp s
  rw [fsCreateIndexes]
  generalize fsLookup env p name s = c
  obtain ⟨r, s₁⟩ := c
  dsimp only
  refine inside_append.mpr ⟨hlookup, ?_⟩
  split
  · exact inside_nil
  · have hnode := @inside_getINode env p hp s₁
    generalize getINode env p env.node s₁ = c
    obtain ⟨r, node, s₂⟩ := c
    dsimp only
    refine inside_append.mpr ⟨hnode, ?_⟩
    split
    · exact inside_nil
    · split
      · exact inside_nil
      · have hids := @inside_getNextId env bufferSize 0 env.node s₂ (by decide)
        have hid := @getNextIdFrom_range env bufferSize 0 env.node s₂ (by decide)
        rw [getNextId]
        generalize getNextIdFrom env bufferSize 0 env.node s₂ = c at hid ⊢
        obtain ⟨newId, s₃⟩ := c
        dsimp only at hid ⊢
        refine inside_append.mpr ⟨hids, ?_⟩
        split
        · exact inside_nil
        · rename_i hne
          have hk := hid.resolve_left hne
          refine inside_append.mpr ⟨inside_loop, ?_⟩
          generalize findSlot node (List.finRange 14) env.dirList s₃ = c
          obtain ⟨hit, l, s₄⟩ := c
          cases hit with
          | none => exact inside_nil
          | some x =>
              obtain ⟨b, j⟩ := x
              refine inside_append.mpr ⟨inside_append.mpr ⟨inside_append.mpr ⟨inside_loop, ?_⟩,
                inside_insertINode hk⟩, inside_block (block_range b) (inside_insertINode hp)⟩
              split
              · exact inside_block (by decide) inside_nil
              · exact inside_nil

/-- The entry that `fs_unlink` finds names a number in range, and it counts up to a block that is there. -/
theorem inside_unlink (hinv : Inv s) (he : env.dest = .caller) (hp : Inum p) (name : CStr) :
    Inside (fsUnlinkIndexes env p name s) := by
  have hfirst := @inside_getINode env p hp s
  cases hn : s.inode p with
  | none =>
      obtain ⟨q, hq⟩ := getINode_none hinv.log he hp env.node hn
      rw [fsUnlinkIndexes, hq]
      exact inside_append.mpr ⟨hfirst, inside_nil⟩
  | some n =>
      obtain ⟨q, hq⟩ := getINode_some hinv.log he env.node hn
      rw [fsUnlinkIndexes, hq]
      dsimp only
      refine inside_append.mpr ⟨hfirst, ?_⟩
      rw [if_neg (by decide)]
      by_cases ht : n.type = fsDirectory
      · have hdir := dir_of_dir hn ht
        obtain ⟨l, q', hf, hl⟩ := findEntry_dir hinv.log hn (fun _ _ => named name) env.dirList q
        rw [if_neg fun hne => hne ht, hf]
        refine inside_append.mpr ⟨inside_loop, ?_⟩
        cases hfind : (s.node n).find fun _ _ => named name with
        | none =>
            have hblock : ∃ b, n.dataPtrs b ≠ -1 :=
              ⟨0, fun hne => (hinv.sound.node (view_some hn)).first ht (node_blocks_none hne)⟩
            dsimp only
            rw [if_pos hblock, if_pos rfl]
            exact inside_nil
        | some x =>
            obtain ⟨b, j⟩ := x
            obtain ⟨d, hslot, hnamed⟩ := find_some hfind
            have hpair : (l.list j).pair = d.pair := by rw [hl b j hfind, slot_eq_dirList hslot]
            have hk : Inum d.pair := inum_of_pair hinv.sound hdir hslot (named_iff.mp hnamed).1
            dsimp only
            rw [hpair]
            refine inside_append.mpr ⟨inside_deleteINode hk _, ?_⟩
            split
            · exact inside_nil
            · exact inside_block (block_range b) (inside_insertINode hp)
      · rw [if_pos ht]
        exact inside_nil

/-- The second entry of a directory. -/
def View.up (V : View) (i : Int32) : Option FsDir := (V.dir i).bind fun nd => nd.slot 0 1

theorem up_of_dir (hinv : Inv s) {n : INode} (hn : s.inode i = some n) (ht : n.type = fsDirectory) :
    s.view.up i = some (((s.node n).dirList 0).list 1) := by
  rw [View.up, dir_of_dir hn ht, Option.bind_some]
  refine slot_dirList.resolve_right fun h => ?_
  exact (hinv.sound.node (view_some hn)).first ht h.1

/-- What `fs_read` indexes: for a directory, what `getINode` does for the number in its second slot too. -/
theorem fsReadIndexes_eq (hinv : Inv s) (he : env.dest = .caller) {n : INode} (hn : s.inode i = some n)
    (block : Int32) : ∃ s', fsReadIndexes env i block s = getINodeIndexes env i s ++
      if n.type = fsRegularFile then [.dataPtrs block]
      else .dataPtrs 0 :: (getINodeIndexes env (((s.node n).dirList 0).list 1).pair s' ++ [.dataPtrs 0]) := by
  obtain ⟨q, hq⟩ := getINode_some hinv.log he env.node hn
  by_cases ht : n.type = fsRegularFile
  · refine ⟨s, ?_⟩
    rw [fsReadIndexes, hq]
    dsimp only
    rw [if_neg (by decide), if_pos ht, if_pos ht]
  · have htd := (hinv.sound.node (view_some hn)).type.resolve_right ht
    obtain ⟨q', hread⟩ := readDirList_first hinv hn htd env.dirList q
    refine ⟨s.seek q', ?_⟩
    rw [fsReadIndexes, hq]
    dsimp only
    rw [if_neg (by decide), if_neg ht, if_neg ht, hread]

theorem inside_read (hinv : Inv s) (he : env.dest = .caller) (hi : Inum i) (b : Fin 14)
    (hup : ∀ d, s.view.up i = some d → d.pair ≠ -1) : Inside (fsReadIndexes env i (Int32.ofNat b) s) := by
  have hfirst := @inside_getINode env i hi s
  cases hn : s.inode i with
  | none =>
      obtain ⟨q, hq⟩ := getINode_none hinv.log he hi env.node hn
      rw [fsReadIndexes, hq]
      exact inside_append.mpr ⟨hfirst, inside_nil⟩
  | some n =>
      obtain ⟨s', heq⟩ := fsReadIndexes_eq hinv he hn (Int32.ofNat b)
      rw [heq]
      refine inside_append.mpr ⟨hfirst, ?_⟩
      split
      · exact inside_block (block_range b) inside_nil
      · rename_i ht
        have hnode := hinv.sound.node (view_some hn)
        have htd := hnode.type.resolve_right ht
        have hslot := up_of_dir hinv hn htd
        have hk : Inum (((s.node n).dirList 0).list 1).pair := by
          have hpairs := hslot
          rw [View.up, dir_of_dir hn htd, Option.bind_some] at hpairs
          exact (hnode.pairs htd hpairs).resolve_left (hup _ hslot)
        exact inside_block (by decide) (inside_append.mpr ⟨inside_getINode hk s', inside_block (by decide) inside_nil⟩)

/-- The number -1 leads to the element before `cp.mapPtrs`. -/
theorem outside_read (hinv : Inv s) (he : env.dest = .caller) (b : Int32) {d : FsDir}
    (hup : s.view.up i = some d) (hd : d.pair = -1) : ¬Inside (fsReadIndexes env i b s) := by
  intro hin
  obtain ⟨nd, hdir, -⟩ := Option.bind_eq_some_iff.mp hup
  obtain ⟨hv, ht⟩ := dir_eq_some.mp hdir
  obtain ⟨n, hn, rfl⟩ := Option.map_eq_some_iff.mp hv
  have htf : n.type ≠ fsRegularFile := by
    rw [show n.type = fsDirectory from ht]
    decide
  obtain ⟨s', heq⟩ := fsReadIndexes_eq hinv he hn b
  have hpair : (((s.node n).dirList 0).list 1).pair = -1 := by
    rw [up_of_dir hinv hn ht, Option.some.injEq] at hup
    rw [hup, hd]
  rw [heq, if_neg htf, hpair] at hin
  have hneg := (inside_append.mp (inside_cons.mp (inside_append.mp hin).2).2).1
  exact absurd ((inside_append.mp hneg).1 _ (List.mem_cons_self ..)).1 (by decide)

/-! ## Calls -/

/-- The number that a call is given. -/
def Op.inum : Op → Option Int32
  | .create p _ _ | .unlink p _ | .lookup p _ => some p
  | .write i _ _ | .read i _ _ | .stat i _ => some i
  | .fsync => none

/-- What the client library lets through. -/
def Op.Admitted : Op → Prop
  | .create p type name => 0 ≤ p.toInt ∧ name.chars.length < 60 ∧ (type = fsDirectory ∨ type = fsRegularFile)
  | .unlink p name | .lookup p name => 0 ≤ p.toInt ∧ name.chars.length < 60
  | .write i _ _ | .read i _ _ | .stat i _ => 0 ≤ i.toInt
  | .fsync => True

/-- All that a call indexes is in range, and a number without an inode is refused. -/
structure Contained (env : Env) (s : State) (op : Op) : Prop where
  inside : Inside (op.indexes env s)
  missing : ∀ i, op.inum = some i → s.inode i = none →
    (exec env s op).1 = -1 ∧ Moved s (exec env s op).2

/-- The second slot of a directory that is read is in use. -/
def Op.UpUsed (s : State) : Op → Prop
  | .read i _ _ => ∀ d, s.view.up i = some d → d.pair ≠ -1
  | _ => True

theorem missing_refused (hinv : Inv s) (he : env.dest = .caller) {op : Op} (hi : Inum i) (hop : op.inum = some i)
    (hn : s.inode i = none) : (exec env s op).1 = -1 ∧ Moved s (exec env s op).2 := by
  obtain ⟨q, hq⟩ := getINode_none hinv.log he hi env.node hn
  cases op with
  | create p type name =>
      obtain rfl := Option.some.inj hop
      obtain ⟨q₁, hlook⟩ := @fsLookup_spec env s p name hinv.log he hi
      rw [lookup_of_dir_none (dir_of_none hn)] at hlook
      obtain ⟨q₂, hq₂⟩ := getINode_none (hinv.log.seek q₁) he hi env.node hn
      rw [exec, fsCreate, hlook]
      dsimp only [Option.getD_none]
      rw [if_neg (by decide), hq₂]
      exact ⟨rfl, q₂, rfl⟩
  | unlink p name =>
      obtain rfl := Option.some.inj hop
      rw [exec, fsUnlink, hq]
      exact ⟨rfl, q, rfl⟩
  | write i buffer b =>
      obtain rfl := Option.some.inj hop
      rw [exec, fsWrite, hq]
      exact ⟨rfl, q, rfl⟩
  | read i buffer b =>
      obtain rfl := Option.some.inj hop
      rw [exec, fsRead, hq]
      exact ⟨rfl, q, rfl⟩
  | lookup p name =>
      obtain rfl := Option.some.inj hop
      rw [exec, fsLookup, hq]
      exact ⟨rfl, q, rfl⟩
  | stat i m =>
      obtain rfl := Option.some.inj hop
      rw [exec, fsStat, hq]
      exact ⟨rfl, q, rfl⟩
  | fsync => cases hop

/-- The number that a call is given is used first. -/
theorem mapPtrs_mem_indexes {op : Op} (hop : op.inum = some i) : .mapPtrs (getIMapNum i) ∈ op.indexes env s := by
  have hfirst : ∀ l, Access.mapPtrs (getIMapNum i) ∈ getINodeIndexes env i s ++ l := fun l =>
    List.mem_append_left _ (List.mem_cons_self ..)
  cases op with
  | create p type name =>
      obtain rfl := Option.some.inj hop
      rw [Op.indexes, fsCreateIndexes, fsLookupIndexes]
      generalize fsLookup env p name s = c
      obtain ⟨r, s'⟩ := c
      exact List.mem_append_left _ (hfirst _)
  | unlink p name =>
      obtain rfl := Option.some.inj hop
      rw [Op.indexes, fsUnlinkIndexes]
      generalize getINode env p env.node s = c
      obtain ⟨r, node, s'⟩ := c
      exact hfirst _
  | write i buffer b =>
      obtain rfl := Option.some.inj hop
      rw [Op.indexes, fsWriteIndexes]
      generalize getINode env i env.node s = c
      obtain ⟨r, node, s'⟩ := c
      exact hfirst _
  | read i buffer b =>
      obtain rfl := Option.some.inj hop
      rw [Op.indexes, fsReadIndexes]
      generalize getINode env i env.node s = c
      obtain ⟨r, node, s'⟩ := c
      exact hfirst _
  | lookup p name =>
      obtain rfl := Option.some.inj hop
      rw [Op.indexes, fsLookupIndexes]
      exact hfirst _
  | stat i m =>
      obtain rfl := Option.some.inj hop
      rw [Op.indexes, getINodeIndexes, getIMapIndexes]
      exact List.mem_cons_self ..
  | fsync => cases hop

theorem inum_of_inside (hi : 0 ≤ i.toInt) (h : (Access.mapPtrs (getIMapNum i)).Inside) : Inum i := by
  obtain ⟨-, hlt⟩ := h
  rw [getIMapNum, toInt_shiftRight_four] at hlt
  exact ⟨hi, by omega⟩

theorem inRange_of_inside {op : Op} (hop : op.Admitted) (h : Inside (op.indexes env s)) : op.InRange := by
  have hmem : ∀ i, op.inum = some i → (Access.mapPtrs (getIMapNum i)).Inside := fun i hi =>
    h _ (mapPtrs_mem_indexes hi)
  cases op with
  | create p type name => exact inum_of_inside hop.1 (hmem p rfl)
  | unlink p name => exact inum_of_inside hop.1 (hmem p rfl)
  | write i buffer b => exact inum_of_inside hop (hmem i rfl)
  | read i buffer b => exact inum_of_inside hop (hmem i rfl)
  | lookup p name => exact inum_of_inside hop.1 (hmem p rfl)
  | stat i m => exact inum_of_inside hop (hmem i rfl)
  | fsync => trivial

theorem inside_indexes (hinv : Inv s) (he : env.dest = .caller) {op : Op} (hop : op.InRange) (hup : op.UpUsed s) :
    Inside (op.indexes env s) := by
  cases op with
  | create p type name =>
      rw [Op.indexes]
      exact inside_create hop s
  | unlink p name =>
      rw [Op.indexes]
      exact inside_unlink hinv he hop name
  | write i buffer b =>
      rw [Op.indexes]
      exact inside_write hop b s
  | read i buffer b =>
      rw [Op.indexes]
      exact inside_read hinv he hop b hup
  | lookup p name =>
      rw [Op.indexes]
      exact inside_lookup hop s
  | stat i m =>
      rw [Op.indexes]
      exact inside_getINode hop s
  | fsync => exact inside_nil

theorem inum_of_inRange {op : Op} (hop : op.InRange) (hi : op.inum = some i) : Inum i := by
  cases op with
  | fsync => cases hi
  | _ =>
      obtain rfl := Option.some.inj hi
      exact hop

/--
**Indices.** In every state that is reached in calls with numbers in range, and for every call
that the client lets through: all indices are in range, and a number without an inode is refused
with nothing changed, exactly if the number is below 4096 and, for a directory that is read, its
second slot is in use.
-/
theorem indexes_inside_iff {s : State} (hr : Reachable (fun _ _ => True) s) {env : Env} (he : env.dest = .caller)
    {op : Op} (hop : op.Admitted) : Contained env s op ↔ op.InRange ∧ op.UpUsed s := by
  have hinv := inv_reachable hr
  constructor
  · intro h
    refine ⟨inRange_of_inside hop h.inside, ?_⟩
    cases op with
    | read i buffer b => exact fun d hd hneg => outside_read hinv he _ hd hneg h.inside
    | _ => trivial
  · rintro ⟨hrange, hup⟩
    exact ⟨inside_indexes hinv he hrange hup, fun i hi hn =>
      missing_refused hinv he (inum_of_inRange hrange hi) hi hn⟩

/-- A lookup in the root of a new image. -/
theorem indexes_inside_root : ∃ s, Reachable (fun _ _ => True) s ∧ Contained sampleEnv s (.lookup 0 sampleName) := by
  obtain ⟨s, -, hr, -⟩ := @reachable_start sampleEnv (fun _ _ => True) rfl
  have hop : Op.Admitted (.lookup 0 sampleName) := ⟨by decide, by decide⟩
  exact ⟨s, hr, (indexes_inside_iff hr rfl hop).mpr ⟨(by decide : Inum 0), trivial⟩⟩

/-- A lookup in the directory 4096, which there is none of. -/
theorem indexes_outside : ∃ s, Reachable (fun _ _ => True) s ∧ Op.Admitted (.lookup 4096 sampleName)
    ∧ ¬Contained sampleEnv s (.lookup 4096 sampleName) := by
  obtain ⟨s, -, hr, -⟩ := @reachable_start sampleEnv (fun _ _ => True) rfl
  have hop : Op.Admitted (.lookup 4096 sampleName) := ⟨by decide, by decide⟩
  refine ⟨s, hr, hop, fun h => ?_⟩
  exact absurd (inRange_of_inside hop h.inside) (by decide : ¬Inum 4096)

end Cs537.Fs
