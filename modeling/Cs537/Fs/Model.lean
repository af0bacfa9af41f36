import Cs537.Fs.Codec

/-!
# The log-structured file system of `P5/linux/fs.c`

The image file starts with the checkpoint region; everything else is appended.
The checkpoint points to inode maps, a map to inodes, an inode to data or
directory blocks. An update appends new copies from the bottom up and repoints the
checkpoint, which lives in the global `cp` until `fs_fsync` writes it.

The functions below are the ones of the source, in its order of effects, over an
explicit state: the global `cp` and the open image file. What the source
leaves open is collected in `Env` and is arbitrary:

* the contents of uninitialised locals;
* where the `read` in `getIMap` puts its bytes. As written it is `read(fd, &map, …)`,
  which fills the function's own pointer and not the caller's map; its comment, and
  all its callers, want the caller's map;
* the value of `getINodeSize`.
-/

namespace Cs537.Fs

open Lib

/-! ## The image file as the kernel shows it -/

/-- How an `lseek`, `write` or `fsync` ends. -/
inductive Outcome where
  | done
  | fails
  | short (n : Nat)
deriving DecidableEq

/-- `disk_fd`. -/
structure Disk where
  file : File
  pos : Nat
  /-- Of the calls to come; those past the end of the list are `done`. -/
  outcomes : List Outcome
  /-- The bytes written since the last `fsync`, which a crash may lose. -/
  journal : List (Nat × UInt8)

/-- The outcome of the next call. -/
def Disk.next (d : Disk) : Outcome × Disk :=
  match d.outcomes with
  | [] => (.done, d)
  | o :: os => (o, { d with outcomes := os })

/-- `lseek(disk_fd, offset, SEEK_SET)`. -/
def lseek (offset : Int32) (d : Disk) : Int × Disk :=
  match d.next with
  | (.fails, d) => (-1, d)
  | (_, d) => if offset < 0 then (-1, d) else (offset.toInt, { d with pos := offset.toInt.toNat })

/-- `read(disk_fd, buf, n)` into a buffer that holds `old`; reads do not fail. -/
def read (n : Nat) (old : List UInt8) (d : Disk) : Int × List UInt8 × Disk :=
  let bs := d.file.pread d.pos n
  (bs.length, bs ++ old.drop bs.length, { d with pos := d.pos + bs.length })

/-- The bytes of a write, with the offsets they go to. -/
def placed (off : Nat) (bs : List UInt8) : List (Nat × UInt8) :=
  bs.mapIdx fun i b => (off + i, b)

/-- All of `bs` goes to the current position. -/
def Disk.put (d : Disk) (bs : List UInt8) : Disk :=
  { d with
    file := d.file.pwrite d.pos bs
    pos := d.pos + bs.length
    journal := d.journal ++ placed d.pos bs }

/-- `write(disk_fd, bs, size)`. -/
def write (bs : List UInt8) (d : Disk) : Int × Disk :=
  match d.next with
  | (.fails, d) => (-1, d)
  | (.short n, d) => ((bs.take n).length, d.put (bs.take n))
  | (.done, d) => (bs.length, d.put bs)

/-- `fsync(disk_fd)`. -/
def fsync (d : Disk) : Int32 × Disk :=
  match d.next with
  | (.fails, d) => (-1, d)
  | (_, d) => (0, { d with journal := [] })

/-! ## State and environment -/

/-- The globals `cp` and `disk_fd`. -/
structure State where
  cp : CheckPoint
  disk : Disk

/-- Where the `read` of `getIMap` puts the map. -/
inductive Dest where
  /-- `&map`: over the pointer that `getIMap` was given. -/
  | parameter
  /-- `map`: into the caller's map. -/
  | caller
deriving DecidableEq

/-- What the source leaves open. -/
structure Env where
  dest : Dest
  /-- Uninitialised locals. -/
  map : IMap
  node : INode
  dirList : FsDirList
  j : Int32
  /-- The size `getINodeSize` computes, and where it leaves the position. -/
  getINodeSize : INode → Disk → Int32 × Nat

/-! ## Helper functions -/

/-- `getIMapNum`. -/
def getIMapNum (inum : Int32) : Int32 := inum >>> 4

/-- `getMapIndexNum`. -/
def getMapIndexNum (inum : Int32) : Int32 := inum &&& 0xF

/-- `writeToEnd`. -/
def writeToEnd (buffer : List UInt8) (s : State) : Int × State :=
  let (status, d) := lseek s.cp.endPtr s.disk
  if status < 0 then (-1, { s with disk := d })
  else
    let (wrote, d) := write buffer d
    if wrote < 0 then (wrote, { s with disk := d })
    else (wrote, { cp := { s.cp with endPtr := s.cp.endPtr + Int32.ofInt wrote }, disk := d })

/-- `getIMap`; `map` is what the caller's map holds. -/
def getIMap (env : Env) (inum : Int32) (map : IMap) (s : State) : Int32 × IMap × State :=
  let iMapNum := getIMapNum inum
  if getAt s.cp.mapPtrs iMapNum = 0 then (-1, map, s)
  else
    let (_, d) := lseek (getAt s.cp.mapPtrs iMapNum) s.disk
    let (status, bytes, d) := read 64 map.encode d
    let map := match env.dest with
      | .parameter => map
      | .caller => IMap.decode bytes
    if status < 0 then (-1, map, { s with disk := d }) else (0, map, { s with disk := d })

/-- `getINode`; `node` is what the caller's node holds. -/
def getINode (env : Env) (inum : Int32) (node : INode) (s : State) : Int32 × INode × State :=
  let (r, map, s) := getIMap env inum env.map s
  if r = -1 then (-1, node, s)
  else
    let ptr := getAt map.ptr (getMapIndexNum inum)
    if ptr = -1 then (-1, node, s)
    else
      let (_, d) := lseek ptr s.disk
      let (status, bytes, d) := read 64 node.encode d
      if status < 0 then (-1, INode.decode bytes, { s with disk := d })
      else (0, INode.decode bytes, { s with disk := d })

/-- The end of `insertINode` and `deleteINode`: entry `inum` of `map` becomes `ptr`, and `cp` points to the new map. -/
def putIMap (map : IMap) (inum ptr : Int32) (s : State) : Int × State :=
  let map : IMap := ⟨setAt map.ptr (getMapIndexNum inum) ptr⟩
  let s := { s with cp := { s.cp with mapPtrs := setAt s.cp.mapPtrs (getIMapNum inum) s.cp.endPtr } }
  writeToEnd map.encode s

/-- `insertINode`. -/
def insertINode (env : Env) (node : INode) (inum : Int32) (s : State) : Int32 × State :=
  let nodePtr := s.cp.endPtr
  let (status, s) := writeToEnd node.encode s
  if status < 0 then (-1, s)
  else
    let (r, map, s) := getIMap env inum env.map s
    -- a map that is not there yet starts with no inodes
    let map : IMap := if r = -1 then ⟨fun _ => -1⟩ else map
    let (status, s) := putIMap map inum nodePtr s
    if status < 0 then (-1, s) else (0, s)

/-- `lseek` and `read` of one directory block. -/
def readDirList (ptr : Int32) (list : FsDirList) (s : State) : FsDirList × State :=
  let (_, d) := lseek ptr s.disk
  let (_, bytes, d) := read 4096 list.encode d
  (FsDirList.decode bytes, { s with disk := d })

/--
The loop over the blocks of a directory that `fs_lookup`, `fs_unlink` and
`deleteINode` share: blocks that were never written are skipped, and the first slot
that `hit`s ends it. Also returned is the block read last.
-/
def findEntry (hit : Fin 14 → Fin 64 → FsDir → Bool) (node : INode) :
    List (Fin 14) → FsDirList → State → Option (Fin 14 × Fin 64) × FsDirList × State
  | [], list, s => (none, list, s)
  | i :: is, list, s =>
      if node.dataPtrs i = -1 then findEntry hit node is list s
      else
        let (list, s) := readDirList (node.dataPtrs i) list s
        match (List.finRange 64).find? fun j => hit i j (list.list j) with
        | some j => (some (i, j), list, s)
        | none => findEntry hit node is list s

/-- The test of `fs_lookup` and `fs_unlink`: a used slot with this name. -/
def named (name : CStr) (d : FsDir) : Bool :=
  !decide (d.pair < 0) && decide (strncmp name.chars (List.ofFn d.name) 60 = 0)

/-- The test of `deleteINode`: a used slot, the first two of block 0 left out. -/
def occupied (i : Fin 14) (j : Fin 64) (d : FsDir) : Bool :=
  (if i = 0 then decide (2 ≤ j) else true) && decide (d.pair ≠ -1)

/-- `deleteINode`. -/
def deleteINode (env : Env) (inum : Int32) (s : State) : Int32 × State :=
  let (r, node, s) := getINode env inum env.node s
  if r = -1 then (0, s)
  else
    let (hit, _, s) :=
      if node.type = fsDirectory then findEntry occupied node (List.finRange 14) env.dirList s
      else (none, env.dirList, s)
    match hit with
    | some _ => (-1, s)
    | none =>
        let (_, map, s) := getIMap env inum env.map s
        let (_, s) := putIMap map inum (-1) s
        (0, s)

/-- The loop of `getNextId` from `i` on, with `n` numbers left. -/
def getNextIdFrom (env : Env) : Nat → Nat → INode → State → Int32 × State
  | 0, _, _, s => (-1, s)
  | n + 1, i, node, s =>
      let (r, node, s) := getINode env (Int32.ofNat i) node s
      if r = -1 then (Int32.ofNat i, s) else getNextIdFrom env n (i + 1) node s

/-- `getNextId`. -/
def getNextId (env : Env) (s : State) : Int32 × State := getNextIdFrom env bufferSize 0 env.node s

/-- A directory block without entries. -/
def emptyDirList : FsDirList := ⟨fun _ => ⟨strncpy emptyStr, -1⟩⟩

/-- `list.list[j] = d`. -/
def FsDirList.set (l : FsDirList) (j : Fin 64) (d : FsDir) : FsDirList :=
  ⟨fun k => if k = j then d else l.list k⟩

/-- `node.dataPtrs[i] = ptr`. -/
def INode.setPtr (n : INode) (i : Fin 14) (ptr : Int32) : INode :=
  { n with dataPtrs := fun k => if k = i then ptr else n.dataPtrs k }

/-- `createEmptyFile`. -/
def createEmptyFile (env : Env) (inum : Int32) (s : State) : Int32 × State :=
  insertINode env ⟨0, fsRegularFile, fun _ => -1⟩ inum s

/-- The first block of a new directory. -/
def newDirList (inum pinum : Int32) : FsDirList :=
  (emptyDirList.set 0 ⟨strncpy dot, inum⟩).set 1 ⟨strncpy dotdot, pinum⟩

/-- `createEmptyDirectory`. -/
def createEmptyDirectory (env : Env) (inum pinum : Int32) (s : State) : Int32 × State :=
  let dataRegion := s.cp.endPtr
  let (_, s) := writeToEnd (newDirList inum pinum).encode s
  let node : INode := INode.setPtr ⟨Int32.ofNat bufferSize, fsDirectory, fun _ => -1⟩ 0 dataRegion
  insertINode env node inum s

/-! ## Operations -/

/-- The globals once a new image file is open. -/
def State.blank (outcomes : List Outcome) : State := ⟨⟨1028, fun _ => 0⟩, ⟨File.empty, 0, outcomes, []⟩⟩

/--
`fs_init`, with the file that `access` finds; `none` when it returns -1. A new
process has its globals zeroed.
-/
def fsInit (env : Env) (image : Option File) (opens : Bool) (outcomes : List Outcome) : Option State :=
  if opens = false then none
  else
    match image with
    | some file =>
        let (_, d) := lseek 0 ⟨file, 0, outcomes, []⟩
        let (sum, bytes, d) := read 1028 (CheckPoint.encode ⟨0, fun _ => 0⟩) d
        if sum ≠ 1028 then none else some ⟨CheckPoint.decode bytes, d⟩
    | none => some (createEmptyDirectory env 0 0 (State.blank outcomes)).2

/-- `fs_write`. -/
def fsWrite (env : Env) (inum : Int32) (buffer : List UInt8) (block : Int32) (s : State) : Int32 × State :=
  let (r, node, s) := getINode env inum env.node s
  if r = -1 then (-1, s)
  else if node.type = fsDirectory then (-1, s)
  else
    let node := { node with dataPtrs := setAt node.dataPtrs block s.cp.endPtr }
    let (_, s) := writeToEnd buffer s
    let (size, pos) := env.getINodeSize node s.disk
    let s := { s with disk := { s.disk with pos := pos } }
    let (_, s) := insertINode env { node with size := size } inum s
    (0, s)

/-- The branch of `fs_read` for a directory: its entry in the first block of its parent. -/
def readParentEntry (env : Env) (inum : Int32) (node : INode) (buffer : List UInt8) (s : State) :
    Int32 × List UInt8 × State :=
  let (childList, s) := readDirList (node.dataPtrs 0) env.dirList s
  let pinum := (childList.list 1).pair
  let (_, pnode, s) := getINode env pinum env.node s
  let (pList, s) := readDirList (pnode.dataPtrs 0) env.dirList s
  match (List.finRange 64).find? fun i =>
      !decide ((pList.list i).pair < 0) && decide ((pList.list i).pair = inum) with
  | some i => (0, (pList.list i).encode ++ buffer.drop 64, s)
  | none => (-1, buffer, s)

/-- `fs_read` into a buffer that holds `buffer`. -/
def fsRead (env : Env) (inum : Int32) (buffer : List UInt8) (block : Int32) (s : State) :
    Int32 × List UInt8 × State :=
  let (r, node, s) := getINode env inum env.node s
  if r = -1 then (-1, buffer, s)
  else if node.type = fsRegularFile then
    let (_, d) := lseek (getAt node.dataPtrs block) s.disk
    let (_, bytes, d) := read bufferSize buffer d
    (0, bytes, { s with disk := d })
  else readParentEntry env inum node buffer s

/-- `fs_lookup`. -/
def fsLookup (env : Env) (pinum : Int32) (name : CStr) (s : State) : Int32 × State :=
  let (r, node, s) := getINode env pinum env.node s
  if r = -1 then (-1, s)
  else if node.type ≠ fsDirectory then (-1, s)
  else
    match findEntry (fun _ _ => named name) node (List.finRange 14) env.dirList s with
    | (some (_, j), list, s) => ((list.list j).pair, s)
    | (none, _, s) => (-1, s)

/-- The end of `fs_unlink`: the block goes to the end of the log, by hand. -/
def appendDirList (env : Env) (node : INode) (pinum : Int32) (list : FsDirList) (s : State) : Int32 × State :=
  let (_, d) := lseek s.cp.endPtr s.disk
  let (_, d) := write list.encode d
  let s : State := { cp := { s.cp with endPtr := s.cp.endPtr + 4096 }, disk := d }
  let (_, s) := insertINode env node pinum s
  (0, s)

/-- `fs_unlink`. -/
def fsUnlink (env : Env) (pinum : Int32) (name : CStr) (s : State) : Int32 × State :=
  let (r, node, s) := getINode env pinum env.node s
  if r = -1 then (-1, s)
  else if node.type ≠ fsDirectory then (-1, s)
  else
    match findEntry (fun _ _ => named name) node (List.finRange 14) env.dirList s with
    | (some (i, j), list, s) =>
        let (stat, s) := deleteINode env (list.list j).pair s
        if stat = -1 then (-1, s)
        else
          appendDirList env (node.setPtr i s.cp.endPtr) pinum (list.set j ⟨strncpy emptyStr, -1⟩) s
    | (none, list, s) =>
        -- `j` was counted up to 64 unless no block was there to count in
        let j := if ∃ i, node.dataPtrs i ≠ -1 then 64 else env.j
        if j = 64 then (0, s)
        -- `dataPtrs[14]` is outside the array
        else appendDirList env node pinum list s

/-- The loop of `fs_create` for a free slot: a block that was never written is an empty one. -/
def findSlot (node : INode) : List (Fin 14) → FsDirList → State → Option (Fin 14 × Fin 64) × FsDirList × State
  | [], dirList, s => (none, dirList, s)
  | i :: is, dirList, s =>
      if node.dataPtrs i = -1 then (some (i, 0), emptyDirList, s)
      else
        let (dirList, s) := readDirList (node.dataPtrs i) dirList s
        match (List.finRange 64).find? fun j => decide ((dirList.list j).pair < 0) with
        | some j => (some (i, j), dirList, s)
        | none => findSlot node is dirList s

/-- `fs_create`. -/
def fsCreate (env : Env) (pinum type : Int32) (name : CStr) (s : State) : Int32 × State :=
  let (r, s) := fsLookup env pinum name s
  if r ≠ -1 then (0, s)
  else
    let (r, node, s) := getINode env pinum env.node s
    if r = -1 then (-1, s)
    else if node.type ≠ fsDirectory then (-1, s)
    else
      let (newId, s) := getNextId env s
      if newId = -1 then (-1, s)
      else
        match findSlot node (List.finRange 14) env.dirList s with
        | (none, _, s) => (-1, s)
        | (some (i, j), dirList, s) =>
            let (_, s) :=
              if type = fsDirectory then createEmptyDirectory env newId pinum s
              else createEmptyFile env newId s
            let dirList := dirList.set j ⟨strncpy name, newId⟩
            let node := node.setPtr i s.cp.endPtr
            let (_, s) := writeToEnd dirList.encode s
            let (_, s) := insertINode env node pinum s
            (0, s)

/-- `fs_stat`; `m` is what the caller's record holds. -/
def fsStat (env : Env) (inum : Int32) (m : StatT) (s : State) : Int32 × StatT × State :=
  let (r, node, s) := getINode env inum env.node s
  if r = -1 then (-1, m, s) else (0, ⟨node.type, node.size⟩, s)

/-- `fs_fsync`. -/
def fsFsync (s : State) : Int32 × State :=
  let (_, d) := lseek 0 s.disk
  let (stat, d) := write s.cp.encode d
  if stat < 0 then (-1, { s with disk := d })
  else
    let (r, d) := fsync d
    (r, { s with disk := d })

end Cs537.Fs
