import Cs537.Fs.Log

/-!
# The inode store as it is written

`insertINode` and `deleteINode` are meant to maintain a map from inode numbers to
inodes. With `getIMap` at its contract they do (`insertINode_spec`). As written,
`getIMap` reads the stored map over its own parameter, so every caller goes on
with whatever its local `map` happens to hold. A map that was never written is the
one case that works: there `getIMap` returns -1 and nothing is read.

So `getINode` is right about `k` exactly as long as no inode was inserted into the
map of `k`.
-/

namespace Cs537.Fs

open Lib

variable {env : Env} {s : State} {k : Int32}

/-- The calls that change the store. -/
inductive StoreOp where
  | insertINode (node : INode) (inum : Int32)
  | deleteINode (inum : Int32)

def StoreOp.inum : StoreOp → Int32
  | .insertINode _ k => k
  | .deleteINode k => k

/-- The map from numbers to inodes the calls are to maintain. -/
abbrev Inodes := Int32 → Option INode

/-- What a call that returned `r` does to the map. -/
def StoreOp.effect (r : Int32) (m : Inodes) : StoreOp → Inodes
  | .insertINode node k => Function.update m k (some node)
  | .deleteINode k => if r = 0 then Function.update m k none else m

def StoreOp.exec (env : Env) (s : State) : StoreOp → Int32 × State
  | .insertINode node k => Fs.insertINode env node k s
  | .deleteINode k => Fs.deleteINode env k s

/-- A sequence of calls, each with its own locals, and the map it is to leave. -/
def runStore : List (Env × StoreOp) → State × Inodes → State × Inodes
  | [], t => t
  | (env, op) :: calls, (s, m) =>
      let (r, s') := op.exec env s
      runStore calls (s', op.effect r m)

/-- `getINode` returns what the map says. -/
def Faithful (env : Env) (t : State × Inodes) (k : Int32) : Prop :=
  match t.2 k with
  | some node => ∀ old, (getINode env k old t.1).1 = 0 ∧ (getINode env k old t.1).2.1 = node
  | none => ∀ old, (getINode env k old t.1).1 = -1

/-- A checkpoint without maps. -/
structure Fresh (s : State) : Prop where
  done : s.disk.outcomes = []
  start : 1028 ≤ s.cp.endPtr.toInt
  len : s.disk.file.len ≤ s.cp.endPtr.toInt
  maps : ∀ i, s.cp.mapPtrs i = 0

/-- Where `cp` has the map of `k`. -/
def State.mapPtr (s : State) (k : Int32) : Int32 := getAt s.cp.mapPtrs (getIMapNum k)

theorem Fresh.mapPtr (h : Fresh s) : s.mapPtr k = 0 := by
  unfold State.mapPtr getAt
  split
  · exact h.maps _
  · rfl

/-! ## `getIMap` with its bytes in the wrong place -/

/-- The caller's map is left as it was. -/
theorem getIMap_parameter (hp : env.dest = .parameter) (hd : s.disk.outcomes = []) (map : IMap) :
    ∃ q, getIMap env k map s = (if s.mapPtr k = 0 then -1 else 0, map, s.seek q) := by
  unfold State.mapPtr
  by_cases hm : getAt s.cp.mapPtrs (getIMapNum k) = 0
  · rw [getIMap_none env map hm, if_pos hm]
    exact ⟨s.disk.pos, rfl⟩
  · obtain ⟨q, hq⟩ := lseek_pos hd (getAt s.cp.mapPtrs (getIMapNum k))
    obtain ⟨c, bs, q', hr⟩ := read_pos 64 map.encode { s.disk with pos := q }
    rw [getIMap, if_neg hm, if_neg hm]
    dsimp only
    rw [hq, hr, hp]
    dsimp only
    rw [if_neg (by omega)]
    exact ⟨q', rfl⟩

/-- `getINode` follows the entry of the uninitialised map. -/
theorem getINode_parameter (hp : env.dest = .parameter) (hd : s.disk.outcomes = [])
    (hm : s.mapPtr k ≠ 0) (old : INode) :
    ∃ node q, getINode env k old s
      = (if getAt env.map.ptr (getMapIndexNum k) = -1 then -1 else 0, node, s.seek q) := by
  obtain ⟨q, hq⟩ := @getIMap_parameter env s k hp hd env.map
  rw [getINode, hq, if_neg hm]
  dsimp only
  rw [if_neg (by decide)]
  by_cases hptr : getAt env.map.ptr (getMapIndexNum k) = -1
  · rw [if_pos hptr, if_pos hptr]
    exact ⟨old, q, rfl⟩
  · obtain ⟨q1, hq1⟩ := @lseek_pos (s.seek q).disk hd (getAt env.map.ptr (getMapIndexNum k))
    obtain ⟨c, bs, q2, hr⟩ := read_pos 64 old.encode { (s.seek q).disk with pos := q1 }
    rw [if_neg hptr, if_neg hptr, hq1, hr]
    dsimp only
    rw [if_neg (by omega)]
    exact ⟨_, q2, rfl⟩

/-- While the map is missing, `getINode` fails. -/
theorem getINode_missing (env : Env) (hm : s.mapPtr k = 0) (old : INode) :
    getINode env k old s = (-1, old, s) := by
  rw [getINode, getIMap_none env _ hm]
  rfl

/-! ## No call touches the map pointers of another map -/

theorem writeToEnd_mapPtrs (bs : List UInt8) (s : State) :
    (writeToEnd bs s).2.cp.mapPtrs = s.cp.mapPtrs := by
  unfold writeToEnd
  dsimp only
  split
  · rfl
  · split <;> rfl

theorem getIMap_cp (env : Env) (i : Int32) (map : IMap) (s : State) :
    (getIMap env i map s).2.2.cp = s.cp := by
  unfold getIMap
  dsimp only
  split
  · rfl
  · split <;> rfl

theorem getINode_cp (env : Env) (i : Int32) (node : INode) (s : State) :
    (getINode env i node s).2.2.cp = s.cp := by
  have hm := getIMap_cp env i env.map s
  rw [getINode]
  generalize getIMap env i env.map s = c at hm ⊢
  dsimp only
  split
  · exact hm
  · split
    · exact hm
    · split <;> exact hm

theorem findEntry_cp (hit : Fin 14 → Fin 64 → FsDir → Bool) (node : INode) :
    ∀ (is : List (Fin 14)) (list : FsDirList) (s : State),
      (findEntry hit node is list s).2.2.cp = s.cp := by
  intro is
  induction is with
  | nil => exact fun _ _ => rfl
  | cons i is ih =>
      intro list s
      rw [findEntry]
      split
      · exact ih list s
      · dsimp only
        split
        · rfl
        · exact ih _ _

theorem putIMap_mapPtr {map : IMap} {i ptr : Int32} (h : getIMapNum i ≠ getIMapNum k) :
    (putIMap map i ptr s).2.mapPtr k = s.mapPtr k := by
  unfold State.mapPtr putIMap
  dsimp only
  rw [writeToEnd_mapPtrs]
  exact getAt_setAt_of_ne h

theorem insertINode_mapPtr {node : INode} {i : Int32} (h : getIMapNum i ≠ getIMapNum k) :
    (insertINode env node i s).2.mapPtr k = s.mapPtr k := by
  have hw := writeToEnd_mapPtrs node.encode s
  rw [insertINode]
  rcases hs1 : writeToEnd node.encode s with ⟨status, s1⟩
  rw [hs1] at hw
  dsimp only at hw ⊢
  split
  · rw [State.mapPtr, hw]; rfl
  · have hg := getIMap_cp env i env.map s1
    rcases hs2 : getIMap env i env.map s1 with ⟨r, map, s2⟩
    rw [hs2] at hg
    dsimp only at hg ⊢
    have hput := @putIMap_mapPtr s2 k (if r = -1 then ⟨fun _ => -1⟩ else map) i s.cp.endPtr h
    have h2 : s2.mapPtr k = s.mapPtr k := by rw [State.mapPtr, hg, hw]; rfl
    rcases hs3 : putIMap (if r = -1 then ⟨fun _ => -1⟩ else map) i s.cp.endPtr s2 with ⟨status, s3⟩
    rw [hs3, h2] at hput
    split <;> exact hput

theorem deleteINode_mapPtr {i : Int32} (h : getIMapNum i ≠ getIMapNum k) :
    (deleteINode env i s).2.mapPtr k = s.mapPtr k := by
  rw [deleteINode]
  rcases hn : getINode env i env.node s with ⟨r, node, s1⟩
  have h1 : s1.cp = s.cp := by
    have := getINode_cp env i env.node s
    rw [hn] at this
    exact this
  dsimp only
  split
  · rw [State.mapPtr, h1]; rfl
  · rcases hf : (if node.type = fsDirectory then
        findEntry occupied node (List.finRange 14) env.dirList s1 else (none, env.dirList, s1))
      with ⟨hit, list, s2⟩
    have h2 : s2.cp = s.cp := by
      split at hf
      · have := findEntry_cp occupied node (List.finRange 14) env.dirList s1
        rw [hf] at this
        exact this.trans h1
      · cases hf; exact h1
    cases hit with
    | some _ => rw [State.mapPtr, h2]; rfl
    | none =>
        refine (putIMap_mapPtr h).trans ?_
        rw [State.mapPtr, getIMap_cp, h2]
        rfl

theorem deleteINode_missing {i : Int32} (hm : s.mapPtr i = 0) : deleteINode env i s = (0, s) := by
  rw [deleteINode, getINode_missing env hm]
  exact if_pos rfl

/-! ## When `getINode` is right -/

/-- No inode is inserted into the map of `k`. -/
def NoInsert (k : Int32) (ops : List StoreOp) : Prop :=
  ∀ node i, StoreOp.insertINode node i ∈ ops → getIMapNum i ≠ getIMapNum k

/-- A call that inserts nothing into the map of `k` leaves that map missing. -/
theorem exec_missing {op : StoreOp} {m : Inodes} (hm : s.mapPtr k = 0) (hk : m k = none)
    (hop : NoInsert k [op]) :
    (op.exec env s).2.mapPtr k = 0 ∧ op.effect (op.exec env s).1 m k = none := by
  cases op with
  | insertINode node i =>
      have hne := hop node i (List.mem_singleton_self _)
      rw [StoreOp.exec, StoreOp.effect]
      refine ⟨(insertINode_mapPtr hne).trans hm, ?_⟩
      rw [Function.update_of_ne fun h => hne (by rw [h]), hk]
  | deleteINode i =>
      rw [StoreOp.exec, StoreOp.effect]
      constructor
      · by_cases hsame : getIMapNum i = getIMapNum k
        · have hi : s.mapPtr i = 0 := by rw [State.mapPtr, hsame]; exact hm
          rw [deleteINode_missing hi]
          exact hm
        · exact (deleteINode_mapPtr hsame).trans hm
      · split
        · by_cases hik : k = i
          · rw [hik, Function.update_self]
          · rw [Function.update_of_ne hik, hk]
        · exact hk

theorem runStore_missing : ∀ (calls : List (Env × StoreOp)) (s : State) (m : Inodes),
    s.mapPtr k = 0 → m k = none → NoInsert k (calls.map Prod.snd) →
    (runStore calls (s, m)).1.mapPtr k = 0 ∧ (runStore calls (s, m)).2 k = none := by
  intro calls
  induction calls with
  | nil => exact fun _ _ hm hk _ => ⟨hm, hk⟩
  | cons call calls ih =>
      intro s m hm hk hno
      obtain ⟨env, op⟩ := call
      obtain ⟨hm', hk'⟩ := @exec_missing env s k op m hm hk
        (fun node i hi => hno node i (by rw [List.mem_singleton.mp hi]; exact List.mem_cons_self ..))
      exact ih _ _ hm' hk' fun node i hi => hno node i (List.mem_cons_of_mem _ hi)

/-! ## A run whose locals all hold -1 -/

/-- Locals as the stack left them, `getIMap` as written. -/
def junk (ptr : Int32) : Env where
  dest := .parameter
  map := ⟨fun _ => ptr⟩
  node := ⟨0, 0, fun _ => 0⟩
  dirList := emptyDirList
  j := 0
  getINodeSize _ d := (0, d.pos)

/-- From an insert on the map is there. -/
theorem insert_mapPtr {e : Int} {node : INode} {i : Int32} (h : Level s e) (he : 1028 ≤ e)
    (hfit : e + 128 < 2 ^ 31) (hi : Inum i) : (insertINode env node i s).2.mapPtr i ≠ 0 := by
  have hend := h.end_eq
  have hend1 : (s.append node.encode).cp.endPtr.toInt = e + 64 := by
    have ha := @Level.append s e h (by omega) node.encode (by rw [INode.length_encode]; omega)
    rw [INode.length_encode] at ha
    exact ha.end_eq
  obtain ⟨map, q, heq⟩ := @insertINode_shape env s i h.done (by omega) node (by omega)
  rw [heq, State.mapPtr, mapPtr_putMap hi, if_pos rfl, seek_cp]
  intro h0
  rw [h0] at hend1
  have : (0 : Int32).toInt = 0 := rfl
  omega

/-- The entry every local map of `junk` has. -/
theorem junk_ptr {i : Int32} (ptr : Int32) (hi : Inum i) :
    getAt (junk ptr).map.ptr (getMapIndexNum i) = ptr := by
  rw [getAt, dif_pos ⟨hi.indexNum.1, hi.indexNum.2⟩]
  rfl

/-- With -1 in its local map, the delete believes that there is no inode. -/
theorem junk_delete {i : Int32} (hi : Inum i) (hd : s.disk.outcomes = []) :
    ∃ q, deleteINode (junk (-1)) i s = (0, s.seek q) := by
  by_cases hm : s.mapPtr i = 0
  · exact ⟨s.disk.pos, deleteINode_missing hm⟩
  · obtain ⟨node, q, hq⟩ := @getINode_parameter (junk (-1)) s i rfl hd hm (junk (-1)).node
    rw [junk_ptr _ hi, if_pos rfl] at hq
    rw [deleteINode, hq]
    exact ⟨q, if_pos rfl⟩

def StoreOp.isInsert : StoreOp → Bool
  | .insertINode _ _ => true
  | .deleteINode _ => false

/-- Every insert of the run appends 128 bytes, and a map once written stays. -/
theorem junk_run : ∀ (ops : List StoreOp) (s : State) (m : Inodes) (e : Int), Level s e → 1028 ≤ e →
    e + 128 * ops.countP StoreOp.isInsert < 2 ^ 31 → (∀ op ∈ ops, Inum op.inum) →
    ∃ e', Level (runStore (ops.map (Prod.mk (junk (-1)))) (s, m)).1 e' ∧ e' < 2 ^ 31
      ∧ (s.mapPtr k ≠ 0 ∨ ¬NoInsert k ops →
        (runStore (ops.map (Prod.mk (junk (-1)))) (s, m)).1.mapPtr k ≠ 0)
  | [], s, m, e, h, _, hfit, _ => by
      refine ⟨e, h, by simpa using hfit, ?_⟩
      rintro (hm | hins)
      · exact hm
      · exact absurd (fun _ _ hmem => by simp at hmem) hins
  | .insertINode node i :: ops, s, m, e, h, he, hfit, hops => by
      have hi : Inum i := hops _ (List.mem_cons_self ..)
      rw [List.countP_cons_of_pos (by rfl)] at hfit
      have hl : Level (insertINode (junk (-1)) node i s).2 (e + 128) :=
        h.insertINode (by omega) (by omega)
      have hmi : (insertINode (junk (-1)) node i s).2.mapPtr i ≠ 0 := insert_mapPtr h he (by omega) hi
      obtain ⟨e', hl', he', hmap⟩ := junk_run ops _ (Function.update m i (some node)) (e + 128) hl
        (by omega) (by omega) fun op hop => hops op (List.mem_cons_of_mem _ hop)
      refine ⟨e', hl', he', fun hor => hmap ?_⟩
      by_cases hsame : getIMapNum i = getIMapNum k
      · refine Or.inl ?_
        rw [State.mapPtr, ← hsame]
        exact hmi
      · rw [insertINode_mapPtr hsame]
        refine hor.imp_right fun hins hno => hins fun node' i' hmem => ?_
        rcases List.mem_cons.mp hmem with heq | hmem
        · cases heq; exact hsame
        · exact hno node' i' hmem
  | .deleteINode i :: ops, s, m, e, h, he, hfit, hops => by
      have hi : Inum i := hops _ (List.mem_cons_self ..)
      obtain ⟨q, hq⟩ := junk_delete hi h.done
      rw [List.countP_cons_of_neg (by simp [StoreOp.isInsert])] at hfit
      obtain ⟨e', hl', he', hmap⟩ := junk_run ops (s.seek q) (Function.update m i none) e (h.seek q)
        he hfit fun op hop => hops op (List.mem_cons_of_mem _ hop)
      have hrun : runStore ((StoreOp.deleteINode i :: ops).map (Prod.mk (junk (-1)))) (s, m)
          = runStore (ops.map (Prod.mk (junk (-1)))) (s.seek q, Function.update m i none) := by
        rw [List.map_cons, runStore, StoreOp.exec, hq]
        rfl
      rw [hrun]
      refine ⟨e', hl', he', fun hor => hmap (hor.imp_right fun hins hno => hins fun node' i' hmem => ?_)⟩
      rcases List.mem_cons.mp hmem with heq | hmem
      · cases heq
      · exact hno node' i' hmem

/-- With the map of `k` there, `getINode` answers by what its local map happens to hold. -/
theorem junk_getINode {ptr : Int32} (hd : s.disk.outcomes = []) (hk : Inum k) (hm : s.mapPtr k ≠ 0)
    (old : INode) : (getINode (junk ptr) k old s).1 = if ptr = -1 then -1 else 0 := by
  obtain ⟨node, q, hq⟩ := @getINode_parameter (junk ptr) s k rfl hd hm old
  rw [hq, junk_ptr _ hk]

/-- So it cannot be right both times. -/
theorem not_faithful_both {m : Inodes} (hd : s.disk.outcomes = []) (hk : Inum k)
    (hm : s.mapPtr k ≠ 0) : ¬(Faithful (junk (-1)) (s, m) k ∧ Faithful (junk 0) (s, m) k) := by
  rintro ⟨hminus, hzero⟩
  unfold Faithful at hminus hzero
  dsimp only at hminus hzero
  cases hmk : m k with
  | none =>
      rw [hmk] at hzero
      have hr := hzero (junk 0).node
      rw [junk_getINode hd hk hm] at hr
      exact absurd hr (by decide)
  | some node =>
      rw [hmk] at hminus
      have hr := (hminus (junk (-1)).node).1
      rw [junk_getINode hd hk hm] at hr
      exact absurd hr (by decide)

theorem fresh_blank : Fresh (State.blank []) := ⟨rfl, by decide, by decide, fun _ => rfl⟩

end Cs537.Fs
