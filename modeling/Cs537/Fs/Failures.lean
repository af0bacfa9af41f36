import Cs537.Fs.Holes
import Cs537.Fs.Retry

/-!
# System calls that fail

No caller of `writeToEnd` and `insertINode` looks at what they return, `fs_unlink`
appends without them and does not look either, and no `lseek` before a `read` is
checked. So a call whose `lseek` or `write` fails returns what it would have returned
otherwise.

If nothing fails, a call does what the other modules say; that is the first half of this
one. It compares a run in which the outcomes of the system calls are given, and all are
successes, with the run in which none are given. The second half is what happens when
the data of an `fs_write` does not get to the disk.
-/

namespace Cs537.Fs

open Lib

variable {env : Env} {s s' : State} {i p : Int32} {name : CStr}

/-! ## Outcomes that are all successes -/

/-- The same state before system calls with these outcomes. -/
def State.facing (s : State) (os : List Outcome) : State := { s with disk := { s.disk with outcomes := os } }

@[simp] theorem facing_cp (os : List Outcome) : (s.facing os).cp = s.cp := rfl

theorem facing_nil (hd : s.disk.outcomes = []) : s.facing [] = s := by
  show (⟨s.cp, ⟨s.disk.file, s.disk.pos, [], s.disk.journal⟩⟩ : State) = s
  rw [← hd]

/-- The same disk before system calls that succeed. -/
def Disk.calm (d : Disk) : Disk := { d with outcomes := [] }

def State.calm (s : State) : State := { s with disk := s.disk.calm }

/-- None of the outcomes is a failure, nor a short write. -/
def Faultless (os : List Outcome) : Prop := ∀ o ∈ os, o = .done

/-- Two results that differ only in the outcomes to come, of which there are none in `y`. -/
structure Follows {α : Type} (x y : α × State) : Prop where
  eq : y = (x.1, x.2.calm)
  rest : Faultless x.2.disk.outcomes

theorem next_calm {d : Disk} (h : Faultless d.outcomes) :
    d.next.1 = .done ∧ d.next.2.calm = d.calm ∧ Faultless d.next.2.outcomes := by
  unfold Disk.next
  cases ho : d.outcomes with
  | nil => exact ⟨rfl, rfl, by rw [ho]; exact fun _ hm => absurd hm List.not_mem_nil⟩
  | cons o os =>
      rw [ho] at h
      exact ⟨h o (List.mem_cons_self ..), rfl, fun o' hm => h o' (List.mem_cons_of_mem _ hm)⟩

theorem lseek_calm {d : Disk} (h : Faultless d.outcomes) (p : Int32) :
    lseek p d.calm = ((lseek p d).1, (lseek p d).2.calm) ∧ Faultless (lseek p d).2.outcomes := by
  obtain ⟨h1, h2, h3⟩ := next_calm h
  unfold lseek
  rw [next_done (show d.calm.outcomes = [] from rfl), ← h2]
  generalize d.next = x at h1 h3 ⊢
  obtain ⟨o, d1⟩ := x
  obtain rfl : o = .done := h1
  dsimp only
  split <;> exact ⟨rfl, h3⟩

theorem write_calm {d : Disk} (h : Faultless d.outcomes) (bs : List UInt8) :
    write bs d.calm = ((write bs d).1, (write bs d).2.calm) ∧ Faultless (write bs d).2.outcomes := by
  obtain ⟨h1, h2, h3⟩ := next_calm h
  unfold write
  rw [next_done (show d.calm.outcomes = [] from rfl), ← h2]
  generalize d.next = x at h1 h3 ⊢
  obtain ⟨o, d1⟩ := x
  obtain rfl : o = .done := h1
  exact ⟨rfl, h3⟩

theorem writeToEnd_calm (h : Faultless s.disk.outcomes) (bs : List UInt8) :
    Follows (writeToEnd bs s) (writeToEnd bs s.calm) := by
  obtain ⟨h1, h1'⟩ := lseek_calm h s.cp.endPtr
  obtain ⟨h2, h2'⟩ := write_calm h1' bs
  have h1c : lseek s.calm.cp.endPtr s.calm.disk = _ := h1
  unfold writeToEnd
  rw [h1c]
  dsimp only
  split
  · exact ⟨rfl, h1'⟩
  · rw [h2]
    dsimp only
    split
    · exact ⟨rfl, h2'⟩
    · exact ⟨rfl, h2'⟩

theorem getIMap_calm (h : Faultless s.disk.outcomes) (map : IMap) :
    getIMap env i map s.calm = ((getIMap env i map s).1, (getIMap env i map s).2.1,
        (getIMap env i map s).2.2.calm)
      ∧ Faultless (getIMap env i map s).2.2.disk.outcomes := by
  obtain ⟨h1, h1'⟩ := lseek_calm h (getAt s.cp.mapPtrs (getIMapNum i))
  unfold getIMap
  have hc : s.calm.cp = s.cp := rfl
  have hd : s.calm.disk = s.disk.calm := rfl
  rw [hc, hd]
  dsimp only
  rw [h1]
  split
  · exact ⟨rfl, h⟩
  · dsimp only
    rw [if_neg (by exact Int.not_lt.mpr (Int.natCast_nonneg _)),
      if_neg (by exact Int.not_lt.mpr (Int.natCast_nonneg _))]
    exact ⟨rfl, h1'⟩

theorem getINode_calm (h : Faultless s.disk.outcomes) (node : INode) :
    getINode env i node s.calm = ((getINode env i node s).1, (getINode env i node s).2.1,
        (getINode env i node s).2.2.calm)
      ∧ Faultless (getINode env i node s).2.2.disk.outcomes := by
  obtain ⟨h1, h1'⟩ := @getIMap_calm env s i h env.map
  unfold getINode
  rw [h1]
  generalize getIMap env i env.map s = x at h1' ⊢
  obtain ⟨r, map, s1⟩ := x
  obtain ⟨h2, h2'⟩ := lseek_calm h1' (getAt map.ptr (getMapIndexNum i))
  have hd : s1.calm.disk = s1.disk.calm := rfl
  dsimp only
  rw [hd, h2]
  split
  · exact ⟨rfl, h1'⟩
  · split
    · exact ⟨rfl, h1'⟩
    · dsimp only
      rw [if_neg (by exact Int.not_lt.mpr (Int.natCast_nonneg _)),
        if_neg (by exact Int.not_lt.mpr (Int.natCast_nonneg _))]
      exact ⟨rfl, h2'⟩

theorem putIMap_calm (h : Faultless s.disk.outcomes) (map : IMap) (ptr : Int32) :
    Follows (putIMap map i ptr s) (putIMap map i ptr s.calm) :=
  @writeToEnd_calm (s.repoint i) h (IMap.encode ⟨setAt map.ptr (getMapIndexNum i) ptr⟩)

theorem insertINode_calm (h : Faultless s.disk.outcomes) (node : INode) :
    Follows (insertINode env node i s) (insertINode env node i s.calm) := by
  obtain ⟨h1, h1'⟩ := writeToEnd_calm h node.encode
  have hc : s.calm.cp = s.cp := rfl
  unfold insertINode
  rw [h1, hc]
  generalize writeToEnd node.encode s = x at h1' ⊢
  obtain ⟨status, s1⟩ := x
  dsimp only
  split
  · exact ⟨rfl, h1'⟩
  · obtain ⟨h2, h2'⟩ := @getIMap_calm env s1 i h1' env.map
    rw [h2]
    generalize getIMap env i env.map s1 = y at h2' ⊢
    obtain ⟨r, map, s2⟩ := y
    dsimp only
    obtain ⟨h3, h3'⟩ := @putIMap_calm s2 i h2' (if r = -1 then ⟨fun _ => -1⟩ else map) s.cp.endPtr
    rw [h3]
    generalize putIMap (if r = -1 then ⟨fun _ => -1⟩ else map) i s.cp.endPtr s2 = z at h3' ⊢
    obtain ⟨status', s3⟩ := z
    dsimp only
    split
    · exact ⟨rfl, h3'⟩
    · exact ⟨rfl, h3'⟩

theorem readDirList_calm (h : Faultless s.disk.outcomes) (ptr : Int32) (list : FsDirList) :
    Follows (readDirList ptr list s) (readDirList ptr list s.calm) := by
  obtain ⟨h1, h1'⟩ := lseek_calm h ptr
  have hd : s.calm.disk = s.disk.calm := rfl
  unfold readDirList
  rw [hd, h1]
  exact ⟨rfl, h1'⟩

theorem findEntry_calm {hit : Fin 14 → Fin 64 → FsDir → Bool} {n : INode} :
    ∀ (is : List (Fin 14)) (list : FsDirList) (s : State), Faultless s.disk.outcomes →
      findEntry hit n is list s.calm = ((findEntry hit n is list s).1, (findEntry hit n is list s).2.1,
          (findEntry hit n is list s).2.2.calm)
        ∧ Faultless (findEntry hit n is list s).2.2.disk.outcomes := by
  intro is
  induction is with
  | nil => exact fun list s h => ⟨rfl, h⟩
  | cons b is ih =>
      intro list s h
      rw [findEntry, findEntry]
      split
      · exact ih list s h
      · obtain ⟨h1, h1'⟩ := readDirList_calm h (n.dataPtrs b) list
        rw [h1]
        generalize readDirList (n.dataPtrs b) list s = x at h1' ⊢
        obtain ⟨list', s1⟩ := x
        dsimp only
        split
        · exact ⟨rfl, h1'⟩
        · exact ih list' s1 h1'

theorem findSlot_calm {n : INode} : ∀ (is : List (Fin 14)) (list : FsDirList) (s : State),
    Faultless s.disk.outcomes →
      findSlot n is list s.calm = ((findSlot n is list s).1, (findSlot n is list s).2.1,
          (findSlot n is list s).2.2.calm)
        ∧ Faultless (findSlot n is list s).2.2.disk.outcomes := by
  intro is
  induction is with
  | nil => exact fun list s h => ⟨rfl, h⟩
  | cons b is ih =>
      intro list s h
      rw [findSlot, findSlot]
      split
      · exact ⟨rfl, h⟩
      · obtain ⟨h1, h1'⟩ := readDirList_calm h (n.dataPtrs b) list
        rw [h1]
        generalize readDirList (n.dataPtrs b) list s = x at h1' ⊢
        obtain ⟨list', s1⟩ := x
        dsimp only
        split
        · exact ⟨rfl, h1'⟩
        · exact ih list' s1 h1'

theorem getNextIdFrom_calm : ∀ (n i : Nat) (node : INode) (s : State), Faultless s.disk.outcomes →
    Follows (getNextIdFrom env n i node s) (getNextIdFrom env n i node s.calm) := by
  intro n
  induction n with
  | zero => exact fun i node s h => ⟨rfl, h⟩
  | succ n ih =>
      intro i node s h
      obtain ⟨h1, h1'⟩ := @getINode_calm env s (Int32.ofNat i) h node
      rw [getNextIdFrom, getNextIdFrom, h1]
      generalize getINode env (Int32.ofNat i) node s = x at h1' ⊢
      obtain ⟨r, node', s1⟩ := x
      dsimp only
      split
      · exact ⟨rfl, h1'⟩
      · exact ih (i + 1) node' s1 h1'

theorem deleteINode_calm (h : Faultless s.disk.outcomes) :
    Follows (deleteINode env i s) (deleteINode env i s.calm) := by
  obtain ⟨h1, h1'⟩ := @getINode_calm env s i h env.node
  unfold deleteINode
  rw [h1]
  generalize getINode env i env.node s = x at h1' ⊢
  obtain ⟨r, node, s1⟩ := x
  dsimp only
  split
  · exact ⟨rfl, h1'⟩
  · -- the emptiness check, which a file does not need
    obtain ⟨hit, list, s2, h2, h2c, h2'⟩ : ∃ hit list s2,
        (if node.type = fsDirectory then findEntry occupied node (List.finRange 14) env.dirList s1
          else (none, env.dirList, s1)) = (hit, list, s2)
        ∧ (if node.type = fsDirectory then findEntry occupied node (List.finRange 14) env.dirList s1.calm
          else (none, env.dirList, s1.calm)) = (hit, list, s2.calm)
        ∧ Faultless s2.disk.outcomes := by
      split
      · obtain ⟨h2, h2'⟩ := @findEntry_calm occupied node (List.finRange 14) env.dirList s1 h1'
        exact ⟨_, _, _, rfl, h2, h2'⟩
      · exact ⟨_, _, _, rfl, rfl, h1'⟩
    rw [h2, h2c]
    dsimp only
    split
    · exact ⟨rfl, h2'⟩
    · obtain ⟨h3, h3'⟩ := @getIMap_calm env s2 i h2' env.map
      rw [h3]
      generalize getIMap env i env.map s2 = y at h3' ⊢
      obtain ⟨r', map, s3⟩ := y
      obtain ⟨h4, h4'⟩ := @putIMap_calm s3 i h3' map (-1)
      dsimp only
      rw [h4]
      exact ⟨rfl, h4'⟩

theorem createEmptyDirectory_calm (h : Faultless s.disk.outcomes) :
    Follows (createEmptyDirectory env i p s) (createEmptyDirectory env i p s.calm) := by
  obtain ⟨h1, h1'⟩ := writeToEnd_calm h (newDirList i p).encode
  have hc : s.calm.cp = s.cp := rfl
  unfold createEmptyDirectory
  rw [h1, hc]
  exact insertINode_calm h1' _

theorem createChild_calm {type : Int32} (h : Faultless s.disk.outcomes) :
    Follows (if type = fsDirectory then createEmptyDirectory env i p s else createEmptyFile env i s)
      (if type = fsDirectory then createEmptyDirectory env i p s.calm
        else createEmptyFile env i s.calm) := by
  split
  · exact createEmptyDirectory_calm h
  · exact insertINode_calm h _

theorem fsLookup_calm (h : Faultless s.disk.outcomes) :
    Follows (fsLookup env p name s) (fsLookup env p name s.calm) := by
  obtain ⟨h1, h1'⟩ := @getINode_calm env s p h env.node
  unfold fsLookup
  generalize getINode env p env.node s.calm = x' at h1 ⊢
  generalize getINode env p env.node s = x at h1 h1' ⊢
  obtain ⟨r, node, s1⟩ := x
  dsimp only at h1 h1'
  subst h1
  dsimp only
  split
  · exact ⟨rfl, h1'⟩
  · split
    · exact ⟨rfl, h1'⟩
    · obtain ⟨h2, h2'⟩ := @findEntry_calm (fun _ _ => named name) node (List.finRange 14) env.dirList s1 h1'
      rw [h2]
      generalize findEntry (fun _ _ => named name) node (List.finRange 14) env.dirList s1 = y at h2' ⊢
      obtain ⟨hit, list, s2⟩ := y
      cases hit with
      | none => exact ⟨rfl, h2'⟩
      | some x => exact ⟨rfl, h2'⟩

theorem appendDirList_calm (h : Faultless s.disk.outcomes) (node : INode) (list : FsDirList) :
    Follows (appendDirList env node p list s) (appendDirList env node p list s.calm) := by
  obtain ⟨h1, h1'⟩ := lseek_calm h s.cp.endPtr
  obtain ⟨h2, h2'⟩ := write_calm h1' list.encode
  have h1c : lseek s.calm.cp.endPtr s.calm.disk = _ := h1
  unfold appendDirList
  rw [h1c]
  dsimp only
  rw [h2]
  obtain ⟨h3, h3'⟩ := @insertINode_calm env ⟨{ s.cp with endPtr := s.cp.endPtr + 4096 },
    (write list.encode (lseek s.cp.endPtr s.disk).2).2⟩ p h2' node
  have h3c : insertINode env node p ⟨{ s.calm.cp with endPtr := s.calm.cp.endPtr + 4096 },
    (write list.encode (lseek s.cp.endPtr s.disk).2).2.calm⟩ = _ := h3
  dsimp only
  rw [h3c]
  exact ⟨rfl, h3'⟩

theorem fsUnlink_calm (h : Faultless s.disk.outcomes) :
    Follows (fsUnlink env p name s) (fsUnlink env p name s.calm) := by
  obtain ⟨h1, h1'⟩ := @getINode_calm env s p h env.node
  unfold fsUnlink
  generalize getINode env p env.node s.calm = x' at h1 ⊢
  generalize getINode env p env.node s = x at h1 h1' ⊢
  obtain ⟨r, node, s1⟩ := x
  dsimp only at h1 h1'
  subst h1
  dsimp only
  split
  · exact ⟨rfl, h1'⟩
  · split
    · exact ⟨rfl, h1'⟩
    · obtain ⟨h2, h2'⟩ := @findEntry_calm (fun _ _ => named name) node (List.finRange 14) env.dirList s1 h1'
      rw [h2]
      generalize findEntry (fun _ _ => named name) node (List.finRange 14) env.dirList s1 = y at h2' ⊢
      obtain ⟨hit, list, s2⟩ := y
      cases hit with
      | none =>
          dsimp only
          split
          · exact ⟨rfl, h2'⟩
          · split
            · exact ⟨rfl, h2'⟩
            · exact appendDirList_calm h2' node list
      | some x =>
          obtain ⟨b, j⟩ := x
          obtain ⟨h3, h3'⟩ := @deleteINode_calm env s2 (list.list j).pair h2'
          dsimp only
          rw [h3]
          generalize deleteINode env (list.list j).pair s2 = z at h3' ⊢
          obtain ⟨stat, s3⟩ := z
          dsimp only
          split
          · exact ⟨rfl, h3'⟩
          · exact appendDirList_calm h3' _ _

theorem fsCreate_calm {type : Int32} (h : Faultless s.disk.outcomes) :
    Follows (fsCreate env p type name s) (fsCreate env p type name s.calm) := by
  obtain ⟨h1, h1'⟩ := @fsLookup_calm env s p name h
  unfold fsCreate
  rw [h1]
  generalize fsLookup env p name s = x at h1' ⊢
  obtain ⟨r, s1⟩ := x
  dsimp only
  split
  · exact ⟨rfl, h1'⟩
  · obtain ⟨h2, h2'⟩ := @getINode_calm env s1 p h1' env.node
    rw [h2]
    generalize getINode env p env.node s1 = x at h2' ⊢
    obtain ⟨r, node, s2⟩ := x
    dsimp only
    split
    · exact ⟨rfl, h2'⟩
    · split
      · exact ⟨rfl, h2'⟩
      · obtain ⟨h3, h3'⟩ := @getNextIdFrom_calm env bufferSize 0 env.node s2 h2'
        rw [getNextId, getNextId, h3]
        generalize getNextIdFrom env bufferSize 0 env.node s2 = x at h3' ⊢
        obtain ⟨newId, s3⟩ := x
        dsimp only
        split
        · exact ⟨rfl, h3'⟩
        · obtain ⟨h4, h4'⟩ := @findSlot_calm node (List.finRange 14) env.dirList s3 h3'
          rw [h4]
          generalize findSlot node (List.finRange 14) env.dirList s3 = y at h4' ⊢
          obtain ⟨hit, list, s4⟩ := y
          cases hit with
          | none => exact ⟨rfl, h4'⟩
          | some x =>
              obtain ⟨b, j⟩ := x
              obtain ⟨h5, h5'⟩ := @createChild_calm env s4 newId p type h4'
              dsimp only
              rw [h5]
              generalize (if type = fsDirectory then createEmptyDirectory env newId p s4
                else createEmptyFile env newId s4) = z at h5' ⊢
              obtain ⟨r5, s5⟩ := z
              dsimp only at h5' ⊢
              obtain ⟨h6, h6'⟩ := writeToEnd_calm h5' (list.set j ⟨strncpy name, newId⟩).encode
              have hc : s5.calm.cp = s5.cp := rfl
              rw [h6, hc]
              generalize writeToEnd (list.set j ⟨strncpy name, newId⟩).encode s5 = z at h6' ⊢
              obtain ⟨r6, s6⟩ := z
              obtain ⟨h7, h7'⟩ := @insertINode_calm env s6 p h6' (node.setPtr b s5.cp.endPtr)
              dsimp only
              rw [h7]
              exact ⟨rfl, h7'⟩

/-- Neither function asks for the size. -/
theorem getINode_sized (env : Env) (size : INode → Disk → Int32 × Nat) (node : INode) :
    getINode { env with getINodeSize := size } i node s = getINode env i node s := by
  unfold getINode getIMap
  dsimp only

theorem insertINode_sized (env : Env) (size : INode → Disk → Int32 × Nat) (node : INode) :
    insertINode { env with getINodeSize := size } node i s = insertINode env node i s := by
  unfold insertINode getIMap
  dsimp only

/-- What `getINodeSize` says may depend on the disk it sees, so it is fixed to what it said. -/
theorem fsWrite_calm {buffer : List UInt8} {block : Int32} (h : Faultless s.disk.outcomes) :
    ∃ env₁ : Env, env₁.dest = env.dest
      ∧ Follows (fsWrite env i buffer block s) (fsWrite env₁ i buffer block s.calm) := by
  obtain ⟨h1, h1'⟩ := @getINode_calm env s i h env.node
  unfold fsWrite
  generalize getINode env i env.node s = x at h1 h1' ⊢
  obtain ⟨r, node, s1⟩ := x
  obtain ⟨h2, h2'⟩ := writeToEnd_calm h1' buffer
  dsimp only at h1 h2 h2' ⊢
  generalize writeToEnd buffer s1 = y at h2 h2' ⊢
  obtain ⟨r2, s2⟩ := y
  dsimp only at h2 h2' ⊢
  obtain ⟨out, hsize⟩ : ∃ out, env.getINodeSize
      { node with dataPtrs := setAt node.dataPtrs block s1.cp.endPtr } s2.disk = out := ⟨_, rfl⟩
  refine ⟨{ env with getINodeSize := fun _ _ => out }, rfl, ?_⟩
  have h1c : getINode { env with getINodeSize := fun _ _ => out } i env.node s.calm = (r, node, s1.calm) :=
    (getINode_sized env _ env.node).trans h1
  rw [h1c]
  dsimp only
  split
  · exact ⟨rfl, h1'⟩
  · split
    · exact ⟨rfl, h1'⟩
    · have hc : s1.calm.cp = s1.cp := rfl
      rw [h2, hc]
      simp only [hsize]
      obtain ⟨h3, h3'⟩ := @insertINode_calm env (s2.seek out.2) i h2'
        { node with size := out.1, dataPtrs := setAt node.dataPtrs block s1.cp.endPtr }
      have h3c := (insertINode_sized env (fun _ _ => out) _).trans h3
      exact ⟨congrArg (fun z => ((0 : Int32), z.2)) h3c, h3'⟩

/-- A call that meets no failure is the call without outcomes. -/
theorem exec_calm {op : Op} (hm : op.Mutates) (h : Faultless s.disk.outcomes) : ∃ env₁ : Env,
    env₁.dest = env.dest ∧ exec env₁ s.calm op = ((exec env s op).1, (exec env s op).2.calm) := by
  cases op with
  | create p type name => exact ⟨env, rfl, (@fsCreate_calm env s p name type h).eq⟩
  | unlink p name => exact ⟨env, rfl, (@fsUnlink_calm env s p name h).eq⟩
  | write i buffer b =>
      obtain ⟨env₁, hdest, hw⟩ := @fsWrite_calm env s i buffer.bytes (Int32.ofNat b) h
      exact ⟨env₁, hdest, hw.eq⟩
  | read i buffer b => exact hm.elim
  | lookup p name => exact hm.elim
  | stat i m => exact hm.elim
  | fsync => exact hm.elim

/-! ## What a call has to do -/

/-- Every lookup, every inode and every block written in `s` is in `s'` as it is in `s`. -/
structure State.Reads (s s' : State) : Prop where
  lookup : ∀ e e' : Env, e.dest = .caller → e'.dest = .caller → ∀ p, Inum p → ∀ name,
    (fsLookup e p name s').1 = (fsLookup e' p name s).1
  stat : ∀ e e' : Env, e.dest = .caller → e'.dest = .caller → ∀ i, Inum i → ∀ m,
    (fsStat e i m s').1 = (fsStat e' i m s).1 ∧ (fsStat e i m s').2.1 = (fsStat e' i m s).2.1
  read : ∀ e e' : Env, e.dest = .caller → e'.dest = .caller → ∀ i b, s.Written i b → ∀ old : Buffer,
    (fsRead e i old.bytes (Int32.ofNat b) s').1 = (fsRead e' i old.bytes (Int32.ofNat b) s).1
      ∧ (fsRead e i old.bytes (Int32.ofNat b) s').2.1 = (fsRead e' i old.bytes (Int32.ofNat b) s).2.1

theorem reads_of_view (hs : LogInv s) (hs' : LogInv s') (h : s'.view = s.view) : s.Reads s' := by
  have halike : s.view.Alike s'.view := by
    rw [h]
    exact View.Alike.refl s.view
  have hstate := halike.state hs hs'
  refine ⟨hstate.lookup, fun e e' he he' i hi m => ?_, hstate.read⟩
  obtain ⟨q, hq⟩ := @fsStat_spec e s' i hs' he hi m
  obtain ⟨q', hq'⟩ := @fsStat_spec e' s i hs he' hi m
  rw [hq, hq', h]
  exact ⟨rfl, rfl⟩

/--
The call in `s` with these outcomes. If it returns 0, what is read from then on is what
would have been read without failures, after a call that returned 0 too; if not, it
returns -1 and everything reads as before.
-/
def Handled (env : Env) (op : Op) (s : State) (os : List Outcome) : Prop :=
  ((exec env (s.facing os) op).1 = 0 → ∃ env₁ : Env, env₁.dest = .caller ∧ (exec env₁ s op).1 = 0
      ∧ (exec env₁ s op).2.Reads (exec env (s.facing os) op).2.calm)
    ∧ ((exec env (s.facing os) op).1 ≠ 0 → (exec env (s.facing os) op).1 = -1
      ∧ s.Reads (exec env (s.facing os) op).2.calm)

/-- A call that does not return 0 returns -1 and changes nothing. -/
theorem code_cases (op : Op) (V : View) :
    op.code V = 0 ∨ op.code V = -1 ∧ ∀ size, op.effect V size = none := by
  cases op with
  | create p type name =>
      show (V.create p type name).1 = 0
        ∨ (V.create p type name).1 = -1 ∧ ∀ _ : Int32, (V.create p type name).2 = none
      unfold View.create
      split
      · exact Or.inl rfl
      · split
        · split
          · exact Or.inl rfl
          · exact Or.inr ⟨rfl, fun _ => rfl⟩
        · exact Or.inr ⟨rfl, fun _ => rfl⟩
  | unlink p name =>
      show (V.unlink p name).1 = 0 ∨ (V.unlink p name).1 = -1 ∧ ∀ _ : Int32, (V.unlink p name).2 = none
      unfold View.unlink
      split
      · exact Or.inr ⟨rfl, fun _ => rfl⟩
      · split
        · exact Or.inl rfl
        · split
          · exact Or.inl rfl
          · split
            · exact Or.inl rfl
            · exact Or.inr ⟨rfl, fun _ => rfl⟩
  | write i buffer b =>
      show (V.write i buffer.bytes b 0).1 = 0
        ∨ (V.write i buffer.bytes b 0).1 = -1 ∧ ∀ size, (V.write i buffer.bytes b size).2 = none
      unfold View.write
      split
      · exact Or.inr ⟨rfl, fun _ => rfl⟩
      · split
        · exact Or.inr ⟨rfl, fun _ => rfl⟩
        · exact Or.inl rfl
  | read i buffer b => exact Or.inl rfl
  | lookup p name => exact Or.inl rfl
  | stat i m => exact Or.inl rfl
  | fsync => exact Or.inl rfl

/-- Without failures. -/
theorem handled_faultless {op : Op} {os : List Outcome} (hinv : Inv s) (he : env.dest = .caller)
    (hop : op.InRange) (hm : op.Mutates) (hos : Faultless os)
    (hlen : (exec env (s.facing os) op).2.disk.file.len < 2 ^ 31) : Handled env op s os := by
  have hcalm : (s.facing os).calm = s := facing_nil hinv.log.done
  obtain ⟨env₁, hdest, hexec⟩ := @exec_calm env (s.facing os) op hm hos
  rw [hcalm] at hexec
  unfold Handled
  generalize exec env (s.facing os) op = out at hexec hlen ⊢
  obtain ⟨r, s'⟩ := out
  dsimp only at hexec hlen ⊢
  have he₁ := hdest.trans he
  have hlen₁ : (exec env₁ s op).2.disk.file.len < 2 ^ 31 := by
    rw [hexec]
    exact hlen
  have heff := exec_effect hinv he₁ hop hlen₁
  have hcode := exec_code hinv he₁ hop hm hlen₁
  have hlog := heff.inv.log
  rw [hexec] at hcode hlog
  dsimp only at hcode hlog
  constructor
  · intro hr
    refine ⟨env₁, he₁, by rw [hexec]; exact hr, ?_⟩
    rw [hexec]
    exact reads_of_view hlog hlog rfl
  · intro hr
    obtain hzero | ⟨hneg, hnone⟩ := code_cases op s.view
    · exact absurd (hcode.trans hzero) hr
    · obtain ⟨size, hv⟩ := heff.view
      rw [hnone size, Option.getD_none, hexec] at hv
      exact ⟨hcode.trans hneg, reads_of_view hinv.log hlog hv⟩

/-! ## When the data does not get to the disk -/

/-- How the two system calls of `writeToEnd` can lose a block, of which `k` bytes arrive. -/
inductive Loses : List Outcome → Nat → Prop where
  | seek : Loses [.fails] 0
  | write : Loses [.done, .fails] 0
  /-- The inode and the map that come next do not fill up the block. -/
  | short {k : Nat} : k < 3968 → Loses [.done, .short k] k

theorem lseek_facing (os : List Outcome) (hp : 0 ≤ p.toInt) :
    lseek p (s.facing (.done :: os)).disk = (p.toInt, ((s.seek p.toInt.toNat).facing os).disk) := by
  have hneg : ¬p < 0 := by
    rw [Int32.lt_iff_toInt_lt]
    exact Int.not_lt.mpr hp
  exact if_neg hneg

theorem read_facing {n : Nat} {old : List UInt8} (h : Stored s p n) (hold : old.length = n)
    (os : List Outcome) :
    read n old (lseek p (s.facing (.done :: os)).disk).2
      = ((n : Int), s.bytes p n, ((s.seek (p.toInt.toNat + n)).facing os).disk) := by
  have hs := h.start
  rw [lseek_facing os (by omega)]
  exact @read_at (s.facing os) p n ⟨h.start, h.fits, h.present⟩ old hold

/-- `getINode`, with a success for each of its two `lseek`s. -/
theorem getINode_facing (h : LogInv s) (he : env.dest = .caller) (node : INode) {n : INode}
    (hn : s.inode i = some n) (os : List Outcome) :
    ∃ q, getINode env i node (s.facing (.done :: .done :: os)) = (0, n, (s.seek q).facing os) := by
  obtain ⟨hi, hentry, hdec⟩ := inode_eq_some hn
  have hm : getAt s.cp.mapPtrs (getIMapNum i) ≠ 0 := fun hm => hentry (if_pos hm)
  have hmap := read_facing (h.maps i hi hm) env.map.length_encode (.done :: os)
  have hget : getIMap env i env.map (s.facing (.done :: .done :: os))
      = (0, IMap.decode (s.bytes (getAt s.cp.mapPtrs (getIMapNum i)) 64),
        (s.seek ((getAt s.cp.mapPtrs (getIMapNum i)).toInt.toNat + 64)).facing (.done :: os)) := by
    rw [getIMap, facing_cp, if_neg hm]
    dsimp only
    rw [hmap, he]
    rfl
  have hnode := read_facing ((seek_stored ((getAt s.cp.mapPtrs (getIMapNum i)).toInt.toNat + 64)).mpr
    (h.nodes i hi hentry)) node.length_encode os
  refine ⟨(s.entry i).toInt.toNat + 64, ?_⟩
  rw [getINode, hget]
  dsimp only
  rw [if_neg (by decide), ← entry_eq_of_map hm, if_neg hentry, hnode]
  dsimp only
  rw [if_neg (by omega), seek_bytes, hdec]
  rfl

/-- What is left of the block: nothing, or the bytes that arrived. -/
theorem writeToEnd_loses {os : List Outcome} {k : Nat} (hd : s.disk.outcomes = [])
    (hs : 0 ≤ s.cp.endPtr.toInt) (hos : Loses os k) (buffer : List UInt8) :
    ∃ r t, writeToEnd buffer (s.facing os) = (r, t)
      ∧ ((∃ q, t = s.seek q) ∨ t = s.append (buffer.take k)) := by
  have hpos : ¬s.cp.endPtr.toInt < 0 := by omega
  cases hos with
  | seek => exact ⟨_, _, rfl, Or.inl ⟨s.disk.pos, facing_nil hd⟩⟩
  | write =>
      refine ⟨-1, s.seek s.cp.endPtr.toInt.toNat, ?_, Or.inl ⟨_, rfl⟩⟩
      rw [writeToEnd, facing_cp, lseek_facing [.fails] hs]
      dsimp only
      rw [if_neg hpos, ← facing_nil hd]
      rfl
  | short hk =>
      refine ⟨((buffer.take k).length : Int), s.append (buffer.take k), ?_, Or.inr rfl⟩
      rw [writeToEnd, facing_cp, lseek_facing [.short k] hs]
      dsimp only
      rw [if_neg hpos, ← facing_nil hd]
      exact if_neg (Int.not_lt.mpr (Int.natCast_nonneg _))

/-- `fs_write` goes on and writes the inode, with a pointer to where the block should be. -/
theorem fsWrite_loses {n : INode} {b : Fin 14} {os : List Outcome} {k : Nat} (h : LogInv s)
    (he : env.dest = .caller) (hn : s.inode i = some n) (ht : n.type ≠ fsDirectory) (hos : Loses os k)
    (buffer : List UInt8) :
    ∃ size pos t, ((∃ q, t = s.seek q) ∨ t = s.append (buffer.take k))
      ∧ fsWrite env i buffer (Int32.ofNat b) (s.facing (.done :: .done :: os))
        = (0, (insertINode env ⟨size, n.type, (n.setPtr b s.cp.endPtr).dataPtrs⟩ i (t.seek pos)).2) := by
  have hstart := h.start
  obtain ⟨q, hq⟩ := getINode_facing h he env.node hn os
  obtain ⟨r, t, hwrite, ht'⟩ := @writeToEnd_loses (s.seek q) os k h.done
    (show 0 ≤ s.cp.endPtr.toInt by omega) hos buffer
  have hset : { n with dataPtrs := setAt n.dataPtrs (Int32.ofNat b) s.cp.endPtr }
      = n.setPtr b s.cp.endPtr := by
    rw [setAt_eq_setPtr (toInt_block b)]
    rfl
  obtain ⟨size, pos, hsize⟩ : ∃ size pos, env.getINodeSize (n.setPtr b s.cp.endPtr) t.disk = (size, pos) :=
    ⟨_, _, rfl⟩
  refine ⟨size, pos, t, ht', ?_⟩
  rw [fsWrite, hq]
  dsimp only
  rw [if_neg (by decide), if_neg ht, hwrite, facing_cp, seek_cp, hset]
  simp only [hsize, setAt_eq_setPtr (toInt_block b)]
  rfl

/-- What `insertINode` wrote is found, wherever its pointers lead. -/
theorem getINode_insertINode {env' : Env} {node : INode} (h : LogInv s) (he : env.dest = .caller)
    (he' : env'.dest = .caller) (hi : Inum i)
    (hlen : (insertINode env node i s).2.disk.file.len < 2 ^ 31) (old : INode) :
    ∃ q, getINode env' i old (insertINode env node i s).2
      = (0, node, (insertINode env node i s).2.seek q) := by
  have hstart := h.start
  have hlen1 := insertINode_append_len h hlen
  obtain ⟨h1, -, -⟩ := logInv_append h hlen1
  obtain ⟨hst, hbytes⟩ := append_stored hstart hlen1
  rw [INode.length_encode] at hst hbytes
  obtain ⟨map, q, heq, hmap⟩ := insertINode_eq h he hi hlen1
  rw [heq] at hlen ⊢
  dsimp only at hlen ⊢
  have hg := grows_putMap (h1.seek q) hlen
  have hkeeps := hg.keeps
  have hentry := entry_putMap (h1.seek q) hi hi hmap hlen
  rw [if_pos rfl] at hentry
  have hptr := @mapPtr_putMap ((s.append node.encode).seek q) i i map s.cp.endPtr hi
  rw [if_pos rfl] at hptr
  have hne : s.cp.endPtr ≠ -1 := by
    intro h0
    rw [h0] at hstart
    exact absurd hstart (by decide)
  have hmapped := (putMap_stored (h1.seek q) hlen).1
  clear hlen heq
  generalize ((s.append node.encode).seek q).putMap map i s.cp.endPtr = s' at hg hkeeps hentry hptr hmapped ⊢
  have hst' := (seek_stored q).mpr hst
  have hget := @getINode_stored env' s' i (hg.outcomes.trans h1.done) he' old (by rw [hentry]; exact hne)
    (by rw [hptr]; exact hmapped) (by rw [hentry]; exact hkeeps.stored hst')
  rw [hentry, hkeeps.bytes hst', seek_bytes, hbytes, INode.decode_encode] at hget
  exact ⟨_, hget⟩

/-- Where the file ends within the block, the end of the caller's buffer stays as it was. -/
theorem read_past_end {d : Disk} {old : List UInt8} {n : Nat} (hlen : d.file.len < d.pos + n) :
    (read n old d).2.1[n - 1]? = old[n - 1]? := by
  have hread : (d.file.pread d.pos n).length ≤ n - 1 := by
    unfold File.pread
    rw [length_load]
    omega
  show (d.file.pread d.pos n ++ old.drop (d.file.pread d.pos n).length)[n - 1]? = _
  rw [List.getElem?_append_right hread, List.getElem?_drop, Nat.add_sub_cancel' hread]

/-- A block that begins so close to the end of the file reads as what the caller's buffer ends with. -/
theorem fsRead_past_end {env' : Env} {node : INode} {b : Fin 14} {e : Int} (h : LogInv s)
    (hl : Level s e) (hfit : e + 128 < 2 ^ 31) (he : env.dest = .caller) (he' : env'.dest = .caller)
    (hi : Inum i) (ht : node.type = fsRegularFile) (hb : 0 ≤ (node.dataPtrs b).toInt)
    (hend : e + 128 < (node.dataPtrs b).toInt + 4096) (old : Buffer) :
    (fsRead env' i old.bytes (Int32.ofNat b) (insertINode env node i s).2).2.1[4095]?
      = old.bytes[4095]? := by
  have hstart := h.start
  have hend' := hl.end_eq
  have hl' : Level (insertINode env node i s).2 (e + 128) := hl.insertINode (by omega) hfit
  have hlen := hl'.len
  obtain ⟨q, hq⟩ := @getINode_insertINode env s i env' node h he he' hi (by omega) env'.node
  generalize (insertINode env node i s).2 = s' at hl' hlen hq ⊢
  rw [fsRead, hq]
  dsimp only
  rw [if_neg (by decide), if_pos ht, getAt_of_toInt (toInt_block b), lseek_done (by exact hl'.done) hb]
  exact read_past_end (show s'.disk.file.len < (node.dataPtrs b).toInt.toNat + 4096 by omega)

/-- The block that was written without failures. -/
theorem block_exec_write {n : INode} {b : Fin 14} {buffer : Buffer} (hinv : Inv s)
    (he : env.dest = .caller) (hn : s.inode i = some n) (ht : n.type = fsRegularFile)
    (hlen : (exec env s (.write i buffer b)).2.disk.file.len < 2 ^ 31) :
    LogInv (exec env s (.write i buffer b)).2
      ∧ (exec env s (.write i buffer b)).2.view.block i b = some buffer.bytes := by
  have heff := exec_effect hinv he (show Op.InRange (.write i buffer b) from (inode_eq_some hn).1) hlen
  obtain ⟨size, hv⟩ := heff.view
  have hw : s.view.write i buffer.bytes b size = (0, some (Function.update s.view i
      (some { (s.node n).setBlock b buffer.bytes with size := size }))) := by
    rw [View.write, view_some hn]
    exact if_neg (show n.type ≠ fsDirectory by rw [ht]; decide)
  refine ⟨heff.inv.log, ?_⟩
  rw [hv, Op.effect, hw, Option.getD_some]
  refine block_some.mpr ⟨_, Function.update_self .., ht, ?_⟩
  show ((s.node n).setBlock b buffer.bytes).blocks b = some buffer.bytes
  rw [setBlock_blocks, if_pos rfl]

/-- The data is lost, the call returns 0, and the end of the block is whatever the reader had there. -/
theorem exec_loses {n : INode} {b : Fin 14} {buffer : Buffer} {os : List Outcome} {k : Nat} {e : Int}
    (h : LogInv s) (hl : Level s e) (hfit : e + 8448 < 2 ^ 31) (he : env.dest = .caller)
    (hn : s.inode i = some n) (ht : n.type = fsRegularFile) (hos : Loses os k) :
    ∃ s', exec env (s.facing (.done :: .done :: os)) (.write i buffer b) = (0, s') ∧ s'.calm = s'
      ∧ ∀ env' : Env, env'.dest = .caller → ∀ old : Buffer,
        (fsRead env' i old.bytes (Int32.ofNat b) s').2.1[4095]? = old.bytes[4095]? := by
  have hstart := h.start
  have hend := hl.end_eq
  have hk : k < 3968 := by
    cases hos with
    | seek => decide
    | write => decide
    | short hk => exact hk
  obtain ⟨size, pos, t, hside, hw⟩ := @fsWrite_loses env s i n b os k h he hn (by rw [ht]; decide) hos
    buffer.bytes
  -- the log ends before the end of the lost block
  obtain ⟨e', hle, hle', hlog, hlt⟩ : ∃ e', e ≤ e' ∧ e' < e + 3968 ∧ LogInv t ∧ Level t e' := by
    rcases hside with ⟨q, rfl⟩ | rfl
    · exact ⟨e, by omega, by omega, h.seek q, hl.seek q⟩
    · have htake := List.length_take_le k buffer.bytes
      have ha := @Level.append s e hl (by omega) (buffer.bytes.take k) (by omega)
      have halen := ha.len
      exact ⟨_, by omega, by omega, (logInv_append h (by omega)).1, ha⟩
  obtain ⟨node, hnode, hptr, htype⟩ : ∃ node : INode,
      ⟨size, n.type, (n.setPtr b s.cp.endPtr).dataPtrs⟩ = node ∧ node.dataPtrs b = s.cp.endPtr
        ∧ node.type = fsRegularFile := ⟨_, rfl, if_pos rfl, ht⟩
  rw [hnode] at hw
  have hl' := @Level.insertINode env (t.seek pos) i e' node (hlt.seek pos) (by omega) (by omega)
  have hread := fun env' he' => @fsRead_past_end env (t.seek pos) i env' node b e' (hlog.seek pos)
    (hlt.seek pos) (by omega) he he' (inode_eq_some hn).1 htype (by rw [hptr]; omega) (by rw [hptr]; omega)
  rw [exec, hw]
  generalize (insertINode env node i (t.seek pos)).2 = s' at hl' hread ⊢
  exact ⟨s', rfl, facing_nil hl'.done, hread⟩

theorem loses_unhandled {n : INode} {b : Fin 14} {buffer : Buffer} {os : List Outcome} {k : Nat} {e : Int}
    (hinv : Inv s) (hl : Level s e) (hfit : e + 8448 < 2 ^ 31) (he : env.dest = .caller)
    (hn : s.inode i = some n) (ht : n.type = fsRegularFile) (hos : Loses os k) :
    (exec env (s.facing (.done :: .done :: os)) (.write i buffer b)).1 = 0
      ∧ ¬Handled env (.write i buffer b) s (.done :: .done :: os) := by
  have hstart := hinv.log.start
  have hend := hl.end_eq
  obtain ⟨s', hexec, hcalm, hread⟩ := @exec_loses env s i n b buffer os k e hinv.log hl hfit he hn ht hos
  unfold Handled
  rw [hexec]
  dsimp only
  rw [hcalm]
  refine ⟨rfl, fun hh => ?_⟩
  obtain ⟨env₁, he₁, -, hreads⟩ := hh.1 rfl
  obtain ⟨e₁, -, hle₁, hl₁⟩ := @exec_level env₁ s e hl (by omega) hfit (.write i buffer b)
  have hlen₁ := hl₁.len
  obtain ⟨hlog₁, hblock⟩ := @block_exec_write env₁ s i n b buffer hinv he₁ hn ht (by omega)
  -- the block cannot end in two bytes at once
  have hlast : ∀ x : UInt8, buffer.bytes[4095]? = some x := by
    intro x
    let old : Buffer := ⟨List.replicate 4096 x, List.length_replicate⟩
    have hwritten := written_iff.mpr fun hnone => Option.some_ne_none _ (hblock.symm.trans hnone)
    have hsame := (hreads.read sampleEnv sampleEnv rfl rfl i b hwritten old).2
    obtain ⟨q, hq⟩ := @fsRead_spec sampleEnv _ i hlog₁ rfl b (Int32.ofNat b) (toInt_block b) buffer.bytes
      old.bytes old.len hblock
    rw [hq] at hsame
    dsimp only at hsame
    rw [← hsame, hread sampleEnv rfl old]
    exact List.getElem?_replicate_of_lt (by decide)
  have hcontra := (hlast 0).symm.trans (hlast 1)
  exact absurd (Option.some.inj hcontra) (by decide)

end Cs537.Fs
