import Cs537.Fs.Run

/-!
# How much a call appends

Whatever the environment, a call that succeeds in its system calls appends at most two
directory blocks, two inodes and two maps. So a run stays below 2^31 bytes for its
first quarter of a million calls, and the bound on the log that the results about runs
assume is one on their length.
-/

namespace Cs537.Fs

open Lib

variable {env : Env} {s s' s'' : State} {i k p : Int32} {name : CStr}

/-! ## Scans only move the file position -/

theorem findEntry_moved {hit : Fin 14 → Fin 64 → FsDir → Bool} {n : INode} :
    ∀ (is : List (Fin 14)) (list : FsDirList) (s : State), s.disk.outcomes = [] →
      Moved s (findEntry hit n is list s).2.2 := by
  intro is
  induction is with
  | nil => exact fun _ s _ => ⟨s.disk.pos, rfl⟩
  | cons b is ih =>
      intro list s hd
      rw [findEntry]
      split
      · exact ih list s hd
      · have hm := readDirList_moved hd (n.dataPtrs b) list
        generalize readDirList (n.dataPtrs b) list s = c at hm ⊢
        obtain ⟨l, s1⟩ := c
        dsimp only at hm ⊢
        split
        · exact hm
        · exact hm.trans (ih l s1 (hm.outcomes.trans hd))

theorem findSlot_moved {n : INode} :
    ∀ (is : List (Fin 14)) (list : FsDirList) (s : State), s.disk.outcomes = [] →
      Moved s (findSlot n is list s).2.2 := by
  intro is
  induction is with
  | nil => exact fun _ s _ => ⟨s.disk.pos, rfl⟩
  | cons b is ih =>
      intro list s hd
      rw [findSlot]
      split
      · exact ⟨s.disk.pos, rfl⟩
      · have hm := readDirList_moved hd (n.dataPtrs b) list
        generalize readDirList (n.dataPtrs b) list s = c at hm ⊢
        obtain ⟨l, s1⟩ := c
        dsimp only at hm ⊢
        split
        · exact hm
        · exact hm.trans (ih l s1 (hm.outcomes.trans hd))

theorem fsLookup_moved (hd : s.disk.outcomes = []) : Moved s (fsLookup env p name s).2 := by
  have hn := @getINode_moved env s p hd env.node
  rw [fsLookup]
  generalize getINode env p env.node s = c at hn ⊢
  obtain ⟨r, n, s1⟩ := c
  dsimp only at hn ⊢
  split
  · exact hn
  · split
    · exact hn
    · have hf := @findEntry_moved (fun _ _ => named name) n (List.finRange 14) env.dirList s1
        (hn.outcomes.trans hd)
      generalize findEntry (fun _ _ => named name) n (List.finRange 14) env.dirList s1 = c at hf ⊢
      obtain ⟨hit, l, s2⟩ := c
      cases hit <;> exact hn.trans hf

theorem getNextIdFrom_moved : ∀ (n i : Nat) (node : INode) (s : State), s.disk.outcomes = [] →
    Moved s (getNextIdFrom env n i node s).2 := by
  intro n
  induction n with
  | zero => exact fun _ _ s _ => ⟨s.disk.pos, rfl⟩
  | succ n ih =>
      intro i node s hd
      have hn := @getINode_moved env s (Int32.ofNat i) hd node
      rw [getNextIdFrom]
      generalize getINode env (Int32.ofNat i) node s = c at hn ⊢
      obtain ⟨r, nd, s1⟩ := c
      dsimp only at hn ⊢
      split
      · exact hn
      · exact hn.trans (ih (i + 1) nd s1 (hn.outcomes.trans hd))

/-! ## Appends -/

/-- From `s` to `s'` the log grows by at most `c` bytes. -/
def Rises (c : Nat) (s s' : State) : Prop :=
  ∀ e : Int, 0 ≤ e → e + c < 2 ^ 31 → Level s e → ∃ e', e ≤ e' ∧ e' ≤ e + c ∧ Level s' e'

theorem Moved.rises {c : Nat} (h : s.disk.outcomes = [] → Moved s s') : Rises c s s' := by
  intro e _ _ hl
  obtain ⟨q, rfl⟩ := h hl.done
  exact ⟨e, Int.le_refl _, by omega, hl.seek q⟩

theorem Rises.trans {c c' : Nat} (h1 : Rises c s s') (h2 : Rises c' s' s'') : Rises (c + c') s s'' := by
  intro e he hfit hl
  obtain ⟨e1, hle, hle', hl1⟩ := h1 e he (by omega) hl
  obtain ⟨e2, hle2, hle2', hl2⟩ := h2 e1 (by omega) (by omega) hl1
  exact ⟨e2, by omega, by omega, hl2⟩

theorem Rises.mono {c c' : Nat} (h : Rises c s s') (hc : c ≤ c') : Rises c' s s' := by
  intro e he hfit hl
  obtain ⟨e1, hle, hle', hl1⟩ := h e he (by omega) hl
  exact ⟨e1, hle, by omega, hl1⟩

/-- After calls that only read, an append of `c` bytes is one of `c` bytes. -/
theorem Rises.after {c : Nat} (h : s.disk.outcomes = [] → Moved s s') (h2 : Rises c s' s'') :
    Rises c s s'' := by
  have h1 : Rises 0 s s' := Moved.rises h
  exact (h1.trans h2).mono (by omega)

theorem writeToEnd_rises (bs : List UInt8) : Rises bs.length s (writeToEnd bs s).2 := by
  intro e he hfit hl
  have hend := hl.end_eq
  rw [writeToEnd_eq hl.done (by omega)]
  exact ⟨_, by omega, Int.le_refl _, hl.append he hfit⟩

theorem insertINode_rises {node : INode} : Rises 128 s (insertINode env node i s).2 :=
  fun e he hfit hl => ⟨e + 128, by omega, Int.le_refl _, hl.insertINode he hfit⟩

theorem putIMap_rises {map : IMap} {ptr : Int32} : Rises 64 s (putIMap map i ptr s).2 := by
  intro e he hfit hl
  have hend := hl.end_eq
  rw [putIMap_eq hl.done (by omega)]
  exact ⟨_, by omega, Int.le_refl _, hl.putMap he hfit⟩

theorem createEmptyDirectory_rises : Rises 4224 s (createEmptyDirectory env i p s).2 := by
  have hw := @writeToEnd_rises s (newDirList i p).encode
  rw [createEmptyDirectory]
  generalize writeToEnd (newDirList i p).encode s = c at hw ⊢
  rw [FsDirList.length_encode] at hw
  exact hw.trans insertINode_rises

theorem fsWrite_rises {block : Int32} {buffer : List UInt8} (hb : buffer.length = 4096) :
    Rises 4224 s (fsWrite env i buffer block s).2 := by
  have hn := fun hd => @getINode_moved env s i hd env.node
  rw [fsWrite]
  generalize getINode env i env.node s = c at hn ⊢
  obtain ⟨r, n, s1⟩ := c
  dsimp only at hn ⊢
  split
  · exact Moved.rises hn
  · split
    · exact Moved.rises hn
    · have hw := @writeToEnd_rises s1 buffer
      rw [hb] at hw
      refine Rises.after hn ?_
      generalize writeToEnd buffer s1 = c at hw ⊢
      exact hw.trans
        (Rises.after (fun _ => ⟨_, rfl⟩) insertINode_rises)

theorem deleteINode_rises : Rises 64 s (deleteINode env i s).2 := by
  have hn := fun hd => @getINode_moved env s i hd env.node
  rw [deleteINode]
  generalize getINode env i env.node s = c at hn ⊢
  obtain ⟨r, n, s1⟩ := c
  dsimp only at hn ⊢
  split
  · exact Moved.rises hn
  · have hf : s1.disk.outcomes = [] → Moved s1 (if n.type = fsDirectory then
        findEntry occupied n (List.finRange 14) env.dirList s1 else (none, env.dirList, s1)).2.2 := by
      intro hd
      split
      · exact findEntry_moved (List.finRange 14) env.dirList s1 hd
      · exact ⟨s1.disk.pos, rfl⟩
    generalize (if n.type = fsDirectory then
      findEntry occupied n (List.finRange 14) env.dirList s1 else (none, env.dirList, s1)) = c at hf ⊢
    obtain ⟨hit, l, s2⟩ := c
    have hs2 : s.disk.outcomes = [] → Moved s s2 :=
      fun hd => (hn hd).trans (hf ((hn hd).outcomes.trans hd))
    cases hit with
    | some x => exact Moved.rises hs2
    | none =>
        exact Rises.after hs2 (Rises.after
          (fun hd => @getIMap_moved env s2 i hd env.map) putIMap_rises)

theorem appendDirList_rises {node : INode} {list : FsDirList} :
    Rises 4224 s (appendDirList env node p list s).2 := by
  intro e he hfit hl
  have hend := hl.end_eq
  rw [appendDirList_eq hl.done (by omega)]
  have hl1 := @Level.append s e hl he list.encode (by rw [list.length_encode]; omega)
  rw [list.length_encode] at hl1
  exact ⟨e + 4096 + 128, by omega, by omega, hl1.insertINode (by omega) (by omega)⟩

theorem fsUnlink_rises : Rises 4288 s (fsUnlink env p name s).2 := by
  have hn := fun hd => @getINode_moved env s p hd env.node
  rw [fsUnlink]
  generalize getINode env p env.node s = c at hn ⊢
  obtain ⟨r, n, s1⟩ := c
  dsimp only at hn ⊢
  split
  · exact Moved.rises hn
  · split
    · exact Moved.rises hn
    · have hf := fun hd => @findEntry_moved (fun _ _ => named name) n (List.finRange 14) env.dirList
        s1 hd
      generalize findEntry (fun _ _ => named name) n (List.finRange 14) env.dirList s1 = c at hf ⊢
      obtain ⟨hit, l, s2⟩ := c
      have hs2 : s.disk.outcomes = [] → Moved s s2 :=
        fun hd => (hn hd).trans (hf ((hn hd).outcomes.trans hd))
      refine Rises.after hs2 ?_
      cases hit with
      | none =>
          dsimp only
          -- an inode without blocks leaves `j` unset; what is appended then is bounded too
          by_cases hj : (if ∃ b, n.dataPtrs b ≠ -1 then (64 : Int32) else env.j) = 64
          · rw [if_pos hj]
            exact Moved.rises fun _ => ⟨s2.disk.pos, rfl⟩
          · rw [if_neg hj]
            exact appendDirList_rises.mono (by omega)
      | some x =>
          obtain ⟨b, j⟩ := x
          have hdel := @deleteINode_rises env s2 (l.list j).pair
          dsimp only
          generalize deleteINode env (l.list j).pair s2 = c at hdel ⊢
          obtain ⟨stat, s3⟩ := c
          dsimp only at hdel ⊢
          split
          · exact hdel.mono (by omega)
          · exact hdel.trans appendDirList_rises

theorem fsCreate_rises {type : Int32} : Rises 8448 s (fsCreate env p type name s).2 := by
  have hl := fun hd => @fsLookup_moved env s p name hd
  rw [fsCreate]
  generalize fsLookup env p name s = c at hl ⊢
  obtain ⟨r, s1⟩ := c
  dsimp only at hl ⊢
  refine Rises.after hl ?_
  split
  · exact Moved.rises fun _ => ⟨s1.disk.pos, rfl⟩
  · have hn := fun hd => @getINode_moved env s1 p hd env.node
    generalize getINode env p env.node s1 = c at hn ⊢
    obtain ⟨r, n, s2⟩ := c
    dsimp only at hn ⊢
    refine Rises.after hn ?_
    split
    · exact Moved.rises fun _ => ⟨s2.disk.pos, rfl⟩
    · split
      · exact Moved.rises fun _ => ⟨s2.disk.pos, rfl⟩
      · have hid := fun hd => @getNextIdFrom_moved env bufferSize 0 env.node s2 hd
        rw [getNextId]
        generalize getNextIdFrom env bufferSize 0 env.node s2 = c at hid ⊢
        obtain ⟨newId, s3⟩ := c
        dsimp only at hid ⊢
        refine Rises.after hid ?_
        split
        · exact Moved.rises fun _ => ⟨s3.disk.pos, rfl⟩
        · have hf := fun hd => @findSlot_moved n (List.finRange 14) env.dirList s3 hd
          generalize findSlot n (List.finRange 14) env.dirList s3 = c at hf ⊢
          obtain ⟨hit, l, s4⟩ := c
          dsimp only at hf
          refine Rises.after hf ?_
          cases hit with
          | none => exact Moved.rises fun _ => ⟨s4.disk.pos, rfl⟩
          | some x =>
              obtain ⟨b, j⟩ := x
              -- the child, and then block and inode of the parent
              have hchild : Rises 4224 s4 (if type = fsDirectory then createEmptyDirectory env newId p s4
                  else createEmptyFile env newId s4).2 := by
                split
                · exact createEmptyDirectory_rises
                · exact insertINode_rises.mono (by omega)
              dsimp only
              generalize (if type = fsDirectory then createEmptyDirectory env newId p s4
                else createEmptyFile env newId s4) = c at hchild ⊢
              obtain ⟨r, s5⟩ := c
              have hw := @writeToEnd_rises s5 (l.set j ⟨strncpy name, newId⟩).encode
              dsimp only
              generalize writeToEnd (l.set j ⟨strncpy name, newId⟩).encode s5 = c at hw ⊢
              rw [FsDirList.length_encode] at hw
              exact hchild.trans
                (hw.trans insertINode_rises)

/-! ## Calls -/

/-- The checkpoint region lies below the log. -/
theorem Level.synced {e : Int} (h : Level s e) (he : 1028 ≤ e) : Level s.synced e := by
  have hl := h.len
  have hlen : s.synced.disk.file.len = max s.disk.file.len (0 + 1028) := by
    rw [← s.cp.length_encode]
    rfl
  exact ⟨rfl, h.end_eq, by omega⟩

/-- **A call appends at most 8448 bytes.** -/
theorem exec_level {e : Int} (h : Level s e) (he : 1028 ≤ e) (hfit : e + 8448 < 2 ^ 31) (op : Op) :
    ∃ e', e ≤ e' ∧ e' ≤ e + 8448 ∧ Level (exec env s op).2 e' := by
  have hrise : ∀ {s'}, Rises 8448 s s' → ∃ e', e ≤ e' ∧ e' ≤ e + 8448 ∧ Level s' e' :=
    fun hr => hr e (by omega) hfit h
  cases op with
  | create p type name => exact hrise (@fsCreate_rises env s p name type)
  | unlink p name =>
      have hr := @fsUnlink_rises env s p name
      exact hrise (hr.mono (by omega))
  | write i buffer b =>
      have hr := @fsWrite_rises env s i (Int32.ofNat b) buffer.bytes buffer.len
      exact hrise (hr.mono (by omega))
  | read i buffer b =>
      have hm := fun hd => @fsRead_moved env s i (Int32.ofNat b) buffer.bytes hd
      dsimp only [exec]
      generalize fsRead env i buffer.bytes (Int32.ofNat b) s = c at hm ⊢
      exact hrise (Moved.rises hm)
  | lookup p name =>
      have hm := fun hd => @fsLookup_moved env s p name hd
      dsimp only [exec]
      generalize fsLookup env p name s = c at hm ⊢
      exact hrise (Moved.rises hm)
  | stat i m =>
      have hm := fun hd => @getINode_moved env s i hd env.node
      rw [exec, fsStat]
      generalize getINode env i env.node s = c at hm ⊢
      obtain ⟨r, n, s1⟩ := c
      refine hrise (Moved.rises fun hd => ?_)
      dsimp only
      split
      · exact hm hd
      · exact hm hd
  | fsync =>
      rw [exec, fsFsync_eq h.done]
      exact ⟨e, Int.le_refl _, by omega, h.synced he⟩

/-- So a call can be made while there is room for it. -/
theorem step_of_level {ok : State → Op → Prop} {e : Int} (h : Level s e) (he : 1028 ≤ e)
    (hfit : e + 8448 < 2 ^ 31) (henv : env.dest = .caller) {op : Op} (hop : op.InRange) (hok : ok s op) :
    Step ok s (exec env s op).2 ∧ ∃ e', e ≤ e' ∧ e' ≤ e + 8448 ∧ Level (exec env s op).2 e' := by
  obtain ⟨e', hle, hle', hl⟩ := @exec_level env s e h he hfit op
  have hlen := hl.len
  exact ⟨Step.call henv hop hok (by omega), e', hle, hle', hl⟩

/-- `fs_init` makes a new image. -/
theorem fsInit_level (henv : env.dest = .caller) :
    ∃ s e, fsInit env none true [] = some s ∧ 1028 ≤ e ∧ e ≤ 5252 ∧ Level s e
      ∧ s.view = Function.update (fun _ => none) 0 (some (newDir 0 0)) := by
  have hblank : Level (State.blank []) 1028 := ⟨rfl, by decide, by decide⟩
  obtain ⟨e, hle, hle', hl⟩ := @createEmptyDirectory_rises env (State.blank []) 0 0 1028 (by decide)
    (by decide) hblank
  have hlen := hl.len
  have hinit : fsInit env none true [] = some (createEmptyDirectory env 0 0 (State.blank [])).2 := by
    rw [fsInit, if_neg (by decide)]
  exact ⟨_, e, hinit, hle, hle', hl, (fsInit_fresh henv hinit (by omega)).2⟩

/-- A server can start. -/
theorem reachable_start {ok : State → Op → Prop} (henv : env.dest = .caller) :
    ∃ s e, Reachable ok s ∧ 1028 ≤ e ∧ e ≤ 5252 ∧ Level s e
      ∧ s.view = Function.update (fun _ => none) 0 (some (newDir 0 0)) := by
  obtain ⟨s, e, hinit, hle, hle', hl, hv⟩ := fsInit_level henv
  have hlen := hl.len
  exact ⟨s, e, Reachable.init henv hinit (by omega), hle, hle', hl, hv⟩

/-- In every state with room for another call the log ends where the file does. -/
theorem level_reachable {ok : State → Op → Prop} (hr : Reachable ok s) :
    s.cp.endPtr.toInt + 8448 < 2 ^ 31 → Level s s.cp.endPtr.toInt := by
  induction hr with
  | @init env s henv hinit hlen =>
      obtain ⟨s₁, e, hinit₁, -, -, hl, -⟩ := fsInit_level henv
      rw [hinit] at hinit₁
      cases hinit₁
      intro _
      rw [hl.end_eq]
      exact hl
  | @tail s s' hr hst ih =>
      intro hfit
      have hinv := inv_reachable hr
      have hstart := hinv.log.start
      cases hst with
      | @call env op _ he hop hok hlen =>
          -- the log has not become shorter, so there was room before the call too
          have hle : s.cp.endPtr.toInt ≤ (exec env s op).2.cp.endPtr.toInt := by
            by_cases hsync : op = .fsync
            · rw [hsync, exec, fsFsync_eq hinv.log.done]
              exact Int.le_refl _
            · exact ((exec_effect hinv he hop hlen).grows hsync).end_le
          have hfit' : s.cp.endPtr.toInt + 8448 < 2 ^ 31 := by omega
          obtain ⟨e, -, -, hl⟩ := @exec_level env s s.cp.endPtr.toInt (ih hfit') hstart hfit' op
          rw [hl.end_eq]
          exact hl

/-- Locals that hold zeros, and `getIMap` at its contract. -/
def sampleEnv : Env where
  dest := .caller
  map := ⟨fun _ => 0⟩
  node := ⟨0, 0, fun _ => 0⟩
  dirList := emptyDirList
  j := 0
  getINodeSize _ d := (0, d.pos)

/-- `"a"`. -/
def sampleName : CStr := ⟨[97], by decide⟩

/-- In a new image the name `a` is free, and so is inode 1. -/
theorem create_sample {V : View} (hv : V = Function.update (fun _ => none) 0 (some (newDir 0 0))) :
    ∃ b j, V.create 0 1 sampleName = (0, some (V.link 0 1 (newDir 0 0) newFile b j sampleName)) := by
  have hdir : V.dir 0 = some (newDir 0 0) := by
    rw [hv]
    exact dir_eq_some.mpr ⟨Function.update_self .., rfl⟩
  have hlook : V.lookup 0 sampleName = none := by
    rw [lookup_none hdir]
    intro i j d hu
    obtain ⟨-, ⟨-, rfl, -⟩ | ⟨-, rfl, -⟩⟩ := used_newDir.mp hu
    · rw [text_strncpy]; decide
    · rw [text_strncpy]; decide
  have hnext : V.nextId = some 1 := by
    rw [View.nextId, Option.map_eq_some_iff]
    refine ⟨1, List.find?_range_eq_some.mpr ⟨?_, List.mem_range.mpr (by decide), ?_⟩, rfl⟩
    · rw [hv, Function.update_of_ne (by decide)]; rfl
    · intro m hm
      have h0 : m = 0 := by omega
      rw [hv, h0]
      rfl
  cases hfree : (newDir 0 0).free with
  | none =>
      obtain ⟨d, hd, -⟩ := free_none.mp hfree 1 0
      rw [slot_newDir] at hd
      cases hd
  | some x => exact ⟨x.1, x.2, create_new hlook hdir hnext hfree⟩

/-- A server whose client has made the file `a`. -/
theorem reachable_file {ok : State → Op → Prop} (hok : ∀ s, ok s (.create 0 1 sampleName)) :
    ∃ s e, Reachable ok s ∧ 1028 ≤ e ∧ e ≤ 13700 ∧ Level s e ∧ s.view 1 = some newFile := by
  obtain ⟨s, e, hr, he, he', hl, hv⟩ := @reachable_start sampleEnv ok rfl
  obtain ⟨hst, e1, hle, hle', hl1⟩ := @step_of_level sampleEnv s ok e hl he (by omega) rfl
    (.create 0 1 sampleName) (show Inum 0 by decide) (hok s)
  obtain ⟨b, j, hcreate⟩ := create_sample hv
  have hlen := hl1.len
  obtain ⟨size, hview⟩ := (@exec_effect sampleEnv s (inv_reachable hr) rfl (.create 0 1 sampleName)
    (show Inum 0 by decide) (by omega)).view
  refine ⟨_, e1, hr.tail hst, by omega, by omega, hl1, ?_⟩
  rw [hview, Op.effect, hcreate, Option.getD_some, View.link, Function.update_of_ne (by decide),
    Function.update_self]

end Cs537.Fs
