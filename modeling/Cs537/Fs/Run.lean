import Cs537.Fs.Calls

/-!
# Runs of the file system

A run starts with `fs_init` on a new image and makes any calls with inode numbers in
range. `getIMap` is at its contract in all of them, everything else in `Env` may be
different in every call. The log stays below 2^31 bytes.

`Reachable` takes a parameter that says which calls are admitted in which state.
Nothing in this module restricts it: a client may unlink `.` and `..`. What survives
even that is `Sound`, and with it the contents of files.
-/

namespace Cs537.Fs

open Lib

variable {env : Env} {s s' s'' : State} {i k p : Int32} {name : CStr} {V V' : View} {nd : Node}

/-! ## Calls -/

/-- A buffer of `BUFFER_SIZE` bytes. -/
structure Buffer where
  bytes : List UInt8
  len : bytes.length = bufferSize

inductive Op where
  | create (pinum type : Int32) (name : CStr)
  | unlink (pinum : Int32) (name : CStr)
  | write (inum : Int32) (buffer : Buffer) (block : Fin 14)
  | read (inum : Int32) (buffer : Buffer) (block : Fin 14)
  | lookup (pinum : Int32) (name : CStr)
  | stat (inum : Int32) (m : StatT)
  | fsync

/-- The inode numbers passed are in range. -/
def Op.InRange : Op → Prop
  | .create p _ _ | .unlink p _ | .lookup p _ => Inum p
  | .write i _ _ | .read i _ _ | .stat i _ => Inum i
  | .fsync => True

def exec (env : Env) (s : State) : Op → Int32 × State
  | .create p type name => fsCreate env p type name s
  | .unlink p name => fsUnlink env p name s
  | .write i buffer b => fsWrite env i buffer.bytes (Int32.ofNat b) s
  | .read i buffer b => ((fsRead env i buffer.bytes (Int32.ofNat b) s).1,
      (fsRead env i buffer.bytes (Int32.ofNat b) s).2.2)
  | .lookup p name => fsLookup env p name s
  | .stat i m => ((fsStat env i m s).1, (fsStat env i m s).2.2)
  | .fsync => fsFsync s

/-- What a call does to the view. -/
def Op.effect (V : View) (size : Int32) : Op → Option View
  | .create p type name => (V.create p type name).2
  | .unlink p name => (V.unlink p name).2
  | .write i buffer b => (V.write i buffer.bytes b size).2
  | _ => none

/-- One call, admitted by `ok`. -/
inductive Step (ok : State → Op → Prop) : State → State → Prop where
  | call {env : Env} {op : Op} {s : State} : env.dest = .caller → op.InRange → ok s op →
      (exec env s op).2.disk.file.len < 2 ^ 31 → Step ok s (exec env s op).2

/-- Any number of calls. -/
inductive Run (ok : State → Op → Prop) : State → State → Prop where
  | refl {s : State} : Run ok s s
  | tail {s s' s'' : State} : Run ok s s' → Step ok s' s'' → Run ok s s''

/-- The states of a server that started with a new image. -/
inductive Reachable (ok : State → Op → Prop) : State → Prop where
  | init {env : Env} {s : State} : env.dest = .caller → fsInit env none true [] = some s →
      s.disk.file.len < 2 ^ 31 → Reachable ok s
  | tail {s s' : State} : Reachable ok s → Step ok s s' → Reachable ok s'

theorem toInt_block (b : Fin 14) : (Int32.ofNat b).toInt = b := toInt_ofNat_of_range (by omega)

/-! ## Views stay sound -/

theorem soundNode_newFile : SoundNode newFile :=
  ⟨Or.inr rfl, fun h => absurd h (by decide), fun h => absurd h (by decide)⟩

theorem soundNode_newDir (hk : Inum k) (hp : Inum p) : SoundNode (newDir k p) where
  type := Or.inl rfl
  first _ := by
    rw [newDir, setBlock_blocks, if_pos rfl]
    exact Option.some_ne_none _
  pairs _ {b j d} h := by
    rw [slot_newDir] at h
    split at h
    · cases Option.some.inj h
      split
      · exact Or.inr hp
      · split
        · exact Or.inr hk
        · exact Or.inl rfl
    · cases h

theorem SoundNode.setSlot (h : SoundNode nd) {b : Fin 14} {j : Fin 64} {d : FsDir}
    (hd : d.pair = -1 ∨ Inum d.pair) : SoundNode (nd.setSlot b j d) where
  type := h.type
  first ht := by
    rw [Node.setSlot, setBlock_blocks]
    split
    · exact Option.some_ne_none _
    · exact h.first ht
  pairs ht {b' j' e} he := by
    rw [slot_setSlot] at he
    split at he
    · cases Option.some.inj he
      split
      · exact hd
      · rcases @slot_dirList nd b j' with hs | ⟨-, hun⟩
        · exact h.pairs ht hs
        · rw [hun]; exact Or.inl rfl
    · exact h.pairs ht he

theorem Sound.update (h : Sound V) (hi : Inum i) (hn : SoundNode nd) :
    Sound (Function.update V i (some nd)) where
  inum {j n} hj := by
    by_cases hji : j = i
    · rw [hji]; exact hi
    · rw [Function.update_of_ne hji] at hj; exact h.inum hj
  node {j n} hj := by
    by_cases hji : j = i
    · subst hji
      rw [Function.update_self] at hj
      cases hj
      exact hn
    · rw [Function.update_of_ne hji] at hj; exact h.node hj

theorem Sound.remove (h : Sound V) : Sound (Function.update V i none) where
  inum {j n} hj := by
    by_cases hji : j = i
    · rw [hji, Function.update_self] at hj; cases hj
    · rw [Function.update_of_ne hji] at hj; exact h.inum hj
  node {j n} hj := by
    by_cases hji : j = i
    · rw [hji, Function.update_self] at hj; cases hj
    · rw [Function.update_of_ne hji] at hj; exact h.node hj

/-! ## What a call that changes the view does -/

/-- `create` changes the view by linking one new node into the directory `p`. -/
theorem create_some {type : Int32} (h : (V.create p type name).2 = some V') :
    ∃ nd k b j, V.lookup p name = none ∧ V.dir p = some nd ∧ V.nextId = some k ∧ nd.free = some (b, j)
      ∧ V' = V.link p k nd (if type = fsDirectory then newDir k p else newFile) b j name := by
  cases hl : V.lookup p name with
  | some x => rw [create_existing (by rw [hl]; rfl)] at h; cases h
  | none =>
      cases hd : V.dir p with
      | none => rw [create_of_dir_none hd] at h; cases h
      | some nd =>
          cases hk : V.nextId with
          | none => rw [create_no_inum hl hk] at h; cases h
          | some k =>
              cases hf : nd.free with
              | none => rw [create_full hl hd hf] at h; cases h
              | some x =>
                  obtain ⟨b, j⟩ := x
                  rw [create_new hl hd hk hf] at h
                  exact ⟨nd, k, b, j, rfl, rfl, rfl, hf, (Option.some.inj h).symm⟩

/-- `unlink` changes the view by removing the node an entry of `p` names, and the entry. -/
theorem unlink_some (h : (V.unlink p name).2 = some V') :
    ∃ nd b j d, V.dir p = some nd ∧ nd.Used b j d ∧ d.text = name.chars.take 60
      ∧ V.lookup p name = some d.pair ∧ V.removable d.pair = true
      ∧ V' = Function.update (Function.update V d.pair none) p (some (nd.setSlot b j unused)) := by
  cases hd : V.dir p with
  | none => rw [unlink_of_dir_none hd] at h; cases h
  | some nd =>
      cases hf : nd.find fun _ _ => named name with
      | none => rw [unlink_absent hd hf] at h; cases h
      | some x =>
          obtain ⟨b, j⟩ := x
          obtain ⟨d, hs, hn⟩ := find_some hf
          obtain ⟨hpos, htext⟩ := named_iff.mp hn
          rw [unlink_found hd hf hs] at h
          cases hr : V.removable d.pair with
          | false => rw [hr] at h; cases h
          | true =>
              rw [hr] at h
              refine ⟨nd, b, j, d, rfl, ⟨hs, hpos⟩, htext, ?_, hr, (Option.some.inj h).symm⟩
              rw [lookup_of_dir hd, hf, Option.bind_some, hs]
              rfl

/-- `write` changes the view by setting one block of a file. -/
theorem write_some {buffer : List UInt8} {b : Fin 14} {size : Int32}
    (h : (V.write i buffer b size).2 = some V') :
    ∃ nd, V i = some nd ∧ nd.type ≠ fsDirectory
      ∧ V' = Function.update V i (some { nd.setBlock b buffer with size := size }) := by
  rw [View.write] at h
  split at h
  · cases h
  · rename_i nd hv
    split at h
    · cases h
    · rename_i ht
      exact ⟨nd, hv, ht, (Option.some.inj h).symm⟩

theorem sound_effect (h : Sound V) {op : Op} {size : Int32} (hop : op.InRange)
    (he : op.effect V size = some V') : Sound V' := by
  cases op with
  | create p type name =>
      obtain ⟨nd, k, b, j, -, hd, hk, -, rfl⟩ := create_some he
      have hinum := inum_nextId hk
      refine (h.update hinum ?_).update hop ((h.node (dir_eq_some.mp hd).1).setSlot (Or.inr hinum))
      split
      · exact soundNode_newDir hinum hop
      · exact soundNode_newFile
  | unlink p name =>
      obtain ⟨nd, b, j, d, hd, -, -, -, -, rfl⟩ := unlink_some he
      exact h.remove.update hop ((h.node (dir_eq_some.mp hd).1).setSlot (Or.inl rfl))
  | write i buffer b =>
      obtain ⟨nd, hv, ht, rfl⟩ := write_some he
      have hn := h.node hv
      exact h.update hop ⟨hn.type, fun htd => absurd htd ht, fun htd => absurd htd ht⟩
  | read i buffer b => cases he
  | lookup p name => cases he
  | stat i m => cases he
  | fsync => cases he

/-! ## The invariant of every run -/

/-- Everything is in the log, and what the log shows is sound. -/
structure Inv (s : State) : Prop where
  log : LogInv s
  sound : Sound s.view

/-- One call: what it does to the view, and that the log only grows. -/
structure Effect (s : State) (op : Op) (s' : State) : Prop where
  inv : Inv s'
  view : ∃ size, s'.view = (op.effect s.view size).getD s.view
  grows : op ≠ .fsync → Grows s s'

theorem effect_of_leads (h : Inv s) {op : Op} {size : Int32} (hop : op.InRange)
    (hl : Leads s s' (op.effect s.view size)) : Effect s op s' := by
  obtain ⟨hinv, hg, hv⟩ := hl.inv h.log
  refine ⟨⟨hinv, ?_⟩, ⟨size, hv⟩, fun _ => hg⟩
  rw [hv]
  cases he : op.effect s.view size with
  | none => exact h.sound
  | some V' => exact sound_effect h.sound hop he

theorem exec_effect (h : Inv s) (he : env.dest = .caller) {op : Op} (hop : op.InRange)
    (hlen : (exec env s op).2.disk.file.len < 2 ^ 31) : Effect s op (exec env s op).2 := by
  cases op with
  | create p type name =>
      rw [exec] at hlen ⊢
      obtain ⟨s', heq, hl⟩ := fsCreate_spec h.log he hop fun _ => hlen
      rw [heq]
      exact @effect_of_leads _ _ h (.create p type name) 0 hop hl
  | unlink p name =>
      rw [exec] at hlen ⊢
      obtain ⟨s', heq, hl⟩ := fsUnlink_spec h.log he h.sound hop fun _ => hlen
      rw [heq]
      exact @effect_of_leads _ _ h (.unlink p name) 0 hop hl
  | write i buffer b =>
      rw [exec] at hlen ⊢
      obtain ⟨size, s', heq, hl⟩ := fsWrite_spec h.log he hop (toInt_block b) buffer.len fun _ => hlen
      rw [heq]
      exact @effect_of_leads _ _ h (.write i buffer b) size hop hl
  | read i buffer b =>
      -- from here on nothing is appended
      have hm := @fsRead_moved env s i (Int32.ofNat b) buffer.bytes h.log.done
      dsimp only [exec]
      generalize fsRead env i buffer.bytes (Int32.ofNat b) s = c at hm ⊢
      exact @effect_of_leads _ _ h (.read i buffer b) 0 hop hm
  | lookup p name =>
      obtain ⟨q, hq⟩ := @fsLookup_spec env s p name h.log he hop
      rw [exec, hq]
      exact @effect_of_leads _ _ h (.lookup p name) 0 hop ⟨q, rfl⟩
  | stat i m =>
      obtain ⟨q, hq⟩ := @fsStat_spec env s i h.log he hop m
      rw [exec, hq]
      exact @effect_of_leads _ _ h (.stat i m) 0 hop ⟨q, rfl⟩
  | fsync =>
      obtain ⟨hinv, hv⟩ := synced_spec h.log
      rw [exec, fsFsync_eq h.log.done]
      exact ⟨⟨hinv, by rw [hv]; exact h.sound⟩, ⟨0, hv⟩, fun hne => absurd rfl hne⟩

theorem step_effect {ok : State → Op → Prop} (h : Inv s) (hst : Step ok s s') :
    ∃ op, op.InRange ∧ ok s op ∧ Effect s op s' := by
  cases hst with
  | call he hop hok hlen => exact ⟨_, hop, hok, exec_effect h he hop hlen⟩

theorem inv_init (he : env.dest = .caller) (hs : fsInit env none true [] = some s)
    (hlen : s.disk.file.len < 2 ^ 31) : Inv s := by
  obtain ⟨hinv, hv⟩ := fsInit_fresh he hs hlen
  refine ⟨hinv, ?_⟩
  rw [hv]
  have hempty : Sound (fun _ => none : View) := ⟨fun h => (by cases h), fun h => (by cases h)⟩
  exact hempty.update (by decide) (soundNode_newDir (by decide) (by decide))

theorem inv_reachable {ok : State → Op → Prop} (h : Reachable ok s) : Inv s := by
  induction h with
  | init he hs hlen => exact inv_init he hs hlen
  | tail _ hst ih =>
      obtain ⟨op, -, -, heff⟩ := step_effect ih hst
      exact heff.inv

/-- Reading the first block of a directory. -/
theorem readDirList_first (hinv : Inv s) {n : INode} (hn : s.inode i = some n)
    (ht : n.type = fsDirectory) (list : FsDirList) (x : Nat) :
    ∃ x', readDirList (n.dataPtrs 0) list (s.seek x) = ((s.node n).dirList 0, s.seek x') := by
  have hptr : n.dataPtrs 0 ≠ -1 := fun hc =>
    (hinv.sound.node (view_some hn)).first ht (node_blocks_none hc)
  obtain ⟨x', hread⟩ := @readDirList_spec (s.seek x) (n.dataPtrs 0) hinv.log.done
    ((seek_stored x).mpr (hinv.log.blocks i n hn 0 hptr)) list
  refine ⟨x', ?_⟩
  rw [hread, Node.dirList, node_blocks hptr]
  rfl

end Cs537.Fs
