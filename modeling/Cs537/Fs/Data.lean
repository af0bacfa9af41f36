import Cs537.Fs.Growth

/-!
# File contents

A written block of a file is what was last written to it, whatever else the clients
do: other writes append other blocks, and the calls that change directories insert
inodes under other numbers. Only a write to the same block and an unlink that removes
the file can end that. This needs nothing about the directory tree, so it holds in
runs that unlink `.` and `..` too.
-/

namespace Cs537.Fs

open Lib

variable {env : Env} {s s' s'' : State} {i k p : Int32} {name : CStr} {V V' : View} {nd : Node}

/-! ## Reading back what was written -/

/-- Everything but a write to `(i, b)` and an unlink of an entry that names `i`. -/
def Spares (i : Int32) (b : Fin 14) (s : State) : Op → Prop
  | .write i' _ b' => ¬(i' = i ∧ b' = b)
  | .unlink p name => s.view.lookup p name ≠ some i
  | _ => True

theorem block_update_of_ne {o : Option Node} {b : Fin 14} (h : i ≠ k) :
    View.block (Function.update V k o) i b = V.block i b := by
  rw [View.block, View.block, Function.update_of_ne h]

theorem block_some {bs : List UInt8} {b : Fin 14} :
    V.block i b = some bs ↔ ∃ nd, V i = some nd ∧ nd.type = fsRegularFile ∧ nd.blocks b = some bs := by
  rw [View.block]
  cases V i with
  | none =>
      constructor
      · intro h
        cases h
      · intro h
        obtain ⟨_, hnd, _⟩ := h
        cases hnd
  | some nd =>
      show (if nd.type = fsRegularFile then nd.blocks b else none) = some bs ↔ _
      constructor
      · intro h
        split at h
        · rename_i ht
          exact ⟨nd, rfl, ht, h⟩
        · cases h
      · rintro ⟨nd', hnd, ht, hb⟩
        cases hnd
        rw [if_pos ht, hb]

/-- A directory is not a file. -/
theorem ne_of_dir_block {bs : List UInt8} {b : Fin 14} (hd : V.dir p = some nd)
    (hb : V.block i b = some bs) : i ≠ p := by
  rintro rfl
  obtain ⟨nd', hv, ht, -⟩ := block_some.mp hb
  obtain ⟨hv', htd⟩ := dir_eq_some.mp hd
  rw [hv] at hv'
  cases hv'
  rw [htd] at ht
  exact absurd ht (by decide)

/-- A write to another block of any file keeps `(i, b)`. -/
theorem block_write {i' : Int32} {b b' : Fin 14} {bs buffer : List UInt8} {size : Int32}
    (hb : V.block i b = some bs) (hne : ¬(i' = i ∧ b' = b)) (hv : V i' = some nd) :
    View.block (Function.update V i' (some { nd.setBlock b' buffer with size := size })) i b
      = some bs := by
  by_cases hi : i = i'
  · subst hi
    obtain ⟨nd', hv', ht, hblk⟩ := block_some.mp hb
    rw [hv] at hv'
    cases hv'
    refine block_some.mpr ⟨_, Function.update_self .., ht, ?_⟩
    show (nd.setBlock b' buffer).blocks b = some bs
    rw [setBlock_blocks, if_neg fun hbb => hne ⟨rfl, hbb.symm⟩, hblk]
  · rw [block_update_of_ne hi, hb]

theorem effect_block {op : Op} {size : Int32} {b : Fin 14} {bs : List UInt8}
    (hok : Spares i b s op) (hb : s.view.block i b = some bs)
    (he : op.effect s.view size = some V') : V'.block i b = some bs := by
  cases op with
  | create p type name =>
      obtain ⟨nd, k, b', j, -, hd, hk, -, rfl⟩ := create_some he
      obtain ⟨n, -, -, hfree, -⟩ := nextId_some hk
      -- a node is made at a number that was free
      have hik : i ≠ k := by
        rintro rfl
        obtain ⟨nd', hv, -⟩ := block_some.mp hb
        rw [hfree] at hv
        cases hv
      rw [View.link, block_update_of_ne (ne_of_dir_block hd hb), block_update_of_ne hik, hb]
  | unlink p name =>
      obtain ⟨nd, b', j, d, hd, -, -, hl, -, rfl⟩ := unlink_some he
      -- `i` is not the victim
      have hik : i ≠ d.pair := fun hc => hok (by rw [hl, hc])
      rw [block_update_of_ne (ne_of_dir_block hd hb), block_update_of_ne hik, hb]
  | write i' buffer b' =>
      obtain ⟨nd, hv, -, rfl⟩ := write_some he
      exact block_write hb hok hv
  | read i buffer b => cases he
  | lookup p name => cases he
  | stat i m => cases he
  | fsync => cases he

/-- A written block stays as long as the calls spare it. -/
theorem run_block {b : Fin 14} {bs : List UInt8} (h : Inv s) (hb : s.view.block i b = some bs)
    (hrun : Run (Spares i b) s s') : Inv s' ∧ s'.view.block i b = some bs := by
  induction hrun with
  | refl => exact ⟨h, hb⟩
  | @tail s1 s2 _ hst ih =>
      obtain ⟨hinv, hb1⟩ := ih
      obtain ⟨op, -, hok, heff⟩ := step_effect hinv hst
      obtain ⟨size, hv⟩ := heff.view
      refine ⟨heff.inv, ?_⟩
      rw [hv]
      cases he : op.effect s1.view size with
      | none => exact hb1
      | some V' => exact effect_block hok hb1 he

/-! ## `fs_write` and everything else -/

/-- `i` is a regular file. -/
def State.IsFile (s : State) (i : Int32) : Prop :=
  ∃ n, s.inode i = some n ∧ n.type = fsRegularFile

theorem isFile_of_view {nd : Node} (hv : s.view i = some nd) (ht : nd.type = fsRegularFile) : s.IsFile i := by
  obtain ⟨n, hn, rfl⟩ := Option.map_eq_some_iff.mp hv
  exact ⟨n, hn, ht⟩

/-- Block `b` of the regular file `i` was written. -/
def State.Written (s : State) (i : Int32) (b : Fin 14) : Prop :=
  ∃ n, s.inode i = some n ∧ n.type = fsRegularFile ∧ n.dataPtrs b ≠ -1

theorem State.Written.block {b : Fin 14} (h : s.Written i b) : ∃ bs, s.view.block i b = some bs := by
  obtain ⟨n, hn, ht, hb⟩ := h
  exact ⟨_, block_some.mpr ⟨s.node n, view_some hn, ht, node_blocks hb⟩⟩

theorem lookup_congr (h : V'.dir p = V.dir p) : V'.lookup p name = V.lookup p name := by
  rw [View.lookup, View.lookup, h]

theorem type_eq_view : (s.inode i).map INode.type = (s.view i).map Node.type := by
  rw [State.view, Option.map_map]
  rfl

/--
**Read your writes, with frame.** In every reachable state `fs_write` to a regular
file returns 0, and `fs_read` of that block returns the buffer from then on, through
any calls but a write to the same block and an unlink of an entry for the file. The
write itself changes no lookup, no type, and no other written block.
-/
theorem read_your_writes {s : State} (hr : Reachable (fun _ _ => True) s) {i : Int32}
    (hf : s.IsFile i) {env : Env} (he : env.dest = .caller) (buffer : Buffer) (b : Fin 14)
    (hlen : (fsWrite env i buffer.bytes (Int32.ofNat b) s).2.disk.file.len < 2 ^ 31) :
    ∃ s₁, fsWrite env i buffer.bytes (Int32.ofNat b) s = (0, s₁)
      ∧ (∀ s₂, Run (Spares i b) s₁ s₂ → ∀ env' : Env, env'.dest = .caller → ∀ old : Buffer,
          ∃ s₃, fsRead env' i old.bytes (Int32.ofNat b) s₂ = (0, buffer.bytes, s₃))
      ∧ (∀ env' : Env, env'.dest = .caller → ∀ p, Inum p → ∀ name,
          (fsLookup env' p name s₁).1 = (fsLookup env' p name s).1)
      ∧ (∀ j, (s₁.inode j).map INode.type = (s.inode j).map INode.type)
      ∧ (∀ j b', s.Written j b' → ¬(i = j ∧ b = b') → ∀ env' : Env, env'.dest = .caller →
          ∀ old : Buffer, ∃ bs s₃ s₄, fsRead env' j old.bytes (Int32.ofNat b') s = (0, bs, s₃)
            ∧ fsRead env' j old.bytes (Int32.ofNat b') s₁ = (0, bs, s₄)) := by
  have hinv := inv_reachable hr
  obtain ⟨n, hn, ht⟩ := hf
  have hi : Inum i := (inode_eq_some hn).1
  have htd : n.type ≠ fsDirectory := by rw [ht]; decide
  have hvi : s.view i = some (s.node n) := view_some hn
  obtain ⟨size, s₁, heq, hl⟩ := fsWrite_spec hinv.log he hi (toInt_block b) buffer.len fun _ => hlen
  have hw : s.view.write i buffer.bytes b size = (0, some (Function.update s.view i
      (some { (s.node n).setBlock b buffer.bytes with size := size }))) := by
    rw [View.write, hvi]
    exact if_neg htd
  rw [hw] at heq hl
  have hinv1 : Inv s₁ :=
    (@effect_of_leads s s₁ hinv (.write i buffer b) size hi (by rw [Op.effect, hw]; exact hl)).inv
  obtain ⟨h1, -, hv1⟩ := hl
  refine ⟨s₁, heq, ?_, ?_, ?_, ?_⟩
  · -- the block is there now, and the run spares it
    intro s₂ hrun env' he' old
    have hb : s₁.view.block i b = some buffer.bytes := by
      rw [hv1]
      refine block_some.mpr ⟨_, Function.update_self .., ht, ?_⟩
      show ((s.node n).setBlock b buffer.bytes).blocks b = some buffer.bytes
      rw [setBlock_blocks, if_pos rfl]
    obtain ⟨hinv2, hb2⟩ := run_block hinv1 hb hrun
    obtain ⟨q, hq⟩ := fsRead_spec hinv2.log he' (toInt_block b) old.len hb2
    exact ⟨_, hq⟩
  · intro env' he' p hp name
    obtain ⟨q, hq⟩ := @fsLookup_spec env' s p name hinv.log he' hp
    obtain ⟨q1, hq1⟩ := @fsLookup_spec env' s₁ p name h1 he' hp
    -- a file that was written is no directory, so the directories are the same
    have hdir : s₁.view.dir p = s.view.dir p := by
      rw [hv1]
      exact dir_update_file hvi htd htd
    rw [hq, hq1, lookup_congr hdir]
  · intro j
    rw [type_eq_view, type_eq_view, hv1]
    by_cases hj : j = i
    · subst hj
      rw [Function.update_self, hvi]
      rfl
    · rw [Function.update_of_ne hj]
  · intro j b' hwr hne env' he' old
    obtain ⟨bs, hbs⟩ := hwr.block
    have hbs1 : s₁.view.block j b' = some bs := by
      rw [hv1]
      exact block_write hbs hne hvi
    obtain ⟨q, hq⟩ := fsRead_spec hinv.log he' (toInt_block b') old.len hbs
    obtain ⟨q1, hq1⟩ := fsRead_spec h1 he' (toInt_block b') old.len hbs1
    exact ⟨bs, _, _, hq, hq1⟩

/-- The file `a` of a new image, with its first block written and read back. -/
theorem read_your_writes_sample : ∃ s s₁ s₂ : State, s.IsFile 1
    ∧ fsWrite sampleEnv 1 (List.replicate 4096 7) 0 s = (0, s₁)
    ∧ fsRead sampleEnv 1 (List.replicate 4096 0) 0 s₁ = (0, List.replicate 4096 7, s₂) := by
  obtain ⟨s, e, hr, he, he', hl, hv⟩ := @reachable_file (fun _ _ => True) (fun _ => trivial)
  let buffer : Buffer := ⟨List.replicate 4096 7, List.length_replicate⟩
  obtain ⟨e1, -, hle, hl1⟩ := @fsWrite_rises sampleEnv s 1 (Int32.ofNat (0 : Fin 14)) buffer.bytes
    buffer.len e (by omega) (by omega) hl
  have hlen := hl1.len
  have hf : s.IsFile 1 := by
    cases hn : s.inode 1 with
    | none => rw [view_none hn] at hv; cases hv
    | some n =>
        rw [view_some hn] at hv
        exact ⟨n, hn, congrArg Node.type (Option.some.inj hv)⟩
  obtain ⟨s₁, hw, hread, -⟩ := read_your_writes hr hf (rfl : sampleEnv.dest = .caller) buffer 0
    (by omega)
  obtain ⟨s₂, h₂⟩ := hread s₁ Run.refl sampleEnv rfl ⟨List.replicate 4096 0, List.length_replicate⟩
  exact ⟨s, s₁, s₂, hf, hw, h₂⟩

end Cs537.Fs
