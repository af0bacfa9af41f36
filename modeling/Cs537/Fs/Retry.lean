import Cs537.Fs.Data
import Cs537.Fs.Dots

/-!
# Calls made more than once

A client resends a request until it is answered, so the server may run one call
several times. For the calls that change something this does no harm: the second run
finds what the first one did. A create finds its name, an unlink does not find it any
more, a write writes the same block again, and a call that failed fails again because
it left no trace.

That an unlink does not find its name a second time rests on the names in a directory
being different. They are so in every run, also in those that remove the dots.
-/

namespace Cs537.Fs

open Lib

variable {env : Env} {s s' : State} {i p c : Int32} {name : CStr} {V V' V'' : View} {nd : Node} {op : Op}

/-! ## Names are different in every run -/

/-- No directory has a name twice. -/
def NamesOnce (V : View) : Prop := ∀ {p nd}, V.dir p = some nd → nd.Distinct

theorem namesOnce_effect (h : NamesOnce V) {size : Int32} (he : op.effect V size = some V') :
    NamesOnce V' := by
  intro q n hn
  cases op with
  | create p type name =>
      obtain ⟨nd, k, b, j, hl, hd, -, -, rfl⟩ := create_some he
      rcases (dir_link hd).mp hn with ⟨rfl, rfl⟩ | ⟨-, rfl, hc, ht⟩ | ⟨-, -, hn⟩
      · refine (h hd).setSlot fun b j e hu => ?_
        rw [text_strncpy]
        exact (lookup_none hd).mp hl b j e hu
      · cases hc
        rw [newNode_dir ht]
        exact distinct_newDir
      · exact h hn
  | unlink p name =>
      obtain ⟨nd, b, j, d, hd, -, -, -, -, rfl⟩ := unlink_some he
      have ht : (nd.setSlot b j unused).type = fsDirectory := (dir_eq_some.mp hd).2
      rcases (dir_update_two ht).mp hn with ⟨rfl, rfl⟩ | ⟨-, -, hc, -⟩ | ⟨-, -, hn⟩
      · exact (h hd).clear
      · cases hc
      · exact h hn
  | write i buffer b =>
      obtain ⟨nd, hv, ht, rfl⟩ := write_some he
      have hdir : View.dir (Function.update V i (some { nd.setBlock b buffer.bytes with size := size })) q
          = V.dir q := dir_update_file hv ht ht
      rw [hdir] at hn
      exact h hn
  | read i buffer b => cases he
  | lookup p name => cases he
  | stat i m => cases he
  | fsync => cases he

theorem namesOnce_step {ok : State → Op → Prop} (hinv : Inv s) (h : NamesOnce s.view)
    (hst : Step ok s s') : NamesOnce s'.view := by
  obtain ⟨op, -, -, heff⟩ := step_effect hinv hst
  obtain ⟨size, hv⟩ := heff.view
  rw [hv]
  cases he : op.effect s.view size with
  | none => exact h
  | some V' => exact namesOnce_effect h he

theorem namesOnce_reachable {ok : State → Op → Prop} (hr : Reachable ok s) : NamesOnce s.view := by
  induction hr with
  | init he hs hlen =>
      intro q n hn
      rw [(fsInit_fresh he hs hlen).2] at hn
      by_cases hq : q = 0
      · subst hq
        rw [dir_update_self rfl] at hn
        cases hn
        exact distinct_newDir
      · rw [dir_update_of_ne hq] at hn
        cases hn
  | tail hr' hst ih => exact namesOnce_step (inv_reachable hr') ih hst

/-! ## The second run of a call -/

/-- The calls that change something. -/
def Op.Mutates : Op → Prop
  | .create .. | .unlink .. | .write .. => True
  | _ => False

/-- What such a call returns. -/
def Op.code (V : View) : Op → Int32
  | .create p type name => (V.create p type name).1
  | .unlink p name => (V.unlink p name).1
  | .write i buffer b => (V.write i buffer.bytes b 0).1
  | _ => 0

/-- The views show the same directories, the same types and the same blocks; sizes may differ. -/
structure View.Alike (V V' : View) : Prop where
  dir : ∀ p, V'.dir p = V.dir p
  type : ∀ i, (V' i).map Node.type = (V i).map Node.type
  block : ∀ i b, V'.block i b = V.block i b

theorem View.Alike.refl (V : View) : V.Alike V := ⟨fun _ => rfl, fun _ => rfl, fun _ _ => rfl⟩

theorem View.Alike.trans (h : V.Alike V') (h' : V'.Alike V'') : V.Alike V'' :=
  ⟨fun p => (h'.dir p).trans (h.dir p), fun i => (h'.type i).trans (h.type i),
    fun i b => (h'.block i b).trans (h.block i b)⟩

/-- Running the call would return `c` and do nothing that shows. -/
def Op.Settled (c : Int32) (V : View) : Op → Prop
  | .create p type name => V.create p type name = (c, none)
  | .unlink p name => V.unlink p name = (c, none)
  | .write i buffer b => (∀ size, V.write i buffer.bytes b size = (c, none))
      ∨ c = 0 ∧ ∃ nd, V i = some nd ∧ nd.type ≠ fsDirectory ∧ nd.blocks b = some buffer.bytes
  | _ => False

theorem write_code {buffer : List UInt8} {b : Fin 14} {size size' : Int32} :
    (V.write i buffer b size).1 = (V.write i buffer b size').1 := by
  rw [View.write, View.write]
  cases V i with
  | none => rfl
  | some nd =>
      dsimp only
      split <;> rfl

theorem write_fails {buffer : List UInt8} {b : Fin 14} {size size' : Int32}
    (h : (V.write i buffer b size).2 = none) : (V.write i buffer b size').2 = none := by
  cases he : (V.write i buffer b size').2 with
  | none => rfl
  | some V' =>
      obtain ⟨nd, hv, ht, -⟩ := write_some he
      rw [View.write, hv] at h
      dsimp only at h
      rw [if_neg ht] at h
      cases h

/-- What was just written is written. -/
theorem blocks_written {buffer : List UInt8} {b : Fin 14} {size : Int32} :
    ({ nd.setBlock b buffer with size := size } : Node).blocks b = some buffer := by
  show (nd.setBlock b buffer).blocks b = some buffer
  rw [setBlock_blocks, if_pos rfl]

/-- After the first run the call is settled. -/
theorem settled_first (hn : NamesOnce V) (hm : op.Mutates) (size : Int32) :
    op.Settled (op.code V) ((op.effect V size).getD V) := by
  cases op with
  | create p type name =>
      cases he : (V.create p type name).2 with
      | none =>
          rw [Op.effect, he]
          exact Prod.ext rfl he
      | some V' =>
          obtain ⟨nd, k, b, j, hl, hd, hk, hf, rfl⟩ := create_some he
          rw [Op.effect, he, Op.code, create_new hl hd hk hf]
          refine create_existing ?_
          -- the new entry is found
          rw [Option.getD_some, Option.isSome_iff_ne_none]
          intro hnone
          have ht : (nd.setSlot b j ⟨strncpy name, k⟩).type = fsDirectory := (dir_eq_some.mp hd).2
          exact (lookup_none (dir_update_self ht)).mp hnone b j _
            (used_setSlot.mpr (Or.inl ⟨rfl, rfl, rfl, (inum_nextId hk).not_neg⟩)) (text_strncpy name k)
  | unlink p name =>
      cases he : (V.unlink p name).2 with
      | none =>
          rw [Op.effect, he]
          exact Prod.ext rfl he
      | some V' =>
          obtain ⟨nd, b, j, d, hd, hu, htext, -, hrem, rfl⟩ := unlink_some he
          have ht : (nd.setSlot b j unused).type = fsDirectory := (dir_eq_some.mp hd).2
          rw [Op.effect, he, Op.code, unlink_used hd (hn hd) hu htext, if_pos hrem]
          refine unlink_absent (dir_update_self ht) (find_none.mpr fun b' j' e hslot => ?_)
          -- no other entry had this name
          rw [← Bool.not_eq_true, named_iff]
          rintro ⟨hpos, he⟩
          obtain ⟨hne, hue⟩ := used_clear.mp ⟨hslot, hpos⟩
          exact hne (hn hd _ _ _ _ _ _ hue hu (he.trans htext.symm))
  | write i buffer b =>
      cases he : (V.write i buffer.bytes b size).2 with
      | none =>
          rw [Op.effect, he]
          exact Or.inl fun size' => Prod.ext write_code (write_fails he)
      | some V' =>
          obtain ⟨nd, hv, ht, rfl⟩ := write_some he
          rw [Op.effect, he]
          refine Or.inr ⟨?_, _, Function.update_self .., ht, blocks_written⟩
          rw [Op.code, View.write, hv]
          exact congrArg Prod.fst (if_neg ht)
  | read i buffer b => exact hm.elim
  | lookup p name => exact hm.elim
  | stat i m => exact hm.elim
  | fsync => exact hm.elim

/-- A further run returns the same, shows nothing new and leaves the call settled. -/
theorem settled_again (h : op.Settled c V) (size : Int32) :
    op.code V = c ∧ V.Alike ((op.effect V size).getD V) ∧ op.Settled c ((op.effect V size).getD V) := by
  cases op with
  | create p type name =>
      have hc : V.create p type name = (c, none) := h
      rw [Op.effect, Op.code, hc]
      exact ⟨rfl, View.Alike.refl V, h⟩
  | unlink p name =>
      have hc : V.unlink p name = (c, none) := h
      rw [Op.effect, Op.code, hc]
      exact ⟨rfl, View.Alike.refl V, h⟩
  | write i buffer b =>
      rcases h with hnone | ⟨rfl, nd, hv, ht, hb⟩
      · rw [Op.effect, Op.code, hnone, hnone]
        exact ⟨rfl, View.Alike.refl V, Or.inl hnone⟩
      · have hw : ∀ size, V.write i buffer.bytes b size = (0, some (Function.update V i
            (some { nd.setBlock b buffer.bytes with size := size }))) := by
          intro size
          rw [View.write, hv]
          exact if_neg ht
        rw [Op.effect, Op.code, hw, hw, Option.getD_some]
        refine ⟨rfl, ⟨fun p => dir_update_file hv ht ht, fun k => ?_, fun k b' => ?_⟩,
          Or.inr ⟨rfl, _, Function.update_self .., ht, blocks_written⟩⟩
        · by_cases hk : k = i
          · rw [hk, Function.update_self, hv]
            rfl
          · rw [Function.update_of_ne hk]
        · by_cases hk : k = i
          · subst hk
            rw [View.block, View.block, Function.update_self, hv]
            show (if nd.type = fsRegularFile then (nd.setBlock b buffer.bytes).blocks b' else none)
              = if nd.type = fsRegularFile then nd.blocks b' else none
            rw [setBlock_blocks]
            split
            · split
              · rename_i hbb
                rw [hbb, hb]
              · rfl
            · rfl
          · exact block_update_of_ne hk
  | read i buffer b => exact h.elim
  | lookup p name => exact h.elim
  | stat i m => exact h.elim
  | fsync => exact h.elim

/-! ## Runs of one call -/

/-- The call `op`, once in each environment, with what it returns and the state after it. -/
def attempts (op : Op) : List Env → State → List (Int32 × State)
  | [], _ => []
  | env :: envs, s => exec env s op :: attempts op envs (exec env s op).2

/-- Inodes in use, types, lookups and written blocks are the same. -/
structure State.Alike (s s' : State) : Prop where
  type : ∀ i, (s'.inode i).map INode.type = (s.inode i).map INode.type
  lookup : ∀ e e' : Env, e.dest = .caller → e'.dest = .caller → ∀ p, Inum p → ∀ name,
    (fsLookup e p name s').1 = (fsLookup e' p name s).1
  written : ∀ i b, s'.Written i b ↔ s.Written i b
  read : ∀ e e' : Env, e.dest = .caller → e'.dest = .caller → ∀ i b, s.Written i b → ∀ old : Buffer,
    (fsRead e i old.bytes (Int32.ofNat b) s').1 = (fsRead e' i old.bytes (Int32.ofNat b) s).1
      ∧ (fsRead e i old.bytes (Int32.ofNat b) s').2.1 = (fsRead e' i old.bytes (Int32.ofNat b) s).2.1

theorem written_iff {b : Fin 14} : s.Written i b ↔ s.view.block i b ≠ none := by
  constructor
  · intro h
    obtain ⟨bs, hbs⟩ := h.block
    rw [hbs]
    exact Option.some_ne_none _
  · intro h
    obtain ⟨bs, hbs⟩ := Option.ne_none_iff_exists'.mp h
    obtain ⟨nd, hv, ht, hb⟩ := block_some.mp hbs
    obtain ⟨n, hn, rfl⟩ := Option.map_eq_some_iff.mp hv
    refine ⟨n, hn, ht, fun hc => ?_⟩
    rw [node_blocks_none hc] at hb
    cases hb

/-- What a client can tell apart shows in the view. -/
theorem View.Alike.state (h : s.view.Alike s'.view) (hs : LogInv s) (hs' : LogInv s') : s.Alike s' where
  type i := by
    rw [type_eq_view, type_eq_view]
    exact h.type i
  lookup e e' he he' p hp name := by
    obtain ⟨q, hq⟩ := @fsLookup_spec e s' p name hs' he hp
    obtain ⟨q', hq'⟩ := @fsLookup_spec e' s p name hs he' hp
    rw [hq, hq', lookup_congr (h.dir p)]
  written i b := by
    rw [written_iff, written_iff, h.block i b]
  read e e' he he' i b hw old := by
    obtain ⟨bs, hbs⟩ := hw.block
    obtain ⟨q', hq'⟩ := fsRead_spec hs he' (toInt_block b) old.len hbs
    rw [← h.block i b] at hbs
    obtain ⟨q, hq⟩ := fsRead_spec hs' he (toInt_block b) old.len hbs
    rw [hq, hq']
    exact ⟨rfl, rfl⟩

theorem exec_code (h : Inv s) (he : env.dest = .caller) (hop : op.InRange) (hm : op.Mutates)
    (hlen : (exec env s op).2.disk.file.len < 2 ^ 31) : (exec env s op).1 = op.code s.view := by
  cases op with
  | create p type name =>
      rw [exec] at hlen ⊢
      obtain ⟨s', heq, -⟩ := fsCreate_spec h.log he hop fun _ => hlen
      rw [heq]
      rfl
  | unlink p name =>
      rw [exec] at hlen ⊢
      obtain ⟨s', heq, -⟩ := fsUnlink_spec h.log he h.sound hop fun _ => hlen
      rw [heq]
      rfl
  | write i buffer b =>
      rw [exec] at hlen ⊢
      obtain ⟨size, s', heq, -⟩ := fsWrite_spec h.log he hop (toInt_block b) buffer.len fun _ => hlen
      rw [heq]
      exact write_code
  | read i buffer b => exact hm.elim
  | lookup p name => exact hm.elim
  | stat i m => exact hm.elim
  | fsync => exact hm.elim

/-- Once the call is settled, every further run returns the same and shows nothing new. -/
theorem attempts_settled (hop : op.InRange) (hm : op.Mutates) : ∀ (envs : List Env) {s : State},
    Inv s → op.Settled c s.view → (∀ e ∈ envs, e.dest = .caller) →
    (∀ r ∈ attempts op envs s, r.2.disk.file.len < 2 ^ 31) →
    ∀ r ∈ attempts op envs s, r.1 = c ∧ Inv r.2 ∧ s.view.Alike r.2.view := by
  intro envs
  induction envs with
  | nil =>
      intro _ _ _ _ _ r hr
      cases hr
  | cons env envs ih =>
      intro s h hset hdest hlen r hr
      have hfirst := hlen _ (List.mem_cons_self ..)
      have heff := exec_effect h (hdest _ (List.mem_cons_self ..)) hop hfirst
      obtain ⟨size, hv⟩ := heff.view
      obtain ⟨hcode, halike, hset'⟩ := settled_again hset size
      rw [← hv] at halike hset'
      rcases List.mem_cons.mp hr with rfl | hr
      · exact ⟨(exec_code h (hdest _ (List.mem_cons_self ..)) hop hm hfirst).trans hcode, heff.inv, halike⟩
      · obtain ⟨hc, hinv, hrest⟩ := ih heff.inv hset'
          (fun e he => hdest e (List.mem_cons_of_mem _ he))
          (fun r hr => hlen r (List.mem_cons_of_mem _ hr)) r hr
        exact ⟨hc, hinv, halike.trans hrest⟩

/--
**Retransmitted requests are harmless.** In every reachable state, make a call that
changes something any number of times in a row, each time in an environment of its own.
Every run returns what the first one returned, and after every run the inodes in use,
their types, the lookups and the written blocks are those after the first one.
-/
theorem retry_harmless {s : State} (hr : Reachable (fun _ _ => True) s) {op : Op} (hop : op.InRange)
    (hm : op.Mutates) (env : Env) (envs : List Env) (hdest : ∀ e ∈ env :: envs, e.dest = .caller)
    (hlen : ∀ r ∈ attempts op (env :: envs) s, r.2.disk.file.len < 2 ^ 31) :
    ∀ r ∈ attempts op (env :: envs) s,
      r.1 = (exec env s op).1 ∧ (exec env s op).2.Alike r.2 := by
  have hinv := inv_reachable hr
  have hfirst := hlen _ (List.mem_cons_self ..)
  have henv := hdest _ (List.mem_cons_self ..)
  have heff := exec_effect hinv henv hop hfirst
  obtain ⟨size, hv⟩ := heff.view
  have hset := settled_first (namesOnce_reachable hr) hm size
  rw [← hv] at hset
  intro r hmem
  rcases List.mem_cons.mp hmem with rfl | hmem
  · exact ⟨rfl, (View.Alike.refl _).state heff.inv.log heff.inv.log⟩
  · obtain ⟨hc, hinv', halike⟩ := attempts_settled hop hm envs heff.inv hset
      (fun e he => hdest e (List.mem_cons_of_mem _ he))
      (fun r hr => hlen r (List.mem_cons_of_mem _ hr)) r hmem
    exact ⟨hc.trans (exec_code hinv henv hop hm hfirst).symm, halike.state heff.inv.log hinv'.log⟩

/-- The file `a` is made twice in a row: both runs return 0. -/
theorem retry_sample : ∃ s : State, Reachable (fun _ _ => True) s
    ∧ ∀ r ∈ attempts (.create 0 1 sampleName) [sampleEnv, sampleEnv] s,
      r.1 = 0 ∧ (exec sampleEnv s (.create 0 1 sampleName)).2.Alike r.2 := by
  obtain ⟨s, e, hr, he, he', hl, hv⟩ := @reachable_start sampleEnv (fun _ _ => True) rfl
  obtain ⟨e1, hle, hle', hl1⟩ := @exec_level sampleEnv s e hl he (by omega) (.create 0 1 sampleName)
  obtain ⟨e2, hle2, hle2', hl2⟩ := @exec_level sampleEnv (exec sampleEnv s (.create 0 1 sampleName)).2
    e1 hl1 (by omega) (by omega) (.create 0 1 sampleName)
  have hlen1 := hl1.len
  have hlen2 := hl2.len
  have hlen : ∀ r ∈ attempts (.create 0 1 sampleName) [sampleEnv, sampleEnv] s,
      r.2.disk.file.len < 2 ^ 31 := by
    intro r hmem
    rw [attempts, attempts, attempts, List.mem_cons, List.mem_singleton] at hmem
    rcases hmem with heq | heq
    · rw [heq]; omega
    · rw [heq]; omega
  obtain ⟨b, j, hcreate⟩ := create_sample hv
  have hcode : (exec sampleEnv s (.create 0 1 sampleName)).1 = 0 := by
    rw [@exec_code sampleEnv s (.create 0 1 sampleName) (inv_reachable hr) rfl (show Inum 0 by decide)
      trivial (by omega), Op.code, hcreate]
  have hdest : ∀ e ∈ [sampleEnv, sampleEnv], e.dest = .caller := by
    intro e he
    rw [List.mem_cons, List.mem_singleton, or_self] at he
    rw [he]
    rfl
  have hall := @retry_harmless s hr (.create 0 1 sampleName) (show Inum 0 by decide) trivial sampleEnv
    [sampleEnv] hdest hlen
  rw [hcode] at hall
  exact ⟨s, hr, hall⟩

end Cs537.Fs
