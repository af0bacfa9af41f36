import Cs537.Fs.Holes

/-!
# When the end of the log wraps

`cp.endPtr` is an `int`, and no call asks whether there is room for what it appends. While
there is, the end moves by the bytes of the call. The call that takes it to 2^31 makes it
negative: from then on `lseek` fails, and `writeToEnd` returns -1 to callers that mostly do not
look.

`Appends` says both at once, for each function. So a call keeps what the log promises exactly
if the end is below 2^31 after it.
-/

namespace Cs537.Fs

open Lib

variable {env : Env} {s s' s'' : State} {i k p : Int32} {name : CStr} {c c' d : Nat}

/-! ## Appends with and without room -/

/-- There are less than `c` bytes left, or the end has wrapped already. -/
structure Lacks (c : Nat) (s : State) : Prop where
  done : s.disk.outcomes = []
  short : s.cp.endPtr.toInt + c < 0 ∨ 2 ^ 31 ≤ s.cp.endPtr.toInt + c

/-- The log grows by `c` bytes if there is room for them, and otherwise its end wraps. -/
structure Appends (c : Nat) (s s' : State) : Prop where
  level : ∀ e : Int, 0 ≤ e → e + c < 2 ^ 31 → Level s e → Level s' (e + c)
  lacks : ∀ d : Nat, c + d < 2 ^ 31 → Lacks (c + d) s → Lacks d s'

theorem Moved.appends (h : s.disk.outcomes = [] → Moved s s') : Appends 0 s s' where
  level e _ _ hl := by
    obtain ⟨q, rfl⟩ := h hl.done
    rw [show e + (0 : Nat) = e by omega]
    exact hl.seek q
  lacks d _ hl := by
    obtain ⟨q, rfl⟩ := h hl.done
    rw [Nat.zero_add] at hl
    exact ⟨hl.done, hl.short⟩

theorem Appends.trans (h1 : Appends c s s') (h2 : Appends c' s' s'') : Appends (c + c') s s'' where
  level e he hfit hl := by
    have hl1 := h1.level e he (by omega) hl
    rw [show e + (c + c' : Nat) = e + c + c' by omega]
    exact h2.level (e + c) (by omega) (by omega) hl1
  lacks d hd hl := by
    rw [Nat.add_assoc] at hl
    exact h2.lacks d (by omega) (h1.lacks (c' + d) (by omega) hl)

/-- After calls that only read. -/
theorem Appends.after (h : s.disk.outcomes = [] → Moved s s') (h2 : Appends c s' s'') : Appends c s s'' := by
  have h1 := (Moved.appends h).trans h2
  rw [Nat.zero_add] at h1
  exact h1

/-- An end that has wrapped lacks any number of bytes. -/
theorem Lacks.of_neg (h : Lacks (c + d) s) (hd : c + d < 2 ^ 31) (hneg : s.cp.endPtr.toInt < 0) :
    Lacks d s := by
  have hs := h.short
  exact ⟨h.done, by omega⟩

/-- The end after `n` bytes, whether there was room for them or not. -/
theorem lacks_add {n : Nat} (hn : n + d < 2 ^ 31) (h : Lacks (n + d) s)
    (hend : s'.cp.endPtr = s.cp.endPtr + Int32.ofNat n) (hdone : s'.disk.outcomes = []) : Lacks d s' := by
  have hs := h.short
  have hlo := s.cp.endPtr.le_toInt
  have hhi := s.cp.endPtr.toInt_lt
  have hof : (Int32.ofNat n).toInt = n := toInt_ofNat_of_range (by omega)
  refine ⟨hdone, ?_⟩
  rw [hend]
  by_cases hfit : s.cp.endPtr.toInt + n < 2 ^ 31
  · rw [toInt_add_of_range (by rw [hof]; omega) (by rw [hof]; exact hfit), hof]
    omega
  · rw [toInt_add_of_wrap (by rw [hof]; omega), hof]
    omega

/-- Before a negative offset nothing is written. -/
theorem writeToEnd_neg (hd : s.disk.outcomes = []) (hneg : s.cp.endPtr.toInt < 0) (bs : List UInt8) :
    writeToEnd bs s = (-1, s) := by
  have hlt : s.cp.endPtr < 0 := Int32.lt_iff_toInt_lt.mpr hneg
  rw [writeToEnd, lseek, next_done hd]
  dsimp only
  rw [if_pos hlt]
  rfl

theorem writeToEnd_appends (bs : List UInt8) : Appends bs.length s (writeToEnd bs s).2 where
  level e he hfit hl := by
    have hend := hl.end_eq
    rw [writeToEnd_eq hl.done (by omega)]
    exact hl.append he hfit
  lacks d hd hl := by
    by_cases hneg : s.cp.endPtr.toInt < 0
    · rw [writeToEnd_neg hl.done hneg]
      exact hl.of_neg hd hneg
    · rw [writeToEnd_eq hl.done (by omega)]
      exact lacks_add hd hl rfl hl.done

/-- An append at an end that has not wrapped, whether there is room for it or not. -/
theorem append_appends (h : LogInv s) (bs : List UInt8) : Appends bs.length s (s.append bs) := by
  have hstart := h.start
  have hw := @writeToEnd_appends s bs
  rw [writeToEnd_eq h.done (by omega)] at hw
  exact hw

theorem putIMap_appends {map : IMap} {ptr : Int32} : Appends 64 s (putIMap map i ptr s).2 := by
  have hw := @writeToEnd_appends (s.repoint i) (IMap.encode ⟨setAt map.ptr (getMapIndexNum i) ptr⟩)
  rw [IMap.length_encode] at hw
  exact ⟨fun e he hfit hl => hw.level e he hfit ⟨hl.done, hl.end_eq, hl.len⟩,
    fun d hd hl => hw.lacks d hd ⟨hl.done, hl.short⟩⟩

theorem insertINode_neg {node : INode} (hd : s.disk.outcomes = []) (hneg : s.cp.endPtr.toInt < 0) :
    insertINode env node i s = (-1, s) := by
  rw [insertINode, writeToEnd_neg hd hneg]
  rfl

theorem insertINode_appends {node : INode} : Appends 128 s (insertINode env node i s).2 where
  level e he hfit hl := hl.insertINode he hfit
  lacks d hd hl := by
    by_cases hneg : s.cp.endPtr.toInt < 0
    · rw [insertINode_neg hl.done hneg]
      exact hl.of_neg hd hneg
    · -- the inode is written, and then its map, at an end that may have wrapped in between
      have hpos : ¬((node.encode.length : Int) < 0) := by omega
      have hw := @writeToEnd_appends s node.encode
      rw [writeToEnd_eq hl.done (by omega), INode.length_encode] at hw
      have h1 := hw.lacks (64 + d) (by omega) (by rw [← Nat.add_assoc]; exact hl)
      obtain ⟨q, hm⟩ := @getIMap_moved env (s.append node.encode) i hl.done env.map
      rcases hq : getIMap env i env.map (s.append node.encode) with ⟨r, map, s₁⟩
      rw [hq] at hm
      obtain rfl : s₁ = (s.append node.encode).seek q := hm
      rw [insertINode, writeToEnd_eq hl.done (by omega)]
      dsimp only
      rw [if_neg hpos, hq]
      dsimp only
      generalize (if r = -1 then (⟨fun _ => -1⟩ : IMap) else map) = map'
      have h2 := (@putIMap_appends ((s.append node.encode).seek q) i map' s.cp.endPtr).lacks d (by omega)
        ⟨h1.done, h1.short⟩
      generalize putIMap map' i s.cp.endPtr ((s.append node.encode).seek q) = x at h2 ⊢
      split
      · exact h2
      · exact h2

theorem createEmptyDirectory_appends : Appends 4224 s (createEmptyDirectory env i p s).2 := by
  have hw := @writeToEnd_appends s (newDirList i p).encode
  rw [createEmptyDirectory]
  generalize writeToEnd (newDirList i p).encode s = x at hw ⊢
  rw [FsDirList.length_encode] at hw
  exact hw.trans insertINode_appends

theorem createChild_appends {type : Int32} :
    Appends (if type = fsDirectory then 4224 else 128) s (if type = fsDirectory then
      createEmptyDirectory env k p s else createEmptyFile env k s).2 := by
  split
  · exact createEmptyDirectory_appends
  · exact insertINode_appends

/-- The end is moved by hand, over whatever was written. -/
theorem appendDirList_appends {node : INode} {list : FsDirList} :
    Appends 4224 s (appendDirList env node p list s).2 where
  level e he hfit hl := by
    have hend := hl.end_eq
    have hl1 := @Level.append s e hl he list.encode (by rw [list.length_encode]; omega)
    rw [list.length_encode] at hl1
    rw [appendDirList_eq hl.done (by omega), show e + (4224 : Nat) = e + (4096 : Nat) + 128 by omega]
    exact hl1.insertINode (by omega) (by omega)
  lacks d hd hl := by
    obtain ⟨q, hq⟩ := lseek_pos hl.done s.cp.endPtr
    have h1 : Lacks (128 + d) ⟨{ s.cp with endPtr := s.cp.endPtr + 4096 },
        Disk.put { s.disk with pos := q } list.encode⟩ :=
      @lacks_add s _ (128 + d) 4096 (by omega) (by rw [← Nat.add_assoc]; exact hl) rfl hl.done
    rw [appendDirList]
    generalize lseek s.cp.endPtr s.disk = x at hq ⊢
    dsimp only
    rw [hq, write_done (by exact hl.done)]
    exact insertINode_appends.lacks d (by omega) h1

/-! ## The calls that append -/

theorem fsWrite_appends (h : LogInv s) (he : env.dest = .caller) {n : INode} (hn : s.inode i = some n)
    (ht : n.type ≠ fsDirectory) {b : Fin 14} {block : Int32} (hb : block.toInt = b) {buffer : List UInt8}
    (hbuf : buffer.length = 4096) : Appends 4224 s (fsWrite env i buffer block s).2 := by
  obtain ⟨size, pos, hsize⟩ : ∃ size pos, env.getINodeSize (n.setPtr b s.cp.endPtr)
      (s.append buffer).disk = (size, pos) := ⟨_, _, rfl⟩
  have ha := append_appends h buffer
  rw [hbuf] at ha
  rw [fsWrite_eq h he hn ht hb buffer hsize]
  exact ha.trans (Appends.after (fun _ => ⟨pos, rfl⟩) insertINode_appends)

/-- A deletion that goes through. -/
theorem deleteINode_appends (h : LogInv s) (he : env.dest = .caller) (hi : Inum i)
    (hrem : s.view.removable i = true) : (deleteINode env i s).1 = 0 ∧
      Appends (if (s.view i).isSome then 64 else 0) s (deleteINode env i s).2 := by
  cases hn : s.inode i with
  | none =>
      obtain ⟨q, hq⟩ := deleteINode_none h he hi hn
      rw [hq, view_none hn]
      exact ⟨rfl, Moved.appends fun _ => ⟨q, rfl⟩⟩
  | some n =>
      obtain ⟨m, q, hq, -⟩ := deleteINode_found h he hn hrem
      have hstart := h.start
      have hput := @putIMap_appends (s.seek q) i m (-1)
      rw [@putIMap_eq (s.seek q) h.done (show 0 ≤ s.cp.endPtr.toInt by omega)] at hput
      rw [hq, view_some hn]
      exact ⟨rfl, Appends.after (fun _ => ⟨q, rfl⟩) hput⟩

theorem fsUnlink_appends (h : LogInv s) (he : env.dest = .caller) (hv : Sound s.view)
    (heff : (s.view.unlink p name).2 ≠ none) :
    Appends (if ((s.view.lookup p name).bind s.view).isSome then 4288 else 4224) s (fsUnlink env p name s).2 := by
  cases hn : s.inode p with
  | none =>
      rw [unlink_of_dir_none (dir_of_none hn)] at heff
      exact absurd rfl heff
  | some n =>
      by_cases ht : n.type = fsDirectory
      · have hdir := dir_of_dir hn ht
        cases hfind : (s.node n).find fun _ _ => named name with
        | none =>
            rw [unlink_absent hdir hfind] at heff
            exact absurd rfl heff
        | some x =>
            obtain ⟨b, j⟩ := x
            obtain ⟨d, hslot, hnamed⟩ := find_some hfind
            have hk : Inum d.pair := inum_of_pair hv hdir hslot (named_iff.mp hnamed).1
            have hlook : s.view.lookup p name = some d.pair := by
              rw [lookup_of_dir hdir, hfind, Option.bind_some, hslot]
              rfl
            have hrem : s.view.removable d.pair = true := by
              by_contra hne
              rw [unlink_found hdir hfind hslot, if_neg hne] at heff
              exact heff rfl
            obtain ⟨q, hdone⟩ := @fsUnlink_found env s p name h he n hn ht b j d hfind hslot
            obtain ⟨hstat, hdel⟩ := @deleteINode_appends env (s.seek q) d.pair (h.seek q) he hk hrem
            rcases hres : deleteINode env d.pair (s.seek q) with ⟨stat, s1⟩
            rw [hres] at hstat hdel
            obtain rfl : stat = 0 := hstat
            rw [hdone 0 s1 hres, if_neg (show ¬(0 : Int32) = -1 by decide), hlook, Option.bind_some]
            have hall := Appends.after (fun _ => ⟨q, rfl⟩) (hdel.trans (@appendDirList_appends env s1 p
              (n.setPtr b s1.cp.endPtr) (((s.node n).dirList b).set j unused)))
            rw [seek_view] at hall
            by_cases hsome : (s.view d.pair).isSome
            · rw [if_pos hsome] at hall ⊢
              exact hall
            · rw [if_neg hsome] at hall ⊢
              exact hall
      · rw [unlink_of_dir_none (dir_of_file hn ht)] at heff
        exact absurd rfl heff

theorem fsCreate_appends {type : Int32} (h : LogInv s) (he : env.dest = .caller) (hp : Inum p)
    (heff : (s.view.create p type name).2 ≠ none) :
    Appends (if type = fsDirectory then 8448 else 4352) s (fsCreate env p type name s).2 := by
  obtain ⟨V', hV⟩ := Option.ne_none_iff_exists'.mp heff
  obtain ⟨nd, k, b, j, hl, hd, hk, hfree, -⟩ := create_some hV
  obtain ⟨hvp, ht⟩ := dir_eq_some.mp hd
  obtain ⟨n, hn, rfl⟩ := Option.map_eq_some_iff.mp hvp
  obtain ⟨q, hq⟩ := @fsCreate_dir env s p name type h he hp n hn ht hl
  rw [hk, Option.getD_some, if_neg (inum_nextId hk).ne_neg_one] at hq
  obtain ⟨q1, hdone⟩ := @createIn_found env s k p name type h n hn b j hfree q
  have hchild := @createChild_appends env (s.seek q1) k p type
  rcases hc : (if type = fsDirectory then createEmptyDirectory env k p (s.seek q1)
    else createEmptyFile env k (s.seek q1)) with ⟨r, s1⟩
  rw [hc] at hchild
  rw [hq, hdone r s1 hc]
  have hw := @writeToEnd_appends s1 (((s.node n).dirList b).set j ⟨strncpy name, k⟩).encode
  rw [FsDirList.length_encode] at hw
  have hall := Appends.after (fun _ => ⟨q1, rfl⟩) (hchild.trans (hw.trans
    (@insertINode_appends env _ p (n.setPtr b s1.cp.endPtr))))
  by_cases htype : type = fsDirectory
  · rw [if_pos htype] at hall ⊢
    exact hall
  · rw [if_neg htype] at hall ⊢
    exact hall

/-! ## Calls -/

/-- How many bytes a call appends: what it changes goes to the end of the log. -/
def Op.appends (V : View) (op : Op) : Nat :=
  if (op.effect V 0).isSome then
    match op with
    | .create _ type _ => if type = fsDirectory then 8448 else 4352
    | .unlink p name => if ((V.lookup p name).bind V).isSome then 4288 else 4224
    | .write _ _ _ => 4224
    | _ => 0
  else 0

theorem Op.appends_le (V : View) (op : Op) : op.appends V ≤ 8448 := by
  unfold Op.appends
  split
  · split
    · split <;> omega
    · split <;> omega
    · omega
    · omega
  · omega

theorem write_size_none {V : View} {buffer : List UInt8} {b : Fin 14} (h : (V.write i buffer b 0).2 = none)
    (size : Int32) : (V.write i buffer b size).2 = none := by
  unfold View.write at h ⊢
  split
  · rfl
  · rename_i nd hv
    rw [hv] at h
    dsimp only at h
    split
    · rfl
    · rename_i ht
      rw [if_neg ht] at h
      cases h

theorem appends_of_leads {op : Op} (hd : op.effect s.view 0 = none) (hm : Moved s s') :
    Appends (op.appends s.view) s s' := by
  have hzero : op.appends s.view = 0 := by
    unfold Op.appends
    rw [hd]
    rfl
  rw [hzero]
  exact Moved.appends fun _ => hm

/-- The end of the log after any call. -/
theorem exec_appends (h : Inv s) (he : env.dest = .caller) {op : Op} (hop : op.InRange) :
    Appends (op.appends s.view) s (exec env s op).2 := by
  cases op with
  | create p type name =>
      rw [exec]
      cases heff : (s.view.create p type name).2 with
      | none =>
          obtain ⟨s', heq, hm⟩ := @fsCreate_spec env s p name type h.log he hop fun hne => absurd heff hne
          rw [heff] at hm
          rw [heq]
          exact @appends_of_leads _ _ (.create p type name) heff hm
      | some V' =>
          have hne : (s.view.create p type name).2 ≠ none := by
            rw [heff]
            exact Option.some_ne_none _
          rw [Op.appends, Op.effect, heff]
          exact fsCreate_appends h.log he hop hne
  | unlink p name =>
      rw [exec]
      cases heff : (s.view.unlink p name).2 with
      | none =>
          obtain ⟨s', heq, hm⟩ := @fsUnlink_spec env s p name h.log he h.sound hop fun hne => absurd heff hne
          rw [heff] at hm
          rw [heq]
          exact @appends_of_leads _ _ (.unlink p name) heff hm
      | some V' =>
          have hne : (s.view.unlink p name).2 ≠ none := by
            rw [heff]
            exact Option.some_ne_none _
          rw [Op.appends, Op.effect, heff]
          exact fsUnlink_appends h.log he h.sound hne
  | write i buffer b =>
      rw [exec]
      cases heff : (s.view.write i buffer.bytes b 0).2 with
      | none =>
          obtain ⟨size, s', heq, hm⟩ := @fsWrite_spec env s i h.log he hop b _ (toInt_block b) _ buffer.len
            fun hne => absurd heff hne
          rw [write_size_none heff] at hm
          rw [heq]
          exact @appends_of_leads _ _ (.write i buffer b) heff hm
      | some V' =>
          obtain ⟨nd, hv, ht, -⟩ := write_some heff
          obtain ⟨n, hn, rfl⟩ := Option.map_eq_some_iff.mp hv
          rw [Op.appends, Op.effect, heff]
          exact fsWrite_appends h.log he hn ht (toInt_block b) buffer.len
  | read i buffer b =>
      have hm := @fsRead_moved env s i (Int32.ofNat b) buffer.bytes h.log.done
      dsimp only [exec]
      generalize fsRead env i buffer.bytes (Int32.ofNat b) s = x at hm ⊢
      exact @appends_of_leads _ _ (.read i buffer b) rfl hm
  | lookup p name =>
      obtain ⟨q, hq⟩ := @fsLookup_spec env s p name h.log he hop
      rw [exec, hq]
      exact @appends_of_leads _ _ (.lookup p name) rfl ⟨q, rfl⟩
  | stat i m =>
      obtain ⟨q, hq⟩ := @fsStat_spec env s i h.log he hop m
      rw [exec, hq]
      exact @appends_of_leads _ _ (.stat i m) rfl ⟨q, rfl⟩
  | fsync =>
      rw [exec, fsFsync_eq h.log.done]
      have hsync : Appends 0 s s.synced := by
        refine ⟨fun e he hfit hl => ?_, fun d hd hl => ?_⟩
        · have hend := hl.end_eq
          have hstart := h.log.start
          rw [show e + (0 : Nat) = e by omega]
          exact hl.synced (by omega)
        · rw [Nat.zero_add] at hl
          exact ⟨rfl, hl.short⟩
      exact hsync

/-! ## Runs of any length -/

/-- There is room for what the call appends. -/
def Room (s : State) (op : Op) : Prop := s.cp.endPtr.toInt + op.appends s.view < 2 ^ 31

/-- Any number of calls, wherever the log ends. -/
inductive Calls (ok : State → Op → Prop) : State → State → Prop where
  | refl {s : State} : Calls ok s s
  | tail {env : Env} {op : Op} {s s' : State} : Calls ok s s' → env.dest = .caller → op.InRange → ok s' op →
      Calls ok s (exec env s' op).2

/-- The states of a server that started with a new image. -/
inductive Logs (ok : State → Op → Prop) : State → Prop where
  | run {env : Env} {s s' : State} : env.dest = .caller → fsInit env none true [] = some s → Calls ok s s' →
      Logs ok s'

/-- The log is as long as its end says. -/
structure Packed (s : State) : Prop where
  inv : Inv s
  level : Level s s.cp.endPtr.toInt

theorem exec_packed (h : Packed s) (he : env.dest = .caller) {op : Op} (hop : op.InRange) (hroom : Room s op) :
    Packed (exec env s op).2 ∧ (exec env s op).2.cp.endPtr.toInt = s.cp.endPtr.toInt + op.appends s.view
      ∧ (exec env s op).2.disk.file.len < 2 ^ 31 := by
  have hstart := h.inv.log.start
  have hl := (exec_appends h.inv he hop).level s.cp.endPtr.toInt (by omega) hroom h.level
  have hlen := hl.len
  have hroom : s.cp.endPtr.toInt + op.appends s.view < 2 ^ 31 := hroom
  refine ⟨⟨(exec_effect h.inv he hop (by omega)).inv, ?_⟩, hl.end_eq, by omega⟩
  rw [hl.end_eq]
  exact hl

/-- Runs with room for every call are among those with a log below 2^31 bytes. -/
theorem calls_packed {ok ok' : State → Op → Prop} (hroom : ∀ t op, ok t op → Room t op)
    (hok : ∀ t op, ok t op → ok' t op) (h : Packed s) (hc : Calls ok s s') : Packed s' ∧ Run ok' s s' := by
  induction hc with
  | refl => exact ⟨h, Run.refl⟩
  | tail _ he hop hadm ih =>
      obtain ⟨hf, hrun⟩ := ih h
      obtain ⟨hf', -, hlen⟩ := exec_packed hf he hop (hroom _ _ hadm)
      exact ⟨hf', hrun.tail (Step.call he hop (hok _ _ hadm) hlen)⟩

theorem logs_packed (hr : Logs Room s) : Packed s := by
  obtain ⟨he, hinit, hc⟩ := hr
  rename_i env s₀
  obtain ⟨s₁, e, hinit₁, -, hle, hl, -⟩ := fsInit_level he
  rw [hinit] at hinit₁
  cases hinit₁
  have hlen := hl.len
  have hf : Packed s₀ := ⟨inv_init he hinit (by omega), by rw [hl.end_eq]; exact hl⟩
  exact (@calls_packed s₀ s Room (fun _ _ => True) (fun _ _ hroom => hroom) (fun _ _ _ => trivial) hf hc).1

theorem Logs.tail {ok : State → Op → Prop} (hr : Logs ok s) (he : env.dest = .caller) {op : Op}
    (hop : op.InRange) (hok : ok s op) : Logs ok (exec env s op).2 := by
  obtain ⟨henv, hinit, hc⟩ := hr
  exact Logs.run henv hinit (hc.tail he hop hok)

theorem Logs.mono {ok ok' : State → Op → Prop} (himp : ∀ t op, ok t op → ok' t op) (hr : Logs ok s) :
    Logs ok' s := by
  obtain ⟨henv, hinit, hc⟩ := hr
  refine Logs.run henv hinit ?_
  induction hc with
  | refl => exact Calls.refl
  | tail _ he hop hok ih => exact (ih hinit).tail he hop (himp _ _ hok)

/-! ## What the log promises -/

/-- A call moves the end of the log up if at all, and what it writes can be read from then on. -/
structure Kept (ok : State → Op → Prop) (env : Env) (s : State) (op : Op) : Prop where
  start : 1028 ≤ s.cp.endPtr.toInt
  grows : s.cp.endPtr.toInt ≤ (exec env s op).2.cp.endPtr.toInt
  back : ∀ i buffer b, op = .write i buffer b → (exec env s op).1 = 0 →
    ∀ s₂, Calls (fun t o => ok t o ∧ Spares i b t o) (exec env s op).2 s₂ →
      ∀ env' : Env, env'.dest = .caller → ∀ old : Buffer,
        ∃ s₃, fsRead env' i old.bytes (Int32.ofNat b) s₂ = (0, buffer.bytes, s₃)

/-- Without room the end is negative after the call. -/
theorem room_of_kept {ok : State → Op → Prop} (h : Packed s) (he : env.dest = .caller) {op : Op}
    (hop : op.InRange) (hk : Kept ok env s op) : Room s op := by
  by_contra hno
  have hno : ¬s.cp.endPtr.toInt + op.appends s.view < 2 ^ 31 := hno
  have hle := op.appends_le s.view
  have hshort := ((exec_appends h.inv he hop).lacks 0 (by omega) ⟨h.level.done, by omega⟩).short
  have hlt := (exec env s op).2.cp.endPtr.toInt_lt
  have hstart := hk.start
  have hgrows := hk.grows
  omega

/-- A write that returns 0 has put the buffer into a block of a file. -/
theorem block_of_write (h : Inv s) (he : env.dest = .caller) (hi : Inum i) {buffer : Buffer} {b : Fin 14}
    (hlen : (fsWrite env i buffer.bytes (Int32.ofNat b) s).2.disk.file.len < 2 ^ 31)
    (hzero : (fsWrite env i buffer.bytes (Int32.ofNat b) s).1 = 0) :
    (fsWrite env i buffer.bytes (Int32.ofNat b) s).2.view.block i b = some buffer.bytes := by
  obtain ⟨size, s', heq, hl⟩ := fsWrite_spec h.log he hi (toInt_block b) buffer.len fun _ => hlen
  rw [heq] at hzero ⊢
  have hv : (s.view.write i buffer.bytes b size).2 ≠ none := by
    intro hnone
    rw [View.write] at hzero hnone
    cases hv : s.view i with
    | none =>
        rw [hv] at hzero
        have hneg : (-1 : Int32) = 0 := hzero
        exact absurd hneg (by decide)
    | some nd =>
        rw [hv] at hzero hnone
        dsimp only at hzero hnone
        split at hnone
        · rename_i ht
          rw [if_pos ht] at hzero
          have hneg : (-1 : Int32) = 0 := hzero
          exact absurd hneg (by decide)
        · cases hnone
  obtain ⟨V', hV⟩ := Option.ne_none_iff_exists'.mp hv
  rw [hV] at hl
  obtain ⟨nd, hnd, ht, rfl⟩ := write_some hV
  obtain ⟨-, -, hview⟩ := hl
  rw [hview]
  refine block_some.mpr ⟨_, Function.update_self .., (h.sound.node hnd).type.resolve_left ht, ?_⟩
  show (nd.setBlock b buffer.bytes).blocks b = some buffer.bytes
  rw [setBlock_blocks, if_pos rfl]

/--
**The log while there is room.** Take a run of any length from a new image with room for each
of its calls. The end of the log is past the checkpoint region. And for every next call: it does not
decrease, and a write that returns 0 is read back from then on, exactly if there is room for what
the call appends.
-/
theorem kept_iff_room {s : State} (hr : Logs Room s) {env : Env} (he : env.dest = .caller) {op : Op}
    (hop : op.InRange) : Kept Room env s op ↔ Room s op := by
  have hf := logs_packed hr
  constructor
  · exact room_of_kept hf he hop
  · intro hroom
    obtain ⟨hf', hend, hlen⟩ := exec_packed hf he hop hroom
    refine ⟨hf.inv.log.start, by omega, ?_⟩
    rintro i buffer b rfl hzero s₂ hc env' he' old
    rw [exec] at hlen hzero hf' hc
    have hblock := block_of_write hf.inv he hop hlen hzero
    obtain ⟨-, hrun⟩ := calls_packed (fun _ _ h => h.1) (fun _ _ h => h.2) hf' hc
    obtain ⟨hinv, hb⟩ := run_block hf'.inv hblock hrun
    obtain ⟨q, hq⟩ := fsRead_spec hinv.log he' (toInt_block b) old.len hb
    exact ⟨_, hq⟩

/-- In a new image there is room for the file `a`. -/
theorem kept_start : ∃ s, Logs Room s ∧ Kept Room sampleEnv s (.create 0 1 sampleName) := by
  obtain ⟨s, e, hinit, -, hle, hl, -⟩ := @fsInit_level sampleEnv rfl
  have hr : Logs Room s := @Logs.run Room sampleEnv s s rfl hinit Calls.refl
  have happ := Op.appends_le s.view (.create 0 1 sampleName)
  have hroom : s.cp.endPtr.toInt + Op.appends s.view (.create 0 1 sampleName) < 2 ^ 31 := by
    rw [hl.end_eq]
    omega
  have hop : Op.InRange (.create 0 1 sampleName) := show Inum 0 by decide
  exact ⟨s, hr, (kept_iff_room hr (rfl : sampleEnv.dest = .caller) hop).mpr hroom⟩

/-! ## A log that is filled -/

/-- The file `a` of a new image. -/
theorem logs_file : ∃ s, Logs Room s ∧ s.IsFile 1 := by
  obtain ⟨s, e, hinit, -, hle, hl, hv⟩ := @fsInit_level sampleEnv rfl
  have hr : Logs Room s := @Logs.run Room sampleEnv s s rfl hinit Calls.refl
  have hf := logs_packed hr
  have happ := Op.appends_le s.view (.create 0 1 sampleName)
  have hroom : s.cp.endPtr.toInt + Op.appends s.view (.create 0 1 sampleName) < 2 ^ 31 := by
    rw [hl.end_eq]
    omega
  have hop : Op.InRange (.create 0 1 sampleName) := show Inum 0 by decide
  obtain ⟨-, -, hlen⟩ := exec_packed hf (rfl : sampleEnv.dest = .caller) hop hroom
  obtain ⟨size, hview⟩ := (exec_effect hf.inv (rfl : sampleEnv.dest = .caller) hop hlen).view
  obtain ⟨b, j, hcreate⟩ := create_sample hv
  refine ⟨_, hr.tail (rfl : sampleEnv.dest = .caller) hop hroom, @isFile_of_view _ 1 newFile ?_ rfl⟩
  rw [hview, Op.effect, hcreate, Option.getD_some, View.link, Function.update_of_ne (by decide),
    Function.update_self]

theorem appends_write (hf : s.IsFile i) (buffer : Buffer) (b : Fin 14) :
    Op.appends s.view (.write i buffer b) = 4224 := by
  obtain ⟨n, hn, ht⟩ := hf
  have htd : n.type ≠ fsDirectory := by
    rw [ht]
    decide
  refine if_pos ?_
  rw [Op.effect, View.write, view_some hn]
  exact congrArg (fun r : Int32 × Option View => r.2.isSome) (if_neg htd)

theorem isFile_write (hf : Packed s) (he : env.dest = .caller) (hi : s.IsFile i) {buffer : Buffer}
    {b : Fin 14} (hroom : Room s (.write i buffer b)) : (exec env s (.write i buffer b)).2.IsFile i := by
  obtain ⟨n, hn, ht⟩ := hi
  have htd : n.type ≠ fsDirectory := by
    rw [ht]
    decide
  have hop : Op.InRange (.write i buffer b) := (inode_eq_some hn).1
  obtain ⟨-, -, hlen⟩ := exec_packed hf he hop hroom
  obtain ⟨size, hview⟩ := (exec_effect hf.inv he hop hlen).view
  have hw : s.view.write i buffer.bytes b size = (0, some (Function.update s.view i
      (some { (s.node n).setBlock b buffer.bytes with size := size }))) := by
    rw [View.write, view_some hn]
    exact if_neg htd
  rw [Op.effect, hw] at hview
  exact @isFile_of_view _ i { (s.node n).setBlock b buffer.bytes with size := size }
    (by rw [hview]; exact Function.update_self ..) ht

/-- Overwriting a file again and again, until there is no room for one more time. -/
theorem logs_full : ∀ (n : Nat) (s : State), Logs Room s → s.IsFile 1 →
    (2 ^ 31 - s.cp.endPtr.toInt).toNat ≤ n →
    ∃ s', Logs Room s' ∧ s'.IsFile 1 ∧ ¬Room s' (.write 1 zeros 0) := by
  intro n
  induction n with
  | zero =>
      intro s _ _ hn
      have hlt := s.cp.endPtr.toInt_lt
      omega
  | succ n ih =>
      intro s hr hfile hn
      by_cases hroom : Room s (.write 1 zeros 0)
      · have hf := logs_packed hr
        have hop : Op.InRange (.write 1 zeros 0) := show Inum 1 by decide
        obtain ⟨-, hend, -⟩ := exec_packed hf (rfl : sampleEnv.dest = .caller) hop hroom
        rw [appends_write hfile] at hend
        exact ih _ (hr.tail (rfl : sampleEnv.dest = .caller) hop hroom) (isFile_write hf rfl hfile hroom) (by omega)
      · exact ⟨s, hr, hfile, hroom⟩

/-- The write that comes next makes the end negative. -/
theorem end_wraps : ∃ s, Logs (fun _ _ => True) s ∧ Op.InRange (.write 1 zeros 0) ∧
    ¬Kept (fun _ _ => True) sampleEnv s (.write 1 zeros 0) := by
  obtain ⟨s, hr, hfile⟩ := logs_file
  obtain ⟨s', hr', -, hfull⟩ := logs_full _ s hr hfile (Nat.le_refl _)
  have hop : Op.InRange (.write 1 zeros 0) := show Inum 1 by decide
  exact ⟨s', hr'.mono fun _ _ _ => trivial, hop, fun hk =>
    hfull (room_of_kept (logs_packed hr') (rfl : sampleEnv.dest = .caller) hop hk)⟩

end Cs537.Fs
