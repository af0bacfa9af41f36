import Cs537.Fs.Tree

/-!
# The dots under every client

`fs_unlink` takes any name. Given `.`, it asks `deleteINode` whether the directory
itself may go. When that has no entries the answer is yes: the directory is written
back with its first slot free, the next `fs_create` puts a name there, and
`deleteINode` never looks at that slot. `..` does the same to the root. In other
directories `..` names a directory with entries, and the call fails.

So the dots survive a call in every case but this one.
-/

namespace Cs537.Fs

open Lib

variable {env : Env} {s s' : State} {k p : Int32} {name : CStr} {V V' : View} {nd : Node} {b : Fin 14}
  {j : Fin 64} {d : FsDir}

/-! ## Entries are found by their names -/

theorem find_used (hdist : nd.Distinct) (hu : nd.Used b j d) (htext : d.text = name.chars.take 60) :
    (nd.find fun _ _ => named name) = some (b, j) := by
  cases hf : nd.find fun _ _ => named name with
  | none =>
      have hno := find_none.mp hf b j d hu.1
      rw [named_iff.mpr ⟨hu.2, htext⟩] at hno
      cases hno
  | some x =>
      obtain ⟨b', j'⟩ := x
      obtain ⟨e, hslot, hn⟩ := find_some hf
      obtain ⟨hpos, he⟩ := named_iff.mp hn
      obtain ⟨rfl, rfl⟩ := hdist _ _ _ _ _ _ hu ⟨hslot, hpos⟩ (htext.trans he.symm)
      rfl

theorem unlink_used (hd : V.dir p = some nd) (hdist : nd.Distinct) (hu : nd.Used b j d)
    (htext : d.text = name.chars.take 60) : V.unlink p name = if V.removable d.pair then
        (0, some (Function.update (Function.update V d.pair none) p (some (nd.setSlot b j unused))))
      else (-1, none) :=
  unlink_found hd (find_used hdist hu htext) hu.1

/-! ## What goes when a dot goes -/

/-- A dot that `unlink` may remove is removed. -/
theorem unlink_loses (h : DirTree V) (hs : Sound V) (hname : name = dot ∨ name = dotdot ∧ p = 0)
    (hd : V.dir p = some nd) (hempty : ∀ b j d, ¬V.Entry p b j d) :
    ∃ V', V.unlink p name = (0, some V') ∧ ¬Dotted V' := by
  have hrem : V.removable p = true := (removable_iff hs).mpr hempty
  have ht : nd.type = fsDirectory := (dir_eq_some.mp hd).2
  have hp : Inum p := hs.inum (dir_eq_some.mp hd).1
  rcases hname with rfl | ⟨rfl, rfl⟩
  · have hu := h.used_dot hs hd
    rw [unlink_used hd (h.distinct hd) hu (text_strncpy dot p), if_pos hrem]
    refine ⟨_, rfl, fun hdot => ?_⟩
    -- the slot is free now
    have hslot := hdot.self (dir_update_self ht)
    rw [slot_setSlot, if_pos rfl, if_pos rfl, Option.some.injEq] at hslot
    exact hp.ne_neg_one (congrArg FsDir.pair hslot).symm
  · -- `..` of the root names the root
    obtain ⟨q, hu, hpar⟩ := h.used_dotdot hs hd
    obtain ⟨-, rfl⟩ | ⟨hc, -⟩ := hpar
    · rw [unlink_used hd (h.distinct hd) hu (text_strncpy dotdot 0), if_pos hrem]
      refine ⟨_, rfl, fun hdot => ?_⟩
      obtain ⟨q, hslot, hpar⟩ := hdot.up (dir_update_self ht)
      rw [slot_setSlot, if_pos rfl, if_pos rfl, Option.some.injEq] at hslot
      obtain ⟨-, hq⟩ | ⟨hc, -⟩ := hpar
      · rw [hq] at hslot
        exact absurd (congrArg FsDir.pair hslot) (by decide)
      · exact hc rfl
    · exact absurd rfl hc

/-- What `unlink` removes has no entries but dots. -/
theorem removed_empty (hs : Sound V) {op : Op} {size : Int32} (he : op.effect V size = some V')
    (hk : V k ≠ none) (hgone : V' k = none) : ∀ b j d, ¬V.Entry k b j d := by
  cases op with
  | create p type name =>
      obtain ⟨nd, c, b, j, -, -, -, -, rfl⟩ := create_some he
      rw [View.link] at hgone
      by_cases hkp : k = p
      · rw [hkp, Function.update_self] at hgone
        cases hgone
      · rw [Function.update_of_ne hkp] at hgone
        by_cases hkc : k = c
        · rw [hkc, Function.update_self] at hgone
          cases hgone
        · rw [Function.update_of_ne hkc] at hgone
          exact absurd hgone hk
  | unlink p name =>
      obtain ⟨nd, b, j, d, -, -, -, -, hrem, rfl⟩ := unlink_some he
      by_cases hkp : k = p
      · rw [hkp, Function.update_self] at hgone
        cases hgone
      · rw [Function.update_of_ne hkp] at hgone
        by_cases hkd : k = d.pair
        · rw [hkd]
          exact (removable_iff hs).mp hrem
        · rw [Function.update_of_ne hkd] at hgone
          exact absurd hgone hk
  | write i buffer b =>
      obtain ⟨nd, -, -, rfl⟩ := write_some he
      by_cases hki : k = i
      · rw [hki, Function.update_self] at hgone
        cases hgone
      · rw [Function.update_of_ne hki] at hgone
        exact absurd hgone hk
  | read i buffer b => cases he
  | lookup p name => cases he
  | stat i m => cases he
  | fsync => cases he

/-- **Only such an `unlink` takes a dot away.** -/
theorem dotted_iff {op : Op} (h : DirTree s.view) (hs : Inv s) (heff : Effect s op s') :
    Dotted s'.view ↔ s.view.KeepsDots op := by
  refine ⟨fun hdot => ?_, fun hok => (dirTree_step h hs hok heff).toDotted⟩
  cases op with
  | unlink p name =>
      intro hname hdir
      by_contra hno
      have hempty : ∀ b j d, ¬s.view.Entry p b j d := fun b j d he => hno ⟨b, j, d, he⟩
      obtain ⟨nd, hd⟩ := Option.ne_none_iff_exists'.mp hdir
      obtain ⟨V', hunlink, hlost⟩ := unlink_loses h hs.sound hname hd hempty
      obtain ⟨size, hv⟩ := heff.view
      rw [Op.effect, hunlink, Option.getD_some] at hv
      exact hlost (hv ▸ hdot)
  | create p type name => trivial
  | write i buffer b => trivial
  | read i buffer b => trivial
  | lookup p name => trivial
  | stat i m => trivial
  | fsync => trivial

/--
**The root and the dots.** As long as no `fs_unlink` is given `.` in an empty
directory, or `..` in an empty root, the root is a directory and the dots of every
directory are in place. From there a call removes directories without entries only, and
it leaves root and dots in place exactly when it is not such an `fs_unlink`.
-/
theorem dots_survive {s : State} (hr : Reachable (fun s op => s.view.KeepsDots op) s) :
    Dotted s.view
      ∧ ∀ (env : Env) (op : Op), env.dest = .caller → op.InRange →
        (exec env s op).2.disk.file.len < 2 ^ 31 →
        (∀ k nd, s.view.dir k = some nd → (exec env s op).2.view k = none →
          ∀ b j d, ¬s.view.Entry k b j d)
        ∧ (Dotted (exec env s op).2.view ↔ s.view.KeepsDots op) := by
  have hinv := inv_reachable hr
  have h : DirTree s.view := dirTree_reachable (fun _ _ hok => hok) hr
  refine ⟨h.toDotted, fun env op he hop hlen => ?_⟩
  have heff := exec_effect hinv he hop hlen
  refine ⟨fun k nd hd hgone => ?_, dotted_iff h hinv heff⟩
  have hk : s.view k ≠ none := by
    rw [(dir_eq_some.mp hd).1]
    exact Option.some_ne_none _
  obtain ⟨size, hv⟩ := heff.view
  rw [hv] at hgone
  cases heq : op.effect s.view size with
  | none =>
      rw [heq] at hgone
      exact absurd hgone hk
  | some V' =>
      rw [heq] at hgone
      exact removed_empty hinv.sound heq hk hgone

/-- A new image, and the file `a` made in it. -/
theorem dots_survive_sample : ∃ s : State, Reachable (fun s op => s.view.KeepsDots op) s ∧ Dotted s.view
    ∧ Dotted (fsCreate sampleEnv 0 1 sampleName s).2.view := by
  obtain ⟨s, e, hr, he, he', hl, -⟩ := @reachable_start sampleEnv (fun s op => s.view.KeepsDots op) rfl
  obtain ⟨e1, -, hle, hl1⟩ := @exec_level sampleEnv s e hl he (by omega) (.create 0 1 sampleName)
  have hlen := hl1.len
  obtain ⟨hdot, hcalls⟩ := dots_survive hr
  obtain ⟨-, hiff⟩ := hcalls sampleEnv (.create 0 1 sampleName) rfl (show Inum 0 by decide) (by omega)
  exact ⟨s, hr, hdot, hiff.mpr trivial⟩

/-- `fs_unlink(0, ".")` in a new image returns 0, and the root has no `.` any more. -/
theorem unlink_loses_dot : ∃ s s' : State, fsInit sampleEnv none true [] = some s
    ∧ fsUnlink sampleEnv 0 dot s = (0, s') ∧ Reachable (fun _ _ => True) s' ∧ ¬Dotted s'.view := by
  obtain ⟨s, e, hinit, he, he', hl, hv⟩ := @fsInit_level sampleEnv rfl
  have hlen := hl.len
  have hr : Reachable (fun _ _ => True) s := Reachable.init rfl hinit (by omega)
  have hinv := inv_reachable hr
  obtain ⟨hst, e1, -, hle, hl1⟩ := @step_of_level sampleEnv s (fun _ _ => True) e hl he (by omega) rfl
    (.unlink 0 dot) (show Inum 0 by decide) trivial
  rw [exec] at hst hl1
  have hlen1 := hl1.len
  obtain ⟨s', heq, hleads⟩ := @fsUnlink_spec sampleEnv s 0 dot hinv.log rfl hinv.sound (by decide)
    fun _ => by omega
  have htree : DirTree s.view := by
    rw [hv]
    exact dirTree_newDir
  have hdir : s.view.dir 0 = some (newDir 0 0) := by
    rw [hv]
    exact dir_update_self rfl
  have hempty : ∀ b j d, ¬s.view.Entry 0 b j d := by
    rw [hv]
    exact newDir_empty
  obtain ⟨V', hunlink, hlost⟩ := unlink_loses htree hinv.sound (Or.inl rfl) hdir hempty
  rw [hunlink] at heq hleads
  rw [heq] at hst
  exact ⟨s, s', hinit, heq, hr.tail hst, fun hdot => hlost (hleads.2.2 ▸ hdot)⟩

end Cs537.Fs
