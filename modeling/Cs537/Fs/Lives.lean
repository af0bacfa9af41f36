import Cs537.Fs.Crash
import Cs537.Fs.Retry

/-!
# Lives of a server

One image file outlives many servers. Each starts with `fs_init`, answers requests, and
is killed at some moment; the next one starts from what is in the file. `fs_init` has two
branches. On a file that exists it reads the checkpoint region and trusts it. On a
missing file it makes a new image, and writes the root directory but not the checkpoint
region: that is left to the first `fs_fsync`, after the first request that changes
something. A server killed before that leaves a file whose first 1028 bytes are a hole,
and a hole reads as a checkpoint of zeros.

So what a later server needs is a checkpoint in the file whose view has the root and its
dots. The root stays as long as no client unlinks `.` or `..` in an empty root; what
happens to the dots of other directories does not matter to it, because a directory
whose `..` names the root has an entry there.
-/

namespace Cs537.Fs

open Lib

variable {env : Env} {s s' s₀ : State} {k p q : Int32} {name : CStr} {V V' : View} {nd : Node}
  {b : Fin 14} {j : Fin 64} {d : FsDir} {op : Op}

/-! ## The root -/

/-- The root is a directory with its dots, and every directory with an entry for it has an entry in it. -/
structure Rooted (V : View) : Prop where
  root : ∃ nd, V.dir 0 = some nd ∧ nd.slot 0 0 = some ⟨strncpy dot, 0⟩
    ∧ nd.slot 0 1 = some ⟨strncpy dotdot, 0⟩
  back : ∀ {q nd b j d}, q ≠ 0 → V.dir q = some nd → nd.Used b j d → d.pair = 0 →
    ∃ x, V.edge 0 x q

/-- Everything but an unlink of `.` or `..` in an empty root. -/
def View.KeepsRoot (V : View) : Op → Prop
  | .unlink p name => p = 0 → name = dot ∨ name = dotdot → ∃ b j d, V.Entry 0 b j d
  | _ => True

/-- A slot of the root that is not used by its dots. -/
theorem free_beyond_dots (hd : nd.slot 0 0 = some ⟨strncpy dot, 0⟩)
    (hdd : nd.slot 0 1 = some ⟨strncpy dotdot, 0⟩) (hf : nd.free = some (b, j)) : Beyond b j := by
  by_contra hb
  obtain ⟨rfl, rfl | rfl⟩ := not_beyond hb
  · exact free_not_used hf ⟨hd, by decide⟩
  · exact free_not_used hf ⟨hdd, by decide⟩

/-- An entry of `p` survives a change of another slot of `p`. -/
theorem edge_setSlot {x : Fin 14 × Fin 64} {c : Int32} (hd : V.dir p = some nd)
    (hd' : V'.dir p = some (nd.setSlot b j d)) (hne : ¬(x.1 = b ∧ x.2 = j)) (he : V.edge p x c) :
    V'.edge p x c := by
  obtain ⟨e, ⟨n, hn, hu, hbey⟩, hpair⟩ := he
  rw [hd] at hn
  cases hn
  exact ⟨e, ⟨_, hd', used_setSlot.mpr (Or.inr ⟨hne, hu⟩), hbey⟩, hpair⟩

theorem edge_congr {x : Fin 14 × Fin 64} {c : Int32} (hd : V'.dir p = V.dir p) (he : V.edge p x c) :
    V'.edge p x c := by
  obtain ⟨e, ⟨n, hn, hu, hbey⟩, hpair⟩ := he
  exact ⟨e, ⟨n, hd.trans hn, hu, hbey⟩, hpair⟩

theorem rooted_create {type : Int32} (h : Rooted V) (hk : V.nextId = some k)
    (hd : V.dir p = some nd) (hf : nd.free = some (b, j)) :
    Rooted (V.link p k nd (newNode type k p) b j name) := by
  obtain ⟨r, hr, hdot, hdotdot⟩ := h.root
  obtain ⟨-, -, -, hfree, -⟩ := nextId_some hk
  have hkp : k ≠ p := ne_of_unused hd hfree
  have hk0 : k ≠ 0 := ne_of_unused hr hfree
  -- entries of the root are kept
  have hkeep : ∀ {x c}, V.edge 0 x c → (V.link p k nd (newNode type k p) b j name).edge 0 x c := by
    intro x c he
    by_cases hp : p = 0
    · subst hp
      refine edge_setSlot hd ((dir_link hd).mpr (Or.inl ⟨rfl, rfl⟩)) ?_ he
      rintro ⟨rfl, rfl⟩
      obtain ⟨e, ⟨n, hn, hu, -⟩, -⟩ := he
      rw [hd] at hn
      cases hn
      exact free_not_used hf hu
    · refine edge_congr ?_ he
      rw [hr]
      exact (dir_link hd).mpr (Or.inr (Or.inr ⟨Ne.symm hp, hk0.symm, hr⟩))
  refine ⟨?_, fun {q n b' j' e} hq hn hu hpair => ?_⟩
  · by_cases hp : p = 0
    · subst hp
      rw [hd] at hr
      cases hr
      have hbey := free_beyond_dots hdot hdotdot hf
      exact ⟨_, (dir_link hd).mpr (Or.inl ⟨rfl, rfl⟩),
        slot_setSlot_of_ne (hbey.ne_dot (by decide)) hdot,
        slot_setSlot_of_ne (hbey.ne_dot (by decide)) hdotdot⟩
    · exact ⟨r, (dir_link hd).mpr (Or.inr (Or.inr ⟨Ne.symm hp, hk0.symm, hr⟩)), hdot, hdotdot⟩
  · rcases (dir_link hd).mp hn with ⟨rfl, rfl⟩ | ⟨-, rfl, hc, ht⟩ | ⟨-, -, hn⟩
    · rcases used_setSlot.mp hu with ⟨-, -, rfl, -⟩ | ⟨-, hu⟩
      · exact absurd hpair hk0
      · obtain ⟨x, hx⟩ := h.back hq hd hu hpair
        exact ⟨x, hkeep hx⟩
    · -- a new directory names the root as its parent when it is made there
      cases hc
      rw [newNode_dir ht] at hu
      obtain ⟨-, ⟨-, rfl, -⟩ | ⟨-, rfl, -⟩⟩ := used_newDir.mp hu
      · exact absurd hpair hq
      · have hp : p = 0 := hpair
        subst hp
        rw [hd] at hr
        cases hr
        exact ⟨(b, j), _, ⟨_, (dir_link hd).mpr (Or.inl ⟨rfl, rfl⟩),
          used_setSlot.mpr (Or.inl ⟨rfl, rfl, rfl, (inum_nextId hk).not_neg⟩),
          free_beyond_dots hdot hdotdot hf⟩, rfl⟩
    · obtain ⟨x, hx⟩ := h.back hq hn hu hpair
      exact ⟨x, hkeep hx⟩

/-- What `unlink` removes is not the root. -/
theorem Rooted.pair_ne_zero (h : Rooted V) (hs : Sound V) (hok : V.KeepsRoot (.unlink p name))
    (hd : V.dir p = some nd) (hu : nd.Used b j d) (htext : d.text = name.chars.take 60)
    (hrem : V.removable d.pair = true) : d.pair ≠ 0 := by
  intro hpair
  rw [hpair] at hrem
  have hempty := (removable_iff hs).mp hrem
  by_cases hp : p = 0
  · subst hp
    obtain ⟨r, hr, hdot, hdotdot⟩ := h.root
    rw [hd] at hr
    cases hr
    by_cases hbey : Beyond b j
    · exact hempty b j d ⟨nd, hd, hu, hbey⟩
    · obtain ⟨rfl, hj⟩ := not_beyond hbey
      -- the name is that of a dot, and then the root is not empty
      have hname : name = dot ∨ name = dotdot := by
        rcases hj with rfl | rfl
        · left
          rw [hu.1, Option.some.injEq] at hdot
          rw [hdot, text_strncpy] at htext
          exact eq_of_take (by decide) htext.symm
        · right
          rw [hu.1, Option.some.injEq] at hdotdot
          rw [hdotdot, text_strncpy] at htext
          exact eq_of_take (by decide) htext.symm
      obtain ⟨b', j', e, he⟩ := hok rfl hname
      exact hempty b' j' e he
  · obtain ⟨x, e, he, -⟩ := h.back hp hd hu hpair
    exact hempty _ _ e he

theorem rooted_unlink (h : Rooted V) (hd : V.dir p = some nd) (hu : nd.Used b j d) (hne : d.pair ≠ 0) :
    Rooted (Function.update (Function.update V d.pair none) p (some (nd.setSlot b j unused))) := by
  obtain ⟨r, hr, hdot, hdotdot⟩ := h.root
  have ht : (nd.setSlot b j unused).type = fsDirectory := (dir_eq_some.mp hd).2
  refine ⟨?_, fun {q n b' j' e} hq hn hu' hpair => ?_⟩
  · by_cases hp : p = 0
    · subst hp
      rw [hd] at hr
      cases hr
      -- the entry is none of the dots, which name the root
      have hslot : ∀ {j' : Fin 64} {e : FsDir}, nd.slot 0 j' = some e → e.pair = 0 →
          (nd.setSlot b j unused).slot 0 j' = some e := by
        intro j' e hs he
        refine slot_setSlot_of_ne ?_ hs
        rintro ⟨rfl, rfl⟩
        rw [hu.1, Option.some.injEq] at hs
        exact hne (hs ▸ he)
      exact ⟨_, dir_update_self ht, hslot hdot rfl, hslot hdotdot rfl⟩
    · exact ⟨r, (dir_update_two ht).mpr (Or.inr (Or.inr ⟨Ne.symm hp, hne.symm, hr⟩)), hdot, hdotdot⟩
  · -- an entry of the root for a directory that stays is kept
    have hkeep : ∀ {x}, q ≠ d.pair ∨ p ≠ 0 → V.edge 0 x q → View.edge
        (Function.update (Function.update V d.pair none) p (some (nd.setSlot b j unused))) 0 x q := by
      intro x hcase hx
      by_cases hp : p = 0
      · subst hp
        refine edge_setSlot hd (dir_update_self ht) ?_ hx
        rintro ⟨rfl, rfl⟩
        obtain ⟨e, ⟨n, hn, hue, -⟩, hq'⟩ := hx
        rw [hd] at hn
        cases hn
        rw [used_unique hue hu] at hq'
        rcases hcase with hc | hc
        · exact hc hq'.symm
        · exact hc rfl
      · refine edge_congr ?_ hx
        rw [dir_update_of_ne (Ne.symm hp), dir_update_of_ne hne.symm]
    rcases (dir_update_two ht).mp hn with ⟨rfl, rfl⟩ | ⟨-, -, hc, -⟩ | ⟨-, hqd, hn⟩
    · obtain ⟨-, hu'⟩ := used_clear.mp hu'
      obtain ⟨x, hx⟩ := h.back hq hd hu' hpair
      exact ⟨x, hkeep (Or.inr hq) hx⟩
    · cases hc
    · obtain ⟨x, hx⟩ := h.back hq hn hu' hpair
      exact ⟨x, hkeep (Or.inl hqd) hx⟩

theorem rooted_effect (h : Rooted V) (hs : Sound V) {size : Int32} (hok : V.KeepsRoot op)
    (he : op.effect V size = some V') : Rooted V' := by
  cases op with
  | create p type name =>
      obtain ⟨nd, k, b, j, -, hd, hk, hf, rfl⟩ := create_some he
      exact @rooted_create k p name V nd b j type h hk hd hf
  | unlink p name =>
      obtain ⟨nd, b, j, d, hd, hu, htext, -, hrem, rfl⟩ := unlink_some he
      exact rooted_unlink h hd hu (h.pair_ne_zero hs hok hd hu htext hrem)
  | write i buffer b =>
      obtain ⟨nd, hv, ht, rfl⟩ := write_some he
      have hdir : ∀ q, View.dir (Function.update V i
          (some { nd.setBlock b buffer.bytes with size := size })) q = V.dir q :=
        fun q => dir_update_file hv ht ht
      obtain ⟨r, hr, hdots⟩ := h.root
      refine ⟨⟨r, (hdir 0).trans hr, hdots⟩, fun {q n b j d} hq hn hu hpair => ?_⟩
      obtain ⟨x, hx⟩ := h.back hq ((hdir q).symm.trans hn) hu hpair
      exact ⟨x, edge_congr (hdir 0) hx⟩
  | read i buffer b => cases he
  | lookup p name => cases he
  | stat i m => cases he
  | fsync => cases he

/-! ## Histories -/

/-- The image between two lives, or a server with the image as its last `fs_fsync` left it. -/
inductive Phase where
  | down (image : Option File)
  /-- `fresh` says that this server made the image and has not reached an `fs_fsync`. -/
  | up (fresh : Bool) (base : File) (s : State)

/--
Any lives on one image. The server follows every call that changes something by
`fs_fsync`. A kill may come between two calls or inside one, and any of the bytes written
since the last `fs_fsync` are then in the file; the write of the checkpoint is atomic, so
a kill inside `fs_fsync` is one before it or after it. `calls` and `kills` say which calls
and kills are admitted.
-/
inductive History (calls : State → Op → Prop) (kills : Bool → List (Nat × UInt8) → Prop) : Phase → Prop where
  | absent : History calls kills (.down none)
  | create {env : Env} {s : State} : History calls kills (.down none) → env.dest = .caller →
      fsInit env none true [] = some s → s.disk.file.len < 2 ^ 31 →
      History calls kills (.up true File.empty s)
  | restart {env : Env} {f : File} {s : State} : History calls kills (.down (some f)) →
      fsInit env (some f) true [] = some s → History calls kills (.up false f s)
  | look {env : Env} {fresh : Bool} {base : File} {s : State} {op : Op} :
      History calls kills (.up fresh base s) → env.dest = .caller → op.InRange → ¬op.Mutates →
      op ≠ .fsync → (exec env s op).2.disk.file.len < 2 ^ 31 →
      History calls kills (.up fresh base (exec env s op).2)
  | request {env : Env} {fresh : Bool} {base : File} {s : State} {op : Op} :
      History calls kills (.up fresh base s) → env.dest = .caller → op.InRange → op.Mutates →
      calls s op → (exec env s op).2.disk.file.len < 2 ^ 31 →
      History calls kills (.up false (fsFsync (exec env s op).2).2.disk.file
        (fsFsync (exec env s op).2).2)
  | kill {fresh : Bool} {base : File} {s : State} {ws : List (Nat × UInt8)} :
      History calls kills (.up fresh base s) → kills fresh ws → (∀ w ∈ ws, w ∈ s.disk.journal) →
      History calls kills (.down (some (base.land ws)))
  | killInside {env : Env} {fresh : Bool} {base : File} {s : State} {op : Op} {ws : List (Nat × UInt8)} :
      History calls kills (.up fresh base s) → env.dest = .caller → op.InRange → op.Mutates →
      (exec env s op).2.disk.file.len < 2 ^ 31 → kills fresh ws →
      (∀ w ∈ ws, w ∈ (exec env s op).2.disk.journal) →
      History calls kills (.down (some (base.land ws)))

/-- Inode 0 is a directory with `.` and `..`, and the log begins after the checkpoint region. -/
structure Usable (s : State) : Prop where
  root : ∀ e : Env, e.dest = .caller → ∀ m,
    (fsStat e 0 m s).1 = 0 ∧ (fsStat e 0 m s).2.1.type = fsDirectory
  dots : ∀ e : Env, e.dest = .caller → (fsLookup e 0 dot s).1 = 0 ∧ (fsLookup e 0 dotdot s).1 = 0
  start : 1028 ≤ s.cp.endPtr.toInt

/-- A server that has the root. -/
structure Healthy (s : State) : Prop where
  inv : Inv s
  names : NamesOnce s.view
  rooted : Rooted s.view

theorem Healthy.of_view (h : Healthy s) (hlog : LogInv s') (hv : s'.view = s.view) : Healthy s' where
  inv := ⟨hlog, by rw [hv]; exact h.inv.sound⟩
  names := by
    intro p nd hd
    rw [hv] at hd
    exact h.names hd
  rooted := by
    rw [hv]
    exact h.rooted

theorem Healthy.effect (h : Healthy s) (hok : s.view.KeepsRoot op) (heff : Effect s op s') : Healthy s' := by
  obtain ⟨size, hv⟩ := heff.view
  cases he : op.effect s.view size with
  | none =>
      rw [he] at hv
      exact h.of_view heff.inv.log hv
  | some V' =>
      rw [he, Option.getD_some] at hv
      refine ⟨heff.inv, ?_, ?_⟩
      · intro p nd hd
        rw [hv] at hd
        exact namesOnce_effect h.names he hd
      · rw [hv]
        exact rooted_effect h.rooted h.inv.sound hok he

theorem healthy_init (he : env.dest = .caller) (hs : fsInit env none true [] = some s)
    (hlen : s.disk.file.len < 2 ^ 31) : Healthy s := by
  have hr : Reachable (fun _ _ => True) s := Reachable.init he hs hlen
  refine ⟨inv_init he hs hlen, namesOnce_reachable hr, ?_⟩
  rw [(fsInit_fresh he hs hlen).2]
  refine ⟨⟨newDir 0 0, dir_update_self rfl, ?_, ?_⟩, fun {q nd b j d} hq hd => ?_⟩
  · rw [slot_newDir]; rfl
  · rw [slot_newDir]; rfl
  · rw [dir_update_of_ne hq] at hd
    cases hd

theorem Healthy.usable (h : Healthy s) : Usable s := by
  obtain ⟨r, hr, hdot, hdotdot⟩ := h.rooted.root
  obtain ⟨hv, ht⟩ := dir_eq_some.mp hr
  have hlook : ∀ {j : Fin 64} {c : CStr}, r.slot 0 j = some ⟨strncpy c, 0⟩ →
      s.view.lookup 0 c = some 0 := by
    intro j c hslot
    rw [lookup_of_dir hr, find_used (h.names hr) ⟨hslot, (by decide : ¬(0 : Int32) < 0)⟩
      (text_strncpy c 0), Option.bind_some, hslot]
    rfl
  refine ⟨fun e he m => ?_, fun e he => ⟨?_, ?_⟩, h.inv.log.start⟩
  · obtain ⟨x, hx⟩ := @fsStat_spec e s 0 h.inv.log he (by decide) m
    rw [hx, View.stat, hv]
    exact ⟨rfl, ht⟩
  · obtain ⟨x, hx⟩ := @fsLookup_spec e s 0 dot h.inv.log he (by decide)
    rw [hx, hlook hdot]
    rfl
  · obtain ⟨x, hx⟩ := @fsLookup_spec e s 0 dotdot h.inv.log he (by decide)
    rw [hx, hlook hdotdot]
    rfl

/-- What holds of an image, and of a server. -/
def Phase.Ok : Phase → Prop
  | .down none => True
  | .down (some f) => f.len = 0 ∨ ∃ s₀, s₀.disk.file = f ∧ Healthy s₀ ∧ Anchored s₀
  | .up true base s => base = File.empty ∧ Healthy s ∧ ∀ w ∈ s.disk.journal, 1028 ≤ w.1
  | .up false base s => Healthy s ∧ ∃ s₀, s₀.disk.file = base ∧ Healthy s₀ ∧ Anchored s₀ ∧ Run NoSync s₀ s

/-- A life that made the image may be killed before its first `fs_fsync` only if it has written nothing. -/
def AfterSync (fresh : Bool) (ws : List (Nat × UInt8)) : Prop := fresh = true → ws = []

theorem Run.trans {ok : State → Op → Prop} (h : Run ok s₀ s) (h' : Run ok s s') : Run ok s₀ s' := by
  induction h' with
  | refl => exact h
  | tail _ hst ih => exact ih.tail hst

/-- A kill leaves a good image. -/
theorem ok_kill {fresh : Bool} {base : File} {s₁ : State} {ws : List (Nat × UInt8)}
    (h : (Phase.up fresh base s).Ok) (hrun : Run NoSync s s₁) (hk : AfterSync fresh ws)
    (hws : ∀ w ∈ ws, w ∈ s₁.disk.journal) : (Phase.down (some (base.land ws))).Ok := by
  cases fresh with
  | true =>
      obtain ⟨rfl, -⟩ := h
      rw [hk rfl]
      exact Or.inl rfl
  | false =>
      obtain ⟨-, s₀, rfl, hh, ha, hrun₀⟩ := h
      obtain ⟨-, hlog, hv, ha'⟩ := @restored_spec sampleEnv s₀ s₁ ws hh.inv ha (hrun₀.trans hrun) hws
      exact Or.inr ⟨_, rfl, hh.of_view hlog hv, ha'⟩

/-- `fs_init` fails on an empty file. -/
theorem fsInit_empty {f : File} (h : f.len = 0) : fsInit env (some f) true [] = none := by
  have hread : (read 1028 (CheckPoint.encode ⟨0, fun _ => 0⟩) ⟨f, 0, [], []⟩).1 = 0 := by
    show ((load f.data 0 (min 1028 (f.len - 0))).length : Int) = 0
    rw [length_load, h]
    rfl
  rw [fsInit, if_neg (by decide)]
  dsimp only
  rw [lseek_done rfl (by decide)]
  show (if (read 1028 (CheckPoint.encode ⟨0, fun _ => 0⟩) ⟨f, 0, [], []⟩).1 ≠ 1028 then none else
    some (⟨CheckPoint.decode (read 1028 (CheckPoint.encode ⟨0, fun _ => 0⟩) ⟨f, 0, [], []⟩).2.1,
      (read 1028 (CheckPoint.encode ⟨0, fun _ => 0⟩) ⟨f, 0, [], []⟩).2.2⟩ : State)) = none
  rw [if_pos]
  rw [hread]
  decide

/-- `fs_init` finds a good image, or an empty file and fails. -/
theorem ok_restart {f : File} (h : (Phase.down (some f)).Ok) (hs : fsInit env (some f) true [] = some s) :
    (Phase.up false f s).Ok := by
  rcases h with hempty | ⟨s₀, rfl, hh, ha⟩
  · rw [fsInit_empty hempty] at hs
    cases hs
  · obtain ⟨hinit, hlog, hv, ha'⟩ := @restored_spec env s₀ s₀ [] hh.inv ha Run.refl (by simp)
    have hsame : s₀.disk.file.land [] = s₀.disk.file := rfl
    rw [hsame] at hinit hlog hv ha'
    rw [hinit] at hs
    cases hs
    exact ⟨hh.of_view hlog hv, s₀.restored s₀.disk.file, rfl, hh.of_view hlog hv, ha', Run.refl⟩

theorem journal_init (he : env.dest = .caller) (hs : fsInit env none true [] = some s)
    (hlen : s.disk.file.len < 2 ^ 31) : ∀ w ∈ s.disk.journal, 1028 ≤ w.1 := by
  rw [fsInit, if_neg (by decide)] at hs
  cases Option.some.inj hs
  obtain ⟨r, s', heq, -, hg, -⟩ := createEmptyDirectory_spec logInv_blank he (by decide) hlen
  obtain ⟨ws, hws, hb⟩ := hg.journal
  rw [heq]
  intro w hw
  rw [hws, show (State.blank []).disk.journal = [] from rfl, List.nil_append] at hw
  have := hb w hw
  rw [show (State.blank []).cp.endPtr.toInt = 1028 from rfl] at this
  omega

theorem ok_history {ph : Phase} (h : History (fun s op => s.view.KeepsRoot op) AfterSync ph) : ph.Ok := by
  induction h with
  | absent => trivial
  | create _ he hs hlen _ => exact ⟨rfl, healthy_init he hs hlen, journal_init he hs hlen⟩
  | restart _ hs ih => exact ok_restart ih hs
  | @look env fresh base s op _ he hop hm hne hlen ih =>
      have hst : Step NoSync s (exec env s op).2 := Step.call he hop hne hlen
      have hkeeps : s.view.KeepsRoot op := by
        cases op with
        | unlink p name => exact absurd trivial hm
        | _ => trivial
      cases fresh with
      | true =>
          obtain ⟨rfl, hh, hj⟩ := ih
          have heff := exec_effect hh.inv he hop hlen
          obtain ⟨ws, hws, hb⟩ := (heff.grows hne).journal
          have hstart := hh.inv.log.start
          refine ⟨rfl, hh.effect hkeeps heff, fun w hw => ?_⟩
          rw [hws] at hw
          rcases List.mem_append.mp hw with hw | hw
          · exact hj w hw
          · have := hb w hw
            omega
      | false =>
          obtain ⟨hh, s₀, hbase, hh₀, ha, hrun⟩ := ih
          exact ⟨hh.effect hkeeps (exec_effect hh.inv he hop hlen), s₀, hbase, hh₀, ha, hrun.tail hst⟩
  | @request env fresh base s op _ he hop hm hok hlen ih =>
      have hh : Healthy s := by
        cases fresh with
        | true => exact ih.2.1
        | false => exact ih.1
      have heff := exec_effect hh.inv he hop hlen
      have hh' := hh.effect hok heff
      obtain ⟨hlog, hv⟩ := synced_spec hh'.inv.log
      have hsync := hh'.of_view hlog hv
      rw [fsFsync_eq hh'.inv.log.done]
      exact ⟨hsync, _, rfl, hsync, synced_anchored _, Run.refl⟩
  | kill _ hk hws ih => exact ok_kill ih Run.refl hk hws
  | @killInside env fresh base s op ws _ he hop hm hlen hk hws ih =>
      have hne : op ≠ .fsync := by
        rintro rfl
        exact hm
      exact ok_kill ih (Run.refl.tail (Step.call he hop hne hlen)) hk hws

/-! ## A server killed before its first `fs_fsync` -/

/-- A checkpoint of zeros. -/
theorem encode_zero : CheckPoint.encode ⟨0, fun _ => 0⟩ = List.replicate 1028 0 := by
  refine List.eq_replicate_iff.mpr ⟨CheckPoint.length_encode _, fun x hx => ?_⟩
  have hint : ∀ y ∈ encodeInt 0, y = 0 := by
    intro y hy
    have hzero : encodeInt 0 = List.replicate 4 0 := rfl
    rw [hzero] at hy
    exact List.eq_of_mem_replicate hy
  rw [CheckPoint.encode, encodeArray, List.mem_append, List.mem_flatMap] at hx
  rcases hx with hx | ⟨y, hy, hx⟩
  · exact hint x hx
  · obtain ⟨i, rfl⟩ := List.mem_ofFn.mp hy
    exact hint x hx

/-- What such a server leaves is an image whose checkpoint says that the log begins at 0. -/
theorem fsInit_hole {ws : List (Nat × UInt8)} (hws : ∀ w ∈ ws, 1028 ≤ w.1) (hne : ws ≠ []) :
    ∃ s, fsInit env (some (File.empty.land ws)) true [] = some s ∧ s.cp.endPtr = 0 := by
  obtain ⟨w, hw⟩ := List.exists_mem_of_ne_nil ws hne
  have hlen : w.1 < (File.empty.land ws).len := File.lt_len_land ws _ hw
  have hlow := hws w hw
  refine ⟨_, @fsInit_restored env ⟨⟨0, fun _ => 0⟩, ⟨File.empty, 0, [], []⟩⟩ _ (by omega) ?_, rfl⟩
  have hzero : load (File.empty.land ws).data 0 1028 = load (fun _ => 0) 0 1028 :=
    load_congr fun x _ hx => File.land_hole (by omega) ws File.empty hws rfl
  rw [hzero, encode_zero]
  unfold load
  rw [List.map_const', List.length_range]

/--
**`fs_init` yields a usable file system** in every history of lives in which no client
unlinks `.` or `..` in an empty root, and the server that made the image is not killed
between its first write and its first `fs_fsync`. The condition on kills is exact: of a
server that has made the image and not reached an `fs_fsync`, a kill leaves an image on
which `fs_init` fails or yields a usable file system only if nothing was written.
-/
theorem fsInit_usable {image : Option File}
    (h : History (fun s op => s.view.KeepsRoot op) AfterSync (.down image)) {env : Env}
    (he : env.dest = .caller) {s : State} (hs : fsInit env image true [] = some s) :
    Usable s ∧ ∀ base s₁ ws,
      History (fun s op => s.view.KeepsRoot op) AfterSync (.up true base s₁) →
      (∀ w ∈ ws, w ∈ s₁.disk.journal) →
      ((∀ env s', fsInit env (some (base.land ws)) true [] = some s' → Usable s') ↔ ws = []) := by
  constructor
  · cases image with
    | some f => exact (ok_history (h.restart hs)).1.usable
    | none =>
        obtain ⟨s', e, hinit, -, hle, hl, -⟩ := fsInit_level he
        rw [hinit] at hs
        cases hs
        have hlen := hl.len
        exact (healthy_init he hinit (by omega)).usable
  · intro base s₁ ws hup hws
    obtain ⟨rfl, -, hj⟩ := ok_history hup
    constructor
    · intro hall
      by_contra hne
      obtain ⟨s', hinit, hend⟩ := @fsInit_hole env ws (fun w hw => hj w (hws w hw)) hne
      have hstart := (hall env s' hinit).start
      rw [hend] at hstart
      exact absurd hstart (by decide)
    · rintro rfl env' s' hinit
      have hempty : fsInit env' (some (File.empty.land [])) true [] = none := fsInit_empty rfl
      rw [hempty] at hinit
      cases hinit

/-- A server makes the image and the file `a`, and is killed; the next one finds the root. -/
theorem fsInit_usable_sample : ∃ f s,
    History (fun s op => s.view.KeepsRoot op) AfterSync (.down (some f))
      ∧ fsInit sampleEnv (some f) true [] = some s ∧ Usable s := by
  obtain ⟨s, e, hinit, he, he', hl, -⟩ := @fsInit_level sampleEnv rfl
  have hlen := hl.len
  have hnone : History (fun s op => s.view.KeepsRoot op) AfterSync (.down none) := History.absent
  have hup := hnone.create rfl hinit (by omega)
  obtain ⟨e1, -, hle, hl1⟩ := @exec_level sampleEnv s e hl he (by omega) (.create 0 1 sampleName)
  have hlen1 := hl1.len
  have hreq := @History.request _ _ sampleEnv _ _ s (.create 0 1 sampleName) hup rfl
    (show Inum 0 by decide) trivial trivial (by omega)
  have hdown := @History.kill _ _ _ _ _ [] hreq (fun hf => by cases hf) (by simp)
  obtain ⟨hh, -⟩ := ok_history hreq
  rw [fsFsync_eq hl1.done] at hdown hh
  obtain ⟨hsome, -⟩ := @restored_spec sampleEnv _ _ [] hh.inv (synced_anchored _) Run.refl (by simp)
  exact ⟨_, _, hdown, hsome, (fsInit_usable hdown rfl hsome).1⟩

/-- Making the image writes something. -/
theorem journal_init_ne (hs : fsInit env none true [] = some s) : s.disk.journal ≠ [] := by
  rw [fsInit, if_neg (by decide)] at hs
  cases Option.some.inj hs
  have happend : 0 ≤ ((State.blank []).append (newDirList 0 0).encode).cp.endPtr.toInt := by
    rw [State.append, FsDirList.length_encode]
    decide
  obtain ⟨map, q, heq⟩ := @insertINode_shape env ((State.blank []).append (newDirList 0 0).encode) 0 rfl
    happend (INode.setPtr ⟨Int32.ofNat bufferSize, fsDirectory, fun _ => -1⟩ 0 1028)
    (by rw [State.append, State.append, INode.length_encode, FsDirList.length_encode]; decide)
  have hmake : createEmptyDirectory env 0 0 (State.blank []) = insertINode env
      (INode.setPtr ⟨Int32.ofNat bufferSize, fsDirectory, fun _ => -1⟩ 0 1028) 0
      ((State.blank []).append (newDirList 0 0).encode) := by
    rw [createEmptyDirectory, writeToEnd_eq rfl (by decide)]
    rfl
  rw [hmake, heq]
  -- the last thing written is the inode map
  refine List.append_ne_nil_of_right_ne_nil _ fun hnil => ?_
  have hlen := congrArg List.length hnil
  rw [placed, List.length_mapIdx, IMap.length_encode] at hlen
  cases hlen

/--
A server that is killed before its first request has written the root directory but no
checkpoint. The next `fs_init` returns 0 with a log that begins at 0.
-/
theorem fsInit_unusable : ¬∀ (image : Option File) (env : Env) (s : State),
    History (fun _ _ => True) (fun _ _ => True) (.down image) → env.dest = .caller →
    fsInit env image true [] = some s → Usable s := by
  intro hall
  obtain ⟨s, e, hinit, -, he', hl, -⟩ := @fsInit_level sampleEnv rfl
  have hlen := hl.len
  have hnone : History (fun _ _ => True) (fun _ _ => True) (.down none) := History.absent
  have hup := hnone.create rfl hinit (by omega)
  have hdown := @History.kill _ _ _ _ _ s.disk.journal hup trivial (fun w hw => hw)
  obtain ⟨s', hs', hend⟩ := @fsInit_hole sampleEnv s.disk.journal (journal_init rfl hinit (by omega))
    (journal_init_ne hinit)
  have hstart := (hall _ sampleEnv s' hdown rfl hs').start
  rw [hend] at hstart
  exact absurd hstart (by decide)

end Cs537.Fs
