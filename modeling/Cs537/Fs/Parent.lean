import Cs537.Fs.Tree
import Mathlib.Data.Fintype.Card

/-!
# Reading a directory

`fs_read` of a directory looks up the name under which its parent lists it. It finds
the parent by the `..` of the directory, and then goes through the 64 slots of the
first block of the parent, and of that block only. `fs_create` uses up to 14 blocks: the
63rd entry of a directory goes to its second one, and for a directory listed there
`fs_read` returns -1.
-/

namespace Cs537.Fs

open Lib Relation

variable {env : Env} {s s' : State} {i k p q : Int32} {name : CStr} {V V' : View} {nd pnd : Node}
  {b : Fin 14} {j : Fin 64} {e : FsDir}

/-! ## What is found -/

/-- The entry under which the directory `d` is listed; the root is listed as its own dots. -/
def View.Listed (V : View) (d : Int32) (e : FsDir) : Prop :=
  d = 0 ∧ (e = ⟨strncpy dot, 0⟩ ∨ e = ⟨strncpy dotdot, 0⟩)
    ∨ d ≠ 0 ∧ ∃ p b j, V.Parent d p ∧ V.Entry p b j e ∧ e.pair = d

/-- The directory is the root, or its entry is in the first block of its parent. -/
def View.ListedFirst (V : View) (d : Int32) : Prop := d = 0 ∨ ∃ p j e, V.Entry p 0 j e ∧ e.pair = d

/-- The loop over the first block of the parent. -/
def Node.slotFor (nd : Node) (d : Int32) : Option (Fin 64) :=
  (List.finRange 64).find? fun j =>
    !decide (((nd.dirList 0).list j).pair < 0) && decide (((nd.dirList 0).list j).pair = d)

theorem slotFor_some (hb : nd.blocks 0 ≠ none) (h : nd.slotFor i = some j) :
    ∃ e, nd.Used 0 j e ∧ (nd.dirList 0).list j = e ∧ e.pair = i := by
  have hhit := List.find?_some h
  rw [Bool.and_eq_true, Bool.not_eq_true', decide_eq_false_iff_not, decide_eq_true_eq] at hhit
  rcases @slot_dirList nd 0 j with hs | ⟨hnone, -⟩
  · exact ⟨_, ⟨hs, hhit.1⟩, rfl, hhit.2⟩
  · exact absurd hnone hb

theorem slotFor_none (h : nd.slotFor i = none) (hu : nd.Used 0 j e) : e.pair ≠ i := by
  intro hc
  have hno := List.find?_eq_none.mp h j (List.mem_finRange j)
  rw [slot_eq_dirList hu.1] at hno
  refine hno ?_
  rw [Bool.and_eq_true, Bool.not_eq_true', decide_eq_false_iff_not, decide_eq_true_eq]
  exact ⟨hu.2, hc⟩

/-- The parent of a directory is one. -/
theorem DirTree.dir_parent (h : DirTree V) (hp : V.Parent i q) : ∃ pnd, V.dir q = some pnd := by
  rcases hp with ⟨-, rfl⟩ | ⟨-, x, e, ⟨pnd, hd, -⟩, -⟩
  · exact h.root
  · exact ⟨pnd, hd⟩

/-- `fs_read` of a directory whose `..` is `q`. -/
theorem fsRead_dir (hinv : Inv s) (he : env.dest = .caller) (hd : s.view.dir i = some nd)
    (hup : nd.slot 0 1 = some ⟨strncpy dotdot, q⟩) (hp : s.view.dir q = some pnd)
    (buffer : List UInt8) (block : Int32) :
    (fsRead env i buffer block s).1 = (if (pnd.slotFor i).isSome then 0 else -1)
      ∧ (fsRead env i buffer block s).2.1
        = ((pnd.slotFor i).map fun j => ((pnd.dirList 0).list j).encode ++ buffer.drop 64).getD buffer := by
  obtain ⟨hv, ht⟩ := dir_eq_some.mp hd
  obtain ⟨hvp, htp⟩ := dir_eq_some.mp hp
  obtain ⟨n, hn, rfl⟩ := Option.map_eq_some_iff.mp hv
  obtain ⟨pn, hpn, rfl⟩ := Option.map_eq_some_iff.mp hvp
  have htf : n.type ≠ fsRegularFile := by
    rw [show n.type = fsDirectory from ht]
    decide
  -- the directory, its first block, its parent, and the first block of that
  obtain ⟨x1, h1⟩ := getINode_some hinv.log he env.node hn
  obtain ⟨x2, h2⟩ := readDirList_first hinv hn ht env.dirList x1
  obtain ⟨x3, h3⟩ := getINode_some (hinv.log.seek x2) he env.node hpn
  obtain ⟨x4, h4⟩ := readDirList_first hinv hpn htp env.dirList x3
  have hpair : (((s.node n).dirList 0).list 1).pair = q := by rw [slot_eq_dirList hup]
  rw [fsRead, h1]
  dsimp only
  rw [if_neg (by decide), if_neg htf]
  unfold readParentEntry
  rw [h2]
  dsimp only
  rw [hpair, h3]
  dsimp only
  rw [seek_seek, h4]
  dsimp only
  rw [← Node.slotFor]
  cases (s.node pn).slotFor i with
  | none => exact ⟨rfl, rfl⟩
  | some j => exact ⟨rfl, rfl⟩

/-! ## What it is -/

theorem View.Parent.root (hp : V.Parent 0 q) : q = 0 := by
  rcases hp with ⟨-, rfl⟩ | ⟨hne, -⟩
  · rfl
  · exact absurd rfl hne

/-- A slot of the parent that names the directory is its entry, and not a dot. -/
theorem DirTree.beyond_of_pair (h : DirTree V) (hs : Sound V) (hd : V.dir i = some nd) (hi : i ≠ 0)
    (hpar : V.Parent i q) (hp : V.dir q = some pnd) (hu : pnd.Used 0 j e) (he : e.pair = i) :
    Beyond 0 j := by
  have hnode : V i ≠ none := by
    rw [(dir_eq_some.mp hd).1]
    exact Option.some_ne_none _
  obtain ⟨hc, -⟩ | ⟨-, hup⟩ := hpar
  · exact absurd hc hi
  by_contra hb
  obtain ⟨-, rfl | rfl⟩ := not_beyond hb
  · -- `.` of the parent names the parent, which is not below itself
    have hdot := congrArg FsDir.pair (used_unique hu (h.used_dot hs hp))
    rw [he] at hdot
    have hdot' : i = q := hdot
    subst hdot'
    exact h.tree.acyclic hnode (TransGen.single hup)
  · obtain ⟨r, hur, hpar⟩ := h.used_dotdot hs hp
    have hdotdot := congrArg FsDir.pair (used_unique hu hur)
    rw [he] at hdotdot
    have hdotdot' : i = r := hdotdot
    subst hdotdot'
    obtain ⟨-, hc⟩ | ⟨-, hup'⟩ := hpar
    · exact hi hc
    · exact h.tree.acyclic hnode (TransGen.head hup (TransGen.single hup'))

/-- The slot that is found holds the entry of the directory. -/
theorem DirTree.listed_of_slotFor (h : DirTree V) (hs : Sound V) (hd : V.dir i = some nd)
    (hpar : V.Parent i q) (hp : V.dir q = some pnd) (hf : pnd.slotFor i = some j) :
    V.Listed i ((pnd.dirList 0).list j) ∧ V.ListedFirst i := by
  obtain ⟨hvp, htp⟩ := dir_eq_some.mp hp
  obtain ⟨e, hu, hlist, he⟩ := slotFor_some ((hs.node hvp).first htp) hf
  rw [hlist]
  by_cases hi : i = 0
  · subst hi
    obtain rfl := hpar.root
    refine ⟨Or.inl ⟨rfl, ?_⟩, Or.inl rfl⟩
    -- no entry names the root, so this is a dot
    have hb : ¬Beyond 0 j := fun hb => h.pair_ne_zero ⟨pnd, hp, hu, hb⟩ he
    obtain ⟨-, rfl | rfl⟩ := not_beyond hb
    · exact Or.inl (used_unique hu (h.used_dot hs hp))
    · obtain ⟨r, hur, hpar'⟩ := h.used_dotdot hs hp
      obtain rfl := hpar'.root
      exact Or.inr (used_unique hu hur)
  · have hentry : V.Entry q 0 j e := ⟨pnd, hp, hu, h.beyond_of_pair hs hd hi hpar hp hu he⟩
    exact ⟨Or.inr ⟨hi, q, 0, j, hpar, hentry, he⟩, Or.inr ⟨q, j, e, hentry, he⟩⟩

/-- And an entry in the first block is found. -/
theorem DirTree.slotFor_ne_none (h : DirTree V) (hs : Sound V) (hpar : V.Parent i q)
    (hp : V.dir q = some pnd) (hl : V.ListedFirst i) : pnd.slotFor i ≠ none := by
  intro hf
  rcases hl with rfl | ⟨p, j, e, hentry, rfl⟩
  · obtain rfl := hpar.root
    exact slotFor_none hf (h.used_dot hs hp) rfl
  · rcases hpar with ⟨hc, -⟩ | ⟨-, x, e', hentry', hpair⟩
    · exact h.pair_ne_zero hentry hc
    · obtain ⟨rfl, -, -⟩ := h.once hentry hentry' hpair
      obtain ⟨pnd', hp', hu, -⟩ := hentry
      rw [hp] at hp'
      cases hp'
      exact slotFor_none hf hu rfl

/--
**Reading a directory.** In every run from a new image without an `fs_unlink` of `.` or
`..`, `fs_read` of a directory returns 0 and the entry under which its parent lists it
exactly if that entry is in the first block of the parent. The root is always found.
-/
theorem read_dir_iff {s : State} (hr : Reachable LeavesDots s) {i : Int32} {nd : Node}
    (hd : s.view.dir i = some nd) {env : Env} (he : env.dest = .caller) (buffer : Buffer) (block : Int32) :
    ((fsRead env i buffer.bytes block s).1 = 0
        ∧ ∃ e, s.view.Listed i e ∧ (fsRead env i buffer.bytes block s).2.1.take 64 = e.encode)
      ↔ s.view.ListedFirst i := by
  have hinv := inv_reachable hr
  have h : DirTree s.view := dirTree_reachable (fun _ _ => LeavesDots.keeps) hr
  obtain ⟨q, hup, hpar⟩ := h.up hd
  obtain ⟨pnd, hp⟩ := h.dir_parent hpar
  obtain ⟨hcode, hbytes⟩ := fsRead_dir hinv he hd hup hp buffer.bytes block
  rw [hcode, hbytes]
  cases hf : pnd.slotFor i with
  | none =>
      constructor
      · rintro ⟨hc, -⟩
        exact absurd hc (by decide)
      · intro hl
        exact absurd hf (h.slotFor_ne_none hinv.sound hpar hp hl)
  | some j =>
      obtain ⟨hlisted, hfirst⟩ := h.listed_of_slotFor hinv.sound hd hpar hp hf
      refine ⟨fun _ => hfirst, fun _ => ⟨rfl, _, hlisted, ?_⟩⟩
      rw [Option.map_some, Option.getD_some]
      exact List.take_left' (FsDir.length_encode _)

theorem read_dir_root : ∃ s : State, fsInit sampleEnv none true [] = some s
    ∧ (fsRead sampleEnv 0 (List.replicate 4096 0) 0 s).1 = 0 := by
  obtain ⟨s, e, hinit, he, he', hl, hv⟩ := @fsInit_level sampleEnv rfl
  have hlen := hl.len
  have hr : Reachable LeavesDots s := Reachable.init rfl hinit (by omega)
  have hdir : s.view.dir 0 = some (newDir 0 0) := by
    rw [hv]
    exact dir_update_self rfl
  exact ⟨s, hinit, ((read_dir_iff hr hdir rfl ⟨List.replicate 4096 0, List.length_replicate⟩ 0).mpr
    (Or.inl rfl)).1⟩

/-! ## A directory in the second block -/

/-- The names `0`, `1` and so on. -/
def numbered (n : Nat) : CStr := ⟨[UInt8.ofNat (48 + n % 64)], by
  have hne : UInt8.ofNat (48 + n % 64) ≠ 0 := by
    intro hc
    have hnat := congrArg UInt8.toNat hc
    rw [UInt8.toNat_ofNat_of_lt' (by show 48 + n % 64 < 256; omega)] at hnat
    have hzero : (0 : UInt8).toNat = 0 := rfl
    omega
  simpa using hne.symm⟩

theorem numbered_inj {m n : Nat} (hm : m < 64) (hn : n < 64) (h : (numbered m).chars = (numbered n).chars) :
    m = n := by
  have hnat := congrArg UInt8.toNat (List.cons.inj h).1
  rw [UInt8.toNat_ofNat_of_lt' (by show 48 + m % 64 < 256; omega),
    UInt8.toNat_ofNat_of_lt' (by show 48 + n % 64 < 256; omega)] at hnat
  omega

/-- The slots of the first block that hold an entry. -/
def Node.usedFirst (nd : Node) : Finset (Fin 64) :=
  Finset.univ.filter fun j => ¬((nd.dirList 0).list j).pair < 0

/-- The root after `n` files were made in it: their entries are all in its first block. -/
structure Filled (V : View) (n : Nat) (nd : Node) : Prop where
  dir : V.dir 0 = some nd
  first : nd.blocks 0 ≠ none
  second : nd.blocks 1 = none
  count : nd.usedFirst.card = 2 + n
  names : ∀ {b j e}, nd.Used b j e → e.text = dot.chars ∨ e.text = dotdot.chars
    ∨ ∃ m < n, e.text = (numbered m).chars
  rest : ∀ m, n < m → m < 4096 → V (Int32.ofNat m) = none

/-- Where there is room in the first block, that is where an entry goes. -/
theorem free_first (hb : nd.blocks 0 ≠ none) (h : ∃ j, ((nd.dirList 0).list j).pair < 0) :
    ∃ j, nd.free = some (0, j) := by
  obtain ⟨bs, hbs⟩ := Option.ne_none_iff_exists'.mp hb
  have hlist : nd.dirList 0 = FsDirList.decode bs := by rw [Node.dirList, hbs]
  rw [hlist] at h
  obtain ⟨j, hj⟩ := h
  rw [Node.free, show List.finRange 14 = 0 :: (List.finRange 13).map Fin.succ from List.finRange_succ,
    Node.freeIn, hbs]
  dsimp only
  cases hf : (List.finRange 64).find? fun j => decide (((FsDirList.decode bs).list j).pair < 0) with
  | some j' => exact ⟨j', rfl⟩
  | none => exact absurd (decide_eq_true hj) (List.find?_eq_none.mp hf j (List.mem_finRange j))

theorem dirList_setSlot (nd : Node) (b : Fin 14) (j : Fin 64) (e : FsDir) :
    (nd.setSlot b j e).dirList b = (nd.dirList b).set j e := by
  rw [Node.dirList, Node.setSlot, setBlock_blocks, if_pos rfl]
  exact FsDirList.decode_encode _

theorem usedFirst_setSlot (hj : ((nd.dirList 0).list j).pair < 0) (he : ¬e.pair < 0) :
    (nd.setSlot 0 j e).usedFirst.card = nd.usedFirst.card + 1 := by
  have hnot : j ∉ nd.usedFirst := by
    unfold Node.usedFirst
    rw [Finset.mem_filter]
    exact fun hc => hc.2 hj
  have hins : (nd.setSlot 0 j e).usedFirst = insert j nd.usedFirst := by
    ext j'
    unfold Node.usedFirst
    rw [Finset.mem_insert, Finset.mem_filter, Finset.mem_filter, dirList_setSlot]
    show j' ∈ Finset.univ ∧ ¬(if j' = j then e else (nd.dirList 0).list j').pair < 0 ↔ _
    by_cases hjj : j' = j
    · rw [if_pos hjj]
      exact ⟨fun _ => Or.inl hjj, fun _ => ⟨Finset.mem_univ _, he⟩⟩
    · rw [if_neg hjj]
      exact ⟨Or.inr, fun hc => hc.resolve_left hjj⟩
  rw [hins, Finset.card_insert_of_notMem hnot]

section Fill

variable {n : Nat}

/-- The next name is new. -/
theorem Filled.lookup (h : Filled V n nd) (hn : n < 64) : V.lookup 0 (numbered n) = none := by
  rw [lookup_none h.dir]
  intro b j e hu htext
  have htext' : e.text = (numbered n).chars := htext
  have hchar : (UInt8.ofNat (48 + n % 64)).toNat = 48 + n % 64 :=
    UInt8.toNat_ofNat_of_lt' (by show 48 + n % 64 < 256; omega)
  rcases h.names hu with hdot | hdot | ⟨m, hm, hdot⟩
  · rw [hdot] at htext'
    have hc := congrArg UInt8.toNat (List.cons.inj htext').1
    rw [hchar] at hc
    have h46 : (46 : UInt8).toNat = 46 := rfl
    omega
  · rw [hdot] at htext'
    exact absurd (congrArg List.length htext') (by show ¬(2 = 1); omega)
  · rw [hdot] at htext'
    have heq := numbered_inj (by omega) hn htext'
    omega

/-- There is an inode number left, and not a high one. -/
theorem Filled.nextId (h : Filled V n nd) (hn : n < 64) :
    ∃ m ≤ n + 1, V.nextId = some (Int32.ofNat m) := by
  have hfree : V (Int32.ofNat (n + 1)) = none := h.rest (n + 1) (by omega) (by omega)
  cases hk : V.nextId with
  | none => exact absurd hfree (nextId_none.mp hk (n + 1) (by show n + 1 < 4096; omega))
  | some k =>
      obtain ⟨m, -, rfl, -, hleast⟩ := nextId_some hk
      refine ⟨m, ?_, rfl⟩
      by_contra hlt
      exact hleast (n + 1) (by omega) hfree

theorem Filled.exists_free (h : Filled V n nd) (hn : n < 62) : ∃ j, ((nd.dirList 0).list j).pair < 0 := by
  by_contra hno
  have hcount := h.count
  have hall : nd.usedFirst = Finset.univ :=
    Finset.filter_true_of_mem fun j _ => fun hj => hno ⟨j, hj⟩
  rw [hall, Finset.card_univ, Fintype.card_fin] at hcount
  omega

theorem ofNat_ne_zero {m : Nat} (hm : m < 4096) (hne : 0 < m) : Int32.ofNat m ≠ 0 := by
  intro hc
  have hint := congrArg Int32.toInt hc
  rw [toInt_ofNat_of_range (by omega)] at hint
  have hzero : (0 : Int32).toInt = 0 := rfl
  omega

theorem ofNat_ne {m m' : Nat} (hm : m < 4096) (hm' : m' < 4096) (hne : m ≠ m') :
    Int32.ofNat m ≠ Int32.ofNat m' := by
  intro hc
  have hint := congrArg Int32.toInt hc
  rw [toInt_ofNat_of_range (by omega), toInt_ofNat_of_range (by omega)] at hint
  omega

/-- One more file. -/
theorem Filled.next (h : Filled V n nd) (hn : n < 62) : ∃ V' nd',
    V.create 0 1 (numbered n) = (0, some V') ∧ Filled V' (n + 1) nd' := by
  obtain ⟨m, hm, hk⟩ := h.nextId (by omega)
  obtain ⟨j, hf⟩ := free_first h.first (h.exists_free hn)
  have hinum := inum_nextId hk
  have hpair : ((nd.dirList 0).list j).pair < 0 := freeIn_some hf
  have ht : nd.type = fsDirectory := (dir_eq_some.mp h.dir).2
  have hcard : (nd.setSlot 0 j ⟨strncpy (numbered n), Int32.ofNat m⟩).usedFirst.card
      = nd.usedFirst.card + 1 := usedFirst_setSlot hpair hinum.not_neg
  refine ⟨_, nd.setSlot 0 j ⟨strncpy (numbered n), Int32.ofNat m⟩,
    create_new (h.lookup (by omega)) h.dir hk hf, ?_⟩
  constructor
  · exact dir_update_self ht
  · rw [Node.setSlot, setBlock_blocks, if_pos rfl]
    exact Option.some_ne_none _
  · rw [Node.setSlot, setBlock_blocks, if_neg (by decide)]
    exact h.second
  · rw [hcard, h.count]
    omega
  · intro b j' e hu
    rcases used_setSlot.mp hu with ⟨-, -, rfl, -⟩ | ⟨-, hu⟩
    · exact Or.inr (Or.inr ⟨n, by omega, text_strncpy ..⟩)
    · rcases h.names hu with hdot | hdot | ⟨m', hm', hdot⟩
      · exact Or.inl hdot
      · exact Or.inr (Or.inl hdot)
      · exact Or.inr (Or.inr ⟨m', by omega, hdot⟩)
  · intro m' hlt hlt'
    rw [View.link, Function.update_of_ne (ofNat_ne_zero hlt' (by omega)),
      Function.update_of_ne (ofNat_ne hlt' (by omega) (by omega))]
    exact h.rest m' (by omega) hlt'

/-- Once the first block is full, an entry goes elsewhere. -/
theorem Filled.free_full (h : Filled V 62 nd) : ∃ b j, nd.free = some (b, j) ∧ b ≠ 0 := by
  cases hf : nd.free with
  | none =>
      obtain ⟨e, hslot, -⟩ := free_none.mp hf 1 0
      rw [Node.slot, h.second] at hslot
      cases hslot
  | some x =>
      obtain ⟨b, j⟩ := x
      refine ⟨b, j, rfl, ?_⟩
      rintro rfl
      have hpair : ((nd.dirList 0).list j).pair < 0 := freeIn_some hf
      -- all of the 64 slots are used
      have hall : nd.usedFirst = Finset.univ := by
        refine Finset.eq_univ_of_card _ ?_
        rw [h.count, Fintype.card_fin]
      have hmem := Finset.mem_univ j
      rw [← hall] at hmem
      exact (Finset.mem_filter.mp hmem).2 hpair

theorem filled_newDir : Filled (Function.update (fun _ => none) 0 (some (newDir 0 0))) 0 (newDir 0 0) where
  dir := dir_update_self rfl
  first := by
    rw [newDir, setBlock_blocks, if_pos rfl]
    exact Option.some_ne_none _
  second := by
    rw [newDir, setBlock_blocks, if_neg (by decide)]
  count := by
    have hused : (newDir 0 0).usedFirst = {0, 1} := by
      have hlist : (newDir 0 0).dirList 0 = newDirList 0 0 := by
        rw [Node.dirList, newDir, setBlock_blocks, if_pos rfl]
        exact FsDirList.decode_encode _
      unfold Node.usedFirst
      rw [hlist]
      decide
    rw [hused]
    rfl
  names {b j e} hu := by
    obtain ⟨-, ⟨-, rfl, -⟩ | ⟨-, rfl, -⟩⟩ := used_newDir.mp hu
    · exact Or.inl (text_strncpy ..)
    · exact Or.inr (Or.inl (text_strncpy ..))
  rest m hm hm' := by
    rw [Function.update_of_ne (ofNat_ne_zero hm' hm)]

/-- A server whose clients have made `n` files. -/
theorem reachable_filled : ∀ n : Nat, n ≤ 62 → ∃ s nd e, Reachable LeavesDots s ∧ 1028 ≤ e ∧ e ≤ 5252 + 8448 * (n : Int)
    ∧ Level s e ∧ Filled s.view n nd := by
  intro n
  induction n with
  | zero =>
      intro _
      obtain ⟨s, e, hr, he, he', hl, hv⟩ := @reachable_start sampleEnv LeavesDots rfl
      exact ⟨s, newDir 0 0, e, hr, he, by omega, hl, by rw [hv]; exact filled_newDir⟩
  | succ n ih =>
      intro hn
      obtain ⟨s, nd, e, hr, he, he', hl, hf⟩ := ih (by omega)
      obtain ⟨V', nd', hcreate, hf'⟩ := hf.next (by omega)
      obtain ⟨hst, e1, hle, hle', hl1⟩ := @step_of_level sampleEnv s LeavesDots e hl he (by omega) rfl
        (.create 0 1 (numbered n)) (show Inum 0 by decide) trivial
      have hlen := hl1.len
      obtain ⟨size, hview⟩ := (@exec_effect sampleEnv s (inv_reachable hr) rfl (.create 0 1 (numbered n))
        (show Inum 0 by decide) (by omega)).view
      rw [Op.effect, hcreate, Option.getD_some] at hview
      exact ⟨_, nd', e1, hr.tail hst, by omega, by omega, hl1, by rw [hview]; exact hf'⟩

/-- A directory that is made when the first block of the root is full. -/
theorem Filled.makeDir (h : Filled V 62 nd) : ∃ k V' b j e, V.create 0 fsDirectory (numbered 62) = (0, some V')
    ∧ V'.dir k = some (newDir k 0) ∧ V'.Entry 0 b j e ∧ e.pair = k ∧ b ≠ 0 := by
  obtain ⟨m, -, hk⟩ := h.nextId (by omega)
  obtain ⟨b, j, hf, hb⟩ := h.free_full
  have ht : nd.type = fsDirectory := (dir_eq_some.mp h.dir).2
  have hinum := inum_nextId hk
  obtain ⟨-, -, -, hunused, -⟩ := nextId_some hk
  have hne : Int32.ofNat m ≠ 0 := by
    intro hc
    rw [hc, (dir_eq_some.mp h.dir).1] at hunused
    cases hunused
  have hcreate := @create_new V nd 0 (numbered 62) fsDirectory _ b j (h.lookup (by omega)) h.dir hk hf
  rw [if_pos rfl] at hcreate
  refine ⟨_, _, b, j, ⟨strncpy (numbered 62), Int32.ofNat m⟩, hcreate, ?_, ?_, rfl, hb⟩
  · rw [View.link, dir_update_of_ne hne]
    exact dir_update_self rfl
  · exact ⟨_, dir_update_self ht, used_setSlot.mpr (Or.inl ⟨rfl, rfl, rfl, hinum.not_neg⟩),
      fun hc => absurd hc hb⟩

end Fill

/-- The root lists a directory that `fs_read` does not find. -/
theorem read_dir_missed : ∃ (s : State) (k : Int32), Reachable LeavesDots s
    ∧ s.view.dir k = some (newDir k 0) ∧ (∃ x, s.view.edge 0 x k)
    ∧ ∀ (buffer : Buffer) (block : Int32), (fsRead sampleEnv k buffer.bytes block s).1 = -1 := by
  obtain ⟨s, nd, e, hr, he, he', hl, hf⟩ := reachable_filled 62 (Nat.le_refl _)
  obtain ⟨k, V', b, j, d, hcreate, hdir, hentry, hpair, hb⟩ := hf.makeDir
  obtain ⟨hst, e1, hle, hle', hl1⟩ := @step_of_level sampleEnv s LeavesDots e hl he (by omega) rfl
    (.create 0 fsDirectory (numbered 62)) (show Inum 0 by decide) trivial
  have hlen := hl1.len
  obtain ⟨size, hview⟩ := (@exec_effect sampleEnv s (inv_reachable hr) rfl
    (.create 0 fsDirectory (numbered 62)) (show Inum 0 by decide) (by omega)).view
  rw [Op.effect, hcreate, Option.getD_some] at hview
  have hr1 := hr.tail hst
  generalize (exec sampleEnv s (.create 0 fsDirectory (numbered 62))).2 = s1 at hview hr1
  subst hview
  have h : DirTree s1.view := dirTree_reachable (fun _ _ => LeavesDots.keeps) hr1
  have hinv := inv_reachable hr1
  have hk : k ≠ 0 := hpair ▸ h.pair_ne_zero hentry
  refine ⟨s1, k, hr1, hdir, ⟨(b, j), d, hentry, hpair⟩, fun buffer block => ?_⟩
  obtain ⟨nd', hroot, -⟩ := id hentry
  have hup : (newDir k 0).slot 0 1 = some ⟨strncpy dotdot, 0⟩ := by
    rw [slot_newDir]
    rfl
  have hpar : s1.view.Parent k 0 := Or.inr ⟨hk, (b, j), d, hentry, hpair⟩
  obtain ⟨hcode, -⟩ := @fsRead_dir sampleEnv s1 k 0 _ nd' hinv rfl hdir hup hroot buffer.bytes block
  rw [hcode]
  cases hslot : nd'.slotFor k with
  | none => rfl
  | some j' =>
      -- it would be listed twice
      rcases (h.listed_of_slotFor hinv.sound hdir hpar hroot hslot).2 with hc | ⟨p, j', d', hentry', hpair'⟩
      · exact absurd hc hk
      · exact absurd (h.once hentry hentry' (hpair'.trans hpair.symm)).2.1 hb

end Cs537.Fs
