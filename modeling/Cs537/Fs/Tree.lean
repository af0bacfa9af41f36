import Cs537.Lib.Tree
import Cs537.Fs.Growth

/-!
# The directory tree

Directories form a tree under inode 0. What ties the four scans of `fs.c` together is
that the first two slots of a directory hold its dots: `deleteINode` skips these slots
by position, `fs_create` must not find them free, and `fs_unlink` goes by name.

A client can break this. `fs_unlink` accepts the names `.` and `..`, and in a
directory that is empty apart from its dots it removes the dot it was given. The tree
survives as long as that does not happen, and exactly as long.
-/

namespace Cs537.Fs

open Lib Relation

variable {env : Env} {s s' : State} {i k p q : Int32} {name : CStr} {V V' : View} {nd child : Node}
  {b b' : Fin 14} {j j' : Fin 64} {d e : FsDir}

/-! ## Entries -/

/-- A slot that is not one of the two for the dots. -/
def Beyond (b : Fin 14) (j : Fin 64) : Prop := b = 0 → 2 ≤ j

/-- An entry of the directory `p` other than its dots. -/
def View.Entry (V : View) (p : Int32) (b : Fin 14) (j : Fin 64) (d : FsDir) : Prop :=
  ∃ nd, V.dir p = some nd ∧ nd.Used b j d ∧ Beyond b j

/-- The entry of `p` at `x` names `c`. -/
def View.edge (V : View) (p : Int32) (x : Fin 14 × Fin 64) (c : Int32) : Prop :=
  ∃ d, V.Entry p x.1 x.2 d ∧ d.pair = c

/-- The directory that has the entry for `d`; the root is its own parent. -/
def View.Parent (V : View) (d q : Int32) : Prop :=
  d = 0 ∧ q = 0 ∨ d ≠ 0 ∧ ∃ x, V.edge q x d

/-- One step up by `..`. -/
def View.Up (V : View) (d q : Int32) : Prop :=
  ∃ nd, V.dir d = some nd ∧ nd.slot 0 1 = some ⟨strncpy dotdot, q⟩

/-- Names are used once. -/
def Node.Distinct (nd : Node) : Prop :=
  ∀ b j d b' j' d', nd.Used b j d → nd.Used b' j' d' → d.text = d'.text → b = b' ∧ j = j'

/-- The root is a directory, and the dots of every directory are in place. -/
structure Dotted (V : View) : Prop where
  root : ∃ nd, V.dir 0 = some nd
  self : ∀ {d nd}, V.dir d = some nd → nd.slot 0 0 = some ⟨strncpy dot, d⟩
  up : ∀ {d nd}, V.dir d = some nd → ∃ q, nd.slot 0 1 = some ⟨strncpy dotdot, q⟩ ∧ V.Parent d q

/-- The invariant. -/
structure DirTree (V : View) : Prop extends Dotted V where
  distinct : ∀ {p nd}, V.dir p = some nd → nd.Distinct
  tree : IsTree 0 (fun c => V c ≠ none) V.edge

/-- No two entries name one inode. -/
theorem DirTree.once (h : DirTree V) (he : V.Entry p b j d) (he' : V.Entry q b' j' e)
    (heq : e.pair = d.pair) : p = q ∧ b = b' ∧ j = j' := by
  have hd : V.edge p (b, j) d.pair := ⟨d, he, rfl⟩
  have hd' : V.edge q (b', j') d.pair := ⟨e, he', heq⟩
  obtain ⟨hpq, hx⟩ := h.tree.once hd hd'
  cases hx
  exact ⟨hpq, rfl, rfl⟩

/-- No entry names the root. -/
theorem DirTree.pair_ne_zero (h : DirTree V) (he : V.Entry p b j d) : d.pair ≠ 0 := by
  intro hc
  have hd : V.edge p (b, j) 0 := ⟨d, he, hc⟩
  exact h.tree.not_root hd

theorem used_unique (h : nd.Used b j d) (h' : nd.Used b j e) : d = e := by
  have heq := h.1.symm.trans h'.1
  exact Option.some.inj heq

/-- A slot is kept when another one is written. -/
theorem slot_setSlot_of_ne (hne : ¬(b' = b ∧ j' = j)) (h : nd.slot b' j' = some e) :
    (nd.setSlot b j d).slot b' j' = some e := by
  rw [slot_setSlot]
  split
  · rename_i hb
    subst hb
    rw [if_neg fun hj => hne ⟨rfl, hj⟩, slot_eq_dirList h]
  · exact h

theorem distinct_newDir : (newDir k p).Distinct := by
  intro b j d b' j' d' h h' heq
  obtain ⟨rfl, hj⟩ := used_newDir.mp h
  obtain ⟨rfl, hj'⟩ := used_newDir.mp h'
  refine ⟨rfl, ?_⟩
  rcases hj with ⟨rfl, rfl, -⟩ | ⟨rfl, rfl, -⟩ <;> rcases hj' with ⟨rfl, rfl, -⟩ | ⟨rfl, rfl, -⟩
  · rfl
  · rw [text_strncpy, text_strncpy] at heq
    exact absurd heq (by decide)
  · rw [text_strncpy, text_strncpy] at heq
    exact absurd heq (by decide)
  · rfl

/-- A slot may be given a name that is not in use. -/
theorem Node.Distinct.setSlot (h : nd.Distinct) (hnew : ∀ b j e, nd.Used b j e → e.text ≠ d.text) :
    (nd.setSlot b j d).Distinct := by
  intro b1 j1 d1 b2 j2 d2 h1 h2 heq
  rcases used_setSlot.mp h1 with ⟨rfl, rfl, rfl, -⟩ | ⟨-, hu1⟩
  · rcases used_setSlot.mp h2 with ⟨rfl, rfl, rfl, -⟩ | ⟨-, hu2⟩
    · exact ⟨rfl, rfl⟩
    · exact absurd heq.symm (hnew _ _ _ hu2)
  · rcases used_setSlot.mp h2 with ⟨rfl, rfl, rfl, -⟩ | ⟨-, hu2⟩
    · exact absurd heq (hnew _ _ _ hu1)
    · exact h _ _ _ _ _ _ hu1 hu2 heq

theorem used_clear : (nd.setSlot b j unused).Used b' j' e ↔ ¬(b' = b ∧ j' = j) ∧ nd.Used b' j' e := by
  rw [used_setSlot]
  refine ⟨?_, Or.inr⟩
  rintro (⟨-, -, -, hneg⟩ | h)
  · exact absurd (by decide : (-1 : Int32) < 0) hneg
  · exact h

theorem Node.Distinct.clear (h : nd.Distinct) : (nd.setSlot b j unused).Distinct := by
  intro b1 j1 d1 b2 j2 d2 h1 h2 heq
  exact h _ _ _ _ _ _ (used_clear.mp h1).2 (used_clear.mp h2).2 heq

theorem Inum.not_neg (h : Inum i) : ¬i < 0 := by
  obtain ⟨hpos, -⟩ := h
  rw [Int32.lt_iff_toInt_lt]
  have h0 : (0 : Int32).toInt = 0 := rfl
  omega

/-- What `deleteINode` tests: the directory has no entries but its dots. -/
theorem removable_iff (hs : Sound V) : V.removable k = true ↔ ∀ b j d, ¬V.Entry k b j d := by
  rw [View.removable]
  cases hd : V.dir k with
  | none =>
      refine ⟨fun _ b j d hent => ?_, fun _ => rfl⟩
      obtain ⟨nd, hd', -⟩ := hent
      rw [hd] at hd'
      cases hd'
  | some nd =>
      dsimp only
      rw [Option.isNone_iff_eq_none, find_none]
      constructor
      · rintro h b j d ⟨nd', hd', hu, hbeyond⟩
        rw [hd] at hd'
        cases hd'
        have hocc : occupied b j d = true := by
          rw [occupied, Bool.and_eq_true, decide_eq_true_eq]
          refine ⟨?_, fun hneg => hu.2 (by rw [hneg]; decide)⟩
          split
          · rename_i hb
            exact decide_eq_true (hbeyond hb)
          · rfl
        rw [h b j d hu.1] at hocc
        cases hocc
      · intro h b j d hslot
        by_contra hocc
        rw [Bool.not_eq_false, occupied, Bool.and_eq_true, decide_eq_true_eq] at hocc
        obtain ⟨hpos, hne⟩ := hocc
        refine h b j d ⟨nd, hd, ⟨hslot, ?_⟩, fun hb => ?_⟩
        · -- a negative pair is -1 in every directory
          obtain ⟨hv, ht⟩ := dir_eq_some.mp hd
          rcases (hs.node hv).pairs ht hslot with hneg | hin
          · exact absurd hneg hne
          · exact hin.not_neg
        · rw [if_pos hb] at hpos
          exact of_decide_eq_true hpos

/-! ## Directories after a change -/

theorem dir_update_self (ht : nd.type = fsDirectory) : View.dir (Function.update V p (some nd)) p = some nd :=
  dir_eq_some.mpr ⟨Function.update_self .., ht⟩

theorem dir_update_of_ne {x : Option Node} (hne : q ≠ p) : View.dir (Function.update V p x) q = V.dir q := by
  rw [View.dir, View.dir, Function.update_of_ne hne]

/-- The directories after `k` became `x` and the directory `p` became `nd`. -/
theorem dir_update_two {x : Option Node} {n : Node} (ht : nd.type = fsDirectory) :
    View.dir (Function.update (Function.update V k x) p (some nd)) q = some n
      ↔ q = p ∧ n = nd ∨ q ≠ p ∧ q = k ∧ x = some n ∧ n.type = fsDirectory
        ∨ q ≠ p ∧ q ≠ k ∧ V.dir q = some n := by
  by_cases hqp : q = p
  · subst hqp
    rw [dir_update_self ht, Option.some.injEq]
    constructor
    · rintro rfl
      exact Or.inl ⟨rfl, rfl⟩
    · rintro (⟨-, rfl⟩ | ⟨hc, -⟩ | ⟨hc, -⟩)
      · rfl
      · exact absurd rfl hc
      · exact absurd rfl hc
  · rw [dir_update_of_ne hqp]
    by_cases hqk : q = k
    · subst hqk
      rw [dir_eq_some, Function.update_self]
      constructor
      · intro h
        exact Or.inr (Or.inl ⟨hqp, rfl, h⟩)
      · rintro (⟨hc, -⟩ | ⟨-, -, h⟩ | ⟨-, hc, -⟩)
        · exact absurd hc hqp
        · exact h
        · exact absurd rfl hc
    · rw [dir_update_of_ne hqk]
      constructor
      · intro h
        exact Or.inr (Or.inr ⟨hqp, hqk, h⟩)
      · rintro (⟨hc, -⟩ | ⟨-, hc, -⟩ | ⟨-, -, h⟩)
        · exact absurd hc hqp
        · exact absurd hc hqk
        · exact h

theorem ne_none_update_two {x : Option Node} {c : Int32} (hp : V p ≠ none) (hkp : k ≠ p) :
    Function.update (Function.update V k x) p (some nd) c ≠ none
      ↔ c = k ∧ x ≠ none ∨ c ≠ k ∧ V c ≠ none := by
  by_cases hcp : c = p
  · subst hcp
    rw [Function.update_self]
    exact ⟨fun _ => Or.inr ⟨hkp.symm, hp⟩, fun _ => Option.some_ne_none _⟩
  · rw [Function.update_of_ne hcp]
    by_cases hck : c = k
    · subst hck
      rw [Function.update_self]
      exact ⟨fun h => Or.inl ⟨rfl, h⟩, fun h => h.elim And.right fun hc => absurd rfl hc.1⟩
    · rw [Function.update_of_ne hck]
      exact ⟨fun h => Or.inr ⟨hck, h⟩, fun h => h.elim (fun hc => absurd hc.1 hck) And.right⟩

/-! ## The dots -/

theorem Dotted.used_dot (h : Dotted V) (hs : Sound V) (hd : V.dir p = some nd) :
    nd.Used 0 0 ⟨strncpy dot, p⟩ :=
  ⟨h.self hd, (hs.inum (dir_eq_some.mp hd).1).not_neg⟩

theorem View.Parent.inum (hs : Sound V) (h : V.Parent p q) : Inum q := by
  rcases h with ⟨-, rfl⟩ | ⟨-, x, d, ⟨nd, hd, -⟩, -⟩
  · decide
  · exact hs.inum (dir_eq_some.mp hd).1

theorem Dotted.used_dotdot (h : Dotted V) (hs : Sound V) (hd : V.dir p = some nd) :
    ∃ q, nd.Used 0 1 ⟨strncpy dotdot, q⟩ ∧ V.Parent p q := by
  obtain ⟨q, hslot, hpar⟩ := h.up hd
  exact ⟨q, ⟨hslot, (hpar.inum hs).not_neg⟩, hpar⟩

theorem not_beyond (h : ¬Beyond b j) : b = 0 ∧ (j = 0 ∨ j = 1) := by
  rw [Beyond, Classical.not_imp] at h
  obtain ⟨hb, hj⟩ := h
  refine ⟨hb, ?_⟩
  omega

/-- A slot that `fs_create` finds is not one of the dots. -/
theorem free_not_used (hf : nd.free = some (b, j)) (hu : nd.Used b j d) : False := by
  have hneg := freeIn_some hf
  rw [slot_eq_dirList hu.1] at hneg
  exact hu.2 hneg

theorem Dotted.free_beyond (h : Dotted V) (hs : Sound V) (hd : V.dir p = some nd)
    (hf : nd.free = some (b, j)) : Beyond b j := by
  by_contra hb
  obtain ⟨rfl, rfl | rfl⟩ := not_beyond hb
  · exact free_not_used hf (h.used_dot hs hd)
  · obtain ⟨q, hu, -⟩ := h.used_dotdot hs hd
    exact free_not_used hf hu

/-- The dots stay when another slot is written. -/
theorem Beyond.ne_dot (h : Beyond b j) (h' : j' < 2) : ¬((0 : Fin 14) = b ∧ j' = j) := by
  rintro ⟨rfl, rfl⟩
  have := h rfl
  omega

/-! ## `fs_create` hangs a leaf -/

/-- The node `fs_create` makes. -/
def newNode (type k p : Int32) : Node := if type = fsDirectory then newDir k p else newFile

theorem newNode_dir {type : Int32} (h : (newNode type k p).type = fsDirectory) :
    newNode type k p = newDir k p := by
  rw [newNode] at h ⊢
  split
  · rfl
  · rename_i ht
    rw [if_neg ht] at h
    exact absurd h (by decide)

section Link

variable {type : Int32} (h : DirTree V) (hs : Sound V) (hd : V.dir p = some nd) (hk : V k = none)
  (hin : Inum k) (hf : nd.free = some (b, j))

include hd hk in
theorem ne_of_unused : k ≠ p := by
  rintro rfl
  rw [(dir_eq_some.mp hd).1] at hk
  cases hk

include hd in
theorem dir_link {n : Node} : (V.link p k nd (newNode type k p) b j name).dir q = some n
    ↔ q = p ∧ n = nd.setSlot b j ⟨strncpy name, k⟩
      ∨ q ≠ p ∧ q = k ∧ some (newNode type k p) = some n ∧ n.type = fsDirectory
      ∨ q ≠ p ∧ q ≠ k ∧ V.dir q = some n :=
  dir_update_two (dir_eq_some.mp hd).2

include h hs hd hk hin hf in
theorem entry_link : (V.link p k nd (newNode type k p) b j name).Entry q b' j' e
    ↔ V.Entry q b' j' e ∨ q = p ∧ b' = b ∧ j' = j ∧ e = ⟨strncpy name, k⟩ := by
  have hkp := ne_of_unused hd hk
  constructor
  · rintro ⟨n, hn, hu, hbey⟩
    rcases (dir_link hd).mp hn with ⟨rfl, rfl⟩ | ⟨-, rfl, hc, ht⟩ | ⟨-, -, hn⟩
    · rcases used_setSlot.mp hu with ⟨rfl, rfl, rfl, -⟩ | ⟨-, hu⟩
      · exact Or.inr ⟨rfl, rfl, rfl, rfl⟩
      · exact Or.inl ⟨nd, hd, hu, hbey⟩
    · -- a new directory has only its dots
      cases hc
      rw [newNode_dir ht] at hu
      obtain ⟨rfl, ⟨rfl, -⟩ | ⟨rfl, -⟩⟩ := used_newDir.mp hu
      · exact absurd (hbey rfl) (by decide)
      · exact absurd (hbey rfl) (by decide)
    · exact Or.inl ⟨n, hn, hu, hbey⟩
  · rintro (⟨n, hn, hu, hbey⟩ | ⟨rfl, rfl, rfl, rfl⟩)
    · by_cases hqp : q = p
      · subst hqp
        rw [hd] at hn
        cases hn
        -- a used slot is not the free one
        have hne : ¬(b' = b ∧ j' = j) := by
          rintro ⟨rfl, rfl⟩
          exact free_not_used hf hu
        exact ⟨_, (dir_link hd).mpr (Or.inl ⟨rfl, rfl⟩), used_setSlot.mpr (Or.inr ⟨hne, hu⟩), hbey⟩
      · have hqk : q ≠ k := by
          rintro rfl
          rw [(dir_eq_some.mp hn).1] at hk
          cases hk
        exact ⟨n, (dir_link hd).mpr (Or.inr (Or.inr ⟨hqp, hqk, hn⟩)), hu, hbey⟩
    · exact ⟨_, (dir_link hd).mpr (Or.inl ⟨rfl, rfl⟩),
        used_setSlot.mpr (Or.inl ⟨rfl, rfl, rfl, hin.not_neg⟩), h.free_beyond hs hd hf⟩

include h hs hd hk hin hf in
theorem edge_link {x : Fin 14 × Fin 64} {c : Int32} :
    (V.link p k nd (newNode type k p) b j name).edge q x c ↔ V.edge q x c ∨ q = p ∧ x = (b, j) ∧ c = k := by
  unfold View.edge
  simp only [entry_link h hs hd hk hin hf]
  constructor
  · rintro ⟨e, he | ⟨rfl, hb, hj, rfl⟩, rfl⟩
    · exact Or.inl ⟨e, he, rfl⟩
    · exact Or.inr ⟨rfl, Prod.ext hb hj, rfl⟩
  · rintro (⟨e, he, rfl⟩ | ⟨rfl, rfl, rfl⟩)
    · exact ⟨e, Or.inl he, rfl⟩
    · exact ⟨_, Or.inr ⟨rfl, rfl, rfl, rfl⟩, rfl⟩

include h hs hd hk hin hf in
theorem parent_link (hc : V.Parent i q) : (V.link p k nd (newNode type k p) b j name).Parent i q := by
  rcases hc with hc | ⟨hne, x, hx⟩
  · exact Or.inl hc
  · exact Or.inr ⟨hne, x, (edge_link h hs hd hk hin hf).mpr (Or.inl hx)⟩

include h hs hd hk hin hf in
theorem dotted_link : Dotted (V.link p k nd (newNode type k p) b j name) where
  root := by
    obtain ⟨n, hn⟩ := h.root
    by_cases h0 : (0 : Int32) = p
    · exact ⟨_, (dir_link hd).mpr (Or.inl ⟨h0, rfl⟩)⟩
    · have h0k : (0 : Int32) ≠ k := fun hc => ne_of_unused hn hk hc.symm
      exact ⟨n, (dir_link hd).mpr (Or.inr (Or.inr ⟨h0, h0k, hn⟩))⟩
  self {q n} hn := by
    rcases (dir_link hd).mp hn with ⟨rfl, rfl⟩ | ⟨-, rfl, hc, ht⟩ | ⟨-, -, hn⟩
    · exact slot_setSlot_of_ne ((h.free_beyond hs hd hf).ne_dot (by decide)) (h.self hd)
    · cases hc
      rw [newNode_dir ht, slot_newDir]
      rfl
    · exact h.self hn
  up {q n} hn := by
    rcases (dir_link hd).mp hn with ⟨rfl, rfl⟩ | ⟨-, rfl, hc, ht⟩ | ⟨-, -, hn⟩
    · obtain ⟨r, hslot, hpar⟩ := h.up hd
      exact ⟨r, slot_setSlot_of_ne ((h.free_beyond hs hd hf).ne_dot (by decide)) hslot,
        parent_link h hs hd hk hin hf hpar⟩
    · cases hc
      refine ⟨p, ?_, Or.inr ⟨?_, (b, j), ?_⟩⟩
      · rw [newNode_dir ht, slot_newDir]
        rfl
      · obtain ⟨n, hroot⟩ := h.root
        exact ne_of_unused hroot hk
      · exact (edge_link h hs hd hk hin hf).mpr (Or.inr ⟨rfl, rfl, rfl⟩)
    · obtain ⟨r, hslot, hpar⟩ := h.up hn
      exact ⟨r, hslot, parent_link h hs hd hk hin hf hpar⟩

include h hs hd hk hin hf in
theorem dirTree_link (hl : V.lookup p name = none) :
    DirTree (V.link p k nd (newNode type k p) b j name) where
  toDotted := dotted_link h hs hd hk hin hf
  distinct {q n} hn := by
    rcases (dir_link hd).mp hn with ⟨rfl, rfl⟩ | ⟨-, rfl, hc, ht⟩ | ⟨-, -, hn⟩
    · refine (h.distinct hd).setSlot fun b j e hu => ?_
      rw [text_strncpy]
      exact (lookup_none hd).mp hl b j e hu
    · cases hc
      rw [newNode_dir ht]
      exact distinct_newDir
    · exact h.distinct hn
  tree := by
    have hp : V p ≠ none := by
      rw [(dir_eq_some.mp hd).1]
      exact Option.some_ne_none _
    -- nothing hangs from a number that was free
    refine h.tree.addLeaf (fun hc => hc hk) hp (fun c => ?_) fun q y c => edge_link h hs hd hk hin hf
    rw [View.link, ne_none_update_two hp (ne_of_unused hd hk)]
    constructor
    · rintro (⟨rfl, -⟩ | ⟨-, hc⟩)
      · exact Or.inr rfl
      · exact Or.inl hc
    · rintro (hc | rfl)
      · exact Or.inr ⟨fun hck => hc (hck ▸ hk), hc⟩
      · exact Or.inl ⟨rfl, Option.some_ne_none _⟩

end Link

/-! ## `fs_unlink` takes one off -/

section Removed

variable (h : DirTree V) (hs : Sound V) (hd : V.dir p = some nd) (hu : nd.Used b j d)
  (hb : Beyond b j) (hrem : V.removable d.pair = true)

include hs hd hu hb hrem in
theorem ne_of_removable : d.pair ≠ p :=
  fun hc => (removable_iff hs).mp hrem b j d ⟨nd, hc ▸ hd, hu, hb⟩

include hd in
theorem dir_removed {n : Node} :
    View.dir (Function.update (Function.update V k none) p (some (nd.setSlot b j unused))) q = some n
      ↔ q = p ∧ n = nd.setSlot b j unused ∨ q ≠ p ∧ q ≠ k ∧ V.dir q = some n := by
  have ht : (nd.setSlot b j unused).type = fsDirectory := (dir_eq_some.mp hd).2
  rw [dir_update_two ht]
  constructor
  · rintro (hq | ⟨-, -, hc, -⟩ | hq)
    · exact Or.inl hq
    · cases hc
    · exact Or.inr hq
  · rintro (hq | hq)
    · exact Or.inl hq
    · exact Or.inr (Or.inr hq)

include h hs hd hu hb hrem in
theorem entry_removed :
    View.Entry (Function.update (Function.update V d.pair none) p (some (nd.setSlot b j unused))) q b' j' e
      ↔ V.Entry q b' j' e ∧ e.pair ≠ d.pair := by
  have hvic : V.Entry p b j d := ⟨nd, hd, hu, hb⟩
  constructor
  · rintro ⟨n, hn, hue, hbey⟩
    rcases (dir_removed hd).mp hn with ⟨rfl, rfl⟩ | ⟨hqp, -, hn⟩
    · obtain ⟨hne, hue⟩ := used_clear.mp hue
      -- no other entry names what was removed
      refine ⟨⟨nd, hd, hue, hbey⟩, fun hc => ?_⟩
      obtain ⟨-, hbb, hjj⟩ := h.once hvic ⟨nd, hd, hue, hbey⟩ hc
      exact hne ⟨hbb.symm, hjj.symm⟩
    · refine ⟨⟨n, hn, hue, hbey⟩, fun hc => ?_⟩
      obtain ⟨hpq, -⟩ := h.once hvic ⟨n, hn, hue, hbey⟩ hc
      exact hqp hpq.symm
  · rintro ⟨⟨n, hn, hue, hbey⟩, hne⟩
    by_cases hqp : q = p
    · subst hqp
      rw [hd] at hn
      cases hn
      refine ⟨_, (dir_removed hd).mpr (Or.inl ⟨rfl, rfl⟩), used_clear.mpr ⟨?_, hue⟩, hbey⟩
      rintro ⟨rfl, rfl⟩
      exact hne (congrArg FsDir.pair (used_unique hue hu))
    · have hqk : q ≠ d.pair := by
        rintro rfl
        exact (removable_iff hs).mp hrem b' j' e ⟨n, hn, hue, hbey⟩
      exact ⟨n, (dir_removed hd).mpr (Or.inr ⟨hqp, hqk, hn⟩), hue, hbey⟩

include h hs hd hu hb hrem in
theorem edge_removed {x : Fin 14 × Fin 64} {c : Int32} :
    View.edge (Function.update (Function.update V d.pair none) p (some (nd.setSlot b j unused))) q x c
      ↔ V.edge q x c ∧ c ≠ d.pair := by
  unfold View.edge
  simp only [entry_removed h hs hd hu hb hrem]
  constructor
  · rintro ⟨e, ⟨he, hne⟩, rfl⟩
    exact ⟨⟨e, he, rfl⟩, hne⟩
  · rintro ⟨⟨e, he, rfl⟩, hne⟩
    exact ⟨e, ⟨he, hne⟩, rfl⟩

include h hs hd hu hb hrem in
theorem dotted_removed :
    Dotted (Function.update (Function.update V d.pair none) p (some (nd.setSlot b j unused))) where
  root := by
    obtain ⟨n, hn⟩ := h.root
    by_cases h0 : (0 : Int32) = p
    · exact ⟨_, (dir_removed hd).mpr (Or.inl ⟨h0, rfl⟩)⟩
    · have h0k : (0 : Int32) ≠ d.pair := (h.pair_ne_zero ⟨nd, hd, hu, hb⟩).symm
      exact ⟨n, (dir_removed hd).mpr (Or.inr ⟨h0, h0k, hn⟩)⟩
  self {q n} hn := by
    rcases (dir_removed hd).mp hn with ⟨rfl, rfl⟩ | ⟨-, -, hn⟩
    · exact slot_setSlot_of_ne (hb.ne_dot (by decide)) (h.self hd)
    · exact h.self hn
  up {q n} hn := by
    -- what was removed is no directory any more
    have hqk : q ≠ d.pair := by
      rintro rfl
      rcases (dir_removed hd).mp hn with ⟨hc, -⟩ | ⟨-, hc, -⟩
      · exact ne_of_removable hs hd hu hb hrem hc
      · exact hc rfl
    have hpar : ∀ r, V.Parent q r → View.Parent
        (Function.update (Function.update V d.pair none) p (some (nd.setSlot b j unused))) q r := by
      rintro r (hc | ⟨hne, x, hx⟩)
      · exact Or.inl hc
      · exact Or.inr ⟨hne, x, (edge_removed h hs hd hu hb hrem).mpr ⟨hx, hqk⟩⟩
    rcases (dir_removed hd).mp hn with ⟨rfl, rfl⟩ | ⟨-, -, hn⟩
    · obtain ⟨r, hslot, hp⟩ := h.up hd
      exact ⟨r, slot_setSlot_of_ne (hb.ne_dot (by decide)) hslot, hpar r hp⟩
    · obtain ⟨r, hslot, hp⟩ := h.up hn
      exact ⟨r, hslot, hpar r hp⟩

include h hs hd hu hb hrem in
theorem dirTree_removed :
    DirTree (Function.update (Function.update V d.pair none) p (some (nd.setSlot b j unused))) where
  toDotted := dotted_removed h hs hd hu hb hrem
  distinct {q n} hn := by
    rcases (dir_removed hd).mp hn with ⟨rfl, rfl⟩ | ⟨-, -, hn⟩
    · exact (h.distinct hd).clear
    · exact h.distinct hn
  tree := by
    have hp : V p ≠ none := by
      rw [(dir_eq_some.mp hd).1]
      exact Option.some_ne_none _
    have hk : d.pair ≠ 0 := h.pair_ne_zero ⟨nd, hd, hu, hb⟩
    -- `deleteINode` has checked that it is one
    have hleaf : ∀ y c, ¬V.edge d.pair y c := by
      rintro y c ⟨e, he, -⟩
      exact (removable_iff hs).mp hrem _ _ e he
    refine h.tree.removeLeaf hk hleaf (fun c => ?_) fun q y c => edge_removed h hs hd hu hb hrem
    rw [ne_none_update_two hp (ne_of_removable hs hd hu hb hrem)]
    constructor
    · rintro (⟨-, hc⟩ | ⟨hne, hc⟩)
      · exact absurd rfl hc
      · exact ⟨hc, hne⟩
    · rintro ⟨hc, hne⟩
      exact Or.inr ⟨hne, hc⟩

end Removed

/-! ## Every call -/

/-- Only the directories matter, and which inodes exist. -/
theorem DirTree.congr (h : DirTree V) (hdir : ∀ q, V'.dir q = V.dir q) (hnode : ∀ c, V' c = none ↔ V c = none) :
    DirTree V' := by
  have hedge : V'.edge = V.edge := by
    funext q x c
    unfold View.edge View.Entry
    rw [hdir]
  have hn : (fun c => V' c ≠ none) = fun c => V c ≠ none :=
    funext fun c => propext (not_congr (hnode c))
  refine ⟨⟨?_, fun hd => ?_, fun hd => ?_⟩, fun hd => ?_, ?_⟩
  · rw [hdir]
    exact h.root
  · rw [hdir] at hd
    exact h.self hd
  · rw [hdir] at hd
    unfold View.Parent
    rw [hedge]
    exact h.up hd
  · rw [hdir] at hd
    exact h.distinct hd
  · rw [hn, hedge]
    exact h.tree

theorem dir_newDir {n : Node} (h : View.dir (Function.update (fun _ => none) 0 (some (newDir 0 0))) q = some n) :
    q = 0 ∧ n = newDir 0 0 := by
  obtain ⟨hv, -⟩ := dir_eq_some.mp h
  by_cases hq : q = 0
  · subst hq
    rw [Function.update_self] at hv
    exact ⟨rfl, (Option.some.inj hv).symm⟩
  · rw [Function.update_of_ne hq] at hv
    cases hv

/-- A new image has no entries but the dots of its root. -/
theorem newDir_empty (b : Fin 14) (j : Fin 64) (d : FsDir) :
    ¬View.Entry (Function.update (fun _ => none) 0 (some (newDir 0 0))) q b j d := by
  rintro ⟨n, hn, hu, hbey⟩
  obtain ⟨rfl, rfl⟩ := dir_newDir hn
  obtain ⟨hb, ⟨hj, -⟩ | ⟨hj, -⟩⟩ := used_newDir.mp hu
  · exact absurd (hbey hb) (by rw [hj]; decide)
  · exact absurd (hbey hb) (by rw [hj]; decide)

/-- A new image is a tree. -/
theorem dirTree_newDir : DirTree (Function.update (fun _ => none) 0 (some (newDir 0 0))) := by
  refine ⟨⟨⟨_, dir_update_self rfl⟩, fun hn => ?_, fun hn => ?_⟩, fun hn => ?_, IsTree.single ?_ ?_⟩
  · obtain ⟨rfl, rfl⟩ := dir_newDir hn
    rw [slot_newDir]
    rfl
  · obtain ⟨rfl, rfl⟩ := dir_newDir hn
    refine ⟨0, ?_, Or.inl ⟨rfl, rfl⟩⟩
    rw [slot_newDir]
    rfl
  · obtain ⟨rfl, rfl⟩ := dir_newDir hn
    exact distinct_newDir
  · intro c
    by_cases hc : c = 0
    · subst hc
      rw [Function.update_self]
      exact ⟨fun _ => rfl, fun _ => Option.some_ne_none _⟩
    · rw [Function.update_of_ne hc]
      exact ⟨fun h => absurd rfl h, fun h => absurd h hc⟩
  · rintro q y c ⟨e, he, -⟩
    exact newDir_empty _ _ e he

theorem eq_of_take {a c : CStr} (hc : c.chars.length < 60) (h : a.chars.take 60 = c.chars) : a = c := by
  have hlen := congrArg List.length h
  rw [List.length_take] at hlen
  rw [List.take_of_length_le (by omega)] at h
  cases a
  cases c
  cases h
  rfl

/-- A call that takes no dot away. -/
def View.KeepsDots (V : View) : Op → Prop
  | .unlink p name => name = dot ∨ name = dotdot ∧ p = 0 → V.dir p ≠ none → ∃ b j d, V.Entry p b j d
  | _ => True

/-- What such an `unlink` removes is not a dot. -/
theorem unlink_beyond (h : DirTree V) (hs : Sound V) (hok : V.KeepsDots (.unlink p name))
    (hd : V.dir p = some nd) (hu : nd.Used b j d) (htext : d.text = name.chars.take 60)
    (hrem : V.removable d.pair = true) : Beyond b j := by
  have hempty := (removable_iff hs).mp hrem
  have hne : V.dir p ≠ none := by
    rw [hd]
    exact Option.some_ne_none _
  by_contra hb
  obtain ⟨rfl, rfl | rfl⟩ := not_beyond hb
  · -- `.` names `p`, which is not empty if the call is allowed
    cases used_unique hu (h.used_dot hs hd)
    rw [text_strncpy] at htext
    obtain ⟨b, j, e, hent⟩ := hok (Or.inl (eq_of_take (by decide) htext.symm)) hne
    exact hempty b j e hent
  · obtain ⟨q, huq, hpar⟩ := h.used_dotdot hs hd
    cases used_unique hu huq
    rcases hpar with ⟨rfl, rfl⟩ | ⟨-, x, e, hent, -⟩
    · rw [text_strncpy] at htext
      obtain ⟨b, j, e, hent⟩ := hok (Or.inr ⟨eq_of_take (by decide) htext.symm, rfl⟩) hne
      exact hempty b j e hent
    · -- the parent of `p` has an entry for `p`
      exact hempty _ _ e hent

theorem dirTree_effect (h : DirTree V) (hs : Sound V) {op : Op} {size : Int32} (hok : V.KeepsDots op)
    (he : op.effect V size = some V') : DirTree V' := by
  cases op with
  | create p type name =>
      obtain ⟨nd, k, b, j, hl, hd, hk, hf, rfl⟩ := create_some he
      obtain ⟨-, -, -, hfree, -⟩ := nextId_some hk
      exact @dirTree_link k p name V nd b j type h hs hd hfree (inum_nextId hk) hf hl
  | unlink p name =>
      obtain ⟨nd, b, j, d, hd, hu, htext, -, hrem, rfl⟩ := unlink_some he
      exact dirTree_removed h hs hd hu (unlink_beyond h hs hok hd hu htext hrem) hrem
  | write i buffer b =>
      obtain ⟨nd, hv, ht, rfl⟩ := write_some he
      refine h.congr (fun q => dir_update_file hv ht ht) fun c => ?_
      by_cases hc : c = i
      · subst hc
        rw [Function.update_self, hv]
        exact ⟨fun hn => (by cases hn), fun hn => (by cases hn)⟩
      · rw [Function.update_of_ne hc]
  | read i buffer b => cases he
  | lookup p name => cases he
  | stat i m => cases he
  | fsync => cases he

theorem dirTree_step {op : Op} (h : DirTree s.view) (hs : Inv s) (hok : s.view.KeepsDots op)
    (heff : Effect s op s') : DirTree s'.view := by
  obtain ⟨size, hv⟩ := heff.view
  rw [hv]
  cases he : op.effect s.view size with
  | none => exact h
  | some V' => exact dirTree_effect h hs.sound hok he

/-- The tree in every state that calls reach which take no dot away. -/
theorem dirTree_reachable {ok : State → Op → Prop} (hok : ∀ s op, ok s op → s.view.KeepsDots op)
    (hr : Reachable ok s) : DirTree s.view := by
  induction hr with
  | init he hs hlen =>
      rw [(fsInit_fresh he hs hlen).2]
      exact dirTree_newDir
  | @tail s s' hr hst ih =>
      obtain ⟨op, -, hop, heff⟩ := step_effect (inv_reachable hr) hst
      exact dirTree_step ih (inv_reachable hr) (hok s op hop) heff

/-- The way up by entries is the way up by `..`. -/
theorem DirTree.up_of_above (h : DirTree V) (hd : V.dir p = some nd) (ha : Above V.edge p q) :
    V.Up p q := by
  obtain ⟨x, hx⟩ := ha
  obtain ⟨r, hslot, ⟨rfl, -⟩ | ⟨-, y, hy⟩⟩ := h.up hd
  · exact absurd hx h.tree.not_root
  · obtain ⟨rfl, -⟩ := h.tree.once hx hy
    exact ⟨nd, hd, hslot⟩

theorem DirTree.climbs (h : DirTree V) (hd : V.dir p = some nd) : ReflTransGen V.Up p 0 := by
  have hp : V p ≠ none := by
    rw [(dir_eq_some.mp hd).1]
    exact Option.some_ne_none _
  have hclimb := h.tree.climbs hp
  clear hp
  induction hclimb using ReflTransGen.head_induction_on generalizing nd with
  | refl => exact ReflTransGen.refl
  | @head p q ha _ ih =>
      -- what has an entry is a directory, so the way goes on
      obtain ⟨x, e, ⟨n, hn, -⟩, -⟩ := id ha
      exact ReflTransGen.head (h.up_of_above hd ha) (ih hn)

/-! ## Clients that leave the dots alone -/

/-- No `fs_unlink` of `.` or `..`. -/
def LeavesDots (_ : State) : Op → Prop
  | .unlink _ name => name ≠ dot ∧ name ≠ dotdot
  | _ => True

theorem LeavesDots.keeps {op : Op} (h : LeavesDots s op) : s.view.KeepsDots op := by
  cases op with
  | unlink p name =>
      rintro (rfl | ⟨rfl, -⟩)
      · exact absurd rfl h.1
      · exact absurd rfl h.2
  | create p type name => trivial
  | write i buffer b => trivial
  | read i buffer b => trivial
  | lookup p name => trivial
  | stat i m => trivial
  | fsync => trivial

/--
**The directory tree.** In every run from a new image without an `fs_unlink` of `.` or
`..`: inode 0 is a directory; the first two slots of every directory are its dots, and
`..` names the directory it is listed in; names are used once in a directory; every
other entry names an inode that exists; every inode but the root has exactly one such
entry; and `..` leads from every directory to the root.
-/
theorem directory_tree {s : State} (hr : Reachable LeavesDots s) :
    (∃ nd, s.view.dir 0 = some nd)
      ∧ (∀ d nd, s.view.dir d = some nd → nd.slot 0 0 = some ⟨strncpy dot, d⟩
        ∧ ∃ q, nd.slot 0 1 = some ⟨strncpy dotdot, q⟩ ∧ s.view.Parent d q)
      ∧ (∀ p nd, s.view.dir p = some nd → nd.Distinct)
      ∧ (∀ p b j d, s.view.Entry p b j d → s.view d.pair ≠ none)
      ∧ (∀ k, s.view k ≠ none → k ≠ 0 → ∃! x : Int32 × Fin 14 × Fin 64, s.view.edge x.1 x.2 k)
      ∧ (∀ d nd, s.view.dir d = some nd → ReflTransGen s.view.Up d 0) := by
  have h : DirTree s.view := dirTree_reachable (fun _ _ => LeavesDots.keeps) hr
  refine ⟨h.root, fun d nd hd => ⟨h.self hd, h.up hd⟩, fun p nd hd => h.distinct hd, ?_, ?_,
    fun d nd hd => h.climbs hd⟩
  · intro p b j d he
    have hedge : s.view.edge p (b, j) d.pair := ⟨d, he, rfl⟩
    exact h.tree.target hedge
  · intro k hk hne
    obtain ⟨p, x, hx⟩ := h.tree.named hk hne
    refine ⟨(p, x), hx, fun y hy => ?_⟩
    obtain ⟨hp, hx'⟩ := h.tree.once hy hx
    exact Prod.ext hp hx'

/-- The file `a` of a new image has one entry. -/
theorem directory_tree_sample : ∃ s : State, s.view 1 = some newFile
    ∧ ∃! x : Int32 × Fin 14 × Fin 64, s.view.edge x.1 x.2 1 := by
  obtain ⟨s, e, hr, -, -, -, hv⟩ := @reachable_file LeavesDots (fun _ => trivial)
  obtain ⟨-, -, -, -, honce, -⟩ := directory_tree hr
  refine ⟨s, hv, honce 1 ?_ (by decide)⟩
  rw [hv]
  exact Option.some_ne_none _

end Cs537.Fs
