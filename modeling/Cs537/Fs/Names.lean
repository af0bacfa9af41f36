import Cs537.Fs.Dots
import Mathlib.Data.FinEnum

/-!
# Names

What a client sees of a directory is a map from names to inode numbers. Here
`fs_lookup`, `fs_create` and `fs_unlink` are stated as operations on that map, for
clients that leave the dots alone: a lookup reads it, a create extends it by one name
and the least free number, an unlink erases one name, and a call that fails leaves the
checkpoint and the image as they are.
-/

namespace Cs537.Fs

open Lib

variable {env : Env} {s s' : State} {k p q c : Int32} {name : CStr} {V V' : View} {nd : Node} {b : Fin 14}
  {j : Fin 64} {d : FsDir} {m : List UInt8}

/-- A name a client may use: 1 to 59 bytes. -/
structure FileName extends CStr where
  pos : 0 < chars.length
  short : chars.length < 60

theorem FileName.take_chars (n : FileName) : n.chars.take 60 = n.chars :=
  List.take_of_length_le (by have := n.short; omega)

/-! ## The map of a directory -/

/-- An entry of `p`, dots included, gives `k` the name `m`. -/
def View.Named (V : View) (p : Int32) (m : List UInt8) (k : Int32) : Prop :=
  ∃ nd b j d, V.dir p = some nd ∧ nd.Used b j d ∧ d.text = m ∧ d.pair = k

open Classical in
/-- The names in `p`; there are none when `p` is not a directory. -/
noncomputable def View.names (V : View) (p : Int32) (m : List UInt8) : Option Int32 :=
  if h : ∃ k, V.Named p m k then some h.choose else none

theorem names_eq_none : V.names p m = none ↔ ∀ k, ¬V.Named p m k := by
  rw [View.names]
  split
  · rename_i h
    exact ⟨fun hc => (by cases hc), fun hc => (by obtain ⟨k, hk⟩ := h; exact absurd hk (hc k))⟩
  · rename_i h
    exact ⟨fun _ k hk => h ⟨k, hk⟩, fun _ => rfl⟩

theorem DirTree.named_unique (h : DirTree V) (hk : V.Named p m k) (hc : V.Named p m c) : k = c := by
  obtain ⟨nd, b, j, d, hd, hu, htext, rfl⟩ := hk
  obtain ⟨nd', b', j', d', hd', hu', htext', rfl⟩ := hc
  rw [hd] at hd'
  cases hd'
  obtain ⟨rfl, rfl⟩ := h.distinct hd _ _ _ _ _ _ hu hu' (htext.trans htext'.symm)
  rw [used_unique hu hu']

theorem DirTree.names_eq_some (h : DirTree V) : V.names p m = some k ↔ V.Named p m k := by
  constructor
  · intro hk
    rw [View.names] at hk
    split at hk
    · rename_i hex
      cases hk
      exact hex.choose_spec
    · cases hk
  · intro hk
    cases hn : V.names p m with
    | none => exact absurd hk (names_eq_none.mp hn k)
    | some c =>
        rw [View.names] at hn
        split at hn
        · rename_i hex
          cases hn
          rw [h.named_unique hex.choose_spec hk]
        · cases hn

/-- `lookup` reads the map. -/
theorem DirTree.lookup_eq_names (h : DirTree V) (hm : name.chars.take 60 = m) :
    V.lookup p name = V.names p m := by
  subst hm
  cases hl : V.lookup p name with
  | some k =>
      obtain ⟨nd, b, j, d, hd, -, hu, htext, hpair⟩ := lookup_some hl
      exact (h.names_eq_some.mpr ⟨nd, b, j, d, hd, hu, htext, hpair⟩).symm
  | none =>
      refine (names_eq_none.mpr ?_).symm
      rintro k ⟨nd, b, j, d, hd, hu, htext, -⟩
      exact (lookup_none hd).mp hl b j d hu htext

theorem names_ext (h : DirTree V) (h' : DirTree V') {o : Option Int32}
    (hother : ∀ x, x ≠ m → ∀ k, V'.Named p x k ↔ V.Named p x k) (hm : V'.names p m = o) :
    V'.names p = Function.update (V.names p) m o := by
  funext x
  by_cases hx : x = m
  · rw [hx, hm, Function.update_self]
  · rw [Function.update_of_ne hx]
    refine Option.ext fun k => ?_
    rw [h.names_eq_some, h'.names_eq_some, hother x hx]

/-- A new entry extends the map. -/
theorem named_link {child : Node} (hd : V.dir p = some nd) (hf : nd.free = some (b, j)) (hk : Inum k) :
    (V.link p k nd child b j name).Named p m c ↔ V.Named p m c ∨ m = name.chars.take 60 ∧ c = k := by
  have ht : (nd.setSlot b j ⟨strncpy name, k⟩).type = fsDirectory := (dir_eq_some.mp hd).2
  have hd' : (V.link p k nd child b j name).dir p = some (nd.setSlot b j ⟨strncpy name, k⟩) :=
    dir_update_self ht
  constructor
  · rintro ⟨n, b', j', e, hn, hu, rfl, rfl⟩
    rw [hd'] at hn
    cases hn
    rcases used_setSlot.mp hu with ⟨-, -, rfl, -⟩ | ⟨-, hu⟩
    · exact Or.inr ⟨text_strncpy name k, rfl⟩
    · exact Or.inl ⟨nd, b', j', e, hd, hu, rfl, rfl⟩
  · rintro (⟨n, b', j', e, hn, hu, rfl, rfl⟩ | ⟨rfl, rfl⟩)
    · rw [hd] at hn
      cases hn
      have hne : ¬(b' = b ∧ j' = j) := by
        rintro ⟨rfl, rfl⟩
        exact free_not_used hf hu
      exact ⟨_, b', j', e, hd', used_setSlot.mpr (Or.inr ⟨hne, hu⟩), rfl, rfl⟩
    · exact ⟨_, b, j, _, hd', used_setSlot.mpr (Or.inl ⟨rfl, rfl, rfl, hk.not_neg⟩),
        text_strncpy name c, rfl⟩

/-- A cleared entry erases its name. -/
theorem named_removed (hd : V.dir p = some nd) (hdist : nd.Distinct) (hu : nd.Used b j d) :
    View.Named (Function.update (Function.update V k none) p (some (nd.setSlot b j unused))) p m c
      ↔ V.Named p m c ∧ m ≠ d.text := by
  have ht : (nd.setSlot b j unused).type = fsDirectory := (dir_eq_some.mp hd).2
  constructor
  · rintro ⟨n, b', j', e, hn, hue, rfl, rfl⟩
    rw [dir_update_self ht] at hn
    cases hn
    obtain ⟨hne, hue⟩ := used_clear.mp hue
    exact ⟨⟨nd, b', j', e, hd, hue, rfl, rfl⟩, fun hc => hne (hdist _ _ _ _ _ _ hue hu hc)⟩
  · rintro ⟨⟨n, b', j', e, hn, hue, rfl, rfl⟩, hne⟩
    rw [hd] at hn
    cases hn
    refine ⟨_, b', j', e, dir_update_self ht, used_clear.mpr ⟨?_, hue⟩, rfl, rfl⟩
    rintro ⟨rfl, rfl⟩
    exact hne (congrArg FsDir.text (used_unique hue hu))

/-- A new directory has the names of its dots. -/
theorem named_newDir (hd : V.dir k = some (newDir k p)) (hk : Inum k) (hp : Inum p) :
    V.Named k m c ↔ m = dot.chars ∧ c = k ∨ m = dotdot.chars ∧ c = p := by
  constructor
  · rintro ⟨n, b, j, e, hn, hu, rfl, rfl⟩
    rw [hd] at hn
    cases hn
    obtain ⟨-, ⟨-, rfl, -⟩ | ⟨-, rfl, -⟩⟩ := used_newDir.mp hu
    · exact Or.inl ⟨text_strncpy dot k, rfl⟩
    · exact Or.inr ⟨text_strncpy dotdot p, rfl⟩
  · rintro (⟨rfl, rfl⟩ | ⟨rfl, rfl⟩)
    · exact ⟨_, 0, 0, _, hd, used_newDir.mpr ⟨rfl, Or.inl ⟨rfl, rfl, hk.not_neg⟩⟩,
        text_strncpy dot c, rfl⟩
    · exact ⟨_, 0, 1, _, hd, used_newDir.mpr ⟨rfl, Or.inr ⟨rfl, rfl, hp.not_neg⟩⟩,
        text_strncpy dotdot c, rfl⟩

/-! ## The calls -/

/-- Checkpoint and image are as before. -/
def Same (s s' : State) : Prop := s'.cp = s.cp ∧ s'.disk.file = s.disk.file

theorem Moved.same (h : Moved s s') : Same s s' := by
  obtain ⟨q, rfl⟩ := h
  exact ⟨rfl, rfl⟩

/-- The least inode number that is not in use. -/
def View.LeastUnused (V : View) (k : Int32) : Prop :=
  Inum k ∧ V k = none ∧ ∀ i, Inum i → i < k → V i ≠ none

/-- What `fs_create` of `n` in `p` returns and does. -/
structure CreateSpec (s : State) (p type : Int32) (n : List UInt8) (r : Int32) (s' : State) : Prop where
  present : s.view.names p n ≠ none → r = 0 ∧ Same s s'
  fails : r = -1 ↔ s.view.dir p = none
    ∨ s.view.names p n = none ∧ (∀ i, Inum i → s.view i ≠ none)
    ∨ s.view.names p n = none ∧ ∃ nd, s.view.dir p = some nd ∧ ∀ b j, ∃ d, nd.Used b j d
  kept : r = -1 → Same s s'
  made : s.view.names p n = none → r ≠ -1 → r = 0 ∧ ∃ k, s.view.LeastUnused k
    ∧ s'.view.names p = Function.update (s.view.names p) n (some k)
    ∧ s'.view k = some (newNode type k p)
    ∧ (type = fsDirectory →
        ∀ m c, s'.view.Named k m c ↔ m = dot.chars ∧ c = k ∨ m = dotdot.chars ∧ c = p)
    ∧ ∀ q, q ≠ p → q ≠ k → s'.view q = s.view q

/-- What `fs_unlink` of `n` in `p` returns and does. -/
structure UnlinkSpec (s : State) (p : Int32) (n : List UInt8) (r : Int32) (s' : State) : Prop where
  not_dir : s.view.dir p = none → r = -1 ∧ Same s s'
  not_empty : ∀ k, s.view.names p n = some k → (∃ b j d, s.view.Entry k b j d) → r = -1 ∧ Same s s'
  absent : s.view.dir p ≠ none → s.view.names p n = none → r = 0 ∧ Same s s'
  removed : ∀ k, s.view.names p n = some k → (∀ b j d, ¬s.view.Entry k b j d) → r = 0
    ∧ s'.view.names p = Function.update (s.view.names p) n none
    ∧ s'.view k = none
    ∧ ∀ q, q ≠ p → q ≠ k → s'.view q = s.view q

theorem inum_iff : Inum k ↔ ∃ n < bufferSize, k = Int32.ofNat n := by
  constructor
  · rintro ⟨hpos, hlt⟩
    refine ⟨k.toInt.toNat, ?_, ?_⟩
    · rw [show bufferSize = 4096 from rfl]
      omega
    · rw [← Int32.toInt_inj, toInt_ofNat_of_range (by omega)]
      omega
  · rintro ⟨n, hn, rfl⟩
    exact inum_ofNat hn

theorem least_nextId (h : V.nextId = some k) : V.LeastUnused k := by
  obtain ⟨n, hn, rfl, hfree, hleast⟩ := nextId_some h
  refine ⟨inum_ofNat hn, hfree, fun i hi hlt => ?_⟩
  obtain ⟨m, hm, rfl⟩ := inum_iff.mp hi
  rw [show bufferSize = 4096 from rfl] at hn hm
  rw [Int32.lt_iff_toInt_lt, toInt_ofNat_of_range (by omega), toInt_ofNat_of_range (by omega)] at hlt
  exact hleast m (by omega)

theorem nextId_eq_none : V.nextId = none ↔ ∀ i, Inum i → V i ≠ none := by
  rw [nextId_none]
  constructor
  · intro h i hi
    obtain ⟨n, hn, rfl⟩ := inum_iff.mp hi
    exact h n hn
  · intro h n hn
    exact h _ (inum_ofNat hn)

theorem dir_of_names (h : V.names p m ≠ none) : V.dir p ≠ none := by
  intro hd
  refine h (names_eq_none.mpr ?_)
  rintro k ⟨nd, b, j, d, hd', -⟩
  rw [hd] at hd'
  cases hd'

/-- `fs_create` in a directory that has the name already. -/
theorem createSpec_present {type : Int32} (hn : s.view.names p m ≠ none) (hs : Same s s') :
    CreateSpec s p type m 0 s' where
  present _ := ⟨rfl, hs⟩
  fails := by
    refine ⟨fun h => absurd h (by decide), ?_⟩
    rintro (hd | ⟨hc, -⟩ | ⟨hc, -⟩)
    · exact absurd hd (dir_of_names hn)
    · exact absurd hc hn
    · exact absurd hc hn
  kept h := absurd h (by decide)
  made h := absurd h hn

/-- `fs_create` that fails. -/
theorem createSpec_fails {type : Int32} (hn : s.view.names p m = none) (hs : Same s s')
    (hwhy : s.view.dir p = none ∨ s.view.nextId = none ∨ ∃ nd, s.view.dir p = some nd ∧ nd.free = none) :
    CreateSpec s p type m (-1) s' where
  present h := absurd hn h
  fails := by
    refine ⟨fun _ => ?_, fun _ => rfl⟩
    rcases hwhy with hd | hk | ⟨nd, hd, hf⟩
    · exact Or.inl hd
    · exact Or.inr (Or.inl ⟨hn, nextId_eq_none.mp hk⟩)
    · exact Or.inr (Or.inr ⟨hn, nd, hd, free_none.mp hf⟩)
  kept _ := hs
  made _ h := absurd rfl h

/-- `fs_create` that makes a node. -/
theorem createSpec_made {type : Int32} (h : DirTree s.view) (hs : Sound s.view)
    (hm : name.chars.take 60 = m) (hl : s.view.lookup p name = none) (hd : s.view.dir p = some nd)
    (hk : s.view.nextId = some k) (hf : nd.free = some (b, j))
    (hv : s'.view = s.view.link p k nd (newNode type k p) b j name) : CreateSpec s p type m 0 s' := by
  have hleast := least_nextId hk
  have hin : Inum k := hleast.1
  have hfree : s.view k = none := hleast.2.1
  have hp : Inum p := hs.inum (dir_eq_some.mp hd).1
  have hkp := ne_of_unused hd hfree
  have hnone : s.view.names p m = none := (h.lookup_eq_names hm).symm.trans hl
  have h' : DirTree s'.view := by
    rw [hv]
    exact dirTree_link h hs hd hfree hin hf hl
  have hnamed : ∀ x c, s'.view.Named p x c ↔ s.view.Named p x c ∨ x = m ∧ c = k := by
    intro x c
    rw [hv, named_link hd hf hin, hm]
  have hchild : s'.view k = some (newNode type k p) := by
    rw [hv, View.link, Function.update_of_ne hkp, Function.update_self]
  refine ⟨fun hc => absurd hnone hc, ?_, fun hc => absurd hc (by decide), fun _ _ =>
    ⟨rfl, k, hleast, ?_, hchild, ?_, ?_⟩⟩
  · -- none of the reasons to fail applies
    refine ⟨fun hc => absurd hc (by decide), ?_⟩
    rintro (hc | ⟨-, hall⟩ | ⟨-, n, hn, hfull⟩)
    · rw [hd] at hc
      cases hc
    · exact absurd hfree (hall k hin)
    · rw [hd] at hn
      cases hn
      rw [free_none.mpr hfull] at hf
      cases hf
  · refine names_ext h h' (fun x hx c => ?_) (h'.names_eq_some.mpr ((hnamed m k).mpr (Or.inr ⟨rfl, rfl⟩)))
    rw [hnamed]
    exact ⟨fun hc => hc.elim id fun hc => absurd hc.1 hx, Or.inl⟩
  · -- a directory has its dots and nothing else
    intro ht m c
    rw [newNode, if_pos ht] at hchild
    exact named_newDir (dir_eq_some.mpr ⟨hchild, rfl⟩) hin hp
  · intro q hqp hqk
    rw [hv, View.link, Function.update_of_ne hqp, Function.update_of_ne hqk]

theorem fsCreate_names {type : Int32} (hinv : Inv s) (h : DirTree s.view) (he : env.dest = .caller)
    (hp : Inum p) (hm : name.chars.take 60 = m)
    (hlen : (fsCreate env p type name s).2.disk.file.len < 2 ^ 31) :
    CreateSpec s p type m (fsCreate env p type name s).1 (fsCreate env p type name s).2 := by
  obtain ⟨s', heq, hleads⟩ := fsCreate_spec hinv.log he hp fun _ => hlen
  rw [heq]
  have hnames := @DirTree.lookup_eq_names p name s.view m h hm
  cases hl : s.view.lookup p name with
  | some x =>
      rw [create_existing (by rw [hl]; rfl)] at hleads ⊢
      refine createSpec_present ?_ (Moved.same hleads)
      rw [← hnames, hl]
      exact Option.some_ne_none _
  | none =>
      rw [hl] at hnames
      cases hd : s.view.dir p with
      | none =>
          rw [create_of_dir_none hd] at hleads ⊢
          exact createSpec_fails hnames.symm (Moved.same hleads) (Or.inl hd)
      | some nd =>
          cases hk : s.view.nextId with
          | none =>
              rw [create_no_inum hl hk] at hleads ⊢
              exact createSpec_fails hnames.symm (Moved.same hleads) (Or.inr (Or.inl hk))
          | some k =>
              cases hf : nd.free with
              | none =>
                  rw [create_full hl hd hf] at hleads ⊢
                  exact createSpec_fails hnames.symm (Moved.same hleads) (Or.inr (Or.inr ⟨nd, hd, hf⟩))
              | some x =>
                  obtain ⟨b, j⟩ := x
                  rw [create_new hl hd hk hf] at hleads ⊢
                  exact createSpec_made h hinv.sound hm hl hd hk hf hleads.2.2

theorem unlinkSpec_fails (hwhy : s.view.dir p = none
      ∨ ∃ k, s.view.names p m = some k ∧ ∃ b j d, s.view.Entry k b j d) (hs : Same s s') :
    UnlinkSpec s p m (-1) s' where
  not_dir _ := ⟨rfl, hs⟩
  not_empty _ _ _ := ⟨rfl, hs⟩
  absent hd hn := by
    rcases hwhy with hc | ⟨k, hk, -⟩
    · exact absurd hc hd
    · rw [hn] at hk
      cases hk
  removed k hk hempty := by
    rcases hwhy with hc | ⟨k', hk', b, j, d, hent⟩
    · exact absurd hc (dir_of_names (by rw [hk]; exact Option.some_ne_none _))
    · rw [hk] at hk'
      cases hk'
      exact absurd hent (hempty b j d)

theorem unlinkSpec_absent (hd : s.view.dir p ≠ none) (hn : s.view.names p m = none) (hs : Same s s') :
    UnlinkSpec s p m 0 s' where
  not_dir h := absurd h hd
  not_empty k hk _ := by
    rw [hn] at hk
    cases hk
  absent _ _ := ⟨rfl, hs⟩
  removed k hk _ := by
    rw [hn] at hk
    cases hk

/-- `fs_unlink` that removes a node. -/
theorem unlinkSpec_removed (h : DirTree s.view) (hs : Sound s.view) (hd : s.view.dir p = some nd)
    (hu : nd.Used b j d) (hb : Beyond b j) (hrem : s.view.removable d.pair = true)
    (hv : s'.view = Function.update (Function.update s.view d.pair none) p (some (nd.setSlot b j unused))) :
    UnlinkSpec s p d.text 0 s' := by
  have hname : s.view.names p d.text = some d.pair :=
    h.names_eq_some.mpr ⟨nd, b, j, d, hd, hu, rfl, rfl⟩
  have hkp := ne_of_removable hs hd hu hb hrem
  have h' : DirTree s'.view := by
    rw [hv]
    exact dirTree_removed h hs hd hu hb hrem
  have hnamed : ∀ x c, s'.view.Named p x c ↔ s.view.Named p x c ∧ x ≠ d.text := by
    intro x c
    rw [hv, named_removed hd (h.distinct hd) hu]
  refine ⟨fun hc => ?_, fun k hk hent => ?_, fun _ hc => ?_, fun k hk _ => ?_⟩
  · rw [hd] at hc
    cases hc
  · rw [hname] at hk
    cases hk
    obtain ⟨b', j', e, hent⟩ := hent
    exact absurd hent ((removable_iff hs).mp hrem b' j' e)
  · rw [hname] at hc
    cases hc
  · rw [hname] at hk
    cases hk
    refine ⟨rfl, names_ext h h' (fun x hx c => ?_) (names_eq_none.mpr fun c hc => ?_), ?_, ?_⟩
    · rw [hnamed]
      exact ⟨And.left, fun hc => ⟨hc, hx⟩⟩
    · exact ((hnamed _ _).mp hc).2 rfl
    · rw [hv, Function.update_of_ne hkp, Function.update_self]
    · intro q hqp hqk
      rw [hv, Function.update_of_ne hqp, Function.update_of_ne hqk]

theorem fsUnlink_names (hinv : Inv s) (h : DirTree s.view) (he : env.dest = .caller) (hp : Inum p)
    (hm : name.chars.take 60 = m) (hok : s.view.KeepsDots (.unlink p name))
    (hlen : (fsUnlink env p name s).2.disk.file.len < 2 ^ 31) :
    UnlinkSpec s p m (fsUnlink env p name s).1 (fsUnlink env p name s).2 := by
  obtain ⟨s', heq, hleads⟩ := fsUnlink_spec hinv.log he hinv.sound hp fun _ => hlen
  rw [heq]
  have hnames := @DirTree.lookup_eq_names p name s.view m h hm
  cases hd : s.view.dir p with
  | none =>
      rw [unlink_of_dir_none hd] at hleads ⊢
      exact unlinkSpec_fails (Or.inl hd) (Moved.same hleads)
  | some nd =>
      cases hl : s.view.lookup p name with
      | none =>
          rw [unlink_absent hd (find_of_lookup_none hd hl)] at hleads ⊢
          refine unlinkSpec_absent ?_ (hnames.symm.trans hl) (Moved.same hleads)
          rw [hd]
          exact Option.some_ne_none _
      | some k =>
          obtain ⟨n, b, j, d, hn, -, hu, htext, rfl⟩ := lookup_some hl
          rw [hd] at hn
          cases hn
          rw [unlink_used hd (h.distinct hd) hu htext] at hleads ⊢
          rw [hm] at htext
          cases hrem : s.view.removable d.pair with
          | true =>
              rw [hrem] at hleads
              rw [if_pos rfl]
              rw [if_pos rfl] at hleads
              -- what goes is an entry of its own, not a dot
              have hb := unlink_beyond h hinv.sound hok hd hu (htext.trans hm.symm) hrem
              rw [← htext]
              exact unlinkSpec_removed h hinv.sound hd hu hb hrem hleads.2.2
          | false =>
              rw [hrem] at hleads
              have hent : ∃ b j e, s.view.Entry d.pair b j e := by
                by_contra hno
                rw [(removable_iff hinv.sound).mpr fun b j e he => hno ⟨b, j, e, he⟩] at hrem
                cases hrem
              exact unlinkSpec_fails (Or.inr ⟨d.pair, hnames.symm.trans hl, hent⟩) (Moved.same hleads)

/--
**The calls refine a map from names to inode numbers**, in every run from a new image
without an `fs_unlink` of `.` or `..`.
-/
theorem calls_refine_names {s : State} (hr : Reachable LeavesDots s) {p : Int32} (hp : Inum p)
    (n : FileName) {env : Env} (he : env.dest = .caller) :
    (∀ m k, s.view.names p m = some k ↔ s.view.Named p m k)
      ∧ (fsLookup env p n.toCStr s).1 = (s.view.names p n.chars).getD (-1)
      ∧ (∀ type, (fsCreate env p type n.toCStr s).2.disk.file.len < 2 ^ 31 →
        CreateSpec s p type n.chars (fsCreate env p type n.toCStr s).1 (fsCreate env p type n.toCStr s).2)
      ∧ (n.toCStr ≠ dot → n.toCStr ≠ dotdot → (fsUnlink env p n.toCStr s).2.disk.file.len < 2 ^ 31 →
        UnlinkSpec s p n.chars (fsUnlink env p n.toCStr s).1 (fsUnlink env p n.toCStr s).2) := by
  have hinv := inv_reachable hr
  have h : DirTree s.view := dirTree_reachable (fun _ _ => LeavesDots.keeps) hr
  refine ⟨fun m k => h.names_eq_some, ?_, fun type hlen => ?_, fun hdot hdotdot hlen => ?_⟩
  · obtain ⟨q, hq⟩ := @fsLookup_spec env s p n.toCStr hinv.log he hp
    rw [hq, h.lookup_eq_names n.take_chars]
  · exact fsCreate_names hinv h he hp n.take_chars hlen
  · have hok : LeavesDots s (.unlink p n.toCStr) := ⟨hdot, hdotdot⟩
    exact fsUnlink_names hinv h he hp n.take_chars hok.keeps hlen

/-- `"a"`, which has one byte. -/
def sampleFile : FileName := ⟨sampleName, by decide, by decide⟩

/-- `a` in the root of a new image. -/
theorem calls_refine_names_sample : ∃ s : State,
    (fsLookup sampleEnv 0 sampleFile.toCStr s).1 = (s.view.names 0 sampleFile.chars).getD (-1)
    ∧ CreateSpec s 0 1 sampleFile.chars (fsCreate sampleEnv 0 1 sampleFile.toCStr s).1
      (fsCreate sampleEnv 0 1 sampleFile.toCStr s).2
    ∧ UnlinkSpec s 0 sampleFile.chars (fsUnlink sampleEnv 0 sampleFile.toCStr s).1
      (fsUnlink sampleEnv 0 sampleFile.toCStr s).2 := by
  obtain ⟨s, e, hr, he, he', hl, -⟩ := @reachable_start sampleEnv LeavesDots rfl
  obtain ⟨e1, -, hle1, hl1⟩ := @exec_level sampleEnv s e hl he (by omega) (.create 0 1 sampleFile.toCStr)
  obtain ⟨e2, -, hle2, hl2⟩ := @exec_level sampleEnv s e hl he (by omega) (.unlink 0 sampleFile.toCStr)
  rw [exec] at hl1
  rw [exec] at hl2
  have hlen1 := hl1.len
  have hlen2 := hl2.len
  obtain ⟨-, hlook, hcreate, hunlink⟩ := @calls_refine_names s hr 0 (by decide) sampleFile sampleEnv rfl
  exact ⟨s, hlook, hcreate 1 (by omega), hunlink (by decide) (by decide) (by omega)⟩

end Cs537.Fs
