import Cs537.Fs.Model
import Mathlib.Logic.Function.Basic

/-!
# Files and directories without the log

What a client can observe of an image: which inodes exist, and for each one its
type, its size and the contents of the blocks that were written. `View` is that,
and the operations on it are those of `fs.c` with the log, its pointers and the
file position taken away. That `fs.c` computes them is proved in `Refine.lean`.

An operation that leaves everything as it was returns `none` for the view after it.
For `fs.c` this will mean that nothing at all was appended, not only that what was
appended changes no answer.
-/

namespace Cs537.Fs

open Lib

/-- An inode and the contents of its blocks. -/
structure Node where
  size : Int32
  type : Int32
  blocks : Fin 14 → Option (List UInt8)

/-- The inodes that exist. -/
abbrev View := Int32 → Option Node

/-! ## Directories -/

/-- Slot `j` of block `i`, used or not. -/
def Node.slot (nd : Node) (i : Fin 14) (j : Fin 64) : Option FsDir :=
  (nd.blocks i).map fun bs => (FsDirList.decode bs).list j

/-- The first slot of `is` that `hit`s. -/
def Node.findIn (hit : Fin 14 → Fin 64 → FsDir → Bool) (nd : Node) :
    List (Fin 14) → Option (Fin 14 × Fin 64)
  | [] => none
  | i :: is =>
      match nd.blocks i with
      | none => nd.findIn hit is
      | some bs =>
          match (List.finRange 64).find? fun j => hit i j ((FsDirList.decode bs).list j) with
          | some j => some (i, j)
          | none => nd.findIn hit is

/-- The first slot of a directory that `hit`s. -/
def Node.find (hit : Fin 14 → Fin 64 → FsDir → Bool) (nd : Node) : Option (Fin 14 × Fin 64) :=
  nd.findIn hit (List.finRange 14)

/-- The block a new entry for block `i` goes into. -/
def Node.dirList (nd : Node) (i : Fin 14) : FsDirList :=
  match nd.blocks i with
  | none => emptyDirList
  | some bs => FsDirList.decode bs

/-- The first free slot of `is`; a missing block is free from its first slot on. -/
def Node.freeIn (nd : Node) : List (Fin 14) → Option (Fin 14 × Fin 64)
  | [] => none
  | i :: is =>
      match nd.blocks i with
      | none => some (i, 0)
      | some bs =>
          match (List.finRange 64).find? fun j => decide (((FsDirList.decode bs).list j).pair < 0) with
          | some j => some (i, j)
          | none => nd.freeIn is

/-- The first free slot of a directory. -/
def Node.free (nd : Node) : Option (Fin 14 × Fin 64) := nd.freeIn (List.finRange 14)

/-- Write one block. -/
def Node.setBlock (nd : Node) (i : Fin 14) (bs : List UInt8) : Node :=
  { nd with blocks := Function.update nd.blocks i (some bs) }

/-- Write one slot. -/
def Node.setSlot (nd : Node) (i : Fin 14) (j : Fin 64) (d : FsDir) : Node :=
  nd.setBlock i ((nd.dirList i).set j d).encode

/-- An empty file. -/
def newFile : Node := ⟨0, fsRegularFile, fun _ => none⟩

/-- A directory with its two dots. -/
def newDir (inum pinum : Int32) : Node :=
  (⟨Int32.ofNat bufferSize, fsDirectory, fun _ => none⟩ : Node).setBlock 0
    (newDirList inum pinum).encode

/-- A slot that holds no entry. -/
def unused : FsDir := ⟨strncpy emptyStr, -1⟩

/-! ## Operations -/

namespace View

/-- The directory `p`, if it is one. -/
def dir (V : View) (p : Int32) : Option Node := (V p).filter fun nd => nd.type = fsDirectory

/-- What `name` stands for in `p`. -/
def lookup (V : View) (p : Int32) (name : CStr) : Option Int32 := do
  let nd ← V.dir p
  let (i, j) ← nd.find fun _ _ => named name
  let d ← nd.slot i j
  some d.pair

/-- The least number that is not in use. -/
def nextId (V : View) : Option Int32 :=
  ((List.range bufferSize).find? fun k => (V (Int32.ofNat k)).isNone).map Int32.ofNat

/-- A new node `k` with its entry `(i, j)` in the directory `p`. -/
def link (V : View) (p k : Int32) (nd child : Node) (i : Fin 14) (j : Fin 64) (name : CStr) : View :=
  Function.update (Function.update V k (some child)) p (some (nd.setSlot i j ⟨strncpy name, k⟩))

def create (V : View) (p type : Int32) (name : CStr) : Int32 × Option View :=
  if (V.lookup p name).isSome then (0, none)
  else
    match V.dir p, V.nextId with
    | some nd, some k =>
        match nd.free with
        | some (i, j) =>
            (0, some (V.link p k nd (if type = fsDirectory then newDir k p else newFile) i j name))
        | none => (-1, none)
    | _, _ => (-1, none)

/-- Whether `k` may be removed: it is not a directory with entries. -/
def removable (V : View) (k : Int32) : Bool :=
  match V.dir k with
  | some nd => (nd.find occupied).isNone
  | none => true

def unlink (V : View) (p : Int32) (name : CStr) : Int32 × Option View :=
  match V.dir p with
  | none => (-1, none)
  | some nd =>
      match nd.find fun _ _ => named name with
      | none => (0, none)
      | some (i, j) =>
          match nd.slot i j with
          | none => (0, none)
          | some d =>
              if V.removable d.pair then
                (0, some (Function.update (Function.update V d.pair none) p (some (nd.setSlot i j unused))))
              else (-1, none)

/-- `size` is what `getINodeSize` says. -/
def write (V : View) (i : Int32) (buffer : List UInt8) (b : Fin 14) (size : Int32) :
    Int32 × Option View :=
  match V i with
  | none => (-1, none)
  | some nd =>
      if nd.type = fsDirectory then (-1, none)
      else (0, some (Function.update V i (some { nd.setBlock b buffer with size := size })))

/-- The type and size of `i`. -/
def stat (V : View) (i : Int32) : Option StatT := (V i).map fun nd => ⟨nd.type, nd.size⟩

/-- A written block of a regular file. -/
def block (V : View) (i : Int32) (b : Fin 14) : Option (List UInt8) := do
  let nd ← V i
  if nd.type = fsRegularFile then nd.blocks b else none

end View

/-! ## Case by case -/

section Cases

variable {V : View} {nd : Node} {p : Int32} {name : CStr}

theorem dir_eq_some : V.dir p = some nd ↔ V p = some nd ∧ nd.type = fsDirectory := by
  rw [View.dir, Option.filter_eq_some_iff, decide_eq_true_eq]

theorem dir_of_type_ne (h : V p = some nd) (ht : nd.type ≠ fsDirectory) : V.dir p = none := by
  rw [View.dir, h]
  exact Option.filter_some_neg (decide_eq_false ht)

/-- A file is no directory before or after a write to it. -/
theorem dir_update_file {nd' : Node} {i : Int32} (hv : V i = some nd) (ht : nd.type ≠ fsDirectory)
    (ht' : nd'.type ≠ fsDirectory) : View.dir (Function.update V i (some nd')) p = V.dir p := by
  by_cases hp : p = i
  · subst hp
    rw [dir_of_type_ne hv ht]
    exact dir_of_type_ne (Function.update_self ..) ht'
  · rw [View.dir, View.dir, Function.update_of_ne hp]

theorem lookup_of_dir_none (h : V.dir p = none) : V.lookup p name = none := by
  rw [View.lookup, h]; rfl

theorem lookup_of_dir (h : V.dir p = some nd) :
    V.lookup p name = (nd.find fun _ _ => named name).bind fun x => (nd.slot x.1 x.2).map FsDir.pair := by
  rw [View.lookup, h]
  show ((nd.find fun _ _ => named name).bind fun x => (nd.slot x.1 x.2).bind fun d => some d.pair) = _
  simp only [Option.map_eq_bind, Function.comp_def]

theorem unlink_of_dir_none (h : V.dir p = none) : V.unlink p name = (-1, none) := by
  rw [View.unlink, h]

theorem unlink_absent (h : V.dir p = some nd) (hf : (nd.find fun _ _ => named name) = none) :
    V.unlink p name = (0, none) := by
  rw [View.unlink, h]
  dsimp only
  rw [hf]

theorem unlink_found {i : Fin 14} {j : Fin 64} {d : FsDir} (h : V.dir p = some nd)
    (hf : (nd.find fun _ _ => named name) = some (i, j)) (hs : nd.slot i j = some d) :
    V.unlink p name = if V.removable d.pair then
        (0, some (Function.update (Function.update V d.pair none) p (some (nd.setSlot i j unused))))
      else (-1, none) := by
  rw [View.unlink, h]
  dsimp only
  rw [hf]
  dsimp only
  rw [hs]

theorem create_existing {type : Int32} (h : (V.lookup p name).isSome) :
    V.create p type name = (0, none) := if_pos h

theorem create_of_dir_none {type : Int32} (h : V.dir p = none) : V.create p type name = (-1, none) := by
  rw [View.create, lookup_of_dir_none h, h]; rfl

theorem create_no_inum {type : Int32} (hl : V.lookup p name = none) (h : V.nextId = none) :
    V.create p type name = (-1, none) := by
  rw [View.create, hl, h]
  cases V.dir p <;> rfl

theorem create_full {type : Int32} (hl : V.lookup p name = none) (h : V.dir p = some nd)
    (hf : nd.free = none) : V.create p type name = (-1, none) := by
  rw [View.create, hl, h]
  cases V.nextId with
  | none => rfl
  | some k =>
      dsimp only
      rw [hf]
      rfl

theorem create_new {type k : Int32} {i : Fin 14} {j : Fin 64} (hl : V.lookup p name = none)
    (h : V.dir p = some nd) (hk : V.nextId = some k) (hf : nd.free = some (i, j)) :
    V.create p type name
      = (0, some (V.link p k nd (if type = fsDirectory then newDir k p else newFile) i j name)) := by
  rw [View.create, hl, h, hk]
  dsimp only
  rw [hf]
  rfl

end Cases

/-! ## Slots -/

variable {nd : Node} {i i' : Fin 14} {j j' : Fin 64} {d : FsDir}

theorem findIn_some {hit : Fin 14 → Fin 64 → FsDir → Bool} {is : List (Fin 14)}
    (h : nd.findIn hit is = some (i, j)) : ∃ d, nd.slot i j = some d ∧ hit i j d = true := by
  induction is with
  | nil => cases h
  | cons k is ih =>
      rw [Node.findIn] at h
      split at h
      · exact ih h
      · rename_i bs hb
        split at h
        · rename_i j' hj
          cases h
          have hhit := List.find?_some hj
          exact ⟨_, by rw [Node.slot, hb]; rfl, hhit⟩
        · exact ih h

theorem findIn_none {hit : Fin 14 → Fin 64 → FsDir → Bool} {is : List (Fin 14)} :
    nd.findIn hit is = none ↔ ∀ i ∈ is, ∀ j d, nd.slot i j = some d → hit i j d = false := by
  induction is with
  | nil => simp [Node.findIn]
  | cons k is ih =>
      rw [Node.findIn, List.forall_mem_cons]
      cases hb : nd.blocks k with
      | none =>
          -- a missing block has no slots
          have hslot : ∀ j, nd.slot k j = none := fun j => by rw [Node.slot, hb]; rfl
          simp only [hslot, ih]
          simp
      | some bs =>
          have hslot : ∀ j, nd.slot k j = some ((FsDirList.decode bs).list j) :=
            fun j => by rw [Node.slot, hb]; rfl
          simp only [hslot, Option.some.injEq, forall_eq']
          cases hf : (List.finRange 64).find? fun j => hit k j ((FsDirList.decode bs).list j) with
          | some j =>
              have hhit := List.find?_some hf
              simp only [reduceCtorEq, false_iff, not_and]
              intro hall
              rw [hall j] at hhit
              cases hhit
          | none =>
              rw [List.find?_eq_none] at hf
              have hno : ∀ j, hit k j ((FsDirList.decode bs).list j) = false :=
                fun j => Bool.eq_false_iff.mpr (hf j (List.mem_finRange j))
              simp only [ih, hno, implies_true, true_and]

theorem find_some {hit : Fin 14 → Fin 64 → FsDir → Bool} (h : nd.find hit = some (i, j)) :
    ∃ d, nd.slot i j = some d ∧ hit i j d = true := findIn_some h

theorem find_none {hit : Fin 14 → Fin 64 → FsDir → Bool} :
    nd.find hit = none ↔ ∀ i j d, nd.slot i j = some d → hit i j d = false := by
  rw [Node.find, findIn_none]
  exact ⟨fun h i => h i (List.mem_finRange i), fun h i _ => h i⟩

/-- The slots of the block an entry goes into. -/
theorem slot_dirList : nd.slot i j = some ((nd.dirList i).list j)
    ∨ nd.blocks i = none ∧ (nd.dirList i).list j = unused := by
  unfold Node.slot Node.dirList
  cases nd.blocks i with
  | some bs => exact Or.inl rfl
  | none => exact Or.inr ⟨rfl, rfl⟩

theorem slot_eq_dirList (h : nd.slot i j = some d) : (nd.dirList i).list j = d := by
  rcases @slot_dirList nd i j with hs | ⟨hb, -⟩
  · rw [hs] at h; exact Option.some.inj h
  · rw [Node.slot, hb] at h; cases h

theorem freeIn_some {is : List (Fin 14)} (h : nd.freeIn is = some (i, j)) :
    ((nd.dirList i).list j).pair < 0 := by
  induction is with
  | nil => cases h
  | cons k is ih =>
      rw [Node.freeIn] at h
      split at h
      · rename_i hb
        cases h
        rw [Node.dirList, hb]
        exact (by decide : (-1 : Int32) < 0)
      · rename_i bs hb
        split at h
        · rename_i j' hj
          cases h
          have hhit := List.find?_some hj
          rw [Node.dirList, hb]
          exact of_decide_eq_true hhit
        · exact ih h

theorem freeIn_none {is : List (Fin 14)} :
    nd.freeIn is = none ↔ ∀ i ∈ is, ∀ j, ∃ d, nd.slot i j = some d ∧ ¬d.pair < 0 := by
  induction is with
  | nil => simp [Node.freeIn]
  | cons k is ih =>
      rw [Node.freeIn, List.forall_mem_cons]
      cases hb : nd.blocks k with
      | none =>
          -- a missing block is free
          have hslot : ∀ j, nd.slot k j = none := fun j => by rw [Node.slot, hb]; rfl
          simp [hslot]
      | some bs =>
          have hslot : ∀ j, nd.slot k j = some ((FsDirList.decode bs).list j) :=
            fun j => by rw [Node.slot, hb]; rfl
          simp only [hslot, Option.some.injEq, exists_eq_left']
          cases hf : (List.finRange 64).find? fun j =>
              decide (((FsDirList.decode bs).list j).pair < 0) with
          | some j =>
              have hhit := List.find?_some hf
              simp only [reduceCtorEq, false_iff, not_and]
              exact fun hall => absurd (of_decide_eq_true hhit) (hall j)
          | none =>
              rw [List.find?_eq_none] at hf
              have hno : ∀ j, ¬((FsDirList.decode bs).list j).pair < 0 :=
                fun j hj => hf j (List.mem_finRange j) (decide_eq_true hj)
              simp only [ih, hno, not_false_eq_true, implies_true, true_and]

/-- A directory is full when all its slots are used. -/
theorem free_none : nd.free = none ↔ ∀ i j, ∃ d, nd.slot i j = some d ∧ ¬d.pair < 0 := by
  rw [Node.free, freeIn_none]
  exact ⟨fun h i => h i (List.mem_finRange i), fun h i _ => h i⟩

theorem setBlock_blocks (bs : List UInt8) :
    (nd.setBlock i bs).blocks i' = if i' = i then some bs else nd.blocks i' := by
  by_cases h : i' = i
  · subst h; rw [if_pos rfl]; exact Function.update_self ..
  · rw [if_neg h]; exact Function.update_of_ne h ..

/-- One slot is written; the other slots of its block become those of the block before. -/
theorem slot_setSlot : (nd.setSlot i j d).slot i' j'
    = if i' = i then some (if j' = j then d else (nd.dirList i).list j') else nd.slot i' j' := by
  rw [Node.slot, Node.setSlot, setBlock_blocks]
  split
  · rw [Option.map_some, FsDirList.decode_encode]; rfl
  · rfl

/-- A slot that holds an entry. -/
def Node.Used (nd : Node) (i : Fin 14) (j : Fin 64) (d : FsDir) : Prop :=
  nd.slot i j = some d ∧ ¬d.pair < 0

/-- Writing a slot changes that entry and no other. -/
theorem used_setSlot {e : FsDir} : (nd.setSlot i j d).Used i' j' e
    ↔ i' = i ∧ j' = j ∧ e = d ∧ ¬d.pair < 0 ∨ ¬(i' = i ∧ j' = j) ∧ nd.Used i' j' e := by
  unfold Node.Used
  rw [slot_setSlot]
  by_cases hi : i' = i
  · subst hi
    by_cases hj : j' = j
    · subst hj
      simp only [if_true, Option.some.injEq, true_and, not_true_eq_false, false_and, or_false]
      constructor
      · rintro ⟨rfl, he⟩; exact ⟨rfl, he⟩
      · rintro ⟨rfl, he⟩; exact ⟨rfl, he⟩
    · simp only [if_true, hj, if_false, Option.some.injEq, and_false, false_and, false_or,
        not_false_eq_true, true_and]
      rcases @slot_dirList nd i' j' with hs | ⟨hb, hun⟩
      · rw [hs, Option.some.injEq]
      · -- a block written for the first time has no other entries
        rw [hun, Node.slot, hb]
        simp only [Option.map_none, reduceCtorEq, false_and, iff_false, not_and, not_not]
        rintro rfl
        exact (by decide : (-1 : Int32) < 0)
  · simp only [hi, if_false, false_and, false_or, not_false_eq_true, true_and]

theorem named_iff {name : CStr} : named name d = true ↔ ¬d.pair < 0 ∧ d.text = name.chars.take 60 := by
  rw [named, Bool.and_eq_true, Bool.not_eq_true', decide_eq_false_iff_not, decide_eq_true_eq,
    strncmp_name_iff]

/-- The slots of a new directory. -/
theorem slot_newDir {k p : Int32} : (newDir k p).slot i j
    = if i = 0 then some (if j = 1 then ⟨strncpy dotdot, p⟩ else if j = 0 then ⟨strncpy dot, k⟩ else unused)
      else none := by
  rw [newDir, Node.slot, setBlock_blocks]
  split
  · rw [Option.map_some, FsDirList.decode_encode]; rfl
  · rfl

/-- A new directory has its two dots and nothing else. -/
theorem used_newDir {k p : Int32} : (newDir k p).Used i j d
    ↔ i = 0 ∧ (j = 0 ∧ d = ⟨strncpy dot, k⟩ ∧ ¬k < 0 ∨ j = 1 ∧ d = ⟨strncpy dotdot, p⟩ ∧ ¬p < 0) := by
  rw [Node.Used, slot_newDir]
  by_cases hi : i = 0
  · rw [if_pos hi, Option.some.injEq]
    by_cases h1 : j = 1
    · rw [if_pos h1]
      constructor
      · rintro ⟨rfl, hp⟩
        exact ⟨hi, Or.inr ⟨h1, rfl, hp⟩⟩
      · rintro ⟨-, ⟨h0, -⟩ | ⟨-, rfl, hp⟩⟩
        · rw [h1] at h0
          exact absurd h0 (by decide)
        · exact ⟨rfl, hp⟩
    · rw [if_neg h1]
      by_cases h0 : j = 0
      · rw [if_pos h0]
        constructor
        · rintro ⟨rfl, hk⟩
          exact ⟨hi, Or.inl ⟨h0, rfl, hk⟩⟩
        · rintro ⟨-, ⟨-, rfl, hk⟩ | ⟨hc, -⟩⟩
          · exact ⟨rfl, hk⟩
          · exact absurd hc h1
      · rw [if_neg h0]
        constructor
        · rintro ⟨rfl, hneg⟩
          exact absurd (by decide : (-1 : Int32) < 0) hneg
        · rintro ⟨-, ⟨hc, -⟩ | ⟨hc, -⟩⟩
          · exact absurd hc h0
          · exact absurd hc h1
  · rw [if_neg hi]
    exact ⟨fun h => (by cases h.1), fun h => absurd h.1 hi⟩

/-! ## Names and numbers -/

section Names

variable {V : View} {p x k : Int32} {name : CStr}

/-- A name that is found belongs to an entry. -/
theorem lookup_some (h : V.lookup p name = some x) : ∃ nd i j d, V.dir p = some nd
    ∧ (nd.find fun _ _ => named name) = some (i, j) ∧ nd.Used i j d
    ∧ d.text = name.chars.take 60 ∧ d.pair = x := by
  cases hd : V.dir p with
  | none => rw [lookup_of_dir_none hd] at h; cases h
  | some nd =>
      rw [lookup_of_dir hd] at h
      cases hf : nd.find fun _ _ => named name with
      | none => rw [hf] at h; cases h
      | some y =>
          obtain ⟨i, j⟩ := y
          obtain ⟨d, hs, hn⟩ := find_some hf
          rw [hf, Option.bind_some, hs] at h
          obtain ⟨hpos, htext⟩ := named_iff.mp hn
          exact ⟨nd, i, j, d, rfl, hf, ⟨hs, hpos⟩, htext, Option.some.inj h⟩

/-- A name that is not found belongs to no entry. -/
theorem lookup_none (hd : V.dir p = some nd) :
    V.lookup p name = none ↔ ∀ i j d, nd.Used i j d → d.text ≠ name.chars.take 60 := by
  constructor
  · intro h i j d hu htext
    cases hf : nd.find fun _ _ => named name with
    | none =>
        have hno := find_none.mp hf i j d hu.1
        rw [named_iff.mpr ⟨hu.2, htext⟩] at hno
        cases hno
    | some y =>
        obtain ⟨i, j⟩ := y
        obtain ⟨d, hs, -⟩ := find_some hf
        rw [lookup_of_dir hd, hf, Option.bind_some, hs] at h
        cases h
  · intro h
    by_contra hne
    obtain ⟨y, hy⟩ := Option.ne_none_iff_exists'.mp hne
    obtain ⟨nd', i, j, d, hd', -, hu, htext, -⟩ := lookup_some hy
    rw [hd] at hd'
    cases hd'
    exact h i j d hu htext

/-- A missing name finds no slot. -/
theorem find_of_lookup_none (hd : V.dir p = some nd) (h : V.lookup p name = none) :
    (nd.find fun _ _ => named name) = none := by
  rw [find_none]
  intro i j d hs
  by_contra hn
  obtain ⟨hpos, htext⟩ := named_iff.mp (Bool.eq_true_of_not_eq_false hn)
  exact (lookup_none hd).mp h i j d ⟨hs, hpos⟩ htext

theorem nextId_some (h : V.nextId = some k) : ∃ n < bufferSize, k = Int32.ofNat n ∧ V k = none
    ∧ ∀ m < n, V (Int32.ofNat m) ≠ none := by
  rw [View.nextId, Option.map_eq_some_iff] at h
  obtain ⟨n, hn, rfl⟩ := h
  obtain ⟨hp, hmem, hleast⟩ := List.find?_range_eq_some.mp hn
  refine ⟨n, List.mem_range.mp hmem, rfl, by simpa using hp, fun m hm => ?_⟩
  have hsome := hleast m hm
  simpa [Option.isSome_iff_ne_none] using hsome

theorem nextId_none : V.nextId = none ↔ ∀ n < bufferSize, V (Int32.ofNat n) ≠ none := by
  rw [View.nextId, Option.map_eq_none_iff, List.find?_range_eq_none]
  simp [Option.isSome_iff_ne_none]

end Names

end Cs537.Fs
