import Cs537.Shell.Parse

/-!
# What `parseArgv` does with its words

The loop passes over words without a `>`. At the first word with one it goes one of four
ways, or gives up. It gives up exactly if what follows that `>`, the rest of its word and
the words after it, is not one piece; that is `after`.
-/

namespace Cs537.Shell

open Cs537.Lib

variable (heap : Heap) {s : Parser} {l r extra : List Ptr} {p q : Ptr} {ws pre post : List Text}
  {w x t name : Text} {i : Int}

/-! ## The array -/

theorem inside_append (l r : List Ptr) (p : Ptr) : (⟨l ++ p :: r⟩ : Argv).Inside l.length := by
  refine ⟨Int.natCast_nonneg _, ?_⟩
  rw [List.length_append, List.length_cons]
  omega

theorem get_append (l r : List Ptr) (p : Ptr) : (⟨l ++ p :: r⟩ : Argv).get l.length = p := by
  rw [Argv.get, if_pos (inside_append l r p), Int.toNat_natCast, List.getD_eq_getElem?_getD,
    List.getElem?_append_right (Nat.le_refl _), Nat.sub_self]
  rfl

theorem set_append (l r : List Ptr) (p q : Ptr) :
    (⟨l ++ p :: r⟩ : Argv).set l.length q = ⟨l ++ q :: r⟩ := by
  rw [Argv.set, if_pos (inside_append l r p), Int.toNat_natCast, List.set_append_right _ _ (Nat.le_refl _),
    Nat.sub_self]
  rfl

theorem not_inside_length (l : List Ptr) : ¬(⟨l⟩ : Argv).Inside l.length := fun h => by
  have hlt := h.2
  dsimp only at hlt
  omega

theorem map_get_range (l r : List Ptr) :
    (List.range l.length).map (fun i : Nat => (⟨l ++ r⟩ : Argv).get i) = l := by
  refine List.ext_getElem (by simp) fun i hi hi' => ?_
  have hinside : (⟨l ++ r⟩ : Argv).Inside i := by
    refine ⟨Int.natCast_nonneg _, ?_⟩
    rw [List.length_append]
    omega
  rw [List.getElem_map, List.getElem_range, Argv.get, if_pos hinside, Int.toNat_natCast,
    List.getD_eq_getElem?_getD, List.getElem?_append_left hi', List.getElem?_eq_getElem hi']
  rfl

theorem all_inside_range (l r : List Ptr) :
    ((List.range l.length).all fun i : Nat => decide ((⟨l ++ r⟩ : Argv).Inside i)) = true := by
  rw [List.all_eq_true]
  intro i hi
  have hlt := List.mem_range.mp hi
  refine decide_eq_true ⟨Int.natCast_nonneg _, ?_⟩
  rw [List.length_append]
  omega

theorem filter_range_lt {n : Nat} {position : Int} (h : (n : Int) ≤ position) :
    ((List.range n).filter fun i : Nat => decide ((i : Int) ≠ position)) = List.range n := by
  refine List.filter_eq_self.mpr fun i hi => decide_eq_true ?_
  have hlt := List.mem_range.mp hi
  omega

namespace Parser

theorem touch_of_inside (h : s.list.Inside i) : s.touch i = s := by
  rw [touch, decide_eq_true h, Bool.and_true]

theorem store_of_inside (h : s.list.Inside i) : s.store i p = { s with list := s.list.set i p } := by
  rw [store, touch_of_inside h]

/-- A store out of range changes nothing. -/
theorem store_of_not_inside (h : ¬s.list.Inside i) : s.store i p = { s with inBounds := false } := by
  rw [store, touch, Argv.set, if_neg h, decide_eq_false h, Bool.and_false]

/-- The last element is removed. -/
theorem arrayRemove_last (h : s.list = ⟨l ++ p :: r⟩) :
    s.arrayRemove (l.length + 1) l.length = { s with list := ⟨l⟩ } := by
  have hkept : ((List.range ((l.length : Int) + 1).toNat).filter fun i : Nat => decide ((i : Int) ≠ l.length))
      = List.range l.length := by
    have hsize : ((l.length : Int) + 1).toNat = l.length + 1 := by omega
    rw [hsize, List.range_succ, List.filter_append, filter_range_lt (Int.le_refl _)]
    simp
  have hsize : ((l.length : Int) + 1 - 1).toNat = l.length := by omega
  rw [arrayRemove, if_neg (by omega), h]
  dsimp only
  rw [hkept, map_get_range, all_inside_range, hsize, List.take_length, List.length_range,
    decide_eq_true (by omega), Bool.and_true, Bool.and_true]

/-- `arrayRemove` is told a size that is one too large. -/
theorem arrayRemove_over (h : s.list = ⟨l ++ [p]⟩) :
    s.arrayRemove (l.length + 2) l.length = { s with list := ⟨l ++ [.wild]⟩, inBounds := false } := by
  have hkept : ((List.range ((l.length : Int) + 2).toNat).filter fun i : Nat => decide ((i : Int) ≠ l.length))
      = List.range l.length ++ [l.length + 1] := by
    have hsize : ((l.length : Int) + 2).toNat = l.length + 1 + 1 := by omega
    rw [hsize, List.range_succ, List.range_succ, List.filter_append, List.filter_append,
      filter_range_lt (Int.le_refl _)]
    simp
  have hout : ¬(⟨l ++ [p]⟩ : Argv).Inside ((l.length + 1 : Nat) : Int) := by
    have h := not_inside_length (l ++ [p])
    rwa [List.length_append] at h
  have hget : (⟨l ++ [p]⟩ : Argv).get ((l.length + 1 : Nat) : Int) = .wild := if_neg hout
  have hsize : ((l.length : Int) + 2 - 1).toNat = (l ++ [Ptr.wild]).length := by
    rw [List.length_append, List.length_singleton]
    omega
  rw [arrayRemove, if_neg (by omega), h]
  dsimp only
  rw [hkept, List.map_append, map_get_range, List.map_singleton, hget, hsize, List.take_length,
    List.all_append, List.all_cons, decide_eq_false hout, Bool.false_and, Bool.and_false, Bool.and_false,
    Bool.false_and]

/-- The words that are left, and what is behind them in the array. -/
structure Holds (s : Parser) (ws : List Text) (extra : List Ptr) : Prop where
  list : s.list = ⟨ws.map .str ++ extra⟩
  index : s.index = ws.length

namespace Holds

theorem split (h : s.Holds (pre ++ w :: post) extra) :
    s.list = ⟨pre.map .str ++ .str w :: (post.map .str ++ extra)⟩ := by
  rw [h.list, List.map_append, List.append_assoc]
  rfl

theorem inside (h : s.Holds (pre ++ w :: post) extra) : s.list.Inside pre.length := by
  have hin := inside_append (pre.map .str) (post.map .str ++ extra) (.str w)
  rwa [List.length_map, ← h.split] at hin

theorem get (h : s.Holds (pre ++ w :: post) extra) : s.list.get pre.length = .str w := by
  have hget := get_append (pre.map .str) (post.map .str ++ extra) (.str w)
  rwa [List.length_map, ← h.split] at hget

theorem index_eq (h : s.Holds (pre ++ w :: post) extra) : s.index = pre.length + post.length + 1 := by
  rw [h.index, List.length_append, List.length_cons]
  omega

theorem file (h : s.Holds ws extra) (file : Ptr) : Holds { s with redirectFileName := file } ws extra :=
  ⟨h.list, h.index⟩

/-- A word is replaced. -/
theorem store (h : s.Holds (pre ++ w :: post) extra) (v : Text) :
    s.store pre.length (.str v) = { s with list := ⟨(pre ++ v :: post).map .str ++ extra⟩ } := by
  have hset := set_append (pre.map .str) (post.map .str ++ extra) (.str w) (.str v)
  rw [List.length_map] at hset
  rw [store_of_inside h.inside, h.split, hset, List.map_append, List.append_assoc]
  rfl

theorem arrayRemove (h : s.Holds (pre ++ [w]) extra) :
    s.arrayRemove (pre.length + 1) pre.length = { s with list := ⟨pre.map .str⟩ } := by
  have hlast := arrayRemove_last h.split
  rwa [List.length_map] at hlast

end Holds

end Parser

/-! ## The loop -/

theorem indexOf_none (h : gt ∉ w) : indexOf w gt = none := by
  rw [indexOf, List.findIdx?_eq_none_iff]
  intro c hc
  refine decide_eq_false ?_
  rintro rfl
  exact h hc

/-- The first `>` of a word. -/
theorem indexOf_append (h : gt ∉ x) : indexOf (x ++ gt :: t) gt = some x.length := by
  induction x with
  | nil => rfl
  | cons c x ih =>
      have hc : c ≠ gt := fun hc => h (by rw [hc]; exact List.mem_cons_self ..)
      rw [List.cons_append, indexOf, List.findIdx?_cons, if_neg (by simpa using hc), ← indexOf,
        ih (List.not_mem_of_not_mem_cons h)]
      rfl

theorem indexOf_some (h : gt ∈ w) : ∃ c, indexOf w gt = some c := by
  obtain ⟨x, t, rfl, hx⟩ := List.eq_append_cons_of_mem h
  exact ⟨_, indexOf_append hx⟩

/-- The word after `pre` is looked at. -/
theorem redirects_word (h : s.Holds (pre ++ w :: post) extra) :
    redirects heap s pre.length
      = match indexOf w gt with
        | none => redirects heap s (pre.length + 1)
        | some c =>
            if s.redirectFlag then (.rejected, s)
            else
              match s.redirect heap pre.length w c with
              | (s', none) => (.rejected, s')
              | (s', some j) => redirects heap { s' with redirectFlag := true } (j + 1) := by
  rewrite [redirects, if_pos (by rw [h.index_eq]; omega), h.get, Parser.touch_of_inside h.inside]
  rfl

/-- Words without a `>` are passed over. -/
theorem redirects_scan (mid : List Text) (hmid : ∀ w ∈ mid, gt ∉ w) (pre : List Text)
    (h : s.Holds (pre ++ (mid ++ post)) extra) :
    redirects heap s pre.length = redirects heap s (pre.length + mid.length) := by
  induction mid generalizing pre with
  | nil => rw [List.length_nil, Int.natCast_zero, Int.add_zero]
  | cons w mid ih =>
      have hnext := ih (fun w' hw' => hmid w' (List.mem_cons_of_mem _ hw')) (pre ++ [w])
        (by rw [List.append_assoc]; exact h)
      have hlen : ((pre ++ [w]).length : Int) = pre.length + 1 := by
        rw [List.length_append, List.length_singleton]
        omega
      rw [hlen] at hnext
      rw [List.cons_append] at h
      rw [redirects_word heap h, indexOf_none (hmid w (List.mem_cons_self ..))]
      dsimp only
      rw [hnext, List.length_cons]
      congr 1
      omega

/-- All words have been looked at. -/
theorem redirects_end (h : s.Holds ws (p :: extra)) :
    redirects heap s ws.length
      = (.returned ws.length, { s with list := ⟨ws.map .str ++ .null :: extra⟩ }) := by
  have hin := inside_append (ws.map .str) extra p
  have hset := set_append (ws.map .str) extra p .null
  rw [List.length_map] at hin hset
  rw [redirects, if_neg (by rw [h.index]; omega), h.index,
    Parser.store_of_inside (by rw [h.list]; exact hin), h.list, hset, ← h.index]

/-- All words have been looked at, and the array has no room for the `NULL`. -/
theorem redirects_end_full (h : s.Holds ws []) :
    redirects heap s ws.length = (.returned ws.length, { s with inBounds := false }) := by
  have hout := not_inside_length (ws.map .str)
  rw [List.length_map] at hout
  rw [← h.index, redirects, if_neg (Int.lt_irrefl _),
    Parser.store_of_not_inside (by rw [h.list, h.index, List.append_nil]; exact hout)]

/-- There is no `>`. -/
theorem redirects_plain (hws : ∀ w ∈ ws, gt ∉ w) (h : s.Holds ws (p :: extra)) :
    redirects heap s 0 = (.returned ws.length, { s with list := ⟨ws.map .str ++ .null :: extra⟩ }) := by
  have hscan := redirects_scan heap ws hws [] (by rw [List.nil_append, List.append_nil]; exact h)
  rw [List.length_nil, Int.natCast_zero, Int.zero_add] at hscan
  rw [hscan, redirects_end heap h]

/-- The loop up to the first `>`. -/
theorem redirects_first (hpre : ∀ w ∈ pre, gt ∉ w) (hx : gt ∉ x) (hflag : s.redirectFlag = false)
    (h : s.Holds (pre ++ (x ++ gt :: t) :: post) extra) :
    redirects heap s 0
      = match s.redirect heap pre.length (x ++ gt :: t) x.length with
        | (s', none) => (.rejected, s')
        | (s', some j) => redirects heap { s' with redirectFlag := true } (j + 1) := by
  have hscan := redirects_scan heap pre hpre [] h
  rw [List.length_nil, Int.natCast_zero, Int.zero_add] at hscan
  rw [hscan, redirects_word heap h, indexOf_append hx, hflag]
  rfl

/-! ## The cases -/

/-- How many pieces follow a `>`: the rest of its word, and the words after it. -/
def after (t : Text) (post : List Text) : Nat := (if t = [] then 0 else 1) + post.length

/-- The first `>` of the words: the words before it, its own word, and the words after it. -/
structure FirstRedirect (ws pre : List Text) (x t : Text) (post : List Text) : Prop where
  eq : ws = pre ++ (x ++ gt :: t) :: post
  pre : ∀ w ∈ pre, gt ∉ w
  word : gt ∉ x

theorem firstRedirect_or_none (ws : List Text) :
    (∀ w ∈ ws, gt ∉ w) ∨ ∃ pre x t post, FirstRedirect ws pre x t post := by
  induction ws with
  | nil => exact Or.inl fun w hw => absurd hw List.not_mem_nil
  | cons w ws ih =>
      by_cases hw : gt ∈ w
      · obtain ⟨x, t, rfl, hx⟩ := List.eq_append_cons_of_mem hw
        exact Or.inr ⟨[], x, t, ws, rfl, fun w hw => absurd hw List.not_mem_nil, hx⟩
      · rcases ih with hall | ⟨pre, x, t, post, rfl, hpre, hx⟩
        · exact Or.inl (List.forall_mem_cons.mpr ⟨hw, hall⟩)
        · exact Or.inr ⟨w :: pre, x, t, post, rfl, List.forall_mem_cons.mpr ⟨hw, hpre⟩, hx⟩

/-- One piece follows the `>`. -/
theorem after_eq_one (h : after t post = 1) : (t = [] ∧ ∃ name, post = [name]) ∨ (t ≠ [] ∧ post = []) := by
  rw [after] at h
  split_ifs at h with ht
  · refine Or.inl ⟨ht, List.length_eq_one_iff.mp ?_⟩
    omega
  · refine Or.inr ⟨ht, List.length_eq_zero_iff.mp ?_⟩
    omega

theorem length_around (x t : Text) : (x ++ gt :: t).length = x.length + t.length + 1 := by
  rw [List.length_append, List.length_cons]
  omega

/-- There is no junk in the new blocks. -/
def Heap.clean : Heap := ⟨[], [], []⟩

/-- What follows the `>` is not one piece. -/
theorem redirects_rejected (hpre : ∀ w ∈ pre, gt ∉ w) (hx : gt ∉ x) (hflag : s.redirectFlag = false)
    (h : s.Holds (pre ++ (x ++ gt :: t) :: post) extra) (hafter : after t post ≠ 1) :
    ∃ s', redirects heap s 0 = (.rejected, s') ∧ s'.waitFlag = s.waitFlag ∧ s'.inBounds = s.inBounds := by
  have hindex := h.index_eq
  rw [redirects_first heap hpre hx hflag h, Parser.redirect, length_around]
  rw [after] at hafter
  by_cases ht : t = []
  · subst ht
    rw [if_pos rfl, Nat.zero_add] at hafter
    rw [List.length_nil, Nat.add_zero, Nat.add_sub_cancel]
    by_cases hx0 : x = []
    · subst hx0
      rw [if_pos (show ([] : Text).length + 1 = 1 from rfl), if_pos (by omega)]
      exact ⟨_, rfl, rfl, rfl⟩
    · have hpos := List.length_pos_iff.mpr hx0
      rw [if_neg (by omega), if_neg (by omega), if_pos rfl, if_pos (Or.inr (by omega))]
      exact ⟨_, rfl, rfl, rfl⟩
  · have htpos := List.length_pos_iff.mpr ht
    rw [if_neg ht] at hafter
    rw [if_neg (by omega)]
    by_cases hx0 : x = []
    · subst hx0
      rw [if_pos List.length_nil]
      dsimp only
      rw [if_pos (by omega)]
      exact ⟨_, rfl, rfl, rfl⟩
    · have hpos := List.length_pos_iff.mpr hx0
      rw [if_neg (by omega), if_neg (by omega), if_pos (by omega)]
      exact ⟨_, rfl, rfl, rfl⟩

/-- The two calls of `arrayRemove` for a `>` by itself. -/
theorem redirect_alone (h : s.Holds (pre ++ [[gt], name]) extra) :
    s.redirect heap pre.length [gt] 0
      = ({ s with list := ⟨pre.map .str ++ [.wild]⟩, index := pre.length, redirectFileName := .str name,
                  inBounds := false }, some ((pre.length : Int) - 2)) := by
  have hindex := h.index_eq
  have hlen : ((pre ++ [[gt]]).length : Int) = pre.length + 1 := by
    rw [List.length_append, List.length_singleton]
    omega
  have hsplit : s.Holds ((pre ++ [[gt]]) ++ [name]) extra := by rwa [List.append_assoc]
  have hin := hsplit.inside
  have hget := hsplit.get
  have hfirst := (hsplit.file (.str name)).arrayRemove
  have hsize : (pre.length : Int) + 2 = s.index := by
    rw [hindex, List.length_singleton]
    omega
  have hsecond : ({ s with list := ⟨(pre ++ [[gt]]).map .str⟩, redirectFileName := .str name } : Parser).arrayRemove
      s.index pre.length
      = { s with list := ⟨pre.map .str ++ [.wild]⟩, redirectFileName := .str name, inBounds := false } := by
    have hover := Parser.arrayRemove_over (l := pre.map .str) (p := .str [gt])
      (s := { s with list := ⟨(pre ++ [[gt]]).map .str⟩, redirectFileName := .str name }) (by simp)
    rw [List.length_map, hsize] at hover
    exact hover
  rw [hlen] at hin hget hfirst
  rw [Int.add_assoc, show (1 : Int) + 1 = 2 from rfl, hsize] at hfirst
  rw [Parser.redirect, if_pos (show [gt].length = 1 from rfl), if_neg (by rw [← hsize]; omega),
    Parser.touch_of_inside hin, hget]
  dsimp only
  rw [hfirst, hsecond]
  dsimp only
  have hcount : s.index - 2 = pre.length := by omega
  rw [hcount]

/-- The `>` and the file name are words of their own. -/
theorem redirects_alone (hpre : ∀ w ∈ pre, gt ∉ w) (hne : pre ≠ []) (hflag : s.redirectFlag = false)
    (h : s.Holds (pre ++ [[gt], name]) extra) :
    redirects heap s 0
      = (.returned pre.length, ⟨⟨pre.map .str ++ [.null]⟩, pre.length, s.waitFlag, true, .str name, false⟩) := by
  obtain ⟨front, last, rfl⟩ : ∃ front last, pre = front ++ [last] :=
    ⟨_, _, (List.dropLast_append_getLast hne).symm⟩
  have hfirst := redirects_first heap (x := []) hpre List.not_mem_nil hflag h
  rw [List.nil_append, List.length_nil, redirect_alone heap h] at hfirst
  dsimp only at hfirst
  rw [hfirst]
  -- the last word before the `>` is looked at again
  generalize hs' : (⟨⟨(front ++ [last]).map .str ++ [.wild]⟩, (front ++ [last]).length, s.waitFlag, true,
    .str name, false⟩ : Parser) = s'
  have hholds : s'.Holds (front ++ [last]) [.wild] := by
    rw [← hs']
    exact ⟨rfl, rfl⟩
  have hscan := redirects_scan heap [last] (fun w hw => hpre w (List.mem_append_right _ hw)) front
    (by rw [List.append_nil]; exact hholds)
  have hend := redirects_end heap hholds
  have hback : ((front ++ [last]).length : Int) - 2 + 1 = front.length := by
    rw [List.length_append, List.length_singleton]
    omega
  have hlen : (front.length : Int) + [last].length = (front ++ [last]).length := by
    rw [List.length_append]
    omega
  rw [hback, hscan, hlen, hend, ← hs']

/-- A line that starts with such a `>`: the word before it is not there. -/
theorem redirects_alone_nil (hflag : s.redirectFlag = false) (h : s.Holds [[gt], name] extra) :
    ∃ s', redirects heap s 0 = (.undefined, s') ∧ s'.inBounds = false := by
  have h' : s.Holds ([] ++ [[gt], name]) extra := h
  have hfirst := redirects_first heap (x := []) (fun w hw => absurd hw List.not_mem_nil)
    List.not_mem_nil hflag h'
  rw [List.nil_append, @List.length_nil UInt8, redirect_alone heap h'] at hfirst
  rw [hfirst]
  dsimp only
  rw [redirects]
  exact ⟨_, rfl, rfl⟩

/-- The `>` starts the last word. -/
theorem redirects_start (hpre : ∀ w ∈ pre, gt ∉ w) (ht : t ≠ []) (hflag : s.redirectFlag = false)
    (h : s.Holds (pre ++ [gt :: t]) extra) :
    redirects heap s 0
      = (.returned pre.length, ⟨⟨pre.map .str⟩, pre.length, s.waitFlag, true, .str (t ++ heap.first), false⟩) := by
  have hpos := List.length_pos_iff.mpr ht
  have hname : substring heap.first (gt :: t) 1 (gt :: t).length = .str (t ++ heap.first) := by
    rw [substring, List.length_cons, if_neg (by omega), if_neg (by omega), Nat.add_sub_cancel, List.drop_one,
      List.tail_cons, List.take_length]
  have hindex := h.index_eq
  rw [List.length_nil, Int.natCast_zero, Int.add_zero] at hindex
  have hremove := (h.file (.str (t ++ heap.first))).arrayRemove
  rw [← hindex] at hremove
  have hred : s.redirect heap pre.length (gt :: t) 0
      = ({ s with list := ⟨pre.map .str⟩, index := s.index - 1, redirectFileName := .str (t ++ heap.first) },
        some ((pre.length : Int) - 1)) := by
    rw [Parser.redirect, if_neg (by rw [List.length_cons]; omega), if_pos rfl, hname]
    dsimp only
    rw [if_neg (by omega), hremove]
  have hfirst := redirects_first heap (x := []) hpre List.not_mem_nil hflag h
  rw [List.nil_append, List.length_nil, hred] at hfirst
  dsimp only at hfirst
  have hend := redirects_end_full heap
    (s := ⟨⟨pre.map .str⟩, pre.length, s.waitFlag, true, .str (t ++ heap.first), s.inBounds⟩)
    ⟨by rw [List.append_nil], rfl⟩
  rw [hfirst, hindex, Int.add_sub_cancel, Int.sub_add_cancel]
  exact hend

/-- The `>` is at the end of the word before the last one, which is then looked at again. -/
theorem redirects_stop (hpre : ∀ w ∈ pre, gt ∉ w) (hx : gt ∉ x) (hne : x ≠ []) (hflag : s.redirectFlag = false)
    (h : s.Holds (pre ++ [x ++ [gt], name]) extra) :
    redirects heap s 0
      = if gt ∈ heap.first then
          (.rejected, ⟨⟨(pre ++ [x ++ heap.first]).map .str⟩, pre.length + 1, s.waitFlag, true, .str name,
            s.inBounds⟩)
        else
          (.returned (pre.length + 1), ⟨⟨(pre ++ [x ++ heap.first]).map .str⟩, pre.length + 1, s.waitFlag, true,
            .str name, false⟩) := by
  have hpos := List.length_pos_iff.mpr hne
  have hlen : (x ++ [gt]).length = x.length + 1 := List.length_append
  have hword : substring heap.first (x ++ [gt]) 0 ((x ++ [gt]).length - 1) = .str (x ++ heap.first) := by
    rw [substring, hlen, Nat.add_sub_cancel, if_neg (by omega), if_neg (by omega), List.drop_zero, Nat.sub_zero,
      List.take_left]
  have hindex := h.index_eq
  rw [List.length_singleton, Int.natCast_one] at hindex
  have hsplit : Parser.Holds { s with list := ⟨(pre ++ [x ++ heap.first, name]).map .str ++ extra⟩ }
      ((pre ++ [x ++ heap.first]) ++ [name]) extra :=
    ⟨by rw [List.append_assoc]; rfl, by rw [h.index]; simp⟩
  have hnext : ((pre ++ [x ++ heap.first]).length : Int) = pre.length + 1 := by
    rw [List.length_append, List.length_singleton]
    omega
  have hin := hsplit.inside
  have hget := hsplit.get
  have hremove := (hsplit.file (.str name)).arrayRemove
  rw [hnext] at hin hget hremove
  rw [← hindex] at hremove
  have hred : s.redirect heap pre.length (x ++ [gt]) x.length
      = ({ s with list := ⟨(pre ++ [x ++ heap.first]).map .str⟩, index := s.index - 1,
                  redirectFileName := .str name }, some ((pre.length : Int) - 1)) := by
    rw [Parser.redirect, hword, hlen, if_neg (by omega), if_neg (by omega), if_pos (by omega), if_neg (by omega),
      h.store]
    dsimp only
    rw [Parser.touch_of_inside hin, hget]
    dsimp only
    rw [hremove]
  have hfirst := redirects_first heap hpre hx hflag h
  rw [hred] at hfirst
  dsimp only at hfirst
  rw [hfirst, hindex, Int.add_sub_cancel, Int.sub_add_cancel]
  -- the word has no `>` any more, unless there is one behind it
  generalize hs' : (⟨⟨(pre ++ [x ++ heap.first]).map .str⟩, pre.length + 1, s.waitFlag, true, .str name,
    s.inBounds⟩ : Parser) = s'
  have hholds : s'.Holds (pre ++ [x ++ heap.first]) [] := by
    rw [← hs']
    exact ⟨by rw [List.append_nil], hnext.symm⟩
  have hflag' : s'.redirectFlag = true := by rw [← hs']
  rw [redirects_word heap hholds]
  split_ifs with hjunk
  · obtain ⟨c, hc⟩ := indexOf_some (List.mem_append_right x hjunk)
    rw [hc]
  · have hend := redirects_end_full heap hholds
    rw [hnext] at hend
    rw [indexOf_none (by rw [List.mem_append]; exact not_or.mpr ⟨hx, hjunk⟩)]
    dsimp only
    rw [hend, ← hs']

/-- The `>` is in the middle of the last word. -/
theorem redirects_middle (hpre : ∀ w ∈ pre, gt ∉ w) (hx : gt ∉ x) (hne : x ≠ []) (ht : t ≠ [])
    (hflag : s.redirectFlag = false) (h : s.Holds (pre ++ [x ++ gt :: t]) (p :: extra)) :
    redirects heap s 0
      = (.returned (pre.length + 1), ⟨⟨(pre ++ [x ++ heap.first]).map .str ++ .null :: extra⟩, pre.length + 1,
          s.waitFlag, true, .str (t ++ heap.second), s.inBounds⟩) := by
  have hpos := List.length_pos_iff.mpr hne
  have htpos := List.length_pos_iff.mpr ht
  have hlen := length_around x t
  have hword : substring heap.first (x ++ gt :: t) 0 x.length = .str (x ++ heap.first) := by
    rw [substring, if_neg (by omega), if_neg (by omega), List.drop_zero, Nat.sub_zero, List.take_left]
  have hname : substring heap.second (x ++ gt :: t) (x.length + 1) (x ++ gt :: t).length
      = .str (t ++ heap.second) := by
    have hdrop : (x ++ gt :: t).drop (x.length + 1) = t := by simp
    rw [substring, hdrop, if_neg (by omega), if_neg (by omega), hlen, List.take_of_length_le (by omega)]
  have hindex := h.index_eq
  rw [List.length_nil, Int.natCast_zero, Int.add_zero] at hindex
  have hred : s.redirect heap pre.length (x ++ gt :: t) x.length
      = ({ s with list := ⟨(pre ++ [x ++ heap.first]).map .str ++ p :: extra⟩,
                  redirectFileName := .str (t ++ heap.second) }, some (pre.length : Int)) := by
    rw [Parser.redirect, hword, hname, hlen, if_neg (by omega), if_neg (by omega), if_neg (by omega),
      if_neg (by omega), h.store]
  have hfirst := redirects_first heap hpre hx hflag h
  rw [hred] at hfirst
  dsimp only at hfirst
  have hnext : ((pre ++ [x ++ heap.first]).length : Int) = pre.length + 1 := by
    rw [List.length_append, List.length_singleton]
    omega
  have hend := redirects_end heap
    (s := ⟨⟨(pre ++ [x ++ heap.first]).map .str ++ p :: extra⟩, pre.length + 1, s.waitFlag, true,
      .str (t ++ heap.second), s.inBounds⟩) ⟨rfl, hnext.symm⟩
  rw [hnext] at hend
  rw [hfirst, hindex]
  exact hend

/-! ## The `&` -/

/-- The last word is dropped if it is a `&`. -/
def dropWord (ws : List Text) : List Text := if ws.getLast? = some [amp] then ws.dropLast else ws

/-- A word without a `&` at its end. -/
def trim (w : Text) : Text := if w.getLast? = some amp then w.dropLast else w

/-- A `&` at the end of the last word is dropped. -/
def dropChar (ws : List Text) : List Text :=
  match ws.getLast? with
  | none => ws
  | some w => ws.dropLast ++ [trim w]

/-- The last word ends with a `&`. -/
def background (ws : List Text) : Bool := (ws.getLast?.bind List.getLast?) = some amp

/-- What `parseArgv` leaves of the words of the line before it looks for a `>`. -/
def command (ws : List Text) : List Text := dropChar (dropWord ws)

theorem dropWord_append (ws : List Text) (w : Text) :
    dropWord (ws ++ [w]) = if w = [amp] then ws else ws ++ [w] := by
  rw [dropWord, List.getLast?_concat, List.dropLast_concat]
  simp only [Option.some.injEq]

theorem dropChar_append (ws : List Text) (w : Text) : dropChar (ws ++ [w]) = ws ++ [trim w] := by
  rw [dropChar, List.getLast?_concat, List.dropLast_concat]

theorem background_append (ws : List Text) (w : Text) :
    background (ws ++ [w]) = decide (w.getLast? = some amp) := by
  rw [background, List.getLast?_concat]
  rfl

theorem get_neg_one (h : s.index = 0) : s.list.get (s.index - 1) = .wild := by
  rw [h]
  exact if_neg fun hin => absurd hin.1 (by decide)

theorem Parser.touch_neg_one (h : s.index = 0) : (s.touch (s.index - 1)).inBounds = false := by
  have hout : ¬s.list.Inside (s.index - 1) := fun hin => absurd hin.1 (by omega)
  rw [touch, decide_eq_false hout, Bool.and_false]

theorem Parser.Holds.index_last (h : s.Holds (ws ++ [w]) extra) : s.index - 1 = ws.length := by
  have hindex := h.index_eq
  rw [List.length_nil, Int.natCast_zero] at hindex
  omega

/-- No word is left. -/
theorem waits_undefined (h : s.Holds ws extra) (hws : dropWord ws = []) :
    ∃ s', waits heap s = (.undefined, s') ∧ s'.inBounds = false := by
  rcases List.eq_nil_or_concat ws with rfl | ⟨front, w, rfl⟩
  · have hindex : s.index = 0 := h.index
    rw [waits, get_neg_one hindex]
    exact ⟨_, rfl, Parser.touch_neg_one hindex⟩
  · rw [List.concat_eq_append] at h hws
    rw [dropWord_append] at hws
    split_ifs at hws with hw
    · subst hw hws
      have hget := h.get
      have hin := h.inside
      rw [← h.index_last] at hget hin
      rw [waits, hget]
      dsimp only
      rw [if_pos rfl, Parser.touch_of_inside hin]
      have hindex : ({ s with waitFlag := true, index := s.index - 1 } : Parser).index = 0 := h.index_last
      rw [waitsEnd, get_neg_one hindex]
      exact ⟨_, rfl, Parser.touch_neg_one hindex⟩
    · exact absurd hws (by simp)

theorem waitsEnd_redirects (h : s.Holds (ws ++ [w]) extra) :
    ∃ s', waitsEnd heap s = redirects heap s' 0 ∧ s'.Holds (ws ++ [trim w]) extra
      ∧ s'.waitFlag = (s.waitFlag || decide (w.getLast? = some amp))
      ∧ s'.redirectFlag = s.redirectFlag ∧ s'.inBounds = s.inBounds := by
  have hget := h.get
  have hin := h.inside
  have hset := congrArg Parser.list (h.store w.dropLast)
  rw [Parser.store_of_inside hin] at hset
  rw [← h.index_last] at hget hin hset
  dsimp only at hset
  rw [waitsEnd, hget, trim]
  dsimp only
  rw [Parser.touch_of_inside hin]
  split_ifs with hw
  · refine ⟨_, rfl, ⟨hset, ?_⟩, ?_, rfl, rfl⟩
    · rw [h.index, List.length_append, List.length_append, List.length_singleton, List.length_singleton]
    · rw [decide_eq_true hw, Bool.or_true]
  · refine ⟨s, rfl, h, ?_, rfl, rfl⟩
    rw [decide_eq_false hw, Bool.or_false]

/-- The words that are left are looked at. -/
theorem waits_redirects (h : s.Holds ws (p :: extra)) (hws : dropWord ws ≠ []) (hwait : s.waitFlag = false) :
    ∃ s' p' extra', waits heap s = redirects heap s' 0 ∧ s'.Holds (command ws) (p' :: extra')
      ∧ s'.waitFlag = background ws ∧ s'.redirectFlag = s.redirectFlag ∧ s'.inBounds = s.inBounds := by
  rcases List.eq_nil_or_concat ws with rfl | ⟨front, w, rfl⟩
  · exact absurd rfl hws
  rw [List.concat_eq_append] at h hws ⊢
  have hget := h.get
  have hin := h.inside
  rw [← h.index_last] at hget hin
  rw [dropWord_append] at hws
  rw [waits, hget, command, dropWord_append, background_append]
  dsimp only
  rw [Parser.touch_of_inside hin]
  split_ifs at hws ⊢ with hw
  · -- the `&` stays in the array, behind the words
    subst hw
    obtain ⟨front, w, rfl⟩ := (List.eq_nil_or_concat front).resolve_left hws
    rw [List.concat_eq_append] at h hws ⊢
    have hholds : Parser.Holds { s with waitFlag := true, index := s.index - 1 } (front ++ [w])
        (.str [amp] :: p :: extra) := by
      refine ⟨?_, h.index_last⟩
      rw [h.list, List.map_append, List.append_assoc]
      rfl
    obtain ⟨s', heq, hs', hwait', hflag, hok⟩ := waitsEnd_redirects heap hholds
    rw [dropChar_append]
    exact ⟨s', _, _, heq, hs', hwait', hflag, hok⟩
  · obtain ⟨s', heq, hs', hwait', hflag, hok⟩ := waitsEnd_redirects heap h
    rw [dropChar_append]
    refine ⟨s', _, _, heq, hs', ?_, hflag, hok⟩
    rw [hwait', hwait, Bool.false_or]

theorem command_ne_nil (h : dropWord ws ≠ []) : command ws ≠ [] := by
  obtain ⟨front, w, hws⟩ := (List.eq_nil_or_concat (dropWord ws)).resolve_left h
  rw [command, hws, List.concat_eq_append, dropChar_append]
  exact List.append_ne_nil_of_right_ne_nil _ (List.cons_ne_nil _ _)

/-- No word is left. -/
theorem parseArgv_undefined {input : Text} (h : dropWord (tokens space input) = []) :
    ∃ s, parseArgv heap input = (.undefined, s) ∧ s.inBounds = false := by
  refine @waits_undefined heap _ _ (tokens space input) ⟨rfl, rfl⟩ h

/-- The words that are left are looked at. -/
theorem parseArgv_redirects {input : Text} (h : dropWord (tokens space input) ≠ []) :
    ∃ s p extra, parseArgv heap input = redirects heap s 0 ∧ s.Holds (command (tokens space input)) (p :: extra)
      ∧ s.waitFlag = background (tokens space input) ∧ s.redirectFlag = false ∧ s.inBounds = true := by
  have hcount := length_tokens_append space input heap.copy
  obtain ⟨k, hk⟩ : ∃ k, (tokens space (input ++ heap.copy)).length + 1 - (tokens space input).length = k + 1 :=
    ⟨(tokens space (input ++ heap.copy)).length - (tokens space input).length, by omega⟩
  rw [parseArgv, hk, List.replicate_succ]
  obtain ⟨s, p, extra, heq, hholds, hwait, hflag, hok⟩ := @waits_redirects heap
    ⟨⟨(tokens space input).map .str ++ .wild :: List.replicate k .wild⟩, (tokens space input).length, false,
      false, .wild, decide ((tokens space input).length ≤ (tokens space (input ++ heap.copy)).length + 1)⟩
    _ _ (tokens space input) ⟨rfl, rfl⟩ h rfl
  exact ⟨s, p, extra, heq, hholds, hwait, hflag, hok.trans (decide_eq_true (by omega))⟩

end Cs537.Shell
