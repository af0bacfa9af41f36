import Mathlib.Data.List.Basic
import Mathlib.Logic.Function.Basic

/-!
# Rings of nodes linked both ways

A head and any number of nodes, each with a pointer to the next and one to the previous,
closed to a ring through the head. Taking a node out and putting one behind the head are
a few stores each; what they do to the list of the nodes is all that their callers need
to know. Walks along the pointers, in either direction, are searches in that list.
-/

namespace Cs537.Lib

variable {α : Type} {xs ys : List α} {a b c : Option α} {x : α}

/-- The pointers; the head is `none`. -/
structure Links (α : Type) where
  next : Option α → Option α
  prev : Option α → Option α

/-- From `a` along `xs` to `c`, and back. -/
def Path (l : Links α) : Option α → List α → Option α → Prop
  | a, [], c => l.next a = c ∧ l.prev c = a
  | a, x :: xs, c => l.next a = some x ∧ l.prev (some x) = a ∧ Path l (some x) xs c

/-- The ring holds `xs`, each node once. -/
structure Ring (l : Links α) (xs : List α) : Prop where
  path : Path l none xs none
  nodup : xs.Nodup

/-- The head alone. -/
def Links.head : Links α := ⟨fun _ => none, fun _ => none⟩

theorem ring_head : Ring (Links.head : Links α) [] := ⟨⟨rfl, rfl⟩, List.nodup_nil⟩

variable {l l' : Links α}

theorem path_append : Path l a (xs ++ x :: ys) c ↔ Path l a xs (some x) ∧ Path l (some x) ys c := by
  induction xs generalizing a with
  | nil => exact (and_assoc).symm
  | cons y xs ih =>
      show _ ∧ _ ∧ Path l (some y) (xs ++ x :: ys) c ↔ (_ ∧ _ ∧ Path l (some y) xs (some x)) ∧ _
      rw [ih, and_assoc, and_assoc]

/-- The node before the end of a path from `a`. -/
def lastOf (a : Option α) (xs : List α) : Option α := (xs.getLast?).or a

/-- The node after the start of a path to `c`. -/
def firstOf (xs : List α) (c : Option α) : Option α := (xs.head?).or c

@[simp] theorem lastOf_nil (a : Option α) : lastOf a [] = a := rfl

theorem lastOf_cons (a : Option α) (x : α) (xs : List α) : lastOf a (x :: xs) = lastOf (some x) xs := by
  cases xs with
  | nil => rfl
  | cons y ys => rw [lastOf, lastOf, List.getLast?_cons_cons, List.getLast?_cons]; rfl

@[simp] theorem firstOf_nil (c : Option α) : firstOf [] c = c := rfl

@[simp] theorem firstOf_cons (x : α) (xs : List α) (c : Option α) : firstOf (x :: xs) c = some x := rfl

theorem Path.next_eq (h : Path l a xs c) : l.next a = firstOf xs c := by
  cases xs with
  | nil => exact h.1
  | cons x xs => exact h.1

theorem Path.prev_eq (h : Path l a xs c) : l.prev c = lastOf a xs := by
  induction xs generalizing a with
  | nil => exact h.2
  | cons x xs ih =>
      rw [lastOf_cons]
      exact ih h.2.2

/-- Stores to nodes that are not on the path leave it. -/
theorem Path.congr (h : Path l a xs c) (hnext : ∀ n, n = a ∨ (∃ x ∈ xs, n = some x) → l'.next n = l.next n)
    (hprev : ∀ n, n = c ∨ (∃ x ∈ xs, n = some x) → l'.prev n = l.prev n) : Path l' a xs c := by
  induction xs generalizing a with
  | nil => exact ⟨(hnext a (Or.inl rfl)).trans h.1, (hprev c (Or.inl rfl)).trans h.2⟩
  | cons x xs ih =>
      refine ⟨(hnext a (Or.inl rfl)).trans h.1, (hprev _ (Or.inr ⟨x, List.mem_cons_self .., rfl⟩)).trans h.2.1,
        ih h.2.2 ?_ ?_⟩
      · rintro n (rfl | ⟨y, hy, rfl⟩)
        · exact hnext _ (Or.inr ⟨x, List.mem_cons_self .., rfl⟩)
        · exact hnext _ (Or.inr ⟨y, List.mem_cons_of_mem _ hy, rfl⟩)
      · rintro n (rfl | ⟨y, hy, rfl⟩)
        · exact hprev _ (Or.inl rfl)
        · exact hprev _ (Or.inr ⟨y, List.mem_cons_of_mem _ hy, rfl⟩)

theorem lastOf_mem (a : Option α) (xs : List α) : lastOf a xs = a ∨ ∃ x ∈ xs, lastOf a xs = some x := by
  induction xs generalizing a with
  | nil => exact Or.inl rfl
  | cons x xs ih =>
      rw [lastOf_cons]
      rcases ih (some x) with h | ⟨y, hy, h⟩
      · exact Or.inr ⟨x, List.mem_cons_self .., h⟩
      · exact Or.inr ⟨y, List.mem_cons_of_mem _ hy, h⟩

theorem firstOf_mem (xs : List α) (c : Option α) : firstOf xs c = c ∨ ∃ x ∈ xs, firstOf xs c = some x := by
  cases xs with
  | nil => exact Or.inl rfl
  | cons x xs => exact Or.inr ⟨x, List.mem_cons_self .., rfl⟩

/-- The last node of a path is linked to another end. -/
theorem Path.retarget {d : Option α} (h : Path l a xs d) (ha : ∀ x ∈ xs, a ≠ some x) (hnd : xs.Nodup)
    (hnext : ∀ n, n = a ∨ (∃ x ∈ xs, n = some x) → n ≠ lastOf a xs → l'.next n = l.next n)
    (hprev : ∀ x ∈ xs, l'.prev (some x) = l.prev (some x))
    (hlast : l'.next (lastOf a xs) = c) (hback : l'.prev c = lastOf a xs) : Path l' a xs c := by
  induction xs generalizing a with
  | nil => exact ⟨hlast, hback⟩
  | cons x xs ih =>
      rw [lastOf_cons] at hnext hlast hback
      have hx : ∀ y ∈ xs, some x ≠ some y := by
        intro y hy heq
        exact (List.nodup_cons.mp hnd).1 (Option.some.inj heq ▸ hy)
      have hane : a ≠ lastOf (some x) xs := by
        intro heq
        rcases lastOf_mem (some x) xs with h' | ⟨y, hy, h'⟩
        · exact ha x (List.mem_cons_self ..) (heq.trans h')
        · exact ha y (List.mem_cons_of_mem _ hy) (heq.trans h')
      refine ⟨(hnext a (Or.inl rfl) hane).trans h.1, (hprev x (List.mem_cons_self ..)).trans h.2.1,
        ih h.2.2 hx (List.nodup_cons.mp hnd).2 ?_ (fun y hy => hprev y (List.mem_cons_of_mem _ hy)) hlast hback⟩
      rintro n (rfl | ⟨y, hy, rfl⟩) hn
      · exact hnext _ (Or.inr ⟨x, List.mem_cons_self .., rfl⟩) hn
      · exact hnext _ (Or.inr ⟨y, List.mem_cons_of_mem _ hy, rfl⟩) hn

/-! ## Walks -/

/-- The first node with `p` on the way `go`, before the head. At most `k` nodes are looked at. -/
def scan (go : Option α → Option α) (p : α → Bool) : Nat → Option α → Option α
  | 0, _ => none
  | _ + 1, none => none
  | k + 1, some b => if p b then some b else scan go p k (go (some b))

theorem scan_path {p : α → Bool} {k : Nat} (h : Path l a xs none) (hk : xs.length < k) :
    scan l.next p k (l.next a) = xs.find? p := by
  induction xs generalizing a k with
  | nil =>
      rw [h.1]
      cases k with
      | zero => rfl
      | succ k => rfl
  | cons x xs ih =>
      obtain ⟨k, rfl⟩ := Nat.exists_eq_succ_of_ne_zero (Nat.ne_of_gt (Nat.lt_of_le_of_lt (Nat.zero_le _) hk))
      rw [h.1, scan, List.find?_cons]
      cases p x with
      | true => rfl
      | false => exact ih h.2.2 (Nat.lt_of_succ_lt_succ hk)

/-- The same nodes, the other way round. -/
def Links.flip (l : Links α) : Links α := ⟨l.prev, l.next⟩

theorem Path.flip (h : Path l a xs c) : Path l.flip c xs.reverse a := by
  induction xs generalizing a with
  | nil => exact ⟨h.2, h.1⟩
  | cons x xs ih =>
      rw [List.reverse_cons]
      exact path_append.mpr ⟨ih h.2.2, h.2.1, h.1⟩

/-- Forwards from the head. -/
theorem Ring.scan_next {p : α → Bool} {k : Nat} (h : Ring l xs) (hk : xs.length < k) :
    scan l.next p k (l.next none) = xs.find? p := scan_path h.path hk

/-- Backwards from the head. -/
theorem Ring.scan_prev {p : α → Bool} {k : Nat} (h : Ring l xs) (hk : xs.length < k) :
    scan l.prev p k (l.prev none) = xs.reverse.find? p :=
  @scan_path _ _ _ l.flip p k h.path.flip (by rw [List.length_reverse]; exact hk)

/-! ## Taking a node out, and putting one behind the head -/

variable [DecidableEq α]

/-- `b->next->prev = b->prev; b->prev->next = b->next;` -/
def Links.unlink (l : Links α) (b : α) : Links α :=
  let l := { l with prev := Function.update l.prev (l.next (some b)) (l.prev (some b)) }
  { l with next := Function.update l.next (l.prev (some b)) (l.next (some b)) }

/-- `b->next = head.next; b->prev = &head; head.next->prev = b; head.next = b;` -/
def Links.insertHead (l : Links α) (b : α) : Links α :=
  let l := { l with next := Function.update l.next (some b) (l.next none) }
  let l := { l with prev := Function.update l.prev (some b) none }
  let l := { l with prev := Function.update l.prev (l.next none) (some b) }
  { l with next := Function.update l.next none (some b) }

theorem Ring.unlink (h : Ring l (xs ++ x :: ys)) : Ring (l.unlink x) (xs ++ ys) := by
  obtain ⟨hpath, hnd⟩ := h
  obtain ⟨hleft, hright⟩ := path_append.mp hpath
  obtain ⟨hndx, hndy, hdisj⟩ := List.nodup_append.mp hnd
  obtain ⟨hxy, hndy⟩ := List.nodup_cons.mp hndy
  have hxx : ∀ y ∈ xs, y ≠ x := fun y hy => hdisj y hy x (List.mem_cons_self ..)
  have hxsys : ∀ y ∈ xs, ∀ z ∈ ys, y ≠ z := fun y hy z hz => hdisj y hy z (List.mem_cons_of_mem _ hz)
  have hc := hright.next_eq
  have ha := hleft.prev_eq
  have hcne : firstOf ys none ≠ some x := by
    intro heq
    rcases firstOf_mem ys none with h' | ⟨y, hy, h'⟩
    · rw [h'] at heq
      cases heq
    · rw [h'] at heq
      exact hxy (Option.some.inj heq ▸ hy)
  -- what the two stores come to
  have hprev : (l.unlink x).prev = Function.update l.prev (firstOf ys none) (lastOf none xs) := by
    rw [← hc, ← ha]
    rfl
  have hnext : (l.unlink x).next = Function.update l.next (lastOf none xs) (firstOf ys none) := by
    show Function.update l.next (Function.update l.prev (l.next (some x)) (l.prev (some x)) (some x))
      (l.next (some x)) = _
    rw [hc, Function.update_of_ne (Ne.symm hcne), ha]
  have hpast : ∀ y ∈ ys, some y ≠ lastOf none xs := by
    intro y hy heq
    rcases lastOf_mem none xs with h' | ⟨z, hz, h'⟩
    · rw [h'] at heq
      cases heq
    · rw [h'] at heq
      exact hxsys z hz y hy (Option.some.inj heq).symm
  have hfirst : ∀ y ∈ xs, some y ≠ firstOf ys none := by
    intro y hy heq
    rcases firstOf_mem ys none with h' | ⟨z, hz, h'⟩
    · rw [h'] at heq
      cases heq
    · rw [h'] at heq
      exact hxsys y hy z hz (Option.some.inj heq)
  have hnew : Path (l.unlink x) none xs (firstOf ys none) := by
    refine hleft.retarget (by simp) hndx (fun n _ hn => ?_) (fun y hy => ?_) ?_ ?_
    · rw [hnext, Function.update_of_ne hn]
    · rw [hprev, Function.update_of_ne (hfirst y hy)]
    · rw [hnext, Function.update_self]
    · rw [hprev, Function.update_self]
  refine ⟨?_, ?_⟩
  · cases ys with
    | nil =>
        rw [List.append_nil]
        exact hnew
    | cons y ys =>
        refine path_append.mpr ⟨hnew, hright.2.2.congr ?_ ?_⟩
        · rintro n (rfl | ⟨z, hz, rfl⟩)
          · rw [hnext, Function.update_of_ne (hpast y (List.mem_cons_self ..))]
          · rw [hnext, Function.update_of_ne (hpast z (List.mem_cons_of_mem _ hz))]
        · rintro n (rfl | ⟨z, hz, rfl⟩)
          · rw [hprev, firstOf_cons, Function.update_of_ne (by simp)]
          · rw [hprev, firstOf_cons, Function.update_of_ne]
            intro heq
            exact (List.nodup_cons.mp hndy).1 (Option.some.inj heq ▸ hz)
  · exact List.nodup_append.mpr ⟨hndx, hndy, hxsys⟩

theorem Ring.insertHead (h : Ring l xs) (hx : x ∉ xs) : Ring (l.insertHead x) (x :: xs) := by
  obtain ⟨hpath, hnd⟩ := h
  have hfirst := hpath.next_eq
  have hne : some x ≠ firstOf xs none := by
    intro heq
    rcases firstOf_mem xs none with h' | ⟨y, hy, h'⟩
    · rw [h'] at heq
      cases heq
    · rw [h'] at heq
      exact hx (Option.some.inj heq ▸ hy)
  have hnext : (l.insertHead x).next
      = Function.update (Function.update l.next (some x) (firstOf xs none)) none (some x) := by
    rw [← hfirst]
    rfl
  have hprev : (l.insertHead x).prev
      = Function.update (Function.update l.prev (some x) none) (firstOf xs none) (some x) := by
    show Function.update _ (Function.update l.next (some x) (l.next none) none) _ = _
    rw [Function.update_of_ne (by simp), hfirst]
  refine ⟨⟨?_, ?_, ?_⟩, List.nodup_cons.mpr ⟨hx, hnd⟩⟩
  · rw [hnext, Function.update_self]
  · rw [hprev, Function.update_of_ne hne, Function.update_self]
  · cases xs with
    | nil =>
        refine ⟨?_, ?_⟩
        · rw [hnext, Function.update_of_ne (by simp), Function.update_self]
          rfl
        · rw [hprev, firstOf_nil, Function.update_self]
    | cons y ys =>
        have hxne : ∀ z ∈ y :: ys, some z ≠ some x := fun z hz heq => hx (Option.some.inj heq ▸ hz)
        refine ⟨?_, ?_, hpath.2.2.congr ?_ ?_⟩
        · rw [hnext, Function.update_of_ne (by simp), Function.update_self]
          rfl
        · rw [hprev, firstOf_cons, Function.update_self]
        · rintro n hn
          have hsome : ∃ z ∈ y :: ys, n = some z := by
            rcases hn with rfl | ⟨z, hz, rfl⟩
            · exact ⟨y, List.mem_cons_self .., rfl⟩
            · exact ⟨z, List.mem_cons_of_mem _ hz, rfl⟩
          obtain ⟨z, hz, rfl⟩ := hsome
          rw [hnext, Function.update_of_ne (by simp), Function.update_of_ne (hxne z hz)]
        · rintro n (rfl | ⟨z, hz, rfl⟩)
          · rw [hprev, firstOf_cons, Function.update_of_ne (by simp), Function.update_of_ne (by simp)]
          · rw [hprev, firstOf_cons, Function.update_of_ne, Function.update_of_ne (hxne z (List.mem_cons_of_mem _ hz))]
            intro heq
            exact (List.nodup_cons.mp hnd).1 (Option.some.inj heq ▸ hz)

end Cs537.Lib
