import Mathlib.Data.Nat.ModEq
import Mathlib.Data.List.Basic

/-!
# Ring buffers

A queue kept in a fixed row of cells: the elements sit at `use`, `use + 1`, …,
wrapping round at the end. The wrap-around is confined to two facts: slots less
than one revolution apart are different, and moving the start on by one moves
every slot on by one. Pushing and popping follow from those.
-/

namespace Cs537.Lib

variable {α : Type}

/-- The cell `i` places after `use`. -/
def slot (cells : List α) (use i : Nat) : Nat := (use + i) % cells.length

/-- From `use` on, the cells hold the elements of `q` in order. -/
def Holds (cells : List α) (use : Nat) (q : List α) : Prop :=
  ∀ i, i < q.length → cells[slot cells use i]? = q[i]?

theorem slot_lt {cells : List α} {use i : Nat} (h : 0 < cells.length) :
    slot cells use i < cells.length := Nat.mod_lt _ h

/-- Less than one revolution apart, the slots are different. -/
theorem slot_ne {cells : List α} {use i j : Nat} (hij : i < j) (hj : j < cells.length) :
    slot cells use i ≠ slot cells use j := by
  intro h
  have hmod : use + i ≡ use + j [MOD cells.length] := h
  have := Nat.ModEq.add_left_cancel' use hmod
  rw [Nat.ModEq, Nat.mod_eq_of_lt (by omega), Nat.mod_eq_of_lt hj] at this
  omega

theorem slot_succ (cells : List α) (use i : Nat) :
    slot cells ((use + 1) % cells.length) i = slot cells use (i + 1) := by
  unfold slot
  rw [Nat.mod_add_mod, Nat.add_assoc, Nat.add_comm 1 i]

theorem slot_congr {cells : List α} {use use' : Nat} (h : use ≡ use' [MOD cells.length]) (i : Nat) :
    slot cells use i = slot cells use' i := Nat.ModEq.add_right i h

/-- The start may be counted in whole revolutions more or less. -/
theorem Holds.congr {cells q : List α} {use use' : Nat} (h : Holds cells use q)
    (hmod : use' ≡ use [MOD cells.length]) : Holds cells use' q := by
  intro i hi
  rw [slot_congr hmod, h i hi]

/-- Storing into the slot after the last element appends it. -/
theorem Holds.push {cells q : List α} {use : Nat} {x : α} (h : Holds cells use q)
    (hq : q.length < cells.length) :
    Holds (cells.set (slot cells use q.length) x) use (q ++ [x]) := by
  intro i hi
  have hslot : slot (cells.set (slot cells use q.length) x) use i = slot cells use i := by
    unfold slot; rw [List.length_set]
  rw [hslot]
  simp only [List.length_append, List.length_singleton] at hi
  rcases Nat.lt_or_ge i q.length with hlt | hge
  · rw [List.getElem?_set_ne (slot_ne hlt hq).symm, h i hlt, List.getElem?_append_left hlt]
  · have hi' : i = q.length := by omega
    subst hi'
    rw [List.getElem?_set_self (slot_lt (by omega)), List.getElem?_append_right (Nat.le_refl _)]
    simp

/-- The first element is at `use`, and the rest start one slot on. -/
theorem Holds.pop {cells q : List α} {use : Nat} {x : α} (h : Holds cells use (x :: q)) :
    cells[slot cells use 0]? = some x ∧ Holds cells ((use + 1) % cells.length) q := by
  refine ⟨h 0 (by simp), ?_⟩
  intro i hi
  rw [slot_succ, h (i + 1) (by simp; omega), List.getElem?_cons_succ]

end Cs537.Lib
